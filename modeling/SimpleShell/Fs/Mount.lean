import SimpleShell.Fs.Write

/-!
# Open inodes

`inode_open` and `inode_close` over a volume. An inode in memory is the inode
of its sector, and the sector holds the same inode or, after an extension that
failed, an older copy without the pointers that were gained. Opening reads that
copy and closing goes back to it, so both keep the volume; the pointers that
are lost on the way cost sectors but are never given to anyone else.
-/

namespace SimpleShell.Fs

open SimpleShell.Lib

structure Mounted (D K : Set Nat) (dat : Nat → Sector) (s : FileSys) : Prop where
  vol : Vol D K dat s
  opened : ∀ p ∈ s.mem.openInodes,
    IsOpen dat s p (s.inode p).sector ∧ (s.inode p).sector ∈ K
  inj : ∀ p ∈ s.mem.openInodes, ∀ q ∈ s.mem.openInodes,
    (s.inode p).sector = (s.inode q).sector → p = q
  nodup : s.mem.openInodes.Nodup
  mapOpen : ∀ f, s.mem.freeMapFile = some f → f.inode ∈ s.mem.openInodes
  closed : ∀ k ∈ K, (∀ p ∈ s.mem.openInodes, (s.inode p).sector ≠ k) →
    s.content k = dat k
  disk : ∀ k ∈ K, k ≠ 0 →
    FileOk s.content s.cache.size (s.content k) ∧ Older (s.content k) (dat k)

section Mounted

variable {D K : Set Nat} {dat : Nat → Sector} {s s' : FileSys} {p q k j : Nat}
  {d d' : Sector}

/-- `p` is the open inode of sector `k`. -/
structure Opened (dat : Nat → Sector) (s : FileSys) (p k : Nat) : Prop where
  mem : p ∈ s.mem.openInodes
  isOpen : IsOpen dat s p k

theorem Mounted.opened_iff (h : Mounted D K dat s) :
    Opened dat s p k ↔ p ∈ s.mem.openInodes ∧ (s.inode p).sector = k := by
  constructor
  · exact fun ho => ⟨ho.mem, ho.isOpen.sector⟩
  · rintro ⟨hmem, rfl⟩
    exact ⟨hmem, (h.opened p hmem).1⟩

theorem Mounted.opened_mem (h : Mounted D K dat s) (ho : Opened dat s p k) : k ∈ K :=
  ho.isOpen.sector ▸ (h.opened p ho.mem).2

theorem Mounted.opened_eq (h : Mounted D K dat s) (hp : Opened dat s p k)
    (hq : Opened dat s q k) : p = q :=
  h.inj p hp.mem q hq.mem (hp.isOpen.sector.trans hq.isOpen.sector.symm)

/-- The free map's inode is open. -/
theorem Mounted.map_opened (h : Mounted D K dat s) :
    ∃ f, s.mem.freeMapFile = some f ∧ Opened dat s f.inode 0 := by
  obtain ⟨f, i, hf, hget, hsec, -⟩ := h.vol.mapFile
  refine ⟨f, hf, h.opened_iff.2 ⟨h.mapOpen f hf, ?_⟩⟩
  rw [FileSys.inode_eq hget]
  exact hsec

/-- Every inode of the volume reads from its sector as `e` would. -/
theorem Mounted.closed_ne_zero (h : Mounted D K dat s)
    (hno : ∀ p ∈ s.mem.openInodes, (s.inode p).sector ≠ k) : k ≠ 0 := by
  rintro rfl
  obtain ⟨f, -, ho⟩ := h.map_opened
  exact hno _ ho.mem ho.isOpen.sector

/-! ## Steps that do not touch the tables -/

theorem IsOpen.congr {t : FileSys} (hp : IsOpen dat s p k) (hmem : t.mem.inodes = s.mem.inodes) :
    IsOpen dat t p k := by
  have hinode : t.inode p = s.inode p := by
    unfold FileSys.inode
    rw [hmem]
  constructor
  · rw [hmem, hinode]; exact hp.live
  · rw [hinode]; exact hp.sector
  · rw [hinode]; exact hp.data
  · rw [hinode]; exact hp.openCnt
  · rw [hinode]; exact hp.kept
  · rw [hinode]; exact hp.writable

/-- A step of the disk alone. -/
theorem Mounted.step (h : Mounted D K dat s) (hvol : Vol D K dat s')
    (hinodes : s'.mem.inodes = s.mem.inodes)
    (hopen : s'.mem.openInodes = s.mem.openInodes)
    (hfile : s'.mem.freeMapFile = s.mem.freeMapFile)
    (hsize : s'.cache.size = s.cache.size)
    (hcont : ∀ k ∈ K, k ≠ 0 → s'.content k = s.content k)
    (hindex : ∀ k ∈ K, k ≠ 0 → ∀ a, IsIndex a → slotVal s.content (dat k) a ≠ 0 →
      Keeps (s.content (slotVal s.content (dat k) a))
        (s'.content (slotVal s.content (dat k) a))) :
    Mounted D K dat s' := by
  have hinode : ∀ p, s'.inode p = s.inode p := by
    intro p
    unfold FileSys.inode
    rw [hinodes]
  refine ⟨hvol, fun p hp => ?_, fun p hp q hq => ?_, ?_, fun f hf => ?_,
    fun k hk hno => ?_, fun k hk hk₀ => ?_⟩
  · rw [hopen] at hp
    rw [hinode]
    exact ⟨(h.opened p hp).1.congr hinodes, (h.opened p hp).2⟩
  · rw [hopen] at hp hq
    rw [hinode, hinode]
    exact h.inj p hp q hq
  · rw [hopen]; exact h.nodup
  · rw [hopen]
    exact h.mapOpen f (by rw [← hfile]; exact hf)
  · have hno : ∀ p ∈ s.mem.openInodes, (s.inode p).sector ≠ k := by
      intro p hp
      rw [← hinode]
      exact hno p (by rw [hopen]; exact hp)
    rw [hcont k hk (h.closed_ne_zero hno)]
    exact h.closed k hk hno
  · rw [hcont k hk hk₀, hsize]
    exact ⟨(h.disk k hk hk₀).1.older (h.disk k hk hk₀).2 (hindex k hk hk₀),
      (h.disk k hk hk₀).2⟩

/-- A step that neither the disk nor the inodes notice. -/
theorem Mounted.frame (h : Mounted D K dat s) (hfree : s'.freeMap = s.freeMap)
    (hsize : s'.cache.size = s.cache.size) (hcont : s'.content = s.content)
    (hinodes : s'.mem.inodes = s.mem.inodes)
    (hopen : s'.mem.openInodes = s.mem.openInodes)
    (hfile : s'.mem.freeMapFile = s.mem.freeMapFile) : Mounted D K dat s' := by
  refine h.step (h.vol.frame hfree hsize hcont hfile fun _ _ => by rw [hinodes])
    hinodes hopen hfile hsize (fun _ _ _ => by rw [hcont]) fun _ _ _ _ _ _ => ?_
  rw [hcont]
  exact .refl _

/-! ## Writing -/

theorem Wrote.openInodes (hw : Wrote D K dat s p k d' s') :
    s'.mem.openInodes = s.mem.openInodes := by rw [hw.mem]; rfl

theorem Wrote.inode_other (hw : Wrote D K dat s p k d' s') (hp : IsOpen dat s p k)
    (hq : q ≠ p) : s'.inode q = s.inode q := by
  unfold FileSys.inode
  rw [hw.mem, FileSys.get?_setData hp.live, if_neg hq]

theorem Wrote.inode_self (hw : Wrote D K dat s p k d' s') (hp : IsOpen dat s p k) :
    s'.inode p = { s.inode p with data := d' } := by
  rw [FileSys.inode_congr hw.mem, FileSys.inode_setData hp.live]

theorem Wrote.sector (hw : Wrote D K dat s p k d' s') (hp : IsOpen dat s p k) (q : Nat) :
    (s'.inode q).sector = (s.inode q).sector := by
  rcases eq_or_ne q p with rfl | hq
  · rw [hw.inode_self hp]
  · rw [hw.inode_other hp hq]

/-- After a write the inode in memory is the new one, the others as they were. -/
theorem Wrote.mounted (hw : Wrote D K dat s p k d' s') (h : Mounted D K dat s)
    (hp : Opened dat s p k) (hk₀ : k ≠ 0) :
    Mounted D K (Function.update dat k d') s' := by
  have hk := h.opened_mem hp
  have hlive := hp.isOpen.live
  have hopen := hw.openInodes
  have hself := hw.inode_self hp.isOpen
  have hget : ∀ q, q ≠ p → s'.mem.inodes.get? q = s.mem.inodes.get? q := by
    intro q hq
    rw [hw.mem, FileSys.get?_setData hlive, if_neg hq]
  have hother : ∀ q, q ≠ p → s'.inode q = s.inode q := fun q hq =>
    hw.inode_other hp.isOpen hq
  have hsector := hw.sector hp.isOpen
  refine ⟨hw.vol, fun q hq => ?_, fun q hq r hr => ?_, ?_, fun f hf => ?_,
    fun j hj hno => ?_, fun j hj hj₀ => ?_⟩
  · rw [hopen] at hq
    rw [hsector]
    refine ⟨?_, (h.opened q hq).2⟩
    rcases eq_or_ne q p with rfl | hqp
    · rw [hp.isOpen.sector]
      refine ⟨?_, ?_, ?_, ?_, ?_, ?_⟩
      · rw [hself, hw.mem, FileSys.get?_setData hlive, if_pos rfl]
      · rw [hself]; exact hp.isOpen.sector
      · rw [hself, Function.update_self]
      · rw [hself]; exact hp.isOpen.openCnt
      · rw [hself]; exact hp.isOpen.kept
      · rw [hself]; exact hp.isOpen.writable
    · have hne : (s.inode q).sector ≠ k := fun heq => hqp (h.inj q hq p hp.mem
        (heq.trans hp.isOpen.sector.symm))
      have hq' := (h.opened q hq).1
      refine ⟨?_, ?_, ?_, ?_, ?_, ?_⟩
      · rw [hget q hqp, hother q hqp]; exact hq'.live
      · rw [hother q hqp]
      · rw [hother q hqp, Function.update_of_ne hne]; exact hq'.data
      · rw [hother q hqp]; exact hq'.openCnt
      · rw [hother q hqp]; exact hq'.kept
      · rw [hother q hqp]; exact hq'.writable
  · rw [hopen] at hq hr
    rw [hsector, hsector]
    exact h.inj q hq r hr
  · rw [hopen]; exact h.nodup
  · rw [hopen]
    refine h.mapOpen f ?_
    rw [hw.mem] at hf
    exact hf
  · have hno : ∀ q ∈ s.mem.openInodes, (s.inode q).sector ≠ j := by
      intro q hq
      rw [← hsector]
      exact hno q (by rw [hopen]; exact hq)
    have hjk : j ≠ k := fun heq => hno p hp.mem (hp.isOpen.sector.trans heq.symm)
    rw [Function.update_of_ne hjk,
      hw.content_inode h.vol hk hj hjk (h.closed_ne_zero hno)]
    exact h.closed j hj hno
  · rcases eq_or_ne j k with rfl | hjk
    · rw [Function.update_self]
      rcases hw.disk with hdisk | ⟨hsame, holder, hfile⟩
      · rw [hdisk]
        have := hw.vol.file j hk
        rw [Function.update_self] at this
        exact ⟨this, .refl _⟩
      · rw [hsame]
        obtain ⟨hok, hold⟩ := h.disk j hk hj₀
        exact ⟨hfile _ hok hold, hold.trans holder⟩
    · rw [Function.update_of_ne hjk, hw.content_inode h.vol hk hj hjk hj₀, hw.size]
      obtain ⟨hok, hold⟩ := h.disk j hj hj₀
      refine ⟨hok.older hold fun a ha hne => ?_, hold⟩
      rw [hw.content_slot h.vol hk hk₀ hj hjk (.inl ha) hne]
      exact .refl _

/-! ## Opening and closing -/

/-- The disk reads the same and nothing was allocated. -/
structure SameDisk (s s' : FileSys) : Prop where
  freeMap : s'.freeMap = s.freeMap
  allocFailures : s'.allocFailures = s.allocFailures
  size : s'.cache.size = s.cache.size
  content : s'.content = s.content

theorem SameDisk.refl (s : FileSys) : SameDisk s s := ⟨rfl, rfl, rfl, rfl⟩

theorem SameDisk.trans {s₁ : FileSys} (h₁ : SameDisk s s₁) (h₂ : SameDisk s₁ s') :
    SameDisk s s' :=
  ⟨h₂.freeMap.trans h₁.freeMap, h₂.allocFailures.trans h₁.allocFailures,
    h₂.size.trans h₁.size, h₂.content.trans h₁.content⟩

/-- What a reservation did, seen from a state with the same disk. -/
theorem Sparing.sameDisk {s₁ : FileSys} {d d' : Sector} {n : Int} (h : SameDisk s s₁)
    (hsp : Sparing s₁ d n d' s') : Sparing s d n d' s' := by
  have huntaken := hsp.untaken
  have hzero := hsp.zero
  unfold ClearsZero FileSys.freeSectors at hzero
  unfold FileSys.freeSectors at huntaken
  rw [h.freeMap, h.content] at hzero
  rw [h.freeMap] at huntaken
  refine ⟨fun hfree => ?_, hzero⟩
  obtain ⟨hd, hu⟩ := huntaken hfree
  exact ⟨hd, hu.freeMap.trans h.freeMap, fun v hv => by rw [hu.content v hv, h.content]⟩

theorem SameDisk.readSector (s : FileSys) (k : Nat) : SameDisk s (s.readSector k).2 :=
  ⟨rfl, rfl, by simp, by simp⟩

/-- The tables other than those of the inodes are the same. -/
structure SameTables (s s' : FileSys) : Prop where
  freeMapFile : s'.mem.freeMapFile = s.mem.freeMapFile
  dirs : s'.mem.dirs = s.mem.dirs
  cwd : s'.mem.cwd = s.mem.cwd
  fileTable : s'.mem.fileTable = s.mem.fileTable
  badCloses : s'.mem.badCloses = s.mem.badCloses
  stray : s'.mem.stray = s.mem.stray

theorem SameTables.refl (s : FileSys) : SameTables s s := ⟨rfl, rfl, rfl, rfl, rfl, rfl⟩

theorem SameTables.of_mem (h : s'.mem = s.mem) : SameTables s s' := by
  constructor <;> rw [h]

theorem SameTables.trans {s₁ : FileSys} (h₁ : SameTables s s₁) (h₂ : SameTables s₁ s') :
    SameTables s s' :=
  ⟨h₂.freeMapFile.trans h₁.freeMapFile, h₂.dirs.trans h₁.dirs, h₂.cwd.trans h₁.cwd,
    h₂.fileTable.trans h₁.fileTable, h₂.badCloses.trans h₁.badCloses,
    h₂.stray.trans h₁.stray⟩

theorem Wrote.tables (hw : Wrote D K dat s p k d' s') : SameTables s s' := by
  constructor <;> rw [hw.mem] <;> rfl

theorem Exact.sameDisk (h : Exact K dat s) (hd : SameDisk s s') : Exact K dat s' :=
  h.frame hd.freeMap hd.content

theorem Mounted.sector_lt (h : Mounted D K dat s) (hk : k ∈ K) : k < s.cache.size :=
  h.vol.lt_size hk

/-- A new inode in memory, next to those that are open. -/
theorem inodeLoad_spec (h : Mounted D K dat s) (hk : k ∈ K)
    (hno : ∀ p ∈ s.mem.openInodes, (s.inode p).sector ≠ k) :
    let r := inodeLoad s k
    Mounted D K dat r.2 ∧ Opened dat r.2 r.1 k ∧ SameDisk s r.2 ∧ SameTables s r.2 ∧
      (∀ q ∈ s.mem.openInodes, r.2.inode q = s.inode q) ∧
      r.2.mem.openInodes = r.1 :: s.mem.openInodes := by
  have hk₀ := h.closed_ne_zero hno
  have hread : (s.readSector k).1 = dat k := by
    rw [FileSys.readSector_fst (h.sector_lt hk)]
    exact h.closed k hk hno
  obtain ⟨s', hs'⟩ : ∃ s', s' = (inodeLoad s k).2 := ⟨_, rfl⟩
  obtain ⟨p, hp⟩ : ∃ p, p = (inodeLoad s k).1 := ⟨_, rfl⟩
  dsimp only
  rw [← hs', ← hp]
  have hnew : ∀ q ∈ s.mem.openInodes, q ≠ p := by
    intro q hq hqp
    have := Heap.lt_next_of_get? (h.opened q hq).1.live
    rw [hqp, hp] at this
    exact Nat.lt_irrefl _ this
  have hget : ∀ q, s'.mem.inodes.get? q =
      if q = p then some ⟨k, 1, false, 0, dat k⟩ else s.mem.inodes.get? q := by
    intro q
    rw [hs', hp, ← hread]
    exact Heap.get?_alloc ..
  have hself : s'.inode p = ⟨k, 1, false, 0, dat k⟩ :=
    FileSys.inode_eq (by rw [hget, if_pos rfl])
  have hother : ∀ q, q ≠ p → s'.inode q = s.inode q := by
    intro q hq
    unfold FileSys.inode
    rw [hget, if_neg hq]
  have hopen : s'.mem.openInodes = p :: s.mem.openInodes := by rw [hs', hp]; rfl
  have hdisk : SameDisk s s' := by
    rw [hs']
    exact ⟨rfl, rfl, FileSys.readSector_size s k, FileSys.readSector_content s k⟩
  have htab : SameTables s s' := by rw [hs']; exact ⟨rfl, rfl, rfl, rfl, rfl, rfl⟩
  have hpk : IsOpen dat s' p k := by
    constructor
    · rw [hself, hget, if_pos rfl]
    all_goals rw [hself]
  refine ⟨⟨?_, fun q hq => ?_, fun q hq r hr hqr => ?_, ?_, fun f hf => ?_,
    fun j hj hj' => ?_, fun j hj hj₀ => ?_⟩, ⟨?_, hpk⟩, hdisk, htab,
    fun q hq => hother q (hnew q hq), hopen⟩
  · refine h.vol.frame hdisk.freeMap hdisk.size hdisk.content htab.freeMapFile
      fun f hf => ?_
    rw [hget, if_neg (hnew _ (h.mapOpen f hf))]
  · rw [hopen, List.mem_cons] at hq
    rcases hq with rfl | hq
    · rw [hpk.sector]
      exact ⟨hpk, hk⟩
    · have hqp := hnew q hq
      rw [hother q hqp]
      refine ⟨?_, (h.opened q hq).2⟩
      have hq' := (h.opened q hq).1
      constructor
      · rw [hget, if_neg hqp, hother q hqp]; exact hq'.live
      all_goals rw [hother q hqp]
      · exact hq'.data
      · exact hq'.openCnt
      · exact hq'.kept
      · exact hq'.writable
  · rw [hopen, List.mem_cons] at hq hr
    rcases hq with rfl | hq
    · rcases hr with rfl | hr
      · rfl
      · rw [hpk.sector, hother r (hnew r hr)] at hqr
        exact absurd hqr.symm (hno r hr)
    · rcases hr with rfl | hr
      · rw [hpk.sector, hother q (hnew q hq)] at hqr
        exact absurd hqr (hno q hq)
      · rw [hother q (hnew q hq), hother r (hnew r hr)] at hqr
        exact h.inj q hq r hr hqr
  · rw [hopen]
    exact List.nodup_cons.2 ⟨fun hp => hnew p hp rfl, h.nodup⟩
  · rw [hopen]
    exact List.mem_cons_of_mem _ (h.mapOpen f (by rw [← htab.freeMapFile]; exact hf))
  · rw [hdisk.content]
    refine h.closed j hj fun q hq => ?_
    rw [← hother q (hnew q hq)]
    exact hj' q (by rw [hopen]; exact List.mem_cons_of_mem _ hq)
  · rw [hdisk.content, hdisk.size]
    exact h.disk j hj hj₀
  · rw [hopen]
    exact List.mem_cons_self

/-- `inode_open` finds the inode or reads it in. -/
theorem inodeOpen_spec (h : Mounted D K dat s) (hk : k ∈ K) :
    let r := inodeOpen s k
    Mounted D K dat r.2 ∧ Opened dat r.2 r.1 k ∧ SameDisk s r.2 ∧ SameTables s r.2 ∧
      (∀ q ∈ s.mem.openInodes, q ∈ r.2.mem.openInodes ∧ r.2.inode q = s.inode q) ∧
      (∀ q ∈ r.2.mem.openInodes, q = r.1 ∨ q ∈ s.mem.openInodes) := by
  unfold inodeOpen
  cases hfind : s.mem.openInodes.find? fun p => (s.inode p).sector == k with
  | some p =>
      have hp := List.mem_of_find?_eq_some hfind
      have hsec : (s.inode p).sector = k := by simpa using List.find?_some hfind
      exact ⟨h, h.opened_iff.2 ⟨hp, hsec⟩, .refl s, .refl s, fun q hq => ⟨hq, rfl⟩,
        fun q hq => .inr hq⟩
  | none =>
      have hno : ∀ p ∈ s.mem.openInodes, (s.inode p).sector ≠ k := by
        intro p hp
        simpa using List.find?_eq_none.1 hfind p hp
      obtain ⟨hm, ho, hdisk, htab, hsame, hopen⟩ := inodeLoad_spec h hk hno
      dsimp only
      rw [hopen]
      exact ⟨hm, ho, hdisk, htab,
        fun q hq => ⟨List.mem_cons_of_mem _ hq, hsame q hq⟩,
        fun q hq => List.mem_cons.1 hq⟩

/-- Inodes may leave the table, and the volume, while the disk stays as it is. -/
theorem Mounted.retable {K' : Set Nat} {dat' : Nat → Sector} (h : Mounted D K dat s)
    (hdisk : SameDisk s s') (hvol : Vol D K' dat' s)
    (hfile : s'.mem.freeMapFile = s.mem.freeMapFile)
    (hopen : ∀ q ∈ s'.mem.openInodes, q ∈ s.mem.openInodes ∧
      s'.mem.inodes.get? q = s.mem.inodes.get? q ∧ (s.inode q).sector ∈ K' ∧
      dat' (s.inode q).sector = dat (s.inode q).sector)
    (hnodup : s'.mem.openInodes.Nodup)
    (hmap : ∀ f, s.mem.freeMapFile = some f → f.inode ∈ s'.mem.openInodes)
    (hclosed : ∀ k ∈ K', (∀ q ∈ s'.mem.openInodes, (s.inode q).sector ≠ k) →
      s.content k = dat' k)
    (hback : ∀ k ∈ K', k ≠ 0 → FileOk s.content s.cache.size (s.content k) ∧
      Older (s.content k) (dat' k)) : Mounted D K' dat' s' := by
  have hinode : ∀ q ∈ s'.mem.openInodes, s'.inode q = s.inode q := by
    intro q hq
    unfold FileSys.inode
    rw [(hopen q hq).2.1]
  refine ⟨?_, fun q hq => ?_, fun q hq r hr hqr => ?_, hnodup, fun f hf => ?_,
    fun j hj hno => ?_, fun j hj hj₀ => ?_⟩
  · exact hvol.frame hdisk.freeMap hdisk.size hdisk.content hfile
      fun f hf => (hopen _ (hmap f hf)).2.1
  · obtain ⟨hq', hget, hmem, hdat⟩ := hopen q hq
    have ho := (h.opened q hq').1
    rw [hinode q hq]
    refine ⟨?_, hmem⟩
    constructor
    · rw [hget, hinode q hq]; exact ho.live
    all_goals rw [hinode q hq]
    · rw [hdat]; exact ho.data
    · exact ho.openCnt
    · exact ho.kept
    · exact ho.writable
  · rw [hinode q hq, hinode r hr] at hqr
    exact h.inj q (hopen q hq).1 r (hopen r hr).1 hqr
  · exact hmap f (by rw [← hfile]; exact hf)
  · rw [hdisk.content]
    refine hclosed j hj fun q hq => ?_
    rw [← hinode q hq]
    exact hno q hq
  · rw [hdisk.content, hdisk.size]
    exact hback j hj hj₀

/-- No other open inode is in the same sector. -/
theorem Mounted.sector_ne (h : Mounted D K dat s) (hp : Opened dat s p k)
    (hq : q ∈ s.mem.openInodes) (hqp : q ≠ p) : (s.inode q).sector ≠ k :=
  fun heq => hqp (h.inj q hq p hp.mem (heq.trans hp.isOpen.sector.symm))

/-- `inode_close` of an inode that stays goes back to what its sector holds. -/
theorem inodeClose_spec (h : Mounted D K dat s) (hp : Opened dat s p k)
    (hk₀ : k ≠ 0) :
    let s' := inodeClose s p
    Mounted D K (Function.update dat k (s.content k)) s' ∧ SameDisk s s' ∧
      SameTables s s' ∧ s'.mem.openInodes = s.mem.openInodes.erase p ∧
      ∀ q, q ≠ p → s'.inode q = s.inode q := by
  obtain ⟨s', hs'⟩ : ∃ s', s' = inodeClose s p := ⟨_, rfl⟩
  dsimp only
  rw [← hs']
  unfold inodeClose at hs'
  rw [hp.isOpen.live] at hs'
  simp only [hp.isOpen.openCnt, hp.isOpen.kept, Int.sub_self, if_true,
    Bool.false_eq_true, if_false] at hs'
  have hget : ∀ q, q ≠ p → s'.mem.inodes.get? q = s.mem.inodes.get? q := by
    intro q hq
    rw [hs']
    refine (Heap.get?_free ..).trans ?_
    rw [if_neg hq]
    exact (FileSys.get?_setInode hp.isOpen.live).trans (if_neg hq)
  have hopen : s'.mem.openInodes = s.mem.openInodes.erase p := by rw [hs']; rfl
  have hdisk : SameDisk s s' := by rw [hs']; exact ⟨rfl, rfl, rfl, rfl⟩
  have htab : SameTables s s' := by rw [hs']; exact ⟨rfl, rfl, rfl, rfl, rfl, rfl⟩
  have hmem : ∀ q, q ∈ s'.mem.openInodes ↔ q ≠ p ∧ q ∈ s.mem.openInodes := by
    intro q
    rw [hopen]
    exact h.nodup.mem_erase_iff
  have hk := h.opened_mem hp
  obtain ⟨hfile, hold⟩ := h.disk k hk hk₀
  refine ⟨h.retable hdisk (h.vol.setDat hk₀ (fun a ha => hold.slotVal_eq ha) hfile)
    htab.freeMapFile (fun q hq => ?_) ?_ (fun f hf => ?_) (fun j hj hno => ?_)
    fun j hj hj₀ => ?_, hdisk, htab, hopen, fun q hq => ?_⟩
  · obtain ⟨hqp, hq⟩ := (hmem q).1 hq
    exact ⟨hq, hget q hqp, (h.opened q hq).2,
      Function.update_of_ne (h.sector_ne hp hq hqp) ..⟩
  · rw [hopen]
    exact h.nodup.erase p
  · exact (hmem _).2 ⟨h.vol.ne_mapFile hp.isOpen.live hp.isOpen.sector hk₀ f hf,
      h.mapOpen f hf⟩
  · rcases eq_or_ne j k with rfl | hjk
    · rw [Function.update_self]
    · rw [Function.update_of_ne hjk]
      refine h.closed j hj fun q hq => ?_
      rcases eq_or_ne q p with rfl | hqp
      · rw [hp.isOpen.sector]
        exact Ne.symm hjk
      · exact hno q ((hmem q).2 ⟨hqp, hq⟩)
  · rcases eq_or_ne j k with rfl | hjk
    · rw [Function.update_self]
      exact ⟨hfile, .refl _⟩
    · rw [Function.update_of_ne hjk]
      exact h.disk j hj hj₀
  · unfold FileSys.inode
    rw [hget q hq]

end Mounted

end SimpleShell.Fs
