import SimpleShell.Fs.Run

/-!
# Formatting and mounting

`filesys_init`. A mount knows a disk only by its content: it opens sector 0,
reads the bitmap from the file found there, and has the volume that was there
before, as far as memory and disk agreed on it. A format makes such a disk of
any device: the free-map file first, with no file to record its own sectors
yet, then the root directory in a sector that was marked from the start.
-/

namespace SimpleShell.Fs

open SimpleShell.Lib

/-! ## Mounting what is there -/

section Mount

variable {D K : Set Nat} {dat : Nat → Sector} {s s' : FileSys} {p : Nat} {f : File}

/-- A volume whose sectors hold all there is to know, with only the free map's
inode open. -/
theorem Mounted.remount (h : Mounted D K dat s) (hsync : ∀ k ∈ K, s.content k = dat k)
    (hfree : s'.freeMap = s.freeMap) (hsize : s'.cache.size = s.cache.size)
    (hcont : s'.content = s.content) (hf : s'.mem.freeMapFile = some f)
    (hopen : s'.mem.openInodes = [f.inode])
    (hget : s'.mem.inodes.get? f.inode = some ⟨FREE_MAP_SECTOR, 1, false, 0, dat 0⟩) :
    Mounted D K dat s' := by
  obtain ⟨g, i, hg, hi, -, hdat⟩ := h.vol.mapFile
  obtain ⟨i', hi', hmap⟩ := h.vol.map.opened g hg
  have hii : i' = i := Option.some.inj (hi'.symm.trans hi)
  subst hii
  have hself : s'.inode f.inode = ⟨FREE_MAP_SECTOR, 1, false, 0, dat 0⟩ :=
    FileSys.inode_eq hget
  have hmapOk : FreeMapOk D s' := by
    refine ⟨by rw [hfree]; exact h.vol.map.wf, by rw [hfree, hsize]; exact h.vol.map.cnt,
      ?_, ?_, fun hn => absurd (hn.symm.trans hf) (by simp), fun f' hf' => ?_⟩
    · unfold FileSys.used
      rw [hfree]
      exact h.vol.map.mapSector
    · unfold FileSys.used
      rw [hfree]
      exact h.vol.map.rootSector
    · have hff : f = f' := Option.some.inj (hf.symm.trans hf')
      subst hff
      have hlen := hmap.length
      have hfile := hmap.file
      have hused := hmap.used
      have hdata := hmap.data
      have hbytes := hmap.bytes
      rw [hdat] at hlen hfile hused hdata hbytes
      refine ⟨_, hget, ⟨⟨rfl, by rw [hfree]; exact hlen, by rw [hcont, hsize]; exact hfile,
        ?_, by rw [hcont]; exact hdata⟩, by rw [hcont, hfree]; exact hbytes⟩⟩
      unfold FileSys.used
      rw [hcont, hfree]
      exact hused
  have hvol : Vol D K dat s' := by
    have hown : own s'.content dat K = own s.content dat K := by rw [hcont]
    have hu : ∀ j, s'.used j ↔ s.used j := by
      intro j
      unfold FileSys.used
      rw [hfree]
    refine ⟨hmapOk, ⟨f, _, hf, hget, rfl, rfl⟩, h.vol.zero, ⟨fun x hx => ?_, ?_, ?_⟩,
      fun k hk => (hu k).2 (h.vol.owned k hk), h.vol.offData, ?_, fun k hk => ?_⟩
    · rw [hown] at hx ⊢
      exact (hu _).2 (h.vol.roots.used x hx)
    · rw [hown]; exact h.vol.roots.inj
    · rw [hown]; exact h.vol.roots.offData
    · rw [hown]; exact h.vol.apart
    · rw [hcont, hsize]
      exact h.vol.file k hk
  have hmem : ∀ q, q ∈ s'.mem.openInodes ↔ q = f.inode := by
    intro q
    rw [hopen]
    exact List.mem_singleton
  refine ⟨hvol, fun q hq => ?_, fun q hq r hr _ => ?_, ?_, fun g hg' => ?_,
    fun k hk _ => ?_, fun k hk hk₀ => ?_⟩
  · obtain rfl := (hmem q).1 hq
    rw [hself]
    refine ⟨?_, h.vol.zero⟩
    constructor
    · rw [hget, hself]
    all_goals rw [hself]
  · exact ((hmem q).1 hq).trans ((hmem r).1 hr).symm
  · rw [hopen]
    exact List.nodup_singleton _
  · rw [← Option.some.inj (hf.symm.trans hg')]
    exact (hmem _).2 rfl
  · rw [hcont]
    exact hsync k hk
  · rw [hcont, hsize, hsync k hk]
    exact ⟨h.vol.file k hk, .refl _⟩

/-- What `free_map_open` leaves: the free map that was written, and one inode. -/
structure MapOpened (s s' : FileSys) : Prop where
  allocFailures : s'.allocFailures = s.allocFailures
  size : s'.cache.size = s.cache.size
  content : s'.content = s.content
  only : ∀ q ∈ s'.mem.openInodes, (s'.inode q).sector = FREE_MAP_SECTOR
  dirs : s'.mem.dirs = s.mem.dirs
  cwd : s'.mem.cwd = s.mem.cwd
  fileTable : s'.mem.fileTable = s.mem.fileTable
  badCloses : s'.mem.badCloses = s.mem.badCloses
  stray : s'.mem.stray = s.mem.stray

/-- `free_map_open` over the disk of a volume that is all there. -/
theorem freeMapOpen_spec {s₁ : FileSys} (h : Mounted D K dat s)
    (hsync : ∀ k ∈ K, s.content k = dat k) (hwf : s₁.freeMap.bits.length =
      elemCnt s₁.freeMap.bitCnt) (hcnt : s₁.freeMap.bitCnt = s.freeMap.bitCnt)
    (hsize : s₁.cache.size = s.cache.size) (hcont : s₁.content = s.content)
    (hopen : s₁.mem.openInodes = []) :
    let r := freeMapOpen s₁
    r.1 = true ∧ r.2.freeMap = s.freeMap ∧ Mounted D K dat r.2 ∧ MapOpened s₁ r.2 := by
  have hzero : s₁.content 0 = dat 0 := by rw [hcont]; exact hsync 0 h.vol.zero
  have hread : (s₁.readSector 0).1 = dat 0 := by
    rw [FileSys.readSector_fst (by rw [hsize]; exact h.sector_lt h.vol.zero)]
    exact hzero
  have hload : inodeOpen s₁ FREE_MAP_SECTOR = inodeLoad s₁ FREE_MAP_SECTOR := by
    unfold inodeOpen
    rw [hopen]
    rfl
  obtain ⟨i, hi⟩ : ∃ i, i = inodeLoad s₁ FREE_MAP_SECTOR := ⟨_, rfl⟩
  obtain ⟨f, hf⟩ : ∃ f, f = fileOpen i.1 := ⟨_, rfl⟩
  obtain ⟨s₂, hs₂⟩ : ∃ s₂ : FileSys, s₂ =
      { i.2 with mem := { i.2.mem with freeMapFile := some f } } := ⟨_, rfl⟩
  have hdo : freeMapOpen s₁ = bitmapRead s₂ f := by
    rw [hs₂, hf, hi, ← hload]
    unfold freeMapOpen
    rfl
  have hopen₂ : s₂.mem.openInodes = [f.inode] := by
    rw [hs₂, hf, hi]
    exact congrArg (_ :: ·) hopen
  have hget : s₂.mem.inodes.get? f.inode =
      some ⟨FREE_MAP_SECTOR, 1, false, 0, dat 0⟩ := by
    rw [hs₂, hf, hi]
    refine (Heap.get?_alloc ..).trans ((if_pos rfl).trans ?_)
    rw [← hread]
  have hself : s₂.inode f.inode = ⟨FREE_MAP_SECTOR, 1, false, 0, dat 0⟩ :=
    FileSys.inode_eq hget
  have hdisk : SameDisk s₁ s₂ := by
    rw [hs₂, hi]
    exact ⟨rfl, rfl, FileSys.readSector_size .., FileSys.readSector_content ..⟩
  have hmem : s₂.mem = { s₁.mem with
      inodes := s₂.mem.inodes, openInodes := s₂.mem.openInodes
      freeMapFile := some f } := by
    rw [hs₂, hi]
    rfl
  obtain ⟨g, i', hg, hi', -, hdat⟩ := h.vol.mapFile
  obtain ⟨i'', hi'', hmap⟩ := h.vol.map.opened g hg
  have hii : i'' = i' := Option.some.inj (hi''.symm.trans hi')
  subst hii
  have hlen : inodeLength (dat 0) = byteCnt s.freeMap.bitCnt := by
    rw [← hdat]; exact hmap.length
  have hbytes : fileBytes s.content (dat 0) 0 (byteCnt s.freeMap.bitCnt) =
      s.freeMap.toBytes := by
    rw [← hdat]; exact hmap.bytes
  have hpos : 0 < s₂.freeMap.bitCnt := by
    have := h.vol.map.lt_bitCnt h.vol.map.mapSector
    rw [hdisk.freeMap, hcnt]
    omega
  -- What is read is what `bitmap_write` wrote last.
  obtain ⟨r, hr⟩ : ∃ r, r = inodeReadAt s₂.mem.stray s₂.cache (s₂.inode f.inode).data
      (byteCnt s₂.freeMap.bitCnt) 0 := ⟨_, rfl⟩
  have hr₁ : r.1 = s.freeMap.toBytes := by
    have hok : FileOk s₂.cache.content s₂.cache.size (dat 0) := by
      rw [show s₂.cache.content = s.content from hdisk.content.trans hcont,
        hdisk.size.trans hsize]
      exact h.vol.file 0 h.vol.zero
    rw [hr, hself, ← Int.ofNat_zero, inodeReadAt_fst hok, hlen, hdisk.freeMap, hcnt,
      Int.ofNat_zero, Int.sub_zero, Int.min_self, Int.toNat_natCast,
      show s₂.cache.content = s.content from hdisk.content.trans hcont]
    exact hbytes
  have hof : s₂.freeMap.ofBytes r.1 = s.freeMap := by
    rw [hr₁]
    refine Bitmap.ofBytes_toBytes h.vol.map.wf (by rw [hdisk.freeMap, hcnt]) ?_
    rw [hdisk.freeMap, hwf, hcnt, h.vol.map.wf.length]
  have hlen₁ : r.1.length = byteCnt s₂.freeMap.bitCnt := by
    rw [hr₁, h.vol.map.wf.length_toBytes, hdisk.freeMap, hcnt]
  obtain ⟨s₃, hs₃⟩ : ∃ s₃ : FileSys, s₃ =
      { s₂ with cache := r.2, freeMap := s.freeMap } := ⟨_, rfl⟩
  have hres : freeMapOpen s₁ = (true, s₃) := by
    rw [hdo, hs₃]
    unfold bitmapRead
    dsimp only
    rw [if_pos hpos, ← hr, hof, decide_eq_true hlen₁]
  have hmem₃ : s₃.mem = s₂.mem := by rw [hs₃]
  have hsize₃ : s₃.cache.size = s₁.cache.size := by
    rw [hs₃, ← hdisk.size]
    change r.2.size = _
    rw [hr, inodeReadAt_size]
  have hcont₃ : s₃.content = s₁.content := by
    rw [hs₃, ← hdisk.content]
    change r.2.content = _
    rw [hr, inodeReadAt_content]
    rfl
  have hfree₃ : s₃.freeMap = s.freeMap := by rw [hs₃]
  have hfail₃ : s₃.allocFailures = s₁.allocFailures := by
    rw [hs₃]
    exact hdisk.allocFailures
  have hinode₃ : ∀ q, s₃.inode q = s₂.inode q := by
    intro q
    unfold FileSys.inode
    rw [hmem₃]
  clear hs₃ hs₂
  rw [hres]
  refine ⟨rfl, hfree₃, h.remount hsync hfree₃ (hsize₃.trans hsize) (hcont₃.trans hcont)
    (by rw [hmem₃, hmem]) (by rw [hmem₃, hopen₂]) (by rw [hmem₃, hget]),
    hfail₃, hsize₃, hcont₃, fun q hq => ?_, by rw [hmem₃, hmem], by rw [hmem₃, hmem],
    by rw [hmem₃, hmem], by rw [hmem₃, hmem], by rw [hmem₃, hmem]⟩
  rw [hmem₃, hopen₂, List.mem_singleton] at hq
  rw [hinode₃, hq, hself]

end Mount

/-! ## The free map's own file -/

section Create

variable {D K : Set Nat} {dat : Nat → Sector} {s₀ s s' : FileSys} {k : Nat} {d : Sector}

/-- `inode_create` that succeeds, before anything is known of the volume. -/
theorem inodeCreate_reserved {len : Int} {isDir : Bool} (hok : FreeMapOk D s)
    (h : (inodeCreate s k len isDir).1 = true) :
    ∃ d₀ d' s₁, inodeCreate s k len isDir = (true, s₁.writeSector k d') ∧
      (∀ f a, slotVal f d₀ a = 0) ∧ inodeLength d₀ = int32 len ∧ inodeIsDir d₀ = isDir ∧
      0 ≤ int32 len ∧ int32 len ≤ MAX_LENGTH ∧ SameHeader d₀ d' ∧
      Outcome D s s₁ IsIndex (inodeSlots (bytesToSectors (int32 len))) true
        (slotVal s.content d₀) (slotVal s₁.content d') := by
  have hlen := newInodeDisk_length len isDir
  have hnull := fun f => newInodeDisk_null f len isDir
  have hdir := newInodeDisk_isDir len isDir
  unfold inodeCreate at h ⊢
  generalize newInodeDisk len isDir = d₀ at hlen hnull hdir h ⊢
  dsimp only at h ⊢
  rw [hlen] at h ⊢
  rcases Int.lt_or_le (int32 len) 0 with hneg | hnonneg
  · rw [inodeReserve, if_pos hneg] at h
    exact absurd h (by simp)
  · have hV : Roots D s IsIndex (slotVal s.content d₀) :=
      ⟨fun a hne => absurd (hnull _ a) hne, fun a _ hne => absurd (hnull _ a) hne,
        fun a _ hne => absurd (hnull _ a) hne⟩
    obtain ⟨hhead, ok, hret, ho⟩ := inodeReserve_spec hnonneg hok hV
    generalize inodeReserve allocSector s d₀ (int32 len) = t at hhead hret ho h ⊢
    cases ht : t.1.1 with
    | false => rw [ht] at h; exact absurd h (by simp)
    | true =>
        rw [ht] at hret
        obtain ⟨rfl, hmax⟩ : ok = true ∧ bytesToSectors (int32 len) ≤ MAX_SECTORS := by
          simpa using hret.symm
        exact ⟨d₀, t.1.2, t.2, if_pos rfl, hnull, hlen, hdir, hnonneg,
          bytesToSectors_le.1 hmax, hhead, ho⟩

theorem freeMapCreate_inode (h : (freeMapCreate s).1 = true) :
    (inodeCreate s FREE_MAP_SECTOR (byteCnt s.freeMap.bitCnt) false).1 = true := by
  unfold freeMapCreate at h
  dsimp only at h
  rw [Bool.and_eq_true] at h
  exact h.1

theorem dirCreate_inode {n : Nat} (h : (dirCreate s k n).1 = true) :
    (inodeCreate s k (n * ENTRY_SIZE) true).1 = true := by
  unfold dirCreate at h
  dsimp only at h
  split at h
  · exact absurd h (by simp)
  · next hc => simpa using hc

/-- What `free_map_create` leaves: a volume of one inode. The root directory's
sector is taken, and nothing is in it. -/
structure MapCreated (D : Set Nat) (dat : Nat → Sector) (s₀ s : FileSys) : Prop where
  mounted : Mounted D {FREE_MAP_SECTOR} dat s
  sync : s.content 0 = dat 0
  null : ∀ a, a ∉ inodeSlots (numSectors (dat 0)) → slotVal s.content (dat 0) a = 0
  used : ∀ j, s.used j → j = 0 ∨ j = ROOT_DIR_SECTOR ∨ ∃ a, slotVal s.content (dat 0) a = j
  spare : Spare D {FREE_MAP_SECTOR} dat s ROOT_DIR_SECTOR
  only : ∀ q ∈ s.mem.openInodes, (s.inode q).sector = FREE_MAP_SECTOR
  free : s.freeSectors + (inodeSlots (bytesToSectors (byteCnt s₀.freeMap.bitCnt))).length =
    s₀.freeSectors
  allocFailures : s.allocFailures = s₀.allocFailures
  dirs : s.mem.dirs = s₀.mem.dirs
  cwd : s.mem.cwd = s₀.mem.cwd
  fileTable : s.mem.fileTable = s₀.mem.fileTable
  badCloses : s.mem.badCloses = s₀.mem.badCloses
  stray : s.mem.stray = s₀.mem.stray

/-- A volume of the free map's inode alone. -/
theorem FreeMapOk.mounted {f : File} (hok : FreeMapOk D s)
    (hf : s.mem.freeMapFile = some f) (hopen : s.mem.openInodes = [f.inode])
    (hget : s.mem.inodes.get? f.inode = some ⟨FREE_MAP_SECTOR, 1, false, 0, d⟩)
    (hroots : Roots D s IsIndex (slotVal s.content d))
    (hfile : FileOk s.content s.cache.size d) :
    Mounted D {FREE_MAP_SECTOR} (fun _ => d) s := by
  have hself : s.inode f.inode = ⟨FREE_MAP_SECTOR, 1, false, 0, d⟩ :=
    FileSys.inode_eq hget
  have hmem : ∀ q ∈ s.mem.openInodes, q = f.inode := by
    intro q hq
    rw [hopen] at hq
    exact List.mem_singleton.1 hq
  refine ⟨⟨hok, ⟨f, _, hf, hget, rfl, rfl⟩, rfl, ⟨fun x hx => hroots.used x.2 hx,
    fun x y hx hxy => ?_, fun x hidx hx => hroots.offData x.2 hidx hx⟩, ?_, ?_,
    fun k hk hk₀ => absurd hk hk₀, fun k _ => hfile⟩, fun q hq => ?_,
    fun q hq r hr _ => (hmem q hq).trans (hmem r hr).symm, ?_, fun g hg => ?_,
    fun k hk hno => ?_, fun k hk hk₀ => absurd hk hk₀⟩
  · exact Prod.ext (Subtype.ext (x.1.2.trans y.1.2.symm)) (hroots.inj x.2 y.2 hx hxy)
  · rintro k rfl
    exact hok.mapSector
  · rintro k rfl hD
    exact hok.ne_zero_of_mem hD rfl
  · rw [hmem q hq, hself]
    refine ⟨?_, rfl⟩
    constructor
    · rw [hget, hself]
    all_goals rw [hself]
  · rw [hopen]
    exact List.nodup_singleton _
  · rw [← Option.some.inj (hf.symm.trans hg), hopen]
    exact List.mem_singleton_self _
  · refine absurd ?_ (hno f.inode (by rw [hopen]; exact List.mem_singleton_self _))
    rw [hself]
    exact hk.symm

/-- `free_map_create` over a map that marks the two system sectors. -/
theorem freeMapCreate_spec (hok : FreeMapOk ∅ s₀) (hopen : s₀.mem.openInodes = [])
    (hused : ∀ j, s₀.used j → j = 0 ∨ j = ROOT_DIR_SECTOR)
    (hcnt : int32 (byteCnt s₀.freeMap.bitCnt) = byteCnt s₀.freeMap.bitCnt)
    (h : (inodeCreate s₀ FREE_MAP_SECTOR (byteCnt s₀.freeMap.bitCnt) false).1 = true) :
    (freeMapCreate s₀).1 = true ∧ ∃ D dat, MapCreated D dat s₀ (freeMapCreate s₀).2 := by
  obtain ⟨d₀, d', s₁, hcreate, hnull, hlen, -, hnonneg, hmax, hhead, ho⟩ :=
    inodeCreate_reserved hok h
  rw [hcnt] at hlen hmax hnonneg ho
  have hlen' := hhead.length.trans hlen
  obtain ⟨-, hfill⟩ := ho.enough (ho.le_of_true rfl)
  have hV : Roots ∅ s₀ IsIndex (slotVal s₀.content d₀) :=
    ⟨fun a hne => absurd (hnull _ a) hne, fun a _ hne => absurd (hnull _ a) hne,
      fun a _ hne => absurd (hnull _ a) hne⟩
  have hmapped := ho.grow.mapped hV hfill.ne
  -- The inode goes to sector 0, which holds no pointer.
  obtain ⟨s₂, hs₂⟩ : ∃ s₂, s₂ = s₁.writeSector FREE_MAP_SECTOR d' := ⟨_, rfl⟩
  have hval : slotVal s₂.content d' = slotVal s₁.content d' := by
    rw [hs₂]
    exact funext fun a => slotVal_of_index
      (fun b _ hne => writeSector_content_of_ne hne) a
  have hcont : s₂.content 0 = d' := by
    rw [hs₂, FileSys.writeSector_content (ho.grow.ok.lt_size ho.grow.ok.mapSector),
      Function.update_self]
  have hmem₂ : s₂.mem = s₀.mem := by rw [hs₂]; exact ho.grow.mem
  have hsize₂ : s₂.cache.size = s₁.cache.size := by rw [hs₂]; simp
  have hfree₂ : s₂.freeMap = s₁.freeMap := by rw [hs₂]; rfl
  have hfail₂ : s₂.allocFailures = s₀.allocFailures := by
    rw [hs₂]; exact hfill.allocFailures
  have hload : inodeOpen s₂ FREE_MAP_SECTOR = inodeLoad s₂ FREE_MAP_SECTOR := by
    unfold inodeOpen
    rw [hmem₂, hopen]
    rfl
  have hread : (s₂.readSector 0).1 = d' := by
    rw [FileSys.readSector_fst (by
      rw [hsize₂]; exact ho.grow.ok.lt_size ho.grow.ok.mapSector)]
    exact hcont
  obtain ⟨i, hi⟩ : ∃ i, i = inodeLoad s₂ FREE_MAP_SECTOR := ⟨_, rfl⟩
  obtain ⟨f, hf⟩ : ∃ f, f = fileOpen i.1 := ⟨_, rfl⟩
  obtain ⟨s₃, hs₃⟩ : ∃ s₃ : FileSys, s₃ =
      { i.2 with mem := { i.2.mem with freeMapFile := some f } } := ⟨_, rfl⟩
  have hdo : freeMapCreate s₀ = bitmapWrite allocSector s₃ f := by
    unfold freeMapCreate
    dsimp only
    rw [hcreate]
    dsimp only
    rw [← hs₂, hload, ← hi, hs₃, hf, Bool.true_and]
  have hget : s₃.mem.inodes.get? f.inode = some ⟨FREE_MAP_SECTOR, 1, false, 0, d'⟩ := by
    rw [hs₃, hf, hi]
    refine (Heap.get?_alloc ..).trans ((if_pos rfl).trans ?_)
    rw [← hread]
  have hopen₃ : s₃.mem.openInodes = [f.inode] := by
    rw [hs₃, hf, hi]
    exact congrArg (_ :: ·) ((congrArg Tables.openInodes hmem₂).trans hopen)
  have hdisk : SameDisk s₂ s₃ := by
    rw [hs₃, hi]
    exact ⟨rfl, rfl, FileSys.readSector_size .., FileSys.readSector_content ..⟩
  have hmem₃ : s₃.mem = { s₀.mem with
      inodes := s₃.mem.inodes, openInodes := s₃.mem.openInodes
      freeMapFile := some f } := by
    rw [hs₃, hi, ← hmem₂]
    rfl
  have hf₃ : s₃.mem.freeMapFile = some f := by rw [hmem₃]
  clear hs₃ hs₂ hi hload hread hf
  have hcont₃ : s₃.content = s₂.content := hdisk.content
  have hfree₃ : s₃.freeMap = s₁.freeMap := hdisk.freeMap.trans hfree₂
  have hsize₃ : s₃.cache.size = s₁.cache.size := hdisk.size.trans hsize₂
  have hval₃ : slotVal s₃.content d' = slotVal s₁.content d' := by rw [hcont₃, hval]
  have hbits : s₃.freeMap.bitCnt = s₀.freeMap.bitCnt := by
    have h₁ := ho.grow.ok.cnt
    have h₀ := hok.cnt
    rw [hfree₃]
    rw [ho.grow.size] at h₁
    omega
  have hused₃ : ∀ j, s₃.used j ↔ s₁.used j := by
    intro j
    unfold FileSys.used
    rw [hfree₃]
  have hnum : numSectors d' = bytesToSectors (byteCnt s₀.freeMap.bitCnt) := by
    rw [numSectors, hlen']
  have hfile : FileOk s₃.content s₃.cache.size d' := by
    refine ⟨by rw [hlen']; exact hnonneg, by rw [hlen']; exact hmax, ?_⟩
    rw [hnum, hsize₃]
    exact hmapped.congr fun a _ => congrFun hval₃ a
  have hmem_of_ne : ∀ a, slotVal s₃.content d' a ≠ 0 → a ∈ inodeSlots (numSectors d') := by
    intro a hne
    by_contra hno
    rw [hnum] at hno
    rw [hval₃, ho.beyond a hno, hnull] at hne
    exact hne rfl
  have hfresh : ∀ a, slotVal s₃.content d' a ≠ 0 →
      ¬ s₀.used (slotVal s₃.content d' a) ∧ s₃.used (slotVal s₃.content d' a) := by
    intro a hne
    rw [hval₃] at hne ⊢
    rw [hused₃]
    exact ho.grow.fresh a (hnull _ a) hne
  obtain ⟨D, hD⟩ : ∃ D : Set Nat, D =
      {k | ∃ j, j < numSectors d' ∧ k = leafAt s₃.content d' j} := ⟨_, rfl⟩
  have hleaf : ∀ k, k ∈ D → ∃ a, slotVal s₃.content d' a = k ∧ k ≠ 0 := by
    intro k hk
    rw [hD] at hk
    obtain ⟨j, hj, rfl⟩ := hk
    exact ⟨leafSlot j, rfl, hfile.mapped.ne _
      (leafSlot_mem hj (Nat.lt_of_lt_of_le hj hfile.sectors_le))⟩
  have hindex : ∀ a, IsIndex a → slotVal s₃.content d' a ≠ 0 →
      slotVal s₃.content d' a ∉ D := by
    intro a ha hne hk
    rw [hD] at hk
    obtain ⟨j, hj, heq⟩ := hk
    exact hfile.mapped.index_ne_leaf (hmem_of_ne a hne) ha hj
      (Nat.lt_of_lt_of_le hj hfile.sectors_le) heq
  have hi : MapInode D s₃ ⟨FREE_MAP_SECTOR, 1, false, 0, d'⟩ := by
    refine ⟨rfl, by rw [hbits]; exact hlen', hfile,
      fun a ha => (hfresh a (hfile.mapped.ne a ha)).2, fun k => ?_⟩
    rw [hD]
    rfl
  have hwf : s₃.freeMap.Wf := by rw [hfree₃]; exact ho.grow.ok.wf
  have hsys : ∀ j, s₀.used j → bitmapTest s₃.freeMap j := fun j hj =>
    (hused₃ j).2 (ho.grow.mono j hj)
  obtain ⟨c, hwrite, hsize, hframe, hbytes⟩ := bitmapWrite_spec (b := s₃.freeMap) allocSector
    hget hi hwf rfl (by
      have := hok.lt_bitCnt hok.mapSector
      rw [hbits]
      omega)
  obtain ⟨s₄, hs₄⟩ : ∃ s₄ : FileSys, s₄ = { s₃ with freeMap := s₃.freeMap, cache := c } :=
    ⟨_, rfl⟩
  have hok₄ : FreeMapOk D s₄ := by
    rw [hs₄]
    refine hi.written hf₃ hget ?_ hwf rfl (hsys _ hok.mapSector) (hsys _ hok.rootSector)
      (fun a ha => (hfresh a (hfile.mapped.ne a ha)).2) hsize hframe hbytes
    rw [hfree₃, hsize₃]
    exact ho.grow.ok.cnt
  have hres : freeMapCreate s₀ = (true, s₄) := by
    rw [hdo, hs₄]
    exact hwrite
  have hcont₄ : ∀ k, k ∉ D → s₄.content k = s₃.content k := by
    intro k hk
    rw [hs₄]
    refine hframe k fun j hj heq => hk ?_
    rw [hD]
    exact ⟨j, hj, heq⟩
  have hval₄ : slotVal s₄.content d' = slotVal s₃.content d' :=
    funext fun a => slotVal_of_index (fun b hb hne => hcont₄ _ (hindex b hb hne)) a
  have hsize₄ : s₄.cache.size = s₃.cache.size := by rw [hs₄]; exact hsize
  have hmem₄ : s₄.mem = s₃.mem := by rw [hs₄]
  have hused₄ : ∀ j, s₄.used j ↔ s₁.used j := by rw [hs₄]; exact hused₃
  have hfree₄ : s₄.freeSectors = s₁.freeSectors := by
    unfold FileSys.freeSectors
    rw [hs₄]
    exact congrArg numFree hfree₃
  have hfail₄ : s₄.allocFailures = s₀.allocFailures := by
    rw [hs₄]
    exact hdisk.allocFailures.trans hfail₂
  clear hs₄
  rw [hres]
  refine ⟨rfl, D, fun _ => d', hok₄.mounted (by rw [hmem₄]; exact hf₃)
    (by rw [hmem₄]; exact hopen₃) (by rw [hmem₄]; exact hget)
    ⟨fun a hne => ?_, fun a b hne hab => ?_, fun a ha hne => ?_⟩ ?_, ?_, fun a hno => ?_,
    fun j hj => ?_, ⟨?_, ?_, ?_, ?_, ?_⟩, fun q hq => ?_, ?_, hfail₄, ?_, ?_, ?_, ?_, ?_⟩
  · rw [hval₄] at hne ⊢
    exact (hused₄ _).2 ((hused₃ _).1 (hfresh a hne).2)
  · rw [hval₄] at hne hab
    rw [hval₃] at hne hab
    exact ho.grow.inj a b hne hab
  · rw [hval₄] at hne ⊢
    exact hindex a ha hne
  · refine ⟨hfile.nonneg, hfile.max, ?_⟩
    rw [hsize₄]
    exact hfile.mapped.congr fun a _ => congrFun hval₄ a
  · rw [hcont₄ 0 fun hD => (hleaf 0 hD).choose_spec.2 rfl, hcont₃]
    exact hcont
  · by_contra hne
    rw [hval₄] at hne
    exact hno (hmem_of_ne a hne)
  · rcases hfill.exact j ((hused₄ j).1 hj) with hj | ⟨a, -, hja⟩
    · exact (hused j hj).imp_right .inl
    · refine .inr (.inr ⟨a, ?_⟩)
      rw [hval₄, hval₃]
      exact hja
  · exact (hused₄ _).2 (ho.grow.mono _ hok.rootSector)
  · exact fun heq => absurd heq (by decide)
  · decide
  · intro hD
    obtain ⟨a, ha, hne⟩ := hleaf _ hD
    exact (hfresh a (by rw [ha]; exact hne)).1 (by rw [ha]; exact hok.rootSector)
  · rintro j rfl a heq
    rw [hval₄] at heq
    exact (hfresh a (by rw [heq]; decide)).1 (by rw [heq]; exact hok.rootSector)
  · rw [hmem₄, hopen₃, List.mem_singleton] at hq
    rw [FileSys.inode_congr hmem₄, hq, FileSys.inode_eq hget]
  · have hfree := hfill.free
    rwa [missing_null (hnull s₀.content), ← hfree₄] at hfree
  all_goals rw [hmem₄, hmem₃]

end Create

/-! ## The root directory -/

/-- The parent of the root, the entry that `dir_create` writes. -/
theorem inUse_entryAt_replicate (n i : Nat) :
    (entryAt (List.replicate n 0) i).inUse = false := by
  have hbyte : (entryAt (List.replicate n 0) i).byte 35 = 0 := by
    unfold entryAt
    rw [ByteBlock.byte_ofFn, if_pos (by decide), List.getD_eq_getElem?_getD,
      List.getElem?_replicate]
    split <;> rfl
  unfold DirEntry.inUse
  rw [hbyte]
  rfl

/-- There is room in a directory that has its parent's entry only. -/
theorem not_fullDir_parent {n : Nat} {e : DirEntry} (hn : 2 * ENTRY_SIZE ≤ n) :
    ¬ FullDir (overwrite 0 (List.replicate n 0) 0 e.toList) := by
  have hpos : 1 < (List.replicate n (0 : UInt8)).length / ENTRY_SIZE := by
    rw [List.length_replicate]
    exact (Nat.le_div_iff_mul_le (by decide)).2 hn
  have hset := dirEntries_set (e := e) (Nat.lt_trans Nat.zero_lt_one hpos)
  rw [Nat.mul_zero] at hset
  intro hfull
  have huse := hfull 1 (entryAt (List.replicate n 0) 1) (by
    rw [hset, List.getElem?_set_ne Nat.zero_ne_one]
    exact getElem?_dirEntries.2 ⟨hpos, rfl⟩)
  rw [inUse_entryAt_replicate] at huse
  exact Bool.noConfusion huse

theorem listing_parent {n r : Nat} {e : DirEntry} (hn : ENTRY_SIZE ≤ n) (he : e.inUse = true)
    (hr : e.inodeSector = r) : HasParent r (overwrite 0 (List.replicate n 0) 0 e.toList) ∧
      listing (overwrite 0 (List.replicate n 0) 0 e.toList) = [] := by
  have hpos : 0 < (List.replicate n (0 : UInt8)).length / ENTRY_SIZE := by
    rw [List.length_replicate]
    exact Nat.div_pos hn (by decide)
  have hset := dirEntries_set (e := e) hpos
  rw [Nat.mul_zero] at hset
  constructor
  · refine ⟨e, ?_, he, hr⟩
    rw [hset, List.getElem?_set_self (by rw [length_dirEntries]; exact hpos)]
  · refine List.eq_nil_iff_forall_not_mem.2 fun ⟨m, k⟩ hmem => ?_
    obtain ⟨i, x, hx, huse, -⟩ := mem_listing.1 hmem
    rw [hset, List.getElem?_set_ne (Nat.succ_ne_zero i).symm] at hx
    obtain ⟨-, rfl⟩ := getElem?_dirEntries.1 hx
    rw [inUse_entryAt_replicate] at huse
    exact absurd huse (by decide)

section RootDir

variable {D K : Set Nat} {dat : Nat → Sector} {s s₀ : FileSys} {d p k : Nat} {i : Int}

/-- The root directory was made, and is closed again. -/
structure RootCreated (D : Set Nat) (dat : Nat → Sector) (s s' : FileSys) : Prop where
  mounted : Mounted D {ROOT_DIR_SECTOR, FREE_MAP_SECTOR} dat s'
  exact : Exact {ROOT_DIR_SECTOR, FREE_MAP_SECTOR} dat s'
  tidy : Tidy s'.content (dat ROOT_DIR_SECTOR)
  parent : HasParent ROOT_DIR_SECTOR (rootBytes s'.content dat)
  isDir : inodeIsDir (dat ROOT_DIR_SECTOR) = true
  empty : listing (rootBytes s'.content dat) = []
  slack : ¬ FullDir (rootBytes s'.content dat)
  only : ∀ q ∈ s'.mem.openInodes, (s'.inode q).sector = FREE_MAP_SECTOR
  cwd : s'.mem.cwd = none
  free : s'.freeSectors + (inodeSlots (bytesToSectors 36000)).length = s.freeSectors
  allocFailures : s'.allocFailures = s.allocFailures
  rest : SameRest s s'

/-- `dir_close` of a handle that is not behind `cwd`, by its one opener. -/
theorem dirClose_single (h : Mounted D K dat s) (hp : Opened dat s p k) (hk₀ : k ≠ 0)
    (hsync : s.content k = dat k) (hd : s.dir d = ⟨p, i, 1⟩) :
    let s' := dirClose s d
    Mounted D K dat s' ∧ SameDisk s s' ∧ SameRest s s' ∧ s'.mem.cwd = none ∧
      (∀ q ∈ s'.mem.openInodes, q ∈ s.mem.openInodes ∧ q ≠ p ∧ s'.inode q = s.inode q) := by
  obtain ⟨s₁, hs₁⟩ : ∃ s₁, s₁ = s.setDir d ⟨p, i, 0⟩ := ⟨_, rfl⟩
  have hm : Mounted D K dat s₁ := by rw [hs₁]; exact h.setDir d _
  have hinode : ∀ q, s₁.inode q = s.inode q := fun q => by rw [hs₁]; rfl
  have hopened : Opened dat s₁ p k := hm.opened_iff.2 (by
    rw [hinode, hs₁]
    exact ⟨hp.mem, hp.isOpen.sector⟩)
  obtain ⟨hm', hdisk, htab, herase, hother⟩ := inodeClose_spec hm hopened hk₀
  have hcont : s₁.content k = dat k := by rw [hs₁]; exact hsync
  have hdisk₁ : SameDisk s s₁ := by rw [hs₁]; exact ⟨rfl, rfl, rfl, rfl⟩
  have hrest₁ : SameRest s s₁ := by rw [hs₁]; exact ⟨rfl, rfl, rfl, rfl⟩
  have hopen₁ : s₁.mem.openInodes = s.mem.openInodes := by rw [hs₁]; rfl
  rw [hcont, Function.update_eq_self] at hm'
  obtain ⟨t, ht⟩ : ∃ t, t = inodeClose s₁ p := ⟨_, rfl⟩
  have hclose : dirClose s d =
      { t with mem := { t.mem with dirs := t.mem.dirs.free d, cwd := none } } := by
    rw [ht, hs₁]
    unfold dirClose
    rw [hd]
    rfl
  rw [← ht] at hm' hdisk htab herase hother
  clear ht hs₁
  dsimp only
  rw [hclose]
  refine ⟨hm'.setDirs _ _,
    hdisk₁.trans ⟨hdisk.freeMap, hdisk.allocFailures, hdisk.size, hdisk.content⟩,
    hrest₁.trans ⟨htab.freeMapFile, htab.fileTable, htab.badCloses, htab.stray⟩, rfl,
    fun q hq => ?_⟩
  change q ∈ t.mem.openInodes at hq
  rw [herase, hm.nodup.mem_erase_iff, hopen₁] at hq
  exact ⟨hq.2, hq.1, (hother q hq.1).trans (hinode q)⟩

theorem dirCreate_spec (h : MapCreated D dat s₀ s)
    (hr : (inodeCreate s ROOT_DIR_SECTOR (MAX_FILES_IN_DIRECTORY * ENTRY_SIZE) true).1 =
      true) :
    (dirCreate s ROOT_DIR_SECTOR MAX_FILES_IN_DIRECTORY).1 = true ∧
      ∃ dat', RootCreated D dat' s
        (dirCreate s ROOT_DIR_SECTOR MAX_FILES_IN_DIRECTORY).2 := by
  have hm := h.mounted
  obtain ⟨n, hn⟩ : ∃ n : Int, n = MAX_FILES_IN_DIRECTORY * ENTRY_SIZE := ⟨_, rfl⟩
  have hn₃₂ : int32 n = 36000 := by rw [hn]; exact int32_eq (by decide) (by decide)
  obtain ⟨e, he⟩ : ∃ e, e =
      DirEntry.setInUse (DirEntry.setInodeSector .zeros ROOT_DIR_SECTOR) true := ⟨_, rfl⟩
  have huse : e.inUse = true := by rw [he]; decide
  have hsector : e.inodeSector = ROOT_DIR_SECTOR := by rw [he]; decide
  obtain ⟨c, hc⟩ : ∃ c, c = inodeCreate s ROOT_DIR_SECTOR n true := ⟨_, rfl⟩
  have hdo : dirCreate s ROOT_DIR_SECTOR MAX_FILES_IN_DIRECTORY =
      if c.1 = false then (false, c.2)
      else
        let i := inodeOpen c.2 ROOT_DIR_SECTOR
        let d := dirOpen i.2 i.1
        let w := writeEntry d.2 i.1 e 0
        (w.1, dirClose w.2 d.1) := by
    rw [he, hc, hn]
    rfl
  rw [← hn, ← hc] at hr
  rw [hdo, hr, if_neg (by simp)]
  clear hdo
  obtain ⟨d₀, d', s₁, hcreate, hnull, hlen, hdir, hnonneg, hmax, hhead, ho⟩ :=
    inodeCreate_reserved hm.vol.map (by rw [← hc]; exact hr)
  have hmade := ho.made hm h.spare hnull hlen hdir hmax hnonneg hhead
  have hc₂ : c.2 = s₁.writeSector ROOT_DIR_SECTOR d' := by rw [hc, hcreate]
  rw [← hc₂] at hmade
  clear hcreate hc hc₂ ho hnull hlen hdir hhead
  have hx := hmade.exact (fun j hj => by rw [hj]; exact h.sync)
    (fun j hj a hno => by rw [hj] at hno ⊢; exact h.null a hno)
    fun j hj => by
      rcases h.used j hj with hj | hj | ⟨a, ha⟩
      · exact .inr (.inl hj)
      · exact .inl hj
      · exact .inr (.inr ⟨(⟨0, rfl⟩, a), ha⟩)
  obtain ⟨dat₁, hdat₁⟩ : ∃ dat₁, dat₁ = Function.update dat ROOT_DIR_SECTOR d' :=
    ⟨_, rfl⟩
  have hdat : dat₁ ROOT_DIR_SECTOR = d' := by rw [hdat₁, Function.update_self]
  have hm₁ := hmade.mounted
  rw [← hdat₁] at hm₁ hx
  obtain ⟨hm₂, hop, hdisk, htab, hold, hnew⟩ := inodeOpen_spec hm₁ (.inl rfl)
  dsimp only
  generalize inodeOpen c.2 ROOT_DIR_SECTOR = i at hm₂ hop hdisk htab hold hnew ⊢
  obtain ⟨p, s₂⟩ := i
  dsimp only at hm₂ hop hdisk htab hold hnew ⊢
  obtain ⟨r, hd⟩ : ∃ r, r = dirOpen s₂ p := ⟨_, rfl⟩
  have hmem₃ : r.2.mem = { s₂.mem with dirs := r.2.mem.dirs } := by rw [hd]; rfl
  have hcache₃ : r.2.cache = s₂.cache := by rw [hd]; rfl
  have hdisk₃ : SameDisk s₂ r.2 := by rw [hd]; exact ⟨rfl, rfl, rfl, rfl⟩
  have hm₃ : Mounted D {ROOT_DIR_SECTOR, FREE_MAP_SECTOR} dat₁ r.2 := by
    rw [hd]
    exact hm₂.setDirs _ _
  have hop₃ := hop.isOpen.congr (t := r.2) (by rw [hmem₃])
  have hdir₃ : r.2.mem.dirs.get? r.1 = some ⟨p, ENTRY_SIZE, 1⟩ := by
    rw [hd]
    exact (Heap.get?_alloc ..).trans (if_pos rfl)
  rw [← hd]
  clear hd
  have hzero : ((0 : Nat) : Int) ≤ inodeLength (dat₁ ROOT_DIR_SECTOR) := by
    rw [hdat, hmade.length, hn₃₂]
    decide
  obtain ⟨d'', s₄, hw, hcase⟩ := writeEntry_spec (e := e) (o := 0) hm₃.vol hop₃
    (.inl rfl) (by decide) hzero
  have hroom : ((0 : Nat) + (e.toList.length : Nat) : Int) ≤
      inodeLength (dat₁ ROOT_DIR_SECTOR) := by
    rw [hdat, hmade.length, hn₃₂, ByteBlock.length_toList]
    decide
  rcases hcase with ⟨heq, hs⟩ | ⟨-, hs⟩
  · rw [Int.natCast_zero] at heq
    rw [heq]
    have hmem : p ∈ r.2.mem.openInodes := by rw [hmem₃]; exact hop.mem
    have hopened : Opened dat₁ r.2 p ROOT_DIR_SECTOR := ⟨hmem, hop₃⟩
    have hm₄ := hw.mounted hm₃ hopened (by decide)
    have hx₄ := hs.exact (hx.sameDisk (hdisk.trans hdisk₃))
    obtain ⟨dat₂, hdat₂⟩ : ∃ dat₂, dat₂ = Function.update dat₁ ROOT_DIR_SECTOR d'' :=
      ⟨_, rfl⟩
    have hd₂ : dat₂ ROOT_DIR_SECTOR = d'' := by rw [hdat₂, Function.update_self]
    rw [← hdat₂] at hm₄ hx₄
    have hop₄ : Opened dat₂ s₄ p ROOT_DIR_SECTOR := hm₄.opened_iff.2 ⟨by
      rw [hw.openInodes]
      exact hmem, (hw.sector hop₃ p).trans hop₃.sector⟩
    have hdir₄ : s₄.dir r.1 = ⟨p, ENTRY_SIZE, 1⟩ :=
      FileSys.dir_eq (by rw [hw.tables.dirs]; exact hdir₃)
    obtain ⟨hm₅, hdisk₅, hrest₅, hcwd, hopen₅⟩ := dirClose_single hm₄ hop₄ (by decide)
      (hx₄.sync _ (.inl rfl)) hdir₄
    generalize dirClose s₄ r.1 = s₅ at hm₅ hdisk₅ hrest₅ hcwd hopen₅ ⊢
    have hbytes : rootBytes s₅.content dat₂ =
        overwrite 0 (List.replicate 36000 0) 0 e.toList := by
      have hcont : r.2.content = c.2.content := (hdisk.trans hdisk₃).content
      rw [rootBytes, hdisk₅.content, hd₂, hs.content, hdat, hcont, hmade.content, hn₃₂]
      rfl
    obtain ⟨hparent, hempty⟩ := listing_parent (n := 36000) (by decide) huse hsector
    refine ⟨rfl, dat₂, hm₅, hx₄.sameDisk hdisk₅, ?_, by rw [hbytes]; exact hparent,
      by rw [hd₂, hw.isDir, hdat, hmade.isDir], by rw [hbytes]; exact hempty, by rw [hbytes]; exact not_fullDir_parent (by decide),
      fun q hq => ?_, hcwd, ?_, ?_, ?_⟩
    · rw [hdisk₅.content, hd₂]
      refine hs.tidy ?_
      rw [hdat, (hdisk.trans hdisk₃).content]
      exact hmade.tidy
    · obtain ⟨hq₄, hqp, hinode⟩ := hopen₅ q hq
      rw [hinode, hw.sector hop₃]
      rw [hw.openInodes, hmem₃] at hq₄
      have hinode₃ : r.2.inode q = s₂.inode q := by
        unfold FileSys.inode
        rw [hmem₃]
      rw [hinode₃]
      rcases hnew q hq₄ with hqp' | hq₂
      · exact absurd hqp' hqp
      · rw [(hold q hq₂).2, FileSys.inode_congr hmade.mem]
        exact h.only q (by rw [← hmade.mem]; exact hq₂)
    · have hfree := hmade.free
      rw [hn₃₂] at hfree
      rw [← hfree]
      unfold FileSys.freeSectors
      rw [hdisk₅.freeMap, hs.inside hroom, (hdisk.trans hdisk₃).freeMap]
    · rw [hdisk₅.allocFailures, hs.allocFailures, hdisk₃.allocFailures,
        hdisk.allocFailures, hmade.allocFailures]
    · have hrest₃ : SameRest s₂ r.2 := by
        constructor <;> rw [hmem₃]
      have hrest₁ : SameRest s c.2 := (SameTables.of_mem hmade.mem).rest
      exact (((hrest₁.trans htab.rest).trans hrest₃).trans hw.tables.rest).trans hrest₅
  · exact absurd hs.past (Int.not_lt.2 hroom)

end RootDir

/-! ## Devices that are too small, or too large -/

section Refused

variable {s : FileSys} {alloc : Alloc} {d : Sector} {k p : Nat} {len : Int} {isDir : Bool}

theorem inodeReserve_zero (alloc : Alloc) (s : FileSys) (d : Sector) :
    inodeReserve alloc s d 0 = ((true, d), s) := rfl

/-- No number of sectors makes an inode longer than its pointers reach. -/
theorem inodeReserve_large (h : MAX_LENGTH < len) :
    (inodeReserve alloc s d len).1.1 = false := by
  have hnum : MAX_SECTORS < bytesToSectors len := by
    by_contra hle
    have := bytesToSectors_le.1 (Nat.not_lt.1 hle)
    omega
  have hpos : 0 ≤ MAX_LENGTH := by decide
  unfold inodeReserve
  rw [if_neg (by omega)]
  generalize bytesToSectors len = num at hnum ⊢
  simp only [MAX_SECTORS, DIRECT_BLOCKS_COUNT] at hnum ⊢
  generalize reserveDirect alloc (min num 123) 0 s d = r
  split
  · next hfail => exact hfail
  · rw [if_neg (by omega)]
    unfold reserveIndirectBlocks
    simp only [INDIRECT_BLOCKS_PER_SECTOR]
    generalize reserveIndirect alloc 1 r.2 (indirectBlock r.1.2) _ = t
    split
    · rfl
    · rw [if_neg (by omega)]
      unfold reserveDoublyIndirect
      simp only [INDIRECT_BLOCKS_PER_SECTOR]
      generalize reserveIndirect alloc 2 t.2 _ _ = u
      split
      · rfl
      · exact decide_eq_false (by omega)

theorem inodeCreate_eq {t : (Bool × Sector) × FileSys}
    (h : inodeReserve allocSector s (newInodeDisk len isDir) (int32 len) = t) :
    inodeCreate s k len isDir =
      if t.1.1 then (true, t.2.writeSector k t.1.2) else (false, t.2) := by
  have hlen := newInodeDisk_length len isDir
  unfold inodeCreate
  generalize newInodeDisk len isDir = d₀ at hlen h ⊢
  dsimp only
  rw [hlen, h]

/-- An inode is made when its sectors can be reserved. -/
theorem inodeCreate_fst {t : (Bool × Sector) × FileSys}
    (h : inodeReserve allocSector s (newInodeDisk len isDir) (int32 len) = t) :
    (inodeCreate s k len isDir).1 = t.1.1 := by
  rw [inodeCreate_eq h]
  cases t.1.1 with
  | true => rfl
  | false => rfl

theorem inodeCreate_large (h : MAX_LENGTH < int32 len) :
    (inodeCreate s k len isDir).1 = false := by
  rw [inodeCreate_fst rfl]
  exact inodeReserve_large h

theorem inodeCreate_enough {D : Set Nat} (hok : FreeMapOk D s) (h : CanCreate s len) :
    (inodeCreate s k len isDir).1 = true := by
  obtain ⟨hnonneg, hmax, hfree⟩ := h
  have hnull := fun f => newInodeDisk_null f len isDir
  have hV : Roots D s IsIndex (slotVal s.content (newInodeDisk len isDir)) :=
    ⟨fun a hne => absurd (hnull _ a) hne, fun a _ hne => absurd (hnull _ a) hne,
      fun a _ hne => absurd (hnull _ a) hne⟩
  obtain ⟨-, ok, hret, ho⟩ := inodeReserve_spec hnonneg hok hV
  obtain ⟨rfl, -⟩ := ho.enough (by rw [missing_null (hnull _)]; exact hfree)
  rw [inodeCreate_fst rfl, hret, decide_eq_true (bytesToSectors_le.2 hmax), Bool.true_and]

theorem inodeReserve_full (hfull : s.freeSectors = 0) (hnull : directBlock d 0 = 0)
    (h : 0 < len) : (inodeReserve allocSector s d len).1.1 = false := by
  have hnum : 0 < bytesToSectors len := by
    simp only [bytesToSectors, BLOCK_SECTOR_SIZE]
    omega
  unfold inodeReserve
  rw [if_neg (by omega)]
  obtain ⟨m, hm⟩ : ∃ m, min (bytesToSectors len) DIRECT_BLOCKS_COUNT = m + 1 :=
    ⟨min (bytesToSectors len) DIRECT_BLOCKS_COUNT - 1, by
      simp only [DIRECT_BLOCKS_COUNT]; omega⟩
  have hdirect : (reserveDirect allocSector (m + 1) 0 s d).1.1 = false := by
    unfold reserveDirect
    rw [if_pos hnull, allocSector_full hfull]
  dsimp only
  rw [hm]
  generalize reserveDirect allocSector (m + 1) 0 s d = r at hdirect ⊢
  rw [if_pos hdirect]
  exact hdirect

/-- With no sector left only an empty inode can be made. -/
theorem inodeCreate_full (hfull : s.freeSectors = 0) (h : 0 < int32 len) :
    (inodeCreate s k len isDir).1 = false := by
  have hnull := newInodeDisk_null s.content len isDir (0, [])
  rw [slotVal_nil (by decide)] at hnull
  rw [inodeCreate_fst rfl]
  exact inodeReserve_full hfull hnull h

theorem inodeExtend_zero_freeMap (alloc : Alloc) (s : FileSys) (p : Nat) :
    (inodeExtend alloc s p 0).2.freeMap = s.freeMap := by
  unfold inodeExtend
  rw [inodeReserve_zero]
  rfl

/-- Writing nothing takes no sector. -/
theorem inodeWriteAt_nil_freeMap (alloc : Alloc) (s : FileSys) (p : Nat) :
    (inodeWriteAt alloc s p [] 0).2.freeMap = s.freeMap := by
  have hzero : int32 (0 + (([] : List UInt8).length : Int)) = 0 :=
    int32_eq (by decide) (by decide)
  unfold inodeWriteAt
  dsimp only
  rw [hzero]
  split
  · rfl
  · obtain ⟨e, he⟩ : ∃ e : Bool × FileSys, e.2.freeMap = s.freeMap ∧ e =
        if (byteToSector s.cache (s.inode p).data
            (int32 (0 + (([] : List UInt8).length : Int) - 1))).1 = NO_SECTOR then
          inodeExtend alloc { s with cache := (byteToSector s.cache (s.inode p).data
            (int32 (0 + (([] : List UInt8).length : Int) - 1))).2 } p 0
        else (true, { s with cache := (byteToSector s.cache (s.inode p).data
            (int32 (0 + (([] : List UInt8).length : Int) - 1))).2 }) := by
      refine ⟨_, ?_, rfl⟩
      split
      · exact inodeExtend_zero_freeMap ..
      · rfl
    rw [← he.2]
    split
    · exact he.1
    · exact he.1

theorem inodeOpen_freeMap (s : FileSys) (k : Nat) :
    (inodeOpen s k).2.freeMap = s.freeMap := by
  unfold inodeOpen
  split
  · rfl
  · rfl

theorem bitmapWrite_empty {f : File} (hbits : s.freeMap.bits = []) :
    (bitmapWrite alloc s f).2.freeMap = s.freeMap := by
  have hbytes : s.freeMap.toBytes = [] := by
    unfold Bitmap.toBytes
    rw [hbits]
    rfl
  have hw := inodeWriteAt_nil_freeMap alloc s f.inode
  rw [← hbytes] at hw
  exact hw

theorem freeMapCreate_eq {c : Bool × FileSys} {i : Nat × FileSys} {w : Bool × FileSys}
    (hc : inodeCreate s FREE_MAP_SECTOR (byteCnt s.freeMap.bitCnt) false = c)
    (hi : inodeOpen c.2 FREE_MAP_SECTOR = i)
    (hw : bitmapWrite allocSector
      { i.2 with mem := { i.2.mem with freeMapFile := some (fileOpen i.1) } }
      (fileOpen i.1) = w) : freeMapCreate s = (c.1 && w.1, w.2) := by
  subst hw
  unfold freeMapCreate
  rw [hc]
  dsimp only
  rw [hi]

/-- A device of one sector has no free map to write. -/
theorem freeMapCreate_empty (hcnt : s.freeMap.bitCnt = 0) (hbits : s.freeMap.bits = []) :
    (freeMapCreate s).2.freeMap = s.freeMap := by
  have hlen : int32 (byteCnt s.freeMap.bitCnt) = 0 := by
    rw [hcnt]
    exact int32_eq (by decide) (by decide)
  obtain ⟨c, hc, hfree⟩ : ∃ c,
      inodeCreate s FREE_MAP_SECTOR (byteCnt s.freeMap.bitCnt) false = c ∧
        c.2.freeMap = s.freeMap := by
    refine ⟨_, inodeCreate_eq rfl, ?_⟩
    rw [hlen, inodeReserve_zero, if_pos rfl]
    rfl
  obtain ⟨i, hi⟩ : ∃ i, inodeOpen c.2 FREE_MAP_SECTOR = i := ⟨_, rfl⟩
  have hopen : i.2.freeMap = s.freeMap := by
    rw [← hi, inodeOpen_freeMap, hfree]
  rw [freeMapCreate_eq hc hi rfl]
  dsimp only
  rw [bitmapWrite_empty (by change i.2.freeMap.bits = []; rw [hopen, hbits])]
  exact hopen

end Refused

/-! ## `filesys_init` -/

section Init

variable {c : CacheState} {stray : Int → UInt8} {s : FileSys}

theorem filesysStart_used {y : Int → UInt8} (hsize : 3 ≤ c.fsDevice.size) :
    FreeMapOk ∅ (filesysStart c y) ∧
      ∀ j, (filesysStart c y).used j → j = 0 ∨ j = ROOT_DIR_SECTOR := by
  have hfits := c.fsDevice.size_small
  have hcnt : (c.fsDevice.size + (2 ^ 32 - 1)) % 2 ^ 32 = c.fsDevice.size - 1 := by omega
  obtain ⟨b, hb⟩ : ∃ b, b = bitmapCreate ((c.fsDevice.size + (2 ^ 32 - 1)) % 2 ^ 32) :=
    ⟨_, rfl⟩
  have hwf : b.Wf := by rw [hb]; exact bitmapCreate_wf _
  have hbits : b.bitCnt = c.fsDevice.size - 1 := by rw [hb, bitmapCreate_bitCnt, hcnt]
  have hwf₀ := hwf.mark (i := FREE_MAP_SECTOR) (by rw [hbits]; simp only [FREE_MAP_SECTOR]; omega)
  have hlt₁ : ROOT_DIR_SECTOR < (bitmapMark b FREE_MAP_SECTOR).bitCnt := by
    rw [bitmapMark_bitCnt, hbits]
    simp only [ROOT_DIR_SECTOR]
    omega
  have htest : ∀ j, bitmapTest (bitmapMark (bitmapMark b FREE_MAP_SECTOR) ROOT_DIR_SECTOR) j =
      (j == ROOT_DIR_SECTOR || j == FREE_MAP_SECTOR) := by
    intro j
    rw [bitmapTest_mark (hwf₀.word_lt hlt₁), bitmapTest_mark (hwf.word_lt (by
      rw [hbits]; simp only [FREE_MAP_SECTOR]; omega)), hb, bitmapTest_create, Bool.or_false]
  have hfree : (filesysStart c y).freeMap =
      bitmapMark (bitmapMark b FREE_MAP_SECTOR) ROOT_DIR_SECTOR := by
    rw [hb]
    rfl
  refine ⟨⟨by rw [hfree]; exact hwf₀.mark hlt₁, ?_, ?_, ?_, fun _ => rfl,
    fun f hf => absurd hf (by simp [filesysStart])⟩, fun j hj => ?_⟩
  · rw [hfree, bitmapMark_bitCnt, bitmapMark_bitCnt, hbits]
    change c.fsDevice.size - 1 + 1 = c.fsDevice.size
    omega
  · unfold FileSys.used
    rw [hfree, htest]
    rfl
  · unfold FileSys.used
    rw [hfree, htest]
    rfl
  · unfold FileSys.used at hj
    rw [hfree, htest] at hj
    simp at hj
    exact hj.symm

end Init

section Done

variable {D K : Set Nat} {dat : Nat → Sector} {s : FileSys} {p : Nat} {i : Inode} {f : File}

/-- The last `inode_close` of an inode that was not removed. -/
theorem inodeClose_last (hget : s.mem.inodes.get? p = some i) (hcnt : i.openCnt = 1)
    (hkept : i.removed = false) :
    inodeClose s p = { s with mem := { s.mem with
      openInodes := s.mem.openInodes.erase p
      inodes := (s.mem.inodes.set p { i with openCnt := 0 }).free p } } := by
  unfold inodeClose
  rw [hget]
  simp only [hcnt, hkept, Int.sub_self, if_true, Bool.false_eq_true, if_false]
  rfl

/-- What closing a file leaves of the tables: one inode less. -/
structure FileShut (s : FileSys) (p : Nat) (s' : FileSys) : Prop where
  disk : SameDisk s s'
  tables : SameTables s s'
  openInodes : s'.mem.openInodes = s.mem.openInodes.erase p
  other : ∀ q, q ≠ p → s'.mem.inodes.get? q = s.mem.inodes.get? q

theorem fileClose_shut (hget : s.mem.inodes.get? f.inode = some i) (hcnt : i.openCnt = 1)
    (hkept : i.removed = false) : FileShut s f.inode (fileClose s f) := by
  obtain ⟨s₁, i₁, hs₁, hget₁, hcnt₁, hkept₁, hdisk, htab, hopen, hother⟩ :
      ∃ s₁ i₁, s₁ = fileAllowWrite s f ∧ s₁.mem.inodes.get? f.inode = some i₁ ∧
        i₁.openCnt = 1 ∧ i₁.removed = false ∧ SameDisk s s₁ ∧ SameTables s s₁ ∧
        s₁.mem.openInodes = s.mem.openInodes ∧
        ∀ q, q ≠ f.inode → s₁.mem.inodes.get? q = s.mem.inodes.get? q := by
    unfold fileAllowWrite
    split
    · have hself : s.inode f.inode = i := FileSys.inode_eq hget
      have hlive : s.mem.inodes.get? f.inode = some (s.inode f.inode) := by rw [hself, hget]
      refine ⟨_, _, rfl, (FileSys.get?_setInode hlive).trans (if_pos rfl), ?_, ?_,
        ⟨rfl, rfl, rfl, rfl⟩, ⟨rfl, rfl, rfl, rfl, rfl, rfl⟩, rfl, fun q hq =>
          (FileSys.get?_setInode hlive).trans (if_neg hq)⟩
      · exact (congrArg Inode.openCnt hself).trans hcnt
      · exact (congrArg Inode.removed hself).trans hkept
    · exact ⟨_, i, rfl, hget, hcnt, hkept, .refl s, .refl s, rfl, fun _ _ => rfl⟩
  unfold fileClose
  rw [← hs₁, inodeClose_last hget₁ hcnt₁ hkept₁]
  refine ⟨hdisk.trans ⟨rfl, rfl, rfl, rfl⟩, htab.trans ⟨rfl, rfl, rfl, rfl, rfl, rfl⟩,
    by rw [← hopen], fun q hq => ?_⟩
  refine (Heap.get?_free ..).trans ((if_neg hq).trans ?_)
  exact ((Heap.get?_set hget₁ _ q).trans (if_neg hq)).trans (hother q hq)

/-- `free_map_close` at any point of a session. -/
theorem freeMapClose_spec (h : Mounted D K dat s) :
    ∃ p, Opened dat s p FREE_MAP_SECTOR ∧ FileShut s p (freeMapClose s) := by
  obtain ⟨f, hf, ho⟩ := h.map_opened
  refine ⟨f.inode, ho, ?_⟩
  unfold freeMapClose
  rw [hf]
  exact fileClose_shut ho.isOpen.live ho.isOpen.openCnt ho.isOpen.kept

end Done

section Formatted

variable {c : CacheState} {stray : Int → UInt8} {s : FileSys}

/-- A freshly formatted disk. -/
structure Formatted (D : Set Nat) (dat : Nat → Sector) (s : FileSys) : Prop where
  session : Session D {ROOT_DIR_SECTOR, FREE_MAP_SECTOR} dat s 0
  exact : Exact {ROOT_DIR_SECTOR, FREE_MAP_SECTOR} dat s
  tidy : Tidy s.content (dat ROOT_DIR_SECTOR)
  empty : listing (rootBytes s.content dat) = []
  slack : ¬ FullDir (rootBytes s.content dat)
  fileTable : s.mem.fileTable = []
  allocFailures : s.allocFailures = 0

theorem doFormat_fst {s : FileSys} (h : (doFormat s).1 = true) :
    (freeMapCreate s).1 = true ∧
      (dirCreate (freeMapCreate s).2 ROOT_DIR_SECTOR MAX_FILES_IN_DIRECTORY).1 = true := by
  unfold doFormat at h
  dsimp only at h
  rwa [Bool.and_eq_true] at h

/-- A format needs a sector beside the two of the system. -/
theorem doFormat_size (h : (doFormat (filesysStart c stray)).1 = true) :
    3 ≤ c.fsDevice.size := by
  obtain ⟨hmap, hdir⟩ := doFormat_fst h
  have hmap := freeMapCreate_inode hmap
  have hdir := dirCreate_inode hdir
  by_contra hlt
  obtain ⟨b, hb⟩ : ∃ b, b = bitmapCreate ((c.fsDevice.size + (2 ^ 32 - 1)) % 2 ^ 32) :=
    ⟨_, rfl⟩
  have hwf : b.Wf := by rw [hb]; exact bitmapCreate_wf _
  have hcnt : b.bitCnt = (c.fsDevice.size + (2 ^ 32 - 1)) % 2 ^ 32 := by
    rw [hb, bitmapCreate_bitCnt]
  have hfree : (filesysStart c stray).freeMap =
      bitmapMark (bitmapMark b FREE_MAP_SECTOR) ROOT_DIR_SECTOR := by
    rw [hb]
    rfl
  generalize filesysStart c stray = s₀ at hmap hdir hfree
  have hcnt₀ : s₀.freeMap.bitCnt = (c.fsDevice.size + (2 ^ 32 - 1)) % 2 ^ 32 := by
    rw [hfree]
    exact hcnt
  obtain hsize | hsize | hsize :
      c.fsDevice.size = 0 ∨ c.fsDevice.size = 1 ∨ c.fsDevice.size = 2 := by omega
  · -- The count of bits wraps around.
    rw [hcnt₀, hsize, inodeCreate_large] at hmap
    · exact absurd hmap (by simp)
    · rw [show int32 (byteCnt ((0 + (2 ^ 32 - 1)) % 2 ^ 32) : Nat) = 2 ^ 29 from
        int32_eq (by decide) (by decide)]
      decide
  · have hbits : s₀.freeMap.bits = [] := by
      have hlen : s₀.freeMap.bits.length = 0 := by
        rw [hfree, bitmapMark_length, bitmapMark_length, hwf.length, hcnt, hsize]
        rfl
      exact List.eq_nil_of_length_eq_zero hlen
    have hzero : s₀.freeMap.bitCnt = 0 := by omega
    rw [inodeCreate_full] at hdir
    · exact absurd hdir (by simp)
    · unfold FileSys.freeSectors
      rw [freeMapCreate_empty hzero hbits, numFree_eq_zero]
      intro i hi
      rw [hzero] at hi
      exact absurd hi (Nat.not_lt_zero i)
    · rw [show int32 ((MAX_FILES_IN_DIRECTORY : Int) * (ENTRY_SIZE : Int)) = 36000 from
        int32_eq (by decide) (by decide)]
      decide
  · rw [inodeCreate_full] at hmap
    · exact absurd hmap (by simp)
    · unfold FileSys.freeSectors
      rw [numFree_eq_zero]
      intro i hi
      rw [hcnt₀, hsize] at hi
      obtain rfl : i = 0 := by omega
      have hone : b.bitCnt = 1 := by omega
      have hword : ROOT_DIR_SECTOR / ELEM_BITS < (bitmapMark b FREE_MAP_SECTOR).bits.length := by
        rw [bitmapMark_length, hwf.length, hone]
        decide
      rw [hfree, bitmapTest_mark hword, bitmapTest_mark (hwf.word_lt (by rw [hone]; decide))]
      rfl
    · rw [hcnt₀, hsize, show int32 (byteCnt ((2 + (2 ^ 32 - 1)) % 2 ^ 32) : Nat) = 8 from
        int32_eq (by decide) (by decide)]
      decide

theorem filesysInit_true (c : CacheState) (stray : Int → UInt8) :
    filesysInit true c stray =
      let f := doFormat (filesysStart c stray)
      (f.1 && (freeMapOpen f.2).1, (freeMapOpen f.2).2) := by
  unfold filesysInit
  rw [if_pos rfl]

/-- A format that finds the sectors it needs. -/
theorem filesysInit_made {y : Int → UInt8} (hsize : 3 ≤ c.fsDevice.size)
    (hmap : (inodeCreate (filesysStart c y) FREE_MAP_SECTOR
      (byteCnt (filesysStart c y).freeMap.bitCnt) false).1 = true)
    (hdir : (inodeCreate (freeMapCreate (filesysStart c y)).2 ROOT_DIR_SECTOR
      (MAX_FILES_IN_DIRECTORY * ENTRY_SIZE) true).1 = true) :
    ∃ s, filesysInit true c y = (true, s) ∧ (∃ D dat, Formatted D dat s) ∧
      s.freeSectors + (inodeSlots (bytesToSectors 36000)).length +
        (inodeSlots (bytesToSectors (byteCnt (filesysStart c y).freeMap.bitCnt))).length =
          (filesysStart c y).freeSectors := by
  rw [filesysInit_true]
  obtain ⟨hok, hused⟩ := filesysStart_used (y := y) hsize
  have hstart : (filesysStart c y).mem.openInodes = [] ∧
      (filesysStart c y).mem.fileTable = [] ∧ (filesysStart c y).mem.badCloses = 0 ∧
      (filesysStart c y).allocFailures = 0 := ⟨rfl, rfl, rfl, rfl⟩
  have hcnt : (filesysStart c y).freeMap.bitCnt < 2 ^ 32 := by
    have hlt := hok.cnt
    have hfits : (filesysStart c y).cache.size < 2 ^ 32 := c.fsDevice.size_small
    omega
  generalize filesysStart c y = s₀ at hmap hdir hok hused hstart hcnt ⊢
  obtain ⟨hopen₀, htable₀, hcloses₀, hfail₀⟩ := hstart
  obtain ⟨hmap₁, D, dat₁, hm⟩ := freeMapCreate_spec hok hopen₀ hused (int32_eq (by omega) (by
    simp only [byteCnt, elemCnt, ELEM_BITS]
    omega)) hmap
  obtain ⟨hdir₁, dat, hr⟩ := dirCreate_spec hm hdir
  have hform : doFormat s₀ = (true, freeMapClose
      (dirCreate (freeMapCreate s₀).2 ROOT_DIR_SECTOR MAX_FILES_IN_DIRECTORY).2) := by
    unfold doFormat
    dsimp only
    rw [hmap₁, hdir₁, Bool.true_and]
  rw [hform]
  clear hform hmap hdir hmap₁ hdir₁
  generalize (freeMapCreate s₀).2 = s₁ at hm hr ⊢
  generalize (dirCreate s₁ ROOT_DIR_SECTOR MAX_FILES_IN_DIRECTORY).2 = s₂ at hr ⊢
  obtain ⟨p, hp, hshut⟩ := freeMapClose_spec hr.mounted
  generalize freeMapClose s₂ = s₃ at hshut ⊢
  have hnone : s₃.mem.openInodes = [] := by
    rw [hshut.openInodes]
    refine List.eq_nil_iff_forall_not_mem.2 fun q hq => ?_
    obtain ⟨hqp, hq⟩ := (hr.mounted.nodup.mem_erase_iff).1 hq
    exact hqp (hr.mounted.opened_eq (hr.mounted.opened_iff.2 ⟨hq, hr.only q hq⟩) hp)
  obtain ⟨hopened, hfree, hmounted, ho⟩ := freeMapOpen_spec hr.mounted hr.exact.sync
    (by rw [hshut.disk.freeMap]; exact hr.mounted.vol.map.wf.length)
    (by rw [hshut.disk.freeMap]) hshut.disk.size hshut.disk.content hnone
  dsimp only
  rw [hopened, Bool.true_and]
  generalize (freeMapOpen s₃).2 = s at hfree hmounted ho ⊢
  have hcont : s.content = s₂.content := ho.content.trans hshut.disk.content
  have hroot : rootBytes s.content dat = rootBytes s₂.content dat := by rw [hcont]
  have htable : s.mem.fileTable = [] := by
    rw [ho.fileTable, hshut.tables.fileTable, hr.rest.fileTable, hm.fileTable, htable₀]
  have hempty : listing (rootBytes s.content dat) = [] := by rw [hroot]; exact hr.empty
  have hno : ∀ x, x ∉ listing (rootBytes s.content dat) := by
    rw [hempty]
    exact fun _ => List.not_mem_nil
  have hsectors : s.freeSectors = s₂.freeSectors := by
    unfold FileSys.freeSectors
    rw [hfree]
  refine ⟨s, rfl, ⟨D, dat, ?_⟩, by rw [hsectors, hr.free, hm.free]⟩
  refine ⟨⟨hmounted, ⟨?_, fun q hq => ?_⟩, ⟨.inl rfl, ?_, ?_, ?_, ?_, ?_, ?_, ?_, hr.isDir⟩,
    ?_, ?_, fun q hq h₀ => absurd (ho.only q hq) h₀, ?_⟩, hr.exact.frame hfree hcont, ?_,
    hempty, by rw [hroot]; exact hr.slack, htable, ?_⟩
  · rw [ho.cwd, hshut.tables.cwd, hr.cwd]
  · rw [ho.only q hq]
    decide
  · exact fun k hk => hk.elim (fun hk => .inr (.inl hk)) .inl
  · exact fun n k hn => absurd hn (hno _)
  · exact fun n k hn => absurd hn (hno _)
  · exact fun n k hn => absurd hn (hno _)
  · rw [hempty]
    exact List.nodup_nil
  · rw [hempty]
    exact List.nodup_nil
  · rw [hroot]
    exact hr.parent
  · rw [htable]
    exact List.nodup_nil
  · intro n f hf
    rw [htable] at hf
    exact absurd hf List.not_mem_nil
  · rw [ho.badCloses, hshut.tables.badCloses, hr.rest.badCloses, hm.badCloses, hcloses₀]
  · rw [hcont]
    exact hr.tidy
  · rw [ho.allocFailures, hshut.disk.allocFailures, hr.allocFailures, hm.allocFailures, hfail₀]

theorem filesysInit_format (h : filesysInit true c stray = (true, s)) :
    ∃ D dat, Formatted D dat s := by
  have hform := h
  rw [filesysInit_true, Prod.mk.injEq, Bool.and_eq_true] at hform
  obtain ⟨hmap, hdir⟩ := doFormat_fst hform.1.1
  obtain ⟨s', hs', hformatted, -⟩ := filesysInit_made (doFormat_size hform.1.1)
    (freeMapCreate_inode hmap) (dirCreate_inode hdir)
  have hss : s' = s := congrArg Prod.snd (hs'.symm.trans h)
  rw [← hss]
  exact hformatted

theorem numFree_create (n : Nat) : numFree (bitmapCreate n) = n := by
  rw [numFree_eq, bitmapCreate_bitCnt, Finset.filter_true_of_mem fun i _ =>
    bitmapTest_create n i, Finset.card_range]

theorem length_slots_root : (inodeSlots (bytesToSectors 36000)).length = 71 := by decide

theorem length_slots_one : (inodeSlots 1).length = 1 := by decide

theorem byteCnt_small {n : Nat} (h₀ : 0 < n) (h : n ≤ 4096) :
    int32 (byteCnt n) = byteCnt n ∧ (byteCnt n : Int) ≤ MAX_LENGTH ∧
      bytesToSectors (byteCnt n) = 1 := by
  have hbytes : byteCnt n ≤ 512 ∧ 0 < byteCnt n := by
    simp only [byteCnt, elemCnt, ELEM_BITS]
    omega
  generalize byteCnt n = m at hbytes ⊢
  refine ⟨int32_eq (by omega) (by omega), ?_, ?_⟩
  · simp only [MAX_LENGTH]
    omega
  · simp only [bytesToSectors, BLOCK_SECTOR_SIZE, Int.toNat_natCast]
    omega

theorem filesysStart_free (hmin : 3 ≤ c.fsDevice.size) :
    (filesysStart c stray).freeSectors + 3 = c.fsDevice.size := by
  obtain ⟨hok, -⟩ := filesysStart_used (y := stray) hmin
  have hcnt : (filesysStart c stray).freeMap.bitCnt + 1 = c.fsDevice.size := hok.cnt
  obtain ⟨b, hb⟩ : ∃ b, b = bitmapCreate ((c.fsDevice.size + (2 ^ 32 - 1)) % 2 ^ 32) :=
    ⟨_, rfl⟩
  have hwf : b.Wf := by rw [hb]; exact bitmapCreate_wf _
  have heq : (filesysStart c stray).freeMap =
      bitmapMark (bitmapMark b FREE_MAP_SECTOR) ROOT_DIR_SECTOR := by
    rw [hb]
    rfl
  have hbits : b.bitCnt + 1 = c.fsDevice.size := by
    rw [← hcnt, heq, bitmapMark_bitCnt, bitmapMark_bitCnt]
  have hlt₀ : FREE_MAP_SECTOR < b.bitCnt := by simp only [FREE_MAP_SECTOR]; omega
  have hwf₀ := hwf.mark hlt₀
  have hlt₁ : ROOT_DIR_SECTOR < (bitmapMark b FREE_MAP_SECTOR).bitCnt := by
    rw [bitmapMark_bitCnt]
    simp only [ROOT_DIR_SECTOR]
    omega
  have hmark₀ := numFree_mark hwf hlt₀ (by rw [hb]; exact bitmapTest_create _ _)
  have hmark₁ := numFree_mark hwf₀ hlt₁ (by
    rw [bitmapTest_mark (hwf.word_lt hlt₀), hb, bitmapTest_create]
    rfl)
  have hall : numFree b = b.bitCnt := by
    rw [hb, numFree_create, bitmapCreate_bitCnt]
  unfold FileSys.freeSectors
  rw [heq]
  omega

/-- A free map of one sector can be made, and the root directory too if there is room. -/
theorem format_small {s₀ : FileSys} (hok : FreeMapOk ∅ s₀) (hopen : s₀.mem.openInodes = [])
    (hused : ∀ j, s₀.used j → j = 0 ∨ j = ROOT_DIR_SECTOR) (hpos : 0 < s₀.freeMap.bitCnt)
    (hmax : s₀.freeMap.bitCnt ≤ 4096) (hroom : 72 ≤ s₀.freeSectors) :
    (inodeCreate s₀ FREE_MAP_SECTOR (byteCnt s₀.freeMap.bitCnt) false).1 = true ∧
      (∃ D dat, MapCreated D dat s₀ (freeMapCreate s₀).2) ∧
      (inodeCreate (freeMapCreate s₀).2 ROOT_DIR_SECTOR
        (MAX_FILES_IN_DIRECTORY * ENTRY_SIZE) true).1 = true := by
  obtain ⟨hint, hle, hone⟩ := byteCnt_small hpos hmax
  have hmap : (inodeCreate s₀ FREE_MAP_SECTOR (byteCnt s₀.freeMap.bitCnt) false).1 = true := by
    refine inodeCreate_enough hok ⟨by rw [hint]; exact Int.natCast_nonneg _,
      by rw [hint]; exact hle, ?_⟩
    rw [hint, hone, length_slots_one]
    omega
  obtain ⟨-, D, dat, hm⟩ := freeMapCreate_spec hok hopen hused hint hmap
  have hleft := hm.free
  rw [hone, length_slots_one] at hleft
  have hint₁ : int32 ((MAX_FILES_IN_DIRECTORY : Int) * (ENTRY_SIZE : Int)) = 36000 :=
    int32_eq (by decide) (by decide)
  refine ⟨hmap, ⟨D, dat, hm⟩, inodeCreate_enough hm.mounted.vol.map ⟨by rw [hint₁]; decide,
    by rw [hint₁]; decide, ?_⟩⟩
  rw [hint₁, length_slots_root]
  omega

/-- A device whose free map fits in one sector can be formatted if there is room for the
root directory, and what is left over is free. -/
theorem filesysInit_small (hmin : 75 ≤ c.fsDevice.size) (hmax : c.fsDevice.size ≤ 4097) :
    ∃ s, filesysInit true c stray = (true, s) ∧ (∃ D dat, Formatted D dat s) ∧
      s.freeSectors + 75 = c.fsDevice.size := by
  obtain ⟨hok, hused⟩ := filesysStart_used (y := stray) (Nat.le_trans (by decide) hmin)
  have hcnt : (filesysStart c stray).freeMap.bitCnt + 1 = c.fsDevice.size := hok.cnt
  have hfree := @filesysStart_free c stray (Nat.le_trans (by decide) hmin)
  have hopen : (filesysStart c stray).mem.openInodes = [] := rfl
  have hmade := filesysInit_made (y := stray) (Nat.le_trans (by decide) hmin)
  generalize filesysStart c stray = s₀ at hok hused hcnt hfree hopen hmade
  obtain ⟨hmap, -, hdir⟩ :=
    format_small hok hopen hused (by omega) (by omega) (by omega)
  obtain ⟨-, -, hone⟩ := byteCnt_small (n := s₀.freeMap.bitCnt) (by omega) (by omega)
  obtain ⟨s, hs, hformatted, hleft⟩ := hmade hmap hdir
  refine ⟨s, hs, hformatted, ?_⟩
  rw [hone, length_slots_root, length_slots_one] at hleft
  omega

end Formatted

end SimpleShell.Fs
