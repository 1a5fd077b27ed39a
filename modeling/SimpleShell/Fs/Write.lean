import SimpleShell.Fs.Volume

/-!
# Writing a file of a volume

`inode_write_at` on an open inode of a volume. `Wrote` holds of every call,
whatever the offset and however it ends: the volume stays one, and apart from
the free-map file and sector 0 only the inode's own sectors change. `Extended`
adds what a successful extension does, and `inodeWriteAt_grown` puts the two
together for a write past the end of the file.
-/

namespace SimpleShell.Fs

open SimpleShell.Lib

/-! ## Open inodes -/

/-- Pointer `p` is to the open inode of sector `k`. -/
structure IsOpen (dat : Nat → Sector) (s : FileSys) (p k : Nat) : Prop where
  live : s.mem.inodes.get? p = some (s.inode p)
  sector : (s.inode p).sector = k
  data : (s.inode p).data = dat k
  openCnt : (s.inode p).openCnt = 1
  kept : (s.inode p).removed = false
  writable : (s.inode p).denyWriteCnt = 0

theorem IsOpen.inode_eq {dat : Nat → Sector} {s : FileSys} {p k : Nat}
    (h : IsOpen dat s p k) : s.inode p = ⟨k, 1, false, 0, dat k⟩ := by
  obtain ⟨-, hsector, hdata, hcnt, hkept, hdeny⟩ := h
  generalize s.inode p = i at *
  cases i with
  | mk sector openCnt removed denyWriteCnt data =>
      dsimp only at *
      rw [hsector, hdata, hcnt, hkept, hdeny]

section Tables

variable {s : FileSys} {p q : Nat} {i : Inode}

theorem FileSys.inode_eq (h : s.mem.inodes.get? p = some i) : s.inode p = i := by
  simp [FileSys.inode, h]

theorem FileSys.get?_setInode (h : s.mem.inodes.get? p = some (s.inode p)) :
    (s.setInode p i).mem.inodes.get? q =
      if q = p then some i else s.mem.inodes.get? q :=
  Heap.get?_set h i q

theorem FileSys.inode_setInode (h : s.mem.inodes.get? p = some (s.inode p)) :
    (s.setInode p i).inode p = i := by
  unfold FileSys.inode
  rw [FileSys.get?_setInode h, if_pos rfl]
  rfl

theorem FileSys.setInode_self (h : s.mem.inodes.get? p = some (s.inode p)) :
    s.setInode p (s.inode p) = s := by
  unfold FileSys.setInode
  rw [Heap.set_self h]

theorem FileSys.get?_setData {d : Sector}
    (h : s.mem.inodes.get? p = some (s.inode p)) :
    (s.setData p d).mem.inodes.get? q =
      if q = p then some { s.inode p with data := d } else s.mem.inodes.get? q :=
  FileSys.get?_setInode h

theorem FileSys.inode_setData {d : Sector}
    (h : s.mem.inodes.get? p = some (s.inode p)) :
    (s.setData p d).inode p = { s.inode p with data := d } :=
  FileSys.inode_setInode h

theorem FileSys.setData_self (h : s.mem.inodes.get? p = some (s.inode p)) :
    s.setData p (s.inode p).data = s :=
  FileSys.setInode_self h

theorem FileSys.setData_setData {d e : Sector}
    (h : s.mem.inodes.get? p = some (s.inode p)) :
    (s.setData p d).setData p e = s.setData p e := by
  unfold FileSys.setData
  rw [FileSys.inode_setInode h]
  unfold FileSys.setInode
  simp only [Heap.set_set]

theorem FileSys.setData_mem {s' : FileSys} (h : s'.mem = s.mem) (d : Sector) :
    (s'.setData p d).mem = (s.setData p d).mem := by
  unfold FileSys.setData FileSys.setInode FileSys.inode
  rw [h]

theorem FileSys.inode_congr {s' : FileSys} (h : s'.mem = s.mem) :
    s'.inode p = s.inode p := by
  unfold FileSys.inode
  rw [h]

end Tables

section Vol

variable {D K : Set Nat} {dat : Nat → Sector} {s s' : FileSys} {p k : Nat}
  {d d' : Sector}

theorem Vol.ne_mapFile (h : Vol D K dat s)
    (hlive : s.mem.inodes.get? p = some (s.inode p)) (hsec : (s.inode p).sector = k)
    (hk₀ : k ≠ 0) : ∀ f, s.mem.freeMapFile = some f → f.inode ≠ p := by
  intro f hf heq
  obtain ⟨f', i, hf', hget, hzero, -⟩ := h.mapFile
  have hff : f' = f := Option.some.inj (hf'.symm.trans hf)
  subst hff
  rw [heq, hlive] at hget
  rw [← Option.some.inj hget, hsec] at hzero
  exact hk₀ hzero

theorem Vol.setInode (h : Vol D K dat s)
    (hlive : s.mem.inodes.get? p = some (s.inode p)) (hsec : (s.inode p).sector = k)
    (hk₀ : k ≠ 0) (i : Inode) : Vol D K dat (s.setInode p i) := by
  refine h.frame rfl rfl rfl rfl fun f hf => ?_
  rw [FileSys.get?_setInode hlive, if_neg (h.ne_mapFile hlive hsec hk₀ f hf)]

theorem Vol.inodeRoots (h : Vol D K dat s) (hk : k ∈ K) :
    Roots D s IsIndex (slotVal s.content (dat k)) where
  used _ ha := h.slot_used hk ha
  inj _ _ ha hab := (h.slot_inj hk hk ha hab).2
  offData _ hidx ha := h.slot_not_mem hk (.inl hidx) ha

/-! ## Copies of an inode -/

/-- Setting the length moves no pointer. -/
theorem slotVal_setLength (f : Nat → Sector) (d : Sector) (n : Int) :
    slotVal f (setLength d n) = slotVal f d := by
  funext a
  unfold slotVal
  split
  · next hr =>
      have hentry : blockEntry (setLength d n) a.1 = blockEntry d a.1 :=
        u32_setLength (by omega)
      rw [hentry]
  · rfl

/-- `e` is an older copy of `d`: all it may lack is pointers. -/
structure Older (e d : Sector) : Prop where
  keeps : Keeps e d
  header : SameHeader e d

theorem Older.refl (d : Sector) : Older d d := ⟨.refl d, .refl d⟩

theorem Older.trans {e : Sector} (h₁ : Older e d) (h₂ : Older d d') : Older e d' :=
  ⟨h₁.keeps.trans h₂.keeps, h₁.header.trans h₂.header⟩

theorem Older.slotVal_eq {e : Sector} (h : Older e d) {f : Nat → Sector} {a : Slot}
    (hne : slotVal f e a ≠ 0) : slotVal f e a = slotVal f d a := by
  unfold slotVal at hne ⊢
  split
  · next hr =>
      rw [if_pos hr] at hne
      have hroot : blockEntry e a.1 ≠ 0 := by
        intro h₀
        rw [h₀, nodeAt_null] at hne
        exact hne rfl
      rw [h.keeps a.1 (by omega) hroot]
  · rfl

theorem Grow.older (hg : Grow D s s' IsIndex (slotVal s.content d) (slotVal s'.content d'))
    (hhead : SameHeader d d') : Older d d' := by
  refine ⟨fun j hj hne => ?_, hhead⟩
  rcases Nat.lt_or_ge j 125 with hlt | hge
  · have := hg.keep (j, []) (by rw [slotVal_nil hlt]; exact hne)
    rwa [slotVal_nil hlt, slotVal_nil hlt] at this
  · exact ByteBlock.u32_congr fun i hi _ => hhead i (by omega)

/-- An older copy stays usable while the index blocks of the inode only gain
pointers. -/
theorem FileOk.older {f f' : Nat → Sector} {size : Nat} {e : Sector}
    (h : FileOk f size e) (he : Older e d)
    (hkeep : ∀ a, IsIndex a → slotVal f d a ≠ 0 →
      Keeps (f (slotVal f d a)) (f' (slotVal f d a))) : FileOk f' size e := by
  refine ⟨h.nonneg, h.max, h.mapped.congr fun a ha =>
    slotVal_of_keeps (fun q j r _ hq hne => ?_) (h.mapped.ne a ha)⟩
  have heq := he.slotVal_eq hne
  rw [heq] at hne ⊢
  exact hkeep _ hq hne

/-! ## What every write does -/

structure Wrote (D K : Set Nat) (dat : Nat → Sector) (s : FileSys) (p k : Nat)
    (d' : Sector) (s' : FileSys) : Prop where
  vol : Vol D K (Function.update dat k d') s'
  mem : s'.mem = (s.setData p d').mem
  size : s'.cache.size = s.cache.size
  mono : ∀ j, s.used j → s'.used j
  keep : ∀ a, slotVal s.content (dat k) a ≠ 0 →
    slotVal s'.content d' a = slotVal s.content (dat k) a
  fresh : ∀ a, slotVal s.content (dat k) a = 0 → slotVal s'.content d' a ≠ 0 →
    ¬ s.used (slotVal s'.content d' a)
  frame : ∀ j, s.used j → j ∉ D → j ≠ 0 → j ≠ k →
    (∀ a, slotVal s.content (dat k) a ≠ j) → s'.content j = s.content j
  disk : s'.content k = d' ∨ (s'.content k = s.content k ∧ Older (dat k) d' ∧
    ∀ e, FileOk s.content s.cache.size e → Older e (dat k) →
      FileOk s'.content s'.cache.size e)
  isDir : inodeIsDir d' = inodeIsDir (dat k)
  allocFailures : s.allocFailures ≤ s'.allocFailures

section Wrote

variable {D K : Set Nat} {dat : Nat → Sector} {s s' : FileSys} {p k j : Nat}
  {d' : Sector} {a : Slot}

/-- What another inode of the volume owns is out of a write's way. -/
theorem Wrote.content_slot (hw : Wrote D K dat s p k d' s') (h : Vol D K dat s)
    (hk : k ∈ K) (hk₀ : k ≠ 0) (hj : j ∈ K) (hjk : j ≠ k) (ha : IsIndex a ∨ j ≠ 0)
    (hne : slotVal s.content (dat j) a ≠ 0) :
    s'.content (slotVal s.content (dat j) a) =
      s.content (slotVal s.content (dat j) a) :=
  hw.frame _ (h.slot_used hj hne) (h.slot_not_mem hj ha hne) hne
    (h.slot_apart hk hk₀ hj) fun _ heq => hjk (h.slot_inj hj hk hne heq.symm).1

theorem Wrote.content_inode (hw : Wrote D K dat s p k d' s') (h : Vol D K dat s)
    (hk : k ∈ K) (hj : j ∈ K) (hjk : j ≠ k) (hj₀ : j ≠ 0) :
    s'.content j = s.content j :=
  hw.frame j (h.owned j hj) (h.offData j hj) hj₀ hjk fun _ => h.slot_apart hj hj₀ hk

theorem Wrote.slotVal_other (hw : Wrote D K dat s p k d' s') (h : Vol D K dat s)
    (hk : k ∈ K) (hk₀ : k ≠ 0) (hj : j ∈ K) (hjk : j ≠ k) (a : Slot) :
    slotVal s'.content (dat j) a = slotVal s.content (dat j) a :=
  slotVal_of_index (fun _ hb hne =>
    hw.content_slot h hk hk₀ hj hjk (.inl hb) hne) a

theorem Wrote.fileByte_other (hw : Wrote D K dat s p k d' s') (h : Vol D K dat s)
    (hk : k ∈ K) (hk₀ : k ≠ 0) (hj : j ∈ K) (hjk : j ≠ k) (hj₀ : j ≠ 0) {x : Nat}
    (hx : x / BLOCK_SECTOR_SIZE < numSectors (dat j)) :
    fileByte s'.content (dat j) x = fileByte s.content (dat j) x := by
  have hne := (h.file j hj).mapped.ne _
    (leafSlot_mem hx (Nat.lt_of_lt_of_le hx (h.file j hj).sectors_le))
  unfold fileByte leafAt
  rw [hw.slotVal_other h hk hk₀ hj hjk, hw.content_slot h hk hk₀ hj hjk (.inr hj₀) hne]

theorem Wrote.refl (h : Vol D K dat s) (hp : IsOpen dat s p k) :
    Wrote D K dat s p k (dat k) s where
  vol := by rw [Function.update_eq_self]; exact h
  mem := by rw [← hp.data, FileSys.setData_self hp.live]
  size := rfl
  mono _ hj := hj
  keep _ _ := rfl
  fresh _ h₀ hne := absurd h₀ hne
  frame _ _ _ _ _ _ := rfl
  disk := .inr ⟨rfl, .refl _, fun _ he _ => he⟩
  isDir := rfl
  allocFailures := Nat.le_refl _

/-- Data may be written afterwards. -/
theorem Wrote.dataWrite (hw : Wrote D K dat s p k d' s') (hk : k ∈ K) (hk₀ : k ≠ 0)
    {c : BufferCache} (hsize : c.size = s'.cache.size)
    (hdata : DataWrite s'.content c.content d') :
    Wrote D K dat s p k d' { s' with cache := c } := by
  have hself : Function.update dat k d' k = d' := Function.update_self ..
  have hdata' : DataWrite s'.content c.content (Function.update dat k d' k) := by
    rw [hself]; exact hdata
  have hval : ∀ a, slotVal c.content d' a = slotVal s'.content d' a := by
    intro a
    have := hw.vol.slotVal_dataWrite hk hk hdata' a
    rwa [hself] at this
  have hkc : c.content k = s'.content k := by
    refine hdata k fun i _ heq => hw.vol.slot_apart hk hk₀ hk (a := leafSlot i) ?_
    rw [hself]
    exact heq.symm
  refine ⟨hw.vol.dataWrite hk hk₀ hsize hdata', hw.mem, hsize.trans hw.size, hw.mono,
    fun a ha => (hval a).trans (hw.keep a ha), fun a h₀ hne => ?_,
    fun j hj hD hj₀ hjk hno => ?_, ?_, hw.isDir, hw.allocFailures⟩
  · change slotVal c.content d' a ≠ 0 at hne
    change ¬ s.used (slotVal c.content d' a)
    rw [hval] at hne ⊢
    exact hw.fresh a h₀ hne
  · rw [← hw.frame j hj hD hj₀ hjk hno]
    refine hdata j fun i _ heq => ?_
    have hne : slotVal s'.content d' (leafSlot i) ≠ 0 := by
      rw [← show j = slotVal s'.content d' (leafSlot i) from heq]
      exact hj₀
    have heq : j = slotVal s'.content d' (leafSlot i) := heq
    rcases eq_or_ne (slotVal s.content (dat k) (leafSlot i)) 0 with h₀ | hold
    · exact hw.fresh _ h₀ hne (heq ▸ hj)
    · exact hno _ ((hw.keep _ hold).symm.trans heq.symm)
  · rcases hw.disk with hdisk | ⟨hsame, holder, hfile⟩
    · exact .inl (hkc.trans hdisk)
    · refine .inr ⟨hkc.trans hsame, holder, fun e he hed => ?_⟩
      change FileOk c.content c.size e
      rw [hsize]
      refine (hfile e he hed).older (hed.trans holder) fun a ha hne => ?_
      rw [hdata _ fun i _ heq => ?_]
      · exact .refl _
      · have := hw.vol.slot_inj hk hk (a := a) (b := leafSlot i)
          (by rw [hself]; exact hne) (by rw [hself]; exact heq)
        rw [this.2] at ha
        exact not_isIndex_leafSlot i ha

theorem Wrote.slotVal_withLength (hw : Wrote D K dat s p k d' s') (hk : k ∈ K)
    (hk₀ : k ≠ 0) (n : Int) (a : Slot) :
    slotVal ((s'.setData p (setLength d' n)).writeSector k (setLength d' n)).content
      (setLength d' n) a = slotVal s'.content d' a := by
  have := hw.vol.slotVal_writeInode hk hk₀ (setLength d' n) hk a
  rw [Function.update_self] at this
  rw [slotVal_setLength]
  exact this

/-- The inode is given the length `n` and written to its sector. -/
theorem Wrote.withLength (hw : Wrote D K dat s p k d' s')
    (hk : k ∈ K) (hk₀ : k ≠ 0) (hlive : s.mem.inodes.get? p = some (s.inode p))
    (hsec : (s.inode p).sector = k) {n : Int}
    (hfile : FileOk s'.content s'.cache.size (setLength d' n)) :
    Wrote D K dat s p k (setLength d' n)
      ((s'.setData p (setLength d' n)).writeSector k (setLength d' n)) := by
  have hinode : s'.inode p = { s.inode p with data := d' } := by
    rw [FileSys.inode_congr hw.mem, FileSys.inode_setData hlive]
  have hlive' : s'.mem.inodes.get? p = some (s'.inode p) := by
    rw [hinode, hw.mem, FileSys.get?_setData hlive, if_pos rfl]
  have hvol : Vol D K (Function.update dat k (setLength d' n)) s' := by
    have := hw.vol.setDat (d := setLength d' n) hk₀ (fun a _ => ?_) hfile
    · rwa [Function.update_idem] at this
    · rw [slotVal_setLength, Function.update_self]
  have hvol' := hvol.setInode hlive' (by rw [hinode]; exact hsec) hk₀
    { s'.inode p with data := setLength d' n }
  have hlt : k < s'.cache.size := hvol'.lt_size hk
  have hval := hw.slotVal_withLength hk hk₀ n
  refine ⟨hvol'.writeInode hk hk₀ _, ?_,
    (FileSys.writeSector_size ..).trans hw.size, hw.mono,
    fun a ha => (hval a).trans (hw.keep a ha), fun a h₀ hne => ?_,
    fun j hj hD hj₀ hjk hno => ?_, .inl ?_, ?_, hw.allocFailures⟩
  · rw [FileSys.writeSector_mem, FileSys.setData_mem hw.mem,
      FileSys.setData_setData hlive]
  · rw [hval] at hne ⊢
    exact hw.fresh a h₀ hne
  · rw [writeSector_content_of_ne hjk]
    exact hw.frame j hj hD hj₀ hjk hno
  · exact (congrFun (FileSys.writeSector_content hlt _) k).trans
      (Function.update_self ..)
  · rw [← hw.isDir]
    unfold inodeIsDir setLength
    rw [ByteBlock.byte_setU32_of_ne (by omega)]

end Wrote

end Vol

/-! ## Extending -/

section Extend

variable {D K : Set Nat} {dat : Nat → Sector} {s s' : FileSys} {p k : Nat}
  {d d' : Sector} {need : List Slot} {ok : Bool}

theorem Outcome.allocFailures_le
    (h : Outcome D s s' IsIndex need ok (slotVal s.content d) (slotVal s'.content d')) :
    s.allocFailures ≤ s'.allocFailures := by
  rcases Nat.lt_or_ge s.freeSectors (missing (slotVal s.content d) need).length
    with hlt | hle
  · exact Nat.le_of_lt (h.short hlt).2.allocFailures
  · exact Nat.le_of_eq (h.enough hle).2.allocFailures.symm

theorem Grow.mapped {n : Nat}
    (hg : Grow D s s' IsIndex (slotVal s.content d) (slotVal s'.content d'))
    (hV : Roots D s IsIndex (slotVal s.content d))
    (hne : ∀ a ∈ inodeSlots n, slotVal s'.content d' a ≠ 0) :
    Mapped s'.content s'.cache.size d' n where
  ne := hne
  lt a ha := hg.ok.lt_size (hg.used hV (hne a ha))
  inj a ha b _ := hg.inj a b (hne a ha)

theorem SameHeader.isDir (h : SameHeader d d') : inodeIsDir d' = inodeIsDir d := by
  unfold inodeIsDir
  rw [h 500 (Nat.le_refl _)]

/-- A reservation, with the inode in memory keeping what it gained. -/
theorem Vol.wrote_reserve (h : Vol D K dat s) (hp : IsOpen dat s p k) (hk : k ∈ K)
    (hk₀ : k ≠ 0) (hhead : SameHeader (dat k) d')
    (ho : Outcome D s s' IsIndex need ok (slotVal s.content (dat k))
      (slotVal s'.content d')) :
    Wrote D K dat s p k d' (s'.setData p d') := by
  have hg := ho.grow
  have hfile : FileOk s'.content s'.cache.size d' := by
    refine ⟨by rw [hhead.length]; exact (h.file k hk).nonneg,
      by rw [hhead.length]; exact (h.file k hk).max, ?_⟩
    rw [numSectors, hhead.length]
    refine hg.mapped (h.inodeRoots hk) fun a ha => ?_
    rw [hg.keep a ((h.file k hk).mapped.ne a ha)]
    exact (h.file k hk).mapped.ne a ha
  have hinode := FileSys.inode_congr (p := p) hg.mem
  refine ⟨(h.grow hk hk₀ rfl ho rfl hfile).setInode ?_ (k := k) ?_ hk₀ _, ?_, hg.size,
    hg.mono, hg.keep, fun a h₀ hne => (hg.fresh a h₀ hne).1,
    fun j hj hD hj₀ _ hno => hg.frame j hj hD hj₀ fun a _ => hno a,
    .inr ⟨?_, hg.older hhead, fun e he hed => ?_⟩, hhead.isDir, ho.allocFailures_le⟩
  · rw [hinode, hg.mem]
    exact hp.live
  · rw [hinode]
    exact hp.sector
  · exact FileSys.setData_mem hg.mem d'
  · exact hg.frame k (h.owned k hk) (h.offData k hk) hk₀ fun a _ =>
      h.slot_apart hk hk₀ hk
  · change FileOk s'.content s'.cache.size e
    rw [hg.size]
    exact he.older hed fun a ha hne => hg.keeps _ (h.slot_used hk hne)
      (h.slot_not_mem hk (.inl ha) hne) hne

/-- What a successful extension to `n` bytes does on top. -/
structure Extended (D K : Set Nat) (dat : Nat → Sector) (s : FileSys) (p k : Nat)
    (n : Int) (d' : Sector) (s' : FileSys) : Prop where
  wrote : Wrote D K dat s p k d' s'
  length : inodeLength d' = n
  disk : s'.content k = d'
  beyond : ∀ a, a ∉ inodeSlots (bytesToSectors n) →
    slotVal s'.content d' a = slotVal s.content (dat k) a
  zeroed : ∀ a, ¬ IsIndex a → slotVal s.content (dat k) a = 0 →
    slotVal s'.content d' a ≠ 0 → s'.content (slotVal s'.content d' a) = .zeros
  data : ∀ a, ¬ IsIndex a → slotVal s.content (dat k) a ≠ 0 →
    s'.content (slotVal s.content (dat k) a) = s.content (slotVal s.content (dat k) a)
  free : s'.freeSectors +
    (missing (slotVal s.content (dat k)) (inodeSlots (bytesToSectors n))).length =
      s.freeSectors
  allocFailures : s'.allocFailures = s.allocFailures
  zero : s'.content 0 = s.content 0
  used : ∀ j, s'.used j → s.used j ∨ ∃ a, slotVal s'.content d' a = j

theorem bytesToSectors_le {n : Int} :
    bytesToSectors n ≤ MAX_SECTORS ↔ n ≤ MAX_LENGTH := by
  simp only [bytesToSectors, MAX_LENGTH, MAX_SECTORS, BLOCK_SECTOR_SIZE]
  omega

theorem bytesToSectors_mono {m n : Int} (h : m ≤ n) :
    bytesToSectors m ≤ bytesToSectors n := by
  have : m.toNat ≤ n.toNat := Int.toNat_le_toNat h
  exact Nat.div_le_div_right (by omega)

/-- An extension succeeds when three levels can hold the length and there are
enough free sectors. -/
def CanExtend (s : FileSys) (d : Sector) (n : Int) : Prop :=
  0 ≤ n ∧ n ≤ MAX_LENGTH ∧
    (missing (slotVal s.content d) (inodeSlots (bytesToSectors n))).length ≤
      s.freeSectors

theorem inodeExtend_spec {n : Int} (h : Vol D K dat s) (hp : IsOpen dat s p k)
    (hk : k ∈ K) (hk₀ : k ≠ 0) :
    let r := inodeExtend allocSector s p n
    ∃ d', Wrote D K dat s p k d' r.2 ∧ (r.2.inode p).data = d' ∧
      (r.1 = true → CanExtend s (dat k) n ∧ Extended D K dat s p k n d' r.2) ∧
      (r.1 = false → ¬ CanExtend s (dat k) n ∧ SameHeader (dat k) d' ∧
        (∀ a, ¬ IsIndex a → slotVal s.content (dat k) a ≠ 0 →
          r.2.content (slotVal s.content (dat k) a) =
            s.content (slotVal s.content (dat k) a)) ∧
        (0 ≤ n → n ≤ MAX_LENGTH → s.allocFailures < r.2.allocFailures) ∧
        (0 ≤ n → r.2.freeSectors = s.freeSectors -
          (missing (slotVal s.content (dat k)) (inodeSlots (bytesToSectors n))).length) ∧
        Sparing s (dat k) n d' r.2) := by
  have hsparing := inodeReserve_sparing h.map (h.inodeRoots hk) n
  unfold inodeExtend
  rw [hp.data]
  rcases Int.lt_or_le n 0 with hneg | hn
  · have hres : inodeReserve allocSector s (dat k) n = ((false, dat k), s) := by
      rw [inodeReserve, if_pos hneg]
    rw [hres] at hsparing
    simp only [hres, if_true]
    rw [← hp.data, FileSys.setData_self hp.live, hp.data]
    exact ⟨dat k, .refl h hp, rfl, fun hf => absurd hf (by simp),
      fun _ => ⟨fun hc => absurd hc.1 (by omega), .refl _, fun _ _ _ => rfl,
        fun hn => absurd hn (by omega), fun hn => absurd hn (by omega), hsparing⟩⟩
  · obtain ⟨hhead, ok, hret, ho⟩ := inodeReserve_spec hn h.map (h.inodeRoots hk)
    generalize inodeReserve allocSector s (dat k) n = r at hhead hret ho hsparing ⊢
    have hw := h.wrote_reserve hp hk hk₀ hhead ho
    have hlive : r.2.mem.inodes.get? p = some (r.2.inode p) := by
      rw [FileSys.inode_congr ho.grow.mem, ho.grow.mem]
      exact hp.live
    have hdata : ((r.2.setData p r.1.2).inode p).data = r.1.2 := by
      rw [FileSys.inode_setData hlive]
    have hleaf : ∀ a, ¬ IsIndex a → slotVal s.content (dat k) a ≠ 0 →
        r.2.content (slotVal s.content (dat k) a) =
          s.content (slotVal s.content (dat k) a) := by
      intro a hidx hne
      refine ho.grow.frame _ (h.slot_used hk hne)
        (h.slot_not_mem hk (.inr hk₀) hne) hne fun b hb heq => ?_
      have := (h.slot_inj hk hk hne heq.symm).2
      exact hidx (this ▸ hb)
    dsimp only
    split
    · next hfail =>
        refine ⟨r.1.2, hw, hdata, fun hf => absurd hf (by simp),
          fun _ => ⟨?_, hhead, hleaf, fun _ hmax => ?_, fun _ => ho.freeSectors,
            ⟨fun hfree => ?_, hsparing.zero⟩⟩⟩
        · rintro ⟨-, hmax, hfree⟩
          rw [hret, (ho.enough hfree).1] at hfail
          exact absurd (bytesToSectors_le.2 hmax) (by simpa using hfail)
        · rw [hret, decide_eq_true (bytesToSectors_le.2 hmax), Bool.and_true] at hfail
          exact (ho.short (ho.lt_of_false hfail)).2.allocFailures
        · obtain ⟨hd, hu⟩ := hsparing.untaken hfree
          exact ⟨hd, hu.freeMap, hu.content⟩
    · next hdone =>
        have hdone : r.1.1 = true := by simpa using hdone
        obtain ⟨rfl, hmax⟩ : ok = true ∧ bytesToSectors n ≤ MAX_SECTORS := by
          rw [hdone] at hret
          simpa using hret.symm
        have hfree := ho.le_of_true rfl
        obtain ⟨-, hfill⟩ := ho.enough hfree
        have hmax' := bytesToSectors_le.1 hmax
        have hlen : inodeLength (setLength r.1.2 n) = n :=
          inodeLength_setLength hn (by simp only [MAX_LENGTH] at hmax'; omega)
        have hfile : FileOk r.2.content r.2.cache.size (setLength r.1.2 n) := by
          refine ⟨by rw [hlen]; exact hn, by rw [hlen]; exact hmax', ?_⟩
          rw [numSectors, hlen]
          have hmap := ho.grow.mapped (h.inodeRoots hk) hfill.ne
          exact hmap.congr fun a _ => congrFun (slotVal_setLength ..) a
        have hsec : (((r.2.setData p r.1.2).setData p (setLength r.1.2 n)).inode
            p).sector = k := by
          rw [FileSys.setData_setData hlive, FileSys.inode_setData hlive]
          change (r.2.inode p).sector = k
          rw [FileSys.inode_congr ho.grow.mem]
          exact hp.sector
        rw [hsec]
        have hw' := hw.withLength hk hk₀ hp.live hp.sector hfile
        have hval : ∀ a, slotVal (((r.2.setData p r.1.2).setData p
            (setLength r.1.2 n)).writeSector k (setLength r.1.2 n)).content
            (setLength r.1.2 n) a = slotVal r.2.content r.1.2 a :=
          hw.slotVal_withLength hk hk₀ n
        refine ⟨setLength r.1.2 n, hw', ?_, fun _ => ⟨⟨hn, hmax', hfree⟩, ?_⟩,
          fun hf => absurd hf (by simp)⟩
        · rw [FileSys.inode_congr (FileSys.writeSector_mem ..),
            FileSys.setData_setData hlive, FileSys.inode_setData hlive]
        · have hlt : k < r.2.cache.size := by rw [ho.grow.size]; exact h.lt_size hk
          have hother : ∀ j, j ≠ k → (((r.2.setData p r.1.2).setData p
              (setLength r.1.2 n)).writeSector k (setLength r.1.2 n)).content j =
                r.2.content j := fun j hjk => writeSector_content_of_ne hjk
          refine ⟨hw', hlen, (congrFun (FileSys.writeSector_content hlt _) k).trans
            (Function.update_self ..), fun a ha => (hval a).trans (ho.beyond a ha),
            fun a hidx h₀ hne => ?_, fun a hidx hne => ?_, hfill.free,
            hfill.allocFailures, (hother 0 hk₀.symm).trans hfill.zero, fun j hj => ?_⟩
          · rw [hval] at hne ⊢
            rw [hother _ fun heq => (ho.grow.fresh a h₀ hne).1
              (by rw [heq]; exact h.owned k hk)]
            exact ho.grow.zeroed a hidx h₀ hne
          · rw [hother _ (h.slot_apart hk hk₀ hk)]
            exact hleaf a hidx hne
          · rcases hfill.exact j hj with hj | ⟨a, -, ha⟩
            · exact .inl hj
            · exact .inr ⟨a, (hval a).trans ha⟩

/-! ## What an extension leaves behind -/

/-- The bytes of an extended file: the old ones, and zeros in new sectors. -/
theorem Extended.fileByte {n : Int} (he : Extended D K dat s p k n d' s') {x : Nat}
    (hx : slotVal s'.content d' (leafSlot (x / BLOCK_SECTOR_SIZE)) ≠ 0) :
    fileByte s'.content d' x =
      if slotVal s.content (dat k) (leafSlot (x / BLOCK_SECTOR_SIZE)) = 0 then 0
      else SimpleShell.Fs.fileByte s.content (dat k) x := by
  unfold SimpleShell.Fs.fileByte leafAt
  split
  · next h₀ =>
      rw [he.zeroed _ (not_isIndex_leafSlot _) h₀ hx, ByteBlock.byte_zeros]
  · next hne =>
      rw [he.wrote.keep _ hne, he.data _ (not_isIndex_leafSlot _) hne]

theorem Extended.exact {n : Int} (he : Extended D K dat s p k n d' s')
    (h : Vol D K dat s) (hx : Exact K dat s) (hk : k ∈ K) (hk₀ : k ≠ 0)
    (hle : inodeLength (dat k) ≤ n) : Exact K (Function.update dat k d') s' := by
  refine ⟨fun j hj => ?_, fun j hj a ha => ?_, fun j hj => ?_⟩
  · rcases eq_or_ne j k with rfl | hjk
    · rw [Function.update_self]
      exact he.disk
    · rw [Function.update_of_ne hjk]
      rcases eq_or_ne j 0 with rfl | hj₀
      · exact he.zero.trans (hx.sync 0 hj)
      · exact (he.wrote.content_inode h hk hj hjk hj₀).trans (hx.sync j hj)
  · rcases eq_or_ne j k with rfl | hjk
    · rw [Function.update_self] at ha ⊢
      rw [numSectors, he.length] at ha
      rw [he.beyond a ha]
      exact hx.null j hj a fun hmem => ha
        (inodeSlots_mono (bytesToSectors_mono hle) hmem)
    · rw [Function.update_of_ne hjk] at ha ⊢
      rw [he.wrote.slotVal_other h hk hk₀ hj hjk]
      exact hx.null j hj a ha
  · rcases he.used j hj with hj | ⟨a, ha⟩
    · rcases hx.used j hj with hjK | ⟨x, hxj⟩
      · exact .inl hjK
      · rcases eq_or_ne j 0 with rfl | hj₀
        · exact .inl h.zero
        · right
          refine ⟨x, ?_⟩
          unfold own at hxj ⊢
          rcases eq_or_ne (x.1 : Nat) k with hxk | hxk
          · rw [hxk, Function.update_self]
            rw [hxk] at hxj
            rw [he.wrote.keep _ (by rw [hxj]; exact hj₀)]
            exact hxj
          · rw [Function.update_of_ne hxk, he.wrote.slotVal_other h hk hk₀ x.1.2 hxk]
            exact hxj
    · right
      refine ⟨(⟨k, hk⟩, a), ?_⟩
      unfold own
      rw [Function.update_self]
      exact ha

theorem Exact.dataWrite {c : BufferCache} (hx : Exact K dat s) (h : Vol D K dat s)
    (hk : k ∈ K) (hw : DataWrite s.content c.content (dat k)) :
    Exact K dat { s with cache := c } := by
  have hval : ∀ j ∈ K, ∀ a, slotVal c.content (dat j) a = slotVal s.content (dat j) a :=
    fun j hj a => h.slotVal_dataWrite hk hj hw a
  refine ⟨fun j hj => ?_, fun j hj a ha => ?_, fun j hj => ?_⟩
  · rw [← hx.sync j hj]
    refine hw j fun i hi heq => ?_
    rcases eq_or_ne j 0 with rfl | hj₀
    · exact (h.file k hk).mapped.ne _ (leafSlot_mem hi
        (Nat.lt_of_lt_of_le hi (h.file k hk).sectors_le)) heq.symm
    · exact h.slot_apart hj hj₀ hk heq.symm
  · exact (hval j hj a).trans (hx.null j hj a ha)
  · rcases hx.used j hj with hjK | ⟨x, hxj⟩
    · exact .inl hjK
    · exact .inr ⟨x, (hval x.1 x.1.2 x.2).trans hxj⟩

end Extend

/-! ## Writing -/

section WriteAt

variable {D K : Set Nat} {dat : Nat → Sector} {s : FileSys} {p k : Nat}
  {buffer : List UInt8}

/-- When the last byte is out of the file, an extension comes first. -/
theorem inodeWriteAt_of_beyond {alloc : Alloc} {offset : Int}
    (hdeny : (s.inode p).denyWriteCnt = 0)
    (hout : ¬ (0 ≤ int32 (offset + buffer.length - 1) ∧
      int32 (offset + buffer.length - 1) < inodeLength (s.inode p).data)) :
    inodeWriteAt alloc s p buffer offset =
      let e := inodeExtend alloc s p (int32 (offset + buffer.length))
      if e.1 = false then (0, e.2)
      else
        let w := inodeWriteLoop (e.2.inode p).data buffer.length e.2.cache buffer
          offset
        (w.1, { e.2 with cache := w.2 }) := by
  unfold inodeWriteAt byteToSector
  simp only [hdeny, ne_eq, not_true_eq_false, hout, if_false, if_true]

/-- Whatever a write does, it does to its own file. -/
theorem inodeWriteAt_wrote {b : List UInt8} (h : Vol D K dat s) (hp : IsOpen dat s p k) (hk : k ∈ K)
    (hk₀ : k ≠ 0) (offset : Int) :
    ∃ d', Wrote D K dat s p k d' (inodeWriteAt allocSector s p b offset).2 := by
  have hfile := h.file k hk
  by_cases hin : 0 ≤ int32 (offset + b.length - 1) ∧
      int32 (offset + b.length - 1) < inodeLength (dat k)
  · obtain ⟨i, hi⟩ := Int.eq_ofNat_of_zero_le hin.1
    have hfound := byteToSector_ne_noSector (i := i) hfile (hi ▸ hin.2)
    rw [← hp.data, ← hi] at hfound
    rw [inodeWriteAt_of_found hp.writable hfound, hp.data]
    refine ⟨dat k, (Wrote.refl h hp).dataWrite hk hk₀ ?_ ?_⟩
    · rw [inodeWriteLoop_size, byteToSector_size]
    · have := inodeWriteLoop_dataWrite (n := b.length) (v := b)
        (o := offset) (c := (byteToSector s.cache (dat k)
          (int32 (offset + b.length - 1))).2) (d := dat k)
        (by rw [byteToSector_content, byteToSector_size]; exact hfile)
      rw [byteToSector_content] at this
      exact this
  · rw [← hp.data] at hin
    rw [inodeWriteAt_of_beyond hp.writable hin]
    obtain ⟨d', hw, hdata, -, -⟩ := inodeExtend_spec (n := int32 (offset + b.length))
      h hp hk hk₀
    generalize inodeExtend allocSector s p (int32 (offset + b.length)) = e
      at hw hdata ⊢
    dsimp only
    split
    · exact ⟨d', hw⟩
    · rw [hdata]
      refine ⟨d', hw.dataWrite hk hk₀ (inodeWriteLoop_size ..) ?_⟩
      have hfile' := hw.vol.file k hk
      rw [Function.update_self] at hfile'
      exact inodeWriteLoop_dataWrite hfile'

/-- A write past the end of the file that the disk has room for. -/
theorem inodeWriteAt_grown {o : Nat} (h : Vol D K dat s) (hp : IsOpen dat s p k)
    (hk : k ∈ K) (hk₀ : k ≠ 0) (hpast : inodeLength (dat k) < o + buffer.length)
    (hcan : CanExtend s (dat k) (o + buffer.length)) :
    ∃ d' s₁ c, Extended D K dat s p k (o + buffer.length) d' s₁ ∧
      inodeWriteAt allocSector s p buffer o =
        ((buffer.length : Int), { s₁ with cache := c }) ∧
      c.size = s₁.cache.size ∧ DataWrite s₁.content c.content d' ∧
      ∀ x, x / BLOCK_SECTOR_SIZE < numSectors d' → fileByte c.content d' x =
        if o ≤ x ∧ x < o + buffer.length then buffer.getD (x - o) 0
        else fileByte s₁.content d' x := by
  have hnonneg := (h.file k hk).nonneg
  have hmax := hcan.2.1
  simp only [MAX_LENGTH] at hmax
  have hlast : int32 ((o : Int) + buffer.length - 1) = o + buffer.length - 1 :=
    int32_eq (by omega) (by omega)
  have hend : int32 ((o : Int) + buffer.length) = o + buffer.length :=
    int32_eq (by omega) (by omega)
  rw [inodeWriteAt_of_beyond hp.writable (by rw [hlast, hp.data]; omega), hend]
  obtain ⟨d', hw, hdata, htrue, hfalse⟩ := inodeExtend_spec
    (n := (o : Int) + buffer.length) h hp hk hk₀
  generalize inodeExtend allocSector s p ((o : Int) + buffer.length) = e
    at hw hdata htrue hfalse ⊢
  have hdone : e.1 = true := by
    cases he : e.1 with
    | true => rfl
    | false => exact absurd hcan (hfalse he).1
  obtain ⟨-, hext⟩ := htrue hdone
  dsimp only
  rw [if_neg (by simp [hdone]), hdata]
  have hfile := hw.vol.file k hk
  rw [Function.update_self] at hfile
  obtain ⟨hret, hbytes⟩ := inodeWriteLoop_spec (n := buffer.length) (v := buffer)
    (o := o) hfile (Nat.le_refl _) (by rw [hext.length])
  exact ⟨d', e.2, _, hext, Prod.ext hret rfl, inodeWriteLoop_size ..,
    inodeWriteLoop_dataWrite hfile, hbytes⟩

/-- A write past the end of the file that the disk has no room for. -/
theorem inodeWriteAt_refused {offset : Int} (h : Vol D K dat s)
    (hp : IsOpen dat s p k) (hk : k ∈ K) (hk₀ : k ≠ 0)
    (hout : ¬ (0 ≤ int32 (offset + buffer.length - 1) ∧
      int32 (offset + buffer.length - 1) < inodeLength (dat k)))
    (hcan : ¬ CanExtend s (dat k) (int32 (offset + buffer.length))) :
    ∃ d' s', inodeWriteAt allocSector s p buffer offset = (0, s') ∧
      Wrote D K dat s p k d' s' ∧ SameHeader (dat k) d' ∧
      (∀ a, ¬ IsIndex a → slotVal s.content (dat k) a ≠ 0 →
        s'.content (slotVal s.content (dat k) a) =
          s.content (slotVal s.content (dat k) a)) ∧
      (0 ≤ int32 (offset + buffer.length) →
        int32 (offset + buffer.length) ≤ MAX_LENGTH →
          s.allocFailures < s'.allocFailures) ∧
      (0 ≤ int32 (offset + buffer.length) → s'.freeSectors = s.freeSectors -
        (missing (slotVal s.content (dat k))
          (inodeSlots (bytesToSectors (int32 (offset + buffer.length))))).length) ∧
      Sparing s (dat k) (int32 (offset + buffer.length)) d' s' := by
  rw [← hp.data] at hout
  rw [inodeWriteAt_of_beyond hp.writable hout]
  obtain ⟨d', hw, -, htrue, hfalse⟩ := inodeExtend_spec
    (n := int32 (offset + buffer.length)) h hp hk hk₀
  generalize inodeExtend allocSector s p (int32 (offset + buffer.length)) = e
    at hw htrue hfalse ⊢
  cases he : e.1 with
  | true => exact absurd (htrue he).1 hcan
  | false =>
      obtain ⟨-, hhead, hleaf, hfail, hfree⟩ := hfalse he
      exact ⟨d', e.2, if_pos he, hw, hhead, hleaf, hfail, hfree⟩

end WriteAt

end SimpleShell.Fs
