import SimpleShell.Fs.Mount
import SimpleShell.Fs.Release
import SimpleShell.Lib.Growable

/-!
# The contents of files

`fileContent` is a file as the list of its bytes, which is how everything above
the inodes sees it. Reading returns a part of the list and writing overwrites
one; a step of the disk that stays out of a file's sectors leaves the list as
it is.
-/

namespace SimpleShell.Fs

open SimpleShell.Lib

/-- All bytes of the file. -/
def fileContent (f : Nat → Sector) (d : Sector) : List UInt8 :=
  fileBytes f d 0 (inodeLength d).toNat

@[simp] theorem length_fileContent (f : Nat → Sector) (d : Sector) :
    (fileContent f d).length = (inodeLength d).toNat := length_fileBytes ..

theorem getD_fileContent {f : Nat → Sector} {d : Sector} {x : Nat}
    (hx : (x : Int) < inodeLength d) : (fileContent f d).getD x 0 = fileByte f d x := by
  have hlt : x < (inodeLength d).toNat := by omega
  rw [List.getD_eq_getElem _ _ (by simpa using hlt)]
  simp [fileContent, fileBytes]

theorem fileContent_congr {f f' : Nat → Sector} {d d' : Sector}
    (hlen : inodeLength d' = inodeLength d)
    (h : ∀ x : Nat, (x : Int) < inodeLength d → fileByte f' d' x = fileByte f d x) :
    fileContent f' d' = fileContent f d := by
  refine ext_getD (z := 0) (by simp [hlen]) fun x hx => ?_
  rw [length_fileContent, hlen] at hx
  rw [getD_fileContent (by rw [hlen]; omega), getD_fileContent (by omega)]
  exact h x (by omega)

/-- A read returns what there is of the range it asks for. -/
theorem inodeReadAt_content_eq {stray : Int → UInt8} {c : BufferCache} {d : Sector}
    (hok : FileOk c.content c.size d) (size : Int) (o : Nat) :
    (inodeReadAt stray c d size o).1 =
      ((fileContent c.content d).drop o).take size.toNat := by
  have hnonneg := hok.nonneg
  rw [inodeReadAt_fst hok]
  refine ext_getD (z := 0) ?_ fun x hx => ?_
  · simp only [length_fileBytes, List.length_take, List.length_drop, length_fileContent]
    omega
  · rw [length_fileBytes] at hx
    have hlt : ((o + x : Nat) : Int) < inodeLength d := by omega
    rw [List.getD_eq_getElem _ _ (by simpa using hx)]
    simp only [fileBytes, List.getElem_map, List.getElem_range]
    rw [List.getD_eq_getElem?_getD, List.getElem?_take_of_lt (by omega),
      List.getElem?_drop, ← List.getD_eq_getElem?_getD, getD_fileContent hlt]

/-! ## Copies -/

theorem Older.length {e d : Sector} (h : Older e d) : inodeLength d = inodeLength e :=
  h.header.length

/-- An older copy has the same bytes. -/
theorem Older.fileContent {e d : Sector} {f : Nat → Sector} {size : Nat}
    (h : Older e d) (hok : FileOk f size e) :
    fileContent f e = SimpleShell.Fs.fileContent f d := by
  refine fileContent_congr h.length.symm fun x hx => ?_
  have hlt : x / BLOCK_SECTOR_SIZE < numSectors e :=
    lt_sectors (by rw [← h.length]; exact hx)
  have hne := hok.mapped.ne _ (leafSlot_mem hlt (Nat.lt_of_lt_of_le hlt hok.sectors_le))
  unfold fileByte leafAt
  rw [h.slotVal_eq hne]

/-! ## Steps that stay away from a file -/

section Framed

variable {D K : Set Nat} {dat : Nat → Sector} {s s₁ s' : FileSys} {p k j : Nat}
  {a : Slot} {d d' : Sector}

/-- Of the sectors in use only the bitmap's and sector 0 may have changed. -/
def Framed (D : Set Nat) (s s' : FileSys) : Prop :=
  ∀ v, s.used v → v ∉ D → v ≠ 0 → s'.content v = s.content v

theorem Framed.slotVal (hf : Framed D s s') (h : Vol D K dat s) (hj : j ∈ K) (a : Slot) :
    slotVal s'.content (dat j) a = SimpleShell.Fs.slotVal s.content (dat j) a :=
  slotVal_of_index (fun _ hb hne =>
    hf _ (h.slot_used hj hne) (h.slot_not_mem hj (.inl hb) hne) hne) a

theorem Framed.fileContent (hf : Framed D s s') (h : Vol D K dat s) (hj : j ∈ K)
    (hj₀ : j ≠ 0) :
    fileContent s'.content (dat j) = SimpleShell.Fs.fileContent s.content (dat j) := by
  refine fileContent_congr rfl fun x hx => ?_
  have hlt := lt_sectors hx
  have hne := (h.file j hj).mapped.ne _
    (leafSlot_mem hlt (Nat.lt_of_lt_of_le hlt (h.file j hj).sectors_le))
  unfold fileByte leafAt
  rw [hf.slotVal h hj, hf _ (h.slot_used hj hne) (h.slot_not_mem hj (.inr hj₀) hne) hne]

theorem Framed.inode (hf : Framed D s s') (h : Vol D K dat s) (hj : j ∈ K)
    (hj₀ : j ≠ 0) : s'.content j = s.content j :=
  hf j (h.owned j hj) (h.offData j hj) hj₀

/-- Inodes and tables survive a step that leaves their sectors alone. -/
theorem Framed.mounted (hf : Framed D s s') (h : Mounted D K dat s)
    (hmap : FreeMapOk D s') (hmem : s'.mem = s.mem)
    (hsize : s'.cache.size = s.cache.size)
    (hused : ∀ v, v ∈ K ∨ (∃ x, own s.content dat K x = v) → s.used v → s'.used v) :
    Mounted D K dat s' := by
  refine h.step (h.vol.congr hmap (by rw [hmem]) (fun _ _ => by rw [hmem]) hsize hused
    fun j hj a => hf.slotVal h.vol hj a) (by rw [hmem]) (by rw [hmem]) (by rw [hmem])
    hsize (fun j hj hj₀ => hf.inode h.vol hj hj₀) fun j hj _ b hb hne => ?_
  rw [hf _ (h.vol.slot_used hj hne) (h.vol.slot_not_mem hj (.inl hb) hne) hne]
  exact .refl _

end Framed

/-! ## Writing -/

section Write

variable {D K : Set Nat} {dat : Nat → Sector} {s s' : FileSys} {p k : Nat}
  {buffer : List UInt8} {d' : Sector}

/-- Past the end of the file there are zeros, to the end of its last sector,
and then null pointers. -/
structure Tidy (f : Nat → Sector) (d : Sector) : Prop where
  bytes : ∀ x : Nat, inodeLength d ≤ x → x / BLOCK_SECTOR_SIZE < numSectors d →
    fileByte f d x = 0
  null : ∀ a, a ∉ inodeSlots (numSectors d) → slotVal f d a = 0

theorem inodeWriteAt_inside {o : Nat} (h : Vol D K dat s) (hp : IsOpen dat s p k)
    (hk : k ∈ K) (hk₀ : k ≠ 0) (hpos : 0 < buffer.length)
    (hin : (o + buffer.length : Int) ≤ inodeLength (dat k)) :
    ∃ c : BufferCache, inodeWriteAt allocSector s p buffer o =
        ((buffer.length : Int), { s with cache := c }) ∧
      Wrote D K dat s p k (dat k) { s with cache := c } ∧
      DataWrite s.content c.content (dat k) ∧
      fileContent c.content (dat k) =
        overwrite 0 (fileContent s.content (dat k)) o buffer ∧
      (Tidy s.content (dat k) → Tidy c.content (dat k)) := by
  have hnonneg := (h.file k hk).nonneg
  obtain ⟨c, heq, hsize, hdata, hbytes⟩ := inodeWriteAt_within (a := allocSector)
    (b := buffer) (o := o) hp.writable (by rw [hp.data]; exact h.file k hk) hpos
    (by rw [hp.data]; exact hin)
  rw [hp.data] at hdata hbytes
  refine ⟨c, heq, (Wrote.refl h hp).dataWrite hk hk₀ hsize hdata, hdata, ?_,
    fun htidy => ⟨fun x hx hlt => ?_, fun a ha => ?_⟩⟩
  · refine ext_getD (z := 0) ?_ fun x hx => ?_
    · simp only [length_fileContent, length_overwrite]
      omega
    · rw [length_fileContent] at hx
      rw [getD_overwrite, getD_fileContent (by omega), getD_fileContent (by omega),
        hbytes x (lt_sectors (by omega))]
  · rw [hbytes x hlt, if_neg (by omega)]
    exact htidy.bytes x hx hlt
  · rw [h.slotVal_dataWrite hk hk hdata]
    exact htidy.null a ha

/-- A write that is refused leaves the bytes alone. -/
theorem inodeWriteAt_failing {b : List UInt8} {o : Int} (h : Vol D K dat s) (hp : IsOpen dat s p k)
    (hk : k ∈ K) (hk₀ : k ≠ 0)
    (hout : ¬ (0 ≤ int32 (o + b.length - 1) ∧
      int32 (o + b.length - 1) < inodeLength (dat k)))
    (hcan : ¬ CanExtend s (dat k) (int32 (o + b.length))) :
    ∃ d' s', inodeWriteAt allocSector s p b o = (0, s') ∧
      Wrote D K dat s p k d' s' ∧ inodeLength d' = inodeLength (dat k) ∧
      fileContent s'.content d' = fileContent s.content (dat k) ∧
      (0 ≤ int32 (o + b.length) →
        int32 (o + b.length) ≤ MAX_LENGTH →
          s.allocFailures < s'.allocFailures) ∧
      (0 ≤ int32 (o + b.length) → s'.freeSectors = s.freeSectors -
        (missing (slotVal s.content (dat k))
          (inodeSlots (bytesToSectors (int32 (o + b.length))))).length) ∧
      Sparing s (dat k) (int32 (o + b.length)) d' s' := by
  obtain ⟨d', s', heq, hw, hhead, hleaf, hfail⟩ := inodeWriteAt_refused h hp hk hk₀ hout hcan
  refine ⟨d', s', heq, hw, hhead.length, fileContent_congr hhead.length fun x hx => ?_,
    hfail⟩
  have hlt := lt_sectors hx
  have hne := (h.file k hk).mapped.ne _
    (leafSlot_mem hlt (Nat.lt_of_lt_of_le hlt (h.file k hk).sectors_le))
  unfold fileByte leafAt
  rw [hw.keep _ hne, hleaf _ (not_isIndex_leafSlot _) hne]

theorem Tidy.gap (ht : Tidy s.content (dat k)) {x : Nat}
    (hmax : x / BLOCK_SECTOR_SIZE < MAX_SECTORS) (hx : inodeLength (dat k) ≤ x)
    (hne : slotVal s.content (dat k) (leafSlot (x / BLOCK_SECTOR_SIZE)) ≠ 0) :
    fileByte s.content (dat k) x = 0 := by
  refine ht.bytes x hx ?_
  have hmem : leafSlot (x / BLOCK_SECTOR_SIZE) ∈ inodeSlots (numSectors (dat k)) := by
    by_contra hno
    exact hne (ht.null _ hno)
  have := (mem_inodeSlots.1 hmem).2
  rwa [(leafSlot_valid hmax).2] at this

/-- A write that extends the file. Without a gap before the new bytes what lies
past the old end does not matter. -/
theorem inodeWriteAt_extending {o : Nat} (h : Vol D K dat s) (hp : IsOpen dat s p k)
    (hk : k ∈ K) (hk₀ : k ≠ 0) (hpast : inodeLength (dat k) < o + buffer.length)
    (hcan : CanExtend s (dat k) (o + buffer.length))
    (hgap : o ≤ inodeLength (dat k) ∨ Tidy s.content (dat k)) :
    ∃ d' s', inodeWriteAt allocSector s p buffer o = ((buffer.length : Int), s') ∧
      Wrote D K dat s p k d' s' ∧ inodeLength d' = o + buffer.length ∧
      fileContent s'.content d' =
        overwrite 0 (fileContent s.content (dat k)) o buffer ∧
      (Tidy s.content (dat k) → Tidy s'.content d') ∧
      (Exact K dat s → Exact K (Function.update dat k d') s') ∧
      s'.allocFailures = s.allocFailures ∧ s'.content k = d' ∧
      s'.freeSectors + (missing (slotVal s.content (dat k))
        (inodeSlots (bytesToSectors (o + buffer.length)))).length = s.freeSectors := by
  have hnonneg := (h.file k hk).nonneg
  obtain ⟨d', s₁, c, hext, heq, hsize, hdata, hbytes⟩ :=
    inodeWriteAt_grown h hp hk hk₀ hpast hcan
  have hself : Function.update dat k d' k = d' := Function.update_self ..
  have hvol₁ := hext.wrote.vol
  have hfile := hvol₁.file k hk
  rw [hself] at hfile
  have hdata' : DataWrite s₁.content c.content (Function.update dat k d' k) := by
    rw [hself]; exact hdata
  have hval : ∀ a, slotVal c.content d' a = slotVal s₁.content d' a := by
    intro a
    have := hvol₁.slotVal_dataWrite hk hk hdata' a
    rwa [hself] at this
  -- A byte the write does not cover: an old one, or zero in a new sector.
  have hbyte : ∀ x, x / BLOCK_SECTOR_SIZE < numSectors d' →
      ¬ (o ≤ x ∧ x < o + buffer.length) → fileByte c.content d' x =
        if slotVal s.content (dat k) (leafSlot (x / BLOCK_SECTOR_SIZE)) = 0 then 0
        else fileByte s.content (dat k) x := by
    intro x hx hout
    rw [hbytes x hx, if_neg hout]
    exact hext.fileByte (hfile.mapped.ne _
      (leafSlot_mem hx (Nat.lt_of_lt_of_le hx hfile.sectors_le)))
  refine ⟨d', _, heq, hext.wrote.dataWrite hk hk₀ hsize hdata, hext.length, ?_,
    fun htidy => ⟨fun x hx hlt => ?_, fun a ha => ?_⟩, fun hx => ?_,
    hext.allocFailures, ?_, hext.free⟩
  · refine ext_getD (z := 0) ?_ fun x hx => ?_
    · simp only [length_fileContent, length_overwrite, hext.length]
      omega
    · rw [length_fileContent, hext.length] at hx
      have hx' : (x : Int) < inodeLength d' := by rw [hext.length]; omega
      rw [getD_overwrite, getD_fileContent hx']
      by_cases hin : o ≤ x ∧ x < o + buffer.length
      · rw [if_pos hin]
        change fileByte c.content d' x = _
        rw [hbytes x (lt_sectors hx'), if_pos hin]
      · rw [if_neg hin]
        change fileByte c.content d' x = _
        rw [hbyte x (lt_sectors hx') hin]
        rcases Int.lt_or_le x (inodeLength (dat k)) with hold | hold
        · have hlt := lt_sectors hold
          have hne := (h.file k hk).mapped.ne _
            (leafSlot_mem hlt (Nat.lt_of_lt_of_le hlt (h.file k hk).sectors_le))
          rw [if_neg hne, getD_fileContent hold]
        · rw [List.getD_eq_default _ _ (by rw [length_fileContent]; omega)]
          split
          · rfl
          · next hne =>
              have htidy := hgap.resolve_left (by omega)
              exact htidy.gap (Nat.lt_of_lt_of_le (lt_sectors hx') hfile.sectors_le)
                hold hne
  · rw [hext.length] at hx
    change fileByte c.content d' x = 0
    rw [hbyte x hlt (by omega)]
    split
    · rfl
    · next hne =>
        exact htidy.gap (Nat.lt_of_lt_of_le hlt hfile.sectors_le) (by omega) hne
  · change slotVal c.content d' a = 0
    rw [numSectors, hext.length] at ha
    rw [hval, hext.beyond a ha]
    exact htidy.null a fun hmem => ha
      (inodeSlots_mono (bytesToSectors_mono (Int.le_of_lt hpast)) hmem)
  · exact (hext.exact h hx hk hk₀ (by omega)).dataWrite hvol₁ hk hdata'
  · refine Eq.trans (hdata k fun i _ hki => ?_) hext.disk
    have := hvol₁.slot_apart hk hk₀ hk (a := leafSlot i)
    rw [hself] at this
    exact this hki.symm

/-- What a write at `o` that succeeds does to its file. -/
structure Stored (K : Set Nat) (dat : Nat → Sector) (s : FileSys) (k o : Nat)
    (buffer : List UInt8) (d' : Sector) (s' : FileSys) : Prop where
  room : (o + buffer.length : Int) ≤ inodeLength (dat k) ∨
    CanExtend s (dat k) (o + buffer.length)
  content : fileContent s'.content d' =
    overwrite 0 (fileContent s.content (dat k)) o buffer
  tidy : Tidy s.content (dat k) → Tidy s'.content d'
  exact : Exact K dat s → Exact K (Function.update dat k d') s'
  allocFailures : s'.allocFailures = s.allocFailures
  inside : (o + buffer.length : Int) ≤ inodeLength (dat k) → s'.freeMap = s.freeMap

/-- And one that fails. -/
structure Unstored (dat : Nat → Sector) (s : FileSys) (k o : Nat)
    (buffer : List UInt8) (d' : Sector) (s' : FileSys) : Prop where
  past : inodeLength (dat k) < o + buffer.length
  full : ¬ CanExtend s (dat k) (o + buffer.length)
  content : fileContent s'.content d' = fileContent s.content (dat k)
  length : inodeLength d' = inodeLength (dat k)
  failed : (o + buffer.length : Int) ≤ MAX_LENGTH → s.allocFailures < s'.allocFailures
  free : s'.freeSectors = s.freeSectors - (missing (slotVal s.content (dat k))
    (inodeSlots (bytesToSectors (o + buffer.length)))).length
  sparing : Sparing s (dat k) (o + buffer.length) d' s'

/-- A write does all of it or nothing. -/
theorem inodeWriteAt_spec {o : Nat} (h : Vol D K dat s) (hp : IsOpen dat s p k)
    (hk : k ∈ K) (hk₀ : k ≠ 0) (hpos : 0 < b.length)
    (hend : o + b.length < 2 ^ 31)
    (hgap : o ≤ inodeLength (dat k) ∨ Tidy s.content (dat k)) :
    ∃ d' s', Wrote D K dat s p k d' s' ∧
      ((inodeWriteAt allocSector s p b o = ((b.length : Int), s') ∧
          Stored K dat s k o b d' s') ∨
        (inodeWriteAt allocSector s p b o = (0, s') ∧
          Unstored dat s k o b d' s')) := by
  rcases Int.lt_or_le (inodeLength (dat k)) (o + b.length) with hpast | hin
  · by_cases hcan : CanExtend s (dat k) (o + b.length)
    · obtain ⟨d', s', heq, hw, -, hcont, htidy, hexact, hfail, -⟩ :=
        inodeWriteAt_extending h hp hk hk₀ hpast hcan hgap
      exact ⟨d', s', hw, .inl ⟨heq, .inr hcan, hcont, htidy, hexact, hfail,
        fun hin => absurd hin (by omega)⟩⟩
    · have hlast : int32 ((o : Int) + b.length - 1) = o + b.length - 1 :=
        int32_eq (by omega) (by omega)
      have hend' : int32 ((o : Int) + b.length) = o + b.length :=
        int32_eq (by omega) (by omega)
      obtain ⟨d', s', heq, hw, hlen, hcont, hfail, hfree, hsparing⟩ :=
        inodeWriteAt_failing (b := b) (o := o) h hp hk hk₀
          (by rw [hlast]; omega) (by rw [hend']; exact hcan)
      rw [hend'] at hfail hfree hsparing
      exact ⟨d', s', hw, .inr ⟨heq, hpast, hcan, hcont, hlen, hfail (by omega),
        hfree (by omega), hsparing⟩⟩
  · obtain ⟨c, heq, hw, hdata, hcont, htidy⟩ := inodeWriteAt_inside h hp hk hk₀ hpos hin
    refine ⟨dat k, _, hw, .inl ⟨heq, .inl hin, hcont, htidy, fun hx => ?_, rfl,
      fun _ => rfl⟩⟩
    rw [Function.update_eq_self]
    exact hx.dataWrite h hk hdata

end Write

end SimpleShell.Fs
