import SimpleShell.Fs.Root

/-!
# Names in the root directory

`dir_add` and `dir_remove` on the root, which a volume's other inodes are the
files of. Adding writes one entry, which can fail for want of a sector only when
the directory is full; removing clears an entry and closes the inode for good.
-/

namespace SimpleShell.Fs

open SimpleShell.Lib

/-! ## Files that stay the same -/

structure SameFile (f f' : Nat → Sector) (d d' : Sector) : Prop where
  content : fileContent f' d' = fileContent f d
  isDir : inodeIsDir d' = inodeIsDir d
  tidy : Tidy f d → Tidy f' d'

section SameFile

variable {D K : Set Nat} {dat dat' : Nat → Sector} {s s₁ s' : FileSys} {p k j : Nat}
  {f f₁ f' : Nat → Sector} {d d₁ d' : Sector}

theorem SameFile.refl (f : Nat → Sector) (d : Sector) : SameFile f f d d :=
  ⟨rfl, rfl, fun h => h⟩

theorem SameFile.trans (h₁ : SameFile f f₁ d d₁) (h₂ : SameFile f₁ f' d₁ d') :
    SameFile f f' d d' :=
  ⟨h₂.content.trans h₁.content, h₂.isDir.trans h₁.isDir, fun h => h₂.tidy (h₁.tidy h)⟩

/-- Where the mapped bytes and the pointers are the same, so is the file. -/
theorem SameFile.of_bytes
    (hbyte : ∀ x : Nat, x / BLOCK_SECTOR_SIZE < numSectors d →
      fileByte f' d x = fileByte f d x)
    (hval : ∀ a, slotVal f' d a = slotVal f d a) : SameFile f f' d d where
  content := fileContent_congr rfl fun x hx => hbyte x (lt_sectors hx)
  isDir := rfl
  tidy h := ⟨fun x hx hlt => (hbyte x hlt).trans (h.bytes x hx hlt),
    fun a ha => (hval a).trans (h.null a ha)⟩

theorem Framed.sameFile (hf : Framed D s s') (h : Vol D K dat s) (hj : j ∈ K)
    (hj₀ : j ≠ 0) : SameFile s.content s'.content (dat j) (dat j) := by
  refine .of_bytes (fun x hx => ?_) (hf.slotVal h hj)
  have hne := (h.file j hj).mapped.ne _
    (leafSlot_mem hx (Nat.lt_of_lt_of_le hx (h.file j hj).sectors_le))
  unfold fileByte leafAt
  rw [hf.slotVal h hj, hf _ (h.slot_used hj hne) (h.slot_not_mem hj (.inr hj₀) hne) hne]

theorem Wrote.sameFile (hw : Wrote D K dat s p k d' s') (h : Vol D K dat s)
    (hk : k ∈ K) (hk₀ : k ≠ 0) (hj : j ∈ K) (hjk : j ≠ k) (hj₀ : j ≠ 0) :
    SameFile s.content s'.content (dat j) (Function.update dat k d' j) := by
  rw [Function.update_of_ne hjk]
  exact .of_bytes (fun x hx => hw.fileByte_other h hk hk₀ hj hjk hj₀ hx)
    (hw.slotVal_other h hk hk₀ hj hjk)

theorem Reverts.sameFile (hr : Reverts s dat dat') (h : Mounted D K dat s) (hk : k ∈ K) :
    SameFile s.content s.content (dat k) (dat' k) := by
  refine ⟨hr.fileContent h hk, hr.isDir h hk, fun ht => ?_⟩
  rcases hr k with heq | ⟨hk₀, heq⟩
  · rw [heq]
    exact ht
  · rw [heq]
    obtain ⟨hok, hold⟩ := h.disk k hk hk₀
    have hnum : numSectors (s.content k) = numSectors (dat k) := by
      rw [numSectors, numSectors, hold.length]
    refine ⟨fun x hx hlt => ?_, fun a ha => ?_⟩
    · have hne := hok.mapped.ne _
        (leafSlot_mem hlt (Nat.lt_of_lt_of_le hlt hok.sectors_le))
      have := ht.bytes x (by rw [hold.length]; exact hx) (by rw [← hnum]; exact hlt)
      unfold fileByte leafAt at this ⊢
      rwa [hold.slotVal_eq hne]
    · by_contra hne
      rw [hold.slotVal_eq hne] at hne
      exact hne (ht.null a (by rw [← hnum]; exact ha))

end SameFile

/-! ## Through a cache that moved -/

section ReadOnly

variable {D K : Set Nat} {dat : Nat → Sector} {s s₁ s' : FileSys} {d p k o : Nat} {c : Int}
  {e : Sector} {buffer : List UInt8}

theorem ReadOnly.used_iff (h : ReadOnly s s₁) (j : Nat) : s₁.used j ↔ s.used j := by
  unfold FileSys.used
  rw [h.disk.freeMap]

theorem ReadOnly.canExtend_iff (h : ReadOnly s s₁) (x : Sector) (n : Int) :
    CanExtend s₁ x n ↔ CanExtend s x n := by
  unfold CanExtend FileSys.freeSectors
  rw [h.disk.freeMap, h.disk.content]

theorem ReadOnly.wrote (h : ReadOnly s s₁) (hw : Wrote D K dat s₁ p k e s') :
    Wrote D K dat s p k e s' := by
  have hcont := h.disk.content
  refine ⟨hw.vol, hw.mem.trans (FileSys.setData_mem h.mem e), hw.size.trans h.disk.size,
    fun j hj => hw.mono j ((h.used_iff j).2 hj), ?_, ?_, ?_, ?_, hw.isDir, ?_⟩
  · rw [← hcont]
    exact hw.keep
  · intro a h₀ hne hu
    rw [← hcont] at h₀
    exact hw.fresh a h₀ hne ((h.used_iff _).2 hu)
  · intro j hj
    rw [← hcont]
    exact hw.frame j ((h.used_iff j).2 hj)
  · rw [← hcont, ← h.disk.size]
    exact hw.disk
  · rw [← h.disk.allocFailures]
    exact hw.allocFailures

theorem Stored.sameDisk (hd : SameDisk s s₁) (h : Stored K dat s₁ k o buffer e s') :
    Stored K dat s k o buffer e s' := by
  refine ⟨?_, ?_, ?_, fun hx => h.exact (hx.sameDisk hd),
    h.allocFailures.trans hd.allocFailures, fun hin => (h.inside hin).trans hd.freeMap⟩
  · have := h.room
    unfold CanExtend FileSys.freeSectors at this ⊢
    rwa [hd.freeMap, hd.content] at this
  · rw [← hd.content]
    exact h.content
  · rw [← hd.content]
    exact h.tidy

theorem ReadOnly.stored (h : ReadOnly s s₁) (hw : Stored K dat s₁ k o buffer e s') :
    Stored K dat s k o buffer e s' := hw.sameDisk h.disk


theorem ReadOnly.unstored (h : ReadOnly s s₁) (hw : Unstored dat s₁ k o buffer e s') :
    Unstored dat s k o buffer e s' := by
  refine ⟨hw.past, ?_, ?_, hw.length, ?_, ?_, hw.sparing.sameDisk h.disk⟩
  · rw [← h.canExtend_iff]
    exact hw.full
  · rw [← h.disk.content]
    exact hw.content
  · rw [← h.disk.allocFailures]
    exact hw.failed
  · have hfree := hw.free
    unfold FileSys.freeSectors at hfree ⊢
    rwa [h.disk.content, h.disk.freeMap] at hfree

theorem ReadOnly.held (h : ReadOnly s s₁) (hd : Held dat s d p c) : Held dat s₁ d p c := by
  have hdir := FileSys.dir_congr (congrArg Tables.dirs h.mem) d
  exact ⟨by rw [h.mem]; exact hd.cwd, by rw [h.mem, hdir]; exact hd.live,
    by rw [hdir]; exact hd.inode, by rw [hdir]; exact hd.openCnt, h.opened hd.opened⟩

end ReadOnly

/-! ## Adding a name -/

/-- The bytes of the root directory. -/
def rootBytes (f dat : Nat → Sector) : List UInt8 := fileContent f (dat ROOT_DIR_SECTOR)

/-- The first entry is in use and names the parent, in sector `r`. -/
def HasParent (r : Nat) (bytes : List UInt8) : Prop :=
  ∃ e, (dirEntries bytes)[0]? = some e ∧ e.inUse = true ∧ e.inodeSector = r

theorem HasParent.overwrite {bytes : List UInt8} {e : DirEntry} {i r : Nat}
    (h : HasParent r bytes) (hi : i + 1 ≤ bytes.length / ENTRY_SIZE) :
    HasParent r (overwrite 0 bytes (ENTRY_SIZE * (i + 1)) e.toList) := by
  obtain ⟨x, hx, huse⟩ := h
  refine ⟨x, ?_, huse⟩
  rcases Nat.lt_or_eq_of_le hi with hlt | heq
  · rw [dirEntries_set hlt, List.getElem?_set_ne (Nat.succ_ne_zero i)]
    exact hx
  · rw [dirEntries_append heq, List.getElem?_append_left]
    · exact hx
    · rw [length_dirEntries]
      exact (getElem?_dirEntries.1 hx).1

section Root

variable {D K : Set Nat} {dat : Nat → Sector} {s s' : FileSys} {d p k : Nat} {c : Int}
  {name : CString} {bytes : List UInt8}

theorem writeEntry_eq {e : DirEntry} {o : Int} {w : Int × FileSys}
    (h : inodeWriteAt allocSector s p e.toList o = w) :
    writeEntry s p e o = (decide (w.1 = ENTRY_SIZE), w.2) := by
  unfold writeEntry
  rw [h]

/-- One entry goes into a directory, if there is room for it. -/
theorem writeEntry_spec {e : DirEntry} {o : Nat} (h : Vol D K dat s)
    (hp : IsOpen dat s p k) (hk : k ∈ K) (hk₀ : k ≠ 0) (ho : o ≤ inodeLength (dat k)) :
    ∃ d' s', Wrote D K dat s p k d' s' ∧
      ((writeEntry s p e o = (true, s') ∧ Stored K dat s k o e.toList d' s') ∨
        (writeEntry s p e o = (false, s') ∧ Unstored dat s k o e.toList d' s')) := by
  have hmax := (h.file k hk).max
  simp only [MAX_LENGTH] at hmax
  obtain ⟨d', s', hw, hcase⟩ := inodeWriteAt_spec (b := e.toList) (o := o) h hp hk hk₀
    (by rw [ByteBlock.length_toList]; decide)
    (by rw [ByteBlock.length_toList]; omega) (.inl ho)
  refine ⟨d', s', hw, ?_⟩
  rcases hcase with ⟨heq, hs⟩ | ⟨heq, hs⟩
  · refine .inl ⟨?_, hs⟩
    rw [writeEntry_eq heq]
    simp
  · refine .inr ⟨?_, hs⟩
    rw [writeEntry_eq heq]
    simp

theorem addEntry_eq (s : FileSys) (d : Nat) (name : CString) (k : Nat) :
    addEntry s d name k false =
      let f := freeSlot s (s.dir d).inode
      writeEntry f.2 (f.2.dir d).inode (newEntry name k) f.1 := rfl

/-- What `dir_add` does with a new name: it goes into slot `i`, or the directory
cannot be extended. -/
theorem addEntry_spec {n : CString} (h : Mounted D K dat s) (hroot : ROOT_DIR_SECTOR ∈ K)
    (hd : Held dat s d p c) (hbytes : rootBytes s.content dat = bytes)
    (hparent : HasParent ROOT_DIR_SECTOR bytes) :
    ∃ i d' s', i + 1 ≤ bytes.length / ENTRY_SIZE ∧
      (i + 1 = bytes.length / ENTRY_SIZE ∨
        ∃ x, (dirEntries bytes)[i + 1]? = some x ∧ x.inUse = false) ∧
      (i + 1 = bytes.length / ENTRY_SIZE ↔ FullDir bytes) ∧
      Wrote D K dat s p ROOT_DIR_SECTOR d' s' ∧
      ((addEntry s d n k false = (true, s') ∧
          Stored K dat s ROOT_DIR_SECTOR (ENTRY_SIZE * (i + 1)) (newEntry n k).toList
            d' s') ∨
        (addEntry s d n k false = (false, s') ∧
          Unstored dat s ROOT_DIR_SECTOR (ENTRY_SIZE * (i + 1))
            (newEntry n k).toList d' s')) := by
  have hdata := hd.opened.isOpen.data
  have hok : FileOk s.content s.cache.size (s.inode p).data := by
    rw [hdata]
    exact h.vol.file _ hroot
  have hb : fileContent s.content (s.inode p).data = bytes := by
    rw [hdata]
    exact hbytes
  rw [addEntry_eq, hd.inode]
  have hro := readOnly_freeSlot s p
  obtain ⟨j, hj, hfree, hfull⟩ := freeSlot_fst hok hb
  generalize freeSlot s p = f at hro hj
  have hd₁ := hro.held hd
  -- Slot 0 is the parent's.
  obtain ⟨x, hx, huse, -⟩ := hparent
  have hpos := (getElem?_dirEntries.1 hx).1
  obtain ⟨i, rfl⟩ : ∃ i, j = i + 1 := by
    rcases Nat.eq_zero_or_pos j with rfl | hj₀
    · rcases hfree with heq | ⟨y, hy, hno⟩
      · omega
      · rw [hx] at hy
        rw [← Option.some.inj hy, huse] at hno
        exact absurd hno (by decide)
    · exact ⟨j - 1, by omega⟩
  have hle : i + 1 ≤ bytes.length / ENTRY_SIZE := by
    rcases hfree with heq | ⟨y, hy, -⟩
    · omega
    · exact Nat.le_of_lt (getElem?_dirEntries.1 hy).1
  have ho : ((ENTRY_SIZE * (i + 1) : Nat) : Int) ≤ inodeLength (dat ROOT_DIR_SECTOR) := by
    have hlen : bytes.length = (inodeLength (dat ROOT_DIR_SECTOR)).toNat := by
      rw [← hbytes, rootBytes, length_fileContent]
    have hnonneg := (h.vol.file _ hroot).nonneg
    simp only [ENTRY_SIZE] at hle ⊢
    omega
  obtain ⟨d', s', hw, hcase⟩ := writeEntry_spec (e := newEntry n k)
    (hro.mounted h).vol hd₁.opened.isOpen hroot (by decide) ho
  dsimp only
  rw [hd₁.inode, hj]
  refine ⟨i, d', s', hle, hfree, hfull, hro.wrote hw, ?_⟩
  rcases hcase with ⟨heq, hs⟩ | ⟨heq, hs⟩
  · exact .inl ⟨heq, hro.stored hs⟩
  · exact .inr ⟨heq, hro.unstored hs⟩

/-- `dir_add`'s check of a name. -/
def ValidName (name : CString) : Prop := name ≠ [] ∧ name.length ≤ NAME_MAX

/-- The end of a directory after one more entry. -/
def nextEnd (bytes : List UInt8) : Nat := ENTRY_SIZE * (bytes.length / ENTRY_SIZE + 1)

structure Added (K : Set Nat) (dat : Nat → Sector) (s : FileSys) (name : CString)
    (k : Nat) (bytes : List UInt8) (d' : Sector) (s' : FileSys) : Prop where
  room : FullDir bytes → CanExtend s (dat ROOT_DIR_SECTOR) (nextEnd bytes)
  valid : ValidName name
  absent : ∀ j, (name, j) ∉ listing bytes
  listing : (listing (fileContent s'.content d')).Perm
    ((name, k) :: SimpleShell.Fs.listing bytes)
  parent : HasParent ROOT_DIR_SECTOR (fileContent s'.content d')
  tidy : Tidy s.content (dat ROOT_DIR_SECTOR) → Tidy s'.content d'
  exact : Exact K dat s → Exact K (Function.update dat ROOT_DIR_SECTOR d') s'
  allocFailures : s'.allocFailures = s.allocFailures

structure NotAdded (dat : Nat → Sector) (s : FileSys) (name : CString) (k : Nat)
    (bytes : List UInt8) (d' : Sector) (s' : FileSys) : Prop where
  content : fileContent s'.content d' = bytes
  cause : ((¬ ValidName name ∨ ∃ j, (name, j) ∈ listing bytes) ∧
      d' = dat ROOT_DIR_SECTOR ∧ ReadOnly s s') ∨
    (ValidName name ∧ (∀ j, (name, j) ∉ listing bytes) ∧ FullDir bytes ∧
      ∃ i, i + 1 = bytes.length / ENTRY_SIZE ∧
        Unstored dat s ROOT_DIR_SECTOR (ENTRY_SIZE * (i + 1)) (newEntry name k).toList
          d' s')

theorem Added.readOnly {s₁ : FileSys} {d' : Sector} (hro : ReadOnly s s₁)
    (h : Added K dat s₁ name k bytes d' s') : Added K dat s name k bytes d' s' :=
  ⟨fun hfull => (hro.canExtend_iff _ _).1 (h.room hfull), h.valid, h.absent, h.listing,
    h.parent, by rw [← hro.disk.content]; exact h.tidy,
    fun hx => h.exact (hx.sameDisk hro.disk),
    h.allocFailures.trans hro.disk.allocFailures⟩

/-- `dir_add` of a regular file on the root directory. -/
theorem dirAdd_spec (h : Mounted D K dat s) (hroot : ROOT_DIR_SECTOR ∈ K)
    (hd : Held dat s d p c) (hbytes : rootBytes s.content dat = bytes)
    (hparent : HasParent ROOT_DIR_SECTOR bytes) (h₀ : (0 : UInt8) ∉ name) (hk : k < 2 ^ 32) :
    ∃ d' s', Wrote D K dat s p ROOT_DIR_SECTOR d' s' ∧
      ((dirAdd s d name k false = (true, s') ∧ Added K dat s name k bytes d' s') ∨
        (dirAdd s d name k false = (false, s') ∧ NotAdded dat s name k bytes d' s')) := by
  have hdata := hd.opened.isOpen.data
  have hok : FileOk s.content s.cache.size (s.inode p).data := by
    rw [hdata]
    exact h.vol.file _ hroot
  have hb : fileContent s.content (s.inode p).data = bytes := by
    rw [hdata]
    exact hbytes
  have hsame := Wrote.refl h.vol hd.opened.isOpen
  unfold dirAdd
  by_cases hname : name = [] ∨ NAME_MAX < name.length
  · refine ⟨_, s, hsame, .inr ⟨if_pos hname, hbytes, .inl ⟨.inl ?_, rfl, .refl s⟩⟩⟩
    rintro ⟨hne, hle⟩
    rcases hname with hname | hname
    · exact hne hname
    · omega
  · have hvalid : ValidName name := by
      unfold ValidName
      exact ⟨fun hnil => hname (.inl hnil), by omega⟩
    rw [if_neg hname]
    have hro := readOnly_lookup s d name
    have hnone := lookup_none (d := d) (n := name) hd.inode hok hb
    have hsome := fun e o => lookup_some (d := d) (n := name) (e := e) (o := o)
      hd.inode hok hb
    generalize lookup s d name = r at hro hnone hsome
    have hm₁ := hro.mounted h
    have hd₁ := hro.held hd
    have hbytes₁ : rootBytes r.2.content dat = bytes := by
      rw [hro.disk.content]
      exact hbytes
    cases hr : r.1 with
    | some e =>
        obtain ⟨-, -, -, -, -, hmem⟩ := hsome e.1 e.2 hr
        refine ⟨_, r.2, hro.wrote (Wrote.refl hm₁.vol hd₁.opened.isOpen), .inr ⟨?_, hbytes₁,
          .inl ⟨.inr ⟨_, hmem⟩, rfl, hro⟩⟩⟩
        simp [hr]
    | none =>
        have habs := hnone.1 hr
        obtain ⟨i, d', s', hle, hfree, hfull, hw, hcase⟩ :=
          addEntry_spec (k := k) (n := name) hm₁ hroot hd₁ hbytes₁ hparent
        simp only [hr, Option.isSome_none, Bool.false_eq_true, if_false]
        rcases hcase with ⟨heq, hs⟩ | ⟨heq, hs⟩
        · refine ⟨d', s', hro.wrote hw, .inl ⟨heq, Added.readOnly hro ?_⟩⟩
          have hcont := hs.content
          rw [show fileContent r.2.content (dat ROOT_DIR_SECTOR) = bytes from hbytes₁]
            at hcont
          refine ⟨fun hall => ?_, hvalid, habs, ?_, ?_, hs.tidy, hs.exact, hs.allocFailures⟩
          · have hend := hs.room
            have heq' : ((ENTRY_SIZE * (i + 1) : Nat) + (newEntry name k).toList.length : Int) =
                nextEnd bytes := by
              rw [nextEnd, ← hfull.2 hall, Nat.mul_succ, ByteBlock.length_toList]
              exact (Int.natCast_add ..).symm
            rw [heq'] at hend
            refine hend.resolve_left fun hle => ?_
            have hlen : bytes.length = (inodeLength (dat ROOT_DIR_SECTOR)).toNat := by
              rw [← hbytes, rootBytes, length_fileContent]
            simp only [nextEnd, ENTRY_SIZE] at hle
            omega
          · rw [hcont]
            have := listing_add (e := newEntry name k) newEntry_inUse hfree
            rwa [newEntry_name hvalid.2 h₀, newEntry_inodeSector hk] at this
          · rw [hcont]
            exact hparent.overwrite hle
        · have hs := hro.unstored hs
          -- A free slot is inside the file, where a write does not fail.
          have hend : i + 1 = bytes.length / ENTRY_SIZE := by
            rcases hfree with heq | ⟨x, hx, -⟩
            · exact heq
            · have hlt := (getElem?_dirEntries.1 hx).1
              have hpast := hs.past
              have hlen : bytes.length = (inodeLength (dat ROOT_DIR_SECTOR)).toNat := by
                rw [← hbytes, rootBytes, length_fileContent]
              rw [ByteBlock.length_toList] at hpast
              simp only [ENTRY_SIZE] at hlt hpast ⊢
              omega
          exact ⟨d', s', hro.wrote hw, .inr ⟨heq, hs.content.trans hbytes,
            .inr ⟨hvalid, habs, hfull.1 hend, i, hend, hs⟩⟩⟩

/-! ## Removing a name -/

/-- What is left when the file `name`, in sector `k`, has been removed. -/
structure Unlinked (D K : Set Nat) (dat : Nat → Sector) (s : FileSys) (name : CString)
    (k : Nat) (dat' : Nat → Sector) (s' : FileSys) : Prop where
  mounted : Mounted D (K \ {k}) dat' s'
  listing : (listing (rootBytes s.content dat)).Perm
    ((name, k) :: SimpleShell.Fs.listing (rootBytes s'.content dat'))
  parent : HasParent ROOT_DIR_SECTOR (rootBytes s'.content dat')
  rootDir : inodeIsDir (dat' ROOT_DIR_SECTOR) = inodeIsDir (dat ROOT_DIR_SECTOR)
  other : ∀ j ∈ K, j ≠ k → j ≠ 0 → j ≠ ROOT_DIR_SECTOR →
    SameFile s.content s'.content (dat j) (dat' j)
  tidy : Tidy s.content (dat ROOT_DIR_SECTOR) →
    Tidy s'.content (dat' ROOT_DIR_SECTOR)
  exact : Exact K dat s → Exact (K \ {k}) dat' s'
  used : ∀ j, s'.used j ↔ s.used j ∧ j ≠ k ∧
    j ∉ slotSectors s.content (dat k) (inodeSlots (numSectors (dat k)))
  allocFailures : s'.allocFailures = s.allocFailures
  content : ∀ j, s.used j → j ∉ D → j ≠ 0 → j ≠ ROOT_DIR_SECTOR →
    (∀ a, slotVal s.content (dat ROOT_DIR_SECTOR) a ≠ j) → s'.content j = s.content j
  tables : SameTables s s'
  sameOpen : SameOpen k s s'
  gone : ∀ q ∈ s'.mem.openInodes, (s'.inode q).sector ≠ k

theorem removeEntry_eq {i : Nat × FileSys} {e : DirEntry} {o : Nat}
    (hi : inodeOpen s e.inodeSector = i) (hdir : inodeIsDir (i.2.inode i.1).data = false)
    {s₁ : FileSys}
    (hw : writeEntry i.2 (i.2.dir d).inode (e.setInUse false) o = (true, s₁)) :
    removeEntry d (some (e, o)) s = (true, inodeClose (inodeRemove s₁ i.1) i.1) := by
  unfold removeEntry
  dsimp only
  rw [hi, hdir]
  simp only [Bool.false_eq_true, if_false, Bool.true_eq_false]
  rw [hw]
  simp

/-- `dir_remove` of a regular file that is listed. -/
theorem dirRemove_spec (h : Mounted D K dat s) (hroot : ROOT_DIR_SECTOR ∈ K)
    (hp : Opened dat s p ROOT_DIR_SECTOR) (hinode : (s.dir d).inode = p)
    (hparent : HasParent ROOT_DIR_SECTOR (rootBytes s.content dat))
    (hlisted : ∀ j, (name, j) ∈ listing (rootBytes s.content dat) →
      j ∈ K ∧ j ≠ 0 ∧ j ≠ ROOT_DIR_SECTOR ∧ inodeIsDir (dat j) = false)
    {j : Nat} (hmem : (name, j) ∈ listing (rootBytes s.content dat)) :
    ∃ k dat' s', (name, k) ∈ listing (rootBytes s.content dat) ∧
      dirRemove s d name = (true, s') ∧ Unlinked D K dat s name k dat' s' := by
  have hdata := hp.isOpen.data
  have hok : FileOk s.content s.cache.size (s.inode p).data := by
    rw [hdata]
    exact h.vol.file _ hroot
  have hb : fileContent s.content (s.inode p).data = rootBytes s.content dat := by
    rw [hdata]
    rfl
  unfold dirRemove
  have hro := readOnly_lookup s d name
  have hnone := lookup_none (d := d) (n := name) hinode hok hb
  have hsome := fun e o => lookup_some (d := d) (n := name) (e := e) (o := o)
    hinode hok hb
  generalize lookup s d name = r at hro hnone hsome
  cases hr : r.1 with
  | none => exact absurd hmem (hnone.1 hr j)
  | some eo =>
      obtain ⟨e, o⟩ := eo
      obtain ⟨i, rfl, he, huse, hname, hmem'⟩ := hsome e o hr
      obtain ⟨hk, hk₀, hk₁, hdir⟩ := hlisted _ hmem'
      generalize hke : e.inodeSector = k at hk hk₀ hk₁ hdir hmem'
      have hm₁ := hro.mounted h
      obtain ⟨hm₂, hq, hdisk, htab, -, -⟩ := inodeOpen_spec hm₁ hk
      have hopen₂ := inodeOpen_sameOpen hm₁ hk
      generalize hi : inodeOpen r.2 k = t at hm₂ hq hdisk htab hopen₂
      have hdisk := hro.disk.trans hdisk
      have htab := hro.tables.trans htab
      have hopen₂ := (SameOpen.of_mem hro.mem k).trans hopen₂
      have hp₂ : Opened dat t.2 p ROOT_DIR_SECTOR := hopen₂.opened hm₂ hp hk₁.symm
      have hinode₂ : (t.2.dir d).inode = p := by
        rw [FileSys.dir_congr htab.dirs]
        exact hinode
      have hlt := (getElem?_dirEntries.1 he).1
      have hin : ((ENTRY_SIZE * (i + 1) : Nat) : Int) + ENTRY_SIZE ≤
          inodeLength (dat ROOT_DIR_SECTOR) := by
        have hnonneg := (h.vol.file _ hroot).nonneg
        rw [rootBytes, length_fileContent] at hlt
        simp only [ENTRY_SIZE] at hlt ⊢
        omega
      obtain ⟨d', s₃, hw, hcase⟩ := writeEntry_spec (e := e.setInUse false)
        (o := ENTRY_SIZE * (i + 1)) hm₂.vol hp₂.isOpen hroot (by decide) (by omega)
      rcases hcase with ⟨heq, hs⟩ | ⟨-, hs⟩
      · rw [← hinode₂] at heq
        have hm₃ := hw.mounted hm₂ hp₂ (by decide)
        have hopen₃ := hw.sameOpen hp₂.isOpen 0
        have hq₃ : Opened (Function.update dat ROOT_DIR_SECTOR d') s₃ t.1 k :=
          hopen₃.opened hm₃ hq hk₀
        have hne : Function.update dat ROOT_DIR_SECTOR d' k = dat k :=
          Function.update_of_ne hk₁ ..
        have hval : slotVal s₃.content (dat k) = slotVal s.content (dat k) := by
          funext a
          rw [hw.slotVal_other hm₂.vol hroot (by decide) hk hk₁, hdisk.content]
        have hs := hs.sameDisk hdisk
        have hfree := hs.inside (by rw [ByteBlock.length_toList]; exact hin)
        have hrem := removeEntry_eq (d := d) (by rw [hke]; exact hi)
          (by rw [hq.isOpen.data]; exact hdir) heq
        obtain ⟨hm₄, htab₄, herase, hother, hfail, hcont, hused⟩ :=
          inodeClose_removed hm₃ hq₃ hk₀ hk₁ hroot
        have hgone := erase_sector_ne hm₃ hq₃ herase hother
        have hopen₄ := sameOpen_of_erase hm₃ hq₃ herase hother
        generalize inodeClose (inodeRemove s₃ t.1) t.1 = s₄ at *
        have hframed : Framed D s₃ s₄ := fun v _ hD _ => hcont v hD
        have hbytes : rootBytes s₄.content (Function.update dat ROOT_DIR_SECTOR d') =
            overwrite 0 (rootBytes s.content dat) (ENTRY_SIZE * (i + 1))
              (e.setInUse false).toList := by
          have := hframed.fileContent hm₃.vol hroot (by decide)
          rw [rootBytes, this, Function.update_self]
          exact hs.content
        dsimp only
        rw [hr]
        refine ⟨k, _, s₄, hmem', hrem, hm₄, ?_, ?_, ?_, fun j hj hjk hj₀ hj₁ => ?_,
          fun ht => ?_, fun hx => ?_, fun j => ?_, hfail.trans hs.allocFailures,
          fun j hj hD hj₀ hj₁ hno => ?_, (htab.trans hw.tables).trans htab₄, ?_, hgone⟩
        · rw [hbytes, ← hname, ← hke]
          exact listing_remove (DirEntry.setInUse_false e) he huse
        · rw [hbytes]
          exact hparent.overwrite (Nat.le_of_lt hlt)
        · rw [Function.update_self]
          exact hw.isDir
        · have := (hw.sameFile hm₂.vol hroot (by decide) hj hj₁ hj₀).trans
            (hframed.sameFile hm₃.vol hj hj₀)
          rwa [hdisk.content] at this
        · refine (hframed.sameFile hm₃.vol hroot (by decide)).tidy ?_
          rw [Function.update_self]
          exact hs.tidy ht
        · exact (hs.exact hx).removed hm₃.vol hk hk₀ hcont fun j => (hused j).1
        · rw [hused, hne, FileSys.used, hfree]
          unfold slotSectors
          rw [hval]
          rfl
        · have := hw.frame j (by unfold FileSys.used; rw [hdisk.freeMap]; exact hj) hD hj₀
            hj₁ (by rw [hdisk.content]; exact hno)
          rw [hcont j hD, this, hdisk.content]
        · exact (hopen₂.trans (hw.sameOpen hp₂.isOpen k)).trans hopen₄
      · have := hs.past
        rw [ByteBlock.length_toList] at this
        simp only [ENTRY_SIZE] at this hin
        omega

end Root

end SimpleShell.Fs
