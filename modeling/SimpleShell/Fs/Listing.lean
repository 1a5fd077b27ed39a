import SimpleShell.Fs.Directory
import SimpleShell.Fs.Create
import SimpleShell.Lib.SlotTable

/-!
# What a directory file lists

A directory file as a table of slots. The first entry is the parent's; each
other one lists a name when it is in use and is free otherwise. `lookup`,
`dir_add` and `dir_remove` all walk the entries with one loop, whose result is
stated here over the bytes of the file.
-/

namespace SimpleShell.Fs

open SimpleShell.Lib

/-! ## The entries -/

def entryAt (bytes : List UInt8) (i : Nat) : DirEntry :=
  .ofFn fun j => bytes.getD (ENTRY_SIZE * i + j) 0

def dirEntries (bytes : List UInt8) : List DirEntry :=
  (List.range (bytes.length / ENTRY_SIZE)).map (entryAt bytes)

/-- What a slot holds. -/
def DirEntry.slot (e : DirEntry) : Option (CString × Nat) :=
  if e.inUse then some (e.name, e.inodeSector) else none

def dirSlots (bytes : List UInt8) : List (Option (CString × Nat)) :=
  (dirEntries bytes).tail.map DirEntry.slot

/-- The names and the sectors of their inodes. -/
def listing (bytes : List UInt8) : List (CString × Nat) := (dirSlots bytes).reduceOption

theorem length_dirEntries (bytes : List UInt8) :
    (dirEntries bytes).length = bytes.length / ENTRY_SIZE := by
  simp [dirEntries]

theorem getElem?_dirEntries {bytes : List UInt8} {i : Nat} {e : DirEntry} :
    (dirEntries bytes)[i]? = some e ↔
      i < bytes.length / ENTRY_SIZE ∧ e = entryAt bytes i := by
  unfold dirEntries
  rw [List.getElem?_map]
  rcases Nat.lt_or_ge i (bytes.length / ENTRY_SIZE) with hi | hi
  · rw [List.getElem?_range hi]
    simp [hi, eq_comm]
  · rw [List.getElem?_eq_none (by simpa using hi)]
    simp only [Option.map_none, reduceCtorEq, false_iff, not_and]
    omega

theorem getElem?_dirSlots {bytes : List UInt8} {i : Nat} :
    (dirSlots bytes)[i]? = ((dirEntries bytes)[i + 1]?).map DirEntry.slot := by
  unfold dirSlots
  rw [List.getElem?_map, List.getElem?_tail]

theorem mem_listing {bytes : List UInt8} {n : CString} {k : Nat} :
    (n, k) ∈ listing bytes ↔ ∃ i e, (dirEntries bytes)[i + 1]? = some e ∧
      e.inUse = true ∧ e.name = n ∧ e.inodeSector = k := by
  unfold listing
  rw [List.reduceOption_mem_iff, List.mem_iff_getElem?]
  constructor
  · rintro ⟨i, hi⟩
    rw [getElem?_dirSlots, Option.map_eq_some_iff] at hi
    obtain ⟨e, he, hslot⟩ := hi
    unfold DirEntry.slot at hslot
    split at hslot
    · next huse =>
        cases hslot
        exact ⟨i, e, he, huse, rfl, rfl⟩
    · cases hslot
  · rintro ⟨i, e, he, huse, rfl, rfl⟩
    refine ⟨i, ?_⟩
    rw [getElem?_dirSlots, he]
    simp [DirEntry.slot, huse]

/-! ## Writing an entry -/

theorem getD_toList (e : DirEntry) {j : Nat} (hj : j < ENTRY_SIZE) :
    e.toList.getD j 0 = e.byte j := by
  unfold ByteBlock.toList
  rw [List.getD_eq_getElem _ _ (by simpa using hj)]
  simp

theorem entryAt_overwrite {bytes : List UInt8} {e : DirEntry} {i j : Nat} :
    entryAt (overwrite 0 bytes (ENTRY_SIZE * i) e.toList) j =
      if j = i then e else entryAt bytes j := by
  refine ByteBlock.ext fun x hx => ?_
  unfold entryAt
  rw [ByteBlock.byte_ofFn, if_pos hx, getD_overwrite, ByteBlock.length_toList]
  split
  · next hin =>
      have hji : j = i := by simp only [ENTRY_SIZE] at hin hx; omega
      rw [if_pos hji, hji, Nat.add_sub_cancel_left]
      exact getD_toList e hx
  · next hout =>
      have hji : j ≠ i := by
        rintro rfl
        omega
      rw [if_neg hji, ByteBlock.byte_ofFn, if_pos hx]

/-- An entry that was there is replaced. -/
theorem dirEntries_set {bytes : List UInt8} {e : DirEntry} {i : Nat}
    (hi : i < bytes.length / ENTRY_SIZE) :
    dirEntries (overwrite 0 bytes (ENTRY_SIZE * i) e.toList) = (dirEntries bytes).set i e := by
  have hlen : (overwrite 0 bytes (ENTRY_SIZE * i) e.toList).length = bytes.length := by
    rw [length_overwrite, ByteBlock.length_toList]
    simp only [ENTRY_SIZE] at hi ⊢
    omega
  refine List.ext_getElem (by simp [length_dirEntries, hlen]) fun j hj _ => ?_
  rw [length_dirEntries, hlen] at hj
  rw [List.getElem_set]
  simp only [dirEntries, List.getElem_map, List.getElem_range]
  rw [entryAt_overwrite]
  exact if_congr eq_comm rfl rfl

/-- An entry at the end makes the file longer. -/
theorem dirEntries_append {bytes : List UInt8} {e : DirEntry} {i : Nat}
    (hi : i = bytes.length / ENTRY_SIZE) :
    dirEntries (overwrite 0 bytes (ENTRY_SIZE * i) e.toList) = dirEntries bytes ++ [e] := by
  have hlen : (overwrite 0 bytes (ENTRY_SIZE * i) e.toList).length / ENTRY_SIZE = i + 1 := by
    rw [length_overwrite, ByteBlock.length_toList]
    simp only [ENTRY_SIZE] at hi ⊢
    omega
  unfold dirEntries
  rw [hlen, List.range_succ, List.map_append, List.map_singleton, entryAt_overwrite,
    if_pos rfl, ← hi]
  refine congrArg (· ++ [e]) (List.map_congr_left fun j hj => ?_)
  rw [entryAt_overwrite, if_neg (Nat.ne_of_lt (List.mem_range.1 hj))]

/-- The slots of a directory whose entry `i`, not the first, was written. -/
theorem dirSlots_set {bytes : List UInt8} {e : DirEntry} {i : Nat}
    (hi : i + 1 < bytes.length / ENTRY_SIZE) :
    dirSlots (overwrite 0 bytes (ENTRY_SIZE * (i + 1)) e.toList) =
      (dirSlots bytes).set i e.slot := by
  unfold dirSlots
  rw [dirEntries_set hi]
  cases h : dirEntries bytes with
  | nil => rfl
  | cons x l => rw [List.set_cons_succ, List.tail_cons, List.tail_cons, List.map_set]

theorem dirSlots_append {bytes : List UInt8} {e : DirEntry} {i : Nat}
    (hi : i + 1 = bytes.length / ENTRY_SIZE) :
    dirSlots (overwrite 0 bytes (ENTRY_SIZE * (i + 1)) e.toList) =
      dirSlots bytes ++ [e.slot] := by
  unfold dirSlots
  rw [dirEntries_append hi]
  cases h : dirEntries bytes with
  | nil =>
      have := length_dirEntries bytes
      rw [h, List.length_nil] at this
      omega
  | cons x l => simp

/-- A name in a free slot, or in a new one, joins the listing. -/
theorem listing_add {bytes : List UInt8} {e : DirEntry} {i : Nat}
    (huse : e.inUse = true)
    (hi : i + 1 = bytes.length / ENTRY_SIZE ∨
      ∃ x, (dirEntries bytes)[i + 1]? = some x ∧ x.inUse = false) :
    (listing (overwrite 0 bytes (ENTRY_SIZE * (i + 1)) e.toList)).Perm
      ((e.name, e.inodeSector) :: listing bytes) := by
  have hslot : e.slot = some (e.name, e.inodeSector) := if_pos huse
  unfold listing
  rcases hi with hi | ⟨x, hx, hfree⟩
  · rw [dirSlots_append hi, hslot, List.reduceOption_append]
    exact List.perm_append_singleton _ _
  · rw [dirSlots_set (getElem?_dirEntries.1 hx).1, hslot]
    refine SlotTable.reduceOption_fill ?_
    rw [getElem?_dirSlots, hx, Option.map_some, DirEntry.slot, hfree]
    rfl

/-- A name whose entry is no longer in use leaves it. -/
theorem listing_remove {bytes : List UInt8} {e x : DirEntry} {i : Nat}
    (huse : e.inUse = false) (hx : (dirEntries bytes)[i + 1]? = some x)
    (hold : x.inUse = true) :
    (listing bytes).Perm ((x.name, x.inodeSector) ::
      listing (overwrite 0 bytes (ENTRY_SIZE * (i + 1)) e.toList)) := by
  have hslot : e.slot = none := by simp [DirEntry.slot, huse]
  unfold listing
  rw [dirSlots_set (getElem?_dirEntries.1 hx).1, hslot]
  refine SlotTable.reduceOption_clear ?_
  rw [getElem?_dirSlots, hx, Option.map_some, DirEntry.slot, if_pos hold]

/-! ## The fields of an entry -/

theorem DirEntry.byte_setName {e : DirEntry} {name : CString} {j : Nat}
    (hj : j ≤ NAME_MAX) : (e.setName name).byte (4 + j) = name.getD j 0 := by
  have hl : ((name ++ List.replicate (NAME_MAX + 1) 0).take (NAME_MAX + 1)).length =
      NAME_MAX + 1 := by
    simp
  unfold setName
  rw [ByteBlock.byte_splice (by simp only [NAME_MAX] at hj; omega), hl, if_pos (by omega),
    show (((4 + j : Nat) : Int) - 4).toNat = j by omega, List.getD_eq_getElem?_getD,
    List.getElem?_take_of_lt (by omega), List.getElem?_append]
  split
  · next hlt => rw [List.getD_eq_getElem?_getD]
  · next hge =>
      rw [List.getD_eq_default _ _ (by omega), List.getElem?_replicate]
      split <;> rfl

theorem newEntry_byte {name : CString} {k j : Nat} (hj : j ≤ NAME_MAX) :
    (newEntry name k).byte (4 + j) = name.getD j 0 := by
  unfold newEntry DirEntry.setInodeSector
  rw [ByteBlock.byte_setU32_of_ne (by omega), DirEntry.byte_setName hj]

theorem takeWhile_range_getD {name : CString} (h₀ : (0 : UInt8) ∉ name) {m : Nat}
    (hlen : name.length < m) :
    ((List.range m).map fun j => name.getD j 0).takeWhile (· ≠ 0) = name := by
  induction name generalizing m with
  | nil =>
      cases m with
      | zero => rfl
      | succ m => simp [List.range_succ_eq_map]
  | cons x name ih =>
      cases m with
      | zero => exact absurd hlen (Nat.not_lt_zero _)
      | succ m =>
          have hx : x ≠ 0 := fun hx => h₀ (by simp [hx])
          have hih := ih (fun hmem => h₀ (List.mem_cons_of_mem _ hmem))
            (Nat.lt_of_succ_lt_succ hlen)
          rw [List.range_succ_eq_map, List.map_cons, List.takeWhile_cons_of_pos (by simpa),
            List.map_map]
          simpa [Function.comp_def] using hih

theorem newEntry_name {name : CString} {k : Nat} (hlen : name.length ≤ NAME_MAX)
    (h₀ : (0 : UInt8) ∉ name) : (newEntry name k).name = name := by
  unfold DirEntry.name
  rw [List.map_congr_left fun j hj => newEntry_byte (k := k)
    (Nat.le_of_lt_succ (List.mem_range.1 hj))]
  exact takeWhile_range_getD h₀ (Nat.lt_succ_of_le hlen)

theorem newEntry_inUse {name : CString} {k : Nat} : (newEntry name k).inUse = true := by
  unfold newEntry DirEntry.inUse DirEntry.setInodeSector DirEntry.setName
  have hl : ((name ++ List.replicate (NAME_MAX + 1) 0).take (NAME_MAX + 1)).length =
      NAME_MAX + 1 := by
    simp
  rw [ByteBlock.byte_setU32_of_ne (by omega), ByteBlock.byte_splice (by decide), hl,
    if_neg (by decide)]
  decide

theorem newEntry_inodeSector {name : CString} {k : Nat} (hk : k < 2 ^ 32) :
    (newEntry name k).inodeSector = k :=
  ByteBlock.u32_setU32_same (by decide) hk

theorem DirEntry.setInUse_false (e : DirEntry) : (e.setInUse false).inUse = false := by
  unfold inUse setInUse
  rw [ByteBlock.byte_splice (by decide), if_pos (by decide)]
  rfl

/-! ## The loop over the entries -/

/-- A step that only moves sectors in and out of the cache. -/
structure ReadOnly (s s' : FileSys) : Prop where
  disk : SameDisk s s'
  mem : s'.mem = s.mem

section ReadOnly

variable {D K : Set Nat} {dat : Nat → Sector} {s s₁ s' : FileSys} {p k : Nat}

theorem ReadOnly.refl (s : FileSys) : ReadOnly s s := ⟨.refl s, rfl⟩

theorem ReadOnly.trans (h₁ : ReadOnly s s₁) (h₂ : ReadOnly s₁ s') : ReadOnly s s' :=
  ⟨h₁.disk.trans h₂.disk, h₂.mem.trans h₁.mem⟩

theorem ReadOnly.tables (h : ReadOnly s s') : SameTables s s' := .of_mem h.mem

theorem ReadOnly.inode (h : ReadOnly s s') (p : Nat) : s'.inode p = s.inode p :=
  FileSys.inode_congr h.mem

theorem ReadOnly.mounted (hr : ReadOnly s s') (h : Mounted D K dat s) :
    Mounted D K dat s' :=
  h.frame hr.disk.freeMap hr.disk.size hr.disk.content (by rw [hr.mem]) (by rw [hr.mem])
    (by rw [hr.mem])

theorem ReadOnly.opened (hr : ReadOnly s s') (h : Opened dat s p k) :
    Opened dat s' p k :=
  ⟨by rw [hr.mem]; exact h.mem, h.isOpen.congr (by rw [hr.mem])⟩

theorem readOnly_readAt (s : FileSys) (stray : Int → UInt8) (d : Sector)
    (size offset : Int) :
    ReadOnly s { s with cache := (inodeReadAt stray s.cache d size offset).2 } :=
  ⟨⟨rfl, rfl, inodeReadAt_size .., inodeReadAt_content ..⟩, rfl⟩

theorem readOnly_readEntry (s : FileSys) (p : Nat) (o : Int) :
    ReadOnly s (readEntry s p o).2 := readOnly_readAt ..

theorem readOnly_scanEntries (found : DirEntry → Bool) (p n : Nat) (s : FileSys)
    (o : Nat) : ReadOnly s (scanEntries found p n s o).2 := by
  induction n generalizing s o with
  | zero => exact .refl s
  | succ n ih =>
      have hread := readOnly_readEntry s p o
      unfold scanEntries
      dsimp only
      split
      · exact hread
      · split
        · exact hread
        · exact hread.trans (ih _ _)

theorem lookup_eq (s : FileSys) (d : Nat) (name : CString) :
    lookup s d name = scanEntries (fun e => e.inUse && e.name == name) (s.dir d).inode
      (entryRounds s (s.dir d).inode) s ENTRY_SIZE := rfl

theorem readOnly_lookup (s : FileSys) (d : Nat) (name : CString) :
    ReadOnly s (lookup s d name).2 := by
  rw [lookup_eq]
  exact readOnly_scanEntries _ _ _ _ _

theorem readOnly_freeSlot (s : FileSys) (p : Nat) : ReadOnly s (freeSlot s p).2 := by
  unfold freeSlot
  dsimp only
  exact readOnly_scanEntries _ _ _ _ _

end ReadOnly

/-- The first entry from number `i` on that `found` holds of, and its offset. -/
def findEntry (found : DirEntry → Bool) (bytes : List UInt8) (i : Nat) :
    Option (DirEntry × Nat) :=
  ((List.range' i (bytes.length / ENTRY_SIZE - i)).find? fun j =>
    found (entryAt bytes j)).map fun j => (entryAt bytes j, ENTRY_SIZE * j)

theorem findEntry_of_ge {found : DirEntry → Bool} {bytes : List UInt8} {i : Nat}
    (h : bytes.length / ENTRY_SIZE ≤ i) : findEntry found bytes i = none := by
  unfold findEntry
  rw [Nat.sub_eq_zero_of_le h, List.range'_zero, List.find?_nil, Option.map_none]

theorem findEntry_of_lt {found : DirEntry → Bool} {bytes : List UInt8} {i : Nat}
    (h : i < bytes.length / ENTRY_SIZE) :
    findEntry found bytes i =
      if found (entryAt bytes i) then some (entryAt bytes i, ENTRY_SIZE * i)
      else findEntry found bytes (i + 1) := by
  have hrange : bytes.length / ENTRY_SIZE - i =
      bytes.length / ENTRY_SIZE - (i + 1) + 1 := by omega
  unfold findEntry
  rw [hrange, List.range'_succ, List.find?_cons]
  cases found (entryAt bytes i) with
  | true => rw [if_pos rfl, Option.map_some]
  | false => rw [if_neg Bool.false_ne_true]

theorem findEntry_some {found : DirEntry → Bool} {bytes : List UInt8} {i o : Nat}
    {e : DirEntry} (h : findEntry found bytes i = some (e, o)) :
    ∃ j, o = ENTRY_SIZE * j ∧ i ≤ j ∧ (dirEntries bytes)[j]? = some e ∧
      found e = true := by
  unfold findEntry at h
  rw [Option.map_eq_some_iff] at h
  obtain ⟨j, hj, heq⟩ := h
  obtain ⟨rfl, rfl⟩ := Prod.mk.inj heq
  have hmem := List.mem_range'_1.1 (List.mem_of_find?_eq_some hj)
  exact ⟨j, rfl, hmem.1, getElem?_dirEntries.2 ⟨by omega, rfl⟩,
    List.find?_some (p := fun j => found (entryAt bytes j)) hj⟩

theorem findEntry_none {found : DirEntry → Bool} {bytes : List UInt8} {i : Nat} :
    findEntry found bytes i = none ↔
      ∀ j e, i ≤ j → (dirEntries bytes)[j]? = some e → found e = false := by
  unfold findEntry
  rw [Option.map_eq_none_iff, List.find?_eq_none]
  constructor
  · intro h j e hij hj
    obtain ⟨hlt, rfl⟩ := getElem?_dirEntries.1 hj
    exact Bool.eq_false_iff.2 (h j (List.mem_range'_1.2 ⟨hij, by omega⟩))
  · intro h j hj
    have := List.mem_range'_1.1 hj
    exact Bool.eq_false_iff.1
      (h j _ this.1 (getElem?_dirEntries.2 ⟨by omega, rfl⟩))

section Scan

variable {s : FileSys} {p : Nat} {bytes : List UInt8}

theorem readEntry_fst (hok : FileOk s.content s.cache.size (s.inode p).data)
    (hbytes : fileContent s.content (s.inode p).data = bytes) (i : Nat) :
    (readEntry s p (ENTRY_SIZE * i : Nat)).1 =
      if i < bytes.length / ENTRY_SIZE then some (entryAt bytes i) else none := by
  unfold readEntry
  have hread : (inodeReadAt s.mem.stray s.cache (s.inode p).data ENTRY_SIZE
      (ENTRY_SIZE * i : Nat)).1 = (bytes.drop (ENTRY_SIZE * i)).take ENTRY_SIZE := by
    rw [← hbytes]
    exact inodeReadAt_content_eq hok ENTRY_SIZE (ENTRY_SIZE * i)
  dsimp only
  rw [hread]
  have hlen : ((bytes.drop (ENTRY_SIZE * i)).take ENTRY_SIZE).length =
      ENTRY_SIZE ↔ i < bytes.length / ENTRY_SIZE := by
    rw [List.length_take, List.length_drop]
    simp only [ENTRY_SIZE]
    omega
  refine if_congr hlen ?_ rfl
  refine congrArg some (ByteBlock.ext fun j hj => ?_)
  rw [entryAt, ByteBlock.byte_ofFn, ByteBlock.byte_ofFn, if_pos hj, if_pos hj,
    List.getD_eq_getElem?_getD, List.getElem?_take_of_lt hj, List.getElem?_drop,
    ← List.getD_eq_getElem?_getD]

theorem scanEntries_fst (found : DirEntry → Bool) {n i : Nat}
    (hok : FileOk s.content s.cache.size (s.inode p).data)
    (hbytes : fileContent s.content (s.inode p).data = bytes)
    (hn : bytes.length / ENTRY_SIZE - i < n) :
    (scanEntries found p n s (ENTRY_SIZE * i)).1 = findEntry found bytes i := by
  induction n generalizing s i with
  | zero => exact absurd hn (Nat.not_lt_zero _)
  | succ n ih =>
      have hread := readEntry_fst hok hbytes i
      have hro := readOnly_readEntry s p (ENTRY_SIZE * i : Nat)
      unfold scanEntries
      dsimp only
      split
      · next hnone =>
          rw [hread] at hnone
          split at hnone
          · exact absurd hnone (Option.some_ne_none _)
          · next hge => exact (findEntry_of_ge (Nat.le_of_not_lt hge)).symm
      · next e he =>
          rw [hread] at he
          split at he
          · next hlt =>
              have he := Option.some.inj he
              subst he
              rw [findEntry_of_lt hlt]
              split
              · rfl
              · have hrest := ih (s := (readEntry s p (ENTRY_SIZE * i : Nat)).2)
                  (i := i + 1)
                  (by rw [hro.disk.content, hro.disk.size, hro.inode]; exact hok)
                  (by rw [hro.disk.content, hro.inode]; exact hbytes) (by omega)
                rw [Nat.mul_add, Nat.mul_one] at hrest
                exact hrest
          · exact absurd he.symm (Option.some_ne_none _)

theorem entryRounds_eq (hbytes : fileContent s.content (s.inode p).data = bytes) :
    entryRounds s p = bytes.length / ENTRY_SIZE + 1 := by
  unfold entryRounds
  rw [← hbytes, length_fileContent]

theorem lookup_fst {d : Nat} {name : CString} (hp : (s.dir d).inode = p)
    (hok : FileOk s.content s.cache.size (s.inode p).data)
    (hbytes : fileContent s.content (s.inode p).data = bytes) :
    (lookup s d name).1 = findEntry (fun e => e.inUse && e.name == name) bytes 1 := by
  have hn : bytes.length / ENTRY_SIZE - 1 < entryRounds s p := by
    rw [entryRounds_eq hbytes]
    generalize bytes.length / ENTRY_SIZE = m
    omega
  rw [lookup_eq, hp]
  exact scanEntries_fst (i := 1) _ hok hbytes hn

/-- `lookup` finds the names that are listed. -/
theorem lookup_some {d : Nat} {n : CString} {e : DirEntry} {o : Nat}
    (hp : (s.dir d).inode = p)
    (hok : FileOk s.content s.cache.size (s.inode p).data)
    (hbytes : fileContent s.content (s.inode p).data = bytes)
    (h : (lookup s d n).1 = some (e, o)) :
    ∃ i, o = ENTRY_SIZE * (i + 1) ∧ (dirEntries bytes)[i + 1]? = some e ∧
      e.inUse = true ∧ e.name = n ∧ (n, e.inodeSector) ∈ listing bytes := by
  rw [lookup_fst hp hok hbytes] at h
  obtain ⟨j, ho, hj, he, hfound⟩ := findEntry_some h
  rw [Bool.and_eq_true, beq_iff_eq] at hfound
  obtain ⟨i, rfl⟩ : ∃ i, j = i + 1 := ⟨j - 1, by omega⟩
  exact ⟨i, ho, he, hfound.1, hfound.2,
    mem_listing.2 ⟨i, e, he, hfound.1, hfound.2, rfl⟩⟩

theorem lookup_none {d : Nat} {n : CString} (hp : (s.dir d).inode = p)
    (hok : FileOk s.content s.cache.size (s.inode p).data)
    (hbytes : fileContent s.content (s.inode p).data = bytes) :
    (lookup s d n).1 = none ↔ ∀ k, (n, k) ∉ listing bytes := by
  rw [lookup_fst hp hok hbytes, findEntry_none]
  constructor
  · intro h k hk
    obtain ⟨i, e, he, huse, hname, -⟩ := mem_listing.1 hk
    have := h (i + 1) e (by omega) he
    rw [huse, hname] at this
    simp at this
  · intro h j e hj he
    obtain ⟨i, rfl⟩ : ∃ i, j = i + 1 := ⟨j - 1, by omega⟩
    rw [Bool.eq_false_iff]
    intro hfound
    rw [Bool.and_eq_true, beq_iff_eq] at hfound
    exact h e.inodeSector (mem_listing.2 ⟨i, e, he, hfound.1, hfound.2, rfl⟩)

/-- Every entry of a directory is in use. -/
def FullDir (bytes : List UInt8) : Prop :=
  ∀ (i : Nat) (e : DirEntry), (dirEntries bytes)[i]? = some e → e.inUse = true

/-- `dir_add` takes a slot that is free or the end of the file. -/
theorem freeSlot_fst (hok : FileOk s.content s.cache.size (s.inode p).data)
    (hbytes : fileContent s.content (s.inode p).data = bytes) :
    ∃ i, (freeSlot s p).1 = ENTRY_SIZE * i ∧ (i = bytes.length / ENTRY_SIZE ∨
      ∃ x, (dirEntries bytes)[i]? = some x ∧ x.inUse = false) ∧
      (i = bytes.length / ENTRY_SIZE ↔ FullDir bytes) := by
  have hn : bytes.length / ENTRY_SIZE - 0 < entryRounds s p := by
    rw [entryRounds_eq hbytes]
    generalize bytes.length / ENTRY_SIZE = m
    omega
  have hscan := scanEntries_fst (fun e => !e.inUse) hok hbytes hn
  rw [Nat.mul_zero] at hscan
  unfold freeSlot
  dsimp only
  rw [hscan]
  cases hfind : findEntry (fun e => !e.inUse) bytes 0 with
  | none =>
      refine ⟨_, ?_, .inl rfl, iff_of_true rfl fun j e hj => ?_⟩
      · rw [Option.elim_none, ← hbytes, length_fileContent, Nat.mul_comm]
      · simpa using findEntry_none.1 hfind j e (Nat.zero_le j) hj
  | some e =>
      obtain ⟨j, ho, -, hj, hfree⟩ := findEntry_some (e := e.1) (o := e.2) hfind
      have hfree : e.1.inUse = false := by simpa using hfree
      refine ⟨j, ho, .inr ⟨e.1, hj, hfree⟩, iff_of_false ?_ fun hfull => ?_⟩
      · exact Nat.ne_of_lt (getElem?_dirEntries.1 hj).1
      · rw [hfull j e.1 hj] at hfree
        exact Bool.noConfusion hfree

end Scan

end SimpleShell.Fs
