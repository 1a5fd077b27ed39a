import SimpleShell.Fs.WriteAt

/-!
# Files that are new

When a file can be made, and what a first write to it leaves. The disk of
`blankDisk_create` is small enough to be formatted by sight, and has room for a
file of one sector.
-/

namespace SimpleShell.Fs

open SimpleShell.Lib

section Make

variable {D K : Set Nat} {dat : Nat → Sector} {s s' : FileSys} {c k : Nat} {name : CString}
  {size : Int}

/-- The sectors of a file of `size` bytes, that of its inode among them. -/
def sectorsFor (size : Int) : Nat := (inodeSlots (bytesToSectors size)).length + 1

/-- Nothing can go wrong that the caller could not have seen. -/
theorem CreateFault.false_of_room (h : CreateFault D K dat s name size s')
    (hm : Mounted D K dat s) (hroot : ROOT_DIR_SECTOR ∈ K) (hname : ValidName name)
    (habs : ∀ j, (name, j) ∉ listing (rootBytes s.content dat))
    (h₀ : 0 ≤ int32 size) (h₁ : int32 size ≤ MAX_LENGTH)
    (hfree : sectorsFor (int32 size) ≤ s.freeSectors)
    (hslot : RootFits s (dat ROOT_DIR_SECTOR) (rootBytes s.content dat)
      (sectorsFor (int32 size))) : False := by
  unfold sectorsFor at hfree hslot
  cases h with
  | full hnone _ => omega
  | create k s₁ s₂ ha hno _ _ =>
      have hone := ha.freeSectors hm.vol.map
      exact hno ⟨h₀, h₁, by omega⟩
  | add k p d₁ d' s₁ s₂ s₃ ha hroom hc hp hw hn hr =>
      rcases hn.cause with ⟨hbad | ⟨j, hj⟩, -, -⟩ | ⟨-, -, hfull, i, hi, hun⟩
      · exact hbad hname
      · exact habs j hj
      · obtain ⟨hmax, hfit⟩ := hslot hfull
        have hleft := hc.free
        have hne : ROOT_DIR_SECTOR ≠ k := fun heq => hc.new (heq ▸ hroot)
        have hend : ((ENTRY_SIZE * (i + 1) : Nat) : Int) +
            ((newEntry name k).toList.length : Nat) = (nextEnd (rootBytes s.content dat) : Nat) := by
          rw [ByteBlock.length_toList, nextEnd, ← hi]
          simp only [ENTRY_SIZE]
          omega
        refine hun.full ?_
        rw [hend]
        refine ⟨Int.natCast_nonneg _, hmax, ?_⟩
        rw [Function.update_of_ne hne,
          missing_congr fun a _ => hc.framed.slotVal hm.vol hroot a]
        omega

/-- A file can be made if its name is new and there is room for it. -/
theorem fsutilCreate_done (hs : Session D K dat s c) (hname : PlainName name)
    (habs : ∀ j, (name, j) ∉ listing (rootBytes s.content dat))
    (h₀ : 0 ≤ int32 size) (h₁ : int32 size ≤ MAX_LENGTH)
    (hfree : sectorsFor (int32 size) ≤ s.freeSectors)
    (hslot : RootFits s (dat ROOT_DIR_SECTOR) (rootBytes s.content dat)
      (sectorsFor (int32 size))) : (fsutilCreate s name size).1 = true := by
  obtain ⟨dat', -, -, hcase⟩ := fsutilCreate_spec hs hname size
  rcases hcase with ⟨hret, -⟩ | ⟨-, -, -, s₁, s₂, hdisk, hm, hfault, -⟩
  · exact hret
  · have hfit : RootFits s₁ (dat ROOT_DIR_SECTOR) (rootBytes s₁.content dat)
        (sectorsFor (int32 size)) := by
      unfold RootFits FileSys.freeSectors at hslot ⊢
      rw [hdisk.content, hdisk.freeMap]
      exact hslot
    refine (hfault.false_of_room hm hs.root_mem hname.valid ?_ h₀ h₁ ?_ hfit).elim
    · rw [hdisk.content]
      exact habs
    · unfold FileSys.freeSectors
      rw [hdisk.freeMap]
      exact hfree

/-- A file that is not there is not open. -/
theorem Session.position_none (hs : Session D K dat s c)
    (habs : ∀ j, (name, j) ∉ listing (rootBytes s.content dat)) : s.position name = none := by
  cases hget : getFileByFname s name with
  | none =>
      rw [FileSys.position, hget]
      rfl
  | some f =>
      obtain ⟨-, k, hk, -⟩ := hs.listed_of_get hget
      exact absurd hk (habs k)

theorem overwrite_zero {old buffer : List UInt8} (h : old.length ≤ buffer.length) :
    overwrite 0 old 0 buffer = buffer := by
  refine ext_getD (z := 0) (by rw [length_overwrite]; omega) fun x hx => ?_
  rw [length_overwrite] at hx
  rw [getD_overwrite, if_pos (by omega), Nat.sub_zero]

/-- A new file is written over from its start. -/
theorem fsutilWrite_new {n : Nat} {buffer : List UInt8} (hs : Session D K dat s c)
    (hname : PlainName name)
    (habs : ∀ j, (name, j) ∉ listing (rootBytes s.content dat)) (hn : n < 2 ^ 31)
    (hcreate : (fsutilCreate s name n).1 = true) (hpos : 0 < buffer.length)
    (hlen : buffer.length = n) :
    let s' := (fsutilWrite (fsutilCreate s name n).2 name buffer).2
    s'.position name = some ((n : Int) - 2) ∧
      ∃ k D K dat, k ∈ K ∧ Session D K dat s' c ∧ (name, k) ∈ listing (rootBytes s'.content dat) ∧
        fileContent s'.content (dat k) = buffer.set (n - 1) 0 := by
  obtain ⟨dat₁, htable, -, hcase⟩ := fsutilCreate_spec hs hname n
  have hint : int32 (n : Int) = n := int32_eq (by omega) (by omega)
  rcases hcase with ⟨-, k, hmade, hs₁⟩ | ⟨hret, -⟩
  · have hlisted : (name, k) ∈ listing (rootBytes (fsutilCreate s name n).2.content dat₁) :=
      hmade.listing.mem_iff.2 List.mem_cons_self
    have hclosed : (fsutilCreate s name n).2.position name = none := by
      rw [FileSys.position, getFileByFname_congr htable]
      exact hs.position_none habs
    have hzero : fileContent (fsutilCreate s name n).2.content (dat₁ k) = List.replicate n 0 := by
      rw [hmade.content, hint]
      rfl
    generalize (fsutilCreate s name n).2 = s₁ at *
    obtain ⟨dat₂, hframe, hcase⟩ := fsutilWrite_at hs₁ hname hlisted hpos (o := 0)
      (by rw [hclosed]; rfl) (by omega) (.inl (Nat.zero_le _))
    rcases hcase with ⟨-, hdone⟩ | ⟨-, hun⟩
    · have hcontent := hdone.content
      rw [hzero, overwrite_zero (by rw [List.length_set, List.length_replicate, hlen]),
        hlen] at hcontent
      have hposition := hdone.position
      rw [hlen, Int.natCast_zero, Int.zero_add, int32_eq (by omega) (by omega)] at hposition
      refine ⟨hposition, k, D, _, dat₂, .inl rfl, hframe.session, ?_, hcontent⟩
      rw [hframe.root]
      exact hlisted
    · have hpast := hun.past
      rw [hzero, List.length_replicate, hlen] at hpast
      omega
  · rw [hret] at hcreate
    exact Bool.noConfusion hcreate

end Make

/-! ## A small disk -/

theorem plainName_a : PlainName [97] :=
  ⟨by decide, by decide, by decide, by decide, by decide, by decide⟩

/-- Any file that 125 sectors are enough for can be made on a freshly formatted disk. -/
theorem blankDisk_room (n : Nat) (hmax : (n : Int) ≤ MAX_LENGTH) (hroom : sectorsFor n ≤ 125) :
    ∃ s, filesysInit true (blankDisk 200) (fun _ => 0) = (true, s) ∧ Reachable s ∧
      s.freeSectors = 125 ∧ s.mem.fileTable = [] ∧ (∀ k, ([97], k) ∉ s.entries) ∧
      (fsutilCreate s [97] n).1 = true := by
  have hsmall : ∃ s, filesysInit true (blankDisk 200) (fun _ => 0) = (true, s) ∧
      (∃ D dat, Formatted D dat s) ∧ s.freeSectors + 75 = (blankDisk 200).fsDevice.size :=
    filesysInit_small (by decide) (by decide)
  obtain ⟨s, hs, ⟨D, dat, hf⟩, hfree⟩ := hsmall
  have hfree : s.freeSectors = 125 := by
    have hsize : (blankDisk 200).fsDevice.size = 200 := rfl
    omega
  have hmax' := hmax
  simp only [MAX_LENGTH] at hmax'
  have hint : int32 (n : Int) = n := int32_eq (by omega) (by omega)
  have hnone : ∀ k, ([97], k) ∉ listing (rootBytes s.content dat) := by
    rw [hf.empty]
    exact fun _ => List.not_mem_nil
  refine ⟨s, hs, .format hs, hfree, hf.fileTable, by rw [hf.session.entries]; exact hnone, ?_⟩
  refine fsutilCreate_done hf.session plainName_a hnone (by omega) (by rw [hint]; exact hmax) ?_
    fun hfull => absurd hfull hf.slack
  rw [hint, hfree]
  exact hroom

/-- Any file of at most a sector can be made on a freshly formatted disk. -/
theorem blankDisk_create (n : Nat) (hn : 0 < n) (hmax : n ≤ 512) :
    ∃ s, filesysInit true (blankDisk 200) (fun _ => 0) = (true, s) ∧ Reachable s ∧
      s.freeSectors = 125 ∧ s.mem.fileTable = [] ∧ (∀ k, ([97], k) ∉ s.entries) ∧
      (fsutilCreate s [97] n).1 = true := by
  refine blankDisk_room n (by simp only [MAX_LENGTH]; omega) ?_
  have hsectors : bytesToSectors n = 1 := by
    simp only [bytesToSectors, BLOCK_SECTOR_SIZE, Int.toNat_natCast]
    omega
  rw [sectorsFor, hsectors, length_slots_one]
  decide

/-- A file of one byte, on a disk that was just formatted. -/
theorem oneByte_entries : ∃ s k, Reachable s ∧ s.entries = [([97], k)] ∧
    (s.bytes k).length = 1 := by
  obtain ⟨s, hinit, hreach, -, -, -, hcreate⟩ := blankDisk_create 1 (by decide) (by decide)
  have hreach' : Reachable (s.exec (.create [97] 1)) := .exec _ hreach plainName_a
  obtain ⟨D, dat, hf⟩ := filesysInit_format hinit
  have hs := hf.session
  obtain ⟨dat', -, -, hcase⟩ := fsutilCreate_spec hs plainName_a 1
  rcases hcase with ⟨-, k, hmade, hs'⟩ | ⟨hfalse, -⟩
  · refine ⟨_, k, hreach', ?_, ?_⟩
    · have hentries : (fsutilCreate s [97] 1).2.entries = [([97], k)] := by
        rw [hs'.entries]
        have hperm := hmade.listing
        rw [hf.empty] at hperm
        exact List.perm_singleton.1 hperm
      exact hentries
    · have hbytes : (fsutilCreate s [97] 1).2.bytes k = List.replicate (int32 1).toNat 0 := by
        rw [hs'.bytes (.inl rfl), hmade.content]
      have hint : int32 1 = 1 := int32_eq (by decide) (by decide)
      rw [hint] at hbytes
      exact congrArg List.length hbytes
  · rw [show ((1 : Nat) : Int) = 1 from rfl] at hcreate
    rw [hfalse] at hcreate
    cases hcreate

theorem oneByte_file : ∃ s k, Reachable s ∧ ([97], k) ∈ s.entries ∧ (s.bytes k).length = 1 := by
  obtain ⟨s, k, hreach, hentries, hlen⟩ := oneByte_entries
  exact ⟨s, k, hreach, by rw [hentries]; exact List.mem_cons_self, hlen⟩

end SimpleShell.Fs
