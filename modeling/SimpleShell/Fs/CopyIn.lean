import SimpleShell.Fs.Positions

/-!
# Copying a host file in

`copy_in` compares the bytes of the host file with the number of free sectors,
so of a file that the disk has room for it may still take only a beginning. When
a file of the wanted size can be made at all, everything is decided by that
comparison.
-/

namespace SimpleShell.Fs

open SimpleShell.Lib

section CopyIn

variable {s : FileSys} {name : CString} {content : List UInt8}

/-- What `copy_in` does with a host file that is no longer than there are sectors. -/
theorem copyIn_whole {D K : Set Nat} {dat : Nat → Sector} {c : Nat} (hs : Session D K dat s c)
    (hname : PlainName name) (habs : ∀ j, (name, j) ∉ listing (rootBytes s.content dat))
    (hmax : content.length + 1 < 2 ^ 31) (hspace : content.length + 1 ≤ s.freeSectors)
    (hfits : (fsutilCreate s name (content.length + 1 : Nat)).1 = true) :
    let s' := (copyIn s name content).2
    s'.position name = some ((content.length : Int) - 1) ∧
      ∃ k D K dat, k ∈ K ∧ Session D K dat s' c ∧ (name, k) ∈ listing (rootBytes s'.content dat) ∧
        fileContent s'.content (dat k) = content ++ [0] := by
  have hsize : copySize s content = content.length + 1 := Nat.min_eq_right hspace
  have hall : (content ++ [0]).length = content.length + 1 := by
    rw [List.length_append, List.length_singleton]
  rw [copyIn_eq, if_neg (by omega), hsize, List.take_of_length_le (Nat.le_of_eq hall)]
  obtain ⟨hpos, k, D', K', dat', hk, hs', hlisted, hcontent⟩ := fsutilWrite_new hs hname
    habs (by omega) hfits (by omega) hall
  refine ⟨hpos.trans (congrArg some (by omega)), k, D', K', dat', hk, hs', hlisted, ?_⟩
  rw [hcontent]
  simp

/-- What `copy_in` stores in full is no longer than the free sectors are many. -/
theorem copyIn_stored_le (h : Reachable s) (hname : PlainName name)
    (habs : ∀ k, (name, k) ∉ s.entries) (hmax : (content.length + 1 : Nat) ≤ MAX_LENGTH) {k : Nat}
    (hk : (name, k) ∈ (copyIn s name content).2.entries)
    (hbytes : (copyIn s name content).2.bytes k = content ++ [0]) :
    content.length + 1 ≤ s.freeSectors := by
  obtain ⟨D, K, dat, hs⟩ := h.session
  simp only [MAX_LENGTH] at hmax
  have hlen := length_take_copySize s content
  have habs' : ∀ k, (name, k) ∉ listing (rootBytes s.content dat) := by
    rw [← hs.entries]
    exact habs
  rw [copyIn_eq] at hk hbytes
  by_contra hless
  have hsize : copySize s content = s.freeSectors := Nat.min_eq_left (by omega)
  split at hk
  · exact habs k hk
  · next hsome =>
      rw [if_neg hsome] at hbytes
      cases hcreate : (fsutilCreate s name (copySize s content)).1 with
      | true =>
          obtain ⟨-, j, D', K', dat', hj, hs', hlisted, hcontent⟩ := fsutilWrite_new hs hname habs'
            (by omega) hcreate (by omega) hlen
          rw [hs'.entries] at hk
          rw [hs'.names.unique hk hlisted, hs'.bytes hj, hcontent] at hbytes
          have hlength := congrArg List.length hbytes
          rw [List.length_set, hlen, List.length_append, List.length_singleton] at hlength
          omega
      | false =>
          obtain ⟨dat₁, -, -, hcase⟩ := fsutilCreate_spec hs hname (copySize s content)
          rcases hcase with ⟨hret, -⟩ | ⟨-, href, hs₁, -⟩
          · rw [hcreate] at hret
            exact Bool.noConfusion hret
          · have hgone : ∀ j, (name, j) ∉ listing (rootBytes
                (fsutilCreate s name (copySize s content)).2.content dat₁) := by
              rw [href.root]
              exact habs'
            have hpos : 0 < ((content ++ [0]).take (copySize s content)).length := by omega
            generalize (fsutilCreate s name (copySize s content)).2 = s₁ at *
            rcases fsutilWrite_spec hs₁ hname hpos with
              ⟨-, dat₂, hno⟩ | ⟨f, j, dat₂, s₂, d', s₃, hj, -⟩
            · rw [hno.session.entries, hno.still.rootBytes hs₁] at hk
              exact hgone k hk
            · exact hgone j hj

/-- Where there could be a file of the size of the host file and its NUL, `copy_in`
stores all of it exactly if the free sectors are as many as its bytes. -/
theorem copyIn_stores_iff (h : Reachable s) (hname : PlainName name)
    (habs : ∀ k, (name, k) ∉ s.entries) (hmax : (content.length + 1 : Nat) ≤ MAX_LENGTH)
    (hfits : (fsutilCreate s name (content.length + 1 : Nat)).1 = true) :
    (∃ k, (name, k) ∈ (copyIn s name content).2.entries ∧
        (copyIn s name content).2.bytes k = content ++ [0]) ↔
      content.length + 1 ≤ s.freeSectors := by
  constructor
  · rintro ⟨k, hk, hbytes⟩
    exact copyIn_stored_le h hname habs hmax hk hbytes
  · intro hfree
    obtain ⟨D, K, dat, hs⟩ := h.session
    simp only [MAX_LENGTH] at hmax
    obtain ⟨-, j, D', K', dat', hj, hs', hlisted, hcontent⟩ := copyIn_whole hs hname
      (by rw [← hs.entries]; exact habs) (by omega) hfree hfits
    exact ⟨j, by rw [hs'.entries]; exact hlisted, by rw [hs'.bytes hj, hcontent]⟩

/-- Two bytes and their NUL, on a disk with 125 free sectors. -/
theorem copyIn_stores_iff_two : ∃ s, Reachable s ∧ s.freeSectors = 125 ∧
    ∃ k, ([97], k) ∈ (copyIn s [97] [104, 105]).2.entries ∧
      (copyIn s [97] [104, 105]).2.bytes k = [104, 105, 0] := by
  obtain ⟨s, -, hs, hfree, -, habs, hcreate⟩ := blankDisk_create 3 (by decide) (by decide)
  refine ⟨s, hs, hfree, (@copyIn_stores_iff s [97] [104, 105] hs plainName_a habs (by decide)
    hcreate).2 ?_⟩
  rw [hfree]
  decide

/-- Of 200 bytes for which the disk has 125 sectors too many, 125 are taken. -/
theorem copyIn_truncates : ∃ (s : FileSys) (content : List UInt8), Reachable s ∧
    (∀ k, ([97], k) ∉ s.entries) ∧ (content.length + 1 : Nat) ≤ MAX_LENGTH ∧
    (fsutilCreate s [97] (content.length + 1 : Nat)).1 = true ∧
    ¬ ∃ k, ([97], k) ∈ (copyIn s [97] content).2.entries ∧
      (copyIn s [97] content).2.bytes k = content ++ [0] := by
  obtain ⟨s, -, hs, hfree, -, habs, hcreate⟩ := blankDisk_create 201 (by decide) (by decide)
  have hlen : (List.replicate 200 (1 : UInt8)).length + 1 = 201 := by
    rw [List.length_replicate]
  refine ⟨s, List.replicate 200 1, hs, habs, by rw [hlen]; decide, by rw [hlen]; exact hcreate, ?_⟩
  rintro ⟨k, hk, hbytes⟩
  have := copyIn_stored_le hs plainName_a habs (by rw [hlen]; decide) hk hbytes
  omega

end CopyIn

end SimpleShell.Fs
