import SimpleShell.Fs.CopyIn

/-!
# Copying a file out again

`copy_out` reads from where `copy_in` has left the file, which is one byte before
the NUL that ends it: the last byte of the host file, or, of an empty one, the byte
of the program's memory that lies before the buffer.
-/

namespace SimpleShell.Fs

open SimpleShell.Lib

section CopyOut

variable {D K : Set Nat} {dat : Nat → Sector} {s : FileSys} {c k : Nat} {name : CString}
  {content : List UInt8}

theorem copyIn_stray (s : FileSys) (name : CString) (content : List UInt8) :
    (copyIn s name content).2.mem.stray = s.mem.stray := by
  rw [copyIn_eq]
  split
  · rfl
  · rw [fsutilWrite_stray]
    exact (fsutilCreate_sameFiles s name _).2

/-- The byte before the start of a file is one the file does not have. -/
theorem inodeReadAt_before {stray : Int → UInt8} {c : BufferCache} {d : Sector}
    (hd : inodeLength d = 1) : (inodeReadAt stray c d 1 (-1)).1 = [stray (-1)] := by
  have hchunk : chunkSize d 1 (-1) = 1 := by
    unfold chunkSize
    rw [hd]
    rfl
  change (inodeReadLoop stray d 1 c 1 (-1)).1 = _
  rw [inodeReadLoop, if_pos (by decide)]
  dsimp only
  rw [hchunk, if_neg (by decide), if_neg (by decide)]
  rfl

/-- What `copy_out` reads of the file `name` at byte `o`. -/
theorem copyOut_at {o : Nat} (hs : Session D K dat s c) (hname : PlainName name)
    (hlisted : (name, k) ∈ listing (rootBytes s.content dat)) (hat : s.position name = some o) :
    (copyOut s name).1 = some (cString ((fileContent s.content (dat k)).drop o ++ [0])) := by
  have hsize := fsutilSize_spec hs hname
  unfold copyOut
  generalize fsutilSize s name = z at hsize ⊢
  rcases hsize with ⟨-, dat', hno⟩ | ⟨f, j, dat', hj, hret, hpos, hu⟩
  · exact absurd hlisted (hno.absent k)
  · obtain rfl : j = k := hs.names.unique hj hlisted
    have hread := fsutilRead_spec hu.session hname z.1
    dsimp only
    generalize fsutilRead z.2 name z.1 = r at hread ⊢
    rcases hread with ⟨-, dat'', hno⟩ | ⟨g, i, dat'', hi, -, -, hbytes, -⟩
    · exact absurd hu.file.listed (hno.absent j)
    · obtain rfl : i = j := hu.session.names.unique hi hu.file.listed
      have hbytes := hbytes o (by rw [hu.position, hpos, hat]; rfl)
      rw [hu.content hs, hret, Int.toNat_natCast, List.take_of_length_le (by simp)] at hbytes
      rw [if_neg (by omega), hbytes]

/-- And what it reads of a file of one byte that stands before it. -/
theorem copyOut_before (hs : Session D K dat s c) (hname : PlainName name)
    (hlisted : (name, k) ∈ listing (rootBytes s.content dat)) (hat : s.position name = some (-1))
    (hlen : (fileContent s.content (dat k)).length = 1) :
    (copyOut s name).1 = some (cString [s.mem.stray (-1), 0]) := by
  have hsize := fsutilSize_spec hs hname
  have hstray := fsutilSize_stray s name
  unfold copyOut
  generalize fsutilSize s name = z at hsize hstray ⊢
  rcases hsize with ⟨-, dat', hno⟩ | ⟨f, j, dat', hj, hret, hpos, hu⟩
  · exact absurd hlisted (hno.absent k)
  · obtain rfl : j = k := hs.names.unique hj hlisted
    rw [hlen] at hret
    have hfpos : f.pos = -1 := by
      rw [hpos, hat]
      rfl
    have hlength : inodeLength (z.2.inode f.inode).data = 1 := by
      have := fileLength_eq hu.session.mounted hu.file.opened
      rw [hu.content hs, hlen] at this
      exact this
    have hread : (fsutilRead z.2 name z.1).1.2 = [z.2.mem.stray (-1)] := by
      unfold fsutilRead openFile
      rw [hu.file.get, hret]
      change (inodeReadAt z.2.mem.stray z.2.cache (z.2.inode f.inode).data 1 f.pos).1 = _
      rw [hfpos]
      exact inodeReadAt_before hlength
    dsimp only
    rw [if_neg (by omega), hread, hstray]
    rfl

theorem freeSectors_lt (hs : Session D K dat s c) : s.freeSectors < 2 ^ 32 := by
  have hcnt := hs.mounted.vol.map.cnt
  have hfits := s.cache.state.fsDevice.size_small
  have hle : s.freeSectors ≤ s.freeMap.bitCnt := by
    unfold FileSys.freeSectors
    rw [numFree_eq]
    exact (Finset.card_filter_le _ _).trans_eq (Finset.card_range _)
  have hsize : s.cache.size = s.cache.state.fsDevice.size := rfl
  omega

/-- All that comes back of a host file that is not empty is its last byte. -/
theorem copyOut_last {init : List UInt8} {last : UInt8} (hs : Session D K dat s c)
    (hname : PlainName name) (hlisted : (name, k) ∈ listing (rootBytes s.content dat))
    (hlast : last ≠ 0) (hat : s.position name = some (((init ++ [last]).length : Int) - 1))
    (hcontent : fileContent s.content (dat k) = init ++ [last] ++ [0]) :
    (copyOut s name).1 = some [last] := by
  have hpos : s.position name = some ((init.length : Nat) : Int) := by
    rw [hat, List.length_append, List.length_singleton]
    exact congrArg some (by omega)
  have hdrop : (init ++ [last] ++ [0]).drop init.length ++ [0] = [last, 0, 0] := by
    rw [List.append_assoc, List.drop_left]
    rfl
  rw [copyOut_at hs hname hlisted hpos, hcontent, hdrop, cString,
    List.takeWhile_cons_of_pos (by simpa using hlast)]
  rfl

/-- `copy_out` gives back what `copy_in` took if that was one byte, or nothing and
there happens to be a NUL before the buffer. -/
theorem copyOut_copyIn_iff (h : Reachable s) (hname : PlainName name)
    (habs : ∀ k, (name, k) ∉ s.entries) (hnul : (0 : UInt8) ∉ content)
    (hspace : content.length + 1 ≤ s.freeSectors)
    (hfits : (fsutilCreate s name (content.length + 1 : Nat)).1 = true) :
    (copyOut (copyIn s name content).2 name).1 = some content ↔
      content.length = 1 ∨ (content.length = 0 ∧ s.mem.stray (-1) = 0) := by
  obtain ⟨D, K, dat, hs⟩ := h.session
  have hlt := freeSectors_lt hs
  have hmax : content.length + 1 < 2 ^ 31 := by
    obtain ⟨dat₁, -, -, hcase⟩ := fsutilCreate_spec hs hname (content.length + 1 : Nat)
    rcases hcase with ⟨-, k, hmade, -⟩ | ⟨hret, -⟩
    · have := int32_nonneg (by omega) (by omega) hmade.room.1
      omega
    · rw [hret] at hfits
      exact Bool.noConfusion hfits
  obtain ⟨hpos, k, D', K', dat', -, hs', hlisted, hcontent⟩ := copyIn_whole hs hname
    (by rw [← hs.entries]; exact habs) hmax hspace hfits
  have hstray := copyIn_stray s name content
  generalize (copyIn s name content).2 = s' at *
  rcases List.eq_nil_or_concat content with rfl | ⟨init, last, rfl⟩
  · rw [copyOut_before hs' hname hlisted hpos (by rw [hcontent]; rfl), hstray, cString]
    by_cases hzero : s.mem.stray (-1) = 0
    · simp [hzero]
    · simp [hzero]
  · rw [List.concat_eq_append] at *
    have hlast : last ≠ 0 := fun hzero => hnul (by simp [hzero])
    rw [copyOut_last hs' hname hlisted hlast hpos hcontent, Option.some_inj,
      List.length_append, List.length_singleton]
    constructor
    · intro heq
      have hlen := congrArg List.length heq
      rw [List.length_append, List.length_singleton] at hlen
      exact .inl hlen.symm
    · rintro (hone | ⟨hnone, -⟩)
      · rw [List.length_eq_zero_iff.1 (by omega : init.length = 0)]
        rfl
      · omega

theorem copyOut_copyIn_iff_one : ∃ s, Reachable s ∧
    ((copyOut (copyIn s [97] [1]).2 [97]).1 = some [1] ↔
      [(1 : UInt8)].length = 1 ∨ ([(1 : UInt8)].length = 0 ∧ s.mem.stray (-1) = 0)) := by
  obtain ⟨s, -, hs, hfree, -, habs, hcreate⟩ := blankDisk_create 2 (by decide) (by decide)
  exact ⟨s, hs, copyOut_copyIn_iff hs
    plainName_a habs (by decide)
    (by rw [hfree]; decide) hcreate⟩

/-- Of the two bytes 1 and 2 the second comes back. -/
theorem copyOut_copyIn_two : ∃ (s : FileSys) (content : List UInt8), Reachable s ∧
    (∀ k, ([97], k) ∉ s.entries) ∧ (0 : UInt8) ∉ content ∧ content.length + 1 ≤ s.freeSectors ∧
    (fsutilCreate s [97] (content.length + 1 : Nat)).1 = true ∧
    (copyOut (copyIn s [97] content).2 [97]).1 ≠ some content := by
  obtain ⟨s, -, hs, hfree, -, habs, hcreate⟩ := blankDisk_create 3 (by decide) (by decide)
  obtain ⟨D, K, dat, hses⟩ := hs.session
  obtain ⟨content, heq⟩ : ∃ content : List UInt8, content = [1] ++ [2] := ⟨_, rfl⟩
  have hlen : content.length + 1 = 3 := by rw [heq]; rfl
  have hspace : content.length + 1 ≤ s.freeSectors := by omega
  rw [← hlen] at hcreate
  refine ⟨s, content, hs, habs, by rw [heq]; decide, hspace, hcreate, ?_⟩
  obtain ⟨hpos, k, D', K', dat', -, hs', hlisted, hcontent⟩ := copyIn_whole hses plainName_a
    (by rw [← hses.entries]; exact habs) (by omega) hspace hcreate
  generalize (copyIn s [97] content).2 = s' at *
  rw [heq] at hpos hcontent ⊢
  rw [copyOut_last hs' plainName_a hlisted (by decide) hpos hcontent]
  decide

end CopyOut

end SimpleShell.Fs
