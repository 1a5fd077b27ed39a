import SimpleShell.Fs.Walk

/-!
# Runs of commands

The commands that keep a session going are those on plain names, except the two
that are treated apart: `recover 0`, which lists sectors nobody owns, and
`defragment`, which removes files while it holds the root. Nothing is asked of
the disk, so an allocation may fail at any time.
-/

namespace SimpleShell.Fs

open SimpleShell.Lib

/-- A command on plain names that neither recovers nor defragments. -/
def Command.Ordinary : Command → Prop
  | .create name _ | .write name _ | .read name _ | .seek name _ | .size name
  | .cat name | .rm name | .copyIn name _ | .copyOut name => PlainName name
  | .ls | .findFile | .fragmentationDegree | .freespace => True
  | .recover0 | .defragment _ => False

section Run

variable {D K : Set Nat} {dat dat' : Nat → Sector} {s s' : FileSys} {c : Nat}
  {name : CString}

theorem exec_write {words : List CString} (h : words ≠ []) :
    s.exec (.write name words) = (fsutilWrite s name (writeBuffer words)).2 := if_neg h

theorem length_writeBuffer (words : List CString) : 2 ≤ (writeBuffer words).length := by
  unfold writeBuffer
  rw [List.length_append, List.length_cons, List.length_singleton]
  omega

theorem fsutilWrite_session (hs : Session D K dat s c) (hname : PlainName name)
    {b : List UInt8} (hpos : 0 < b.length) :
    ∃ dat', Session D K dat' (fsutilWrite s name b).2 c := by
  rcases fsutilWrite_spec hs hname hpos with ⟨-, dat', h⟩ | ⟨f, k, dat₁, s₁, d', s₂, -, h⟩
  · exact ⟨dat', h.session⟩
  · exact ⟨_, h.session⟩

theorem fsutilCreate_session (hs : Session D K dat s c) (hname : PlainName name)
    (size : Int) : ∃ K' dat', Session D K' dat' (fsutilCreate s name size).2 c := by
  obtain ⟨dat', -, -, hcase⟩ := fsutilCreate_spec hs hname size
  rcases hcase with ⟨-, k, -, h⟩ | ⟨-, -, h, -⟩
  · exact ⟨_, dat', h⟩
  · exact ⟨K, dat', h⟩

theorem copyIn_session (hs : Session D K dat s c) (hname : PlainName name)
    (content : List UInt8) :
    ∃ K' dat', Session D K' dat' (copyIn s name content).2 c := by
  have hall : 0 < (content ++ [0]).length := by simp
  unfold copyIn
  dsimp only
  split
  · exact ⟨K, dat, hs⟩
  · next hspace =>
      split
      · obtain ⟨K', dat₁, h₁⟩ := fsutilCreate_session hs hname s.freeSectors
        obtain ⟨dat', h'⟩ := fsutilWrite_session h₁ hname
          (b := (content ++ [0]).take s.freeSectors)
          (by rw [List.length_take]; omega)
        exact ⟨K', dat', h'⟩
      · obtain ⟨K', dat₁, h₁⟩ := fsutilCreate_session hs hname (content.length + 1 : Nat)
        obtain ⟨dat', h'⟩ := fsutilWrite_session h₁ hname hall
        exact ⟨K', dat', h'⟩

/-- An ordinary command keeps the session. -/
theorem exec_session (hs : Session D K dat s 0) {command : Command}
    (hc : command.Ordinary) : ∃ K' dat', Session D K' dat' (s.exec command) 0 := by
  cases command with
  | create name size => exact fsutilCreate_session hs hc size
  | write name words =>
      have hlen := length_writeBuffer words
      obtain ⟨dat', h⟩ := fsutilWrite_session hs hc (b := writeBuffer words) (by omega)
      by_cases hwords : words = []
      · exact ⟨K, dat, by rw [FileSys.exec, if_pos hwords]; exact hs⟩
      · exact ⟨K, dat', by rw [FileSys.exec, if_neg hwords]; exact h⟩
  | read name size =>
      obtain ⟨dat', h⟩ := fsutilRead_quiet hs hc size
      exact ⟨K, dat', h.session⟩
  | seek name offset =>
      obtain ⟨dat', h⟩ := fsutilSeek_quiet hs hc offset
      exact ⟨K, dat', h.session⟩
  | size name =>
      obtain ⟨dat', h⟩ := fsutilSize_quiet hs hc
      exact ⟨K, dat', h.session⟩
  | cat name =>
      obtain ⟨dat', -, h, -⟩ := fsutilCat_spec hs hc
      exact ⟨K, dat', h⟩
  | rm name =>
      rcases fsutilRm_spec hs hc with ⟨-, dat', h⟩ | ⟨k, dat', -, -, h⟩
      · exact ⟨K, dat', h.session⟩
      · exact ⟨_, dat', h.session⟩
  | ls =>
      obtain ⟨dat', h⟩ := fsutilLs_quiet hs
      exact ⟨K, dat', h.session⟩
  | findFile =>
      obtain ⟨dat', h⟩ := findFile_quiet hs
      exact ⟨K, dat', h.session⟩
  | fragmentationDegree =>
      obtain ⟨dat', h⟩ := fragmentationDegree_quiet hs
      exact ⟨K, dat', h.session⟩
  | recover0 => exact absurd hc id
  | copyIn name content => exact copyIn_session hs hc content
  | copyOut name =>
      obtain ⟨dat', h⟩ := copyOut_quiet hs hc
      exact ⟨K, dat', h.session⟩
  | freespace => exact ⟨K, dat, hs⟩
  | defragment junk => exact absurd hc id

end Run

end SimpleShell.Fs
