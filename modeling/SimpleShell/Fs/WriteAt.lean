import SimpleShell.Fs.Reachable

/-!
# Writes to a file by its name

What `fsutil_write` does to the file `name`, said of the files' bytes and of the
positions alone: it writes all of the buffer where the file stands, or nothing.
-/

namespace SimpleShell.Fs

open SimpleShell.Lib

section WriteAt

variable {D K : Set Nat} {dat dat' : Nat → Sector} {s s' : FileSys} {c k o : Nat}
  {name : CString} {buffer : List UInt8}

/-- What every write to `name`, whose inode is in `k`, keeps. -/
structure WriteFrame (D K : Set Nat) (dat : Nat → Sector) (s : FileSys) (c : Nat)
    (name : CString) (k : Nat) (dat' : Nat → Sector) (s' : FileSys) : Prop where
  session : Session D K dat' s' c
  handle : SameHandle s s'
  root : rootBytes s'.content dat' = rootBytes s.content dat
  same : ∀ j ∈ K, j ≠ k → j ≠ 0 → SameFile s.content s'.content (dat j) (dat' j)
  position : ∀ n, n ≠ name → s'.position n = s.position n

/-- All of `buffer` was written at `o`. -/
structure WriteDone (dat : Nat → Sector) (s : FileSys) (name : CString) (k o : Nat)
    (buffer : List UInt8) (dat' : Nat → Sector) (s' : FileSys) : Prop where
  content : fileContent s'.content (dat' k) = overwrite 0 (fileContent s.content (dat k)) o
    (buffer.set (buffer.length - 1) 0)
  tidy : Tidy s.content (dat k) → Tidy s'.content (dat' k)
  position : s'.position name = some (int32 (o + (buffer.length - 2)))
  allocFailures : s'.allocFailures = s.allocFailures
  inside : o + buffer.length ≤ (fileContent s.content (dat k)).length → s'.freeMap = s.freeMap

/-- Nothing of `buffer` was written at `o`, for want of sectors or of pointers. -/
structure WriteUndone (dat : Nat → Sector) (s : FileSys) (name : CString) (k o : Nat)
    (buffer : List UInt8) (dat' : Nat → Sector) (s' : FileSys) : Prop where
  content : fileContent s'.content (dat' k) = fileContent s.content (dat k)
  position : s'.position name = some (int32 (o - 2))
  past : (fileContent s.content (dat k)).length < o + buffer.length
  failed : (o + buffer.length : Int) ≤ MAX_LENGTH → s.allocFailures < s'.allocFailures

theorem fsutilWrite_at (hs : Session D K dat s c) (hname : PlainName name)
    (hlisted : (name, k) ∈ listing (rootBytes s.content dat)) (hpos : 0 < buffer.length)
    (hat : (s.position name).getD 0 = (o : Nat)) (hend : o + buffer.length < 2 ^ 31)
    (hgap : o ≤ (fileContent s.content (dat k)).length ∨ Tidy s.content (dat k)) :
    let r := fsutilWrite s name buffer
    ∃ dat', WriteFrame D K dat s c name k dat' r.2 ∧
      ((r.1 = buffer.length ∧ WriteDone dat s name k o buffer dat' r.2) ∨
        (r.1 = 0 ∧ WriteUndone dat s name k o buffer dat' r.2)) := by
  obtain ⟨hk₀, hk₁, -⟩ := hs.names.file _ _ hlisted
  have hspec := fsutilWrite_spec hs hname hpos
  generalize fsutilWrite s name buffer = r at hspec
  rcases hspec with ⟨-, dat', hno⟩ | ⟨f, k', dat₁, s₁, d', s₂, hk', hw⟩
  · exact absurd hlisted (hno.absent k)
  · obtain rfl : k' = k := hs.names.unique hk' hlisted
    have hstill := hw.opened.still
    have hsame := hstill.sameFile hs.mounted (hs.names.listed _ _ hlisted)
    have hself : Function.update dat₁ k' d' k' = d' := Function.update_self ..
    have hset : (buffer.set (buffer.length - 1) 0).length = buffer.length := List.length_set
    have hlength : inodeLength (dat₁ k') = (fileContent s.content (dat k')).length := by
      have hnonneg := (hw.opened.session.mounted.vol.file k'
        (hs.names.listed _ _ hlisted)).nonneg
      rw [← hsame.content, length_fileContent]
      omega
    have hroot : rootBytes r.2.content (Function.update dat₁ k' d') = rootBytes s.content dat :=
      (hw.same _ hs.root_mem (Ne.symm hk₁) (by decide)).content
    have hgap₁ : o ≤ inodeLength (dat₁ k') ∨ Tidy s₁.content (dat₁ k') := by
      rw [hlength]
      exact hgap.imp (fun h => by exact_mod_cast h) hsame.tidy
    have hfpos : f.pos = o := hw.opened.position.trans hat
    have hat' : r.2.position name = some (int32 (o + (r.1 - 2))) := by
      unfold FileSys.position
      rw [hw.file.get, ← hfpos]
      rfl
    refine ⟨_, ⟨hw.session, hw.handle, hroot, hw.same, fun n hn => ?_⟩, ?_⟩
    · unfold FileSys.position
      rw [hw.other n hn]
    · rcases hw.answer o hfpos (by rw [hset]; exact hend) hgap₁ with ⟨hret, hst⟩ | ⟨hret, hun⟩
      · rw [hset] at hret
        refine .inl ⟨hret, ?_, fun ht => ?_, by rw [hat', hret], ?_, fun hin => ?_⟩
        · rw [hself, hw.disk.content, hst.content, hsame.content]
        · rw [hself, hw.disk.content]
          exact hst.tidy (hsame.tidy ht)
        · rw [hw.disk.allocFailures, hst.allocFailures, hstill.disk.allocFailures]
        · rw [hw.disk.freeMap, hst.inside (by rw [hlength, hset]; exact_mod_cast hin),
            hstill.disk.freeMap]
      · refine .inr ⟨hret, ?_, ?_, ?_, fun hmax => ?_⟩
        · rw [hself, hw.disk.content, hun.content, hsame.content]
        · rw [hat', hret]
          rfl
        · have := hun.past
          rw [hlength, hset] at this
          exact_mod_cast this
        · rw [hw.disk.allocFailures, ← hstill.disk.allocFailures]
          exact hun.failed (by rw [hset]; exact hmax)

end WriteAt

end SimpleShell.Fs
