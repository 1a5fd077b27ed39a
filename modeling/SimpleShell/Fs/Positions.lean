import SimpleShell.Fs.FileTable
import SimpleShell.Fs.Fresh

/-!
# Where open files stand

A position moves by what a read or a write answers, less the two bytes that
`file_write` takes off. Reading never goes past the end, so only a write can
leave a file at a negative position: one that is turned down within two bytes of
the start, or one of a single byte at the start.
-/

namespace SimpleShell.Fs

open SimpleShell.Lib

section Loops

variable {d : Sector} {stray : Int → UInt8}

theorem inodeLength_lt (d : Sector) : inodeLength d < 2 ^ 31 := BitVec.toInt_lt

theorem inodeLength_zeros : inodeLength .zeros = 0 := by
  rw [inodeLength, ByteBlock.u32_zeros]
  rfl

/-- The loop of `inode_write_at` writes all of a buffer the file has room for. -/
theorem inodeWriteLoop_length (n : Nat) :
    ∀ {c : BufferCache} {buffer : List UInt8} {o : Nat}, buffer.length ≤ n →
      (o + buffer.length : Int) ≤ inodeLength d →
      (inodeWriteLoop d n c buffer o).1 = buffer.length := by
  induction n with
  | zero =>
      intro c buffer o hn _
      rw [List.length_eq_zero_iff.1 (Nat.le_zero.1 hn)]
      rfl
  | succ n ih =>
      intro c buffer o hn hfit
      rw [inodeWriteLoop]
      split
      · next hsize =>
          obtain ⟨m, hm, hpos, hle, -⟩ := chunkSize_spec hsize (by omega : (o : Int) < inodeLength d)
          have hnext : (o : Int) + m = ((o + m : Nat) : Int) := by omega
          have hdrop : (buffer.drop m).length = buffer.length - m := List.length_drop ..
          simp only [hm, hnext, Int.toNat_natCast]
          rw [if_neg (by omega), ih (by omega) (by rw [hdrop]; omega), hdrop]
          omega
      · omega

/-- It writes nothing past the end of the file. -/
theorem inodeWriteLoop_full (n : Nat) {c : BufferCache} {buffer : List UInt8} {o : Nat}
    (ho : inodeLength d ≤ o) : (inodeWriteLoop d n c buffer o).1 = 0 := by
  cases n with
  | zero => rfl
  | succ n =>
      rw [inodeWriteLoop]
      split
      · dsimp only
        rw [if_pos (chunkSize_nonpos ho)]
      · rfl

/-- A round at any offset takes something, as long as there is something to take. -/
theorem chunkSize_bounds {size offset : Int} (hsize : 0 < size) (ho : offset < inodeLength d) :
    0 < chunkSize d size offset ∧ chunkSize d size offset ≤ size ∧
      chunkSize d size offset ≤ inodeLength d - offset := by
  have hofs : offset.tmod BLOCK_SECTOR_SIZE < BLOCK_SECTOR_SIZE :=
    Int.tmod_lt_of_pos offset (by decide)
  simp only [chunkSize]
  split <;> split <;> omega

theorem length_piece {c : BufferCache} {y : Int → UInt8} {sector : Nat} {ofs chunk : Int} :
    (if ofs = 0 ∧ chunk = BLOCK_SECTOR_SIZE then (c.read sector).1.toList
      else (c.read sector).1.load y ofs chunk.toNat).length = chunk.toNat := by
  split
  · next hfull =>
      rw [hfull.2]
      simp [ByteBlock.toList]
  · exact ByteBlock.length_load ..

/-- The loop of `inode_read_at` stops at the end of the file. -/
theorem inodeReadLoop_length {y : Int → UInt8} (n : Nat) :
    ∀ {c : BufferCache} {z : Int} {o : Nat},
      (o + (inodeReadLoop y d n c z o).1.length : Int) ≤ max (o : Int) (inodeLength d) := by
  induction n with
  | zero =>
      intro c z o
      simp [inodeReadLoop]
  | succ n ih =>
      intro c z o
      rw [inodeReadLoop]
      split
      · next hsize =>
          rcases Int.lt_or_le o (inodeLength d) with ho | ho
          · obtain ⟨m, hm, hpos, hle, hlen, -⟩ := chunkSize_spec hsize ho
            have hnext : (o : Int) + m = ((o + m : Nat) : Int) := by omega
            simp only [hm, hnext, Int.toNat_natCast]
            rw [if_neg (by omega), List.length_append]
            have hrest := ih (c := ((byteToSector c d o).2.read (byteToSector c d o).1).2)
              (z := z - m) (o := o + m)
            have hpiece : (if (o : Int).tmod BLOCK_SECTOR_SIZE = 0 ∧ (m : Int) = BLOCK_SECTOR_SIZE
                then ((byteToSector c d o).2.read (byteToSector c d o).1).1.toList
                else ((byteToSector c d o).2.read (byteToSector c d o).1).1.load y
                  ((o : Int).tmod BLOCK_SECTOR_SIZE) m).length = m := length_piece
            rw [hpiece]
            omega
          · simp only []
            rw [if_pos (chunkSize_nonpos ho)]
            simp
      · simp

/-- How many bytes are read from any offset. -/
theorem inodeReadLoop_count {y : Int → UInt8} (n : Nat) :
    ∀ {c : BufferCache} {size offset : Int}, size.toNat ≤ n →
      (inodeReadLoop y d n c size offset).1.length =
        (min size (inodeLength d - offset)).toNat := by
  induction n with
  | zero =>
      intro c size offset hn
      simp only [inodeReadLoop, List.length_nil]
      omega
  | succ n ih =>
      intro c size offset hn
      rw [inodeReadLoop]
      split
      · next hsize =>
          rcases Int.lt_or_le offset (inodeLength d) with ho | ho
          · obtain ⟨hpos, hle, hleft⟩ := chunkSize_bounds hsize ho
            dsimp only
            rw [if_neg (by omega), List.length_append, length_piece, ih (by omega)]
            omega
          · have hchunk : chunkSize d size offset ≤ 0 := by
              simp only [chunkSize]
              split <;> split <;> omega
            dsimp only
            rw [if_pos hchunk, List.length_nil]
            omega
      · rw [List.length_nil]
        omega

end Loops

/-! ## Writes that are turned down -/

/-- `inode_write_at` does not turn down a write of `size` bytes: writing is not
denied, and the file has the last byte or can be extended up to it. -/
def acceptsWrite (s : FileSys) (f : File) (size : Nat) : Bool :=
  let i := s.inode f.inode
  let last := byteToSector s.cache i.data (int32 (f.pos + size - 1))
  let e := inodeExtend allocSector { s with cache := last.2 } f.inode (int32 (f.pos + size))
  i.denyWriteCnt == 0 &&
    (last.1 != NO_SECTOR || (e.1 && (e.2.mem.inodes.get? f.inode).isSome))

section Accepts

variable {s : FileSys} {f : File} {p : Nat} {n : Int} {alloc : Alloc} {buffer : List UInt8}

/-- What an inode is after a store of its length: a dead pointer reads as nothing. -/
theorem FileSys.inodeLength_setData (h₀ : 0 ≤ n) (h₁ : n < 2 ^ 31) (d : Sector) :
    inodeLength ((s.setData p (setLength d n)).inode p).data =
      if ((s.setData p (setLength d n)).mem.inodes.get? p).isSome then n else 0 := by
  cases hget : s.mem.inodes.get? p with
  | some i =>
      have hlive : s.mem.inodes.get? p = some (s.inode p) := by
        rw [FileSys.inode, hget]
        rfl
      rw [FileSys.inode_setData hlive, FileSys.get?_setData hlive, if_pos rfl]
      exact inodeLength_setLength h₀ h₁
  | none =>
      have hlost : s.setData p (setLength d n) = s := by
        unfold FileSys.setData FileSys.setInode
        rw [Heap.set_of_none hget]
      rw [hlost, FileSys.inode, hget]
      exact inodeLength_zeros

/-- What `inode_write_at` has when it has extended a file. -/
theorem inodeExtend_true (hn : n < 2 ^ 31) (h : (inodeExtend alloc s p n).1 = true) :
    0 ≤ n ∧ inodeLength ((inodeExtend alloc s p n).2.inode p).data =
      if ((inodeExtend alloc s p n).2.mem.inodes.get? p).isSome then n else 0 := by
  have hneg : 0 ≤ n := by
    by_contra hlt
    have hres : inodeReserve alloc s (s.inode p).data n = ((false, (s.inode p).data), s) := by
      rw [inodeReserve, if_pos (by omega)]
    unfold inodeExtend at h
    rw [hres] at h
    exact absurd h (by simp)
  refine ⟨hneg, ?_⟩
  unfold inodeExtend at h ⊢
  generalize inodeReserve alloc s (s.inode p).data n = t at h ⊢
  dsimp only at h ⊢
  split
  · next hfail =>
      rw [if_pos hfail] at h
      exact absurd h (by simp)
  · exact FileSys.inodeLength_setData (s := t.2.setData p t.1.2) hneg hn t.1.2

/-- A byte that has a sector is inside the file. -/
theorem lt_length_of_byteToSector {c : BufferCache} {d : Sector} {o : Int}
    (h : (byteToSector c d o).1 ≠ NO_SECTOR) : 0 ≤ o ∧ o < inodeLength d := by
  unfold byteToSector at h
  split at h
  · next ho => exact ho
  · exact absurd rfl h

theorem int32_nonneg {x : Int} (h₀ : 0 ≤ x) (h₁ : x < 2 ^ 32) (h : 0 ≤ int32 x) : x < 2 ^ 31 := by
  rw [int32_bmod, Int.bmod_def] at h
  split at h
  · omega
  · omega

/-- When the last byte has no sector the file is extended first. -/
theorem inodeWriteAt_of_missing {offset : Int} {last : Nat × BufferCache} {e : Bool × FileSys}
    (hdeny : (s.inode p).denyWriteCnt = 0)
    (hlast : byteToSector s.cache (s.inode p).data (int32 (offset + buffer.length - 1)) = last)
    (hmiss : last.1 = NO_SECTOR)
    (he : inodeExtend alloc { s with cache := last.2 } p (int32 (offset + buffer.length)) = e) :
    (inodeWriteAt alloc s p buffer offset).1 =
      if e.1 = false then 0
      else (inodeWriteLoop (e.2.inode p).data buffer.length e.2.cache buffer offset).1 := by
  unfold inodeWriteAt
  rw [if_neg (not_not.2 hdeny)]
  dsimp only
  rw [hlast, if_pos hmiss, he]
  split
  · rfl
  · rfl

/-- A write is done in full or turned down. -/
theorem inodeWriteAt_fst {o : Nat} (ho : o < 2 ^ 31) (hpos : 0 < buffer.length)
    (hlen : buffer.length < 2 ^ 31) (hf : f.pos = o) :
    (inodeWriteAt allocSector s f.inode buffer o).1 =
        (if acceptsWrite s f buffer.length then buffer.length else 0 : Nat) ∧
      (acceptsWrite s f buffer.length → (o + buffer.length : Int) < 2 ^ 31) := by
  obtain ⟨last, hlast⟩ : ∃ last, byteToSector s.cache (s.inode f.inode).data
    (int32 (o + buffer.length - 1)) = last := ⟨_, rfl⟩
  obtain ⟨e, he⟩ : ∃ e, inodeExtend allocSector { s with cache := last.2 } f.inode
    (int32 (o + buffer.length)) = e := ⟨_, rfl⟩
  have haccepts : acceptsWrite s f buffer.length = ((s.inode f.inode).denyWriteCnt == 0 &&
      (last.1 != NO_SECTOR || (e.1 && (e.2.mem.inodes.get? f.inode).isSome))) := by
    unfold acceptsWrite
    dsimp only
    rw [hf, hlast, he]
  by_cases hdeny : (s.inode f.inode).denyWriteCnt = 0
  · by_cases hmiss : last.1 = NO_SECTOR
    · rw [inodeWriteAt_of_missing hdeny hlast hmiss he, haccepts, hdeny, hmiss]
      simp only [beq_self_eq_true, bne_self_eq_false, Bool.false_or, Bool.true_and]
      cases hdone : e.1 with
      | false => exact ⟨rfl, fun h => absurd h (by simp)⟩
      | true =>
          obtain ⟨hnonneg, hlength⟩ := inodeExtend_true
            (s := { s with cache := last.2 }) (p := f.inode) BitVec.toInt_lt
            (by rw [he]; exact hdone)
          have hsum : (o + buffer.length : Int) < 2 ^ 31 :=
            int32_nonneg (by omega) (by omega) hnonneg
          rw [he, int32_eq (by omega) hsum] at hlength
          refine ⟨?_, fun _ => hsum⟩
          simp only [Bool.true_eq_false, if_false, Bool.true_and]
          cases hlive : (e.2.mem.inodes.get? f.inode).isSome with
          | true =>
              rw [hlive, if_pos rfl] at hlength
              exact inodeWriteLoop_length _ (Nat.le_refl _) (by omega)
          | false =>
              rw [hlive, if_neg Bool.false_ne_true] at hlength
              exact inodeWriteLoop_full _ (by omega)
    · have hin := lt_length_of_byteToSector (by rw [hlast]; exact hmiss)
      have hlt := inodeLength_lt (s.inode f.inode).data
      have hsum : (o + buffer.length - 1 : Int) < 2 ^ 31 :=
        int32_nonneg (by omega) (by omega) hin.1
      rw [int32_eq (by omega) hsum] at hin
      have hyes : acceptsWrite s f buffer.length = true := by
        rw [haccepts, hdeny]
        simp [hmiss]
      rw [inodeWriteAt_of_found hdeny (by rw [hlast]; exact hmiss), hyes]
      exact ⟨inodeWriteLoop_length _ (Nat.le_refl _) (by omega), fun _ => by omega⟩
  · have hno : acceptsWrite s f buffer.length = false := by
      rw [haccepts]
      simp [hdeny]
    rw [hno]
    refine ⟨?_, fun h => absurd h (by simp)⟩
    unfold inodeWriteAt
    rw [if_pos hdeny]
    rfl

theorem fileWrite_fst (h₀ : 0 ≤ f.pos) (h₁ : f.pos < 2 ^ 31) (hpos : 0 < buffer.length)
    (hlen : buffer.length < 2 ^ 31) :
    (fileWrite s f buffer).1.1 =
        (if acceptsWrite s f buffer.length then buffer.length else 0 : Nat) ∧
      (acceptsWrite s f buffer.length → f.pos + buffer.length < 2 ^ 31) := by
  obtain ⟨o, ho⟩ := Int.eq_ofNat_of_zero_le h₀
  have hset : (buffer.set (buffer.length - 1) 0).length = buffer.length := List.length_set
  have h := inodeWriteAt_fst (s := s)
    (by omega : o < 2 ^ 31) (by rw [hset]; exact hpos) (by rw [hset]; exact hlen) ho
  rw [hset] at h
  unfold fileWrite
  dsimp only
  rw [ho]
  exact h

end Accepts

/-! ## The table of open files -/

/-- Every open file stands at a position `P` holds of. -/
def AllAt (P : Int → Prop) (s : FileSys) : Prop := ∀ e ∈ s.mem.fileTable, P e.2.pos

section Table

variable {P : Int → Prop} {s s' : FileSys} {name : CString} {f g : File}

theorem SameFiles.allAt (h : SameFiles s s') (hs : AllAt P s) : AllAt P s' := by
  intro e he
  rw [h.1] at he
  exact hs e he

theorem filesysOpen_pos (h : (filesysOpen s name).1 = some f) : f.pos = 0 := by
  unfold filesysOpen at h
  split at h
  · exact absurd h (by simp)
  · dsimp only at h
    generalize (if 0 < (splitPathFilename name).2.length then _ else _ : Option Nat × FileSys) = r
      at h
    split at h
    · exact absurd h (by simp)
    · split at h
      · exact absurd h (by simp)
      · rw [← Option.some.inj h]
        rfl

theorem openFile_none (h : (openFile s name).1 = none) : SameFiles s (openFile s name).2 := by
  unfold openFile at h ⊢
  split
  · next f hget =>
      rw [hget] at h
      exact absurd h (by simp)
  · next hget =>
      have hopen := filesysOpen_sameFiles s name
      rw [hget] at h
      dsimp only at h ⊢
      split
      · exact hopen
      · next f hf =>
          rw [hf] at h
          exact absurd h (by simp)

/-- What the table holds once a file is open. -/
theorem openFile_some (h : (openFile s name).1 = some f) :
    (openFile s name).2.mem.fileTable = s.mem.fileTable ∧ (name, f) ∈ s.mem.fileTable ∨
      (openFile s name).2.mem.fileTable = s.mem.fileTable ++ [(name, f)] ∧ f.pos = 0 := by
  unfold openFile at h ⊢
  split
  · next g hget =>
      rw [hget] at h
      rw [← Option.some.inj h]
      exact .inl ⟨rfl, mem_fileTable_of_get hget⟩
  · next hget =>
      have hopen := filesysOpen_sameFiles s name
      rw [hget] at h
      dsimp only at h ⊢
      split
      · next hnone =>
          rw [hnone] at h
          exact absurd h (by simp)
      · next g hg =>
          rw [hg] at h
          obtain rfl : g = f := Option.some.inj h
          have hnew : getFileByFname (filesysOpen s name).2 name = none := by
            rw [getFileByFname_congr hopen.1, hget]
          refine .inr ⟨?_, filesysOpen_pos hg⟩
          unfold addToFileTable
          rw [hnew, ← hopen.1]

theorem openFile_mem (h : (openFile s name).1 = some f) :
    (name, f) ∈ (openFile s name).2.mem.fileTable := by
  rcases openFile_some h with ⟨htab, hmem⟩ | ⟨htab, -⟩
  · rw [htab]
    exact hmem
  · rw [htab]
    exact List.mem_append_right _ List.mem_cons_self

theorem openFile_allAt {n : CString} (h₀ : P 0) (hs : AllAt P s) : AllAt P (openFile s n).2 := by
  cases h : (openFile s n).1 with
  | none => exact (openFile_none h).allAt hs
  | some f =>
      intro e he
      rcases openFile_some h with ⟨htab, -⟩ | ⟨htab, hpos⟩
      · rw [htab] at he
        exact hs e he
      · rw [htab, List.mem_append, List.mem_singleton] at he
        rcases he with he | rfl
        · exact hs e he
        · rw [hpos]
          exact h₀

theorem openFile_at {n : CString} (h₀ : P 0) (hs : AllAt P s) (h : (openFile s n).1 = some f) : P f.pos :=
  openFile_allAt h₀ hs _ (openFile_mem h)

theorem setFile_allAt (hs : AllAt P s) (hmem : (name, f) ∈ s.mem.fileTable) :
    AllAt P (setFile s name g) ↔ P g.pos := by
  constructor
  · exact fun h => h (name, g) (mem_setFile.2 (.inl ⟨rfl, rfl, f, hmem⟩))
  · rintro hg ⟨n, x⟩ hx
    rcases mem_setFile.1 hx with ⟨-, rfl, -⟩ | ⟨-, hold⟩
    · exact hg
    · exact hs _ hold

theorem removeFromFileTable_allAt (hs : AllAt P s) : AllAt P (removeFromFileTable s name) := by
  unfold removeFromFileTable
  split
  · exact hs
  · next f _ =>
      intro e he
      have he : e ∈ (fileClose s f).mem.fileTable.eraseP fun e => e.1 == name := he
      exact (fileClose_sameFiles s f).allAt hs e (List.mem_of_mem_eraseP he)

/-- A command that works on the file it has opened and leaves the others alone. -/
theorem allAt_useFile {n : CString} {t : FileSys} (h₀ : P 0) (hs : AllAt P s)
    (h : (openFile s n).1 = some f) (ht : SameFiles (openFile s n).2 t) :
    AllAt P (setFile t n g) ↔ P g.pos :=
  setFile_allAt (ht.allAt (openFile_allAt h₀ hs)) (by rw [ht.1]; exact openFile_mem h)

end Table

/-! ## The commands -/

section Commands

variable {P : Int → Prop} {s s' : FileSys} {name : CString} {f g : File} {buffer : List UInt8}
  {size offset : Int}

theorem fsutilSize_allAt (h₀ : P 0) (hs : AllAt P s) : AllAt P (fsutilSize s name).2 := by
  have hopen := openFile_allAt h₀ hs (n := name)
  have huse := fun f g => allAt_useFile (f := f) (g := g) h₀ hs (n := name) (t := (openFile s name).2)
  have hat := fun f => openFile_at (f := f) h₀ hs (n := name)
  unfold fsutilSize
  generalize openFile s name = o at *
  dsimp only
  split
  · exact hopen
  · next f hf => exact (huse f _ hf (.refl _)).2 (hat f hf)

theorem fsutilSeek_allAt (h₀ : P 0) (hs : AllAt P s) (hoff : P offset) :
    AllAt P (fsutilSeek s name offset).2 := by
  have hopen := openFile_allAt h₀ hs (n := name)
  have huse := fun f g => allAt_useFile (f := f) (g := g) h₀ hs (n := name) (t := (openFile s name).2)
  unfold fsutilSeek
  generalize openFile s name = o at *
  dsimp only
  split
  · exact hopen
  · next f hf => exact (huse f _ hf (.refl _)).2 hoff

theorem fsutilRead_allAt (h₀ : P 0) (hs : AllAt P s)
    (hread : ∀ f, (openFile s name).1 = some f →
      P (fileRead (openFile s name).2 f size).1.2.pos) :
    AllAt P (fsutilRead s name size).2 := by
  have hopen := openFile_allAt h₀ hs (n := name)
  have huse := fun f g => allAt_useFile (f := f) (g := g) h₀ hs (n := name)
    (t := (fileRead (openFile s name).2 f size).2)
  unfold fsutilRead
  generalize openFile s name = o at *
  dsimp only
  split
  · exact hopen
  · next f hf => exact (huse f _ hf (.refl _)).2 (hread f hf)

/-- Everything hangs on where the write leaves its own file. -/
theorem fsutilWrite_allAt (h₀ : P 0) (hs : AllAt P s) :
    AllAt P (fsutilWrite s name buffer).2 ↔ ∀ f, (openFile s name).1 = some f →
      P (fileWrite (openFile s name).2 f buffer).1.2.pos := by
  have hopen := openFile_allAt h₀ hs (n := name)
  have huse := fun f g => allAt_useFile (f := f) (g := g) h₀ hs (n := name)
    (t := (fileWrite (openFile s name).2 f buffer).2)
  unfold fsutilWrite
  generalize openFile s name = o at *
  dsimp only
  split
  · next hnone => exact ⟨fun _ f hf => absurd (hnone.symm.trans hf) (by simp), fun _ => hopen⟩
  · next f hf =>
      rw [huse f _ hf (fileWrite_sameFiles o.2 f buffer)]
      constructor
      · intro h g hg
        rw [← Option.some.inj (hf.symm.trans hg)]
        exact h
      · exact fun h => h f hf

theorem fsutilRm_allAt (hs : AllAt P s) : AllAt P (fsutilRm s name).2 :=
  (filesysRemove_sameFiles _ name).allAt (removeFromFileTable_allAt hs)

theorem catLoop_sameFiles (size : Int) (n : Nat) :
    ∀ (s : FileSys) (f : File), SameFiles s (catLoop size n s f).2 := by
  induction n with
  | zero => exact fun s _ => .refl s
  | succ n ih =>
      intro s f
      have hread : SameFiles s (fileRead s f size).2 := .refl _
      rw [catLoop]
      dsimp only
      split
      · exact hread
      · exact hread.trans (ih _ _)

theorem fsutilCat_allAt (h₀ : P 0) (hs : AllAt P s) : AllAt P (fsutilCat s name).2 := by
  have hopen := openFile_allAt h₀ hs (n := name)
  have huse := fun f g t => allAt_useFile (f := f) (g := g) h₀ hs (n := name) (t := t)
  have hat := fun f => openFile_at (f := f) h₀ hs (n := name)
  unfold fsutilCat
  generalize openFile s name = o at *
  dsimp only
  split
  · exact hopen
  · next f hf =>
      have hcat := catLoop_sameFiles (fileLength o.2 f) ((fileLength o.2 f).toNat + 1) o.2
        (fileSeek f 0)
      generalize catLoop (fileLength o.2 f) ((fileLength o.2 f).toNat + 1) o.2
        (fileSeek f 0) = r at hcat ⊢
      have hset : AllAt P (setFile r.2 name (fileSeek r.1.2 f.pos)) :=
        (huse f (fileSeek r.1.2 f.pos) r.2 hf hcat).2 (hat f hf)
      split
      · exact removeFromFileTable_allAt hset
      · exact hset

/-- A read from inside the range of a position stays in it. -/
theorem fileRead_pos (h₀ : 0 ≤ f.pos) (h₁ : f.pos < 2 ^ 31) :
    0 ≤ (fileRead s f size).1.2.pos := by
  obtain ⟨o, ho⟩ := Int.eq_ofNat_of_zero_le h₀
  have hlen := inodeReadLoop_length (y := s.mem.stray) (d := (s.inode f.inode).data)
    size.toNat (c := s.cache) (z := size) (o := o)
  have hlt := inodeLength_lt (s.inode f.inode).data
  change 0 ≤ int32 (f.pos + (inodeReadLoop s.mem.stray (s.inode f.inode).data size.toNat s.cache
    size f.pos).1.length)
  rw [ho]
  rw [ho] at h₁
  rw [int32_eq (by omega) (by omega)]
  omega

/-- Where a write leaves its file. -/
theorem fileWrite_pos (h₀ : 0 ≤ f.pos) (h₁ : f.pos < 2 ^ 31) (hpos : 0 < buffer.length)
    (hlen : buffer.length < 2 ^ 31) :
    0 ≤ (fileWrite s f buffer).1.2.pos ↔
      if acceptsWrite s f buffer.length then 2 ≤ f.pos + buffer.length else 2 ≤ f.pos := by
  obtain ⟨hw, hsum⟩ := fileWrite_fst (s := s) h₀ h₁ hpos hlen
  change 0 ≤ int32 (f.pos + ((fileWrite s f buffer).1.1 - 2)) ↔ _
  rw [hw]
  split
  · next hyes =>
      have hsum := hsum hyes
      rw [int32_eq (by omega) (by omega)]
      omega
  · rw [int32_eq (by omega) (by omega)]
    omega

end Commands

/-! ## Sequences of commands -/

/-- No open file stands before its start. -/
def FileSys.PositionsValid (s : FileSys) : Prop := AllAt (0 ≤ ·) s

/-- The commands in question, on any names: offsets and lengths are `int`s, and
a file is sought to no negative offset. -/
def Command.Positioned : Command → Prop
  | .create _ _ | .read _ _ | .size _ | .cat _ | .rm _ => True
  | .seek _ offset => 0 ≤ offset ∧ offset < 2 ^ 31
  | .write _ words => (writeBuffer words).length < 2 ^ 31
  | .copyIn _ content => content.length + 1 < 2 ^ 31
  | _ => False

/-- Writing `size` bytes to `name` does not move it before its start: a write
that is done has two bytes to take off, and one that is turned down finds the
file two bytes from its start or further. -/
def FileSys.WriteKeeps (s : FileSys) (name : CString) (size : Nat) : Prop :=
  ∀ f, (openFile s name).1 = some f →
    if acceptsWrite (openFile s name).2 f size then 2 ≤ f.pos + size else 2 ≤ f.pos

/-- How much of a host file and its NUL `copy_in` writes: as many bytes as there
are free sectors. -/
def copySize (s : FileSys) (content : List UInt8) : Nat :=
  min s.freeSectors (content.length + 1)

/-- The command moves no file before its start. -/
def FileSys.StepKeeps (s : FileSys) : Command → Prop
  | .write name words => words ≠ [] → s.WriteKeeps name (writeBuffer words).length
  | .copyIn name content =>
      s.freeSectors ≠ 0 →
        (fsutilCreate s name (copySize s content)).2.WriteKeeps name (copySize s content)
  | _ => True

section Steps

variable {P : Int → Prop} {s : FileSys} {name : CString} {buffer content : List UInt8}
  {command : Command}

theorem copyIn_eq (s : FileSys) (name : CString) (content : List UInt8) :
    (copyIn s name content).2 =
      if s.freeSectors = 0 then s
      else (fsutilWrite (fsutilCreate s name (copySize s content)).2 name
        ((content ++ [0]).take (copySize s content))).2 := by
  unfold copyIn copySize
  dsimp only
  split
  · rfl
  · split
    · next hless => rw [Nat.min_eq_left (Nat.le_of_lt hless)]
    · next hmore =>
        rw [Nat.min_eq_right (Nat.le_of_not_lt hmore), List.take_of_length_le (by simp)]
        rfl

theorem length_take_copySize (s : FileSys) (content : List UInt8) :
    ((content ++ [0]).take (copySize s content)).length = copySize s content := by
  rw [List.length_take, List.length_append, List.length_singleton]
  exact Nat.min_eq_left (Nat.min_le_right ..)

theorem fsutilWrite_bounded (hs : AllAt (· < 2 ^ 31) s) :
    AllAt (· < 2 ^ 31) (fsutilWrite s name buffer).2 :=
  (fsutilWrite_allAt (by decide) hs).2 fun _ _ => BitVec.toInt_lt

/-- A position is a 32-bit number whatever happens. -/
theorem exec_bounded (hs : AllAt (· < 2 ^ 31) s) (hc : command.Positioned) :
    AllAt (· < 2 ^ 31) (s.exec command) := by
  cases command with
  | create name size => exact (fsutilCreate_sameFiles s name size).allAt hs
  | write name words =>
      rw [FileSys.exec]
      split
      · exact hs
      · exact fsutilWrite_bounded hs
  | read name size => exact fsutilRead_allAt (by decide) hs fun _ _ => BitVec.toInt_lt
  | seek name offset => exact fsutilSeek_allAt (by decide) hs hc.2
  | size name => exact fsutilSize_allAt (by decide) hs
  | cat name => exact fsutilCat_allAt (by decide) hs
  | rm name => exact fsutilRm_allAt hs
  | copyIn name content =>
      rw [FileSys.exec, copyIn_eq]
      split
      · exact hs
      · exact fsutilWrite_bounded ((fsutilCreate_sameFiles s name _).allAt hs)
  | ls => exact absurd hc id
  | findFile => exact absurd hc id
  | fragmentationDegree => exact absurd hc id
  | recover0 => exact absurd hc id
  | copyOut name => exact absurd hc id
  | freespace => exact absurd hc id
  | defragment junk => exact absurd hc id

theorem fsutilWrite_valid (hs : s.PositionsValid) (hb : AllAt (· < 2 ^ 31) s)
    (hpos : 0 < buffer.length) (hlen : buffer.length < 2 ^ 31) :
    (fsutilWrite s name buffer).2.PositionsValid ↔ s.WriteKeeps name buffer.length := by
  refine (fsutilWrite_allAt (le_refl 0) hs).trans (forall_congr' fun f => ?_)
  refine forall_congr' fun hf => ?_
  exact fileWrite_pos (openFile_at (P := (0 ≤ ·)) (le_refl 0) hs hf)
    (openFile_at (P := (· < 2 ^ 31)) (by decide) hb hf) hpos hlen

/-- What one command does to the positions. -/
theorem exec_valid (hs : s.PositionsValid) (hb : AllAt (· < 2 ^ 31) s)
    (hc : command.Positioned) : (s.exec command).PositionsValid ↔ s.StepKeeps command := by
  cases command with
  | create name size => exact iff_of_true ((fsutilCreate_sameFiles s name size).allAt hs) trivial
  | write name words =>
      have hlen := length_writeBuffer words
      rw [FileSys.exec]
      split
      · next hwords => exact iff_of_true hs fun hne => absurd hwords hne
      · next hwords =>
          rw [fsutilWrite_valid hs hb (by omega) hc]
          exact ⟨fun h _ => h, fun h => h hwords⟩
  | read name size =>
      refine iff_of_true (fsutilRead_allAt (le_refl 0) hs fun f hf => ?_) trivial
      exact fileRead_pos (openFile_at (P := (0 ≤ ·)) (le_refl 0) hs hf)
        (openFile_at (P := (· < 2 ^ 31)) (by decide) hb hf)
  | seek name offset => exact iff_of_true (fsutilSeek_allAt (le_refl 0) hs hc.1) trivial
  | size name => exact iff_of_true (fsutilSize_allAt (le_refl 0) hs) trivial
  | cat name => exact iff_of_true (fsutilCat_allAt (le_refl 0) hs) trivial
  | rm name => exact iff_of_true (fsutilRm_allAt hs) trivial
  | copyIn name content =>
      have hcreate := fsutilCreate_sameFiles s name (copySize s content)
      have hsize := length_take_copySize s content
      have hle : copySize s content ≤ content.length + 1 := Nat.min_le_right ..
      have hlt : content.length + 1 < 2 ^ 31 := hc
      rw [FileSys.exec, copyIn_eq]
      split
      · next hnone => exact iff_of_true hs fun hne => absurd hnone hne
      · next hsome =>
          have hpos : 0 < copySize s content :=
            Nat.lt_min.2 ⟨Nat.pos_of_ne_zero hsome, Nat.succ_pos _⟩
          rw [fsutilWrite_valid (hcreate.allAt hs) (hcreate.allAt hb) (by omega) (by omega), hsize]
          exact ⟨fun h _ => h, fun h => h hsome⟩
  | ls => exact absurd hc id
  | findFile => exact absurd hc id
  | fragmentationDegree => exact absurd hc id
  | recover0 => exact absurd hc id
  | copyOut name => exact absurd hc id
  | freespace => exact absurd hc id
  | defragment junk => exact absurd hc id

end Steps

section Runs

variable {s : FileSys} {command : Command} {commands : List Command}

theorem take_succ_run {i : Nat} (hi : i < commands.length) :
    s.run (commands.take (i + 1)) = (s.run (commands.take i)).exec commands[i] := by
  rw [List.take_succ_eq_append_getElem hi]
  exact List.foldl_append ..

theorem run_bounded (hs : AllAt (· < 2 ^ 31) s) (hc : ∀ command ∈ commands, command.Positioned)
    (i : Nat) : AllAt (· < 2 ^ 31) (s.run (commands.take i)) := by
  induction i with
  | zero => exact hs
  | succ i ih =>
      rcases Nat.lt_or_ge i commands.length with hi | hi
      · rw [take_succ_run hi]
        exact exec_bounded ih (hc _ (List.getElem_mem hi))
      · rw [List.take_of_length_le (by omega)]
        rw [List.take_of_length_le hi] at ih
        exact ih

/-- A run keeps the positions valid as long as every step does. -/
theorem run_valid (hs : s.PositionsValid) (hb : AllAt (· < 2 ^ 31) s)
    (hc : ∀ command ∈ commands, command.Positioned) :
    (∀ i ≤ commands.length, (s.run (commands.take i)).PositionsValid) ↔
      ∀ i, ∀ hi : i < commands.length, (s.run (commands.take i)).StepKeeps commands[i] := by
  constructor
  · intro h i hi
    refine (exec_valid (h i (by omega)) (run_bounded hb hc i) (hc _ (List.getElem_mem hi))).1 ?_
    rw [← take_succ_run hi]
    exact h (i + 1) hi
  · intro h i
    induction i with
    | zero => exact fun _ => hs
    | succ i ih =>
        intro hi
        rw [take_succ_run hi]
        exact (exec_valid (ih (by omega)) (run_bounded hb hc i) (hc _ (List.getElem_mem hi))).2
          (h i hi)

/-- What is read or written from where the open files stand is in sectors of the
device. -/
def FileSys.InDevice (s : FileSys) : Prop :=
  ∀ e ∈ s.mem.fileTable, ∀ o : Int, e.2.pos ≤ o → o < inodeLength (s.inode e.2.inode).data →
    (byteToSector s.cache (s.inode e.2.inode).data o).1 < s.cache.size

theorem Reachable.inDevice (h : Reachable s) (hs : s.PositionsValid) : s.InDevice := by
  obtain ⟨D, K, dat, hses⟩ := h.session
  rintro ⟨name, f⟩ he o hpos ho
  obtain ⟨-, k, hk, hopened⟩ := hses.opened he
  obtain ⟨i, rfl⟩ := Int.eq_ofNat_of_zero_le (le_trans (hs _ he) hpos)
  have hok : FileOk s.content s.cache.size (s.inode f.inode).data := by
    rw [hopened.isOpen.data]
    exact hses.mounted.vol.file k (hses.names.listed name k hk)
  have hlt := lt_sectors ho
  rw [byteToSector_fst hok ho]
  exact hok.mapped.lt _ (leafSlot_mem hlt (Nat.lt_of_lt_of_le hlt hok.sectors_le))

/-- On every disk, positions stay valid exactly when every write finds its file
where it does not take it before its start; then, on a formatted one, the ordinary
commands reach sectors of the device only. -/
theorem positionsValid_iff (format : Bool) (c : CacheState) (stray : Int → UInt8)
    (commands : List Command) (hc : ∀ command ∈ commands, command.Positioned) :
    let s := (filesysInit format c stray).2
    ((∀ i ≤ commands.length, (s.run (commands.take i)).PositionsValid) ↔
      ∀ i, ∀ hi : i < commands.length, (s.run (commands.take i)).StepKeeps commands[i]) ∧
    (format = true → (filesysInit format c stray).1 = true →
      (∀ command ∈ commands, command.Ordinary) → ∀ i ≤ commands.length,
        (s.run (commands.take i)).PositionsValid → (s.run (commands.take i)).InDevice) := by
  intro s
  have htable : s.mem.fileTable = [] := filesysInit_fileTable format c stray
  have hall : ∀ P : Int → Prop, AllAt P s := by
    intro P e he
    rw [htable] at he
    exact absurd he List.not_mem_nil
  refine ⟨run_valid (hall _) (hall _) hc, fun hformat hdone hord i _ hvalid => ?_⟩
  subst hformat
  have hpair : ∀ r : Bool × FileSys, r.1 = true → r = (true, r.2) := fun r h => Prod.ext h rfl
  have hs : Reachable s := .format (hpair _ hdone)
  exact (hs.run fun x hx => hord x (List.mem_of_mem_take hx)).inDevice hvalid

theorem positionsValid_iff_copyIn :
    (∀ i ≤ 1, ((filesysInit true (blankDisk 200) fun _ => 0).2.run
        ([.copyIn [97] []].take i)).PositionsValid) ↔
      ∀ i, ∀ hi : i < [Command.copyIn [97] []].length,
        ((filesysInit true (blankDisk 200) fun _ => 0).2.run
          ([.copyIn [97] []].take i)).StepKeeps [Command.copyIn [97] []][i] :=
  (positionsValid_iff true (blankDisk 200) (fun _ => 0) [.copyIn [97] []]
    (by simp [Command.Positioned])).1

/-- An empty host file is one NUL to write, and its file ends up before its start. -/
theorem copyIn_position : ∃ s, filesysInit true (blankDisk 200) (fun _ => 0) = (true, s) ∧
    ¬ (s.run [.copyIn [97] []]).PositionsValid := by
  obtain ⟨s, hs, hreach, hfree, -, habs, hcreate⟩ := blankDisk_create 1 (by decide) (by decide)
  obtain ⟨D, K, dat, hses⟩ := hreach.session
  rw [hses.entries] at habs
  have hsize : copySize s [] = 1 := by
    unfold copySize
    rw [hfree]
    rfl
  have hpos : (fsutilWrite (fsutilCreate s [97] (1 : Nat)).2 [97] [0]).2.position [97] =
      some (((1 : Nat) : Int) - 2) :=
    (fsutilWrite_new hses plainName_a habs (by decide) hcreate (List.length_pos_iff.2 (by decide)) rfl).1
  have heq : s.run [.copyIn [97] []] = (fsutilWrite (fsutilCreate s [97] (1 : Nat)).2 [97] [0]).2 := by
    change (copyIn s [97] []).2 = _
    rw [copyIn_eq, if_neg (by omega), hsize]
    rfl
  refine ⟨s, hs, fun hvalid => ?_⟩
  rw [heq] at hvalid
  generalize (fsutilWrite (fsutilCreate s [97] (1 : Nat)).2 [97] [0]).2 = t at hpos hvalid
  obtain ⟨f, hf, hfpos⟩ := Option.map_eq_some_iff.1 hpos
  have hnonneg : 0 ≤ f.pos := hvalid ([97], f) (mem_fileTable_of_get hf)
  rw [hfpos] at hnonneg
  exact absurd hnonneg (by decide)

end Runs

end SimpleShell.Fs
