import SimpleShell.Fs.Recover
import SimpleShell.Fs.Positions

/-!
# Writes that reserve nothing

`inode_write_at` returns 0 when `inode_reserve` does not make the file long enough.
`file_write` then moves the position back all the same, by the two bytes that it takes
off whatever was written, so no failed write leaves everything as it was.
-/

namespace SimpleShell.Fs

open SimpleShell.Lib

/-- The write of `size` bytes at `offset` needs more of the file than there is, and
`inode_reserve` does not get it. -/
structure ReserveFails (s : FileSys) (p size : Nat) (offset : Int) : Prop where
  writable : (s.inode p).denyWriteCnt = 0
  missing : (byteToSector s.cache (s.inode p).data (int32 (offset + size - 1))).1 = NO_SECTOR
  reserve : (inodeReserve allocSector
    { s with cache := (byteToSector s.cache (s.inode p).data (int32 (offset + size - 1))).2 }
    (s.inode p).data (int32 (offset + size))).1.1 = false

/-- The free map, the inode in memory, the bytes of every file and the position of the open
file are what they were. -/
structure NoEffect (s s' : FileSys) (f f' : File) : Prop where
  freeMap : s'.freeMap = s.freeMap
  inode : (s'.inode f.inode).data = (s.inode f.inode).data
  files : ∀ k, s'.bytes k = s.bytes k
  position : f'.pos = f.pos

section FailedWrite

variable {s : FileSys} {f : File} {buffer : List UInt8}

theorem inodeExtend_false {alloc : Alloc} {p : Nat} {length : Int}
    (h : (inodeReserve alloc s (s.inode p).data length).1.1 = false) :
    (inodeExtend alloc s p length).1 = false := by
  unfold inodeExtend
  dsimp only
  rw [if_pos h]

theorem inodeWriteAt_failed (h : ReserveFails s f.inode buffer.length f.pos) :
    (inodeWriteAt allocSector s f.inode buffer f.pos).1 = 0 := by
  obtain ⟨last, hlast⟩ : ∃ last, byteToSector s.cache (s.inode f.inode).data
    (int32 (f.pos + buffer.length - 1)) = last := ⟨_, rfl⟩
  obtain ⟨e, he⟩ : ∃ e, inodeExtend allocSector { s with cache := last.2 } f.inode
    (int32 (f.pos + buffer.length)) = e := ⟨_, rfl⟩
  have hmiss := h.missing
  have hreserve := h.reserve
  rw [hlast] at hmiss hreserve
  have hfalse : e.1 = false := by
    rw [← he]
    exact inodeExtend_false hreserve
  rw [inodeWriteAt_of_missing h.writable hlast hmiss he, if_pos hfalse]

theorem fileWrite_back (h : ReserveFails s f.inode buffer.length f.pos) :
    (fileWrite s f buffer).1 = (0, { f with pos := int32 (f.pos - 2) }) := by
  have hset : (buffer.set (buffer.length - 1) 0).length = buffer.length := List.length_set
  have hzero := @inodeWriteAt_failed s f (buffer.set (buffer.length - 1) 0)
    (by rw [hset]; exact h)
  unfold fileWrite
  dsimp only
  rw [hzero, Int.zero_sub, ← Int.sub_eq_add_neg]

/-- No position is two bytes before itself, not even where an `int` wraps around. -/
theorem int32_sub_two_ne (x : Int) : int32 (x - 2) ≠ x := by
  intro h
  rw [int32_bmod, Int.bmod_def] at h
  split at h
  · omega
  · omega

theorem not_noEffect (h : ReserveFails s f.inode buffer.length f.pos) :
    ¬ NoEffect s (fileWrite s f buffer).2 f (fileWrite s f buffer).1.2 := by
  intro hno
  have hpos := hno.position
  rw [fileWrite_back h] at hpos
  exact int32_sub_two_ne f.pos hpos

/-- Whatever the state, the file, the position and the number of free sectors: a write that
fails for want of sectors or of index levels is not without effect. -/
theorem fileWrite_failed (h : ReserveFails s f.inode buffer.length f.pos) :
    (fileWrite s f buffer).1.1 = 0 ∧
      ¬ NoEffect s (fileWrite s f buffer).2 f (fileWrite s f buffer).1.2 :=
  ⟨by rw [fileWrite_back h], not_noEffect h⟩

/-- A file of one byte with its position where the index levels end. -/
theorem reserveFails_seek : ∃ s f, Reachable s ∧ ([97], f) ∈ s.mem.fileTable ∧
    0 ≤ f.pos ∧ ReserveFails s f.inode 3 f.pos := by
  obtain ⟨s, k, hreach, hk, hlen⟩ := oneByte_file
  obtain ⟨D, K, dat, hs⟩ := hreach.session
  have hreach' : Reachable (s.exec (.seek [97] MAX_LENGTH)) := .exec _ hreach plainName_a
  have hlisted := hk
  rw [hs.entries] at hlisted
  rcases fsutilSeek_spec hs plainName_a MAX_LENGTH with ⟨-, dat', hno⟩ | ⟨f, j, dat', -, -, hpos, hf⟩
  · exact absurd hlisted (hno.absent k)
  · have hm := hf.session.mounted
    have hopen := hf.file.opened.isOpen
    have hok := hm.vol.file j (hm.opened_mem hf.file.opened)
    refine ⟨(fsutilSeek s [97] MAX_LENGTH).2, f, hreach', mem_fileTable_of_get hf.file.get,
      by rw [hpos]; decide, hopen.writable, ?_, ?_⟩
    · have hlast : int32 (f.pos + (3 : Nat) - 1) = MAX_LENGTH + 2 := by
        rw [hpos]
        exact int32_eq (by decide) (by decide)
      have hmax := hok.max
      rw [hlast, hopen.data, byteToSector, if_neg (by omega)]
    · have hall : int32 (f.pos + (3 : Nat)) = MAX_LENGTH + 3 := by
        rw [hpos]
        exact int32_eq (by decide) (by decide)
      rw [hall]
      exact inodeReserve_large (by omega)

theorem fileWrite_failed_seek : ∃ s f, ([97], f) ∈ s.mem.fileTable ∧
    (fileWrite s f [120, 0, 0]).1.1 = 0 ∧
      ¬ NoEffect s (fileWrite s f [120, 0, 0]).2 f (fileWrite s f [120, 0, 0]).1.2 := by
  obtain ⟨s, f, -, hmem, -, hfail⟩ := reserveFails_seek
  exact ⟨s, f, hmem, fileWrite_failed hfail⟩

/-- `write a x` behind the last index level moves the position of `a` back. -/
theorem fileWrite_moved : ∃ s f, Reachable s ∧ ([97], f) ∈ s.mem.fileTable ∧ 0 ≤ f.pos ∧
    ReserveFails s f.inode (writeBuffer [[120]]).length f.pos ∧
      ¬ NoEffect s (fileWrite s f (writeBuffer [[120]])).2 f
        (fileWrite s f (writeBuffer [[120]])).1.2 := by
  obtain ⟨s, f, hreach, hmem, hpos, hfail⟩ := reserveFails_seek
  exact ⟨s, f, hreach, hmem, hpos, hfail, not_noEffect hfail⟩

end FailedWrite

end SimpleShell.Fs
