import SimpleShell.Lib.Heap
import SimpleShell.Fs.Bitmap
import SimpleShell.Fs.CacheRun

/-!
# The state of the file system

The globals of `a3/fs`: the buffer cache over the device, the free map and its
file, the open inodes, the directory handles behind `cwd`, and the shell's
table of open files. A `struct inode_disk` is one sector, so it stays a sector
here and its fields are read at their offsets; the same goes for the index
blocks and, at 36 bytes, for `struct dir_entry`.

Two fields only count, and no function reads them: `allocFailures` counts the
calls of `free_map_allocate` that returned false, `badCloses` the calls of
`inode_close` on an inode that had been freed. `stray` is what the program's
memory holds outside the objects it owns.
-/

namespace SimpleShell.Fs

open SimpleShell.Lib

/-- The value of `-1` in a `block_sector_t`. -/
abbrev NO_SECTOR : Nat := 0xffffffff

abbrev INODE_MAGIC : Nat := 0x494e4f44
abbrev DIRECT_BLOCKS_COUNT : Nat := 123
abbrev INDIRECT_BLOCKS_PER_SECTOR : Nat := 128
abbrev FREE_MAP_SECTOR : Nat := 0
abbrev ROOT_DIR_SECTOR : Nat := 1

/-- A C string, without its terminator. -/
abbrev CString := List UInt8

/-- A 32-bit machine integer's value. -/
def int32 (x : Int) : Int := (BitVec.ofInt 32 x).toInt

theorem int32_bmod (x : Int) : int32 x = Int.bmod x (2 ^ 32) := BitVec.toInt_ofInt ..

theorem int32_eq {x : Int} (h₀ : -2 ^ 31 ≤ x) (h₁ : x < 2 ^ 31) : int32 x = x := by
  rw [int32_bmod]
  exact Int.bmod_eq_of_le (by omega) (by omega)

/-! ## `struct inode_disk` and the index blocks -/

def directBlock (d : Sector) (i : Nat) : Nat := d.u32 (4 * i)
def indirectBlock (d : Sector) : Nat := d.u32 492
def doublyIndirectBlock (d : Sector) : Nat := d.u32 496
def inodeIsDir (d : Sector) : Bool := d.byte 500 != 0
def inodeMagic (d : Sector) : Nat := d.u32 508

/-- `inode_length`, an `int32_t`. -/
def inodeLength (d : Sector) : Int := int32 (d.u32 504)

def setLength (d : Sector) (length : Int) : Sector :=
  d.setU32 504 (length % 2 ^ 32).toNat

/-- Entry `i` of a `struct inode_indirect_block_sector`. -/
def blockEntry (b : Sector) (i : Nat) : Nat := b.u32 (4 * i)

theorem inodeLength_setLength {d : Sector} {n : Int} (h₀ : 0 ≤ n)
    (h₁ : n < 2 ^ 31) : inodeLength (setLength d n) = n := by
  unfold inodeLength setLength
  rw [ByteBlock.u32_setU32_same (by decide) (by omega)]
  rw [Int.emod_eq_of_lt h₀ (by omega), Int.toNat_of_nonneg h₀]
  exact int32_eq (by omega) h₁

theorem u32_setLength {d : Sector} {n : Int} {o : Nat}
    (h : o + 4 ≤ 504 ∨ 508 ≤ o) : (setLength d n).u32 o = d.u32 o :=
  ByteBlock.u32_setU32_of_ne (by omega)

/-! ## In memory -/

/-- `struct inode`. -/
structure Inode where
  sector : Nat
  openCnt : Int
  removed : Bool
  denyWriteCnt : Int
  data : Sector

/-- What a freed inode reads as. -/
instance : Inhabited Inode := ⟨⟨0, 0, false, 0, .zeros⟩⟩

/-- `struct file`. -/
structure File where
  inode : Nat
  pos : Int
  denyWrite : Bool

/-- `struct dir`. -/
structure Dir where
  inode : Nat
  pos : Int
  openCnt : Int

instance : Inhabited Dir := ⟨⟨0, 0, 0⟩⟩

/-- The heap objects and the globals that point to them. -/
structure Tables where
  inodes : Heap Inode
  openInodes : List Nat
  freeMapFile : Option File
  dirs : Heap Dir
  cwd : Option Nat
  fileTable : List (CString × File)
  badCloses : Nat
  stray : Int → UInt8

structure FileSys where
  cache : BufferCache
  freeMap : Bitmap
  allocFailures : Nat
  mem : Tables

namespace FileSys

/-- `*inode`. -/
def inode (s : FileSys) (p : Nat) : Inode := (s.mem.inodes.get? p).getD default

def setInode (s : FileSys) (p : Nat) (i : Inode) : FileSys :=
  { s with mem := { s.mem with inodes := s.mem.inodes.set p i } }

/-- A store to `inode->data`. -/
def setData (s : FileSys) (p : Nat) (d : Sector) : FileSys :=
  s.setInode p { s.inode p with data := d }

/-- The bytes a read of sector `k` would return. -/
def content (s : FileSys) : Nat → Sector := s.cache.content

/-- Sector `k` is marked in the free map. -/
def used (s : FileSys) (k : Nat) : Prop := bitmapTest s.freeMap k

/-- `fsutil_freespace`. -/
abbrev freeSectors (s : FileSys) : Nat := numFree s.freeMap

def readSector (s : FileSys) (k : Nat) : Sector × FileSys :=
  let r := s.cache.read k
  (r.1, { s with cache := r.2 })

def writeSector (s : FileSys) (k : Nat) (b : Sector) : FileSys :=
  { s with cache := s.cache.write k b }

@[simp] theorem readSector_content (s : FileSys) (k : Nat) :
    (s.readSector k).2.content = s.content :=
  s.cache.read_content k

@[simp] theorem readSector_size (s : FileSys) (k : Nat) :
    (s.readSector k).2.cache.size = s.cache.size :=
  s.cache.read_size k

@[simp] theorem readSector_freeMap (s : FileSys) (k : Nat) :
    (s.readSector k).2.freeMap = s.freeMap := rfl

@[simp] theorem readSector_mem (s : FileSys) (k : Nat) :
    (s.readSector k).2.mem = s.mem := rfl

@[simp] theorem readSector_allocFailures (s : FileSys) (k : Nat) :
    (s.readSector k).2.allocFailures = s.allocFailures := rfl

theorem readSector_fst {s : FileSys} {k : Nat} (hk : k < s.cache.size) :
    (s.readSector k).1 = s.content k :=
  BufferCache.read_fst hk

@[simp] theorem writeSector_freeMap (s : FileSys) (k : Nat) (b : Sector) :
    (s.writeSector k b).freeMap = s.freeMap := rfl

@[simp] theorem writeSector_mem (s : FileSys) (k : Nat) (b : Sector) :
    (s.writeSector k b).mem = s.mem := rfl

@[simp] theorem writeSector_allocFailures (s : FileSys) (k : Nat) (b : Sector) :
    (s.writeSector k b).allocFailures = s.allocFailures := rfl

@[simp] theorem writeSector_size (s : FileSys) (k : Nat) (b : Sector) :
    (s.writeSector k b).cache.size = s.cache.size :=
  s.cache.write_size k b

theorem writeSector_content {s : FileSys} {k : Nat} (hk : k < s.cache.size)
    (b : Sector) :
    (s.writeSector k b).content = Function.update s.content k b :=
  BufferCache.write_content hk b

end FileSys

end SimpleShell.Fs
