import SimpleShell.Fs.State

/-!
# Inodes and the free map

`inode.c`, `free-map.c` and the two functions of `bitmap.c` and `file.c` that
join them. The calls run in a circle: `inode_write_at` extends a file through
`inode_reserve`, which takes sectors from `free_map_allocate`, which writes the
bitmap to its own file with `inode_write_at`. The functions of `inode.c` are
therefore written over an allocator `alloc`, and `freeMapAllocate` ties the
knot with a depth. Each round of the circle starts by marking a free sector, so
`bitCnt + 1` rounds cannot be used up, and with the free-map file at its full
size there is only one.

`ASSERT` prints and goes on, so no assertion appears below. `inode_reserve`'s
last `return false` is reached: it answers a length past the three levels.
-/

namespace SimpleShell.Fs

open SimpleShell.Lib

/-- `free_map_allocate (1, _)` as its callers see it. -/
abbrev Alloc := FileSys → Option Nat × FileSys

/-- `bytes_to_sectors`, of a size that is not negative. -/
def bytesToSectors (size : Int) : Nat :=
  (size.toNat + BLOCK_SECTOR_SIZE - 1) / BLOCK_SECTOR_SIZE

/-! ## From a byte to its sector -/

def indexToSector (c : BufferCache) (d : Sector) (index : Nat) :
    Nat × BufferCache :=
  if index < DIRECT_BLOCKS_COUNT then (directBlock d index, c)
  else if index < DIRECT_BLOCKS_COUNT + INDIRECT_BLOCKS_PER_SECTOR then
    let r := c.read (indirectBlock d)
    (blockEntry r.1 (index - DIRECT_BLOCKS_COUNT), r.2)
  else if index < DIRECT_BLOCKS_COUNT + INDIRECT_BLOCKS_PER_SECTOR +
      INDIRECT_BLOCKS_PER_SECTOR * INDIRECT_BLOCKS_PER_SECTOR then
    let i := index - (DIRECT_BLOCKS_COUNT + INDIRECT_BLOCKS_PER_SECTOR)
    let indexFirst := i / INDIRECT_BLOCKS_PER_SECTOR
    let indexSecond := i % INDIRECT_BLOCKS_PER_SECTOR
    let r := c.read (doublyIndirectBlock d)
    let r' := r.2.read (blockEntry r.1 indexFirst)
    (blockEntry r'.1 indexSecond, r'.2)
  else (NO_SECTOR, c)

def byteToSector (c : BufferCache) (d : Sector) (pos : Int) :
    Nat × BufferCache :=
  if 0 ≤ pos ∧ pos < inodeLength d then
    indexToSector c d (pos / BLOCK_SECTOR_SIZE).toNat
  else (NO_SECTOR, c)

/-! ## Reading -/

/-- How much of a request one round of the read or write loop handles: what is
left of the request, of the file and of the sector. -/
def chunkSize (d : Sector) (size offset : Int) : Int :=
  let sectorOfs := offset.tmod BLOCK_SECTOR_SIZE
  let inodeLeft := inodeLength d - offset
  let sectorLeft := BLOCK_SECTOR_SIZE - sectorOfs
  let minLeft := if inodeLeft < sectorLeft then inodeLeft else sectorLeft
  if size < minLeft then size else minLeft

/-- The loop of `inode_read_at`. The `sector_idx < 0` test of the source is on
an unsigned value and never holds. -/
def inodeReadLoop (stray : Int → UInt8) (d : Sector) :
    Nat → BufferCache → Int → Int → List UInt8 × BufferCache
  | 0, c, _, _ => ([], c)
  | n + 1, c, size, offset =>
      if 0 < size then
        let r := byteToSector c d offset
        let sectorOfs := offset.tmod BLOCK_SECTOR_SIZE
        let chunk := chunkSize d size offset
        if chunk ≤ 0 then ([], r.2)
        else
          let b := r.2.read r.1
          let piece :=
            if sectorOfs = 0 ∧ chunk = BLOCK_SECTOR_SIZE then b.1.toList
            else b.1.load stray sectorOfs chunk.toNat
          let t := inodeReadLoop stray d n b.2 (size - chunk) (offset + chunk)
          (piece ++ t.1, t.2)
      else ([], c)

/-- `inode_read_at`: the bytes put in the caller's buffer, whose number is the
value returned. Every round takes at least one byte off `size`. -/
def inodeReadAt (stray : Int → UInt8) (c : BufferCache) (d : Sector)
    (size offset : Int) : List UInt8 × BufferCache :=
  inodeReadLoop stray d size.toNat c size offset

/-! ## Reserving sectors -/

/-- The loop of `inode_reserve_indirect` over the entries of an index block,
`f` being the recursive call. -/
def reserveLoop (f : FileSys → Nat → Nat → (Bool × Nat) × FileSys)
    (unit : Nat) :
    Nat → Nat → FileSys → Sector → Nat → (Bool × Sector) × FileSys
  | 0, _, s, blk, _ => ((true, blk), s)
  | cnt + 1, i, s, blk, num =>
      let subsize := min num unit
      let r := f s (blockEntry blk i) subsize
      let blk := blk.setU32 (4 * i) r.1.2
      if r.1.1 then reserveLoop f unit cnt (i + 1) r.2 blk (num - subsize)
      else ((false, blk), r.2)

/-- The part of `inode_reserve_indirect` that works on the index block in
`entry`: read it, go over its entries, and write it back if they could all be
filled. -/
def reserveBlock (f : FileSys → Nat → Nat → (Bool × Nat) × FileSys)
    (level : Nat) (s : FileSys) (entry num : Nat) : (Bool × Nat) × FileSys :=
  let b := s.readSector entry
  let unit := INDIRECT_BLOCKS_PER_SECTOR ^ level
  let l := (num + unit - 1) / unit
  let r := reserveLoop f unit l 0 b.2 b.1 num
  if r.1.1 then ((true, entry), r.2.writeSector entry r.1.2)
  else ((false, entry), r.2)

/-- `inode_reserve_indirect`: the answer and the new value of `*p_entry`. An
index block is taken without looking at what the allocation returned, so on a
full disk it is sector `*p_entry`, that is 0, which is cleared. -/
def reserveIndirect (alloc : Alloc) :
    Nat → FileSys → Nat → Nat → (Bool × Nat) × FileSys
  | 0, s, entry, _ =>
      if entry = 0 then
        let r := alloc s
        match r.1 with
        | none => ((false, entry), r.2)
        | some k => ((true, k), r.2.writeSector k .zeros)
      else ((true, entry), s)
  | level + 1, s, entry, num =>
      if entry = 0 then
        let r := alloc s
        let k := r.1.getD entry
        reserveBlock (reserveIndirect alloc level) level
          (r.2.writeSector k .zeros) k num
      else reserveBlock (reserveIndirect alloc level) level s entry num

/-- The loop of `inode_reserve` over the direct blocks. -/
def reserveDirect (alloc : Alloc) :
    Nat → Nat → FileSys → Sector → (Bool × Sector) × FileSys
  | 0, _, s, d => ((true, d), s)
  | cnt + 1, i, s, d =>
      if directBlock d i = 0 then
        let r := alloc s
        match r.1 with
        | none => ((false, d), r.2)
        | some k =>
            reserveDirect alloc cnt (i + 1) (r.2.writeSector k .zeros)
              (d.setU32 (4 * i) k)
      else reserveDirect alloc cnt (i + 1) s d

/-- Part (3) of `inode_reserve`. -/
def reserveDoublyIndirect (alloc : Alloc) (s : FileSys) (d : Sector)
    (num : Nat) : (Bool × Sector) × FileSys :=
  let l := min num (INDIRECT_BLOCKS_PER_SECTOR * INDIRECT_BLOCKS_PER_SECTOR)
  let r := reserveIndirect alloc 2 s (doublyIndirectBlock d) l
  let d := d.setU32 496 r.1.2
  if r.1.1 = false then ((false, d), r.2) else ((decide (num - l = 0), d), r.2)

/-- Parts (2) and (3) of `inode_reserve`, for the sectors that are left. -/
def reserveIndirectBlocks (alloc : Alloc) (s : FileSys) (d : Sector)
    (num : Nat) : (Bool × Sector) × FileSys :=
  let l := min num INDIRECT_BLOCKS_PER_SECTOR
  let r := reserveIndirect alloc 1 s (indirectBlock d) l
  let d := d.setU32 492 r.1.2
  if r.1.1 = false then ((false, d), r.2)
  else
    let num := num - l
    if num = 0 then ((true, d), r.2) else reserveDoublyIndirect alloc r.2 d num

/-- `inode_reserve`: the answer and the inode with the sectors it gained. -/
def inodeReserve (alloc : Alloc) (s : FileSys) (d : Sector) (length : Int) :
    (Bool × Sector) × FileSys :=
  if length < 0 then ((false, d), s)
  else
    let num := bytesToSectors length
    let l := min num DIRECT_BLOCKS_COUNT
    let r := reserveDirect alloc l 0 s d
    if r.1.1 = false then r
    else
      let num := num - l
      if num = 0 then r else reserveIndirectBlocks alloc r.2 r.1.2 num

/-! ## Writing -/

/-- What a round of the write loop does with its sector: a whole one is written
straight from the caller's buffer, a part goes through a bounce buffer that the
sector is read into first, unless there is nothing around the part to keep. -/
def writePiece (c : BufferCache) (sectorIdx : Nat) (sectorOfs chunk : Int)
    (piece : List UInt8) : BufferCache :=
  if sectorOfs = 0 ∧ chunk = BLOCK_SECTOR_SIZE then
    c.write sectorIdx (ByteBlock.zeros.splice 0 piece)
  else
    let sectorLeft := BLOCK_SECTOR_SIZE - sectorOfs
    let b :=
      if 0 < sectorOfs ∨ chunk < sectorLeft then c.read sectorIdx
      else (.zeros, c)
    b.2.write sectorIdx (b.1.splice sectorOfs piece)

/-- The loop of `inode_write_at`; `buffer` is what is left to write. -/
def inodeWriteLoop (d : Sector) :
    Nat → BufferCache → List UInt8 → Int → Int × BufferCache
  | 0, c, _, _ => (0, c)
  | n + 1, c, buffer, offset =>
      let size : Int := buffer.length
      if 0 < size then
        let r := byteToSector c d offset
        let chunk := chunkSize d size offset
        if chunk ≤ 0 then (0, r.2)
        else
          let c := writePiece r.2 r.1 (offset.tmod BLOCK_SECTOR_SIZE) chunk
            (buffer.take chunk.toNat)
          let t := inodeWriteLoop d n c (buffer.drop chunk.toNat)
            (offset + chunk)
          (chunk + t.1, t.2)
      else (0, c)

/-- The part of `inode_write_at` that makes the inode `length` bytes long. The
inode is extended in place, so a failure keeps what it gained. -/
def inodeExtend (alloc : Alloc) (s : FileSys) (p : Nat) (length : Int) :
    Bool × FileSys :=
  let t := inodeReserve alloc s (s.inode p).data length
  let s := t.2.setData p t.1.2
  if t.1.1 = false then (false, s)
  else
    let data := setLength t.1.2 length
    let s := s.setData p data
    (true, s.writeSector (s.inode p).sector data)

/-- `inode_write_at`, through the pointer `p`. -/
def inodeWriteAt (alloc : Alloc) (s : FileSys) (p : Nat) (buffer : List UInt8)
    (offset : Int) : Int × FileSys :=
  let size : Int := buffer.length
  if (s.inode p).denyWriteCnt ≠ 0 then (0, s)
  else
    let r := byteToSector s.cache (s.inode p).data (int32 (offset + size - 1))
    let s := { s with cache := r.2 }
    let e : Bool × FileSys :=
      if r.1 = NO_SECTOR then inodeExtend alloc s p (int32 (offset + size))
      else (true, s)
    if e.1 = false then (0, e.2)
    else
      let w := inodeWriteLoop (e.2.inode p).data buffer.length e.2.cache buffer
        offset
      (w.1, { e.2 with cache := w.2 })

/-! ## The free map -/

/-- `bitmap_write (free_map, file)`. -/
def bitmapWrite (alloc : Alloc) (s : FileSys) (f : File) : Bool × FileSys :=
  let w := inodeWriteAt alloc s f.inode s.freeMap.toBytes 0
  (w.1 = byteCnt s.freeMap.bitCnt, w.2)

/-- `free_map_allocate`, the nested calls of the free-map file's own growth
being `depth` deep at most. -/
def freeMapAllocate : Nat → Nat → FileSys → Option Nat × FileSys
  | 0, _, s => (none, s)
  | depth + 1, cnt, s =>
      let r := bitmapScanAndFlip s.freeMap 0 cnt false
      match r.1 with
      | none => (none, { s with allocFailures := s.allocFailures + 1 })
      | some sector =>
          let s := { s with freeMap := r.2 }
          match s.mem.freeMapFile with
          | none => (some sector, s)
          | some f =>
              let w := bitmapWrite (freeMapAllocate depth 1) s f
              if w.1 then (some sector, w.2)
              else
                (none,
                  { w.2 with
                    freeMap := bitmapSetMultiple w.2.freeMap sector cnt false
                    allocFailures := w.2.allocFailures + 1 })

/-- The allocator every caller uses. -/
def allocSector : Alloc := fun s => freeMapAllocate (s.freeMap.bitCnt + 1) 1 s

def freeMapRelease (s : FileSys) (sector cnt : Nat) : FileSys :=
  let s := { s with freeMap := bitmapSetMultiple s.freeMap sector cnt false }
  match s.mem.freeMapFile with
  | none => s
  | some f => (bitmapWrite allocSector s f).2

/-! ## Releasing sectors -/

/-- The loop of `inode_deallocate_indirect`, `f` being the recursive call. -/
def deallocateLoop (f : FileSys → Nat → Nat → FileSys) (unit : Nat)
    (blk : Sector) : Nat → Nat → FileSys → Nat → FileSys
  | 0, _, s, _ => s
  | cnt + 1, i, s, num =>
      let subsize := min num unit
      deallocateLoop f unit blk cnt (i + 1) (f s (blockEntry blk i) subsize)
        (num - subsize)

def deallocateIndirect : Nat → FileSys → Nat → Nat → FileSys
  | 0, s, entry, _ => freeMapRelease s entry 1
  | level + 1, s, entry, num =>
      let b := s.readSector entry
      let unit := INDIRECT_BLOCKS_PER_SECTOR ^ level
      let l := (num + unit - 1) / unit
      freeMapRelease (deallocateLoop (deallocateIndirect level) unit b.1 l 0 b.2
        num) entry 1

/-- The loop of `inode_deallocate` over the direct blocks. -/
def deallocateDirect (d : Sector) : Nat → Nat → FileSys → FileSys
  | 0, _, s => s
  | cnt + 1, i, s =>
      deallocateDirect d cnt (i + 1) (freeMapRelease s (directBlock d i) 1)

def inodeDeallocate (s : FileSys) (d : Sector) : FileSys :=
  if inodeLength d < 0 then s
  else
    let num := bytesToSectors (inodeLength d)
    let l := min num DIRECT_BLOCKS_COUNT
    let s := deallocateDirect d l 0 s
    let num := num - l
    let l := min num INDIRECT_BLOCKS_PER_SECTOR
    let s := if 0 < l then deallocateIndirect 1 s (indirectBlock d) l else s
    let num := num - l
    let l := min num (INDIRECT_BLOCKS_PER_SECTOR * INDIRECT_BLOCKS_PER_SECTOR)
    if 0 < l then deallocateIndirect 2 s (doublyIndirectBlock d) l else s

/-! ## Creating, opening and closing -/

/-- The `struct inode_disk` that `inode_create` fills in. -/
def newInodeDisk (length : Int) (isDir : Bool) : Sector :=
  ((setLength .zeros length).setU32 508 INODE_MAGIC).splice 500
    [if isDir then 1 else 0]

def inodeCreate (s : FileSys) (sector : Nat) (length : Int) (isDir : Bool) :
    Bool × FileSys :=
  let d := newInodeDisk length isDir
  let r := inodeReserve allocSector s d (inodeLength d)
  if r.1.1 then (true, r.2.writeSector sector r.1.2) else (false, r.2)

/-- The part of `inode_open` that reads an inode in. -/
def inodeLoad (s : FileSys) (sector : Nat) : Nat × FileSys :=
  let r := s.readSector sector
  let a := s.mem.inodes.alloc
    { sector := sector, openCnt := 1, removed := false, denyWriteCnt := 0
      data := r.1 }
  (a.1,
    { r.2 with
      mem := { s.mem with
        inodes := a.2
        openInodes := a.1 :: s.mem.openInodes } })

/-- `inode_open`. An inode that is open already is returned as it is:
`inode_reopen` does not count the new opener. -/
def inodeOpen (s : FileSys) (sector : Nat) : Nat × FileSys :=
  match s.mem.openInodes.find? fun p => (s.inode p).sector == sector with
  | some p => (p, s)
  | none => inodeLoad s sector

/-- `inode_close` of an inode that is not null. -/
def inodeClose (s : FileSys) (p : Nat) : FileSys :=
  match s.mem.inodes.get? p with
  | none => { s with mem := { s.mem with badCloses := s.mem.badCloses + 1 } }
  | some i =>
      let i := { i with openCnt := i.openCnt - 1 }
      let s := s.setInode p i
      if i.openCnt = 0 then
        let s := { s with
          mem := { s.mem with openInodes := s.mem.openInodes.erase p } }
        let s :=
          if i.removed then
            inodeDeallocate (freeMapRelease s i.sector 1) i.data
          else s
        { s with mem := { s.mem with inodes := s.mem.inodes.free p } }
      else s

def inodeRemove (s : FileSys) (p : Nat) : FileSys :=
  s.setInode p { s.inode p with removed := true }

end SimpleShell.Fs
