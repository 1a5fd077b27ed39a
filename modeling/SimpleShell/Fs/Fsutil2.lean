import SimpleShell.Fs.Fsutil

/-!
# The commands over several files

`fsutil2.c`. The commands that copy a file through the host, and those that walk
the root directory: searching, measuring and undoing fragmentation, and looking
for deleted inodes and for data past the end of a file. A buffer that was allocated
and not cleared is a string the program did not choose; `Junk` holds those that
`defragment` reads and `Leftover` the one of `recover`.
-/

namespace SimpleShell.Fs

open SimpleShell.Lib

/-- What the C string that starts `m` is. -/
def cString (m : List UInt8) : CString := m.takeWhile (· ≠ 0)

/-- The statuses of `interpreter.h` that `copy_in` and `copy_out` return. -/
abbrev FILE_DOES_NOT_EXIST : Int := 0
abbrev NO_MEM_SPACE : Int := 1

/-- `copy_in` of a host file that can be read. -/
def copyIn (s : FileSys) (fname : CString) (content : List UInt8) : Int × FileSys :=
  let size := content.length
  let buffer := content ++ [0]
  let shellSpace := s.freeSectors
  if shellSpace = 0 then (NO_MEM_SPACE, s)
  else if shellSpace < size + 1 then
    let c := fsutilCreate s fname shellSpace
    (0, (fsutilWrite c.2 fname (buffer.take shellSpace)).2)
  else
    let c := fsutilCreate s fname (size + 1)
    (0, (fsutilWrite c.2 fname buffer).2)

/-- `copy_out`, when the host file can be written: what is put there. The buffer
has one byte more than the file, all zero before the read; of a file that is not
there the size is -1 and the buffer has no byte at all. -/
def copyOut (s : FileSys) (fname : CString) : Option CString × FileSys :=
  let z := fsutilSize s fname
  let r := fsutilRead z.2 fname z.1
  (if z.1 < 0 then none else some (cString (r.1.2 ++ [0])), r.2)

/-- `find_file` up to its calls of `strstr`: the names, and of each file what was
read into its buffer and the size of the buffer. -/
def findFile (s : FileSys) : List (CString × Int × List UInt8) × FileSys :=
  withRootNames (fun found name s =>
    let a := fsutilSize s name
    let b := fsutilSize a.2 name
    let r := fsutilRead b.2 name b.1
    (found ++ [(name, a.1, r.1.2)], r.2)) [] s

/-- The names that `find_file` prints. `junk` is, of the buffer of each file, the memory behind
what was read into it; `strstr` looks no further than the first NUL. -/
def findNames (junk : CString → List UInt8) (pattern : CString) (s : FileSys) : List CString :=
  ((findFile s).1.filter fun e => decide (pattern <:+: cString (e.2.2 ++ junk e.1))).map (·.1)

/-! ## Fragmentation -/

/-- The loop of `get_inode_data_sectors` over the second-level blocks. -/
def doublyIndirectSectors (blk : Sector) :
    Nat → Nat → BufferCache → Nat → List Nat × BufferCache
  | 0, _, c, _ => ([], c)
  | cnt + 1, i, c, num =>
      let subsize := min num INDIRECT_BLOCKS_PER_SECTOR
      let b := c.read (blockEntry blk i)
      let t := doublyIndirectSectors blk cnt (i + 1) b.2 (num - subsize)
      ((List.range subsize).map (blockEntry b.1) ++ t.1, t.2)

/-- `get_inode_data_sectors`. -/
def getInodeDataSectors (c : BufferCache) (d : Sector) : List Nat × BufferCache :=
  if inodeLength d < 0 then ([], c)
  else
    let num := bytesToSectors (inodeLength d)
    let l := min num DIRECT_BLOCKS_COUNT
    let direct := (List.range l).map (directBlock d)
    let num := num - l
    let l := min num INDIRECT_BLOCKS_PER_SECTOR
    let r : List Nat × BufferCache :=
      if 0 < l then
        let b := c.read (indirectBlock d)
        ((List.range l).map (blockEntry b.1), b.2)
      else ([], c)
    let num := num - l
    let l := min num (INDIRECT_BLOCKS_PER_SECTOR * INDIRECT_BLOCKS_PER_SECTOR)
    let t : List Nat × BufferCache :=
      if 0 < l then
        let b := r.2.read (doublyIndirectBlock d)
        doublyIndirectSectors b.1
          ((l + INDIRECT_BLOCKS_PER_SECTOR - 1) / INDIRECT_BLOCKS_PER_SECTOR) 0 b.2 l
      else ([], r.2)
    (direct ++ r.1 ++ t.1, t.2)

/-- `is_file_fragmented`, of a file of one sector or more. -/
def isFileFragmented (sectors : List Nat) : Bool :=
  (List.range (sectors.length - 1)).any fun i =>
    decide (6 ≤ (int32 ((sectors.getD (i + 1) 0 : Int) - sectors.getD i 0)).natAbs)

/-- The body of `fragmentation_degree`'s loop, over the numbers of fragmentable
and fragmented files. The file that `filesys_open` makes is never closed. -/
def fragmentationStep (count : Nat × Nat) (name : CString) (s : FileSys) :
    (Nat × Nat) × FileSys :=
  let z := fsutilSize s name
  if z.1 > 512 then
    let o := filesysOpen z.2 name
    match o.1 with
    | none => (count, o.2)
    | some f =>
        let r := getInodeDataSectors o.2.cache (o.2.inode f.inode).data
        ((count.1 + 1, count.2 + if isFileFragmented r.1 then 1 else 0),
          { o.2 with cache := r.2 })
  else (count, z.2)

/-- `fragmentation_degree`: the two numbers it prints first. -/
def fragmentationDegree (s : FileSys) : (Nat × Nat) × FileSys :=
  withRootNames fragmentationStep (0, 0) s

/-- What `defragment` finds in memory it has allocated and not written: the string
in the large buffer, those that follow what was read of each file, and those at
the offsets past the end of the large buffer's string. -/
structure Junk where
  buffer : CString
  temp : CString → CString
  beyond : Nat → CString

/-- `strncpy (tmp, buffer + offset, n)`. -/
def sliceString (junk : Junk) (buffer : CString) (offset n : Nat) : List UInt8 :=
  let src := if offset ≤ buffer.length then buffer.drop offset else junk.beyond offset
  (src ++ List.replicate n 0).take n

/-- The loop of `defragment` that makes the files again. -/
def recreateLoop (junk : Junk) (buffer : CString) :
    List (CString × Int) → Nat → FileSys → FileSys
  | [], _, s => s
  | (name, size) :: files, offset, s =>
      let tmp := sliceString junk buffer offset size.toNat
      let c := fsutilCreate s name size
      let w := fsutilWrite c.2 name tmp
      recreateLoop junk buffer files (offset + size.toNat) w.2

/-- `defragment`. -/
def defragment (junk : Junk) (s : FileSys) : FileSys :=
  let contents := withRootNames (fun buffer name s =>
    let a := fsutilSize s name
    let b := fsutilSize a.2 name
    let r := fsutilRead b.2 name b.1
    (buffer ++ cString (r.1.2 ++ junk.temp name), r.2)) junk.buffer s
  let files := withRootNames (fun files name s =>
    let z := fsutilSize s name
    (files ++ [(name, z.1)], z.2)) [] contents.2
  let d := dirOpenRoot files.2
  let s := files.1.foldl (fun s f => (fsutilRm s f.1).2) d.2
  dirClose (recreateLoop junk contents.1 files.1 0 s) d.1

/-! ## Deleted files -/

/-- `sprintf (fname, "recovered0-%d", i)`. -/
def recoveredName (i : Nat) : CString :=
  ("recovered0-".toList ++ Nat.toDigits 10 i).map fun c => .ofNat c.toNat

/-- What `recover (0)` does with a sector. -/
def recoverSector (s : FileSys) (i : Nat) : FileSys :=
  if bitmapTest s.freeMap i then s
  else
    let o := inodeOpen s i
    let data := (o.2.inode o.1).data
    if inodeMagic data = INODE_MAGIC then
      if inodeIsDir data then o.2
      else
        let r := inodeReadAt o.2.mem.stray o.2.cache data (inodeLength data) 0
        let d := dirOpenRoot { o.2 with cache := r.2 }
        let a := dirAdd d.2 d.1 (recoveredName i) i false
        dirClose a.2 d.1
    else o.2

/-- `recover (0)`. -/
def recover0 (s : FileSys) : FileSys :=
  (List.range s.freeMap.bitCnt).foldl recoverSector s

/-! ## Sectors in use -/

/-- `memmove (buf + dst, buf + src, n)`. -/
def memmove (buf : List UInt8) (dst src n : Nat) : List UInt8 :=
  buf.take dst ++ (buf.drop src).take n ++ buf.drop (dst + n)

/-- `remove_nulls`, with the length that it leaves behind. -/
def removeNulls : List UInt8 → Nat → List UInt8 × Nat
  | buf, 0 => (buf, 0)
  | buf, len + 1 =>
      if 0 ∈ buf.take (len + 1) then
        let nullPos := (buf.take (len + 1)).idxOf 0
        removeNulls (memmove buf nullPos (nullPos + 1) (len + 1 - nullPos - 1)) len
      else (buf, len + 1)

/-- What `malloc` gives for a sector: the bytes that were there, and those that follow. -/
structure Malloced where
  buffer : Sector
  beyond : List UInt8

/-- `sprintf (filename, "recovered1-%d.txt", i)`. -/
def recovered1Name (i : Nat) : CString :=
  ("recovered1-".toList ++ Nat.toDigits 10 i ++ ".txt".toList).map fun c => .ofNat c.toNat

/-- The loop of `recover (1)`: the host files. `len` is `block_sector_size`, which
`remove_nulls` counts down. -/
def recoverUsed (s : FileSys) (mem : Nat → Malloced) : List Nat → Nat → List (CString × CString)
  | [], _ => []
  | i :: rest, len =>
      if bitmapTest s.freeMap i then
        let buffer := blockRead s.cache.state.fsDevice i (mem i).buffer
        let r := removeNulls buffer.toList len
        (recovered1Name i, cString (r.1 ++ (mem i).beyond)) :: recoverUsed s mem rest r.2
      else recoverUsed s mem rest len

/-- `recover (1)`, when memory can be had and the host files can be written. -/
def recover1 (mem : Nat → Malloced) (s : FileSys) : List (CString × CString) :=
  recoverUsed s mem ((List.range s.freeMap.bitCnt).drop 4) BLOCK_SECTOR_SIZE

/-! ## Data past the end -/

/-- A local buffer of a sector that was never written, and what follows it in memory. -/
structure Leftover where
  bytes : List UInt8
  whole : BLOCK_SECTOR_SIZE ≤ bytes.length

/-- `result_buffer[strlen (result_buffer)] = b`. -/
def putAtEnd (buffer : List UInt8) (b : UInt8) : List UInt8 :=
  buffer.set (cString buffer).length b

/-- What is left in `result_buffer` for `fputs`. -/
def resultText (buffer : List UInt8) (data : List UInt8) : CString :=
  cString (putAtEnd (data.foldl (fun r b => if b = 0 then r else putAtEnd r b) buffer) 0)

/-- `sprintf (fname, "recovered2-%s.txt", name)`. -/
def recovered2Name (name : CString) : CString :=
  "recovered2-".toList.map (fun c => .ofNat c.toNat) ++ name ++
    ".txt".toList.map (fun c => .ofNat c.toNat)

/-- The body of the loop of `recover (2)`: the host files so far, and the buffer as the
round of each name finds it. -/
def recoverSlack (left : CString → Leftover) (out : List (CString × CString)) (name : CString)
    (s : FileSys) : List (CString × CString) × FileSys :=
  let o := filesysOpen s name
  let z := fsutilSize o.2 name
  if z.1 ≤ 0 ∨ z.1 % BLOCK_SECTOR_SIZE = 0 then (out, z.2)
  else
    match o.1 with
    | none => (out, z.2)
    | some file =>
        let data := (z.2.inode file.inode).data
        let sectors := getInodeDataSectors z.2.cache data
        let b := sectors.2.read (sectors.1.getD (bytesToSectors (inodeLength data) - 1) 0)
        (out ++ [(recovered2Name name,
          resultText (left name).bytes (b.1.toList.drop (z.1 % BLOCK_SECTOR_SIZE).toNat))],
          { z.2 with cache := b.2 })

/-- `recover (2)`, when the host files can be written. -/
def recover2 (left : CString → Leftover) (s : FileSys) : List (CString × CString) × FileSys :=
  withRootNames (recoverSlack left) [] s

/-- The loop of `recover (2)` on a host whose `fopen` may fail. The first file that it does
not open ends the command. -/
def recoverSlackLoop (left : CString → Leftover) (host : CString → Bool) (d : Nat) :
    Nat → List (CString × CString) → FileSys → (List (CString × CString) × Bool) × FileSys
  | 0, out, s => ((out, true), s)
  | n + 1, out, s =>
      let r := dirReaddir s d
      match r.1 with
      | none => ((out, true), r.2)
      | some name =>
          let b := recoverSlack left [] name r.2
          if b.1.all fun f => host f.1 then recoverSlackLoop left host d n (out ++ b.1) b.2
          else ((out, false), b.2)

/-- `recover (2)`. It returns from the loop without `dir_close`. -/
def recover2Host (left : CString → Leftover) (host : CString → Bool) (s : FileSys) :
    List (CString × CString) × FileSys :=
  let d := dirOpenRoot s
  let r := recoverSlackLoop left host d.1 (entryRounds d.2 (d.2.dir d.1).inode) [] d.2
  (r.1.1, if r.1.2 then dirClose r.2 d.1 else r.2)

end SimpleShell.Fs
