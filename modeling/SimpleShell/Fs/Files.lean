import SimpleShell.Fs.Directory

/-!
# Open files and the file system

`file.c` and `filesys.c`. The shell's table of open files maps a name to its
`struct file`; nothing else points to a file of the table, so the files are
kept in it by value. `file_write` ends the buffer with a NUL and then moves the
position by two bytes less than it wrote.

`PANIC` prints and returns, so `filesys_init` goes on whatever happens; the
`Bool` it answers here says that none was printed.
-/

namespace SimpleShell.Fs

open SimpleShell.Lib

/-! ## Files -/

/-- `file_open` of an inode that is not null. -/
def fileOpen (inode : Nat) : File := { inode := inode, pos := 0, denyWrite := false }

/-- `file_allow_write`, as far as the inode goes. -/
def fileAllowWrite (s : FileSys) (f : File) : FileSys :=
  if f.denyWrite then
    s.setInode f.inode
      { s.inode f.inode with denyWriteCnt := (s.inode f.inode).denyWriteCnt - 1 }
  else s

/-- `file_close` of a file that is not null. -/
def fileClose (s : FileSys) (f : File) : FileSys :=
  inodeClose (fileAllowWrite s f) f.inode

def fileLength (s : FileSys) (f : File) : Int := inodeLength (s.inode f.inode).data

/-- `file_read`: the bytes, and the file with its new position. -/
def fileRead (s : FileSys) (f : File) (size : Int) : (List UInt8 × File) × FileSys :=
  let r := inodeReadAt s.mem.stray s.cache (s.inode f.inode).data size f.pos
  ((r.1, { f with pos := int32 (f.pos + r.1.length) }), { s with cache := r.2 })

/-- `file_write` of a buffer that is not empty. -/
def fileWrite (s : FileSys) (f : File) (buffer : List UInt8) : (Int × File) × FileSys :=
  let w := inodeWriteAt allocSector s f.inode (buffer.set (buffer.length - 1) 0) f.pos
  ((w.1, { f with pos := int32 (f.pos + (w.1 - 2)) }), w.2)

def fileSeek (f : File) (newPos : Int) : File := { f with pos := newPos }

/-! ## The table of open files -/

def getFileByFname (s : FileSys) (fname : CString) : Option File :=
  (s.mem.fileTable.find? fun e => e.1 == fname).map (·.2)

def addToFileTable (s : FileSys) (f : File) (fname : CString) : FileSys :=
  match getFileByFname s fname with
  | some _ => s
  | none => { s with mem := { s.mem with fileTable := s.mem.fileTable ++ [(fname, f)] } }

/-- A store through the pointer to the open file `fname`. -/
def setFile (s : FileSys) (fname : CString) (f : File) : FileSys :=
  { s with mem := { s.mem with
      fileTable := s.mem.fileTable.map fun e => if e.1 = fname then (e.1, f) else e } }

def removeFromFileTable (s : FileSys) (fname : CString) : FileSys :=
  match getFileByFname s fname with
  | none => s
  | some f =>
      let s := fileClose s f
      { s with mem := { s.mem with
          fileTable := s.mem.fileTable.eraseP fun e => e.1 == fname } }

/-- `free_file_table`. -/
def freeFileTable (s : FileSys) : FileSys :=
  let s := s.mem.fileTable.foldl (fun s e => fileClose s e.2) s
  { s with mem := { s.mem with fileTable := [] } }

/-! ## Names to files -/

def filesysCreate (s : FileSys) (path : CString) (initialSize : Int) (isDir : Bool) :
    Bool × FileSys :=
  let fileName := (splitPathFilename path).2
  let d := dirOpenRoot s
  let a := allocSector d.2
  match a.1 with
  | none => (false, dirClose a.2 d.1)
  | some inodeSector =>
      let c := inodeCreate a.2 inodeSector initialSize isDir
      let r := if c.1 then dirAdd c.2 d.1 fileName inodeSector isDir else (false, c.2)
      let s :=
        if r.1 = false ∧ inodeSector ≠ 0 then freeMapRelease r.2 inodeSector 1
        else r.2
      (r.1, dirClose s d.1)

def filesysOpen (s : FileSys) (name : CString) : Option File × FileSys :=
  if name.length = 0 then (none, s)
  else
    let fileName := (splitPathFilename name).2
    let d := dirOpenRoot s
    let r : Option Nat × FileSys :=
      if 0 < fileName.length then
        let l := dirLookup d.2 d.1 fileName
        (l.1, dirClose l.2 d.1)
      else (some (d.2.dir d.1).inode, d.2)
    match r.1 with
    | none => (none, r.2)
    | some inode =>
        if (r.2.inode inode).removed then (none, r.2)
        else (some (fileOpen inode), r.2)

def filesysRemove (s : FileSys) (name : CString) : Bool × FileSys :=
  let split := splitPathFilename name
  let d := dirOpenPath s split.1
  match d.1 with
  | none => (false, d.2)
  | some dir =>
      let r := dirRemove d.2 dir split.2
      (r.1, dirClose r.2 dir)

/-! ## Mounting -/

/-- `free_map_init` and the other parts of `filesys_init` that come before the
format: a fresh process over the device and the memory of the cache. -/
def filesysStart (c : CacheState) (stray : Int → UInt8) : FileSys :=
  let map := bitmapCreate ((c.fsDevice.size + (2 ^ 32 - 1)) % 2 ^ 32)
  { cache := .init c
    freeMap := bitmapMark (bitmapMark map FREE_MAP_SECTOR) ROOT_DIR_SECTOR
    allocFailures := 0
    mem :=
      { inodes := .empty, openInodes := [], freeMapFile := none, dirs := .empty
        cwd := none, fileTable := [], badCloses := 0, stray := stray } }

def freeMapCreate (s : FileSys) : Bool × FileSys :=
  let c := inodeCreate s FREE_MAP_SECTOR (byteCnt s.freeMap.bitCnt) false
  let i := inodeOpen c.2 FREE_MAP_SECTOR
  let f := fileOpen i.1
  let s := { i.2 with mem := { i.2.mem with freeMapFile := some f } }
  let w := bitmapWrite allocSector s f
  (c.1 && w.1, w.2)

/-- `free_map_close`. The pointer to the file is left as it is. -/
def freeMapClose (s : FileSys) : FileSys :=
  match s.mem.freeMapFile with
  | none => s
  | some f => fileClose s f

/-- `bitmap_read (free_map, file)`. -/
def bitmapRead (s : FileSys) (f : File) : Bool × FileSys :=
  if 0 < s.freeMap.bitCnt then
    let size := byteCnt s.freeMap.bitCnt
    let r := inodeReadAt s.mem.stray s.cache (s.inode f.inode).data size 0
    (r.1.length = size, { s with cache := r.2, freeMap := s.freeMap.ofBytes r.1 })
  else (true, s)

def freeMapOpen (s : FileSys) : Bool × FileSys :=
  let i := inodeOpen s FREE_MAP_SECTOR
  let f := fileOpen i.1
  bitmapRead { i.2 with mem := { i.2.mem with freeMapFile := some f } } f

abbrev MAX_FILES_IN_DIRECTORY : Nat := 1000

def doFormat (s : FileSys) : Bool × FileSys :=
  let m := freeMapCreate s
  let r := dirCreate m.2 ROOT_DIR_SECTOR MAX_FILES_IN_DIRECTORY
  (m.1 && r.1, freeMapClose r.2)

/-- `filesys_init`, in a fresh process. -/
def filesysInit (format : Bool) (c : CacheState) (stray : Int → UInt8) :
    Bool × FileSys :=
  let f := if format then doFormat (filesysStart c stray)
    else (true, filesysStart c stray)
  let o := freeMapOpen f.2
  (f.1 && o.1, o.2)

/-- `filesys_done`. The cache is closed before the files of the table are. -/
def filesysDone (s : FileSys) : FileSys :=
  let s := freeMapClose s
  freeFileTable { s with cache := s.cache.close }

end SimpleShell.Fs
