import SimpleShell.Fs.Inode

/-!
# Directories

`directory.c`. A directory is a file of 36-byte entries, the first of which
names the parent. There is one cached handle, `cwd`: `dir_open_root` counts its
openers, while `dir_reopen` makes a second handle on the same inode, whose
close frees the inode under the first. A handle that outlives its inode shows
in `badCloses`.

The loops over entries run until `inode_read_at` comes up short, which it does
at the end of the file; their fuel is the number of entries there is room for.
-/

namespace SimpleShell.Fs

open SimpleShell.Lib

abbrev NAME_MAX : Nat := 30

/-- `struct dir_entry`: the sector at 0, the name at 4, the flag at 35. -/
abbrev DirEntry := ByteBlock 36

/-- `sizeof (struct dir_entry)`. -/
abbrev ENTRY_SIZE : Nat := 36

namespace DirEntry

def inodeSector (e : DirEntry) : Nat := e.u32 0

/-- The name up to its terminator, or the whole field. -/
def name (e : DirEntry) : CString :=
  ((List.range (NAME_MAX + 1)).map fun j => e.byte (4 + j)).takeWhile (· ≠ 0)

def inUse (e : DirEntry) : Bool := e.byte 35 != 0

def setInodeSector (e : DirEntry) (k : Nat) : DirEntry := e.setU32 0 k

/-- `strncpy (e.name, name, sizeof e.name)`, which pads with zeros. -/
def setName (e : DirEntry) (name : CString) : DirEntry :=
  e.splice 4 ((name ++ List.replicate (NAME_MAX + 1) 0).take (NAME_MAX + 1))

def setInUse (e : DirEntry) (b : Bool) : DirEntry :=
  e.splice 35 [if b then 1 else 0]

end DirEntry

/-! ## Paths -/

/-- The character `/`. -/
abbrev SLASH : UInt8 := 47

/-- What `strtok_r (_, "/", _)` yields, one call after another. -/
def tokens (path : CString) : List CString :=
  (path.splitOn SLASH).filter (· ≠ [])

/-- `split_path_filename`: the directory and the file name. -/
def splitPathFilename (path : CString) : CString × CString :=
  let root := if path.head? = some SLASH then [SLASH] else []
  (root ++ (tokens path).dropLast.flatMap (· ++ [SLASH]),
    (tokens path).getLastD [])

/-! ## Handles -/

def FileSys.dir (s : FileSys) (d : Nat) : Dir := (s.mem.dirs.get? d).getD default

def FileSys.setDir (s : FileSys) (d : Nat) (x : Dir) : FileSys :=
  { s with mem := { s.mem with dirs := s.mem.dirs.set d x } }

/-- `dir_open` of an inode that is not null. -/
def dirOpen (s : FileSys) (inode : Nat) : Nat × FileSys :=
  let r := s.mem.dirs.alloc { inode := inode, pos := ENTRY_SIZE, openCnt := 1 }
  (r.1, { s with mem := { s.mem with dirs := r.2 } })

def dirOpenRoot (s : FileSys) : Nat × FileSys :=
  match s.mem.cwd with
  | none =>
      let i := inodeOpen s ROOT_DIR_SECTOR
      let d := dirOpen i.2 i.1
      (d.1, { d.2 with mem := { d.2.mem with cwd := some d.1 } })
  | some d => (d, s.setDir d { s.dir d with openCnt := (s.dir d).openCnt + 1 })

def dirReopen (s : FileSys) (d : Nat) : Nat × FileSys := dirOpen s (s.dir d).inode

/-- `dir_close` of a handle that is not null. -/
def dirClose (s : FileSys) (d : Nat) : FileSys :=
  let x := { s.dir d with openCnt := (s.dir d).openCnt - 1 }
  let s := s.setDir d x
  if x.openCnt = 0 then
    let s := inodeClose s x.inode
    { s with mem := { s.mem with dirs := s.mem.dirs.free d, cwd := none } }
  else s

/-! ## Reading entries -/

/-- `inode_read_at (inode, &e, sizeof e, ofs)`: the entry unless it came up
short. -/
def readEntry (s : FileSys) (inode : Nat) (ofs : Int) :
    Option DirEntry × FileSys :=
  let r := inodeReadAt s.mem.stray s.cache (s.inode inode).data ENTRY_SIZE ofs
  (if r.1.length = ENTRY_SIZE then some (.ofFn fun i => r.1.getD i 0) else none,
    { s with cache := r.2 })

/-- More rounds than a loop over the entries of an inode can take. -/
def entryRounds (s : FileSys) (inode : Nat) : Nat :=
  (inodeLength (s.inode inode).data).toNat / ENTRY_SIZE + 1

/-- The first entry from `ofs` on that `found` holds of, and its offset. -/
def scanEntries (found : DirEntry → Bool) (inode : Nat) :
    Nat → FileSys → Nat → Option (DirEntry × Nat) × FileSys
  | 0, s, _ => (none, s)
  | n + 1, s, ofs =>
      let r := readEntry s inode ofs
      match r.1 with
      | none => (none, r.2)
      | some e =>
          if found e then (some (e, ofs), r.2)
          else scanEntries found inode n r.2 (ofs + ENTRY_SIZE)

/-- `lookup`. -/
def lookup (s : FileSys) (d : Nat) (name : CString) :
    Option (DirEntry × Nat) × FileSys :=
  let i := (s.dir d).inode
  scanEntries (fun e => e.inUse && e.name == name) i (entryRounds s i) s ENTRY_SIZE

def dirIsEmpty (s : FileSys) (d : Nat) : Bool × FileSys :=
  let i := (s.dir d).inode
  let r := scanEntries (fun e => e.inUse) i (entryRounds s i) s ENTRY_SIZE
  (r.1.isNone, r.2)

/-- The inode of the entry that `lookup` found, opened. -/
def openEntry : Option (DirEntry × Nat) → FileSys → Option Nat × FileSys
  | none, s => (none, s)
  | some e, s =>
      let i := inodeOpen s e.1.inodeSector
      (some i.1, i.2)

/-- `dir_lookup`: the inode, opened. -/
def dirLookup (s : FileSys) (d : Nat) (name : CString) : Option Nat × FileSys :=
  if name = [46] then (some (s.dir d).inode, s)
  else if name = [46, 46] then
    let r := readEntry s (s.dir d).inode 0
    let i := inodeOpen r.2 (r.1.getD .zeros).inodeSector
    (some i.1, i.2)
  else
    let r := lookup s d name
    openEntry r.1 r.2

/-- The loop of `dir_open_path` over the tokens. -/
def dirWalk : List CString → FileSys → Nat → Option Nat × FileSys
  | [], s, curr => (some curr, s)
  | token :: rest, s, curr =>
      let r := dirLookup s curr token
      match r.1 with
      | none => (none, dirClose r.2 curr)
      | some inode =>
          let next := dirOpen r.2 inode
          dirWalk rest (dirClose next.2 curr) next.1

def dirOpenPath (s : FileSys) (path : CString) : Option Nat × FileSys :=
  let start :=
    if path.head? = some SLASH then dirOpenRoot s
    else
      match s.mem.cwd with
      | none => dirOpenRoot s
      | some d => dirReopen s d
  let r := dirWalk (tokens path) start.2 start.1
  match r.1 with
  | none => (none, r.2)
  | some curr =>
      if (r.2.inode (r.2.dir curr).inode).removed then (none, dirClose r.2 curr)
      else (some curr, r.2)

/-- Where `dir_readdir` leaves the position: after the entry it found, or after
the last one, every entry having been read on the way to the end of the file. -/
def readdirPos (length pos : Nat) : Option (DirEntry × Nat) → Nat
  | none => pos + (length - pos) / ENTRY_SIZE * ENTRY_SIZE
  | some e => e.2 + ENTRY_SIZE

/-- `dir_readdir`: the next name, the position being kept in the handle. -/
def dirReaddir (s : FileSys) (d : Nat) : Option CString × FileSys :=
  let i := (s.dir d).inode
  let pos := (s.dir d).pos.toNat
  let r := scanEntries (fun e => e.inUse) i (entryRounds s i) s pos
  (r.1.map (·.1.name),
    r.2.setDir d { s.dir d with
      pos := readdirPos (inodeLength (s.inode i).data).toNat pos r.1 })

/-! ## Changing entries -/

/-- The slot `dir_add` takes: the first free one, or the end of the file. -/
def freeSlot (s : FileSys) (inode : Nat) : Nat × FileSys :=
  let r := scanEntries (fun e => !e.inUse) inode (entryRounds s inode) s 0
  (r.1.elim ((inodeLength (s.inode inode).data).toNat / ENTRY_SIZE * ENTRY_SIZE) (·.2),
    r.2)

/-- The entry `dir_add` writes. -/
def newEntry (name : CString) (inodeSector : Nat) : DirEntry :=
  DirEntry.setInodeSector (DirEntry.setName (DirEntry.setInUse .zeros true) name)
    inodeSector

def writeEntry (s : FileSys) (inode : Nat) (e : DirEntry) (ofs : Int) :
    Bool × FileSys :=
  let w := inodeWriteAt allocSector s inode e.toList ofs
  (w.1 = ENTRY_SIZE, w.2)

/-- What `dir_add` does about a name that is not listed. A new directory is told
its parent first. -/
def addEntry (s : FileSys) (d : Nat) (name : CString) (inodeSector : Nat)
    (isDir : Bool) : Bool × FileSys :=
  let c : Bool × FileSys :=
    if isDir then
      let i := inodeOpen s inodeSector
      let child := dirOpen i.2 i.1
      let e := DirEntry.setInodeSector (DirEntry.setInUse .zeros true)
        (child.2.inode (child.2.dir d).inode).sector
      let w := writeEntry child.2 i.1 e 0
      (w.1, dirClose w.2 child.1)
    else (true, s)
  if c.1 = false then (false, c.2)
  else
    let f := freeSlot c.2 (c.2.dir d).inode
    writeEntry f.2 (f.2.dir d).inode (newEntry name inodeSector) f.1

/-- `dir_add`. -/
def dirAdd (s : FileSys) (d : Nat) (name : CString) (inodeSector : Nat)
    (isDir : Bool) : Bool × FileSys :=
  if name = [] ∨ NAME_MAX < name.length then (false, s)
  else
    let r := lookup s d name
    if r.1.isSome then (false, r.2) else addEntry r.2 d name inodeSector isDir

/-- What `dir_remove` does with the entry that `lookup` found. -/
def removeEntry (d : Nat) : Option (DirEntry × Nat) → FileSys → Bool × FileSys
  | none, s => (false, s)
  | some e, s =>
      let i := inodeOpen s e.1.inodeSector
      let t : Bool × FileSys :=
        if inodeIsDir (i.2.inode i.1).data then
          let target := dirOpen i.2 i.1
          let empty := dirIsEmpty target.2 target.1
          (empty.1, dirClose empty.2 target.1)
        else (true, i.2)
      if t.1 = false then (false, inodeClose t.2 i.1)
      else
        let w := writeEntry t.2 (t.2.dir d).inode (e.1.setInUse false) e.2
        if w.1 = false then (false, inodeClose w.2 i.1)
        else (true, inodeClose (inodeRemove w.2 i.1) i.1)

/-- `dir_remove`. -/
def dirRemove (s : FileSys) (d : Nat) (name : CString) : Bool × FileSys :=
  let r := lookup s d name
  removeEntry d r.1 r.2

/-- `dir_create`. -/
def dirCreate (s : FileSys) (sector entryCnt : Nat) : Bool × FileSys :=
  let c := inodeCreate s sector (entryCnt * ENTRY_SIZE) true
  if c.1 = false then (false, c.2)
  else
    let i := inodeOpen c.2 sector
    let d := dirOpen i.2 i.1
    let e := DirEntry.setInUse (DirEntry.setInodeSector .zeros sector) true
    let w := writeEntry d.2 i.1 e 0
    (w.1, dirClose w.2 d.1)

end SimpleShell.Fs
