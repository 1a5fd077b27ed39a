import SimpleShell.Fs.Files

/-!
# The file commands

`fsutil.c`: what the shell calls for each of its file commands. Four of them
begin alike, with the file of the table or one that `filesys_open` has just made
and that is put there; `openFile` is that beginning. Loops over `dir_readdir`
are `readdirLoop`, which folds over the names while the handle keeps the
position.
-/

namespace SimpleShell.Fs

open SimpleShell.Lib

/-- `get_file_by_fname`, or else `filesys_open` and `add_to_file_table`. -/
def openFile (s : FileSys) (fileName : CString) : Option File × FileSys :=
  match getFileByFname s fileName with
  | some f => (some f, s)
  | none =>
      let r := filesysOpen s fileName
      match r.1 with
      | none => (none, r.2)
      | some f => (some f, addToFileTable r.2 f fileName)

/-- A loop over the names that `dir_readdir` yields. -/
def readdirLoop {α : Type} (body : α → CString → FileSys → α × FileSys) (d : Nat) :
    Nat → α → FileSys → α × FileSys
  | 0, a, s => (a, s)
  | n + 1, a, s =>
      let r := dirReaddir s d
      match r.1 with
      | none => (a, r.2)
      | some name =>
          let b := body a name r.2
          readdirLoop body d n b.1 b.2

/-- The loop between `dir_open_root` and `dir_close`. -/
def withRootNames {α : Type} (body : α → CString → FileSys → α × FileSys) (a : α)
    (s : FileSys) : α × FileSys :=
  let d := dirOpenRoot s
  let r := readdirLoop body d.1 (entryRounds d.2 (d.2.dir d.1).inode) a d.2
  (r.1, dirClose r.2 d.1)

/-- `fsutil_ls`: the names it prints. -/
def fsutilLs (s : FileSys) : List CString × FileSys :=
  withRootNames (fun names name s => (names ++ [name], s)) [] s

/-- The loop of `fsutil_cat`: what `hex_dump` is given, and the file. Every round
but the last reads at least a byte. -/
def catLoop (fileSize : Int) : Nat → FileSys → File →
    (List (Int × List UInt8) × File) × FileSys
  | 0, s, f => (([], f), s)
  | n + 1, s, f =>
      let r := fileRead s f fileSize
      if r.1.1.length = 0 then (([], r.1.2), r.2)
      else
        let t := catLoop fileSize n r.2 r.1.2
        (((f.pos, r.1.1) :: t.1.1, t.1.2), t.2)

/-- `fsutil_cat`: the status and the pieces it dumps. -/
def fsutilCat (s : FileSys) (fileName : CString) :
    (Int × List (Int × List UInt8)) × FileSys :=
  let opened := (getFileByFname s fileName).isNone
  let o := openFile s fileName
  match o.1 with
  | none => ((-1, []), o.2)
  | some f =>
      let curOffset := f.pos
      let fileSize := fileLength o.2 f
      let r := catLoop fileSize (fileSize.toNat + 1) o.2 (fileSeek f 0)
      let s := setFile r.2 fileName (fileSeek r.1.2 curOffset)
      ((0, r.1.1), if opened then removeFromFileTable s fileName else s)

def fsutilRm (s : FileSys) (fileName : CString) : Bool × FileSys :=
  filesysRemove (removeFromFileTable s fileName) fileName

/-- `fsutil_create`; `isize` goes through an `unsigned` to an `offset_t`. -/
def fsutilCreate (s : FileSys) (fname : CString) (isize : Int) : Bool × FileSys :=
  if fname.length = 0 ∨ 255 ≤ fname.length then (false, s)
  else filesysCreate s fname isize false

def fsutilWrite (s : FileSys) (fileName : CString) (buffer : List UInt8) : Int × FileSys :=
  let o := openFile s fileName
  match o.1 with
  | none => (-1, o.2)
  | some f =>
      let w := fileWrite o.2 f buffer
      (w.1.1, setFile w.2 fileName w.1.2)

/-- `fsutil_read`: the value returned and the bytes put in the buffer. -/
def fsutilRead (s : FileSys) (fileName : CString) (size : Int) :
    (Int × List UInt8) × FileSys :=
  let o := openFile s fileName
  match o.1 with
  | none => ((-1, []), o.2)
  | some f =>
      let r := fileRead o.2 f size
      ((r.1.1.length, r.1.1), setFile r.2 fileName r.1.2)

def fsutilSize (s : FileSys) (fileName : CString) : Int × FileSys :=
  let o := openFile s fileName
  match o.1 with
  | none => (-1, o.2)
  | some f => (fileLength o.2 f, setFile o.2 fileName (fileSeek f f.pos))

def fsutilSeek (s : FileSys) (fileName : CString) (offset : Int) : Int × FileSys :=
  let o := openFile s fileName
  match o.1 with
  | none => (-1, o.2)
  | some f => (0, setFile o.2 fileName (fileSeek f offset))

def fsutilClose (s : FileSys) (fileName : CString) : FileSys :=
  removeFromFileTable s fileName

def fsutilFreespace (s : FileSys) : Int := s.freeSectors

/-- The buffer of the `write` command: the words, each followed by a space that
the next one or, at the end, a NUL replaces, and one more NUL. -/
def writeBuffer (words : List CString) : List UInt8 :=
  [32].intercalate words ++ [0, 0]

end SimpleShell.Fs
