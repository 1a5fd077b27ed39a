import SimpleShell.Fs.Fsutil2

/-!
# The shell's file commands in a row

One `Command` is a line that the interpreter passes on to the file system, with
its arguments; what the program finds outside its own memory, the host's files
and junk in fresh buffers, is part of the command. `exec` is the effect of one
command and `run` that of a list of them.
-/

namespace SimpleShell.Fs

open SimpleShell.Lib

inductive Command where
  | create (name : CString) (size : Int)
  | write (name : CString) (words : List CString)
  | read (name : CString) (size : Int)
  | seek (name : CString) (offset : Int)
  | size (name : CString)
  | cat (name : CString)
  | rm (name : CString)
  | ls
  | findFile
  | fragmentationDegree
  | recover0
  | copyIn (name : CString) (content : List UInt8)
  | copyOut (name : CString)
  | freespace
  | defragment (junk : Junk)

namespace FileSys

/-- `write` without words is refused by the interpreter. -/
def exec (s : FileSys) : Command → FileSys
  | .create name size => (fsutilCreate s name size).2
  | .write name words =>
      if words = [] then s else (fsutilWrite s name (writeBuffer words)).2
  | .read name size => (fsutilRead s name size).2
  | .seek name offset => (fsutilSeek s name offset).2
  | .size name => (fsutilSize s name).2
  | .cat name => (fsutilCat s name).2
  | .rm name => (fsutilRm s name).2
  | .ls => (fsutilLs s).2
  | .findFile => (Fs.findFile s).2
  | .fragmentationDegree => (Fs.fragmentationDegree s).2
  | .recover0 => Fs.recover0 s
  | .copyIn name content => (Fs.copyIn s name content).2
  | .copyOut name => (Fs.copyOut s name).2
  | .freespace => s
  | .defragment junk => Fs.defragment junk s

def run (s : FileSys) (commands : List Command) : FileSys := commands.foldl exec s

end FileSys

/-- 1 to 30 characters, no `/`, not `.` or `..`; a C string holds no NUL. -/
structure PlainName (name : CString) : Prop where
  nonempty : name ≠ []
  length : name.length ≤ NAME_MAX
  noSlash : SLASH ∉ name
  noNul : (0 : UInt8) ∉ name
  notDot : name ≠ [46]
  notDotDot : name ≠ [46, 46]

end SimpleShell.Fs
