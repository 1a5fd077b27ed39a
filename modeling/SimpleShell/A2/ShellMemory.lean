import SimpleShell.Shell.Memory

/-!
# Frames, pages and processes of the second shell

The frame store of the second version of the shell, one line a frame, and what
its kernel keeps: the page tables, the queue of pages in the order in which they
were first executed, and the ready queue. A frame is never given back except to
a victim's successor. Frame numbers are integers, since a page of a short script
has -1 where it has no line.

A `Page` also keeps its process and the texts stored in its frames when it was
loaded, and the `Kernel` a trace of what happened; the program keeps neither, and
nothing it computes depends on them.

Where the program follows a null pointer or writes outside an array, `stopped` is
set, and nothing happens any more.
-/

namespace SimpleShell.A2

open SimpleShell.Shell (CString MemoryStruct noneText)

structure Page where
  index : Nat → Int
  validBits : Nat → Bool
  owner : Nat
  text : Nat → CString

/-- `PC` is a page number and a place on the page; `PC[1]` runs from 0 to 2. -/
structure PCB where
  priority : Bool
  filename : CString
  pid : Nat
  PC : Nat × Nat
  jobLengthScore : Int
  lastLineNumber : Int
  lastPageNumber : Int
  lineLoaded : Nat
  pageTable : List (Option Page)

abbrev Memory := Int → MemoryStruct

/-- What was in the frame store and the page queue at some moment. -/
structure Snapshot where
  shellmemory : Memory
  lruQueue : List Page

/-- A line that was executed: for which process, at which place of its script. -/
structure Entry where
  pid : Nat
  place : Nat
  line : CString

/-- The lines executed, the processes that joined the ready queue and those
terminated, with their files, the states in which `allocate_frame` found no free
frame, and the states in which a load began, with the number of frames it asks
for. -/
structure Trace where
  executed : List Entry
  made : List (Nat × CString)
  terminated : List (Nat × CString)
  full : List Snapshot
  loads : List (Snapshot × Nat)

structure Kernel where
  shellmemory : Memory
  lruQueue : List Page
  readyQueue : List PCB
  pidCounter : Nat
  stopped : Bool
  trace : Trace

/-- What the kernel finds around it: the number of frames, the scripts, the
scripts that the `run` and `exec` commands of a line load, and what a fresh
process has for a score, which nobody initialises. -/
structure World where
  FRAME_STORE_SIZE : Nat
  files : CString → Option CString
  loadedBy : CString → List CString
  junkScore : Nat → Int

def pidString (pid : Nat) : CString := Nat.toDigits 10 pid

/-! ## Pages -/

def makePAGE (owner : Nat) : Page := ⟨fun _ => 0, fun _ => false, owner, fun _ => []⟩

def setPageIndex (page : Page) (i : Nat) (value : Int) : Page :=
  { page with index := Function.update page.index i value }

def setPageValidBits (page : Page) (i : Nat) (value : Bool) : Page :=
  { page with validBits := Function.update page.validBits i value }

/-- The trace's share of storing a line. -/
def setPageText (page : Page) (i : Nat) (text : CString) : Page :=
  { page with text := Function.update page.text i text }

/-! ## Frames -/

variable (w : World)

def memFreeLine (mem : Memory) (i : Int) : Memory :=
  Function.update mem i ⟨noneText, noneText⟩

def storeLine (mem : Memory) (i : Int) (pid : Nat) (valueIn : CString) : Memory :=
  Function.update mem i ⟨pidString pid, valueIn⟩

def freeFrame (mem : Memory) : Option Nat :=
  (List.range w.FRAME_STORE_SIZE).find? fun (i : Nat) => decide ((mem i).var = noneText)

def snapshot (k : Kernel) : Snapshot := ⟨k.shellmemory, k.lruQueue⟩

/-- None of its places has -1 for a frame. -/
def Page.Whole (page : Page) : Prop := ∀ j < 3, page.index j ≠ -1

instance (page : Page) : Decidable page.Whole := by
  unfold Page.Whole
  infer_instance

/-- The return from `allocate_frame`: a process id of two digits has overrun
`pid_string` by then. -/
def frameReturn (pid : Nat) (k : Kernel) : Kernel := { k with stopped := decide (10 ≤ pid) }

/-- The frame and the kernel after. With no free frame and no page in the queue
the program follows a null pointer, and with a -1 in the victim it frees what lies
in front of the frame store. -/
def allocateFrame (valueIn : CString) (pid : Nat) (k : Kernel) : Int × Kernel :=
  if k.stopped then (0, k)
  else
    match freeFrame w k.shellmemory with
    | some i =>
        (i, frameReturn pid { k with shellmemory := storeLine k.shellmemory i pid valueIn })
    | none =>
        let k := { k with trace := { k.trace with full := k.trace.full ++ [snapshot k] } }
        match k.lruQueue with
        | [] => (0, { k with stopped := true })
        | victim :: rest =>
            if victim.Whole then
              let mem := (List.range 3).foldl (fun m i => memFreeLine m (victim.index i))
                k.shellmemory
              let newIndex := victim.index 0
              (newIndex, frameReturn pid
                { k with shellmemory := storeLine mem newIndex pid valueIn, lruQueue := rest })
            else (0, { k with lruQueue := rest, stopped := true })

end SimpleShell.A2
