import SimpleShell.A2.Kernel
import SimpleShell.Shell.Memory

/-!
# The kernel of the third shell

`cpu.c`, `pcb.c` and `kernel.c`. Every process has the pages of its whole script, of which two
are loaded at first; a page has the numbers of three neighbouring frames. The program's lists
hold pointers: a process is known here by its id, which no other process gets, and a page by
its process and its number. `parseInput` comes in as a function on the state, `σ` being what
the kernel does not look at. Where the program calls `exit` or follows a pointer to nothing,
`stopped` is set.

`executed` is a trace of the lines that were passed to `parseInput`.
-/

namespace SimpleShell.A3

open SimpleShell.Shell
open SimpleShell.A2 (readLine pidString)

structure Page where
  index : Nat → Nat
  validBit : Nat → Bool
  pageIndex : Nat
  pagePid : Nat

/-- `sourceFile` is what is left to read of it. -/
structure PCB where
  pid : Nat
  size : Int
  programCounter : Nat → Nat
  pageTable : Nat → Page
  pageTableSize : Nat
  sourceFile : CString

structure Kernel (σ : Type) where
  shellmemory : ShellMemory
  pcbs : Nat → PCB
  queue : List Nat
  lruCache : List (Nat × Nat)
  allPcb : List Nat
  pidCounter : Nat
  executed : List (Nat × CString)
  stopped : Bool
  rest : σ

variable {σ : Type}

namespace Kernel

def page (k : Kernel σ) (p : Nat × Nat) : Page := (k.pcbs p.1).pageTable p.2

def setPcb (k : Kernel σ) (pid : Nat) (pcb : PCB) : Kernel σ :=
  { k with pcbs := Function.update k.pcbs pid pcb }

def stop (k : Kernel σ) : Kernel σ := { k with stopped := true }

end Kernel

def PCB.setPage (pcb : PCB) (i : Nat) (page : Page) : PCB :=
  { pcb with pageTable := Function.update pcb.pageTable i page }

/-! ## pcb.c -/

/-- `fgets (line, 999, file)`: the line and what is left. -/
def fgets (file : CString) : Option (CString × CString) :=
  if file = [] then none
  else some ((readLine 998 file).1, (readLine 998 file).2.1)

/-- The loop of `count_lines`, with `last` and `count`. -/
def countLoop : CString → Char → Nat → Nat
  | [], _, count => count
  | c :: rest, last, count =>
      countLoop rest c (if c = '\n' ∧ last ≠ '\n' then count + 1 else count)

def countLines (script : CString) : Nat := countLoop script '\n' 0 + 1

def pageTableSize (lines : Nat) : Nat := if lines % 3 = 0 then lines / 3 else lines / 3 + 1

def pageInit (pagePid pageTableIndex : Nat) : Page :=
  ⟨fun _ => 1000, fun _ => false, pageTableIndex, pagePid⟩

/-- The loop that reads the lines of a page into its frames. -/
def fillPage (pid : CString) : List Nat → ShellMemory → Page → CString →
    ShellMemory × Page × CString
  | [], mem, page, file => (mem, page, file)
  | j :: places, mem, page, file =>
      match fgets file with
      | none => (mem, page, file)
      | some (line, file) =>
          fillPage pid places (memSetValueAt mem (page.index j) pid line)
            { page with validBit := Function.update page.validBit j true } file

/-- `load_PAGE`, and the loop of `PCB_init`: three frames are found and three lines read. -/
def loadPage (c : Sizes) (pid i : Nat) (k : Kernel σ) : Int × Kernel σ :=
  match frameAlloc c k.shellmemory (pidString pid) with
  | none => (1, k)
  | some (start, mem) =>
      let pcb := k.pcbs pid
      let page := { pcb.pageTable i with index := fun j => start + j, validBit := fun _ => false }
      let r := fillPage (pidString pid) [0, 1, 2] mem page pcb.sourceFile
      (0, { k with
        shellmemory := r.1
        pcbs := Function.update k.pcbs pid { pcb.setPage i r.2.1 with sourceFile := r.2.2 } })

def pageEvict (pid i : Nat) (k : Kernel σ) : Kernel σ :=
  let pcb := k.pcbs pid
  let page := pcb.pageTable i
  { k with
    shellmemory := [0, 1, 2].foldl (fun mem j => memFreeAt mem (page.index j)) k.shellmemory
    pcbs := Function.update k.pcbs pid
      (pcb.setPage i { page with index := fun _ => 0, validBit := fun _ => false }) }

/-- `PCB_init` as far as the tables go. -/
def pcbStart (pid : Nat) (script : CString) : PCB where
  pid := pid
  size := countLines script
  programCounter := fun _ => 0
  pageTable := pageInit pid
  pageTableSize := pageTableSize (countLines script)
  sourceFile := script

def pageLimit (pcb : PCB) : Nat := min 2 pcb.pageTableSize

/-- A page that `PCB_init` loads; without frames it calls `exit`. -/
def initPage (c : Sizes) (pid : Nat) (k : Kernel σ) (i : Nat) : Kernel σ :=
  let r := loadPage c pid i k
  if r.1 = 1 then r.2.stop else r.2

def clearPcb (pcb : PCB) (mem : ShellMemory) : ShellMemory :=
  (List.range pcb.pageTableSize).foldl (fun mem i =>
    [0, 1, 2].foldl (fun mem j => clearFrame mem ((pcb.pageTable i).index j)) mem) mem

def pcbDone (pcb : PCB) : Bool :=
  (List.range pcb.pageTableSize).all fun i => decide (pcb.programCounter i = 3)

/-! ## cpu.c -/

variable (parseInput : CString → Kernel σ → Int × Kernel σ)

/-- Line `j` of page `i`. -/
def cpuRun (pid i j : Nat) (k : Kernel σ) : Int × Kernel σ :=
  if (k.page (pid, i)).validBit j = false then (1, k)
  else
    let line := memGetValueAt k.shellmemory ((k.page (pid, i)).index j)
    let r := parseInput line { k with executed := k.executed ++ [(pid, line)] }
    let pcb := r.2.pcbs pid
    (r.1, r.2.setPcb pid { pcb with
      programCounter := Function.update pcb.programCounter i (pcb.programCounter i + 1)
      size := pcb.size - 1 })

/-! ## kernel.c -/

/-- `PAGE_equal`. -/
def pageEqual (k : Kernel σ) (p q : Nat × Nat) : Bool :=
  decide ((k.page p).index 0 = (k.page q).index 0)

/-- The end of `run_proc` after a line that was run. -/
def touchPage (pid i : Nat) (k : Kernel σ) : Kernel σ :=
  match k.lruCache.find? (pageEqual k (pid, i)) with
  | none => k.stop
  | some page => { k with lruCache := page :: k.lruCache.eraseP (pageEqual k (pid, i)) }

/-- The least recently used page makes room. The search for its process ends at the tail of
another list, so that one that is not there is not noticed. -/
def evictTail (k : Kernel σ) : Kernel σ :=
  match k.lruCache.getLast? with
  | none => k.stop
  | some victim =>
      let page := k.page victim
      if page.pagePid ∈ k.allPcb then
        pageEvict page.pagePid page.pageIndex { k with lruCache := k.lruCache.dropLast }
      else k.stop

/-- The page-fault path of `run_proc`. -/
def pageFault (c : Sizes) (pid i : Nat) (k : Kernel σ) : Kernel σ :=
  let r := loadPage c pid i k
  let k := if r.1 = 1 then (loadPage c pid i (evictTail r.2)).2 else r.2
  { k with lruCache := (pid, i) :: k.lruCache, queue := k.queue ++ [pid] }

def runProc (c : Sizes) (pid i j : Nat) (k : Kernel σ) : Int × Kernel σ :=
  let r := cpuRun parseInput pid i j k
  if r.1 = 1 then (1, pageFault c pid i r.2) else (0, touchPage pid i r.2)

def newProc (c : Sizes) (script : CString) (k : Kernel σ) : Kernel σ :=
  let pid := k.pidCounter
  let pcb := pcbStart pid script
  let pages := List.range (pageLimit pcb)
  let k := pages.foldl (initPage c pid) { k.setPcb pid pcb with pidCounter := pid + 1 }
  { k with
    allPcb := k.allPcb ++ [pid]
    queue := k.queue ++ [pid]
    lruCache := pages.foldl (fun lru i => (pid, i) :: lru) k.lruCache }

/-- The first page that is not done, and its next line. -/
def nextPage (pcb : PCB) : Nat :=
  ((List.range pcb.pageTableSize).find? fun i => decide (pcb.programCounter i ≠ 3)).getD
    pcb.pageTableSize

def runNext (c : Sizes) (pid : Nat) (k : Kernel σ) : Int × Kernel σ :=
  let pcb := k.pcbs pid
  runProc parseInput c pid (nextPage pcb) (pcb.programCounter (nextPage pcb)) k

/-- A round of `run_proc_RR` for the process at the head of the queue. -/
def rrTurn (c : Sizes) (pid : Nat) (k : Kernel σ) : Kernel σ :=
  if 1 < (k.pcbs pid).size then
    let r := runNext parseInput c pid k
    if r.1 = 1 then r.2
    else
      let r := runNext parseInput c pid r.2
      if r.1 = 1 then r.2 else { r.2 with queue := r.2.queue ++ [pid] }
  else if (k.pcbs pid).size = 1 then (runNext parseInput c pid k).2
  else k

def queueDone (k : Kernel σ) : Bool := k.queue.all fun pid => pcbDone (k.pcbs pid)

/-- What `run_proc_RR` does when the queue is done. -/
def rrEnd (k : Kernel σ) : Kernel σ :=
  { k with
    shellmemory := k.allPcb.foldl (fun mem pid => clearPcb (k.pcbs pid) mem) k.shellmemory
    queue := []
    lruCache := []
    allPcb := [] }

/-- `run_proc_RR`, if it is done after that many rounds. -/
def runProcRR (c : Sizes) : Nat → Kernel σ → Option (Kernel σ)
  | fuel, k =>
      if k.stopped then some k
      else if queueDone k then some (rrEnd k)
      else
        match fuel, k.queue with
        | fuel + 1, pid :: queue =>
            runProcRR c fuel (rrTurn parseInput c pid { k with queue := queue })
        | _, _ => none

end SimpleShell.A3
