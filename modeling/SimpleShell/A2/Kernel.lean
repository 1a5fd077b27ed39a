import SimpleShell.A2.ReadyQueue

/-!
# The kernel of the second shell

The two loaders, `process_initialize`, `execute_process` and the loops of
`schedule_by_policy`. `active` is never set, and while a line of a script runs
`in_background` is, so that a `run` or `exec` in a script loads its processes and
leaves them to the loop that is running already.
-/

namespace SimpleShell.A2

open SimpleShell.Shell (CString MemoryStruct noneText)

/-- After `mem_init`, with no process made yet. -/
def kernelStart : Kernel :=
  ⟨fun _ => ⟨noneText, noneText⟩, [], [], 1, false, ⟨[], [], [], [], []⟩⟩

/-- A disk on which every name is this script, whose lines load nothing. -/
def scriptWorld (frames : Nat) (content : CString) : World :=
  ⟨frames, fun _ => some content, fun _ => [], fun _ => 0⟩

/-! ## Reading a script -/

/-- An open file: what is left of it, and whether a read has met its end. -/
structure Stream where
  rest : CString
  eof : Bool

/-- At most `n` characters up to a newline: the text, what is left, and whether
the end was met. -/
def readLine : Nat → CString → CString × CString × Bool
  | 0, rest => ([], rest, false)
  | _ + 1, [] => ([], [], true)
  | n + 1, letter :: rest =>
      if letter = '\n' then (['\n'], rest, false)
      else (letter :: (readLine n rest).1, (readLine n rest).2)

/-- `fgets(command, 100, fp)`; at the end of the file the buffer keeps what it
had. -/
def fgets (command : CString) (fp : Stream) : CString × Stream :=
  let r := readLine 99 fp.rest
  (if r.1 = [] then command else r.1, ⟨r.2.1, r.2.2⟩)

def countLines (content : CString) : Nat := content.count '\n' + 1

/-! ## The loaders -/

variable (w : World)

/-- The local variables of a loader, with the process and the kernel. -/
structure Load where
  fp : Stream
  command : CString
  lineCount : Nat
  lineIndexInPage : Nat
  lineLocation : Int
  page : Page
  pcb : PCB
  kernel : Kernel

/-- One turn of the loop that reads lines. -/
def loadLine (pageIndex : Nat) (l : Load) : Load :=
  let lineIndexInPage := l.lineCount % 3
  let page := if lineIndexInPage = 0 then makePAGE l.pcb.pid else l.page
  let line := fgets l.command l.fp
  let frame := allocateFrame w line.1 l.pcb.pid l.kernel
  let page := setPageIndex page lineIndexInPage frame.1
  let page := setPageValidBits page lineIndexInPage true
  let page := setPageText page lineIndexInPage line.1
  { fp := line.2, command := line.1, lineCount := l.lineCount + 1,
    lineIndexInPage := lineIndexInPage, lineLocation := frame.1, page := page,
    pcb := { l.pcb with pageTable := l.pcb.pageTable.set pageIndex (some page) },
    kernel := frame.2 }

/-- The loop; `pageIndex` gives the page for a line count. -/
def loadLoop (pageIndex : Nat → Nat) : Nat → Load → Load
  | 0, l => l
  | n + 1, l => if l.fp.eof then l else loadLoop pageIndex n (loadLine w (pageIndex l.lineCount) l)

/-- What a loader records about the process after the loop. -/
def loadEnd (pageIndex : Nat) (l : Load) : Load :=
  let pcb :=
    if l.fp.eof then { l.pcb with lastLineNumber := l.lineLocation, lastPageNumber := pageIndex }
    else l.pcb
  { l with pcb := { pcb with lineLoaded := l.lineCount } }

/-- One frame for a place of the page without a line; the page gets the frame's
number, or -1. -/
def placeHolder (text : CString) (keep : Bool) (pageIndex : Nat) (l : Load) (i : Nat) : Load :=
  let frame := allocateFrame w text l.pcb.pid l.kernel
  let page := setPageIndex l.page i (if keep then frame.1 else -1)
  let page := setPageValidBits page i false
  let page := setPageText page i text
  { l with
    lineIndexInPage := i, page := page,
    pcb := { l.pcb with pageTable := l.pcb.pageTable.set pageIndex (some page) },
    kernel := frame.2 }

/-- The places of the last page that got no line. -/
def placesLeft (l : Load) : List Nat :=
  List.range' (l.lineIndexInPage + 1) (2 - l.lineIndexInPage)

/-- How many frames a load of so many pages asks for: with a process id of two
digits it gets no further than the first. -/
def framesAsked (pid pages : Nat) : Nat := if pid < 10 then 3 * pages else 1

def noteLoad (pid pages : Nat) (k : Kernel) : Kernel :=
  { k with trace :=
      { k.trace with loads := k.trace.loads ++ [(snapshot k, framesAsked pid pages)] } }

/-- The number of lines a loader gets, reading at most `n`. -/
def linesRead : Nat → Stream → Nat
  | 0, _ => 0
  | n + 1, fp => if fp.eof then 0 else linesRead n (fgets [] fp).2 + 1

def loadPagesToMemory (fp : Stream) (pcb : PCB) (k : Kernel) : PCB × Kernel :=
  let l : Load := ⟨fp, [], 0, 0, 0, makePAGE pcb.pid, pcb,
    noteLoad pcb.pid ((linesRead 6 fp + 2) / 3) k⟩
  let l := loadLoop w (fun lineCount => lineCount / 3) 6 l
  let pageIndex := (l.lineCount - 1) / 3
  let l := loadEnd pageIndex l
  let l := (placesLeft l).foldl (placeHolder w l.command false pageIndex) l
  (l.pcb, l.kernel)

/-- The lines that are loaded already. -/
def skipLines : Nat → CString → Stream → CString × Stream
  | 0, command, fp => (command, fp)
  | n + 1, command, fp => skipLines n (fgets command fp).1 (fgets command fp).2

def loadMissingPageToMem (pcb : PCB) (k : Kernel) : PCB × Kernel :=
  let lineCount := pcb.lineLoaded
  let pageIndex := lineCount / 3
  let skipped := skipLines lineCount [] ⟨(w.files pcb.filename).getD [], false⟩
  let l : Load := ⟨skipped.2, skipped.1, lineCount, 0, 0, makePAGE pcb.pid, pcb,
    noteLoad pcb.pid 1 k⟩
  let l := loadLoop w (fun _ => pageIndex) 3 l
  let l := loadEnd pageIndex l
  let l := (placesLeft l).foldl (placeHolder w [] true pageIndex) l
  (l.pcb, l.kernel)

/-! ## Processes -/

def makePCB (pageTable : List (Option Page)) (filename : CString) (k : Kernel) : PCB × Kernel :=
  (⟨false, filename, k.pidCounter, (0, 0), w.junkScore k.pidCounter, -1, -1, 0, pageTable⟩,
    { k with pidCounter := k.pidCounter + 1 })

/-- What tells a process from all others, with its file. -/
def PCB.tag (pcb : PCB) : Nat × CString := (pcb.pid, pcb.filename)

/-- The end of `process_initialize`. -/
def enqueue (pcb : PCB) (k : Kernel) : Kernel :=
  { k with
    readyQueue := readyQueueAddToTail k.readyQueue pcb
    trace := { k.trace with made := k.trace.made ++ [pcb.tag] } }

/-- A script that does not exist changes nothing. -/
def processInitialize (filename : CString) (k : Kernel) : Kernel :=
  if k.stopped then k
  else
    match w.files filename with
    | none => k
    | some content =>
        let pageTable := List.replicate (countLines content / 3 + 1) none
        let made := makePCB w pageTable filename k
        let loaded := loadPagesToMemory w ⟨content, false⟩ made.1 made.2
        if loaded.2.stopped then loaded.2 else enqueue loaded.1 loaded.2

def updatePC (pcb : PCB) : PCB :=
  if pcb.PC.2 < 2 then { pcb with PC := (pcb.PC.1, pcb.PC.2 + 1) }
  else if pcb.lastPageNumber = -1 ∨ pcb.PC.1 < pcb.lastPageNumber then
    { pcb with PC := (pcb.PC.1 + 1, 0) }
  else pcb

def lruQueueAddToTail (page : Page) (k : Kernel) : Kernel :=
  { k with lruQueue := k.lruQueue ++ [page] }

/-- A line of a script, as far as the kernel is concerned. -/
def parseInput (line : CString) (k : Kernel) : Kernel :=
  (w.loadedBy line).foldl (fun k filename => processInitialize w filename k) k

/-- The number of the line a process executes next. -/
def PCB.at (pcb : PCB) : Nat := 3 * pcb.PC.1 + pcb.PC.2

def noteExecuted (entry : Entry) (k : Kernel) : Kernel :=
  { k with trace := { k.trace with executed := k.trace.executed ++ [entry] } }

def terminateProcess (pcb : PCB) (k : Kernel) : Kernel :=
  { k with trace := { k.trace with terminated := k.trace.terminated ++ [pcb.tag] } }

/-- `mem_get_value_at_line`, which has a null pointer for a number below 0. -/
def memGetValueAtLine (index : Int) (k : Kernel) : Option CString :=
  if index < 0 then none else some (k.shellmemory index).value

/-- Whether the process terminated, the process and the kernel after. -/
def executeProcess : Nat → PCB → Kernel → Bool × PCB × Kernel
  | 0, pcb, k => (false, pcb, k)
  | quanta + 1, pcb, k =>
      match (pcb.pageTable[pcb.PC.1]?).join with
      | none => (false, loadMissingPageToMem w pcb k)
      | some page =>
          let k := if pcb.PC.2 = 0 then lruQueueAddToTail page k else k
          let curLineIndex := page.index pcb.PC.2
          let pcb := { pcb with priority := false }
          match memGetValueAtLine curLineIndex k with
          | none => (false, pcb, { k with stopped := true })
          | some line =>
              let k := parseInput w line (noteExecuted ⟨pcb.pid, pcb.at, line⟩ k)
              if k.stopped then (false, pcb, k)
              else if curLineIndex = pcb.lastLineNumber then
                (true, pcb, terminateProcess pcb k)
              else executeProcess quanta (updatePC pcb) k

/-! ## Scheduling -/

/-- `ready_queue_pop_head`: the head and the kernel with the rest. -/
def popHead (k : Kernel) (queue : List PCB) : Option (PCB × Kernel) :=
  match queue with
  | [] => none
  | cur :: rest => some (cur, { k with readyQueue := rest })

/-- One turn of a scheduler's loop: take a process, let it run, put it back
unless it terminated. An empty queue ends the loop. -/
def schedulerTurn (pick : Kernel → Option (PCB × Kernel)) (quanta : Nat)
    (putBack : List PCB → PCB → List PCB) (k : Kernel) : Kernel :=
  if k.stopped then k
  else
    match pick k with
    | none => k
    | some (cur, k) =>
        if k.stopped then k
        else
          let r := executeProcess w quanta cur k
          if r.1 || r.2.2.stopped then r.2.2
          else { r.2.2 with readyQueue := putBack r.2.2.readyQueue r.2.1 }

def popShortestJob (k : Kernel) : Option (PCB × Kernel) := popHead k (sortReadyQueue k.readyQueue)

/-- `AGING` looks once more at the process it took, and lets a shorter one go
first. On a queue of one process with a score above `MAX_INT` there is none to
promote, and the program follows a null pointer. -/
def agingPick (k : Kernel) : Option (PCB × Kernel) :=
  match k.readyQueue with
  | [] => none
  | cur :: rest =>
      let shortest := readyQueueGetShortestJobScore rest
      let promotes := decide (shortest < cur.jobLengthScore)
      let queue :=
        if promotes then readyQueueAddToTail (readyQueuePromote rest shortest) cur
        else cur :: rest
      match queue with
      | [] => none
      | next :: others =>
          some (next, { k with
            readyQueue := readyQueueDecrementJobLengthScore others
            stopped := promotes && rest.isEmpty })

def schedulerFCFS (k : Kernel) : Kernel :=
  schedulerTurn w (fun k => popHead k k.readyQueue) MAX_INT readyQueueAddToHead k

/-- What `execute_process` answers is not looked at. -/
def schedulerSJF (k : Kernel) : Kernel :=
  schedulerTurn w popShortestJob MAX_INT (fun queue _ => queue) k

def schedulerAGING (k : Kernel) : Kernel :=
  schedulerTurn w agingPick 1 readyQueueAddToHead k

def schedulerRR (quanta : Nat) (k : Kernel) : Kernel :=
  schedulerTurn w (fun k => popHead k k.readyQueue) quanta readyQueueAddToTail k

inductive Policy where
  | FCFS
  | SJF
  | RR
  | RR30
  | AGING
  deriving DecidableEq

def scheduler : Policy → Kernel → Kernel
  | .FCFS => schedulerFCFS w
  | .SJF => schedulerSJF w
  | .RR => schedulerRR w 2
  | .RR30 => schedulerRR w 30
  | .AGING => schedulerAGING w

/-- `AGING` sorts the queue once before its loop. -/
def schedulerStart : Policy → Kernel → Kernel
  | .AGING, k => { k with readyQueue := sortReadyQueue k.readyQueue }
  | _, k => k

/-- `n` turns of the loop. -/
def scheduleByPolicy (policy : Policy) (n : Nat) (k : Kernel) : Kernel :=
  (scheduler w policy)^[n] (schedulerStart policy k)

end SimpleShell.A2
