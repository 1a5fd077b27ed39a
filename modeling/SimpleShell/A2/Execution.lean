import SimpleShell.A2.Accounts
import SimpleShell.A2.FileLoad
import SimpleShell.A2.Frames

/-!
# Scripts run line by line

With frames to spare and scripts that end without a newline, what the kernel
passes to `parseInput` on behalf of a process is its script, in order, whatever
the turns and page faults in between. The program counter says how many lines
have been executed; a page that is missing is the next one to load; and the
frame of the last line is no other line's, so the comparison that ends a process
holds on its last line and not before. All this for at most nine processes: the
tenth id does not fit where `allocate_frame` prints it.
-/

namespace SimpleShell.A2

open SimpleShell.Shell (CString MemoryStruct noneText)

variable {w : World} {k k' : Kernel} {pcb : PCB} {content : CString}

/-- The lines executed for a process. -/
def executedBy (pid : Nat) (k : Kernel) : List CString :=
  (k.trace.executed.filter fun e => decide (e.pid = pid)).map Entry.line

/-- A script of short lines without a newline at its end, whose lines load no
further scripts. -/
structure Script (w : World) (content : CString) : Prop where
  nonempty : content ≠ []
  short : ∀ line ∈ textLines content, Short line
  unterminated : ¬ Terminated content
  plain : ∀ line ∈ textLines content, w.loadedBy line = []

theorem Script.reads (h : Script w content) : reads content = textLines content := by
  rw [A2.reads, if_neg h.unterminated]

theorem Script.feeds (h : Script w content) : Feeds [] ⟨content, false⟩ (textLines content) := by
  rw [← h.reads]
  exact feeds_reads h.nonempty h.short []

/-- A process on its way through its script. -/
structure Runs (w : World) (k : Kernel) (content : CString) (pcb : PCB) : Prop where
  file : w.files pcb.filename = some content
  lines : HasLines (textLines content) pcb
  placed : Placed w k.shellmemory (textLines content) pcb
  place : pcb.PC.2 < 3
  here : pcb.at < (textLines content).length
  loaded : pcb.at ≤ pcb.lineLoaded
  executed : executedBy pcb.pid k = (textLines content).take pcb.at
  digit : pcb.pid < 10

theorem Runs.mono (h : Runs w k content pcb) (he : Extends k.shellmemory k'.shellmemory)
    (hx : executedBy pcb.pid k' = executedBy pcb.pid k) : Runs w k' content pcb :=
  ⟨h.file, h.lines, h.placed.mono he, h.place, h.here, h.loaded, hx.trans h.executed, h.digit⟩

/-- The page of the next line is missing exactly when all lines loaded so far
have been executed. -/
theorem Runs.page_none (h : Runs w k content pcb) :
    pcb.page pcb.PC.1 = none ↔ pcb.at = pcb.lineLoaded := by
  have hplace := h.place
  have hloaded := h.loaded
  have hhere := h.here
  have hwhole := h.lines.whole
  rw [h.lines.page]
  unfold PCB.at at hloaded hhere ⊢
  constructor
  · intro hle
    omega
  · intro heq
    have hmod := hwhole (by omega)
    omega

/-- The frame of a line is that of the last line only for the last line. -/
theorem Runs.last_iff (h : Runs w k content pcb) (hlt : pcb.at < pcb.lineLoaded) :
    pcb.frame pcb.at = pcb.lastLineNumber ↔ pcb.at + 1 = (textLines content).length := by
  have hhere := h.here
  have hle := h.lines.loaded
  obtain ⟨f, hf, -⟩ := h.placed.stored pcb.at hlt
  constructor
  · intro heq
    have hall : pcb.lineLoaded = (textLines content).length := by
      by_contra hne
      have hminus := (h.lines.more (by omega)).1
      rw [hf, hminus] at heq
      omega
    obtain ⟨-, page, hpage, hlast⟩ := h.lines.last hall
    have hframe : pcb.frame ((textLines content).length - 1) = pcb.lastLineNumber := by
      rw [PCB.frame, hpage, hlast]
    have hsame := h.placed.distinct pcb.at hlt ((textLines content).length - 1) (by omega)
      (heq.trans hframe.symm)
    omega
  · intro heq
    have hall : pcb.lineLoaded = (textLines content).length := by omega
    obtain ⟨-, page, hpage, hlast⟩ := h.lines.last hall
    have hat : pcb.at = (textLines content).length - 1 := by omega
    rw [PCB.frame, hat, hpage, hlast]

theorem updatePC_at (h : Runs w k content pcb) (hlt : pcb.at < pcb.lineLoaded)
    (hmore : pcb.at + 1 < (textLines content).length) :
    (updatePC pcb).PC.2 < 3 ∧ (updatePC pcb).at = pcb.at + 1 := by
  have hplace := h.place
  have hle := h.lines.loaded
  unfold updatePC
  split
  · next h2 =>
      refine ⟨by dsimp only; omega, ?_⟩
      show 3 * pcb.PC.1 + (pcb.PC.2 + 1) = 3 * pcb.PC.1 + pcb.PC.2 + 1
      omega
  · next h2 =>
      have hnext : pcb.lastPageNumber = -1 ∨ (pcb.PC.1 : Int) < pcb.lastPageNumber := by
        by_cases hall : pcb.lineLoaded = (textLines content).length
        · rw [(h.lines.last hall).1]
          unfold PCB.at at hmore
          omega
        · exact .inl (h.lines.more (by omega)).2
      rw [if_pos hnext]
      refine ⟨by simp, ?_⟩
      show 3 * (pcb.PC.1 + 1) + 0 = 3 * pcb.PC.1 + pcb.PC.2 + 1
      omega

theorem executedBy_note (pid : Nat) (entry : Entry) (k : Kernel) :
    executedBy pid (noteExecuted entry k) =
      executedBy pid k ++ if entry.pid = pid then [entry.line] else [] := by
  unfold executedBy noteExecuted
  rw [List.filter_append, List.map_append]
  congr 1
  by_cases h : entry.pid = pid <;> simp [h]

/-! ## One turn of a process -/

/-- What a process and the kernel are after some of its lines. -/
structure Ran (w : World) (content : CString) (n : Nat) (pcb : PCB) (k : Kernel)
    (r : Bool × PCB × Kernel) : Prop where
  running : r.2.2.stopped = false
  extend : Extends k.shellmemory r.2.2.shellmemory
  queue : r.2.2.readyQueue = k.readyQueue
  others : ∀ pid, pid ≠ pcb.pid → executedBy pid r.2.2 = executedBy pid k
  done : r.1 = true → executedBy pcb.pid r.2.2 = textLines content
  goesOn : r.1 = false → Runs w r.2.2 content r.2.1 ∧
    pcb.at + pcb.lineLoaded + min n 1 ≤ r.2.1.at + r.2.1.lineLoaded

/-- A page fault loads the next page. -/
theorem Runs.fault (h : Runs w k content pcb) (hs : Script w content) (hrun : k.stopped = false)
    (hat : pcb.at = pcb.lineLoaded) (hfull : NeverFull (loadMissingPageToMem w pcb k).2) :
    (loadMissingPageToMem w pcb k).2.stopped = false ∧
      Extends k.shellmemory (loadMissingPageToMem w pcb k).2.shellmemory ∧
      (loadMissingPageToMem w pcb k).2.readyQueue = k.readyQueue ∧
      (∀ pid, executedBy pid (loadMissingPageToMem w pcb k).2 = executedBy pid k) ∧
      Runs w (loadMissingPageToMem w pcb k).2 content (loadMissingPageToMem w pcb k).1 ∧
      (loadMissingPageToMem w pcb k).1.at = pcb.at ∧
      pcb.lineLoaded < (loadMissingPageToMem w pcb k).1.lineLoaded := by
  have hhere := h.here
  have hmore : pcb.lineLoaded < (textLines content).length := by omega
  have hwhole := h.lines.whole hmore
  obtain ⟨q, hq⟩ : ∃ q, pcb.lineLoaded = 3 * q := ⟨pcb.lineLoaded / 3, by omega⟩
  have hfeeds : Feeds [] ⟨(w.files pcb.filename).getD [], false⟩ (textLines content) := by
    rw [h.file]
    exact hs.feeds
  obtain ⟨hlines, hloaded, hsame⟩ := h.lines.loadMissing hfeeds hmore k
  have heq := loadMissingPageToMem_eq (k := k) hfeeds hq (by omega)
  have hfull' := hfull
  rw [heq] at hfull'
  have hplaced := Placed.load (w := w) (k := noteLoad pcb.pid 1 k) h.placed h.lines hq true []
    rfl (decide ((textLines content).drop (3 * q + 3) = [])) h.digit hrun hfull' (by omega)
  have hall := allocateFrames_free (k := noteLoad pcb.pid 1 k) h.digit hrun hfull'
  generalize hr : loadMissingPageToMem w pcb k = r at heq hlines hloaded hsame ⊢
  have hat' : r.1.at = pcb.at := by rw [PCB.at, PCB.at, hsame.pc]
  have hkernel : r.2 = (allocateFrames w pcb.pid
      (padded (((textLines content).drop (3 * q)).take 3) []) (noteLoad pcb.pid 1 k)).2 := by
    rw [heq]
  have hexec : ∀ pid, executedBy pid r.2 = executedBy pid k := by
    intro pid
    rw [hkernel, hall.rest]
    rfl
  refine ⟨?_, ?_, ?_, hexec, ⟨?_, hlines, ?_, ?_, ?_, ?_, ?_, ?_⟩, hat', by omega⟩
  · rw [hkernel, hall.rest]
    exact hrun
  · rw [hkernel]
    exact hall.extend
  · rw [hkernel, hall.rest]
    rfl
  · rw [hsame.filename, h.file]
  · rw [heq]
    exact hplaced
  · rw [hsame.pc]
    exact h.place
  · omega
  · omega
  · rw [hexec, hsame.pid, hat', h.executed]
  · rw [hsame.pid]
    exact h.digit

theorem executeProcess_fault {n : Nat} (hpage : pcb.page pcb.PC.1 = none) :
    executeProcess w (n + 1) pcb k = (false, loadMissingPageToMem w pcb k) := by
  rw [executeProcess, show (pcb.pageTable[pcb.PC.1]?).join = none from hpage]

/-- The kernel when a line is read. -/
def lineStart (page : Page) (pcb : PCB) (k : Kernel) : Kernel :=
  if pcb.PC.2 = 0 then lruQueueAddToTail page k else k

/-- The kernel after a line, up to the check for the last one. -/
def lineRun (w : World) (page : Page) (pcb : PCB) (k : Kernel) : Kernel :=
  let k := lineStart page pcb k
  let line := (k.shellmemory (page.index pcb.PC.2)).value
  parseInput w line (noteExecuted ⟨pcb.pid, pcb.at, line⟩ k)

theorem executeProcess_line {n : Nat} {page : Page} (hpage : pcb.page pcb.PC.1 = some page)
    (hindex : 0 ≤ page.index pcb.PC.2) :
    executeProcess w (n + 1) pcb k =
      if (lineRun w page pcb k).stopped then
        (false, { pcb with priority := false }, lineRun w page pcb k)
      else if page.index pcb.PC.2 = pcb.lastLineNumber then
        (true, { pcb with priority := false }, terminateProcess pcb (lineRun w page pcb k))
      else executeProcess w n (updatePC { pcb with priority := false }) (lineRun w page pcb k) := by
  rw [executeProcess, show (pcb.pageTable[pcb.PC.1]?).join = some page from hpage]
  dsimp only
  rw [memGetValueAtLine, if_neg (Int.not_lt.2 hindex)]
  rfl

/-- A line that loads nothing. -/
theorem lineRun_plain {b : PCB} {g : Page} {line : CString}
    (hline : (k.shellmemory (g.index b.PC.2)).value = line) (hplain : w.loadedBy line = []) :
    (lineRun w g b k).shellmemory = k.shellmemory ∧
      (lineRun w g b k).readyQueue = k.readyQueue ∧
      (lineRun w g b k).stopped = k.stopped ∧
      ∀ pid, executedBy pid (lineRun w g b k) =
        executedBy pid k ++ if b.pid = pid then [line] else [] := by
  have hk : ∃ k1, k1 = lineStart g b k ∧ k1.shellmemory = k.shellmemory ∧
      k1.readyQueue = k.readyQueue ∧ k1.stopped = k.stopped ∧ k1.trace = k.trace := by
    refine ⟨_, rfl, ?_⟩
    rw [lineStart]
    split <;> exact ⟨rfl, rfl, rfl, rfl⟩
  obtain ⟨k1, hk1, hmem, hqueue, hstop, htrace⟩ := hk
  have hrun : lineRun w g b k = noteExecuted ⟨b.pid, b.at, line⟩ k1 := by
    unfold lineRun
    dsimp only
    rw [← hk1, hmem, hline, parseInput, hplain]
    rfl
  refine ⟨by rw [hrun]; exact hmem, by rw [hrun]; exact hqueue, by rw [hrun]; exact hstop,
    fun pid => ?_⟩
  rw [hrun, executedBy_note]
  congr 1
  rw [executedBy, executedBy, htrace]

/-- The lines of one turn. -/
theorem Runs.execute (h : Runs w k content pcb) (hs : Script w content) (hrun : k.stopped = false)
    (n : Nat) (hfull : NeverFull (executeProcess w n pcb k).2.2) :
    Ran w content n pcb k (executeProcess w n pcb k) := by
  induction n generalizing pcb k with
  | zero =>
      refine ⟨hrun, .refl _, rfl, fun _ _ => rfl, fun hf => ?_, fun _ => ⟨h, ?_⟩⟩
      · cases hf
      · show pcb.at + pcb.lineLoaded + 0 ≤ pcb.at + pcb.lineLoaded
        omega
  | succ n ih =>
      cases hpage : pcb.page pcb.PC.1 with
      | none =>
          rw [executeProcess_fault hpage] at hfull ⊢
          obtain ⟨hgo, hext, hqueue, hexec, hruns, hat, hmore⟩ :=
            h.fault hs hrun (h.page_none.1 hpage) hfull
          refine ⟨hgo, hext, hqueue, fun pid _ => hexec pid, fun hf => ?_, fun _ => ⟨hruns, ?_⟩⟩
          · cases hf
          · dsimp only
            omega
      | some page =>
          have hlt : pcb.at < pcb.lineLoaded := by
            have hne : ¬ pcb.at = pcb.lineLoaded := fun heq => by
              rw [h.page_none.2 heq] at hpage
              cases hpage
            have hle := h.loaded
            omega
          have hplace := h.place
          have hdiv : pcb.at / 3 = pcb.PC.1 := by
            unfold PCB.at
            omega
          have hmod : pcb.at % 3 = pcb.PC.2 := by
            unfold PCB.at
            omega
          have hframe : pcb.frame pcb.at = page.index pcb.PC.2 := by
            rw [PCB.frame, hdiv, hpage, hmod]
          have hhere := h.here
          obtain ⟨f, hf, -, -, hvalue⟩ := h.placed.stored pcb.at hlt
          have hline : (k.shellmemory (page.index pcb.PC.2)).value =
              (textLines content)[pcb.at] := by
            rw [List.getElem?_eq_getElem hhere, Option.some.injEq] at hvalue
            rw [← hframe, hf, ← hvalue]
          obtain ⟨hmem, hqueue, hstop, hexec⟩ := lineRun_plain (w := w) (g := page) (b := pcb) hline
            (hs.plain _ (List.getElem_mem hhere))
          have hmine : executedBy pcb.pid (lineRun w page pcb k) =
              (textLines content).take (pcb.at + 1) := by
            rw [hexec, if_pos rfl, h.executed, List.take_succ_eq_append_getElem hhere]
          have hothers : ∀ pid, pid ≠ pcb.pid →
              executedBy pid (lineRun w page pcb k) = executedBy pid k := by
            intro pid hpid
            rw [hexec, if_neg (Ne.symm hpid), List.append_nil]
          have hindex : 0 ≤ page.index pcb.PC.2 := by
            rw [← hframe, hf]
            exact Int.natCast_nonneg f
          have hgo : (lineRun w page pcb k).stopped = false := hstop.trans hrun
          rw [executeProcess_line hpage hindex, hgo, if_neg Bool.false_ne_true] at hfull ⊢
          by_cases hlast : page.index pcb.PC.2 = pcb.lastLineNumber
          · rw [if_pos hlast]
            have hend := (h.last_iff hlt).1 (hframe.trans hlast)
            refine ⟨hgo, fun i _ => congrFun hmem i, hqueue, hothers, fun _ => ?_, fun hf => ?_⟩
            · show executedBy pcb.pid (lineRun w page pcb k) = textLines content
              rw [hmine, hend, List.take_length]
            · cases hf
          · rw [if_neg hlast] at hfull ⊢
            have hmore : pcb.at + 1 < (textLines content).length := by
              have hne : ¬ pcb.at + 1 = (textLines content).length := fun heq =>
                hlast (hframe.symm.trans ((h.last_iff hlt).2 heq))
              omega
            obtain ⟨hplace', hat'⟩ := updatePC_at h hlt hmore
            have heq : updatePC { pcb with priority := false } =
                { pcb with priority := false, PC := (updatePC pcb).PC } := by
              unfold updatePC
              split
              · rfl
              · split <;> rfl
            rw [heq] at hfull ⊢
            have hruns : Runs w (lineRun w page pcb k) content
                { pcb with priority := false, PC := (updatePC pcb).PC } := by
              refine ⟨h.file, h.lines.of_eq rfl rfl rfl rfl, ?_, hplace', ?_, ?_, ?_, h.digit⟩
              · rw [hmem]
                exact ⟨h.placed.stored, h.placed.distinct⟩
              · show (updatePC pcb).at < (textLines content).length
                omega
              · show (updatePC pcb).at ≤ pcb.lineLoaded
                omega
              · show executedBy pcb.pid _ = (textLines content).take (updatePC pcb).at
                rw [hat', hmine]
            have hrest := ih hruns hgo hfull
            generalize executeProcess w n { pcb with priority := false, PC := (updatePC pcb).PC }
              (lineRun w page pcb k) = r at hrest ⊢
            refine ⟨hrest.running, ?_, hrest.queue.trans hqueue,
              fun pid hpid => (hrest.others pid hpid).trans (hothers pid hpid), hrest.done,
              fun hf => ?_⟩
            · have hext := hrest.extend
              rwa [hmem] at hext
            · obtain ⟨hgoes, hle⟩ := hrest.goesOn hf
              refine ⟨hgoes, ?_⟩
              change (updatePC pcb).at + pcb.lineLoaded + min n 1 ≤ _ at hle
              omega

/-! ## The run -/

/-- The policies that take the head of the queue. -/
def Fair (policy : Policy) : Prop := policy = .FCFS ∨ policy = .RR ∨ policy = .RR30

theorem Fair.taken {policy : Policy} (h : Fair policy) (k : Kernel) :
    taken policy k = popHead k k.readyQueue := by
  rcases h with rfl | rfl | rfl <;> rfl

theorem Fair.quanta {policy : Policy} (h : Fair policy) : 0 < quantaOf policy := by
  rcases h with rfl | rfl | rfl <;> decide

theorem Fair.notNull {policy : Policy} (h : Fair policy) (k : Kernel) :
    ¬ NullDereference policy k := by
  rcases h with rfl | rfl | rfl <;> exact fun hnull => Policy.noConfusion hnull.1

theorem Fair.putBack {policy : Policy} (h : Fair policy) (queue : List PCB) (pcb : PCB) :
    (putBackOf policy queue pcb).Perm (pcb :: queue) := by
  refine putBackOf_perm ?_ queue pcb
  rcases h with rfl | rfl | rfl <;> decide

variable {policy : Policy} {script : Nat → CString}

/-- The processes in the queue are on their way, the terminated ones have
executed their scripts. -/
structure Going (w : World) (script : Nat → CString) (k : Kernel) : Prop where
  running : k.stopped = false
  scripted : ∀ pcb ∈ k.readyQueue, Script w (script pcb.pid)
  runs : ∀ pcb ∈ k.readyQueue, Runs w k (script pcb.pid) pcb
  ended : ∀ t ∈ k.trace.terminated, executedBy t.1 k = textLines (script t.1)

/-- What is left to execute and to load. -/
def left (script : Nat → CString) (pcb : PCB) : Nat :=
  2 * (textLines (script pcb.pid)).length - pcb.at - pcb.lineLoaded

def allLeft (script : Nat → CString) (k : Kernel) : Nat := (k.readyQueue.map (left script)).sum

/-- One turn of the loop. -/
theorem Going.turn (h : Going w script k) (hp : Fair policy)
    (hnodup : (pids k.readyQueue ++ k.trace.terminated.map Prod.fst).Nodup)
    (hfull : NeverFull (scheduler w policy k)) :
    Going w script (scheduler w policy k) ∧
      (k.readyQueue ≠ [] → allLeft script (scheduler w policy k) < allLeft script k) := by
  rw [scheduler_eq, schedulerTurn, h.running, if_neg Bool.false_ne_true, hp.taken] at hfull ⊢
  cases hqueue : k.readyQueue with
  | nil => exact ⟨by simpa [popHead] using h, fun hne => absurd rfl hne⟩
  | cons cur rest =>
      simp only [popHead, hqueue, h.running, Bool.false_eq_true, if_false] at hfull ⊢
      rw [hqueue, pids, List.map_cons, List.cons_append, List.nodup_cons] at hnodup
      have hspec := executeProcess_spec (w := w) (quantaOf policy) cur
        { k with readyQueue := rest, stopped := false }
      have hcur := h.runs cur (by rw [hqueue]; exact List.mem_cons_self)
      have hrunCur : Runs w { k with readyQueue := rest, stopped := false } (script cur.pid) cur :=
        hcur.mono (.refl _) rfl
      have hfull' : NeverFull (executeProcess w (quantaOf policy) cur
          { k with readyQueue := rest, stopped := false }).2.2 := by
        split at hfull
        · exact hfull
        · exact hfull
      have hran := hrunCur.execute (h.scripted cur (by rw [hqueue]; exact List.mem_cons_self)) rfl
        (quantaOf policy) hfull'
      generalize executeProcess w (quantaOf policy) cur
        { k with readyQueue := rest, stopped := false } = r at hspec hran ⊢
      have hpidSame : r.2.1.pid = cur.pid := congrArg Prod.fst hspec.tag
      have hothers : ∀ pcb ∈ rest, Runs w r.2.2 (script pcb.pid) pcb := by
        intro pcb hmem
        have hne : pcb.pid ≠ cur.pid := fun heq => hnodup.1
          (List.mem_append_left _ (heq ▸ List.mem_map_of_mem hmem))
        exact (h.runs pcb (by rw [hqueue]; exact List.mem_cons_of_mem _ hmem)).mono hran.extend
          (hran.others _ hne)
      have hscripts : ∀ pcb ∈ rest, Script w (script pcb.pid) := fun pcb hmem =>
        h.scripted pcb (by rw [hqueue]; exact List.mem_cons_of_mem _ hmem)
      have hold : ∀ t ∈ k.trace.terminated, executedBy t.1 r.2.2 = textLines (script t.1) := by
        intro t hmem
        have hne : t.1 ≠ cur.pid := fun heq =>
          hnodup.1 (List.mem_append_right _ (heq ▸ List.mem_map_of_mem hmem))
        exact (hran.others _ hne).trans (h.ended t hmem)
      have hrest : r.2.2.readyQueue = rest := hran.queue
      have hpos := hp.quanta
      have hhere := hcur.here
      have hloaded := hcur.lines.loaded
      have hleft : allLeft script k = left script cur + (rest.map (left script)).sum := by
        rw [allLeft, hqueue, List.map_cons, List.sum_cons]
      have hterm := hspec.terminated
      simp only [hran.running, Bool.or_false]
      cases hdone : r.1 with
      | true =>
          rw [if_pos hdone] at hterm
          simp only [if_true]
          refine ⟨⟨hran.running, fun pcb hmem => hscripts pcb (hrest ▸ hmem),
            fun pcb hmem => hothers pcb (hrest ▸ hmem), fun t hmem => ?_⟩, fun _ => ?_⟩
          · rw [hterm, List.mem_append, List.mem_singleton] at hmem
            rcases hmem with hmem | rfl
            · exact hold t hmem
            · exact hran.done hdone
          · rw [hleft, allLeft, hrest, left]
            omega
      | false =>
          rw [if_neg (by simp [hdone]), List.append_nil] at hterm
          simp only [Bool.false_eq_true, if_false]
          obtain ⟨hruns, hle⟩ := hran.goesOn hdone
          have hput := hp.putBack r.2.2.readyQueue r.2.1
          refine ⟨⟨rfl, fun pcb hmem => ?_, fun pcb hmem => ?_, fun t hmem => ?_⟩, fun _ => ?_⟩
          · rcases List.mem_cons.1 (hput.mem_iff.1 hmem) with rfl | hmem
            · rw [hpidSame]
              exact h.scripted cur (by rw [hqueue]; exact List.mem_cons_self)
            · exact hscripts pcb (hrest ▸ hmem)
          · rcases List.mem_cons.1 (hput.mem_iff.1 hmem) with rfl | hmem
            · rw [hpidSame]
              exact hruns.mono (.refl _) rfl
            · exact (hothers pcb (hrest ▸ hmem)).mono (.refl _) rfl
          · exact hold t (by rw [← hterm]; exact hmem)
          · have hsum : allLeft script
                { r.2.2 with
                  readyQueue := putBackOf policy r.2.2.readyQueue r.2.1, stopped := false } =
                left script r.2.1 + (rest.map (left script)).sum := by
              rw [allLeft, (hput.map (left script)).sum_nat, List.map_cons, List.sum_cons, hrest]
            have hhere' := hruns.here
            have hloaded' := hruns.lines.loaded
            rw [hsum, hleft, left, left, hpidSame]
            omega

/-! ## The start -/

/-- What the first load leaves. -/
structure FirstLoad (w : World) (lines : List CString) (k : Kernel) (r : PCB × Kernel) : Prop where
  running : r.2.stopped = false
  placed : Placed w r.2.shellmemory lines r.1
  extend : Extends k.shellmemory r.2.shellmemory
  quiet : Quiet k r.2

/-- The first load of a script. -/
theorem firstLoad (hlines : HasLines (textLines content) pcb) (hzero : pcb.lineLoaded = 0)
    (hs : Script w content) (hpid : pcb.pid < 10) (hrun : k.stopped = false)
    (hfull : NeverFull (loadPagesToMemory w ⟨content, false⟩ pcb k).2) :
    FirstLoad w (textLines content) k (loadPagesToMemory w ⟨content, false⟩ pcb k) := by
  have hfeeds := hs.feeds
  have hpos := textLines_length_pos hs.nonempty
  have hquiet := (loadPagesToMemory_moves (w := w) ⟨content, false⟩ pcb k).2
  have hempty : Placed w k.shellmemory (textLines content) pcb :=
    ⟨fun i hi => by omega, fun i hi => by omega⟩
  by_cases hlen : (textLines content).length ≤ 3
  · rw [loadPagesToMemory_short hfeeds (List.ne_nil_of_length_pos hpos) hlen] at hfull hquiet ⊢
    have hall := allocateFrames_free (k := noteLoad pcb.pid 1 k) hpid hrun hfull
    have hplaced := Placed.load (w := w) (k := noteLoad pcb.pid 1 k) (q := 0) hempty hlines
      (by omega) false ((textLines content).getLastD [])
      (by rw [Nat.mul_zero, List.drop_zero, List.take_of_length_le hlen]) true hpid hrun hfull
      (by omega)
    refine ⟨?_, hplaced, hall.extend, hquiet⟩
    show (allocateFrames w pcb.pid _ _).2.stopped = false
    rw [hall.rest]
    exact hrun
  · obtain ⟨k0, k1, second, hk0, hk1, hsecond, heq⟩ := loadPagesToMemory_long (w := w) (b := pcb)
      (k := k) hfeeds (by omega)
    rw [heq] at hfull hquiet ⊢
    have hrun0 : k0.stopped = false := by
      rw [hk0]
      exact hrun
    have hmiddle : NeverFull k1 := allocateFrames_full _ _ _ hfull
    have hall1 := allocateFrames_free hpid hrun0 (hk1 ▸ hmiddle)
    have hrun1 : k1.stopped = false := by
      rw [hk1, hall1.rest]
      exact hrun0
    have hall2 := allocateFrames_free hpid hrun1 hfull
    have hfirst := Placed.load (w := w) (k := k0) (q := 0) (by rw [hk0]; exact hempty) hlines
      (by omega) false [] (by rw [Nat.mul_zero, List.drop_zero]) false hpid hrun0 (hk1 ▸ hmiddle)
      (by omega)
    have hload := hlines.load (w := w) (q := 0) (by omega) (by omega) false [] k0
    have hmore : ¬ (textLines content).drop 3 = [] := by
      rw [List.drop_eq_nil_iff]
      omega
    simp only [Nat.mul_zero, List.drop_zero, Nat.zero_add, hmore, decide_false] at hload hfirst
    have hthree : ((textLines content).take 3).length = 3 := by
      rw [List.length_take]
      omega
    have hplaced := Placed.load (w := w) (k := k1) (q := 1) (by rw [hk1]; exact hfirst) hload
      (by simp [pageLoaded, hthree]) false (second.getLastD []) hsecond
      (decide ((textLines content).drop 6 = [])) hpid hrun1 hfull (by omega)
    refine ⟨?_, hplaced, ?_, hquiet⟩
    · show (allocateFrames w pcb.pid _ _).2.stopped = false
      rw [hall2.rest]
      exact hrun1
    · have hext := hall1.extend
      rw [← hk1, hk0] at hext
      exact hext.trans hall2.extend

/-- What `process_initialize` adds to the kernel. -/
structure Added (w : World) (content filename : CString) (k k' : Kernel) (pcb : PCB) : Prop where
  running : k'.stopped = false
  queue : k'.readyQueue = k.readyQueue ++ [pcb]
  pid : pcb.pid = k.pidCounter
  pc : pcb.PC = (0, 0)
  file : pcb.filename = filename
  lines : HasLines (textLines content) pcb
  placed : Placed w k'.shellmemory (textLines content) pcb
  extend : Extends k.shellmemory k'.shellmemory
  counter : k'.pidCounter = k.pidCounter + 1
  executed : k'.trace.executed = k.trace.executed
  terminated : k'.trace.terminated = k.trace.terminated

theorem processInitialize_file {filename : CString} (hrun : k.stopped = false)
    (hfile : w.files filename = some content) (hs : Script w content) :
    ∃ made, made = makePCB w (List.replicate ((textLines content).length / 3 + 1) none) filename k ∧
      processInitialize w filename k =
        if (loadPagesToMemory w ⟨content, false⟩ made.1 made.2).2.stopped then
          (loadPagesToMemory w ⟨content, false⟩ made.1 made.2).2
        else enqueue (loadPagesToMemory w ⟨content, false⟩ made.1 made.2).1
          (loadPagesToMemory w ⟨content, false⟩ made.1 made.2).2 := by
  refine ⟨_, rfl, ?_⟩
  rw [processInitialize, hrun, if_neg Bool.false_ne_true, hfile]
  simp only [countLines_eq hs.nonempty, hs.reads]

theorem processInitialize_added {filename : CString} (hrun : k.stopped = false)
    (hdigit : k.pidCounter < 10) (hfile : w.files filename = some content)
    (hs : Script w content) (hfull : NeverFull (processInitialize w filename k)) :
    ∃ pcb, Added w content filename k (processInitialize w filename k) pcb := by
  obtain ⟨made, hmade, heq⟩ := processInitialize_file hrun hfile hs
  have hpos := textLines_length_pos hs.nonempty
  have hlines : HasLines (textLines content) made.1 := by
    rw [hmade]
    exact HasLines.fresh (List.ne_nil_of_length_pos hpos) (Nat.le_refl _)
  have hzero : made.1.lineLoaded = 0 := by rw [hmade, makePCB]
  have hpid : made.1.pid < 10 := by
    rw [hmade]
    exact hdigit
  have hmadeRun : made.2.stopped = false := by
    rw [hmade]
    exact hrun
  have hfull' : NeverFull (loadPagesToMemory w ⟨content, false⟩ made.1 made.2).2 := by
    rw [heq] at hfull
    split at hfull
    · exact hfull
    · exact hfull
  have hfirst := firstLoad hlines hzero hs hpid hmadeRun hfull'
  obtain ⟨hlines', -, hsame⟩ := hlines.loadPages (w := w) hzero hs.feeds made.2
  rw [heq]
  generalize loadPagesToMemory w ⟨content, false⟩ made.1 made.2 = r at hfirst hlines' hsame ⊢
  rw [hfirst.running, if_neg Bool.false_ne_true]
  subst hmade
  refine ⟨r.1, hfirst.running, ?_, hsame.pid, hsame.pc, hsame.filename, hlines', hfirst.placed,
    hfirst.extend, hfirst.quiet.counter, hfirst.quiet.executed, hfirst.quiet.terminated⟩
  show r.2.readyQueue ++ [r.1] = k.readyQueue ++ [r.1]
  rw [hfirst.quiet.queue]
  rfl

theorem allocateFrame_two_digits {b : Nat} (hb : 10 ≤ b) (text : CString) (k : Kernel) :
    (allocateFrame w text b k).2.stopped = true := by
  have hreturn : decide (10 ≤ b) = true := decide_eq_true hb
  unfold allocateFrame
  split
  · next hstop => exact hstop
  · cases freeFrame w k.shellmemory with
    | some i => exact hreturn
    | none =>
        cases k.lruQueue with
        | nil => rfl
        | cons victim rest =>
            dsimp only
            split
            · exact hreturn
            · rfl

/-- The tenth process ends the program while it is loaded. -/
theorem processInitialize_two_digits {filename : CString} (hrun : k.stopped = false)
    (hdigits : 10 ≤ k.pidCounter) (hfile : w.files filename = some content)
    (hs : Script w content) : (processInitialize w filename k).stopped = true := by
  obtain ⟨made, hmade, heq⟩ := processInitialize_file hrun hfile hs
  have hpid : 10 ≤ made.1.pid := by
    rw [hmade]
    exact hdigits
  have hrow : ∀ (texts : List CString) (k : Kernel), texts ≠ [] →
      (allocateFrames w made.1.pid texts k).2.stopped = true := by
    intro texts k hne
    obtain ⟨text, texts, rfl⟩ := List.exists_cons_of_ne_nil hne
    have hstop := allocateFrame_two_digits (w := w) hpid text k
    rw [allocateFrames, allocateFrames_stopped texts hstop]
    exact hstop
  have hlines := hs.feeds.ne_nil rfl
  have hload : (loadPagesToMemory w ⟨content, false⟩ made.1 made.2).2.stopped = true := by
    by_cases hlen : (textLines content).length ≤ 3
    · rw [loadPagesToMemory_short hs.feeds hlines hlen]
      exact hrow _ _ (List.append_ne_nil_of_left_ne_nil hlines _)
    · obtain ⟨k0, k1, second, -, -, hsecond, hlong⟩ := loadPagesToMemory_long (w := w)
        (b := made.1) (k := made.2) hs.feeds (by omega)
      rw [hlong]
      refine hrow _ _ (List.append_ne_nil_of_left_ne_nil ?_ _)
      rw [hsecond]
      exact take_ne_nil (fun hnil => hlen (List.drop_eq_nil_iff.1 hnil)) (by decide)
  rw [heq, hload, if_pos rfl]
  exact hload

/-- One process more. -/
theorem Going.added {filename : CString} {pcb : PCB} (h : Going w script k)
    (hdigit : k.pidCounter < 10) (hfile : w.files filename = some (script k.pidCounter))
    (hs : Script w (script k.pidCounter)) (hnone : k.trace.executed = [])
    (ha : Added w (script k.pidCounter) filename k k' pcb) : Going w script k' := by
  have hsame : ∀ pid, executedBy pid k' = executedBy pid k := by
    intro pid
    rw [executedBy, executedBy, ha.executed]
  refine ⟨ha.running, fun pcb' hmem => ?_, fun pcb' hmem => ?_, fun t hmem => ?_⟩
  · rw [ha.queue, List.mem_append, List.mem_singleton] at hmem
    rcases hmem with hmem | rfl
    · exact h.scripted pcb' hmem
    · rw [ha.pid]
      exact hs
  · rw [ha.queue, List.mem_append, List.mem_singleton] at hmem
    rcases hmem with hmem | rfl
    · exact (h.runs pcb' hmem).mono ha.extend (hsame _)
    · have hat : pcb'.at = 0 := by
        rw [PCB.at, ha.pc]
        rfl
      have hpos := textLines_length_pos hs.nonempty
      rw [ha.pid]
      refine ⟨by rw [ha.file, hfile], ha.lines, ha.placed, ?_, by omega, by omega, ?_,
        by rw [ha.pid]; exact hdigit⟩
      · rw [ha.pc]
        decide
      · rw [hsame, executedBy, hnone, hat]
        rfl
  · rw [ha.terminated] at hmem
    rw [hsame]
    exact h.ended t hmem

/-- The kernel after `process_initialize` of each script. -/
def initializeAll (w : World) (scripts : List CString) (k : Kernel) : Kernel :=
  scripts.foldl (fun k filename => processInitialize w filename k) k

theorem initializeAll_adds (scripts : List CString) (k : Kernel) :
    Adds k (initializeAll w scripts k) := by
  induction scripts generalizing k with
  | nil => exact .refl k
  | cons filename scripts ih => exact (processInitialize_adds filename k).trans (ih _)

theorem processInitialize_stopped (filename : CString) (hstop : k.stopped = true) :
    processInitialize w filename k = k := by
  rw [processInitialize, if_pos hstop]

theorem initializeAll_stopped (scripts : List CString) (hstop : k.stopped = true) :
    initializeAll w scripts k = k := by
  induction scripts with
  | nil => rfl
  | cons filename scripts ih =>
      show initializeAll w scripts (processInitialize w filename k) = k
      rw [processInitialize_stopped filename hstop]
      exact ih

theorem processInitialize_full {filename : CString}
    (hfull : NeverFull (processInitialize w filename k)) (hs : ∃ content,
      w.files filename = some content ∧ Script w content) : NeverFull k := by
  obtain ⟨content, hfile, hscript⟩ := hs
  cases hrun : k.stopped with
  | true =>
      rw [processInitialize_stopped filename hrun] at hfull
      exact hfull
  | false =>
      obtain ⟨made, hmade, heq⟩ := processInitialize_file hrun hfile hscript
      have hfull' : NeverFull (loadPagesToMemory w ⟨content, false⟩ made.1 made.2).2 := by
        rw [heq] at hfull
        split at hfull
        · exact hfull
        · exact hfull
      have hlines := hscript.feeds.ne_nil rfl
      have hmadeFull : NeverFull made.2 := by
        by_cases hlen : (textLines content).length ≤ 3
        · rw [loadPagesToMemory_short hscript.feeds hlines hlen] at hfull'
          exact allocateFrames_full _ _ (noteLoad made.1.pid 1 made.2) hfull'
        · obtain ⟨k0, k1, second, hk0, hk1, -, hlong⟩ := loadPagesToMemory_long (w := w)
            (b := made.1) (k := made.2) hscript.feeds (by omega)
          rw [hlong] at hfull'
          have hmiddle := allocateFrames_full _ _ _ hfull'
          rw [hk1] at hmiddle
          have hbefore := allocateFrames_full _ _ _ hmiddle
          rw [hk0] at hbefore
          exact hbefore
      rw [hmade] at hmadeFull
      exact hmadeFull

theorem initializeAll_full {scripts : List CString}
    (hs : ∀ filename ∈ scripts, ∃ content, w.files filename = some content ∧ Script w content)
    (hfull : NeverFull (initializeAll w scripts k)) : NeverFull k := by
  induction scripts generalizing k with
  | nil => exact hfull
  | cons filename scripts ih =>
      exact processInitialize_full (ih (fun f hf => hs f (List.mem_cons_of_mem _ hf)) hfull)
        (hs filename List.mem_cons_self)

/-- Process number `i` has script number `i`. -/
def Scripts (w : World) (script : Nat → CString) (scripts : List CString) (first : Nat) : Prop :=
  ∀ i (hi : i < scripts.length), w.files scripts[i] = some (script (first + i)) ∧
    Script w (script (first + i))

theorem Scripts.tail {filename : CString} {scripts : List CString} {first : Nat}
    (h : Scripts w script (filename :: scripts) first) : Scripts w script scripts (first + 1) := by
  intro i hi
  have hnext := h (i + 1) (by simpa using hi)
  rw [show first + 1 + i = first + (i + 1) by omega]
  exact hnext

theorem Scripts.mem {scripts : List CString} {first : Nat} (h : Scripts w script scripts first) :
    ∀ filename ∈ scripts, ∃ content, w.files filename = some content ∧ Script w content := by
  intro filename hmem
  obtain ⟨i, hi, rfl⟩ := List.getElem_of_mem hmem
  exact ⟨_, h i hi⟩

/-- Several processes more. -/
theorem Going.initializeAll {scripts : List CString} (h : Going w script k)
    (hnone : k.trace.executed = []) (hs : Scripts w script scripts k.pidCounter)
    (hdigits : ∀ i < scripts.length, k.pidCounter + i < 10)
    (hfull : NeverFull (initializeAll w scripts k)) :
    Going w script (initializeAll w scripts k) ∧
      tags (initializeAll w scripts k).readyQueue =
        tags k.readyQueue ++ (List.range' k.pidCounter scripts.length).zip scripts := by
  induction scripts generalizing k with
  | nil => exact ⟨h, (List.append_nil _).symm⟩
  | cons filename scripts ih =>
      obtain ⟨hfile, hscript⟩ := hs 0 (Nat.zero_lt_succ _)
      rw [Nat.add_zero] at hfile hscript
      have hdigit := hdigits 0 (Nat.zero_lt_succ _)
      have hnext : NeverFull (processInitialize w filename k) :=
        initializeAll_full hs.tail.mem hfull
      obtain ⟨pcb, ha⟩ :=
        processInitialize_added h.running hdigit hfile hscript hnext
      have hgoing := h.added hdigit hfile hscript hnone ha
      have hcounter := ha.counter
      obtain ⟨hall, htags⟩ := ih hgoing (ha.executed.trans hnone) (hcounter ▸ hs.tail)
        (fun i hi => by
          have hlater := hdigits (i + 1) (by simpa using hi)
          omega) hfull
      refine ⟨hall, htags.trans ?_⟩
      rw [hcounter, ha.queue, tags, tags, List.map_append, List.length_cons, List.range'_succ,
        List.zip_cons_cons, List.append_assoc]
      rw [List.map_singleton, PCB.tag, ha.pid, ha.file, List.singleton_append]
      rfl

/-- With the tenth process the program is at its end. -/
theorem initializeAll_two_digits {scripts : List CString}
    (hs : ∀ filename ∈ scripts, ∃ content, w.files filename = some content ∧ Script w content)
    (hrun : k.stopped = false) (hdigits : ∃ i < scripts.length, 10 ≤ k.pidCounter + i) :
    (initializeAll w scripts k).stopped = true := by
  induction scripts generalizing k with
  | nil =>
      obtain ⟨i, hi, -⟩ := hdigits
      exact absurd hi (Nat.not_lt_zero i)
  | cons filename scripts ih =>
      obtain ⟨content, hfile, hscript⟩ := hs filename List.mem_cons_self
      show (initializeAll w scripts (processInitialize w filename k)).stopped = true
      cases hnext : (processInitialize w filename k).stopped with
      | true =>
          rw [initializeAll_stopped scripts hnext]
          exact hnext
      | false =>
          have hdigit : k.pidCounter < 10 := by
            by_contra hge
            rw [processInitialize_two_digits hrun (by omega) hfile hscript] at hnext
            cases hnext
          obtain ⟨made, hmade, heq⟩ := processInitialize_file hrun hfile hscript
          have hcounter : (processInitialize w filename k).pidCounter = k.pidCounter + 1 := by
            have hquiet := (loadPagesToMemory_moves (w := w) ⟨content, false⟩ made.1 made.2).2
            rw [heq]
            split
            · rw [hquiet.counter, hmade]
              rfl
            · show (loadPagesToMemory w ⟨content, false⟩ made.1 made.2).2.pidCounter = _
              rw [hquiet.counter, hmade]
              rfl
          obtain ⟨i, hi, hge⟩ := hdigits
          rw [List.length_cons] at hi
          refine ih (fun f hf => hs f (List.mem_cons_of_mem _ hf)) hnext ⟨i - 1, ?_, ?_⟩
          · omega
          · omega

/-! ## The whole run -/

/-- A kernel that has run nothing. -/
structure Idle (k : Kernel) : Prop where
  running : k.stopped = false
  queue : k.readyQueue = []
  executed : k.trace.executed = []
  terminated : k.trace.terminated = []

theorem Fair.start {policy : Policy} (hp : Fair policy) (k : Kernel) :
    schedulerStart policy k = k := by
  rcases hp with rfl | rfl | rfl <;> rfl

theorem scheduleByPolicy_succ (policy : Policy) (n : Nat) (k : Kernel) :
    scheduleByPolicy w policy (n + 1) k = scheduler w policy (scheduleByPolicy w policy n k) := by
  rw [scheduleByPolicy, scheduleByPolicy, Function.iterate_succ_apply']

/-- What holds after `n` turns. -/
structure After (w : World) (policy : Policy) (script : Nat → CString) (k0 k : Kernel) (n : Nat) :
    Prop where
  going : Going w script k
  balanced : Balanced k0 k
  less : k.readyQueue = [] ∨ n + allLeft script k ≤ allLeft script k0

/-- After `n` turns something less is left, or nothing. -/
theorem Going.run (hp : Fair policy) (hinit : Initialized k) (hnone : k.trace.terminated = [])
    (h : Going w script k) (hfull : ∀ n, NeverFull (scheduleByPolicy w policy n k)) (n : Nat) :
    After w policy script k (scheduleByPolicy w policy n k) n := by
  induction n with
  | zero =>
      have hbal := Balanced.start k policy
      rw [hp.start] at hbal
      rw [scheduleByPolicy, hp.start]
      exact ⟨h, hbal, .inr (by simp)⟩
  | succ n ih =>
      obtain ⟨hgoing, hbal, hleft⟩ := ih
      have hnodup : (pids (scheduleByPolicy w policy n k).readyQueue ++
          (scheduleByPolicy w policy n k).trace.terminated.map Prod.fst).Nodup := by
        have hperm := hbal.perm.map Prod.fst
        rw [List.map_append, ← pids_eq, finished, hnone, List.length_nil, List.drop_zero] at hperm
        exact hperm.nodup_iff.2 (hbal.nodup hinit)
      have hfull' := hfull (n + 1)
      rw [scheduleByPolicy_succ] at hfull' ⊢
      obtain ⟨hturn, hless⟩ := hgoing.turn hp hnodup hfull'
      have hsjf : policy ≠ .SJF := by
        rcases hp with rfl | rfl | rfl <;> decide
      refine ⟨hturn, hbal.turn hturn.running fun heq => absurd heq hsjf, ?_⟩
      by_cases hempty : (scheduleByPolicy w policy n k).readyQueue = []
      · refine .inl ?_
        rw [scheduler_eq, schedulerTurn, hgoing.running, if_neg Bool.false_ne_true, hp.taken,
          hempty]
        exact hempty
      · rcases hleft with hdone | hleft
        · exact absurd hdone hempty
        · have hlt := hless hempty
          exact .inr (by omega)

/-- The scheduler comes to its end with every process terminated, once; and
whenever one is terminated, it has executed the lines of its script, in order, and
nothing else. -/
structure Faithful (w : World) (policy : Policy) (scripts : List CString) (k : Kernel) : Prop where
  ends : ∃ n, (scheduleByPolicy w policy n (initializeAll w scripts k)).stopped = false ∧
    (scheduleByPolicy w policy n (initializeAll w scripts k)).readyQueue = [] ∧
    ∀ i (hi : i < scripts.length),
      (scheduleByPolicy w policy n (initializeAll w scripts k)).trace.terminated.count
        (k.pidCounter + i, scripts[i]) = 1
  lines : ∀ n i (hi : i < scripts.length) (content : CString), w.files scripts[i] = some content →
    (k.pidCounter + i, scripts[i]) ∈
      (scheduleByPolicy w policy n (initializeAll w scripts k)).trace.terminated →
    executedBy (k.pidCounter + i) (scheduleByPolicy w policy n (initializeAll w scripts k)) =
      textLines content

section

variable {scripts : List CString}
  (hs : ∀ filename ∈ scripts, ∃ content, w.files filename = some content ∧ Script w content)

include hs

/-- Nine processes are run as they should be. -/
theorem Idle.faithful (hidle : Idle k) (hp : Fair policy)
    (hdigits : ∀ i < scripts.length, k.pidCounter + i < 10)
    (hfull : ∀ n, NeverFull (scheduleByPolicy w policy n (initializeAll w scripts k))) :
    Faithful w policy scripts k := by
  obtain ⟨script, hscript⟩ : ∃ script : Nat → CString, ∀ i (hi : i < scripts.length),
      w.files scripts[i] = some (script (k.pidCounter + i)) :=
    ⟨fun pid => (w.files (scripts.getD (pid - k.pidCounter) [])).getD [], fun i hi => by
      obtain ⟨content, hfile, -⟩ := hs _ (List.getElem_mem hi)
      simp [hi, hfile]⟩
  have hall : Scripts w script scripts k.pidCounter := by
    intro i hi
    obtain ⟨content, hfile, hcontent⟩ := hs _ (List.getElem_mem hi)
    have heq := hscript i hi
    rw [hfile, Option.some.injEq] at heq
    exact ⟨hscript i hi, heq ▸ hcontent⟩
  have hnone : Going w script k := by
    refine ⟨hidle.running, ?_, ?_, ?_⟩
    · simp [hidle.queue]
    · simp [hidle.queue]
    · simp [hidle.terminated]
  have hfull0 := hfull 0
  rw [scheduleByPolicy, hp.start] at hfull0
  obtain ⟨hgoing, htags⟩ := hnone.initializeAll hidle.executed hall hdigits hfull0
  have hadds := initializeAll_adds (w := w) scripts k
  rw [hidle.queue] at htags
  change tags (initializeAll w scripts k).readyQueue = [] ++ _ at htags
  rw [List.nil_append] at htags
  have hterminated : (initializeAll w scripts k).trace.terminated = [] :=
    hadds.terminated.trans hidle.terminated
  have hinit : Initialized (initializeAll w scripts k) := by
    obtain ⟨new, hnew, -, hpids⟩ := hadds.queue
    have hle := hadds.counter
    rw [hidle.queue, List.nil_append] at hnew
    refine ⟨?_, fun pid hmem => ?_⟩
    · rw [hnew]
      exact hpids.nodup List.nodup_range'
    · rw [hnew] at hmem
      have hrange := hpids.subset hmem
      rw [List.mem_range'_1] at hrange
      omega
  constructor
  · -- the measure is used up after as many turns
    obtain ⟨n, hn⟩ : ∃ n, n = allLeft script (initializeAll w scripts k) + 1 := ⟨_, rfl⟩
    obtain ⟨hrun, hbal, hleft⟩ := hgoing.run hp hinit hterminated hfull n
    have hempty : (scheduleByPolicy w policy n (initializeAll w scripts k)).readyQueue = [] := by
      rcases hleft with hempty | hleft
      · exact hempty
      · omega
    refine ⟨n, hrun.running, hempty, fun i hi => ?_⟩
    have hnodup := List.Nodup.of_map _ (hbal.nodup hinit)
    have hperm := hbal.perm
    rw [hempty, finished, hterminated] at hperm
    change (scheduleByPolicy w policy n _).trace.terminated.Perm _ at hperm
    rw [hperm.count_eq]
    refine List.count_eq_one_of_mem hnodup (List.mem_append_left _ ?_)
    rw [htags]
    refine List.mem_iff_getElem?.2 ⟨i, ?_⟩
    rw [List.getElem?_zip_eq_some]
    exact ⟨by simp [hi], List.getElem?_eq_getElem hi⟩
  · intro n i hi content hfile hmem
    have hcontent := hscript i hi
    rw [hfile, Option.some.injEq] at hcontent
    rw [hcontent]
    exact (hgoing.run hp hinit hterminated hfull n).going.ended _ hmem

theorem Idle.notFaithful (hidle : Idle k) (hp : Fair policy)
    (hdigits : ∃ i < scripts.length, 10 ≤ k.pidCounter + i) : ¬ Faithful w policy scripts k := by
  intro h
  obtain ⟨n, hrun, -⟩ := h.ends
  have hstop := initializeAll_two_digits hs hidle.running hdigits
  have hsame : ∀ n, scheduleByPolicy w policy n (initializeAll w scripts k) =
      initializeAll w scripts k := by
    intro n
    induction n with
    | zero => exact hp.start _
    | succ n ih => rw [scheduleByPolicy_succ, ih, scheduler_eq, schedulerTurn, if_pos hstop]
  rw [hsame, hstop] at hrun
  cases hrun

end

/-- With frames to spare, scripts are executed faithfully exactly when all their
processes have ids of one digit. -/
theorem schedule_faithful_iff (w : World) (policy : Policy) (hp : Fair policy) (k : Kernel)
    (hidle : Idle k) (scripts : List CString)
    (hs : ∀ filename ∈ scripts, ∃ content, w.files filename = some content ∧ Script w content)
    (hfull : ∀ n, NeverFull (scheduleByPolicy w policy n (initializeAll w scripts k))) :
    Faithful w policy scripts k ↔ ∀ i < scripts.length, k.pidCounter + i < 10 := by
  constructor
  · intro h i hi
    by_contra hge
    exact hidle.notFaithful hs hp ⟨i, hi, Nat.le_of_not_lt hge⟩ h
  · exact fun hdigits => hidle.faithful hs hp hdigits hfull

theorem Fair.fixed {policy : Policy} (hp : Fair policy)
    (h : k.readyQueue = [] ∨ k.stopped = true) : scheduler w policy k = k := by
  rw [scheduler_eq, schedulerTurn]
  split
  · rfl
  · next hrun =>
      rcases h with hempty | hstop
      · rw [hp.taken, hempty]
        rfl
      · exact absurd hstop hrun

/-- In a run of turns that stays as it is from turn `m` on. -/
theorem Fair.after {policy : Policy} (hp : Fair policy) {m : Nat} {P : Kernel → Prop}
    (h : (scheduleByPolicy w policy m k).readyQueue = [] ∨
      (scheduleByPolicy w policy m k).stopped = true)
    (hbefore : ∀ n ≤ m, P (scheduleByPolicy w policy n k)) (n : Nat) :
    P (scheduleByPolicy w policy n k) := by
  have hsame : ∀ j, scheduleByPolicy w policy (m + j) k = scheduleByPolicy w policy m k := by
    intro j
    induction j with
    | zero => rfl
    | succ j ih => rw [← Nat.add_assoc, scheduleByPolicy_succ, ih, hp.fixed h]
  rcases Nat.le_total n m with hle | hge
  · exact hbefore n hle
  · obtain ⟨j, rfl⟩ := Nat.exists_eq_add_of_le hge
    rw [hsame]
    exact hbefore m (Nat.le_refl _)

theorem sevenLetters_script (w : World) (hplain : ∀ line, w.loadedBy line = []) :
    Script w sevenLetters := by
  refine ⟨by decide, ?_, by decide, fun line _ => hplain line⟩
  unfold Short
  decide

/-- Under `RR`, with a page fault of each. -/
theorem schedule_faithful_iff_two :
    Faithful (scriptWorld 18 sevenLetters) .RR [['s'], ['t']] kernelStart := by
  obtain ⟨k, hk⟩ : ∃ k, k = initializeAll (scriptWorld 18 sevenLetters) [['s'], ['t']] kernelStart :=
    ⟨_, rfl⟩
  have hqueue : (scheduleByPolicy (scriptWorld 18 sevenLetters) .RR 10 k).readyQueue.isEmpty := by
    subst hk
    decide +kernel
  have hfull : ∀ n ≤ 10, (scheduleByPolicy (scriptWorld 18 sevenLetters) .RR n k).trace.full.isEmpty := by
    subst hk
    decide +kernel
  have hfair : Fair .RR := .inr (.inl rfl)
  refine (schedule_faithful_iff (scriptWorld 18 sevenLetters) .RR hfair kernelStart
    ⟨rfl, rfl, rfl, rfl⟩ [['s'], ['t']] (fun filename _ =>
      ⟨_, rfl, sevenLetters_script _ fun _ => rfl⟩) fun n => ?_).2 (by decide)
  rw [← hk]
  exact hfair.after (P := NeverFull) (.inl (List.isEmpty_iff.1 hqueue))
    (fun n hn => List.isEmpty_iff.1 (hfull n hn)) n

/-- Ten processes of one line each: the tenth is not loaded any more, though the
frames are there. -/
theorem schedule_ten_stops :
    (∀ filename ∈ List.replicate 10 ['s'], ∃ content,
        (scriptWorld 30 ['a']).files filename = some content ∧ Script (scriptWorld 30 ['a']) content) ∧
      (∀ n, NeverFull (scheduleByPolicy (scriptWorld 30 ['a']) .FCFS n
        (initializeAll (scriptWorld 30 ['a']) (List.replicate 10 ['s']) kernelStart))) ∧
      ¬ Faithful (scriptWorld 30 ['a']) .FCFS (List.replicate 10 ['s']) kernelStart := by
  have hscript : Script (scriptWorld 30 ['a']) ['a'] := by
    refine ⟨by decide, ?_, by decide, fun line _ => rfl⟩
    unfold Short
    decide
  have hs : ∀ filename ∈ List.replicate 10 ['s'], ∃ content,
      (scriptWorld 30 ['a']).files filename = some content ∧
        Script (scriptWorld 30 ['a']) content := fun filename _ => ⟨_, rfl, hscript⟩
  have hdigits : ∃ i < (List.replicate 10 ['s']).length, 10 ≤ kernelStart.pidCounter + i :=
    ⟨9, by decide, by decide⟩
  have hstop := initializeAll_two_digits hs rfl hdigits
  have hfull : (initializeAll (scriptWorld 30 ['a']) (List.replicate 10 ['s'])
      kernelStart).trace.full.isEmpty := by
    decide +kernel
  have hfair : Fair .FCFS := .inl rfl
  refine ⟨hs, ?_, Idle.notFaithful hs ⟨rfl, rfl, rfl, rfl⟩ hfair hdigits⟩
  refine hfair.after (m := 0) (P := NeverFull) (.inr hstop) fun n hn => ?_
  obtain rfl := Nat.le_zero.1 hn
  exact List.isEmpty_iff.1 hfull

end SimpleShell.A2
