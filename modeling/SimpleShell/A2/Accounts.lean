import Mathlib.Algebra.Ring.Nat
import Mathlib.Data.List.Perm.Basic
import Mathlib.Data.List.Nodup
import Mathlib.Data.List.Range
import Mathlib.Data.List.TakeDrop
import SimpleShell.A2.Kernel

/-!
# Where the processes are

Every loop of the kernel takes a process out of the ready queue, lets it run and
puts it back. The account that has to balance is one permutation: the processes
in the queue and those terminated are the ones there were at the start and the
ones loaded since. All the policies keep it but one: `SJF` does not put a
process back that came back from a page fault.
-/

namespace SimpleShell.A2

open SimpleShell.Shell (CString MemoryStruct noneText)

variable {w : World} {k k' k'' : Kernel} {pcb : PCB}

def pids (queue : List PCB) : List Nat := queue.map PCB.pid

def tags (queue : List PCB) : List (Nat × CString) := queue.map PCB.tag

theorem pids_eq (queue : List PCB) : pids queue = (tags queue).map Prod.fst := by
  rw [pids, tags, List.map_map]
  rfl

/-- The queue has got the processes loaded meanwhile at its tail. -/
structure Grew (k k' : Kernel) : Prop where
  counter : k.pidCounter ≤ k'.pidCounter
  queue : ∃ new, k'.readyQueue = k.readyQueue ++ new ∧
    k'.trace.made = k.trace.made ++ tags new ∧
    (pids new).Sublist (List.range' k.pidCounter (k'.pidCounter - k.pidCounter))

theorem Grew.of_eq (hq : k'.readyQueue = k.readyQueue) (hc : k'.pidCounter = k.pidCounter)
    (hm : k'.trace.made = k.trace.made) : Grew k k' :=
  ⟨by omega, ⟨[], by rw [hq, List.append_nil], by rw [hm]; exact (List.append_nil _).symm,
    List.nil_sublist _⟩⟩

theorem range'_split {a b c : Nat} (hab : a ≤ b) (hbc : b ≤ c) :
    List.range' a (b - a) ++ List.range' b (c - b) = List.range' a (c - a) := by
  rw [show c - a = (b - a) + (c - b) by omega, ← List.range'_append_1,
    show a + (b - a) = b by omega]

theorem Grew.trans (h : Grew k k') (h' : Grew k' k'') : Grew k k'' := by
  obtain ⟨new, hnew, hmade, hpids⟩ := h.queue
  obtain ⟨new', hnew', hmade', hpids'⟩ := h'.queue
  have hc := h.counter
  have hc' := h'.counter
  refine ⟨by omega, ⟨new ++ new', by rw [hnew', hnew, List.append_assoc], ?_, ?_⟩⟩
  · rw [hmade', hmade, tags, tags, tags, List.map_append, List.append_assoc]
  · rw [pids, List.map_append, ← range'_split hc hc']
    exact hpids.append hpids'

/-- It has, and no process terminated or executed a line. -/
structure Adds (k k' : Kernel) : Prop extends Grew k k' where
  terminated : k'.trace.terminated = k.trace.terminated
  executed : k'.trace.executed = k.trace.executed

theorem Adds.refl (k : Kernel) : Adds k k := ⟨.of_eq rfl rfl rfl, rfl, rfl⟩

theorem Adds.trans (h : Adds k k') (h' : Adds k' k'') : Adds k k'' :=
  ⟨h.toGrew.trans h'.toGrew, h'.terminated.trans h.terminated, h'.executed.trans h.executed⟩

/-! ## What loading does to the queue -/

/-- The queue is as it was, and so are the counter and what the trace has of
processes. -/
structure Quiet (k k' : Kernel) : Prop where
  queue : k'.readyQueue = k.readyQueue
  counter : k'.pidCounter = k.pidCounter
  made : k'.trace.made = k.trace.made
  terminated : k'.trace.terminated = k.trace.terminated
  executed : k'.trace.executed = k.trace.executed

theorem Quiet.trans (h : Quiet k k') (h' : Quiet k' k'') : Quiet k k'' :=
  ⟨h'.queue.trans h.queue, h'.counter.trans h.counter, h'.made.trans h.made,
    h'.terminated.trans h.terminated, h'.executed.trans h.executed⟩

theorem Quiet.adds (h : Quiet k k') : Adds k k' :=
  ⟨.of_eq h.queue h.counter h.made, h.terminated, h.executed⟩

theorem allocateFrame_quiet (valueIn : CString) (pid : Nat) (k : Kernel) :
    Quiet k (allocateFrame w valueIn pid k).2 := by
  unfold allocateFrame
  split
  · exact ⟨rfl, rfl, rfl, rfl, rfl⟩
  · cases freeFrame w k.shellmemory with
    | some i => exact ⟨rfl, rfl, rfl, rfl, rfl⟩
    | none =>
        cases k.lruQueue with
        | nil => exact ⟨rfl, rfl, rfl, rfl, rfl⟩
        | cons victim rest =>
            dsimp only
            split <;> exact ⟨rfl, rfl, rfl, rfl, rfl⟩

/-- A loader's state has moved on with its process still the same one. -/
structure LoadMoves (l l' : Load) : Prop where
  tag : l'.pcb.tag = l.pcb.tag
  quiet : Quiet l.kernel l'.kernel

theorem LoadMoves.trans {l l' l'' : Load} (h : LoadMoves l l') (h' : LoadMoves l' l'') :
    LoadMoves l l'' := ⟨h'.tag.trans h.tag, h.quiet.trans h'.quiet⟩

theorem LoadMoves.refl (l : Load) : LoadMoves l l := ⟨rfl, rfl, rfl, rfl, rfl, rfl⟩

theorem loadLine_moves (q : Nat) (l : Load) : LoadMoves l (loadLine w q l) :=
  ⟨rfl, allocateFrame_quiet ..⟩

theorem placeHolder_moves (text : CString) (keep : Bool) (q : Nat) (l : Load) (i : Nat) :
    LoadMoves l (placeHolder w text keep q l i) := ⟨rfl, allocateFrame_quiet ..⟩

theorem loadLoop_moves (pageIndex : Nat → Nat) (n : Nat) (l : Load) :
    LoadMoves l (loadLoop w pageIndex n l) := by
  induction n generalizing l with
  | zero => exact .refl l
  | succ n ih =>
      rw [loadLoop]
      split
      · exact .refl l
      · exact (loadLine_moves _ l).trans (ih _)

theorem loadEnd_moves (q : Nat) (l : Load) : LoadMoves l (loadEnd q l) := by
  refine ⟨?_, ⟨rfl, rfl, rfl, rfl, rfl⟩⟩
  rw [loadEnd]
  dsimp only
  split <;> rfl

theorem placeHolders_moves (text : CString) (keep : Bool) (q : Nat) (places : List Nat)
    (l : Load) : LoadMoves l (places.foldl (placeHolder w text keep q) l) := by
  induction places generalizing l with
  | nil => exact .refl l
  | cons i places ih => exact (placeHolder_moves text keep q l i).trans (ih _)

theorem loadPagesToMemory_moves (fp : Stream) (pcb : PCB) (k : Kernel) :
    (loadPagesToMemory w fp pcb k).1.tag = pcb.tag ∧
      Quiet k (loadPagesToMemory w fp pcb k).2 := by
  unfold loadPagesToMemory
  dsimp only
  generalize (A2.linesRead 6 fp + 2) / 3 = pages
  have hloop := loadLoop_moves (w := w) (fun lineCount => lineCount / 3) 6
    ⟨fp, [], 0, 0, 0, makePAGE pcb.pid, pcb, noteLoad pcb.pid pages k⟩
  generalize loadLoop w (fun lineCount => lineCount / 3) 6
    ⟨fp, [], 0, 0, 0, makePAGE pcb.pid, pcb, noteLoad pcb.pid pages k⟩ = l at hloop ⊢
  generalize (l.lineCount - 1) / 3 = q
  have hmoves := hloop.trans ((loadEnd_moves q l).trans
    (placeHolders_moves (w := w) (loadEnd q l).command false q (placesLeft (loadEnd q l)) _))
  exact ⟨hmoves.tag, ⟨hmoves.quiet.queue, hmoves.quiet.counter, hmoves.quiet.made,
    hmoves.quiet.terminated, hmoves.quiet.executed⟩⟩

theorem loadMissingPageToMem_moves (pcb : PCB) (k : Kernel) :
    (loadMissingPageToMem w pcb k).1.tag = pcb.tag ∧
      Quiet k (loadMissingPageToMem w pcb k).2 := by
  unfold loadMissingPageToMem
  dsimp only
  generalize skipLines pcb.lineLoaded [] ⟨(w.files pcb.filename).getD [], false⟩ = skipped
  generalize pcb.lineLoaded / 3 = q
  have hloop := loadLoop_moves (w := w) (fun _ => q) 3
    ⟨skipped.2, skipped.1, pcb.lineLoaded, 0, 0, makePAGE pcb.pid, pcb, noteLoad pcb.pid 1 k⟩
  generalize loadLoop w (fun _ => q) 3
    ⟨skipped.2, skipped.1, pcb.lineLoaded, 0, 0, makePAGE pcb.pid, pcb, noteLoad pcb.pid 1 k⟩ = l
    at hloop ⊢
  have hmoves := hloop.trans ((loadEnd_moves q l).trans
    (placeHolders_moves (w := w) [] true q (placesLeft (loadEnd q l)) _))
  exact ⟨hmoves.tag, ⟨hmoves.quiet.queue, hmoves.quiet.counter, hmoves.quiet.made,
    hmoves.quiet.terminated, hmoves.quiet.executed⟩⟩

theorem processInitialize_adds (filename : CString) (k : Kernel) :
    Adds k (processInitialize w filename k) := by
  unfold processInitialize
  split
  · exact .refl k
  · cases w.files filename with
    | none => exact .refl k
    | some content =>
        dsimp only
        generalize hmade : makePCB w (List.replicate (countLines content / 3 + 1) none) filename k =
          made
        obtain ⟨htag, hquiet⟩ := loadPagesToMemory_moves (w := w) ⟨content, false⟩ made.1 made.2
        generalize loadPagesToMemory w ⟨content, false⟩ made.1 made.2 = loaded at htag hquiet ⊢
        subst hmade
        have hcounter : loaded.2.pidCounter = k.pidCounter + 1 := hquiet.counter
        have hqueue : loaded.2.readyQueue = k.readyQueue := hquiet.queue
        have hmade : loaded.2.trace.made = k.trace.made := hquiet.made
        split
        · exact ⟨⟨by omega, ⟨[], by rw [hqueue, List.append_nil],
            hmade.trans (List.append_nil _).symm, List.nil_sublist _⟩⟩, hquiet.terminated,
            hquiet.executed⟩
        · refine ⟨⟨?_, ⟨[loaded.1], congrArg (· ++ [_]) hqueue, congrArg (· ++ [_]) hmade, ?_⟩⟩,
            hquiet.terminated, hquiet.executed⟩
          · show k.pidCounter ≤ loaded.2.pidCounter
            omega
          · have hpid : loaded.1.pid = k.pidCounter := congrArg Prod.fst htag
            show [loaded.1.pid].Sublist
              (List.range' k.pidCounter (loaded.2.pidCounter - k.pidCounter))
            rw [hpid, hcounter, Nat.add_sub_cancel_left]
            exact List.Sublist.refl _

theorem parseInput_adds (line : CString) (k : Kernel) : Adds k (parseInput w line k) := by
  unfold parseInput
  induction w.loadedBy line generalizing k with
  | nil => exact .refl k
  | cons filename rest ih => exact (processInitialize_adds filename k).trans (ih _)

/-! ## What running a process does to the queue -/

/-- The process meets its last line before a page that is not loaded, within
`n` lines. -/
def Finishes : Nat → PCB → Prop
  | 0, _ => False
  | n + 1, pcb =>
      match (pcb.pageTable[pcb.PC.1]?).join with
      | none => False
      | some page => page.index pcb.PC.2 = pcb.lastLineNumber ∨ Finishes n (updatePC pcb)

/-- What `execute_process` leaves: the same process, further processes in the
queue, and the process among the terminated if it is done. -/
structure Executed (n : Nat) (pcb : PCB) (k : Kernel) (r : Bool × PCB × Kernel) : Prop where
  finishes : Finishes n pcb → r.1 = true ∨ r.2.2.stopped = true
  done : r.1 = true → Finishes n pcb
  tag : r.2.1.tag = pcb.tag
  grew : Grew k r.2.2
  terminated : r.2.2.trace.terminated = k.trace.terminated ++ if r.1 then [pcb.tag] else []
  executed : k.trace.executed <+: r.2.2.trace.executed

theorem updatePC_tag (pcb : PCB) : (updatePC pcb).tag = pcb.tag := by
  unfold updatePC
  split
  · rfl
  · split <;> rfl

theorem finishes_priority (n : Nat) (pcb : PCB) :
    Finishes n { pcb with priority := false } ↔ Finishes n pcb := by
  induction n generalizing pcb with
  | zero => exact Iff.rfl
  | succ n ih =>
      have hupdate : updatePC { pcb with priority := false } =
          { updatePC pcb with priority := false } := by
        unfold updatePC
        split
        · rfl
        · split <;> rfl
      rw [Finishes, Finishes, hupdate]
      cases (pcb.pageTable[pcb.PC.1]?).join with
      | none => exact Iff.rfl
      | some page => exact or_congr Iff.rfl (ih (updatePC pcb))

theorem executeProcess_spec (n : Nat) (pcb : PCB) (k : Kernel) :
    Executed n pcb k (executeProcess w n pcb k) := by
  induction n generalizing pcb k with
  | zero =>
      exact ⟨nofun, nofun, rfl, .of_eq rfl rfl rfl,
        by simp [executeProcess], List.prefix_rfl⟩
  | succ n ih =>
      rw [executeProcess]
      cases hpage : (pcb.pageTable[pcb.PC.1]?).join with
      | none =>
          obtain ⟨htag, hquiet⟩ := loadMissingPageToMem_moves (w := w) pcb k
          exact ⟨by simp [Finishes, hpage], nofun, htag, hquiet.adds.toGrew,
            by simp [hquiet.terminated], hquiet.executed ▸ List.prefix_rfl⟩
      | some page =>
          dsimp only
          generalize hk1 : (if pcb.PC.2 = 0 then lruQueueAddToTail page k else k) = k1
          have hone : Adds k k1 := by
            rw [← hk1]
            split
            · exact ⟨.of_eq rfl rfl rfl, rfl, rfl⟩
            · exact .refl k
          cases memGetValueAtLine (page.index pcb.PC.2) k1 with
          | none =>
              refine ⟨fun _ => .inr rfl, nofun, rfl,
                hone.toGrew.trans (.of_eq rfl rfl rfl), ?_, ?_⟩
              · show k1.trace.terminated = _
                rw [hone.terminated]
                simp
              · show _ <+: k1.trace.executed
                exact hone.executed ▸ List.prefix_rfl
          | some line =>
              dsimp only
              generalize Entry.mk _ _ line = entry
              have hadds := parseInput_adds (w := w) line (noteExecuted entry k1)
              have hnote : Grew k1 (noteExecuted entry k1) := .of_eq rfl rfl rfl
              have hgrew := hone.toGrew.trans (hnote.trans hadds.toGrew)
              have hterm : (parseInput w line (noteExecuted entry k1)).trace.terminated =
                  k.trace.terminated := hadds.terminated.trans hone.terminated
              have hexec : k.trace.executed <+:
                  (parseInput w line (noteExecuted entry k1)).trace.executed := by
                rw [hadds.executed, ← hone.executed]
                exact List.prefix_append _ _
              generalize parseInput w line (noteExecuted entry k1) = k2 at hgrew hterm hexec ⊢
              split
              · next hstop =>
                  exact ⟨fun _ => .inr hstop, nofun, rfl, hgrew, by simp [hterm], hexec⟩
              · split
                · next hlast =>
                    refine ⟨fun _ => .inl rfl, fun _ => ?_, rfl,
                      hgrew.trans (.of_eq rfl rfl rfl), ?_, hexec⟩
                    · simp [Finishes, hpage, hlast]
                    · show k2.trace.terminated ++ [pcb.tag] = _
                      rw [hterm]
                      rfl
                · next hlast =>
                    obtain ⟨hfin, hdone, htag, hgrew', hterm', hexec'⟩ :=
                      ih (updatePC { pcb with priority := false }) k2
                    have hupdate : (updatePC { pcb with priority := false }).tag = pcb.tag :=
                      updatePC_tag _
                    have hnext : Finishes (n + 1) pcb ↔
                        Finishes n (updatePC { pcb with priority := false }) := by
                      rw [← finishes_priority (n + 1) pcb, Finishes]
                      simp [hpage, hlast]
                    refine ⟨fun h => hfin (hnext.1 h), fun h => hnext.2 (hdone h),
                      htag.trans hupdate, hgrew.trans hgrew', ?_, hexec.trans hexec'⟩
                    rw [hterm', hterm, hupdate]

/-! ## What a loop takes out of the queue -/

theorem sortFrom_perm (cur : PCB) (queue : List PCB) : (sortFrom cur queue).Perm (cur :: queue) := by
  induction queue generalizing cur with
  | nil => exact .refl _
  | cons next rest ih =>
      rw [sortFrom]
      split
      · exact ((ih cur).cons next).trans (.swap ..)
      · exact (ih next).cons cur

theorem sortReadyQueue_perm (queue : List PCB) : (sortReadyQueue queue).Perm queue := by
  cases queue with
  | nil => exact .refl _
  | cons head rest => exact sortFrom_perm head rest

theorem readyQueuePromote_perm (queue : List PCB) (score : Int) :
    (readyQueuePromote queue score).Perm queue := by
  cases queue with
  | nil => exact .refl _
  | cons head tail =>
      simp only [readyQueuePromote]
      split
      · exact .refl _
      · have hspan := List.takeWhile_append_dropWhile
          (p := fun pcb : PCB => decide (pcb.jobLengthScore ≠ score)) (l := tail)
        rw [List.span_eq_takeWhile_dropWhile]
        split
        · next before next after heq =>
            simp only [Prod.mk.injEq] at heq
            rw [heq.1, heq.2] at hspan
            rw [← hspan]
            exact (List.Perm.swap ..).trans (List.perm_middle.symm.cons head)
        · exact .refl _

theorem tags_decrement (queue : List PCB) :
    tags (readyQueueDecrementJobLengthScore queue) = tags queue := by
  unfold tags readyQueueDecrementJobLengthScore
  rw [List.map_map]
  apply List.map_congr_left
  intro pcb _
  dsimp only [Function.comp_apply]
  split <;> rfl

/-- The process a loop takes next, and the kernel without it. -/
def taken : Policy → Kernel → Option (PCB × Kernel)
  | .SJF, k => popShortestJob k
  | .AGING, k => agingPick k
  | _, k => popHead k k.readyQueue

/-- What taking a process leaves: the others, and everything else as it was. -/
structure Taken (k : Kernel) (cur : PCB) (k' : Kernel) : Prop where
  queue : (cur.tag :: tags k'.readyQueue).Perm (tags k.readyQueue)
  counter : k'.pidCounter = k.pidCounter
  trace : k'.trace = k.trace

/-- `AGING` follows a null pointer: the one process there is has a score above
`MAX_INT`, and nothing is left in the queue to promote. -/
def NullDereference (policy : Policy) (k : Kernel) : Prop :=
  policy = .AGING ∧ ∃ cur, k.readyQueue = [cur] ∧ (MAX_INT : Int) < cur.jobLengthScore

/-- The kernel with these processes in its queue, `AGING` with lower scores. -/
def takenRest (policy : Policy) (k : Kernel) (rest : List PCB) (stopped : Bool) : Kernel :=
  { k with
    readyQueue := if policy = .AGING then readyQueueDecrementJobLengthScore rest else rest
    stopped := stopped }

theorem popHead_queue {policy : Policy} {queue : List PCB} {cur : PCB}
    (hperm : queue.Perm k.readyQueue) (h : popHead k queue = some (cur, k'))
    (hne : policy ≠ .AGING) :
    ∃ rest, (cur :: rest).Perm k.readyQueue ∧ k' = takenRest policy k rest k.stopped := by
  cases queue with
  | nil => cases h
  | cons head rest =>
      simp only [popHead, Option.some.injEq, Prod.mk.injEq] at h
      obtain ⟨rfl, rfl⟩ := h
      exact ⟨rest, hperm, by rw [takenRest, if_neg hne]⟩

/-- `AGING` goes no further exactly when there is none to promote. -/
theorem agingPick_queue {cur : PCB} (h : agingPick k = some (cur, k')) :
    ∃ rest stop, (cur :: rest).Perm k.readyQueue ∧ k' = takenRest .AGING k rest stop ∧
      (stop = true ↔ NullDereference .AGING k) := by
  unfold agingPick at h
  cases hq : k.readyQueue with
  | nil => simp [hq] at h
  | cons head rest =>
      simp only [hq] at h
      have hperm : (if decide (readyQueueGetShortestJobScore rest < head.jobLengthScore) = true then
          readyQueueAddToTail (readyQueuePromote rest (readyQueueGetShortestJobScore rest)) head
          else head :: rest).Perm (head :: rest) := by
        split
        · exact (List.perm_append_singleton ..).trans ((readyQueuePromote_perm rest _).cons head)
        · exact .refl _
      split at h
      · cases h
      · next next others heq =>
          simp only [Option.some.injEq, Prod.mk.injEq] at h
          obtain ⟨rfl, rfl⟩ := h
          refine ⟨others, _, heq ▸ hperm, rfl, ?_⟩
          rw [Bool.and_eq_true, decide_eq_true_eq, List.isEmpty_iff]
          constructor
          · rintro ⟨hlt, rfl⟩
            exact ⟨rfl, head, hq, hlt⟩
          · rintro ⟨-, cur, hcur, hlt⟩
            rw [hq, List.cons.injEq] at hcur
            obtain ⟨rfl, rfl⟩ := hcur
            exact ⟨hlt, rfl⟩

/-- The process taken and the others are what the queue was. -/
theorem taken_queue {policy : Policy} {cur : PCB} (hrun : k.stopped = false)
    (h : taken policy k = some (cur, k')) :
    ∃ rest stop, (cur :: rest).Perm k.readyQueue ∧ k' = takenRest policy k rest stop ∧
      (stop = true ↔ NullDereference policy k) := by
  have hplain : policy ≠ .AGING → (∃ rest, (cur :: rest).Perm k.readyQueue ∧
      k' = takenRest policy k rest k.stopped) → ∃ rest stop, (cur :: rest).Perm k.readyQueue ∧
      k' = takenRest policy k rest stop ∧ (stop = true ↔ NullDereference policy k) := by
    rintro hne ⟨rest, hperm, heq⟩
    refine ⟨rest, k.stopped, hperm, heq, ?_⟩
    rw [hrun]
    exact iff_of_false Bool.false_ne_true fun hnull => hne hnull.1
  cases policy with
  | FCFS => exact hplain (by decide) (popHead_queue (.refl _) h (by decide))
  | RR => exact hplain (by decide) (popHead_queue (.refl _) h (by decide))
  | RR30 => exact hplain (by decide) (popHead_queue (.refl _) h (by decide))
  | SJF => exact hplain (by decide) (popHead_queue (sortReadyQueue_perm _) h (by decide))
  | AGING => exact agingPick_queue h

theorem taken_spec {p : Policy} {cur : PCB} (hrun : k.stopped = false)
    (h : taken p k = some (cur, k')) : Taken k cur k' := by
  obtain ⟨rest, stop, hperm, rfl, -⟩ := taken_queue hrun h
  refine ⟨?_, rfl, rfl⟩
  have htags : tags (takenRest p k rest stop).readyQueue = tags rest := by
    rw [takenRest]
    split
    · exact tags_decrement rest
    · rfl
  rw [htags]
  exact hperm.map PCB.tag

def quantaOf : Policy → Nat
  | .FCFS => MAX_INT
  | .SJF => MAX_INT
  | .RR => 2
  | .RR30 => 30
  | .AGING => 1

def putBackOf : Policy → List PCB → PCB → List PCB
  | .FCFS => readyQueueAddToHead
  | .SJF => fun queue _ => queue
  | .RR => readyQueueAddToTail
  | .RR30 => readyQueueAddToTail
  | .AGING => readyQueueAddToHead

theorem scheduler_eq (policy : Policy) (k : Kernel) :
    scheduler w policy k = schedulerTurn w (taken policy) (quantaOf policy) (putBackOf policy) k := by
  cases policy <;> rfl

theorem putBackOf_perm {policy : Policy} (h : policy ≠ .SJF) (queue : List PCB) (pcb : PCB) :
    (putBackOf policy queue pcb).Perm (pcb :: queue) := by
  cases policy with
  | FCFS => exact .refl _
  | SJF => exact absurd rfl h
  | RR => exact List.perm_append_singleton ..
  | RR30 => exact List.perm_append_singleton ..
  | AGING => exact .refl _

/-! ## The account -/

/-- The processes there were at the start and those loaded since. -/
def members (k0 k : Kernel) : List (Nat × CString) :=
  tags k0.readyQueue ++ k.trace.made.drop k0.trace.made.length

/-- The processes terminated since the start. -/
def finished (k0 k : Kernel) : List (Nat × CString) :=
  k.trace.terminated.drop k0.trace.terminated.length

/-- No two processes in the queue have one id, and the next one has a new one. -/
structure Initialized (k0 : Kernel) : Prop where
  nodup : (pids k0.readyQueue).Nodup
  below : ∀ pid ∈ pids k0.readyQueue, pid < k0.pidCounter

/-- The processes in the queue and the terminated ones are all there are. -/
structure Balanced (k0 k : Kernel) : Prop where
  counter : k0.pidCounter ≤ k.pidCounter
  made : k0.trace.made <+: k.trace.made
  done : k0.trace.terminated <+: k.trace.terminated
  fresh : ((k.trace.made.drop k0.trace.made.length).map Prod.fst).Sublist
    (List.range' k0.pidCounter (k.pidCounter - k0.pidCounter))
  perm : (tags k.readyQueue ++ finished k0 k).Perm (members k0 k)

variable {k0 : Kernel} {policy : Policy}

/-- No two processes have one id. -/
theorem Balanced.nodup (h : Balanced k0 k) (hinit : Initialized k0) :
    ((members k0 k).map Prod.fst).Nodup := by
  rw [members, List.map_append, ← pids_eq]
  refine List.Nodup.append hinit.nodup (h.fresh.nodup List.nodup_range') fun pid hq hnew => ?_
  have hlt := hinit.below pid hq
  have hge := h.fresh.subset hnew
  rw [List.mem_range'_1] at hge
  omega

theorem Balanced.lt (h : Balanced k0 k) (hinit : Initialized k0) {t : Nat × CString}
    (ht : t ∈ members k0 k) : t.1 < k.pidCounter := by
  have hle := h.counter
  rcases List.mem_append.1 ht with hq | hnew
  · have hlt := hinit.below t.1 (by
      rw [pids_eq]
      exact List.mem_map_of_mem hq)
    omega
  · have hmem := h.fresh.subset (List.mem_map_of_mem hnew)
    rw [List.mem_range'_1] at hmem
    omega

theorem Balanced.start (k0 : Kernel) (policy : Policy) :
    Balanced k0 (schedulerStart policy k0) := by
  have hsame : ∀ k, k.trace = k0.trace → k.pidCounter = k0.pidCounter →
      (tags k.readyQueue).Perm (tags k0.readyQueue) → Balanced k0 k := by
    intro k htrace hcounter hqueue
    refine ⟨by omega, by simp [htrace], by simp [htrace], by simp [htrace], ?_⟩
    rw [finished, members, htrace, List.drop_length, List.drop_length, List.append_nil,
      List.append_nil]
    exact hqueue
  cases policy with
  | AGING => exact hsame _ rfl rfl ((sortReadyQueue_perm _).map PCB.tag)
  | _ => exact hsame _ rfl rfl (.refl _)

theorem drop_prefix_append {α : Type} {a b c d : List α} (h : a <+: b) (hd : d = b ++ c) :
    a <+: d ∧ d.drop a.length = b.drop a.length ++ c := by
  obtain ⟨rest, rfl⟩ := h
  subst hd
  exact ⟨⟨rest ++ c, by rw [List.append_assoc]⟩, by simp [List.append_assoc]⟩

/-- The account after a step: `out` have left the queue, `new` have joined it. -/
theorem Balanced.step {new : List PCB} {ended : List (Nat × CString)} (h : Balanced k0 k)
    (hcounter : k.pidCounter ≤ k'.pidCounter) (hmade : k'.trace.made = k.trace.made ++ tags new)
    (hnew : (pids new).Sublist (List.range' k.pidCounter (k'.pidCounter - k.pidCounter)))
    (hdone : k'.trace.terminated = k.trace.terminated ++ ended)
    (hperm : (tags k'.readyQueue ++ ended).Perm (tags k.readyQueue ++ tags new)) :
    Balanced k0 k' := by
  obtain ⟨hmadePre, hmadeDrop⟩ := drop_prefix_append h.made hmade
  obtain ⟨hdonePre, hdoneDrop⟩ := drop_prefix_append h.done hdone
  have hle := h.counter
  refine ⟨by omega, hmadePre, hdonePre, ?_, ?_⟩
  · rw [hmadeDrop, List.map_append, ← pids_eq, ← range'_split hle hcounter]
    exact h.fresh.append hnew
  · have hbal := h.perm
    rw [members] at hbal ⊢
    rw [finished] at hbal ⊢
    have hall := hbal.append_right (tags new)
    rw [hmadeDrop, hdoneDrop]
    rw [List.append_assoc (tags k0.readyQueue)] at hall
    refine List.Perm.trans ?_ hall
    rw [List.perm_iff_count] at hperm ⊢
    intro t
    have hcount := hperm t
    simp only [List.count_append] at hcount ⊢
    omega

/-- While the process taken runs, it and the queue are what the queue was. -/
theorem Balanced.taken {p : Policy} (h : Balanced k0 k) (hrun : k.stopped = false) {cur : PCB}
    (ht : taken p k = some (cur, k')) :
    (cur.tag :: tags k'.readyQueue ++ finished k0 k).Perm (members k0 k) :=
  ((taken_spec hrun ht).queue.append_right _).trans h.perm

/-- Every turn that comes to its end keeps the account, but one of `SJF` that
does not finish its process. -/
theorem Balanced.turn (h : Balanced k0 k) (hgo : (scheduler w policy k).stopped = false)
    (hok : policy = .SJF → ∀ cur k', A2.taken policy k = some (cur, k') →
      Finishes (quantaOf policy) cur) :
    Balanced k0 (scheduler w policy k) := by
  rw [scheduler_eq, schedulerTurn] at hgo ⊢
  cases hrun : k.stopped with
  | true =>
      rw [hrun, if_pos rfl, hrun] at hgo
      cases hgo
  | false =>
      rw [hrun, if_neg Bool.false_ne_true] at hgo
      rw [if_neg Bool.false_ne_true]
      cases ht : A2.taken policy k with
      | none => exact h
      | some pair =>
          obtain ⟨cur, k1⟩ := pair
          simp only [ht] at hgo
          obtain ⟨hqueue, hcounter, htrace⟩ := taken_spec hrun ht
          cases hrun1 : k1.stopped with
          | true =>
              rw [hrun1, if_pos rfl, hrun1] at hgo
              cases hgo
          | false =>
              simp only [hrun1, Bool.false_eq_true, if_false] at hgo ⊢
              have hspec := executeProcess_spec (w := w) (quantaOf policy) cur k1
              generalize executeProcess w (quantaOf policy) cur k1 = r at hspec hgo ⊢
              obtain ⟨new, hnew, hmade, hpids⟩ := hspec.grew.queue
              have hgrow := hspec.grew.counter
              have hterm := hspec.terminated
              rw [htrace] at hterm hmade
              rw [hcounter] at hpids hgrow
              have hrstop : r.2.2.stopped = false := by
                split at hgo
                · exact hgo
                · exact hgo
              have htags : tags r.2.2.readyQueue = tags k1.readyQueue ++ tags new := by
                rw [hnew, tags, tags, tags, List.map_append]
              simp only [hrstop, Bool.or_false]
              split
              · next hdone =>
                  rw [if_pos hdone] at hterm
                  refine h.step hgrow hmade hpids hterm ?_
                  rw [htags]
                  refine List.Perm.trans ?_ (hqueue.append_right (tags new))
                  rw [List.perm_iff_count]
                  intro t
                  simp only [List.count_append, List.count_cons, List.count_nil]
                  omega
              · next hdone =>
                  rw [if_neg hdone] at hterm
                  have hsjf : policy ≠ .SJF := fun heq => by
                    rcases hspec.finishes (hok heq cur k1 ht) with hfin | hstop
                    · exact hdone hfin
                    · rw [hrstop] at hstop
                      cases hstop
                  refine h.step hgrow hmade hpids hterm ?_
                  have hput : (tags (putBackOf policy r.2.2.readyQueue r.2.1)).Perm
                      (r.2.1.tag :: tags r.2.2.readyQueue) :=
                    (putBackOf_perm hsjf r.2.2.readyQueue r.2.1).map PCB.tag
                  show (tags (putBackOf policy r.2.2.readyQueue r.2.1) ++ []).Perm _
                  rw [List.append_nil]
                  refine hput.trans (List.Perm.trans ?_ (hqueue.append_right (tags new)))
                  rw [hspec.tag, htags, List.cons_append]

end SimpleShell.A2
