import SimpleShell.A3.CalmLines
import SimpleShell.A3.Turns
import Mathlib.Logic.Relation

/-!
# exec

`exec` adds a process for each script and gives them turns until the queue is done. A run of
turns keeps what holds between two of them, and the lines and pages that are left get fewer, so
that `exec` ends, with every script run and with the frames free for the next one.
-/

namespace SimpleShell.A3

open SimpleShell.Shell SimpleShell.Lib
open SimpleShell.A2 (pidString textLines)

variable {σ : Type}

/-- A turn of `run_proc_RR`, while the queue is not done. -/
inductive Turn (parseInput : CString → Kernel σ → Int × Kernel σ) (c : Sizes) :
    Kernel σ → Kernel σ → Prop
  | head {k : Kernel σ} {pid : Nat} {queue : List Nat} (hstopped : k.stopped = false)
      (hdone : queueDone k = false) (hqueue : k.queue = pid :: queue) :
      Turn parseInput c k (rrTurn parseInput c pid { k with queue := queue })

def newProcs (c : Sizes) (scripts : List CString) (k : Kernel σ) : Kernel σ :=
  scripts.foldl (fun k script => newProc c script k) k

/-- `exec` with the policy "RR", the only one that `parse_input` asks for, if it is done after
that many turns. -/
def exec (parseInput : CString → Kernel σ → Int × Kernel σ) (c : Sizes) (fuel : Nat)
    (scripts : List CString) (k : Kernel σ) : Option (Int × Kernel σ) :=
  if 3 < scripts.length then some (1, k)
  else (runProcRR parseInput c fuel (newProcs c scripts k)).map fun k => (0, k)

/-- One `exec` after the other. -/
def execs (parseInput : CString → Kernel σ → Int × Kernel σ) (c : Sizes) (fuel : Nat) :
    List (List CString) → Kernel σ → Option (Kernel σ)
  | [], k => some k
  | scripts :: batches, k =>
      (exec parseInput c fuel scripts k).bind fun r => execs parseInput c fuel batches r.2

/-- The scripts that get a process: more than three at once are refused. -/
def accepted (batches : List (List CString)) : List CString :=
  (batches.filter fun scripts => decide (scripts.length ≤ 3)).flatten

/-- Lines that are delivered whole, as many as are counted. -/
structure WellCounted (content : CString) : Prop where
  short : ∀ line ∈ textLines content, ShortLine line
  size : countLines content = (delivered content).length

/-- What `exec` runs for process `pid`, if its first process is `first`. -/
def scriptOf (first : Nat) (scripts : List CString) (pid : Nat) : List CString :=
  if pid < first then [] else delivered (scripts.getD (pid - first) [])

/-- There is a line to read for each that is counted. -/
def Supplied (content : CString) : Prop := countLines content ≤ (delivered content).length

theorem WellCounted.supplied {content : CString} (h : WellCounted content) : Supplied content :=
  Nat.le_of_eq h.size

/-- The pages that `PCB_init` loads for the scripts. -/
def firstPages (scripts : List CString) : Nat :=
  (scripts.map fun script => min 2 (pageTableSize (countLines script))).sum

section Run

variable {c : Sizes} {procs queue : List Nat} {ran : Nat → List CString} {g : Nat → Progress}
  {k k' : Kernel σ} {pid : Nat} {p' : Progress}
  {parseInput : CString → Kernel σ → Int × Kernel σ} {kind : CString → Prop}

/-- In the whole run, the lines that are run return, and with another value than 1. -/
def RunReturns (parseInput : CString → Kernel σ → Int × Kernel σ) (c : Sizes) (k : Kernel σ) :
    Prop :=
  ∀ k₁, Relation.ReflTransGen (Turn parseInput c) k k₁ → TurnReturns parseInput c k₁

theorem RunReturns.after (h : RunReturns parseInput c k)
    (hturns : Relation.ReflTransGen (Turn parseInput c) k k') : RunReturns parseInput c k' :=
  fun k₁ hk₁ => h k₁ (hturns.trans hk₁)

/-! ## The end of the run -/

theorem runProcRR_head {fuel : Nat} (hstopped : k.stopped = false) (hdone : queueDone k = false)
    (hqueue : k.queue = pid :: queue) :
    runProcRR parseInput c (fuel + 1) k =
      runProcRR parseInput c fuel (rrTurn parseInput c pid { k with queue := queue }) := by
  rw [runProcRR.eq_def]
  simp only [hstopped, hdone, Bool.false_eq_true, if_false, hqueue]

theorem Rounds.step (h : Rounds c procs ran g k) (ho : LeavesKernel kind c parseInput)
    (hkind : ∀ q, ∀ l ∈ (g q).lines, kind l) (hret : TurnReturns parseInput c k)
    (hturn : Turn parseInput c k k') :
    ∃ g', (∀ q, (g' q).lines = (g q).lines ∧ (g' q).size = (g q).size) ∧
      Rounds c procs ran g' k' := by
  cases hturn with
  | @head pid queue hstopped hdone hqueue =>
      obtain ⟨p', hadvance, hrounds, -, -⟩ := h.turn ho hkind hret hdone hqueue
      refine ⟨_, fun q => ?_, hrounds⟩
      by_cases hq : q = pid
      · rw [hq, Function.update_self]
        exact ⟨hadvance.lines, hadvance.size⟩
      · rw [Function.update_of_ne hq]
        exact ⟨rfl, rfl⟩

theorem Rounds.steps (h : Rounds c procs ran g k) (ho : LeavesKernel kind c parseInput)
    (hkind : ∀ q, ∀ l ∈ (g q).lines, kind l) (hret : RunReturns parseInput c k)
    (hturns : Relation.ReflTransGen (Turn parseInput c) k k') :
    ∃ g', (∀ q, (g' q).lines = (g q).lines ∧ (g' q).size = (g q).size) ∧
      Rounds c procs ran g' k' := by
  induction hturns with
  | refl => exact ⟨g, fun _ => ⟨rfl, rfl⟩, h⟩
  | @tail k₁ k₂ hturns hturn ih =>
      obtain ⟨g₁, hlines₁, h₁⟩ := ih
      obtain ⟨g₂, hlines₂, h₂⟩ := h₁.step ho (fun q l hl => hkind q l ((hlines₁ q).1 ▸ hl))
        (hret _ hturns) hturn
      exact ⟨g₂, fun q => ⟨(hlines₂ q).1.trans (hlines₁ q).1, (hlines₂ q).2.trans (hlines₁ q).2⟩, h₂⟩

/-- Ordinary lines return in every turn. -/
theorem Rounds.turnReturns (h : Rounds c procs ran g k) (ho : Ordinary kind c parseInput)
    (hkind : ∀ q, ∀ l ∈ (g q).lines, kind l) : TurnReturns parseInput c k := by
  rintro pid s ⟨-, -, queue, hqueue, hs⟩
  have hpid : pid ∈ procs := h.queued pid (by rw [hqueue]; exact List.mem_cons_self)
  obtain ⟨-, t, -, g₁, hmid, hun⟩ := h.callStates hqueue ho.leavesKernel (hkind pid)
    (fun hun => (h.paged.setQueue queue).returns hpid ho (hkind pid) hun) hs
  exact hmid.paged.returns hpid ho (hmid.lines ▸ hkind pid) hun

theorem Rounds.runReturns (h : Rounds c procs ran g k) (ho : Ordinary kind c parseInput)
    (hkind : ∀ q, ∀ l ∈ (g q).lines, kind l) : RunReturns parseInput c k := by
  intro k₁ hturns
  have hrounds : ∃ g₁, (∀ q, (g₁ q).lines = (g q).lines) ∧ Rounds c procs ran g₁ k₁ := by
    induction hturns with
    | refl => exact ⟨g, fun _ => rfl, h⟩
    | tail _ hturn ih =>
        obtain ⟨g₁, hlines₁, h₁⟩ := ih
        have hkind₁ := fun q l hl => hkind q l (hlines₁ q ▸ hl)
        obtain ⟨g₂, hlines₂, h₂⟩ := h₁.step ho.leavesKernel hkind₁ (h₁.turnReturns ho hkind₁) hturn
        exact ⟨g₂, fun q => (hlines₂ q).1.trans (hlines₁ q), h₂⟩
  obtain ⟨g₁, hlines₁, h₁⟩ := hrounds
  exact h₁.turnReturns ho fun q l hl => hkind q l (hlines₁ q ▸ hl)

/-- When the queue is done no process has a line left. -/
theorem Rounds.finished (h : Rounds c procs ran g k) (hdone : queueDone k = true)
    (hpid : pid ∈ procs) : (g pid).done = (g pid).size := by
  have hle := (h.paged.ok pid hpid).le
  by_contra hne
  have hlt : (g pid).done < (g pid).size := by omega
  have hp := h.paged.process pid hpid
  obtain ⟨hsize, -⟩ := pageTableSize_spec (g pid).size
  unfold queueDone at hdone
  rw [List.all_eq_true] at hdone
  have hpcb := hdone pid (h.waiting pid hpid hlt)
  unfold pcbDone at hpcb
  rw [List.all_eq_true] at hpcb
  have hpage := hpcb ((g pid).done / 3) (by
    rw [List.mem_range, hp.pages, Progress.pages]
    omega)
  rw [decide_eq_true_iff, hp.counter] at hpage
  omega

theorem Advance.left_le {p : Progress} (h : Advance p p') : p'.left ≤ p.left := by
  have hdone := h.done
  have hloaded := h.loaded
  unfold Progress.left Progress.pages
  rw [h.size]
  omega

theorem left_update (hle : p'.left ≤ (g pid).left) (hpid : pid ∈ procs) :
    (procs.map fun q => (Function.update g pid p' q).left).sum + (g pid).left ≤
      (procs.map fun q => (g q).left).sum + p'.left := by
  have hsum := @sum_update procs (Function.update g pid p') pid Progress.left (g pid)
    (by rw [Function.update_self]; exact hle) hpid
  rwa [Function.update_self, Function.update_idem, Function.update_eq_self] at hsum

/-- Turns are taken until the queue is done. -/
theorem Rounds.run (ho : LeavesKernel kind c parseInput) (left : Nat) :
    ∀ {g : Nat → Progress} {k : Kernel σ}, Rounds c procs ran g k →
      (∀ q, ∀ l ∈ (g q).lines, kind l) → RunReturns parseInput c k →
      (procs.map fun q => (g q).left).sum + k.queue.length ≤ left →
      ∃ fuel k', Relation.ReflTransGen (Turn parseInput c) k k' ∧ queueDone k' = true ∧
        runProcRR parseInput c fuel k = some (rrEnd k') := by
  induction left with
  | zero =>
      intro g k h hkind _ hleft
      have hdone : queueDone k = true := by
        unfold queueDone
        rw [List.length_eq_zero_iff.1 (show k.queue.length = 0 by omega), List.all_nil]
      exact ⟨0, k, .refl, hdone, runProcRR_done h.paged.stopped hdone⟩
  | succ left ih =>
      intro g k h hkind hret hleft
      cases hdone : queueDone k with
      | true => exact ⟨0, k, .refl, hdone, runProcRR_done h.paged.stopped hdone⟩
      | false =>
          cases hqueue : k.queue with
          | nil =>
              unfold queueDone at hdone
              rw [hqueue, List.all_nil] at hdone
              cases hdone
          | cons pid queue =>
              obtain ⟨p', hadvance, hrounds, hlt, -⟩ := h.turn ho hkind (hret k .refl) hdone hqueue
              have hupdate := @left_update procs g pid p' hadvance.left_le
                (h.queued pid (by rw [hqueue]; exact List.mem_cons_self))
              have hkind' : ∀ q, ∀ l ∈ (Function.update g pid p' q).lines, kind l := by
                intro q l hl
                by_cases hq : q = pid
                · rw [hq, Function.update_self, hadvance.lines] at hl
                  exact hkind pid l hl
                · rw [Function.update_of_ne hq] at hl
                  exact hkind q l hl
              have hturn : Turn parseInput c k (rrTurn parseInput c pid { k with queue := queue }) :=
                .head h.paged.stopped hdone hqueue
              obtain ⟨fuel, k', hturns, hend, hrun⟩ := ih hrounds hkind' (hret.after (.single hturn))
                (by omega)
              refine ⟨fuel + 1, k', .head hturn hturns, hend, ?_⟩
              rw [runProcRR_head h.paged.stopped hdone hqueue, hrun]

/-! ## The frames at the end -/

/-- The slots that `free_PCB` clears: three from each frame number of a page. -/
def clearedSlots (k : Kernel σ) : List Nat :=
  k.allPcb.flatMap fun pid => (List.range (k.pcbs pid).pageTableSize).flatMap fun i =>
    [0, 1, 2].flatMap fun j => List.range' ((k.page (pid, i)).index j) 3

theorem rrEnd_memory (k : Kernel σ) (x : Nat) :
    (rrEnd k).shellmemory x =
      if x ∈ clearedSlots k then ⟨noneText, noneText⟩ else k.shellmemory x := by
  have hfold : (rrEnd k).shellmemory = (clearedSlots k).foldl memFreeAt k.shellmemory := by
    unfold clearedSlots
    simp only [List.foldl_flatMap]
    rfl
  rw [hfold, foldl_memFreeAt]

theorem mem_clearedSlots {x : Nat} : x ∈ clearedSlots k ↔
    ∃ pid ∈ k.allPcb, ∃ i < (k.pcbs pid).pageTableSize, ∃ j < 3,
      (k.page (pid, i)).index j ≤ x ∧ x < (k.page (pid, i)).index j + 3 := by
  have hthree : ∀ p : Nat → Prop, (∃ j ∈ [0, 1, 2], p j) ↔ ∃ j < 3, p j := by
    intro p
    rw [show [0, 1, 2] = List.range 3 from rfl]
    simp only [List.mem_range]
  unfold clearedSlots
  simp only [List.mem_flatMap, List.mem_range, List.mem_range'_1, hthree]

/-- Every frame is free when `run_proc_RR` is done. -/
theorem Rounds.idle (h : Rounds c procs ran g k) : Idle c (rrEnd k) := by
  refine ⟨rfl, rfl, rfl, h.paged.stopped, fun x hx => ?_⟩
  rw [rrEnd_memory]
  split
  · rfl
  · next hout =>
      by_contra hused
      obtain ⟨p, hp, hle, hlt⟩ := h.paged.used x hx hused
      obtain ⟨hpid, hloaded⟩ := h.paged.known p.1 p.2 hp
      have hbound := (h.paged.ok p.1 hpid).bound
      refine hout (mem_clearedSlots.2 ⟨p.1, by rw [h.allPcb]; exact hpid, p.2, ?_, 0, by decide, hle, hlt⟩)
      rw [(h.paged.process p.1 hpid).pages]
      omega

/-! ## The start -/

/-- No line was run yet, and the first pages of every process are loaded. -/
structure Started (c : Sizes) (procs : List Nat) (ran : Nat → List CString) (g : Nat → Progress)
    (k : Kernel σ) : Prop where
  paged : Paged c procs g k
  fresh : ∀ pid, (g pid).done = 0 ∧ (g pid).loaded = min 2 (g pid).pages
  outside : ∀ pid, pid ∉ procs → (g pid).lines = [] ∧ (g pid).size = 0
  queue : k.queue = procs
  allPcb : k.allPcb = procs
  nodup : procs.Nodup
  below : ∀ pid ∈ procs, pid < k.pidCounter
  full : k.lruCache.length = room g procs
  present : ∀ pid ∈ procs, ∀ i, i < (g pid).loaded → (pid, i) ∈ k.lruCache
  executed : ∀ pid, linesOf pid k.executed = ran pid

theorem Started.rounds (h : Started c procs ran g k)
    (hframes : 3 * room g procs ≤ c.FRAME_STORE_SIZE) : Rounds c procs ran g k := by
  have hfirst : ∀ pid, (g pid).first = 0 := fun pid => by
    unfold Progress.first
    rw [(h.fresh pid).1, Nat.zero_min]
  refine ⟨h.paged, fun pid _ => ⟨Nat.le_of_eq (h.fresh pid).2.symm, fun _ _ => ?_⟩, ?_,
    fun pid hpid => ?_, fun pid hpid _ => ?_, ?_, fun p _ q _ _ _ => ?_, ⟨0, ?_, ?_⟩, h.allPcb,
    hframes, fun pid => ?_, .inr h.present⟩
  · rw [(h.fresh pid).1]
  · rw [h.queue]
    exact h.nodup
  · rwa [h.queue] at hpid
  · rwa [h.queue]
  · refine List.pairwise_of_forall fun p q _ _ => ?_
    rw [hfirst, hfirst]
  · rw [hfirst, hfirst]
    exact Nat.zero_le _
  · intro q rest _ _ h6
    rw [(h.fresh q).1] at h6
    exact absurd h6 (by decide)
  · rw [h.queue, Nat.zero_add]
  · rw [h.executed, (h.fresh pid).1, List.take_zero, List.append_nil]

/-- The tables of a new process. -/
theorem Paged.addPcb (h : Paged c procs g k) (hpid : pid ∉ procs) {content : CString}
    (hsupplied : Supplied content) (n : Nat) :
    Paged c (procs ++ [pid])
      (Function.update g pid ⟨delivered content, countLines content, 0, 0⟩)
      { k.setPcb pid (pcbStart pid content) with pidCounter := n } := by
  obtain ⟨k₁, hk₁⟩ : ∃ k₁ : Kernel σ, k₁ =
    { k.setPcb pid (pcbStart pid content) with pidCounter := n } := ⟨_, rfl⟩
  have hpcb : k₁.pcbs pid = pcbStart pid content := by
    rw [hk₁]
    exact Function.update_self ..
  have hother : ∀ q, q ≠ pid → k₁.pcbs q = k.pcbs q := fun q hq => by
    rw [hk₁]
    exact Function.update_of_ne hq ..
  have hpage : ∀ q i, q ≠ pid → k₁.page (q, i) = k.page (q, i) := fun q i hq => by
    unfold Kernel.page
    rw [hother q hq]
  have hlru : k₁.lruCache = k.lruCache := by rw [hk₁]; rfl
  have hmemory : k₁.shellmemory = k.shellmemory := by rw [hk₁]; rfl
  have hne : ∀ q i, (q, i) ∈ k.lruCache → q ≠ pid := fun q i hq heq =>
    hpid (heq ▸ (h.known q i hq).1)
  have hcases : ∀ q ∈ procs ++ [pid], q = pid ∨ (q ≠ pid ∧ q ∈ procs) := by
    intro q hq
    rw [List.mem_append, List.mem_singleton] at hq
    by_cases hqp : q = pid
    · exact .inl hqp
    · exact .inr ⟨hqp, hq.resolve_right hqp⟩
  rw [← hk₁]
  refine ⟨fun q hq => ?_, fun q hq => ?_, by rw [hlru]; exact h.nodup, fun q i hq => ?_,
    fun q i hq => ?_, fun p hp q hq heq => ?_, fun x hx hvar => ?_, fun q hq i hi j => ?_,
    fun q hq i hi hout => ?_, fun q hq i hi hout => ?_, fun p hp => ?_,
    by rw [hk₁]; exact h.stopped⟩
  · rcases hcases q hq with rfl | ⟨hqp, hq⟩
    · rw [Function.update_self]
      refine ⟨?_, fun i => ?_, ?_, ?_, fun i => ⟨?_, ?_⟩⟩
      · rw [hpcb]
        exact (Int.sub_zero _).symm
      · rw [hpcb]
        show 0 = min 3 (0 - 3 * i)
        omega
      · rw [hpcb]
        rfl
      · rw [hpcb]
        rfl
      · unfold Kernel.page
        rw [hpcb]
        rfl
      · unfold Kernel.page
        rw [hpcb]
        rfl
    · rw [Function.update_of_ne hqp]
      have hp := h.process q hq
      exact ⟨by rw [hother q hqp]; exact hp.size, by rw [hother q hqp]; exact hp.counter,
        by rw [hother q hqp]; exact hp.pages, by rw [hother q hqp]; exact hp.file,
        fun i => by rw [hpage q i hqp]; exact hp.page i⟩
  · rcases hcases q hq with rfl | ⟨hqp, hq⟩
    · rw [Function.update_self]
      exact ⟨hsupplied, Nat.zero_le _, Nat.zero_le _, Nat.zero_le _, .inl (Nat.zero_le _)⟩
    · rw [Function.update_of_ne hqp]
      exact h.ok q hq
  · rw [hlru] at hq
    obtain ⟨hmem, hlt⟩ := h.known q i hq
    rw [Function.update_of_ne (hne q i hq)]
    exact ⟨List.mem_append_left _ hmem, hlt⟩
  · rw [hlru] at hq
    obtain ⟨m, hm, hin⟩ := h.frames q i hq
    have hqp := hne q i hq
    rw [Function.update_of_ne hqp]
    exact ⟨m, hm, by rw [hpage q i hqp]; exact hin.index, by rw [hpage q i hqp]; exact hin.valid,
      by rw [hmemory]; exact hin.var, by rw [hmemory]; exact hin.value⟩
  · rw [hlru] at hp hq
    rw [hpage p.1 p.2 (hne _ _ hp), hpage q.1 q.2 (hne _ _ hq)] at heq
    exact h.apart p hp q hq heq
  · rw [hmemory] at hvar
    obtain ⟨p, hp, hle, hlt⟩ := h.used x hx hvar
    exact ⟨p, by rw [hlru]; exact hp, by rw [hpage p.1 p.2 (hne _ _ hp)]; exact hle,
      by rw [hpage p.1 p.2 (hne _ _ hp)]; exact hlt⟩
  · rcases hcases q hq with rfl | ⟨hqp, hq⟩
    · unfold Kernel.page
      rw [hpcb]
      rfl
    · rw [hlru] at hi
      rw [hpage q i hqp]
      exact h.absent q hq i hi j
  · rcases hcases q hq with rfl | ⟨hqp, hq⟩
    · rw [Function.update_self] at hi
      exact absurd hi (Nat.not_lt_zero _)
    · rw [hlru] at hout
      rw [Function.update_of_ne hqp] at hi ⊢
      exact h.gone q hq i hi hout
  · rcases hcases q hq with rfl | ⟨hqp, hq⟩
    · rw [Function.update_self] at hi
      exact absurd hi (Nat.not_lt_zero _)
    · rw [hlru] at hout
      rw [Function.update_of_ne hqp] at hi
      rw [hpage q i hqp]
      exact h.zero q hq i hi hout
  · rw [hlru] at hp
    have hloaded : pagesLoaded g procs ≤
        pagesLoaded (Function.update g pid ⟨delivered content, countLines content, 0, 0⟩)
          (procs ++ [pid]) := by
      unfold pagesLoaded
      rw [List.map_append, List.sum_append]
      refine Nat.le_trans (Nat.le_of_eq ?_) (Nat.le_add_right ..)
      congr 1
      exact List.map_congr_left fun q hq => by
        rw [Function.update_of_ne fun heq : q = pid => hpid (heq ▸ hq)]
    have hlow := h.low p hp
    rw [hpage p.1 p.2 (hne _ _ hp)]
    exact Nat.lt_of_lt_of_le hlow (Nat.mul_le_mul_left 3 hloaded)

/-- What `new_proc` adds to the list of used pages for a process with `m` pages in memory. -/
def pushPages (pid m : Nat) (cache : List (Nat × Nat)) : List (Nat × Nat) :=
  (List.range m).foldl (fun lru i => (pid, i) :: lru) cache

theorem pushPages_succ (m : Nat) (cache : List (Nat × Nat)) :
    pushPages pid (m + 1) cache = (pid, m) :: pushPages pid m cache := by
  unfold pushPages
  rw [List.range_succ, List.foldl_append, List.foldl_cons, List.foldl_nil]

theorem length_pushPages (m : Nat) (cache : List (Nat × Nat)) :
    (pushPages pid m cache).length = cache.length + m := by
  induction m with
  | zero => rfl
  | succ m ih => rw [pushPages_succ, List.length_cons, ih, Nat.add_assoc]

theorem mem_pushPages {m : Nat} {cache : List (Nat × Nat)} {p : Nat × Nat} :
    p ∈ pushPages pid m cache ↔ (∃ i, i < m ∧ p = (pid, i)) ∨ p ∈ cache := by
  induction m with
  | zero =>
      refine ⟨.inr, fun h => ?_⟩
      rcases h with ⟨i, hi, -⟩ | h
      · exact absurd hi (Nat.not_lt_zero i)
      · exact h
  | succ m ih =>
      rw [pushPages_succ, List.mem_cons, ih]
      constructor
      · rintro (rfl | ⟨i, hi, rfl⟩ | h)
        · exact .inl ⟨m, Nat.lt_succ_self m, rfl⟩
        · exact .inl ⟨i, Nat.lt_succ_of_lt hi, rfl⟩
        · exact .inr h
      · rintro (⟨i, hi, rfl⟩ | h)
        · by_cases heq : i = m
          · exact .inl (by rw [heq])
          · exact .inr (.inl ⟨i, by omega, rfl⟩)
        · exact .inr (.inr h)

/-- A page is loaded without a look at the list of used pages. -/
theorem loadPage_lruCache (i : Nat) (k : Kernel σ) (cache : List (Nat × Nat)) :
    loadPage c pid i { k with lruCache := cache } =
      ((loadPage c pid i k).1, { (loadPage c pid i k).2 with lruCache := cache }) := by
  unfold loadPage
  dsimp only
  cases frameAlloc c k.shellmemory (pidString pid) with
  | none => rfl
  | some r => rfl

/-- The first pages of a process are loaded. -/
theorem Paged.initPages {lines : List CString} {size : Nat}
    (h : Paged c procs (Function.update g pid ⟨lines, size, 0, 0⟩) k) (hpid : pid ∈ procs) (m : Nat)
    (hm : m ≤ min 2 (pageTableSize size))
    (hroom : 3 * (k.lruCache.length + m) ≤ c.FRAME_STORE_SIZE) :
    ∃ k', (List.range m).foldl (initPage c pid) k = k' ∧ k'.lruCache = k.lruCache ∧
      k'.queue = k.queue ∧ k'.allPcb = k.allPcb ∧ k'.executed = k.executed ∧
      k'.pidCounter = k.pidCounter ∧
      (∀ x, c.FRAME_STORE_SIZE ≤ x → k'.shellmemory x = k.shellmemory x) ∧
      Paged c procs (Function.update g pid ⟨lines, size, 0, m⟩)
        { k' with lruCache := pushPages pid m k.lruCache } := by
  induction m with
  | zero => exact ⟨k, rfl, rfl, rfl, rfl, rfl, rfl, fun _ _ => rfl, h⟩
  | succ m ih =>
      obtain ⟨k₁, hk₁, hlru₁, hqueue₁, hall₁, hexec₁, hcounter₁, hvars₁, h₁⟩ :=
        ih (by omega) (by omega)
      obtain ⟨k₂, hk₂⟩ : ∃ k₂ : Kernel σ, k₂ =
        { k₁ with lruCache := pushPages pid m k.lruCache } := ⟨_, rfl⟩
      rw [← hk₂] at h₁
      have hlen : k₂.lruCache.length = k.lruCache.length + m := by
        rw [hk₂]
        exact length_pushPages m k.lruCache
      have hself : Function.update g pid ⟨lines, size, 0, m⟩ pid = ⟨lines, size, 0, m⟩ :=
        Function.update_self ..
      cases halloc : frameAlloc c k₂.shellmemory (pidString pid) with
      | none =>
          have := h₁.frameAlloc_none halloc
          omega
      | some r =>
          obtain ⟨k₃, hload, hqueue, hlru, hall, hexec, hcounter, hvars, hpaged⟩ := h₁.load hpid halloc
            (by rw [hself]; show m < pageTableSize size; omega)
            (by rw [hself]; exact .inl (by show m + 1 ≤ 2; omega))
          rw [hself, Function.update_idem] at hpaged
          rw [hself] at hload
          -- The same page, loaded with the list as it was.
          have hback : k₁ = { k₂ with lruCache := k₁.lruCache } := by rw [hk₂]
          have hload₁ : loadPage c pid m k₁ = (0, { k₃ with lruCache := k₁.lruCache }) := by
            rw [hback, loadPage_lruCache, hload, ← hback]
          refine ⟨{ k₃ with lruCache := k₁.lruCache }, ?_, hlru₁, ?_, ?_, ?_, ?_, fun x hx => ?_, ?_⟩
          · rw [List.range_succ, List.foldl_append, List.foldl_cons, List.foldl_nil, hk₁,
              initPage_eq (by rw [hload₁]), hload₁]
          · rw [← hqueue₁]
            exact hqueue.trans (by rw [hk₂])
          · rw [← hall₁]
            exact hall.trans (by rw [hk₂])
          · rw [← hexec₁]
            exact hexec.trans (by rw [hk₂])
          · rw [← hcounter₁]
            exact hcounter.trans (by rw [hk₂])
          · rw [← hvars₁ x hx]
            exact (hvars x hx).trans (by rw [hk₂])
          · rw [pushPages_succ]
            have hcache : k₃.lruCache = pushPages pid m k.lruCache := hlru.trans (by rw [hk₂])
            rw [← hcache]
            exact hpaged

theorem Started.add (h : Started c procs ran g k) {content : CString}
    (hsupplied : Supplied content)
    (hroom : 3 * (k.lruCache.length + min 2 (pageTableSize (countLines content))) ≤
      c.FRAME_STORE_SIZE) :
    Started c (procs ++ [k.pidCounter]) ran
        (Function.update g k.pidCounter
          ⟨delivered content, countLines content, 0, min 2 (pageTableSize (countLines content))⟩)
        (newProc c content k) ∧
      (newProc c content k).pidCounter = k.pidCounter + 1 ∧
      (newProc c content k).lruCache.length =
        k.lruCache.length + min 2 (pageTableSize (countLines content)) ∧
      ∀ x, c.FRAME_STORE_SIZE ≤ x → (newProc c content k).shellmemory x = k.shellmemory x := by
  have hpid : k.pidCounter ∉ procs := fun hmem => Nat.lt_irrefl _ (h.below _ hmem)
  have hadd := h.paged.addPcb hpid hsupplied (k.pidCounter + 1)
  obtain ⟨k₁, hk₁⟩ : ∃ k₁ : Kernel σ, k₁ = { k.setPcb k.pidCounter
    (pcbStart k.pidCounter content) with pidCounter := k.pidCounter + 1 } := ⟨_, rfl⟩
  rw [← hk₁] at hadd
  have hlru₁ : k₁.lruCache = k.lruCache := by rw [hk₁]; rfl
  obtain ⟨m, hm⟩ : ∃ m, m = min 2 (pageTableSize (countLines content)) := ⟨_, rfl⟩
  rw [← hm] at hroom ⊢
  obtain ⟨k₂, hk₂, hlru₂, hqueue₂, hall₂, hexec₂, hcounter₂, hvars₂, hpaged⟩ :=
    hadd.initPages (List.mem_append_right _ (List.mem_singleton_self _)) m
      (Nat.le_of_eq hm) (by rw [hlru₁]; exact hroom)
  have hnew : newProc c content k = { k₂ with
      allPcb := k.allPcb ++ [k.pidCounter]
      queue := k.queue ++ [k.pidCounter]
      lruCache := pushPages k.pidCounter m k.lruCache } := by
    have hlimit : pageLimit (pcbStart k.pidCounter content) = m := hm.symm
    unfold newProc
    dsimp only
    rw [hlimit, ← hk₁, hk₂, hqueue₂, hall₂, hlru₂, hlru₁, hk₁]
    rfl
  have hsame : ∀ q ∈ procs,
      Function.update g k.pidCounter ⟨delivered content, countLines content, 0, m⟩ q = g q :=
    fun q hq => Function.update_of_ne (fun heq : q = k.pidCounter => hpid (heq ▸ hq)) ..
  have hpages : (Progress.mk (delivered content) (countLines content) 0 m).pages =
    pageTableSize (countLines content) := rfl
  rw [hlru₁] at hpaged
  rw [hnew]
  refine ⟨⟨?_, fun q => ?_, fun q hq => ?_, ?_, ?_, ?_, fun q hq => ?_, ?_, fun q hq i hi => ?_,
    fun q => ?_⟩, ?_, length_pushPages m k.lruCache, fun x hx => ?_⟩
  · exact hpaged.setLists (k.queue ++ [k.pidCounter]) (k.allPcb ++ [k.pidCounter])
  · by_cases hq : q = k.pidCounter
    · rw [hq, Function.update_self, hpages]
      exact ⟨rfl, hm⟩
    · rw [Function.update_of_ne hq]
      exact h.fresh q
  · rw [List.mem_append, List.mem_singleton, not_or] at hq
    rw [Function.update_of_ne hq.2]
    exact h.outside q hq.1
  · show k.queue ++ _ = _
    rw [h.queue]
  · show k.allPcb ++ _ = _
    rw [h.allPcb]
  · rw [List.nodup_append]
    exact ⟨h.nodup, List.nodup_singleton _, fun a ha b hb heq =>
      hpid (List.mem_singleton.1 hb ▸ heq ▸ ha)⟩
  · show q < k₂.pidCounter
    rw [hcounter₂, hk₁]
    show q < k.pidCounter + 1
    rw [List.mem_append, List.mem_singleton] at hq
    rcases hq with hq | rfl
    · exact Nat.lt_succ_of_lt (h.below q hq)
    · exact Nat.lt_succ_self _
  · show (pushPages _ _ _).length = _
    rw [length_pushPages, h.full, room_append, room_cons, room_nil, Function.update_self, hpages,
      hm, Nat.add_zero]
    congr 1
    unfold room
    congr 1
    refine List.map_congr_left fun q hq => ?_
    rw [← hm, hsame q hq]
  · refine mem_pushPages.2 ?_
    rw [List.mem_append, List.mem_singleton] at hq
    by_cases hqp : q = k.pidCounter
    · rw [hqp, Function.update_self] at hi
      exact .inl ⟨i, hi, by rw [hqp]⟩
    · rw [Function.update_of_ne hqp] at hi
      exact .inr (h.present q (hq.resolve_right hqp) i hi)
  · show linesOf q k₂.executed = _
    rw [hexec₂, hk₁]
    exact h.executed q
  · show k₂.pidCounter = _
    rw [hcounter₂, hk₁]
  · show k₂.shellmemory x = _
    rw [hvars₂ x hx, hk₁]
    rfl

theorem Started.start (hi : Idle c k) :
    Started c [] (fun q => linesOf q k.executed) (fun _ => ⟨[], 0, 0, 0⟩) k := by
  have hnone : ∀ p, p ∉ k.lruCache := fun p hp => by
    rw [hi.lruCache] at hp
    cases hp
  refine ⟨⟨nofun, nofun, ?_, fun q i hq => absurd hq (hnone _), fun q i hq => absurd hq (hnone _),
    fun p hp => absurd hp (hnone p), fun x hx hvar => absurd (hi.free x hx) hvar, nofun, nofun,
    nofun, fun p hp => absurd hp (hnone p), hi.stopped⟩, fun _ => ⟨rfl, rfl⟩,
    fun _ _ => ⟨rfl, rfl⟩, hi.queue, hi.allPcb, List.nodup_nil, nofun, ?_, nofun, fun _ => rfl⟩
  · rw [hi.lruCache]
    exact List.nodup_nil
  · rw [hi.lruCache]
    rfl

theorem Started.addAll (scripts : List CString) :
    ∀ {procs : List Nat} {g : Nat → Progress} {k : Kernel σ}, Started c procs ran g k →
      (∀ script ∈ scripts, Supplied script) →
      3 * (k.lruCache.length + firstPages scripts) ≤ c.FRAME_STORE_SIZE →
      ∃ g', Started c (procs ++ List.range' k.pidCounter scripts.length) ran g'
          (newProcs c scripts k) ∧
        (newProcs c scripts k).pidCounter = k.pidCounter + scripts.length ∧
        (newProcs c scripts k).lruCache.length = k.lruCache.length + firstPages scripts ∧
        (∀ x, c.FRAME_STORE_SIZE ≤ x →
          (newProcs c scripts k).shellmemory x = k.shellmemory x) ∧
        (∀ q, q < k.pidCounter → g' q = g q) ∧
        ∀ i, i < scripts.length →
          (g' (k.pidCounter + i)).lines = delivered (scripts.getD i []) ∧
            (g' (k.pidCounter + i)).size = countLines (scripts.getD i []) := by
  induction scripts with
  | nil =>
      intro procs g k h _ _
      refine ⟨g, ?_, rfl, rfl, fun _ _ => rfl, fun _ _ => rfl, nofun⟩
      rw [List.length_nil, List.range'_zero, List.append_nil]
      exact h
  | cons script scripts ih =>
      intro procs g k h hok hroom
      have hfirst : firstPages (script :: scripts) =
          min 2 (pageTableSize (countLines script)) + firstPages scripts := rfl
      obtain ⟨hadd, hcounter, hcache, hvars⟩ := h.add (hok script List.mem_cons_self) (by omega)
      obtain ⟨g', hg', hcounter', hcache', hvars', hbelow, hlines⟩ := ih hadd
        (fun s hs => hok s (List.mem_cons_of_mem _ hs)) (by rw [hcache]; omega)
      rw [hcounter] at hg' hcounter' hbelow hlines
      refine ⟨g', ?_, ?_, ?_, fun x hx => (hvars' x hx).trans (hvars x hx), fun q hq => ?_,
        fun i hi => ?_⟩
      · rw [List.append_assoc, List.singleton_append, ← List.range'_succ] at hg'
        exact hg'
      · refine hcounter'.trans ?_
        rw [List.length_cons]
        omega
      · refine hcache'.trans ?_
        rw [hcache, hfirst]
        omega
      · rw [hbelow q (by omega), Function.update_of_ne (by omega)]
      · cases i with
        | zero =>
            rw [Nat.add_zero, hbelow _ (Nat.lt_succ_self _), Function.update_self, List.getD_cons_zero]
            exact ⟨rfl, rfl⟩
        | succ i =>
            rw [List.getD_cons_succ, show k.pidCounter + (i + 1) = k.pidCounter + 1 + i by omega]
            exact hlines i (by simpa using hi)

/-- What holds when `exec` has added its processes: the `i`th script is that of the `i`th process,
and the other processes have none. -/
theorem Idle.rounds (hi : Idle c k) {scripts : List CString}
    (hok : ∀ script ∈ scripts, Supplied script)
    (hroom : 3 * firstPages scripts ≤ c.FRAME_STORE_SIZE) :
    ∃ g, Rounds c (List.range' k.pidCounter scripts.length) (fun q => linesOf q k.executed) g
        (newProcs c scripts k) ∧
      (newProcs c scripts k).pidCounter = k.pidCounter + scripts.length ∧
      (∀ x, c.FRAME_STORE_SIZE ≤ x → (newProcs c scripts k).shellmemory x = k.shellmemory x) ∧
      (∀ q, (g q).lines = scriptOf k.pidCounter scripts q) ∧
      ∀ i, i < scripts.length → (g (k.pidCounter + i)).size = countLines (scripts.getD i []) := by
  have hnil : k.lruCache.length = 0 := by rw [hi.lruCache, List.length_nil]
  obtain ⟨g, hg, hcounter, hcache, hvars, hbelow, hlines⟩ :=
    (Started.start hi).addAll scripts hok (by rw [hnil, Nat.zero_add]; exact hroom)
  rw [List.nil_append] at hg
  refine ⟨g, hg.rounds ?_, hcounter, hvars, fun q => ?_, fun i hlt => (hlines i hlt).2⟩
  · rw [← hg.full, hcache, hnil, Nat.zero_add]
    exact hroom
  · unfold scriptOf
    split
    · next hlt => rw [hbelow q hlt]
    · next hge =>
        rcases Nat.lt_or_ge (q - k.pidCounter) scripts.length with hlt | hout
        · rw [← (hlines _ hlt).1, Nat.add_sub_cancel' (Nat.le_of_not_lt hge)]
        · rw [List.getD_eq_getElem?_getD, List.getElem?_eq_none hout, (hg.outside q fun hmem => ?_).1]
          · rfl
          · rw [List.mem_range'_1] at hmem
            omega

/-! ## Process ids -/

/-- No command of the scripts makes a process. -/
theorem Rounds.counter {kind : CString → Prop} (h : Rounds c procs ran g k)
    (ho : LeavesKernel kind c parseInput) (hkind : ∀ q, ∀ l ∈ (g q).lines, kind l)
    (hret : RunReturns parseInput c k) (hcounter : KeepsCounter kind parseInput)
    (hturns : Relation.ReflTransGen (Turn parseInput c) k k') : k'.pidCounter = k.pidCounter := by
  induction hturns with
  | refl => rfl
  | tail hturns hturn ih =>
      obtain ⟨g₁, hlines₁, h₁⟩ := h.steps ho hkind hret hturns
      cases hturn with
      | @head pid queue hstopped hdone hqueue =>
          obtain ⟨p', -, -, -, -, hsame⟩ := h₁.turn ho
            (fun q l hl => hkind q l ((hlines₁ q).1 ▸ hl)) (hret _ hturns) hdone hqueue
          rw [hsame hcounter, ih]

/-- A line of one of these scripts. -/
def LineOf (scripts : List CString) (line : CString) : Prop :=
  ∃ script ∈ scripts, line ∈ delivered script

theorem lineOf_scriptOf {scripts : List CString} {first : Nat}
    (hlines : ∀ q, (g q).lines = scriptOf first scripts q) (q : Nat) :
    ∀ l ∈ (g q).lines, LineOf scripts l := by
  intro l hl
  rw [hlines, scriptOf] at hl
  split at hl
  · cases hl
  · rcases Nat.lt_or_ge (q - first) scripts.length with hlt | hge
    · rw [List.getD_eq_getElem?_getD, List.getElem?_eq_getElem hlt, Option.getD_some] at hl
      exact ⟨_, List.getElem_mem hlt, hl⟩
    · rw [List.getD_eq_getElem?_getD, List.getElem?_eq_none hge, Option.getD_none] at hl
      cases hl

/-- Every line of a well counted script is counted. -/
theorem wellCounted_size {scripts : List CString} {first q : Nat}
    (hok : ∀ script ∈ scripts, WellCounted script)
    (hlines : ∀ q, (g q).lines = scriptOf first scripts q)
    (hsizes : ∀ i, i < scripts.length → (g (first + i)).size = countLines (scripts.getD i []))
    (hq : q ∈ List.range' first scripts.length) : (g q).size = (g q).lines.length := by
  rw [List.mem_range'_1] at hq
  have hlt : q - first < scripts.length := by omega
  have hsize := hsizes (q - first) hlt
  rw [Nat.add_sub_cancel' hq.1] at hsize
  have hmem : scripts.getD (q - first) [] ∈ scripts := by
    rw [List.getD_eq_getElem?_getD, List.getElem?_eq_getElem hlt]
    exact List.getElem_mem hlt
  rw [hsize, hlines, scriptOf, if_neg (by omega)]
  exact (hok _ hmem).size

/-! ## exec -/

/-- `exec` ends with every script run from its first line to its last, and with no process and
every frame free again. -/
theorem Idle.exec {scripts : List CString} (hi : Idle c k)
    (ho : Ordinary (LineOf scripts) c parseInput) (hcounter : KeepsCounter (LineOf scripts) parseInput)
    (hlen : scripts.length ≤ 3)
    (hok : ∀ script ∈ scripts, WellCounted script)
    (hroom : 3 * firstPages scripts ≤ c.FRAME_STORE_SIZE) :
    ∃ fuel k', exec parseInput c fuel scripts k = some (0, k') ∧ Idle c k' ∧
      k'.pidCounter = k.pidCounter + scripts.length ∧
      ∀ q, linesOf q k'.executed = linesOf q k.executed ++ scriptOf k.pidCounter scripts q := by
  obtain ⟨g, hg, hpid, -, hlines, hsizes⟩ :=
    hi.rounds (fun script hs => (hok script hs).supplied) hroom
  have hkind := lineOf_scriptOf hlines
  have hret := hg.runReturns ho hkind
  obtain ⟨fuel, k₁, hturns, hdone, hrun⟩ := hg.run ho.leavesKernel _ hkind hret (Nat.le_refl _)
  obtain ⟨g₁, hlines₁, h₁⟩ := hg.steps ho.leavesKernel hkind hret hturns
  refine ⟨fuel, rrEnd k₁, ?_, h₁.idle, ?_, fun q => ?_⟩
  · unfold A3.exec
    rw [if_neg (by omega), hrun]
    rfl
  · show k₁.pidCounter = _
    rw [hg.counter ho.leavesKernel hkind hret hcounter hturns, hpid]
  · refine (h₁.traced q).trans ?_
    congr 1
    have hq : (g₁ q).lines.take (g₁ q).done = (g₁ q).lines := by
      by_cases hmem : q ∈ List.range' k.pidCounter scripts.length
      · have hwhole := wellCounted_size hok hlines hsizes hmem
        rw [h₁.finished hdone hmem, (hlines₁ q).2, hwhole, ← (hlines₁ q).1, List.take_length]
      · rw [List.mem_range'_1] at hmem
        have hnil : (g₁ q).lines = [] := by
          rw [(hlines₁ q).1, hlines, scriptOf]
          split
          · rfl
          · rw [List.getD_eq_getElem?_getD, List.getElem?_eq_none (by omega)]
            rfl
        rw [hnil, List.take_nil]
    rw [hq, (hlines₁ q).1, hlines]

theorem runProcRR_stopped {fuel : Nat} (hstopped : k.stopped = true) :
    runProcRR parseInput c fuel k = some k := by
  rw [runProcRR.eq_def]
  simp only [hstopped, if_true]

theorem runProcRR_mono {fuel fuel' : Nat} (hle : fuel ≤ fuel')
    (h : runProcRR parseInput c fuel k = some k') : runProcRR parseInput c fuel' k = some k' := by
  induction fuel generalizing fuel' k with
  | zero =>
      cases hstopped : k.stopped with
      | true => rwa [runProcRR_stopped hstopped] at h ⊢
      | false =>
          cases hdone : queueDone k with
          | true => rwa [runProcRR_done hstopped hdone] at h ⊢
          | false =>
              rw [runProcRR.eq_def] at h
              simp [hstopped, hdone] at h
  | succ fuel ih =>
      obtain ⟨fuel', rfl⟩ : ∃ n, fuel' = n + 1 := ⟨fuel' - 1, by omega⟩
      cases hstopped : k.stopped with
      | true => rwa [runProcRR_stopped hstopped] at h ⊢
      | false =>
          cases hdone : queueDone k with
          | true => rwa [runProcRR_done hstopped hdone] at h ⊢
          | false =>
              cases hqueue : k.queue with
              | nil =>
                  unfold queueDone at hdone
                  rw [hqueue] at hdone
                  cases hdone
              | cons pid queue =>
                  rw [runProcRR_head hstopped hdone hqueue] at h ⊢
                  exact ih (by omega) h

theorem exec_mono {fuel fuel' : Nat} {scripts : List CString} {r : Int × Kernel σ}
    (hle : fuel ≤ fuel') (h : exec parseInput c fuel scripts k = some r) :
    exec parseInput c fuel' scripts k = some r := by
  unfold exec at h ⊢
  split
  · next hmany => rwa [if_pos hmany] at h
  · next hfew =>
      rw [if_neg hfew, Option.map_eq_some_iff] at h
      obtain ⟨k', hrun, heq⟩ := h
      rw [runProcRR_mono hle hrun, Option.map_some, heq]

theorem execs_mono {fuel fuel' : Nat} (hle : fuel ≤ fuel') (batches : List (List CString)) :
    ∀ {k : Kernel σ}, execs parseInput c fuel batches k = some k' →
      execs parseInput c fuel' batches k = some k' := by
  induction batches with
  | nil => exact fun h => h
  | cons scripts batches ih =>
      intro k h
      rw [execs, Option.bind_eq_some_iff] at h
      obtain ⟨r, hr, hrest⟩ := h
      rw [execs, exec_mono hle hr, Option.bind_some]
      exact ih hrest

theorem scriptOf_append (first : Nat) (scripts more : List CString) (q : Nat) :
    scriptOf first (scripts ++ more) q =
      scriptOf first scripts q ++ scriptOf (first + scripts.length) more q := by
  unfold scriptOf
  by_cases hlt : q < first
  · rw [if_pos hlt, if_pos hlt, if_pos (by omega), List.append_nil]
  · rw [if_neg hlt, if_neg hlt, List.getD_eq_getElem?_getD, List.getD_eq_getElem?_getD,
      List.getD_eq_getElem?_getD]
    by_cases hin : q < first + scripts.length
    · rw [if_pos hin, List.append_nil, List.getElem?_append_left (by omega)]
    · rw [if_neg hin, List.getElem?_append_right (by omega), Nat.sub_sub,
        List.getElem?_eq_none (show scripts.length ≤ q - first by omega)]
      rfl

/-- However many times `exec` is used, each process runs the lines of its script, all of them, once
and in order, whatever pages were loaded and thrown out meanwhile. -/
theorem execs_run (hi : Idle c k) (batches : List (List CString))
    (ho : Ordinary (LineOf (accepted batches)) c parseInput)
    (hcounter : KeepsCounter (LineOf (accepted batches)) parseInput)
    (hok : ∀ scripts ∈ batches, scripts.length ≤ 3 →
      (∀ script ∈ scripts, WellCounted script) ∧ 3 * firstPages scripts ≤ c.FRAME_STORE_SIZE) :
    ∃ fuel k', execs parseInput c fuel batches k = some k' ∧ Idle c k' ∧
      k'.pidCounter = k.pidCounter + (accepted batches).length ∧
      ∀ q, linesOf q k'.executed =
        linesOf q k.executed ++ scriptOf k.pidCounter (accepted batches) q := by
  induction batches generalizing k with
  | nil =>
      refine ⟨0, k, rfl, hi, rfl, fun q => ?_⟩
      unfold scriptOf
      split
      · rw [List.append_nil]
      · exact (List.append_nil _).symm
  | cons scripts batches ih =>
      have hrest := fun k (hk : Idle c k) hlater hcount => @ih k hk hlater hcount fun s hs =>
        hok s (List.mem_cons_of_mem _ hs)
      by_cases hlen : scripts.length ≤ 3
      · have haccepted : accepted (scripts :: batches) = scripts ++ accepted batches := by
          unfold accepted
          rw [List.filter_cons_of_pos (by simpa using hlen), List.flatten_cons]
        rw [haccepted] at ho hcounter
        obtain ⟨hgood, hroom⟩ := hok scripts List.mem_cons_self hlen
        obtain ⟨n, k₁, hexec, hi₁, hpid₁, htrace₁⟩ := hi.exec
          (ho.mono fun _ ⟨script, hs, hl⟩ => ⟨script, List.mem_append_left _ hs, hl⟩)
          (fun line ⟨script, hs, hl⟩ => hcounter line ⟨script, List.mem_append_left _ hs, hl⟩)
          hlen hgood hroom
        obtain ⟨m, k₂, hexecs, hi₂, hpid₂, htrace₂⟩ := hrest k₁ hi₁
          (ho.mono fun _ ⟨script, hs, hl⟩ => ⟨script, List.mem_append_right _ hs, hl⟩)
          fun line ⟨script, hs, hl⟩ => hcounter line ⟨script, List.mem_append_right _ hs, hl⟩
        refine ⟨max n m, k₂, ?_, hi₂, ?_, fun q => ?_⟩
        · rw [execs, exec_mono (Nat.le_max_left n m) hexec, Option.bind_some]
          exact execs_mono (Nat.le_max_right n m) batches hexecs
        · rw [hpid₂, hpid₁, haccepted, List.length_append, Nat.add_assoc]
        · rw [htrace₂, htrace₁, hpid₁, haccepted, scriptOf_append, List.append_assoc]
      · have haccepted : accepted (scripts :: batches) = accepted batches := by
          unfold accepted
          rw [List.filter_cons_of_neg (by simpa using hlen)]
        obtain ⟨m, k₂, hexecs, hrest₂⟩ := hrest k hi (haccepted ▸ ho) (haccepted ▸ hcounter)
        refine ⟨m, k₂, ?_, by rw [haccepted]; exact hrest₂⟩
        rw [execs]
        unfold exec
        rw [if_pos (by omega), Option.bind_some]
        exact hexecs

/-- The state that `kernel_setup` and `mem_init` leave. -/
def kernelStart (rest : σ) : Kernel σ where
  shellmemory := fun _ => ⟨noneText, noneText⟩
  pcbs := fun pid => pcbStart pid []
  queue := []
  lruCache := []
  allPcb := []
  pidCounter := 1
  executed := []
  stopped := false
  rest := rest

theorem idle_kernelStart (rest : σ) : Idle c (kernelStart rest) := ⟨rfl, rfl, rfl, rfl, fun _ _ => rfl⟩

def eightCommands : CString :=
  "set x 1\nprint x\nls\ncreate f 9\nwrite f abc\ncat f;size f\nquit\nhelp".toList

theorem wellCounted_commands : WellCounted eightCommands := ⟨by decide, by decide⟩

theorem calm_commands : ∀ line ∈ delivered eightCommands,
    CalmLine line ∧ (segments line).length < 3 := by decide

/-- Two scripts of three pages each in frames for four pages, and four scripts at once. -/
theorem execs_run_eight : ∃ s, SimpleShell.Fs.Reachable s ∧ ∀ u host, ∃ fuel k',
    execs (A3.parseInput ⟨12, 10⟩ u 3) ⟨12, 10⟩ fuel
        [[eightCommands, eightCommands], [[], [], [], []]] (kernelStart ⟨⟨s, host, 1⟩, []⟩) =
      some k' ∧ Idle ⟨12, 10⟩ k' ∧ k'.pidCounter = 1 + 2 ∧
    ∀ q, linesOf q k'.executed = [] ++ scriptOf 1 [eightCommands, eightCommands] q := by
  obtain ⟨s, -, hreach, -⟩ := SimpleShell.Fs.oneByte_file
  have hcalm : ∀ line, LineOf (accepted [[eightCommands, eightCommands], [[], [], [], []]]) line →
      CalmLine line ∧ (segments line).length < 3 := by
    rintro line ⟨script, hscript, hline⟩
    have haccepted : accepted [[eightCommands, eightCommands], [[], [], [], []]] =
      [eightCommands, eightCommands] := rfl
    rw [haccepted, List.mem_pair, or_self] at hscript
    rw [hscript] at hline
    exact calm_commands line hline
  refine ⟨s, hreach, fun u host => execs_run (idle_kernelStart _) _ (parseInput_ordinary hcalm)
    (parseInput_keepsCounter hcalm) fun scripts hs hlen => ?_⟩
  rw [List.mem_pair] at hs
  rcases hs with rfl | rfl
  · refine ⟨fun script hscript => ?_, by decide⟩
    rw [List.mem_pair, or_self] at hscript
    rw [hscript]
    exact wellCounted_commands
  · exact absurd hlen (by decide)

/-- Commands that do nothing. -/
def doNothing (_ : CString) (k : Kernel Unit) : Int × Kernel Unit := (0, k)

theorem ordinary_doNothing : Ordinary kind c doNothing :=
  ⟨fun _ _ _ => show (0 : Int) ≠ 1 by decide, fun _ _ _ => rfl, fun _ _ _ => rfl, fun _ _ _ => rfl,
    fun _ _ _ => rfl, fun _ _ _ => rfl, fun _ _ _ => rfl, fun _ _ _ _ _ => rfl⟩

def eightLines : CString := "a\nb\nc\nd\ne\nf\ng\nh".toList

theorem wellCounted_eight : WellCounted eightLines := ⟨by decide, by decide⟩

/-! ## While it runs -/

/-- No line of a process is lost: it has run the first lines of its script, and of the others each
is in a frame of its page, or in a page that is next in the file. -/
structure LinesKept (ran : List CString) (k : Kernel σ) (pid : Nat) (lines : List CString) :
    Prop where
  run : linesOf pid k.executed = ran ++ lines.take (lines.length - (k.pcbs pid).size.toNat)
  size : 0 ≤ (k.pcbs pid).size ∧ (k.pcbs pid).size ≤ lines.length
  rest : ∃ m, delivered (k.pcbs pid).sourceFile = lines.drop (3 * m) ∧
    ∀ i < m, ∀ j < 3, 3 * i + j < lines.length → (k.pcbs pid).programCounter i ≤ j →
      (k.page (pid, i)).validBit j = true ∧
        memGetValueAt k.shellmemory ((k.page (pid, i)).index j) = lines.getD (3 * i + j) []

/-- The frames belong to the pages in memory, three neighbouring ones to each, and these are the
pages that are in the list of used pages, each once. -/
structure FramesConsistent (c : Sizes) (procs : List Nat) (k : Kernel σ) : Prop where
  nodup : k.lruCache.Nodup
  resident : ∀ pid ∈ procs, ∀ i, (pid, i) ∈ k.lruCache ↔
    ∃ j < 3, (k.page (pid, i)).validBit j = true
  slot : ∀ p ∈ k.lruCache, p.1 ∈ procs ∧ ∃ m, 3 * m + 3 ≤ c.FRAME_STORE_SIZE ∧
    ∀ j < 3, (k.page p).index j = 3 * m + j ∧ (k.shellmemory (3 * m + j)).var = pidString p.1
  apart : ∀ p ∈ k.lruCache, ∀ q ∈ k.lruCache, (k.page p).index 0 = (k.page q).index 0 → p = q
  used : ∀ x, x < c.FRAME_STORE_SIZE → (k.shellmemory x).var ≠ noneText →
    ∃ p ∈ k.lruCache, (k.page p).index 0 ≤ x ∧ x < (k.page p).index 0 + 3

theorem Rounds.linesKept (h : Rounds c procs ran g k) (hpid : pid ∈ procs)
    (hwhole : (g pid).size = (g pid).lines.length) :
    LinesKept (ran pid) k pid (g pid).lines := by
  have hp := h.paged.process pid hpid
  have hle := (h.paged.ok pid hpid).le
  have hsize := hp.size
  refine ⟨?_, by omega, (g pid).loaded, hp.file, fun i hi j hj hlt hcounter => ?_⟩
  · rw [h.traced pid, hsize]
    congr 2
    omega
  · rw [hp.counter] at hcounter
    -- The line was not run, so that its page is still there.
    have hmem : (pid, i) ∈ k.lruCache := by
      by_contra hout
      have hcomplete := h.paged.gone pid hpid i hi hout
      unfold Progress.Complete at hcomplete
      omega
    obtain ⟨m, -, hin⟩ := h.paged.frames pid i hmem
    refine ⟨?_, ?_⟩
    · rw [hin.valid j hj, decide_eq_true hlt]
    · rw [hin.index]
      exact hin.value j hj hlt

theorem Rounds.framesConsistent (h : Rounds c procs ran g k) : FramesConsistent c procs k := by
  refine ⟨h.paged.nodup, fun pid hpid i => h.paged.resident_iff hpid, fun p hp => ?_, h.paged.apart,
    h.paged.used⟩
  obtain ⟨m, hm, hin⟩ := h.paged.frames p.1 p.2 hp
  exact ⟨(h.paged.known p.1 p.2 hp).1, m, hm, fun j hj => ⟨hin.index j, hin.var j hj⟩⟩

/-- Between any two turns, each process has run the first lines of its script, and no other line is
lost. -/
theorem turns_linesKept {scripts : List CString} (hi : Idle c k)
    (ho : Ordinary (LineOf scripts) c parseInput) (hok : ∀ script ∈ scripts, WellCounted script)
    (hroom : 3 * firstPages scripts ≤ c.FRAME_STORE_SIZE)
    (hturns : Relation.ReflTransGen (Turn parseInput c) (newProcs c scripts k) k') (i : Nat)
    (hlt : i < scripts.length) :
    LinesKept (linesOf (k.pidCounter + i) k.executed) k' (k.pidCounter + i)
      (delivered (scripts.getD i [])) := by
  obtain ⟨g, hg, -, -, hlines, hsizes⟩ :=
    hi.rounds (fun script hs => (hok script hs).supplied) hroom
  have hkind := lineOf_scriptOf hlines
  obtain ⟨g', hlines', h'⟩ := hg.steps ho.leavesKernel hkind (hg.runReturns ho hkind) hturns
  have hmem : k.pidCounter + i ∈ List.range' k.pidCounter scripts.length :=
    List.mem_range'_1.2 ⟨Nat.le_add_right k.pidCounter i, Nat.add_lt_add_left hlt _⟩
  have hkept := h'.linesKept hmem (by
    rw [(hlines' _).1, (hlines' _).2]
    exact wellCounted_size hok hlines hsizes hmem)
  rwa [(hlines' _).1, hlines, scriptOf, if_neg (Nat.not_lt.2 (Nat.le_add_right ..)),
    Nat.add_sub_cancel_left] at hkept

/-- The kernel after some turns. -/
def afterTurns (parseInput : CString → Kernel σ → Int × Kernel σ) (c : Sizes) :
    Nat → Kernel σ → Kernel σ
  | 0, k => k
  | n + 1, k =>
      match k.queue with
      | [] => k
      | pid :: queue => afterTurns parseInput c n (rrTurn parseInput c pid { k with queue := queue })

theorem turns_afterTurns {n : Nat}
    (h : ∀ i < n, (afterTurns parseInput c i k).stopped = false ∧
      queueDone (afterTurns parseInput c i k) = false) :
    Relation.ReflTransGen (Turn parseInput c) k (afterTurns parseInput c n k) := by
  induction n generalizing k with
  | zero => exact .refl
  | succ n ih =>
      obtain ⟨hstopped, hdone⟩ := h 0 (Nat.succ_pos n)
      cases hqueue : k.queue with
      | nil =>
          rw [afterTurns, hqueue]
      | cons pid queue =>
          rw [afterTurns, hqueue]
          refine .head (.head hstopped hdone hqueue) (ih fun i hi => ?_)
          have hnext := h (i + 1) (by omega)
          rw [afterTurns, hqueue] at hnext
          exact hnext

/-- Two scripts of three pages each in frames for four, after seven turns: page 2 of process 1 is
where its page 0 was. -/
def afterSeven : Kernel Unit :=
  afterTurns doNothing ⟨12, 10⟩ 7 (newProcs ⟨12, 10⟩ [eightLines, eightLines] (kernelStart ()))

theorem turns_afterSeven : Relation.ReflTransGen (Turn doNothing ⟨12, 10⟩)
    (newProcs ⟨12, 10⟩ [eightLines, eightLines] (kernelStart ())) afterSeven :=
  turns_afterTurns (by decide +kernel)

theorem turns_linesKept_seven :
    (afterSeven.page (1, 0)).validBit 0 = false ∧ (afterSeven.page (1, 2)).validBit 0 = true ∧
      LinesKept (linesOf 1 []) afterSeven 1 (delivered eightLines) :=
  ⟨by decide +kernel, by decide +kernel,
    turns_linesKept (idle_kernelStart ()) ordinary_doNothing
      (fun script hscript => by
        simp only [List.mem_cons, List.not_mem_nil, or_false, or_self] at hscript
        exact hscript ▸ wellCounted_eight)
      (by decide) turns_afterSeven 0 (by decide)⟩

/-- Between any two turns, the frames, the page tables and the list of used pages agree. -/
theorem turns_framesConsistent {scripts : List CString} (hi : Idle c k)
    (ho : Ordinary (LineOf scripts) c parseInput) (hok : ∀ script ∈ scripts, WellCounted script)
    (hroom : 3 * firstPages scripts ≤ c.FRAME_STORE_SIZE)
    (hturns : Relation.ReflTransGen (Turn parseInput c) (newProcs c scripts k) k') :
    FramesConsistent c (List.range' k.pidCounter scripts.length) k' := by
  obtain ⟨g, hg, -, -, hlines, -⟩ :=
    hi.rounds (fun script hs => (hok script hs).supplied) hroom
  have hkind := lineOf_scriptOf hlines
  obtain ⟨g', -, h'⟩ := hg.steps ho.leavesKernel hkind (hg.runReturns ho hkind) hturns
  exact h'.framesConsistent

theorem turns_framesConsistent_seven :
    afterSeven.lruCache = [(1, 2), (2, 1), (1, 1), (2, 0)] ∧
      FramesConsistent ⟨12, 10⟩ [1, 2] afterSeven :=
  ⟨by decide +kernel, turns_framesConsistent (idle_kernelStart ())
    ordinary_doNothing (fun script hscript => by
      simp only [List.mem_cons, List.not_mem_nil, or_false, or_self] at hscript
      exact hscript ▸ wellCounted_eight)
    (by decide) turns_afterSeven⟩

end Run

end SimpleShell.A3
