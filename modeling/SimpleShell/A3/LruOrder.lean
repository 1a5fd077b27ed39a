import SimpleShell.A3.DemandPaging

/-!
# The frames and the list of used pages

Between any two calls of `run_proc` the list of used pages holds the pages in memory, in the
order in which they were last loaded or run, each with three frames of its own. The page that
is evicted is therefore the one used longest ago.
-/

namespace SimpleShell.A3

open SimpleShell.Shell SimpleShell.Lib
open SimpleShell.A2 (pidString)

variable {σ : Type}

/-- The pages that calls of `run_proc` in these states load or run, the last one first. -/
def pagesUsed (pid : Nat) (states : List (Kernel σ)) : List (Nat × Nat) :=
  (states.map fun s => (pid, nextPage (s.pcbs pid))).reverse

/-- The pages that `PCB_init` loads, the last one first. -/
def pagesAtStart (first : Nat) : List CString → List (Nat × Nat)
  | [] => []
  | text :: texts => pagesAtStart (first + 1) texts ++
      ((List.range (min 2 (pageTableSize (countLines text)))).map fun i => (first, i)).reverse

/-- The states between the turns of a run, with the pages that were used until then. -/
inductive Reached (parseInput : CString → Kernel σ → Int × Kernel σ) (c : Sizes)
    (uses₀ : List (Nat × Nat)) (k₀ : Kernel σ) : List (Nat × Nat) → Kernel σ → Prop
  | start : Reached parseInput c uses₀ k₀ uses₀ k₀
  | turn {uses : List (Nat × Nat)} {k : Kernel σ} {pid : Nat} {queue : List Nat}
      (hreached : Reached parseInput c uses₀ k₀ uses k) (hstopped : k.stopped = false)
      (hdone : queueDone k = false) (hqueue : k.queue = pid :: queue) :
      Reached parseInput c uses₀ k₀
        (pagesUsed pid (callStates parseInput c pid { k with queue := queue }) ++ uses)
        (rrTurn parseInput c pid { k with queue := queue })

/-- `run_proc` is called in state `s`, for process `pid`, after these pages were used. -/
def CalledAfter (parseInput : CString → Kernel σ → Int × Kernel σ) (c : Sizes)
    (uses₀ : List (Nat × Nat)) (k₀ : Kernel σ) (uses : List (Nat × Nat)) (pid : Nat)
    (s : Kernel σ) : Prop :=
  ∃ before k queue n, Reached parseInput c uses₀ k₀ before k ∧ k.stopped = false ∧
    queueDone k = false ∧ k.queue = pid :: queue ∧
    (callStates parseInput c pid { k with queue := queue })[n]? = some s ∧
    uses = pagesUsed pid ((callStates parseInput c pid { k with queue := queue }).take n) ++ before

/-- Of a state after which these pages were used: frames, page tables and list agree. -/
structure LruConsistent (c : Sizes) (procs : List Nat) (uses : List (Nat × Nat)) (k : Kernel σ) :
    Prop where
  nodup : k.lruCache.Nodup
  resident : ∀ p, p ∈ k.lruCache ↔
    p.1 ∈ procs ∧ p.2 < (k.pcbs p.1).pageTableSize ∧ ∃ j < 3, (k.page p).validBit j = true
  triple : ∀ p ∈ k.lruCache, ∀ j < 3, (k.page p).index j = (k.page p).index 0 + j ∧
    (k.page p).index j < FRAME_VAR_BORDER c
  disjoint : ∀ p ∈ k.lruCache, ∀ q ∈ k.lruCache, p ≠ q →
    ∀ i < 3, ∀ j < 3, (k.page p).index i ≠ (k.page q).index j
  occupied : ∀ x < FRAME_VAR_BORDER c, (k.shellmemory x).var ≠ noneText ↔
    ∃ p ∈ k.lruCache, ∃ j < 3, (k.page p).index j = x
  carries : ∀ p ∈ k.lruCache, (k.page p).pagePid = p.1 ∧
    ∀ j < 3, (k.shellmemory ((k.page p).index j)).var = pidString (k.page p).pagePid
  order : MoveToFront.InOrder uses k.lruCache

section Order

variable {c : Sizes} {procs queue : List Nat} {ran : Nat → List CString} {g g₁ : Nat → Progress}
  {k k' s : Kernel σ} {pid t : Nat} {v : Nat × Nat} {uses uses₀ : List (Nat × Nat)}
  {parseInput : CString → Kernel σ → Int × Kernel σ} {kind : CString → Prop}

theorem Paged.lruConsistent (h : Paged c procs g k) (horder : MoveToFront.InOrder uses k.lruCache) :
    LruConsistent c procs uses k := by
  have hslot : ∀ p ∈ k.lruCache, p.1 ∈ procs ∧ ∃ m, 3 * m + 3 ≤ c.FRAME_STORE_SIZE ∧
      (∀ j, (k.page p).index j = 3 * m + j) ∧
      ∀ j < 3, (k.shellmemory (3 * m + j)).var = pidString p.1 := fun p hp =>
    let ⟨m, hm, hin⟩ := h.frames p.1 p.2 hp
    ⟨(h.known p.1 p.2 hp).1, m, hm, hin.index, hin.var⟩
  refine ⟨h.nodup, fun p => ⟨fun hp => ?_, fun ⟨hpid, _, hvalid⟩ => (h.resident_iff hpid).2 hvalid⟩,
    fun p hp j hj => ?_, fun p hp q hq hne i hi j hj heq => ?_, fun x hx => ⟨fun hused => ?_, ?_⟩,
    fun p hp => ?_, horder⟩
  · obtain ⟨hpid, hlt⟩ := h.known p.1 p.2 hp
    refine ⟨hpid, ?_, (h.resident_iff hpid).1 hp⟩
    rw [(h.process p.1 hpid).pages]
    exact Nat.lt_of_lt_of_le hlt (h.ok p.1 hpid).bound
  · obtain ⟨-, m, hm, hindex, -⟩ := hslot p hp
    rw [hindex j, hindex 0, FRAME_VAR_BORDER_eq]
    omega
  · obtain ⟨-, m, -, hindex, -⟩ := hslot p hp
    obtain ⟨-, n, -, hindex', -⟩ := hslot q hq
    rw [hindex, hindex'] at heq
    refine hne (h.apart p hp q hq ?_)
    rw [hindex, hindex']
    omega
  · obtain ⟨p, hp, hle, hlt⟩ := h.used x hx hused
    obtain ⟨-, m, -, hindex, -⟩ := hslot p hp
    rw [hindex] at hle hlt
    refine ⟨p, hp, x - 3 * m, by omega, ?_⟩
    rw [hindex]
    omega
  · rintro ⟨p, hp, j, hj, rfl⟩
    obtain ⟨-, m, -, hindex, hvar⟩ := hslot p hp
    rw [hindex, hvar j hj]
    exact A2.pidString_ne p.1
  · obtain ⟨hpid, m, -, hindex, hvar⟩ := hslot p hp
    obtain ⟨hpagePid, -⟩ := (h.process p.1 hpid).page p.2
    refine ⟨hpagePid, fun j hj => ?_⟩
    rw [hindex, hvar j hj]
    exact congrArg pidString hpagePid.symm

/-- Without processes there is nothing to agree on. -/
theorem Idle.empty (hi : Idle c k) (uses : List (Nat × Nat)) : LruConsistent c [] uses k := by
  have hnone : ∀ p, p ∉ k.lruCache := fun p hp => by
    rw [hi.lruCache] at hp
    cases hp
  refine ⟨?_, fun p => ⟨fun hp => absurd hp (hnone p), fun hp => absurd hp.1 List.not_mem_nil⟩,
    fun p hp => absurd hp (hnone p), fun p hp => absurd hp (hnone p),
    fun x hx => ⟨fun hused => absurd (hi.free x hx) hused, fun ⟨p, hp, _⟩ => absurd hp (hnone p)⟩,
    fun p hp => absurd hp (hnone p), ⟨fun p hp => absurd hp (hnone p), ?_⟩⟩
  · rw [hi.lruCache]
    exact List.nodup_nil
  · rw [hi.lruCache]
    exact List.Pairwise.nil

/-! ## A call of `run_proc` -/

/-- The page that is used comes to the front of the list. -/
theorem Rounds.used (h : Rounds c procs ran g k) (hqueue : k.queue = pid :: queue)
    (hun₀ : (g pid).Unfinished) (hmid : Midturn c procs queue ran g k pid t g₁ s) (ht : t ≤ 1)
    (hun : (g₁ pid).Unfinished) (ho : LeavesKernel kind c parseInput)
    (hkind : ∀ l ∈ (g pid).lines, kind l) (hret : Returns parseInput pid s)
    (horder : MoveToFront.InOrder uses s.lruCache) :
    MoveToFront.InOrder ((pid, nextPage (s.pcbs pid)) :: uses)
      (runNext parseInput c pid s).2.lruCache := by
  have hpid : pid ∈ procs := h.queued pid (by rw [hqueue]; exact List.mem_cons_self)
  rw [((hmid.paged.process pid hpid).next hun).1]
  by_cases hin : (g₁ pid).done / 3 < (g₁ pid).loaded
  · obtain ⟨k', hrun, -, hlru, -⟩ := hmid.paged.line hpid ho (hmid.lines ▸ hkind) hret hun hin
    rw [hrun]
    show MoveToFront.InOrder _ k'.lruCache
    rw [hlru]
    exact horder.use hmid.paged.nodup _
  · have hreach := (hmid.paged.ok pid hpid).reach
    have hat : (g₁ pid).done / 3 = (g₁ pid).loaded := by omega
    obtain ⟨k', hrun, hlru⟩ : ∃ k', runNext parseInput c pid s = (1, k') ∧
        k'.lruCache = (pid, (g₁ pid).loaded) :: madeRoom c pid s :=
      let ⟨k', hrun, _, _, _, hlru, _⟩ := h.fault hqueue hun₀ hmid ht hun hat
      ⟨k', hrun, hlru⟩
    rw [hrun]
    show MoveToFront.InOrder _ k'.lruCache
    have hsub : (madeRoom c pid s).Sublist s.lruCache := by
      unfold madeRoom
      split
      · exact List.Sublist.refl _
      · exact List.dropLast_sublist _
    rw [hlru, hat]
    exact (horder.sublist hsub).cons fun hmem =>
      Nat.lt_irrefl _ (hmid.paged.known _ _ (hsub.subset hmem)).2

/-- What `run_proc_RR` does in a turn: up to two calls of `run_proc`. -/
theorem callStates_cases (parseInput : CString → Kernel σ → Int × Kernel σ) (c : Sizes) (pid : Nat)
    (k : Kernel σ) :
    (callStates parseInput c pid k = [] ∧ rrTurn parseInput c pid k = k) ∨
    (callStates parseInput c pid k = [k] ∧
      rrTurn parseInput c pid k = (runNext parseInput c pid k).2) ∨
    ∃ k₁ queue, k₁ = (runNext parseInput c pid k).2 ∧ callStates parseInput c pid k = [k, k₁] ∧
      rrTurn parseInput c pid k = { (runNext parseInput c pid k₁).2 with queue := queue } := by
  unfold callStates rrTurn
  dsimp only
  split
  · split
    · exact .inr (.inl ⟨rfl, rfl⟩)
    · refine .inr (.inr ?_)
      split
      · exact ⟨_, _, rfl, rfl, rfl⟩
      · exact ⟨_, _, rfl, rfl, rfl⟩
  · split
    · exact .inr (.inl ⟨rfl, rfl⟩)
    · exact .inl ⟨rfl, rfl⟩

/-- In a turn, the list stays in the order of use. -/
theorem Rounds.turn_inOrder (h : Rounds c procs ran g k) (hqueue : k.queue = pid :: queue)
    (ho : LeavesKernel kind c parseInput) (hkind : ∀ l ∈ (g pid).lines, kind l)
    (hret : ∀ s ∈ A3.callStates parseInput c pid { k with queue := queue },
      Returns parseInput pid s)
    (horder : MoveToFront.InOrder uses k.lruCache) :
    MoveToFront.InOrder
      (pagesUsed pid (A3.callStates parseInput c pid { k with queue := queue }) ++ uses)
      (rrTurn parseInput c pid { k with queue := queue }).lruCache := by
  have hcall : ∀ s ∈ A3.callStates parseInput c pid { k with queue := queue }, ∀ uses,
      MoveToFront.InOrder uses s.lruCache → MoveToFront.InOrder
        ((pid, nextPage (s.pcbs pid)) :: uses) (runNext parseInput c pid s).2.lruCache := by
    intro s hs uses horder
    obtain ⟨hun₀, t, ht, g₁, hmid, hun⟩ := h.callStates hqueue ho hkind
      (fun hun => hret _ (h.mem_callStates hqueue hun)) hs
    exact h.used hqueue hun₀ hmid ht hun ho hkind (hret s hs) horder
  rcases callStates_cases parseInput c pid { k with queue := queue } with
    ⟨hstates, hturn⟩ | ⟨hstates, hturn⟩ | ⟨k₁, queue', hk₁, hstates, hturn⟩
  · rw [hstates, hturn]
    exact horder
  · rw [hstates] at hcall ⊢
    rw [hturn]
    exact hcall _ (List.mem_singleton_self _) uses horder
  · rw [hstates] at hcall ⊢
    rw [hturn]
    have hfirst := hcall _ List.mem_cons_self uses horder
    rw [← hk₁] at hfirst
    exact hcall k₁ (List.mem_cons_of_mem _ (List.mem_singleton_self _)) _ hfirst

/-! ## After the shell has ended -/

/-- Once the program has ended, no line is run any more. -/
def StaysStopped (parseInput : CString → Kernel σ → Int × Kernel σ) : Prop :=
  ∀ line k, k.stopped = true → (parseInput line k).2.stopped = true

theorem pageFault_stopped (pid i : Nat) (hstopped : k.stopped = true) :
    (pageFault c pid i k).stopped = true := by
  have hevict : ∀ k : Kernel σ, k.stopped = true → (evictTail k).stopped = true := by
    intro k hk
    unfold evictTail
    split
    · rfl
    · dsimp only
      split
      · exact hk
      · rfl
  have hload : ∀ k : Kernel σ, k.stopped = true → (loadPage c pid i k).2.stopped = true :=
    fun k hk => (loadPage_kept pid i k).1.trans hk
  unfold pageFault
  dsimp only
  split
  · exact hload _ (hevict _ (hload k hstopped))
  · exact hload k hstopped

theorem touchPage_stopped (pid i : Nat) (hstopped : k.stopped = true) :
    (touchPage pid i k).stopped = true := by
  unfold touchPage
  split
  · rfl
  · exact hstopped

theorem cpuRun_stopped (hstays : StaysStopped parseInput) (pid i j : Nat)
    (hstopped : k.stopped = true) : (cpuRun parseInput pid i j k).2.stopped = true := by
  unfold cpuRun
  split
  · exact hstopped
  · exact hstays _ _ hstopped

/-- A call of `run_proc` that comes back comes from one of `cpu_run` that did. -/
theorem runNext_running (hgoes : (runNext parseInput c pid s).2.stopped = false) :
    (cpuRun parseInput pid (nextPage (s.pcbs pid))
      ((s.pcbs pid).programCounter (nextPage (s.pcbs pid))) s).2.stopped = false := by
  by_contra hstopped
  rw [Bool.not_eq_false] at hstopped
  unfold runNext runProc at hgoes
  dsimp only at hgoes
  split at hgoes
  · rw [pageFault_stopped _ _ hstopped] at hgoes
    cases hgoes
  · rw [touchPage_stopped _ _ hstopped] at hgoes
    cases hgoes

theorem runNext_started (hstays : StaysStopped parseInput)
    (hgoes : (runNext parseInput c pid s).2.stopped = false) : s.stopped = false := by
  by_contra hstopped
  rw [Bool.not_eq_false] at hstopped
  have hrun := runNext_running hgoes
  rw [cpuRun_stopped hstays _ _ _ hstopped] at hrun
  cases hrun

theorem Answers.returns (h : Answers parseInput pid s)
    (hgoes : (runNext parseInput c pid s).2.stopped = false) : Returns parseInput pid s :=
  fun hvalid => ⟨h hvalid, runNext_running hgoes⟩

/-- In a turn that comes to its end, every line that was run returned. -/
theorem turnReturns_of_running (hstays : StaysStopped parseInput)
    (hanswer : ∀ s, Calls parseInput c k pid s → s.stopped = false → Answers parseInput pid s)
    (hstopped : k.stopped = false) (hdone : queueDone k = false) (hqueue : k.queue = pid :: queue)
    (hgoes : (rrTurn parseInput c pid { k with queue := queue }).stopped = false) :
    ∀ s ∈ A3.callStates parseInput c pid { k with queue := queue }, Returns parseInput pid s := by
  have hcall : ∀ s ∈ A3.callStates parseInput c pid { k with queue := queue },
      (runNext parseInput c pid s).2.stopped = false → Returns parseInput pid s := fun s hs hgoes =>
    (hanswer s ⟨hstopped, hdone, queue, hqueue, hs⟩ (runNext_started hstays hgoes)).returns hgoes
  rcases callStates_cases parseInput c pid { k with queue := queue } with
    ⟨hstates, hturn⟩ | ⟨hstates, hturn⟩ | ⟨k₁, queue', hk₁, hstates, hturn⟩
  · rw [hstates]
    exact fun s hs => absurd hs List.not_mem_nil
  · rw [hturn] at hgoes
    rw [hstates] at hcall ⊢
    exact fun s hs => hcall s hs (List.mem_singleton.1 hs ▸ hgoes)
  · rw [hturn] at hgoes
    rw [hstates] at hcall ⊢
    have hlast : (runNext parseInput c pid k₁).2.stopped = false := hgoes
    intro s hs
    refine hcall s hs ?_
    rcases List.mem_pair.1 hs with rfl | rfl
    · rw [← hk₁]
      exact runNext_started hstays hlast
    · exact hlast

/-! ## Runs -/

theorem Reached.turns {k₀ : Kernel σ} (h : Reached parseInput c uses₀ k₀ uses k) :
    Relation.ReflTransGen (Turn parseInput c) k₀ k := by
  induction h with
  | start => exact .refl
  | turn _ hstopped hdone hqueue ih => exact ih.tail (.head hstopped hdone hqueue)

theorem exists_reached {k₀ : Kernel σ} (h : Relation.ReflTransGen (Turn parseInput c) k₀ k) :
    ∃ uses, Reached parseInput c uses₀ k₀ uses k := by
  induction h with
  | refl => exact ⟨uses₀, .start⟩
  | tail _ hturn ih =>
      obtain ⟨uses, hreached⟩ := ih
      cases hturn with
      | head hstopped hdone hqueue => exact ⟨_, .turn hreached hstopped hdone hqueue⟩

/-- Between the turns of a run, the list is in the order of use. -/
theorem Rounds.reached {k₀ : Kernel σ} (h : Rounds c procs ran g k₀)
    (ho : LeavesKernel kind c parseInput) (hkind : ∀ q, ∀ l ∈ (g q).lines, kind l)
    (hstays : StaysStopped parseInput)
    (hanswer : ∀ pid s, Called parseInput c k₀ pid s → s.stopped = false →
      Answers parseInput pid s)
    (horder : MoveToFront.InOrder uses₀ k₀.lruCache)
    (hreached : Reached parseInput c uses₀ k₀ uses k) (hgoes : k.stopped = false) :
    ∃ g₁, (∀ q, (g₁ q).lines = (g q).lines) ∧ Rounds c procs ran g₁ k ∧
      MoveToFront.InOrder uses k.lruCache := by
  induction hreached with
  | start => exact ⟨g, fun _ => rfl, h, horder⟩
  | @turn uses k pid queue hreached hstopped hdone hqueue ih =>
      obtain ⟨g₁, hlines₁, h₁, horder₁⟩ := ih hstopped
      have hkind₁ : ∀ q, ∀ l ∈ (g₁ q).lines, kind l := fun q l hl => hkind q l (hlines₁ q ▸ hl)
      have hreturns := turnReturns_of_running hstays
        (fun s hcalls => hanswer pid s ⟨k, hreached.turns, hcalls⟩) hstopped hdone hqueue hgoes
      have hret : TurnReturns parseInput c k := by
        rintro pid' s ⟨-, -, queue', hqueue', hs⟩
        obtain ⟨rfl, rfl⟩ := List.cons.inj (hqueue.symm.trans hqueue')
        exact hreturns s hs
      obtain ⟨g₂, hlines₂, h₂⟩ := h₁.step ho hkind₁ hret (.head hstopped hdone hqueue)
      exact ⟨g₂, fun q => (hlines₂ q).1.trans (hlines₁ q), h₂,
        h₁.turn_inOrder hqueue ho (hkind₁ pid) hreturns horder₁⟩

/-- Where `run_proc` is called the list is in the order of use, too. -/
theorem Rounds.calledAfter {k₀ : Kernel σ} (h : Rounds c procs ran g k₀)
    (ho : LeavesKernel kind c parseInput) (hkind : ∀ q, ∀ l ∈ (g q).lines, kind l)
    (hstays : StaysStopped parseInput)
    (hanswer : ∀ pid s, Called parseInput c k₀ pid s → s.stopped = false →
      Answers parseInput pid s)
    (horder : MoveToFront.InOrder uses₀ k₀.lruCache)
    (hcalled : CalledAfter parseInput c uses₀ k₀ uses pid s) (hgoes : s.stopped = false) :
    ∃ g₁, Paged c procs g₁ s ∧ MoveToFront.InOrder uses s.lruCache ∧
      ∀ v, A3.evicted parseInput c pid s = some v → s.lruCache.getLast? = some v := by
  obtain ⟨before, k, queue, n, hreached, hstopped, hdone, hqueue, hs, huses⟩ := hcalled
  obtain ⟨g₁, hlines₁, h₁, horder₁⟩ :=
    h.reached ho hkind hstays hanswer horder hreached hstopped
  have hkind₁ : ∀ l ∈ (g₁ pid).lines, kind l := fun l hl => hkind pid l (hlines₁ pid ▸ hl)
  have hanswers : ∀ s ∈ A3.callStates parseInput c pid { k with queue := queue },
      s.stopped = false → Answers parseInput pid s := fun s hs =>
    hanswer pid s ⟨k, hreached.turns, hstopped, hdone, queue, hqueue, hs⟩
  have hmem := List.mem_of_getElem? hs
  have hun₁ := h₁.unfinished hqueue hmem
  -- The first call of a turn, and the second one.
  obtain ⟨t, ht, g₂, hmid, hun₂, horder₂⟩ : ∃ t ≤ 1, ∃ g₂,
      Midturn c procs queue ran g₁ k pid t g₂ s ∧ (g₂ pid).Unfinished ∧
        MoveToFront.InOrder uses s.lruCache := by
    have hfirst : ∃ t ≤ 1, ∃ g₂,
        Midturn c procs queue ran g₁ k pid t g₂ { k with queue := queue } ∧ (g₂ pid).Unfinished ∧
          MoveToFront.InOrder (pagesUsed pid ([] : List (Kernel σ)) ++ before) k.lruCache :=
      ⟨0, Nat.zero_le 1, g₁, h₁.midturn, hun₁, horder₁⟩
    rw [huses]
    rcases callStates_cases parseInput c pid { k with queue := queue } with
      ⟨hstates, -⟩ | ⟨hstates, -⟩ | ⟨k₁, queue', hk₁, hstates, -⟩
    · rw [hstates] at hmem
      cases hmem
    · rw [hstates] at hs ⊢
      cases n with
      | zero =>
          obtain rfl := Option.some.inj hs
          exact hfirst
      | succ n => cases hs
    · cases n with
      | zero =>
          rw [hstates] at hs ⊢
          obtain rfl := Option.some.inj hs
          exact hfirst
      | succ n =>
          obtain ⟨rfl, rfl⟩ : n = 0 ∧ s = k₁ := by
            rw [hstates] at hs
            cases n with
            | zero => exact ⟨rfl, (Option.some.inj hs).symm⟩
            | succ n => cases hs
          -- The first line returned.
          have hret : Returns parseInput pid { k with queue := queue } :=
            (hanswers _ (h₁.mem_callStates hqueue hun₁) hstopped).returns (by rwa [← hk₁])
          obtain ⟨-, t, ht, g₂, hmid, hun₂⟩ := h₁.callStates hqueue ho hkind₁ (fun _ => hret) hmem
          refine ⟨t, ht, g₂, hmid, hun₂, ?_⟩
          rw [hstates, hk₁]
          exact h₁.used hqueue hun₁ h₁.midturn (Nat.zero_le 1) hun₁ ho hkind₁ hret horder₁
  refine ⟨g₂, hmid.paged, horder₂, fun v hv => ?_⟩
  exact (h₁.evicted hqueue hun₁ hmid ht hun₂ (hanswers s hmem hgoes) hv).1

/-! ## The start of a run -/

theorem pushPages_eq (pid m : Nat) (cache : List (Nat × Nat)) :
    pushPages pid m cache = ((List.range m).map fun i => (pid, i)).reverse ++ cache := by
  induction m with
  | zero => rfl
  | succ m ih =>
      rw [pushPages_succ, ih, List.range_succ, List.map_append, List.reverse_append]
      rfl

theorem newProcs_lruCache (texts : List CString) (k : Kernel σ) :
    (newProcs c texts k).lruCache = pagesAtStart k.pidCounter texts ++ k.lruCache := by
  induction texts generalizing k with
  | nil => rfl
  | cons text texts ih =>
      obtain ⟨-, hlru, hcounter⟩ := initPages_kept (c := c) k.pidCounter
        (List.range (min 2 (pageTableSize (countLines text))))
        { k.setPcb k.pidCounter (pcbStart k.pidCounter text) with pidCounter := k.pidCounter + 1 }
      have hcache : (newProc c text k).lruCache =
          pushPages k.pidCounter (min 2 (pageTableSize (countLines text))) k.lruCache :=
        congrArg (pushPages k.pidCounter (min 2 (pageTableSize (countLines text)))) hlru
      have hpid : (newProc c text k).pidCounter = k.pidCounter + 1 := hcounter
      rw [show newProcs c (text :: texts) k = newProcs c texts (newProc c text k) from rfl, ih, hpid,
        hcache, pushPages_eq, pagesAtStart, List.append_assoc]

variable {texts : List CString}

theorem Idle.lruConsistent (hi : Idle c k) (ho : LeavesKernel (LineOf texts) c parseInput)
    (hstays : StaysStopped parseInput) (hok : ∀ text ∈ texts, Supplied text)
    (halloc : (newProcs c texts k).stopped = false)
    (hanswer : ∀ pid s, Called parseInput c (newProcs c texts k) pid s → s.stopped = false →
      Answers parseInput pid s) :
    (∀ uses s, Reached parseInput c (pagesAtStart k.pidCounter texts) (newProcs c texts k) uses s →
      s.stopped = false → LruConsistent c (List.range' k.pidCounter texts.length) uses s ∧
        LruConsistent c [] uses (rrEnd s)) ∧
    ∀ uses pid s,
      CalledAfter parseInput c (pagesAtStart k.pidCounter texts) (newProcs c texts k) uses pid s →
      s.stopped = false → LruConsistent c (List.range' k.pidCounter texts.length) uses s ∧
        ∀ v, evicted parseInput c pid s = some v → v ∈ s.lruCache ∧
          ∀ p ∈ s.lruCache, p ≠ v → MoveToFront.age uses p < MoveToFront.age uses v := by
  obtain ⟨g, hg, -, -, hlines, -⟩ := hi.rounds hok (hi.room hok halloc)
  have hkind := lineOf_scriptOf hlines
  have hcache := newProcs_lruCache (c := c) texts k
  rw [hi.lruCache, List.append_nil] at hcache
  have horder : MoveToFront.InOrder (pagesAtStart k.pidCounter texts)
      (newProcs c texts k).lruCache := by
    have hself := MoveToFront.InOrder.self hg.paged.nodup
    rwa [hcache] at hself ⊢
  refine ⟨fun uses s hreached hgoes => ?_, fun uses pid s hcalled hgoes => ?_⟩
  · obtain ⟨g₁, -, h₁, horder₁⟩ := hg.reached ho hkind hstays hanswer horder hreached hgoes
    exact ⟨h₁.paged.lruConsistent horder₁, h₁.idle.empty uses⟩
  · obtain ⟨g₁, hpaged, horder₁, hlast⟩ :=
      hg.calledAfter ho hkind hstays hanswer horder hcalled hgoes
    exact ⟨hpaged.lruConsistent horder₁, fun v hv => ⟨List.mem_of_getLast? (hlast v hv),
      fun p hp hne => horder₁.getLast (hlast v hv) hp hne⟩⟩

end Order

section Interpreter

variable {c : Sizes} {u : World → Unwritten} {fuel : Nat} {k : Kernel Machine}

theorem startScripts_stopped (names : List CString) (hstopped : k.stopped = true) :
    (startScripts c k names).stopped = true := by
  induction names generalizing k with
  | nil => exact hstopped
  | cons script names ih =>
      rw [startScripts]
      split
      · rfl
      · exact ih ((initPages_kept _ _ _).1 hstopped)

theorem interpreter_stopped (parse : CString → Kernel Machine → Int × Kernel Machine) (fuel : Nat)
    (words : List CString) (hstopped : k.stopped = true) :
    (interpreter c u parse fuel words k).2.stopped = true := by
  unfold interpreter
  split
  · exact hstopped
  · next names w _ =>
      have hstart := startScripts_stopped (c := c)
        (k := { k with rest := { k.rest with world := w } }) names hstopped
      unfold runScripts
      rw [runProcRR_stopped hstart]
      exact hstart
  · rfl

theorem parseInput_staysStopped : StaysStopped (parseInput c u fuel) := by
  intro line k hstopped
  have hcursor : (setCursor k (strtok line).2).stopped = true := hstopped
  unfold parseInput
  cases fuel with
  | zero => rfl
  | succ fuel =>
      cases (strtok line).1 with
      | none => exact hcursor
      | some token =>
          rw [parseLoop]
          split
          · have hnext := interpreter_stopped (c := c) (u := u) (fun ui k =>
              parseLoop c u fuel (strtok ui).1 0 (setCursor k (strtok ui).2)) fuel (words token)
              hcursor
            dsimp only
            rw [if_pos hnext]
            exact hnext
          · rfl

/-- In every state of a run of scripts, between the turns, between the two calls of `run_proc` of a
turn and when `run_proc_RR` is done, the frames and the list of used pages agree, and the page that
is evicted is the one used longest ago. -/
theorem run_lruConsistent {scripts : List (List CString)} (hi : Idle c k)
    (hscripts : ∀ lines ∈ scripts, ScriptLines lines)
    (hplain : ∀ lines ∈ scripts, ∀ line ∈ delivered (scriptText lines), RunsNoScript line)
    (halloc : (newProcs c (scripts.map scriptText) k).stopped = false)
    (hanswer : ∀ pid s,
      Called (A3.parseInput c u fuel) c (newProcs c (scripts.map scriptText) k) pid s →
      s.stopped = false → Answers (A3.parseInput c u fuel) pid s) :
    (∀ uses s, Reached (A3.parseInput c u fuel) c
        (pagesAtStart k.pidCounter (scripts.map scriptText))
        (newProcs c (scripts.map scriptText) k) uses s →
      s.stopped = false → LruConsistent c (List.range' k.pidCounter scripts.length) uses s ∧
        (queueDone s = true → LruConsistent c [] uses (rrEnd s))) ∧
    ∀ uses pid s, CalledAfter (A3.parseInput c u fuel) c
        (pagesAtStart k.pidCounter (scripts.map scriptText))
        (newProcs c (scripts.map scriptText) k) uses pid s →
      s.stopped = false → LruConsistent c (List.range' k.pidCounter scripts.length) uses s ∧
        ∀ v, evicted (A3.parseInput c u fuel) c pid s = some v → v ∈ s.lruCache ∧
          ∀ p ∈ s.lruCache, p ≠ v → MoveToFront.age uses p < MoveToFront.age uses v := by
  have hleaves : LeavesKernel (LineOf (scripts.map scriptText)) c (A3.parseInput c u fuel) := by
    refine parseInput_leavesKernel ?_
    rintro line ⟨text, htext, hline⟩
    obtain ⟨lines, hl, rfl⟩ := List.mem_map.1 htext
    exact hplain lines hl line hline
  have hsupplied : ∀ text ∈ scripts.map scriptText, Supplied text := by
    intro text htext
    obtain ⟨lines, hl, rfl⟩ := List.mem_map.1 htext
    exact (hscripts lines hl).supplied
  obtain ⟨hreached, hcalled⟩ :=
    hi.lruConsistent hleaves parseInput_staysStopped hsupplied halloc hanswer
  rw [List.length_map] at hreached hcalled
  exact ⟨fun uses s hs hgoes =>
    ⟨(hreached uses s hs hgoes).1, fun _ => (hreached uses s hs hgoes).2⟩, hcalled⟩

end Interpreter

theorem run_lruConsistent_paged :
    ∃ uses s, CalledAfter pagedParse ⟨12, 10⟩ (pagesAtStart 1 pagedTexts)
        (newProcs ⟨12, 10⟩ pagedTexts pagedStart) uses 1 s ∧
      evicted pagedParse ⟨12, 10⟩ 1 s = some (1, 0) ∧ LruConsistent ⟨12, 10⟩ [1, 2] uses s ∧
      ∀ p ∈ s.lruCache, p ≠ (1, 0) → MoveToFront.age uses p < MoveToFront.age uses (1, 0) := by
  obtain ⟨hscripts, hplain, halloc, hret⟩ := paged_runs
  obtain ⟨uses, hreached⟩ : ∃ uses, Reached pagedParse ⟨12, 10⟩ (pagesAtStart 1 pagedTexts)
    (newProcs ⟨12, 10⟩ pagedTexts pagedStart) uses afterSix := exists_reached turns_afterSix
  have hcalled : CalledAfter pagedParse ⟨12, 10⟩ (pagesAtStart 1 pagedTexts)
      (newProcs ⟨12, 10⟩ pagedTexts pagedStart) uses 1 { afterSix with queue := [2] } :=
    ⟨uses, afterSix, [2], 0, hreached, by decide +kernel, by decide +kernel, by decide +kernel,
      callStates_head (by decide +kernel), rfl⟩
  obtain ⟨-, hkept⟩ :=
    @run_lruConsistent ⟨12, 10⟩ pagedUnwritten 3 pagedStart [pagedLines, pagedLines]
      (idle_kernelStart _) (fun lines hl => (hscripts lines hl).1)
      (fun lines hl line hline => hplain lines hl line
        ((hscripts lines hl).1.delivered (hscripts lines hl).2 ▸ hline)) halloc
      fun pid s ⟨k₁, hturns, hcalls⟩ _ => (hret k₁ hturns pid s hcalls).answers
  obtain ⟨hlru, hevicted⟩ := hkept uses 1 _ hcalled (by decide +kernel)
  exact ⟨uses, _, hcalled, calls_afterSix.2, hlru, (hevicted _ calls_afterSix.2).2⟩

end SimpleShell.A3
