import SimpleShell.A2.Accounts

/-!
# Sorting the ready queue

`sort_ready_queue` on the nodes themselves: it carries `cur` over from one pass of
its inner loop to the next, so the passes after the first begin where that one
ended, at the last node. What is left of the bubble sort is one pass.

The loops run on fuel; `none` is a loop that has used it up or a null pointer that
was followed, and neither happens.
-/

namespace SimpleShell.A2

/-! ## The nodes -/

/-- The list behind `head`: where each node points, and its process. -/
structure QueueNodes where
  head : Option Nat
  next : Nat → Option Nat
  pcb : Nat → PCB

namespace QueueNodes

def setNext (q : QueueNodes) (p : Nat) (r : Option Nat) : QueueNodes :=
  { q with next := Function.update q.next p r }

/-- `swap_needed`. -/
def swapNeeded (q : QueueNodes) (cur : Nat) : Bool :=
  match q.next cur with
  | none => false
  | some next => SimpleShell.A2.swapNeeded (q.pcb cur) (q.pcb next)

/-- The loop of `ready_queue_swap_with_next` that looks for the node before. -/
def findBefore (q : QueueNodes) (toSwap : Nat) : Nat → Option Nat → Option (Option Nat)
  | 0, _ => none
  | _ + 1, none => some none
  | n + 1, some cur =>
      if q.next cur = some toSwap then some (some cur) else findBefore q toSwap n (q.next cur)

/-- The part of `ready_queue_swap_with_next` for the head. -/
def swapHead (q : QueueNodes) (toSwap : Nat) : Option QueueNodes :=
  if q.head = some toSwap then
    match q.next toSwap with
    | none => none
    | some next =>
        some { (q.setNext toSwap (q.next next)).setNext next (some toSwap) with head := some next }
  else some q

/-- The part for a node that has one before it, `cur`. -/
def swapAfter (q : QueueNodes) (toSwap : Nat) : Option Nat → Option QueueNodes
  | none => some q
  | some cur =>
      match q.next toSwap with
      | none => none
      | some next =>
          some (((q.setNext cur (some next)).setNext next (some toSwap)).setNext toSwap
            (q.next next))

/-- `ready_queue_swap_with_next`: the search begins at the old head. -/
def readyQueueSwapWithNext (n : Nat) (q : QueueNodes) (toSwap : Nat) : Option QueueNodes :=
  (q.swapHead toSwap).bind fun r =>
    (r.findBefore toSwap n q.head).bind fun cur => r.swapAfter toSwap cur

/-- The inner loop of `sort_ready_queue`: the list, `cur` and `sorted` after it. -/
def sortPass : Nat → QueueNodes → Nat → Bool → Option (QueueNodes × Nat × Bool)
  | 0, _, _, _ => none
  | n + 1, q, cur, sorted =>
      match q.next cur with
      | none => some (q, cur, sorted)
      | some next =>
          if q.swapNeeded cur then
            (readyQueueSwapWithNext n q cur).bind fun r => sortPass n r cur false
          else sortPass n q next sorted

/-- The outer loop. -/
def sortPasses : Nat → QueueNodes → Nat → Option QueueNodes
  | 0, _, _ => none
  | n + 1, q, cur =>
      (sortPass n q cur true).bind fun r =>
        if r.2.2 then some r.1 else sortPasses n r.1 r.2.1

/-- `sort_ready_queue`. -/
def sortReadyQueue (n : Nat) (q : QueueNodes) : Option QueueNodes :=
  match q.head with
  | none => some q
  | some head => sortPasses n q head

/-- `ready_queue_pop_head`. -/
def readyQueuePopHead (q : QueueNodes) : Option Nat × QueueNodes :=
  (q.head, { q with head := q.head.bind q.next })

/-- `ready_queue_pop_shortest_job`. -/
def readyQueuePopShortestJob (n : Nat) (q : QueueNodes) : Option (Option Nat × QueueNodes) :=
  (q.sortReadyQueue n).map readyQueuePopHead

end QueueNodes

/-! ## Chains of nodes -/

/-- The nodes `l` lie one after the other between two pointers. -/
def Chain (next : Nat → Option Nat) : Option Nat → List Nat → Option Nat → Prop
  | start, [], stop => start = stop
  | start, p :: l, stop => start = some p ∧ Chain next (next p) l stop

section Chain

variable {next : Nat → Option Nat} {start stop : Option Nat} {l a b : List Nat} {p r : Nat}

theorem chain_append : Chain next start (a ++ b) stop ↔
    ∃ m, Chain next start a m ∧ Chain next m b stop := by
  induction a generalizing start with
  | nil => simp [Chain]
  | cons p a ih =>
      rw [List.cons_append, Chain, ih]
      constructor
      · rintro ⟨hp, m, ha, hb⟩
        exact ⟨m, ⟨hp, ha⟩, hb⟩
      · rintro ⟨m, ⟨hp, ha⟩, hb⟩
        exact ⟨hp, m, ha, hb⟩

/-- A store to another node leaves a chain as it is. -/
theorem chain_update (hp : p ∉ l) {x : Option Nat} :
    Chain (Function.update next p x) start l stop ↔ Chain next start l stop := by
  induction l generalizing start with
  | nil => exact .rfl
  | cons r l ih =>
      have hne : r ≠ p := fun heq => hp (heq ▸ List.mem_cons_self)
      rw [Chain, Chain, Function.update_of_ne hne,
        ih fun hmem => hp (List.mem_cons_of_mem _ hmem)]

theorem chain_start_mem (h : Chain next start l stop) (hp : start = some p) (hne : stop ≠ some p) :
    p ∈ l := by
  cases l with
  | nil => exact absurd (h.symm.trans hp) hne
  | cons r l =>
      rw [h.1] at hp
      rw [Option.some.inj hp]
      exact List.mem_cons_self

end Chain

/-- The queue consists of the nodes `l`, in this order. -/
structure QueueNodes.Holds (q : QueueNodes) (l : List Nat) : Prop where
  chain : Chain q.next q.head l none
  nodup : l.Nodup

section Swap

variable {q : QueueNodes} {start : Option Nat} {l a b : List Nat} {p r n : Nat}

/-- The search ends at the node before. -/
theorem findBefore_some (h : Chain q.next start (a ++ [p]) (some r)) (hr : r ∉ a ++ [p])
    (hn : a.length < n) : q.findBefore r n start = some (some p) := by
  induction a generalizing start n with
  | nil =>
      obtain ⟨m, rfl⟩ : ∃ m, n = m + 1 := ⟨n - 1, by omega⟩
      obtain ⟨rfl, hlast⟩ := h
      have hlast : q.next p = some r := hlast
      rw [QueueNodes.findBefore, if_pos hlast]
  | cons x a ih =>
      obtain ⟨m, rfl⟩ : ∃ m, n = m + 1 := ⟨n - 1, by omega⟩
      obtain ⟨rfl, hrest⟩ := h
      have hout : r ∉ a ++ [p] := fun hmem => hr (List.mem_cons_of_mem _ hmem)
      have hne : q.next x ≠ some r := by
        intro heq
        cases a with
        | nil => exact hout (Option.some.inj (heq.symm.trans hrest.1) ▸ List.mem_cons_self)
        | cons y a => exact hout (Option.some.inj (heq.symm.trans hrest.1) ▸ List.mem_cons_self)
      rw [QueueNodes.findBefore, if_neg hne]
      exact ih hrest hout (by simp at hn; omega)

/-- Or at the end, if there is none. -/
theorem findBefore_none (h : Chain q.next start l none) (hr : r ∉ l.tail) (hn : l.length < n) :
    q.findBefore r n start = some none := by
  induction l generalizing start n with
  | nil =>
      obtain ⟨m, rfl⟩ : ∃ m, n = m + 1 := ⟨n - 1, by omega⟩
      obtain rfl : start = none := h
      rfl
  | cons x l ih =>
      obtain ⟨m, rfl⟩ : ∃ m, n = m + 1 := ⟨n - 1, by omega⟩
      obtain ⟨rfl, hrest⟩ := h
      have hne : q.next x ≠ some r := fun heq =>
        hr (chain_start_mem hrest heq (by simp))
      rw [QueueNodes.findBefore, if_neg hne]
      exact ih hrest (fun hmem => hr (List.mem_of_mem_tail hmem)) (by simp at hn; omega)

/-- The swap changes places with the next node. -/
theorem QueueNodes.Holds.swap (h : q.Holds (a ++ p :: r :: b))
    (hn : (a ++ p :: r :: b).length < n) :
    ∃ q', QueueNodes.readyQueueSwapWithNext n q p = some q' ∧ q'.Holds (a ++ r :: p :: b) ∧
      q'.pcb = q.pcb := by
  obtain ⟨m, hbefore, hp, hr, hafter⟩ : ∃ m, Chain q.next q.head a m ∧ m = some p ∧
      q.next p = some r ∧ Chain q.next (q.next r) b none := by
    obtain ⟨m, ha, hp, hr, hb⟩ := chain_append.1 h.chain
    exact ⟨m, ha, hp, hr, hb⟩
  subst hp
  have hnodup : (a ++ r :: p :: b).Nodup :=
    ((List.Perm.swap r p b).append_left a).nodup h.nodup
  obtain ⟨ha, hpr, hdisj⟩ := List.nodup_append.1 h.nodup
  obtain ⟨hp', hr'⟩ := List.nodup_cons.1 hpr
  obtain ⟨hrb, hb⟩ := List.nodup_cons.1 hr'
  have hne : r ≠ p := fun heq => hp' (heq ▸ List.mem_cons_self)
  have hpb : p ∉ b := fun hmem => hp' (List.mem_cons_of_mem _ hmem)
  unfold QueueNodes.readyQueueSwapWithNext QueueNodes.swapHead
  rcases List.eq_nil_or_concat a with rfl | ⟨a, x, rfl⟩
  · have hhead : q.head = some p := hbefore
    rw [if_pos hhead, hr]
    dsimp only
    rw [Option.bind_some, hhead]
    obtain ⟨q', hq'⟩ : ∃ q' : QueueNodes, q' = { (q.setNext p (q.next r)).setNext r (some p) with
      head := some r } := ⟨_, rfl⟩
    rw [← hq']
    have hnext : q'.next = Function.update (Function.update q.next p (q.next r)) r (some p) := by
      rw [hq']
      rfl
    have hrest : Chain q'.next (some p) (p :: b) none := by
      refine ⟨rfl, ?_⟩
      rw [hnext, Function.update_of_ne hne.symm, Function.update_self, chain_update hrb,
        chain_update hpb]
      exact hafter
    have hholds : q'.Holds (r :: p :: b) := by
      refine ⟨⟨by rw [hq'], ?_⟩, hnodup⟩
      rw [hnext, Function.update_self, ← hnext]
      exact hrest
    rw [findBefore_none hrest hpb (by simp at hn ⊢; omega)]
    exact ⟨q', rfl, hholds, by rw [hq']; rfl⟩
  · rw [List.concat_eq_append] at *
    have hpa : p ∉ a ++ [x] := fun hmem => hdisj p hmem p List.mem_cons_self rfl
    have hra : r ∉ a ++ [x] := fun hmem =>
      hdisj r hmem r (List.mem_cons_of_mem _ List.mem_cons_self) rfl
    have hhead : q.head ≠ some p := fun heq =>
      hpa (by
        cases a with
        | nil => exact Option.some.inj (heq.symm.trans hbefore.1) ▸ List.mem_cons_self
        | cons y a => exact Option.some.inj (heq.symm.trans hbefore.1) ▸ List.mem_cons_self)
    rw [if_neg hhead, Option.bind_some, findBefore_some hbefore hpa (by simp at hn; omega),
      Option.bind_some, QueueNodes.swapAfter, hr]
    obtain ⟨q', hq'⟩ : ∃ q' : QueueNodes, q' =
      ((q.setNext x (some r)).setNext r (some p)).setNext p (q.next r) := ⟨_, rfl⟩
    have hnext : q'.next = Function.update (Function.update (Function.update q.next x (some r))
        r (some p)) p (q.next r) := by
      rw [hq']
      rfl
    refine ⟨q', by rw [hq'], ⟨?_, hnodup⟩, by rw [hq']; rfl⟩
    obtain ⟨m, hstart, hx, -⟩ := chain_append.1 hbefore
    have hxr : x ≠ r := fun heq => hra (heq ▸ List.mem_append_right _ List.mem_cons_self)
    have hxp : x ≠ p := fun heq => hpa (heq ▸ List.mem_append_right _ List.mem_cons_self)
    have hxa : x ∉ a := fun hmem => (List.nodup_append.1 ha).2.2 x hmem x List.mem_cons_self rfl
    have hxb : x ∉ b := fun hmem => hdisj x (List.mem_append_right _ List.mem_cons_self) x
      (List.mem_cons_of_mem _ (List.mem_cons_of_mem _ hmem)) rfl
    have hout : ∀ {y}, y ∉ a ++ [x] → y ∉ a := fun hy hmem => hy (List.mem_append_left _ hmem)
    have hq'head : q'.head = q.head := by
      rw [hq']
      rfl
    rw [List.append_assoc, chain_append, hnext, hq'head]
    refine ⟨m, ?_, hx, ?_, ?_, ?_⟩
    · rw [chain_update (hout hpa), chain_update (hout hra), chain_update hxa]
      exact hstart
    · rw [Function.update_of_ne hxp, Function.update_of_ne hxr, Function.update_self]
    · rw [Function.update_of_ne hne, Function.update_self]
    · rw [Function.update_self, chain_update hpb, chain_update hrb, chain_update hxb]
      exact hafter

end Swap

/-! ## The order -/

section Order

variable {x y z cur next : PCB} {queue rest : List PCB}

/-- `x` may stand before `y`. -/
def MayPrecede (x y : PCB) : Prop := swapNeeded x y = false

theorem mayPrecede_iff : MayPrecede x y ↔
    (x.priority = y.priority ∧ x.jobLengthScore ≤ y.jobLengthScore) ∨
      (x.priority = true ∧ y.priority = false) := by
  unfold MayPrecede swapNeeded
  cases x.priority <;> cases y.priority <;> simp

theorem MayPrecede.trans (h₁ : MayPrecede x y) (h₂ : MayPrecede y z) : MayPrecede x z := by
  rw [mayPrecede_iff] at *
  rcases h₁ with ⟨h₁, h₁'⟩ | ⟨h₁, h₁'⟩ <;> rcases h₂ with ⟨h₂, h₂'⟩ | ⟨h₂, h₂'⟩
  · exact .inl ⟨h₁.trans h₂, Int.le_trans h₁' h₂'⟩
  · exact .inr ⟨h₁.trans h₂, h₂'⟩
  · exact .inr ⟨h₁, h₂.symm.trans h₁'⟩
  · exact absurd (h₁'.symm.trans h₂) (by simp)

theorem MayPrecede.of_swap (h : swapNeeded x y = true) : MayPrecede y x := by
  unfold swapNeeded at h
  rw [mayPrecede_iff]
  cases hx : x.priority <;> cases hy : y.priority <;> simp [hx, hy] at h ⊢
  · omega
  · omega

/-- Nothing in the queue stands behind two processes that it should precede. -/
def NearlySorted (queue : List PCB) : Prop :=
  ∀ x y z, [x, y, z].Sublist queue → MayPrecede x z ∨ MayPrecede y z

theorem nearlySorted_swap (h : swapNeeded cur next = true) :
    NearlySorted (cur :: next :: rest) ↔
      (∀ z ∈ cur :: rest, MayPrecede next z) ∧ NearlySorted (cur :: rest) := by
  have hback := MayPrecede.of_swap h
  constructor
  · intro hall
    refine ⟨fun z hz => ?_, fun x y z hsub => hall x y z ?_⟩
    · rcases List.mem_cons.1 hz with rfl | hz
      · exact hback
      · rcases hall cur next z (.cons_cons _ (.cons_cons _ (List.singleton_sublist.2 hz))) with hc | hn
        · exact hback.trans hc
        · exact hn
    · exact hsub.trans (.cons_cons _ (List.sublist_cons_self ..))
  · rintro ⟨hmin, hall⟩ x y z hsub
    rcases List.sublist_cons_iff.1 hsub with hsub | ⟨_, heq, hsub⟩
    · rcases List.sublist_cons_iff.1 hsub with hsub | ⟨_, heq, hsub⟩
      · exact hall x y z (hsub.trans (List.sublist_cons_self ..))
      · obtain ⟨rfl, rfl⟩ := List.cons.inj heq
        exact .inl (hmin z (List.mem_cons_of_mem _ (hsub.subset (by simp))))
    · obtain ⟨rfl, rfl⟩ := List.cons.inj heq
      rcases List.sublist_cons_iff.1 hsub with hsub | ⟨_, heq, hsub⟩
      · exact hall x y z (.cons_cons _ hsub)
      · obtain ⟨rfl, rfl⟩ := List.cons.inj heq
        exact .inr (hmin z (List.mem_cons_of_mem _ (hsub.subset (by simp))))

theorem nearlySorted_keep (h : swapNeeded cur next = false) :
    NearlySorted (cur :: next :: rest) ↔
      (∀ z ∈ next :: rest, MayPrecede cur z) ∧ NearlySorted (next :: rest) := by
  have hkeep : MayPrecede cur next := h
  constructor
  · intro hall
    refine ⟨fun z hz => ?_, fun x y z hsub => hall x y z (hsub.trans (List.sublist_cons_self ..))⟩
    rcases List.mem_cons.1 hz with rfl | hz
    · exact hkeep
    · rcases hall cur next z (.cons_cons _ (.cons_cons _ (List.singleton_sublist.2 hz))) with hc | hn
      · exact hc
      · exact hkeep.trans hn
  · rintro ⟨hmin, hall⟩ x y z hsub
    rcases List.sublist_cons_iff.1 hsub with hsub | ⟨_, heq, hsub⟩
    · exact hall x y z hsub
    · obtain ⟨rfl, rfl⟩ := List.cons.inj heq
      exact .inl (hmin z (hsub.subset (by simp)))

/-- One pass of the bubble sort sorts what is nearly sorted, and nothing else. -/
theorem sortFrom_sorted_iff : (sortFrom cur queue).Pairwise MayPrecede ↔
    NearlySorted (cur :: queue) := by
  induction queue generalizing cur with
  | nil =>
      refine iff_of_true (List.pairwise_singleton ..) fun x y z hsub => ?_
      exact absurd hsub.length_le (by simp)
  | cons next rest ih =>
      rw [sortFrom]
      split
      · next hswap =>
          rw [List.pairwise_cons, ih, nearlySorted_swap hswap]
          exact and_congr_left fun _ =>
            forall_congr' fun z => imp_congr_left (sortFrom_perm cur rest).mem_iff
      · next hkeep =>
          have hkeep : swapNeeded cur next = false := by simpa using hkeep
          rw [List.pairwise_cons, ih, nearlySorted_keep hkeep]
          exact and_congr_left fun _ =>
            forall_congr' fun z => imp_congr_left (sortFrom_perm next rest).mem_iff

theorem sortReadyQueue_sorted : (sortReadyQueue queue).Pairwise MayPrecede ↔
    NearlySorted queue := by
  cases queue with
  | nil =>
      refine iff_of_true List.Pairwise.nil fun x y z hsub => ?_
      exact absurd hsub.length_le (by simp)
  | cons head rest => exact sortFrom_sorted_iff

end Order

/-! ## The loops -/

section Loops

variable {q : QueueNodes} {a b l : List Nat} {cur n : Nat} {sorted : Bool}

/-- The inner loop does on the nodes what `sortFrom` does on the processes. -/
theorem sortPass_spec : ∀ {n : Nat} {q : QueueNodes} {a : List Nat} {cur : Nat} {sorted : Bool},
    q.Holds (a ++ cur :: b) → (a ++ cur :: b).length + b.length + 1 < n →
    ∃ q' last sorted' l, QueueNodes.sortPass n q cur sorted = some (q', last, sorted') ∧
      q'.Holds (a ++ l) ∧ l.Perm (cur :: b) ∧ l.map q.pcb = sortFrom (q.pcb cur) (b.map q.pcb) ∧
      q'.next last = none ∧ q'.pcb = q.pcb := by
  induction b with
  | nil =>
      intro n q a cur sorted h hn
      obtain ⟨m, rfl⟩ : ∃ m, n = m + 1 := ⟨n - 1, by omega⟩
      obtain ⟨-, -, -, hlast⟩ := chain_append.1 h.chain
      have hlast : q.next cur = none := hlast
      refine ⟨q, cur, sorted, [cur], ?_, h, .refl _, rfl, hlast, rfl⟩
      rw [QueueNodes.sortPass, hlast]
  | cons next b ih =>
      intro n q a cur sorted h hn
      obtain ⟨m, rfl⟩ : ∃ m, n = m + 1 := ⟨n - 1, by omega⟩
      obtain ⟨-, -, -, hnext, -⟩ := chain_append.1 h.chain
      have hneed : q.swapNeeded cur = swapNeeded (q.pcb cur) (q.pcb next) := by
        rw [QueueNodes.swapNeeded, hnext]
      rw [QueueNodes.sortPass, hnext]
      dsimp only
      rw [hneed, List.map_cons, sortFrom]
      simp only [List.length_append, List.length_cons] at hn
      split
      · obtain ⟨r, hr, hholds, hpcb⟩ := h.swap (n := m)
          (by simp only [List.length_append, List.length_cons]; omega)
        rw [hr, Option.bind_some]
        have hcons : a ++ next :: cur :: b = (a ++ [next]) ++ cur :: b := by simp
        rw [hcons] at hholds
        obtain ⟨q', last, sorted', l, heq, hl, hperm, hmap, hlast, hpcb'⟩ := ih hholds
          (n := m)
          (by simp only [List.length_append, List.length_cons, List.length_nil]; omega)
        refine ⟨q', last, sorted', next :: l, heq, ?_, ?_, ?_, hlast, hpcb'.trans hpcb⟩
        · rw [List.append_assoc] at hl
          exact hl
        · exact (hperm.cons next).trans (.swap ..)
        · rw [hpcb] at hmap
          rw [List.map_cons, hmap]
      · have hcons : a ++ cur :: next :: b = (a ++ [cur]) ++ next :: b := by simp
        rw [hcons] at h
        obtain ⟨q', last, sorted', l, heq, hl, hperm, hmap, hlast, hpcb⟩ := ih h
          (n := m)
          (by simp only [List.length_append, List.length_cons, List.length_nil]; omega)
        refine ⟨q', last, sorted', cur :: l, heq, ?_, hperm.cons cur, ?_, hlast, hpcb⟩
        · rw [List.append_assoc] at hl
          exact hl
        · rw [List.map_cons, hmap]

/-- `sort_ready_queue` ends, and does on the nodes what one pass does on the
processes. -/
theorem QueueNodes.Holds.sort (h : q.Holds l) (hn : 2 * l.length + 4 < n) :
    ∃ q' l', q.sortReadyQueue n = some q' ∧ q'.Holds l' ∧ l'.Perm l ∧ q'.pcb = q.pcb ∧
      l'.map q.pcb = SimpleShell.A2.sortReadyQueue (l.map q.pcb) := by
  cases l with
  | nil =>
      have hhead : q.head = none := h.chain
      refine ⟨q, [], ?_, h, .refl _, rfl, rfl⟩
      rw [QueueNodes.sortReadyQueue, hhead]
  | cons head l =>
      have hhead : q.head = some head := h.chain.1
      obtain ⟨m, rfl⟩ : ∃ m, n = m + 2 := ⟨n - 2, by omega⟩
      simp only [List.length_cons] at hn
      obtain ⟨q', last, sorted, l', heq, hholds, hperm, hmap, hlast, hpcb⟩ :=
        sortPass_spec (n := m + 1) (a := []) h
          (by simp only [List.nil_append, List.length_cons]; omega)
      refine ⟨q', l', ?_, hholds, hperm, hpcb, hmap⟩
      rw [QueueNodes.sortReadyQueue, hhead]
      dsimp only
      rw [QueueNodes.sortPasses, heq, Option.bind_some]
      dsimp only
      split
      · rfl
      · obtain ⟨i, rfl⟩ : ∃ i, m = i + 1 := ⟨m - 1, by omega⟩
        rw [QueueNodes.sortPasses, QueueNodes.sortPass, hlast]
        rfl

theorem chain_pairwise_iff {start : Option Nat} (h : Chain q.next start l none) :
    (∀ p ∈ l, q.swapNeeded p = false) ↔ (l.map q.pcb).Pairwise MayPrecede := by
  induction l generalizing start with
  | nil => exact iff_of_true (fun p hp => absurd hp List.not_mem_nil) .nil
  | cons p l ih =>
      obtain ⟨-, hrest⟩ := h
      rw [List.forall_mem_cons, ih hrest, List.map_cons, List.pairwise_cons]
      refine and_congr_left fun hsorted => ?_
      cases l with
      | nil =>
          have hlast : q.next p = none := hrest
          rw [QueueNodes.swapNeeded, hlast]
          exact iff_of_true rfl fun z hz => absurd hz List.not_mem_nil
      | cons r l =>
          rw [QueueNodes.swapNeeded, hrest.1, List.map_cons, List.forall_mem_cons]
          rw [List.map_cons, List.pairwise_cons] at hsorted
          constructor
          · intro hfirst
            have hfirst : MayPrecede (q.pcb p) (q.pcb r) := hfirst
            exact ⟨hfirst, fun z hz => hfirst.trans (hsorted.1 z hz)⟩
          · exact fun hall => hall.1

/-- `sort_ready_queue` always ends and keeps the nodes; it sorts them, so that the
first is one that no other precedes, exactly when they were nearly sorted. -/
theorem sortReadyQueue_sorts_iff (h : q.Holds l) (hn : 2 * l.length + 4 < n) :
    ∃ q' l', q.sortReadyQueue n = some q' ∧ q'.Holds l' ∧ l'.Perm l ∧ q'.pcb = q.pcb ∧
      ((∀ p ∈ l', q'.swapNeeded p = false) ∧
          (∀ p q'', q.readyQueuePopShortestJob n = some (some p, q'') →
            ∀ r ∈ l, MayPrecede (q.pcb p) (q.pcb r)) ↔
        NearlySorted (l.map q.pcb)) := by
  obtain ⟨q', l', heq, hholds, hperm, hpcb, hmap⟩ := h.sort hn
  refine ⟨q', l', heq, hholds, hperm, hpcb, ?_⟩
  rw [chain_pairwise_iff hholds.chain, hpcb, hmap, sortReadyQueue_sorted]
  refine and_iff_left_of_imp fun hnear p q'' hpop r hr => ?_
  rw [QueueNodes.readyQueuePopShortestJob, heq, Option.map_some, Option.some_inj] at hpop
  have hhead : q'.head = some p := congrArg Prod.fst hpop
  have hsorted := sortReadyQueue_sorted.2 hnear
  rw [← hmap] at hsorted
  cases l' with
  | nil => exact absurd (hperm.mem_iff.2 hr) List.not_mem_nil
  | cons x l' =>
      obtain rfl : x = p := Option.some.inj (hholds.chain.1.symm.trans hhead)
      rcases List.mem_cons.1 (hperm.mem_iff.2 hr) with rfl | hmem
      · exact mayPrecede_iff.2 (.inl ⟨rfl, Int.le_refl _⟩)
      · rw [List.map_cons, List.pairwise_cons] at hsorted
        exact hsorted.1 _ (List.mem_map_of_mem hmem)

/-- Three processes of 3, 2 and 1 lines. -/
def threeJobs : QueueNodes where
  head := some 0
  next := fun p => if p < 2 then some (p + 1) else none
  pcb := fun p => ⟨false, [], p, (0, 0), 3 - p, 0, 0, 0, []⟩

theorem threeJobs_holds : threeJobs.Holds [0, 1, 2] :=
  ⟨⟨rfl, rfl, rfl, rfl⟩, by decide⟩

theorem sortReadyQueue_sorts_iff_three :
    ∃ q' l', threeJobs.sortReadyQueue 20 = some q' ∧ q'.Holds l' ∧ l'.Perm [0, 1, 2] ∧
      q'.pcb = threeJobs.pcb ∧
      ((∀ p ∈ l', q'.swapNeeded p = false) ∧
          (∀ p q'', threeJobs.readyQueuePopShortestJob 20 = some (some p, q'') →
            ∀ r ∈ [0, 1, 2], MayPrecede (threeJobs.pcb p) (threeJobs.pcb r)) ↔
        NearlySorted ([0, 1, 2].map threeJobs.pcb)) :=
  sortReadyQueue_sorts_iff threeJobs_holds (by decide)

/-- They come out as 2, 1 and 3. -/
theorem sortReadyQueue_three : ∃ q', threeJobs.sortReadyQueue 20 = some q' ∧
    q'.head = some 1 ∧ q'.next 1 = some 2 ∧ q'.swapNeeded 1 = true :=
  ⟨_, rfl, rfl, rfl, rfl⟩

end Loops

end SimpleShell.A2
