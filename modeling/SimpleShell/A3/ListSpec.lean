import SimpleShell.A3.LinkedList

/-!
# The linked list is a sequence

`Represents` says what the nodes between the dummies are and what they hold. Every
operation changes it as the sequence operation changes the sequence, and touches no node
of another list.
-/

namespace SimpleShell.A3

open SimpleShell.Lib

variable {α : Type} {h h' : Heap (Node α)} {list : LinkedList α} {junk : Nat → Node α}
  {ps ps₁ ps₂ : List Nat} {xs xs₁ xs₂ : List α} {p q n : Nat} {x d : α}

/-- The chain of `list`, its dummies included. -/
abbrev LinkedList.chain (list : LinkedList α) (ps : List Nat) : List Nat :=
  list.dummyHead :: ps ++ [list.dummyTail]

structure Represents (h : Heap (Node α)) (list : LinkedList α) (ps : List Nat) (xs : List α) :
    Prop where
  size : list.size = ps.length
  nodup : (list.chain ps).Nodup
  live : ∀ p ∈ list.chain ps, (h.get? p).isSome
  linked : Linked (nextOf h) (prevOf h) (list.chain ps)
  data : ps.map (dataOf h) = xs.map some

/-! ## One store -/

/-- What a store through `p` changes. -/
structure Stored (h h' : Heap (Node α)) (p : Nat) : Prop where
  next : h'.next = h.next
  live : ∀ q, (h'.get? q).isSome = (h.get? q).isSome
  others : ∀ q, q ≠ p → h'.get? q = h.get? q

theorem storeAt_spec (f : Node α → Node α) {node : Node α} (hp : h.get? p = some node) :
    ∃ h', storeAt h p f = some h' ∧ Stored h h' p ∧ h'.get? p = some (f node) := by
  refine ⟨h.set p (f node), ?_, ⟨rfl, fun q => ?_, fun q hq => ?_⟩, ?_⟩
  · rw [storeAt, hp]
    rfl
  · rw [Heap.get?_set hp]
    split
    · next heq => rw [heq, hp]; rfl
    · rfl
  · rw [Heap.get?_set hp, if_neg hq]
  · rw [Heap.get?_set hp, if_pos rfl]

theorem Stored.update {β : Type} (hs : Stored h h' p) (f : Heap (Node α) → Nat → β)
    (hf : ∀ h h' : Heap (Node α), ∀ q, h'.get? q = h.get? q → f h' q = f h q) :
    f h' = Function.update (f h) p (f h' p) := by
  funext q
  by_cases hq : q = p
  · rw [hq, Function.update_self]
  · rw [Function.update_of_ne hq]
    exact hf h h' q (hs.others q hq)

theorem nextOf_congr (h h' : Heap (Node α)) (q : Nat) (hq : h'.get? q = h.get? q) :
    nextOf h' q = nextOf h q := by rw [nextOf, nextOf, hq]

theorem prevOf_congr (h h' : Heap (Node α)) (q : Nat) (hq : h'.get? q = h.get? q) :
    prevOf h' q = prevOf h q := by rw [prevOf, prevOf, hq]

theorem dataOf_congr (h h' : Heap (Node α)) (q : Nat) (hq : h'.get? q = h.get? q) :
    dataOf h' q = dataOf h q := by rw [dataOf, dataOf, hq]

theorem setNext_spec (q : Nat) (hp : (h.get? p).isSome) :
    ∃ h', setNext h p q = some h' ∧ Stored h h' p ∧
      nextOf h' = Function.update (nextOf h) p (some q) ∧ prevOf h' = prevOf h ∧
      dataOf h' = dataOf h := by
  obtain ⟨node, hnode⟩ := Option.isSome_iff_exists.1 hp
  obtain ⟨h', hstore, hstored, hget⟩ := storeAt_spec (fun node => { node with next := some q }) hnode
  refine ⟨h', hstore, hstored, ?_, ?_, ?_⟩
  · rw [hstored.update nextOf nextOf_congr, nextOf, hget]
    rfl
  · rw [hstored.update prevOf prevOf_congr, prevOf, hget]
    refine Function.update_eq_self_iff.2 ?_
    rw [prevOf, hnode]
    rfl
  · rw [hstored.update dataOf dataOf_congr, dataOf, hget]
    refine Function.update_eq_self_iff.2 ?_
    rw [dataOf, hnode]
    rfl

theorem setPrev_spec (q : Nat) (hp : (h.get? p).isSome) :
    ∃ h', setPrev h p q = some h' ∧ Stored h h' p ∧ nextOf h' = nextOf h ∧
      prevOf h' = Function.update (prevOf h) p (some q) ∧ dataOf h' = dataOf h := by
  obtain ⟨node, hnode⟩ := Option.isSome_iff_exists.1 hp
  obtain ⟨h', hstore, hstored, hget⟩ := storeAt_spec (fun node => { node with prev := some q }) hnode
  refine ⟨h', hstore, hstored, ?_, ?_, ?_⟩
  · rw [hstored.update nextOf nextOf_congr, nextOf, hget]
    refine Function.update_eq_self_iff.2 ?_
    rw [nextOf, hnode]
    rfl
  · rw [hstored.update prevOf prevOf_congr, prevOf, hget]
    rfl
  · rw [hstored.update dataOf dataOf_congr, dataOf, hget]
    refine Function.update_eq_self_iff.2 ?_
    rw [dataOf, hnode]
    rfl

/-! ## A new node -/

/-- After `malloc` and the store of the data. -/
theorem newNode_spec (h : Heap (Node α)) (junk : Nat → Node α) (d : α) :
    ∃ h', storeAt (h.alloc (junk h.next)).2 h.next (fun node => { node with data := d }) =
        some h' ∧ (h'.get? h.next).isSome ∧ dataOf h' h.next = some d ∧
      (∀ q, q ≠ h.next → h'.get? q = h.get? q) ∧ h'.next = h.next + 1 := by
  have hget : (h.alloc (junk h.next)).2.get? h.next = some (junk h.next) := by
    rw [Heap.get?_alloc, if_pos rfl]
  obtain ⟨h', hstore, hstored, hnew⟩ := storeAt_spec (fun node => { node with data := d }) hget
  refine ⟨h', hstore, by rw [hnew]; rfl, by rw [dataOf, hnew]; rfl, fun q hq => ?_, hstored.next⟩
  rw [hstored.others q hq, Heap.get?_alloc, if_neg hq]

/-- The links of the new node `n` between `a` and `b`, in whatever order they were stored. -/
structure LinkedIn (h h' : Heap (Node α)) (a n b : Nat) : Prop where
  forward : nextOf h' a = some n ∧ nextOf h' n = some b
  backward : prevOf h' n = some a ∧ prevOf h' b = some n
  next : ∀ q, q ≠ a → q ≠ n → nextOf h' q = nextOf h q
  prev : ∀ q, q ≠ b → q ≠ n → prevOf h' q = prevOf h q
  data : ∀ q, q ≠ n → dataOf h' q = dataOf h q
  live : ∀ q, (h.get? q).isSome → (h'.get? q).isSome
  others : ∀ q, q ≠ a → q ≠ b → q ≠ n → h'.get? q = h.get? q

theorem chain_split {l r : List Nat} {a b : Nat} (ha : list.dummyHead :: ps₁ = l ++ [a])
    (hb : ps₂ ++ [list.dummyTail] = b :: r) : list.chain (ps₁ ++ ps₂) = l ++ a :: b :: r := by
  rw [LinkedList.chain, ← List.cons_append, ha, List.append_assoc, hb, List.append_assoc]
  rfl

theorem chain_insert {l r : List Nat} {a b : Nat} (ha : list.dummyHead :: ps₁ = l ++ [a])
    (hb : ps₂ ++ [list.dummyTail] = b :: r) :
    list.chain (ps₁ ++ n :: ps₂) = l ++ a :: n :: b :: r := by
  rw [LinkedList.chain, ← List.cons_append, ha, List.append_assoc, List.cons_append, hb,
    List.append_assoc]
  rfl

theorem Represents.insert {l r : List Nat} {a b : Nat}
    (hr : Represents h list (ps₁ ++ ps₂) (xs₁ ++ xs₂)) (hlen : ps₁.length = xs₁.length) (ha : list.dummyHead :: ps₁ = l ++ [a])
    (hb : ps₂ ++ [list.dummyTail] = b :: r) (hfresh : h.get? n = none)
    (hn : (h'.get? n).isSome) (hd : dataOf h' n = some d) (hin : LinkedIn h h' a n b) :
    Represents h' { list with size := list.size + 1 } (ps₁ ++ n :: ps₂) (xs₁ ++ d :: xs₂) := by
  have hsplit := chain_split ha hb
  have hchain : { list with size := list.size + 1 }.chain (ps₁ ++ n :: ps₂) =
      l ++ a :: n :: b :: r := chain_insert ha hb
  have hnew : n ∉ list.chain (ps₁ ++ ps₂) := by
    intro hmem
    have hlive := hr.live n hmem
    rw [hfresh] at hlive
    cases hlive
  have hdata := hr.data
  rw [List.map_append, List.map_append] at hdata
  obtain ⟨hdata₁, hdata₂⟩ := List.append_inj hdata (by simpa using hlen)
  have hkeep : ∀ ps' : List Nat, (∀ q ∈ ps', q ∈ list.chain (ps₁ ++ ps₂)) →
      ps'.map (dataOf h') = ps'.map (dataOf h) := by
    intro ps' hsub
    refine List.map_congr_left fun q hq => hin.data q ?_
    rintro rfl
    exact hnew (hsub q hq)
  have hnodup := hr.nodup
  have hlinked := hr.linked
  rw [hsplit] at hnodup hlinked hnew
  have hperm : (l ++ a :: n :: b :: r).Perm (n :: (l ++ a :: b :: r)) := by
    rw [← List.singleton_append (l := n :: b :: r), ← List.append_assoc]
    refine List.perm_middle.trans ?_
    rw [List.append_assoc]
    exact List.Perm.refl _
  refine ⟨?_, ?_, ?_, ?_, ?_⟩
  · change list.size + 1 = _
    rw [hr.size, List.length_append, List.length_append, List.length_cons]
    omega
  · rw [hchain]
    exact hperm.nodup_iff.2 (List.nodup_cons.2 ⟨hnew, hnodup⟩)
  · rw [hchain]
    intro q hq
    rcases List.mem_cons.1 (hperm.mem_iff.1 hq) with rfl | hq
    · exact hn
    · rw [← hsplit] at hq
      exact hin.live q (hr.live q hq)
  · rw [hchain]
    exact hlinked.insert hnodup hnew hin.next hin.prev hin.forward.1
      ⟨hin.forward.2, hin.backward.1⟩ hin.backward.2
  · rw [List.map_append, List.map_cons, List.map_append, List.map_cons, hd, ← hdata₁, ← hdata₂,
      hkeep ps₁ (fun q hq => by simp [hq]), hkeep ps₂ (fun q hq => by simp [hq])]

theorem Represents.fresh (hr : Represents h list ps xs) : h.next ∉ list.chain ps := by
  intro hmem
  obtain ⟨node, hnode⟩ := Option.isSome_iff_exists.1 (hr.live _ hmem)
  exact absurd (Heap.lt_next_of_get? hnode) (Nat.lt_irrefl _)

theorem exists_last (list : LinkedList α) (ps : List Nat) :
    ∃ l a, list.dummyHead :: ps = l ++ [a] :=
  ⟨_, _, (List.dropLast_append_getLast (List.cons_ne_nil _ _)).symm⟩

theorem exists_first (list : LinkedList α) (ps : List Nat) :
    ∃ b r, ps ++ [list.dummyTail] = b :: r := by
  cases ps with
  | nil => exact ⟨_, _, rfl⟩
  | cons b r => exact ⟨b, r ++ [list.dummyTail], rfl⟩

/-- Two neighbours of the chain. -/
structure Neighbours (h : Heap (Node α)) (list : LinkedList α) (ps : List Nat) (a b : Nat) :
    Prop where
  left : a ∈ list.chain ps
  right : b ∈ list.chain ps
  ne : a ≠ b
  forward : nextOf h a = some b
  backward : prevOf h b = some a

theorem Represents.neighbours {l r : List Nat} {a b : Nat} (hr : Represents h list ps xs)
    (hsplit : list.chain ps = l ++ a :: b :: r) : Neighbours h list ps a b := by
  have hnodup := hr.nodup
  have hlinked := hr.linked
  rw [hsplit] at hnodup hlinked
  have hlink := (linked_append.1 hlinked).2.1
  refine ⟨?_, ?_, (ne_of_nodup hnodup).2.1, hlink.1, hlink.2⟩ <;> rw [hsplit] <;> simp

section Links

variable {h₁ h₅ : Heap (Node α)} {a b : Nat}

theorem linkedIn_of_stores (hna : n ≠ a) (hnb : n ≠ b) (hn : (h₁.get? n).isSome)
    (hold : ∀ q, q ≠ n → h₁.get? q = h.get? q)
    (hnext : nextOf h₅ = Function.update (Function.update (nextOf h₁) a (some n)) n (some b))
    (hprev : prevOf h₅ = Function.update (Function.update (prevOf h₁) n (some a)) b (some n))
    (hdata : dataOf h₅ = dataOf h₁) (hlive : ∀ q, (h₅.get? q).isSome = (h₁.get? q).isSome)
    (hothers : ∀ q, q ≠ a → q ≠ b → q ≠ n → h₅.get? q = h₁.get? q) : LinkedIn h h₅ a n b := by
  refine ⟨⟨?_, ?_⟩, ⟨?_, ?_⟩, ?_, ?_, ?_, ?_, ?_⟩
  · rw [hnext, Function.update_of_ne hna.symm, Function.update_self]
  · rw [hnext, Function.update_self]
  · rw [hprev, Function.update_of_ne hnb, Function.update_self]
  · rw [hprev, Function.update_self]
  · intro q hqa hqn
    rw [hnext, Function.update_of_ne hqn, Function.update_of_ne hqa]
    exact nextOf_congr _ _ q (hold q hqn)
  · intro q hqb hqn
    rw [hprev, Function.update_of_ne hqb, Function.update_of_ne hqn]
    exact prevOf_congr _ _ q (hold q hqn)
  · intro q hqn
    rw [hdata]
    exact dataOf_congr _ _ q (hold q hqn)
  · intro q hq
    rw [hlive]
    by_cases hqn : q = n
    · rw [hqn]; exact hn
    · rw [hold q hqn]; exact hq
  · intro q hqa hqb hqn
    rw [hothers q hqa hqb hqn, hold q hqn]

/-- The four links as `add_tail` stores them. -/
theorem linkTail_spec (hna : n ≠ a) (hnb : n ≠ b) (ha : (h₁.get? a).isSome)
    (hb : (h₁.get? b).isSome) (hn : (h₁.get? n).isSome)
    (hold : ∀ q, q ≠ n → h₁.get? q = h.get? q) :
    ∃ h₅, (do
        let h₂ ← setNext h₁ a n
        let h₃ ← setPrev h₂ n a
        let h₄ ← setNext h₃ n b
        setPrev h₄ b n) = some h₅ ∧ LinkedIn h h₅ a n b ∧ (h₅.get? n).isSome ∧
      dataOf h₅ n = dataOf h₁ n := by
  obtain ⟨h₂, hset₂, hs₂, hnext₂, hprev₂, hdata₂⟩ := setNext_spec n ha
  obtain ⟨h₃, hset₃, hs₃, hnext₃, hprev₃, hdata₃⟩ :=
    @setPrev_spec _ h₂ n a (by rw [hs₂.live]; exact hn)
  obtain ⟨h₄, hset₄, hs₄, hnext₄, hprev₄, hdata₄⟩ :=
    @setNext_spec _ h₃ n b (by rw [hs₃.live, hs₂.live]; exact hn)
  obtain ⟨h₅, hset₅, hs₅, hnext₅, hprev₅, hdata₅⟩ :=
    @setPrev_spec _ h₄ b n (by rw [hs₄.live, hs₃.live, hs₂.live]; exact hb)
  have hdata : dataOf h₅ = dataOf h₁ := by rw [hdata₅, hdata₄, hdata₃, hdata₂]
  have hlive : ∀ q, (h₅.get? q).isSome = (h₁.get? q).isSome := by
    intro q
    rw [hs₅.live, hs₄.live, hs₃.live, hs₂.live]
  refine ⟨h₅, ?_, ?_, by rw [hlive]; exact hn, by rw [hdata]⟩
  · simp only [Option.bind_eq_bind, hset₂, hset₃, hset₄, hset₅, Option.bind_some]
  · refine linkedIn_of_stores hna hnb hn hold ?_ ?_ hdata hlive ?_
    · rw [hnext₅, hnext₄, hnext₃, hnext₂]
    · rw [hprev₅, hprev₄, hprev₃, hprev₂]
    · intro q hqa hqb hqn
      rw [hs₅.others q hqb, hs₄.others q hqn, hs₃.others q hqn, hs₂.others q hqa]

/-- The four links as `add_head` stores them. -/
theorem linkHead_spec (hna : n ≠ a) (hnb : n ≠ b) (ha : (h₁.get? a).isSome)
    (hb : (h₁.get? b).isSome) (hn : (h₁.get? n).isSome)
    (hold : ∀ q, q ≠ n → h₁.get? q = h.get? q) :
    ∃ h₅, (do
        let h₂ ← setPrev h₁ b n
        let h₃ ← setNext h₂ n b
        let h₄ ← setPrev h₃ n a
        setNext h₄ a n) = some h₅ ∧ LinkedIn h h₅ a n b ∧ (h₅.get? n).isSome ∧
      dataOf h₅ n = dataOf h₁ n := by
  obtain ⟨h₂, hset₂, hs₂, hnext₂, hprev₂, hdata₂⟩ := setPrev_spec n hb
  obtain ⟨h₃, hset₃, hs₃, hnext₃, hprev₃, hdata₃⟩ :=
    @setNext_spec _ h₂ n b (by rw [hs₂.live]; exact hn)
  obtain ⟨h₄, hset₄, hs₄, hnext₄, hprev₄, hdata₄⟩ :=
    @setPrev_spec _ h₃ n a (by rw [hs₃.live, hs₂.live]; exact hn)
  obtain ⟨h₅, hset₅, hs₅, hnext₅, hprev₅, hdata₅⟩ :=
    @setNext_spec _ h₄ a n (by rw [hs₄.live, hs₃.live, hs₂.live]; exact ha)
  have hdata : dataOf h₅ = dataOf h₁ := by rw [hdata₅, hdata₄, hdata₃, hdata₂]
  have hlive : ∀ q, (h₅.get? q).isSome = (h₁.get? q).isSome := by
    intro q
    rw [hs₅.live, hs₄.live, hs₃.live, hs₂.live]
  refine ⟨h₅, ?_, ?_, by rw [hlive]; exact hn, by rw [hdata]⟩
  · simp only [Option.bind_eq_bind, hset₂, hset₃, hset₄, hset₅, Option.bind_some]
  · refine linkedIn_of_stores hna hnb hn hold ?_ ?_ hdata hlive ?_
    · rw [hnext₅, hnext₄, hnext₃, hnext₂, Function.update_comm hna]
    · rw [hprev₅, hprev₄, hprev₃, hprev₂, Function.update_comm hnb]
    · intro q hqa hqb hqn
      rw [hs₅.others q hqa, hs₄.others q hqn, hs₃.others q hqn, hs₂.others q hqb]

end Links

/-! ## The operations on a chain -/

/-- Nodes that are not in the chain, a new one apart, stay as they were. -/
def Frame (h h' : Heap (Node α)) (chain : List Nat) : Prop :=
  ∀ q, q ∉ chain → q < h.next → h'.get? q = h.get? q

theorem LinkedIn.frame {a b : Nat} (hin : LinkedIn h h' a h.next b)
    (hab : Neighbours h list ps a b) : Frame h h' (list.chain ps) := by
  intro q hq hlt
  exact hin.others q (ne_of_mem_of_not_mem hab.left hq).symm
    (ne_of_mem_of_not_mem hab.right hq).symm (Nat.ne_of_lt hlt)

theorem Represents.length (hr : Represents h list ps xs) : ps.length = xs.length := by
  have hdata := congrArg List.length hr.data
  rwa [List.length_map, List.length_map] at hdata

theorem addTail_spec (hr : Represents h list ps xs) (junk : Nat → Node α) (d : α) :
    ∃ h', addTail h junk d list = some (h', { list with size := list.size + 1 }) ∧
      Represents h' { list with size := list.size + 1 } (ps ++ [h.next]) (xs ++ [d]) ∧
      Frame h h' (list.chain ps) := by
  obtain ⟨l, a, ha⟩ := exists_last list ps
  have hr' : Represents h list (ps ++ []) (xs ++ []) := by rwa [List.append_nil, List.append_nil]
  have hab := hr'.neighbours (chain_split ha rfl)
  have hna := (ne_of_mem_of_not_mem hab.left hr'.fresh).symm
  have hnb := (ne_of_mem_of_not_mem hab.right hr'.fresh).symm
  obtain ⟨h₁, hmake, hn, hd, hold, -⟩ := newNode_spec h junk d
  have hread : prevOf (h.alloc (junk h.next)).2 list.dummyTail = some a := by
    rw [← hab.backward, prevOf, prevOf, Heap.get?_alloc, if_neg hnb.symm]
  obtain ⟨h₅, hlinks, hin, hlive, hdata⟩ := linkTail_spec hna hnb
    (by rw [hold a hna.symm]; exact hr'.live a hab.left)
    (by rw [hold _ hnb.symm]; exact hr'.live _ hab.right) hn hold
  refine ⟨h₅, ?_, ?_, ?_⟩
  · simp only [Option.bind_eq_bind, Option.bind_eq_some_iff] at hlinks
    obtain ⟨h₂, hset₂, h₃, hset₃, h₄, hset₄, hset₅⟩ := hlinks
    have hnew : (h.alloc (junk h.next)).1 = h.next := rfl
    simp only [addTail, Option.bind_eq_bind, hread, hnew, hmake, Option.bind_some, hset₂, hset₃,
      hset₄, hset₅]
    rfl
  · have hfresh : h.get? h.next = none := h.fresh h.next (Nat.le_refl _)
    exact hr'.insert hr.length ha rfl hfresh hlive (hdata.trans hd) hin
  · have hframe := hin.frame hab
    rwa [List.append_nil] at hframe

theorem addHead_spec (hr : Represents h list ps xs) (junk : Nat → Node α) (d : α) :
    ∃ h', addHead h junk d list = some (h', { list with size := list.size + 1 }) ∧
      Represents h' { list with size := list.size + 1 } (h.next :: ps) (d :: xs) ∧
      Frame h h' (list.chain ps) := by
  obtain ⟨b, r, hb⟩ := exists_first list ps
  have hsplit : list.chain ([] ++ ps) = [] ++ list.dummyHead :: b :: r := chain_split rfl hb
  have hab := hr.neighbours hsplit
  have hna := (ne_of_mem_of_not_mem hab.left hr.fresh).symm
  have hnb := (ne_of_mem_of_not_mem hab.right hr.fresh).symm
  obtain ⟨h₁, hmake, hn, hd, hold, -⟩ := newNode_spec h junk d
  have hread : nextOf (h.alloc (junk h.next)).2 list.dummyHead = some b := by
    rw [← hab.forward, nextOf, nextOf, Heap.get?_alloc, if_neg hna.symm]
  obtain ⟨h₅, hlinks, hin, hlive, hdata⟩ := linkHead_spec hna hnb
    (by rw [hold _ hna.symm]; exact hr.live _ hab.left)
    (by rw [hold b hnb.symm]; exact hr.live b hab.right) hn hold
  refine ⟨h₅, ?_, ?_, hin.frame hab⟩
  · simp only [Option.bind_eq_bind, Option.bind_eq_some_iff] at hlinks
    obtain ⟨h₂, hset₂, h₃, hset₃, h₄, hset₄, hset₅⟩ := hlinks
    have hnew : (h.alloc (junk h.next)).1 = h.next := rfl
    simp only [addHead, Option.bind_eq_bind, hread, hnew, hmake, Option.bind_some, hset₂, hset₃,
      hset₄, hset₅]
    rfl
  · have hfresh : h.get? h.next = none := h.fresh h.next (Nat.le_refl _)
    have hr' : Represents h list ([] ++ ps) ([] ++ xs) := hr
    have ha : [list.dummyHead] = [] ++ [list.dummyHead] := rfl
    exact hr'.insert rfl ha hb hfresh hlive (hdata.trans hd) hin

theorem unlinkNode_spec (hr : Represents h list (ps₁ ++ n :: ps₂) (xs₁ ++ x :: xs₂))
    (hlen : ps₁.length = xs₁.length) :
    ∃ h', unlinkNode h n list = some (x, h', { list with size := list.size - 1 }) ∧
      Represents h' { list with size := list.size - 1 } (ps₁ ++ ps₂) (xs₁ ++ xs₂) ∧
      Frame h h' (list.chain (ps₁ ++ n :: ps₂)) := by
  obtain ⟨l, a, ha⟩ := exists_last list ps₁
  obtain ⟨b, r, hb⟩ := exists_first list ps₂
  have hsplit := chain_insert (n := n) ha hb
  have han := hr.neighbours hsplit
  have hnb := hr.neighbours (l := l ++ [a]) (by rw [hsplit, List.append_assoc]; rfl)
  have hnodup := hr.nodup
  have hlinked := hr.linked
  rw [hsplit] at hnodup hlinked
  obtain ⟨h₁, hset₁, hs₁, hnext₁, hprev₁, hdata₁⟩ := setNext_spec b (hr.live a han.left)
  obtain ⟨h₂, hset₂, hs₂, hnext₂, hprev₂, hdata₂⟩ :=
    @setPrev_spec _ h₁ b a (by rw [hs₁.live]; exact hr.live b hnb.right)
  have hdata : dataOf h₂ = dataOf h := hdata₂.trans hdata₁
  have hmap := hr.data
  rw [List.map_append, List.map_append, List.map_cons, List.map_cons] at hmap
  obtain ⟨hmap₁, hmap₂⟩ := List.append_inj hmap (by simpa using hlen)
  obtain ⟨hx, hmap₂⟩ := List.cons.inj hmap₂
  have hchain : { list with size := list.size - 1 }.chain (ps₁ ++ ps₂) = l ++ a :: b :: r :=
    chain_split ha hb
  have hsub : (l ++ a :: b :: r).Sublist (l ++ a :: n :: b :: r) :=
    (List.Sublist.refl l).append ((List.sublist_cons_self n (b :: r)).cons_cons a)
  refine ⟨h₂, ?_, ⟨?_, ?_, ?_, ?_, ?_⟩, ?_⟩
  · have hagain : nextOf h₁ n = some b := by
      rw [hnext₁, Function.update_of_ne han.ne.symm, hnb.forward]
    simp only [unlinkNode, Option.bind_eq_bind, han.backward, hnb.forward, Option.bind_some, hset₁,
      hagain, hprev₁, hset₂, hdata, hx]
    rfl
  · change list.size - 1 = _
    rw [hr.size, List.length_append, List.length_append, List.length_cons]
    omega
  · rw [hchain]
    exact hnodup.sublist hsub
  · rw [hchain]
    intro q hq
    rw [hs₂.live, hs₁.live]
    exact hr.live q (hsplit ▸ hsub.subset hq)
  · rw [hchain]
    refine hlinked.remove hnodup ?_ ?_ ?_ ?_
    · intro q hq
      rw [hnext₂, hnext₁, Function.update_of_ne hq]
    · intro q hq
      rw [hprev₂, hprev₁, Function.update_of_ne hq]
    · rw [hnext₂, hnext₁, Function.update_self]
    · rw [hprev₂, Function.update_self]
  · rw [hdata, List.map_append, List.map_append, hmap₁, hmap₂]
  · intro q hq _
    rw [hs₂.others q (ne_of_mem_of_not_mem hnb.right hq).symm,
      hs₁.others q (ne_of_mem_of_not_mem han.left hq).symm]

theorem Represents.size_pos (hr : Represents h list (p :: ps) xs) : ¬list.size ≤ 0 := by
  rw [hr.size, List.length_cons]
  omega

theorem popHead_spec (hr : Represents h list ps (x :: xs)) :
    ∃ ps' h', popHead h list = some (x, h', { list with size := list.size - 1 }) ∧
      Represents h' { list with size := list.size - 1 } ps' xs ∧ Frame h h' (list.chain ps) := by
  cases ps with
  | nil => cases hr.length
  | cons n ps =>
      have hr' : Represents h list ([] ++ n :: ps) ([] ++ x :: xs) := hr
      obtain ⟨h', hunlink, hrest, hframe⟩ := unlinkNode_spec hr' rfl
      have hhead := (linked_cons_cons.1 hr.linked).1.1
      refine ⟨ps, h', ?_, hrest, hframe⟩
      rw [popHead, if_neg hr.size_pos, hhead]
      exact hunlink

theorem popTail_spec (hr : Represents h list ps (xs ++ [x])) :
    ∃ ps' h', popTail h list = some (x, h', { list with size := list.size - 1 }) ∧
      Represents h' { list with size := list.size - 1 } ps' xs ∧ Frame h h' (list.chain ps) := by
  have hlen := hr.length
  rw [List.length_append, List.length_singleton] at hlen
  have hne : ps ≠ [] := by
    rintro rfl
    simp at hlen
  obtain ⟨before, n, rfl⟩ : ∃ before n, ps = before ++ [n] :=
    ⟨_, _, (List.dropLast_append_getLast hne).symm⟩
  rw [List.length_append, List.length_singleton] at hlen
  obtain ⟨h', hunlink, hrest, hframe⟩ := unlinkNode_spec hr (by omega)
  rw [List.append_nil, List.append_nil] at hrest
  have hsplit : list.chain (before ++ [n]) =
      (list.dummyHead :: before) ++ n :: list.dummyTail :: [] := by
    rw [LinkedList.chain, List.cons_append, List.append_assoc]
    rfl
  refine ⟨before, h', ?_, hrest, hframe⟩
  have hsize : ¬list.size ≤ 0 := by
    rw [hr.size, List.length_append, List.length_singleton]
    omega
  rw [popTail, if_neg hsize, (hr.neighbours hsplit).backward]
  exact hunlink

/-- The loop goes past every element that is not equal to the target. -/
theorem findFrom_spec {equal : α → α → Bool} {target : α} {fuel : Nat} {before : List Nat}
    {r : List Nat} (hlinked : Linked (nextOf h) (prevOf h) (p :: before ++ n :: r))
    (hdata : before.map (dataOf h) = xs₁.map some) (hx : dataOf h n = some x)
    (hnone : ∀ y ∈ xs₁, ¬equal target y) (hfound : equal target x)
    (hfuel : before.length < fuel) :
    findFrom h equal target fuel (nextOf h p) = some (some n) := by
  induction before generalizing p fuel xs₁ with
  | nil =>
      obtain ⟨fuel, rfl⟩ : ∃ k, fuel = k + 1 := ⟨fuel - 1, by simp at hfuel; omega⟩
      obtain ⟨node, hnode, rfl⟩ := Option.map_eq_some_iff.1 hx
      rw [(linked_cons_cons.1 hlinked).1.1, findFrom, hnode]
      exact if_pos hfound
  | cons q before ih =>
      rw [List.length_cons] at hfuel
      obtain ⟨fuel, rfl⟩ : ∃ k, fuel = k + 1 := ⟨fuel - 1, by omega⟩
      cases xs₁ with
      | nil => cases hdata
      | cons y xs₁ =>
          obtain ⟨hy, hrest⟩ := List.cons.inj hdata
          obtain ⟨node, hnode, rfl⟩ := Option.map_eq_some_iff.1 hy
          rw [List.cons_append, List.cons_append, linked_cons_cons] at hlinked
          have hnext : nextOf h q = node.next := by rw [nextOf, hnode]; rfl
          rw [hlinked.1.1, findFrom, hnode]
          dsimp only
          rw [if_neg (hnone _ List.mem_cons_self), ← hnext]
          exact ih hlinked.2 hrest (fun y hy => hnone y (List.mem_cons_of_mem _ hy)) (by omega)

theorem Represents.length_lt (hr : Represents h list ps xs) : ps.length + 2 ≤ h.next := by
  have hle := length_le_of_nodup hr.nodup (k := h.next) fun q hq => by
    obtain ⟨node, hnode⟩ := Option.isSome_iff_exists.1 (hr.live q hq)
    exact Heap.lt_next_of_get? hnode
  simp only [List.length_cons, List.length_append, List.length_nil] at hle
  omega

theorem removeElem_spec (hr : Represents h list ps (xs₁ ++ x :: xs₂))
    (hnone : ∀ y ∈ xs₁, ¬list.equal d y) (hfound : list.equal d x) :
    ∃ ps' h', removeElem h d list = some (x, h', { list with size := list.size - 1 }) ∧
      Represents h' { list with size := list.size - 1 } ps' (xs₁ ++ xs₂) ∧
      Frame h h' (list.chain ps) := by
  have hmap := hr.data
  rw [List.map_append, List.map_cons] at hmap
  obtain ⟨ps₁, rest, rfl, hmap₁, hrest⟩ := List.map_eq_append_iff.1 hmap
  obtain ⟨n, ps₂, rfl, hx, -⟩ := List.map_eq_cons_iff.1 hrest
  have hlen : ps₁.length = xs₁.length := by simpa using congrArg List.length hmap₁
  obtain ⟨h', hunlink, hr', hframe⟩ := unlinkNode_spec hr hlen
  have hlinked : Linked (nextOf h) (prevOf h)
      (list.dummyHead :: ps₁ ++ n :: (ps₂ ++ [list.dummyTail])) := by
    have hchain := hr.linked
    rwa [LinkedList.chain, ← List.cons_append, List.append_assoc] at hchain
  have hfuel : ps₁.length < h.next := by
    have hlt := hr.length_lt
    rw [List.length_append] at hlt
    omega
  have hfind := findFrom_spec hlinked hmap₁ hx hnone hfound hfuel
  obtain ⟨head, hhead⟩ := Option.isSome_iff_exists.1 (hr.live list.dummyHead List.mem_cons_self)
  have hnext : nextOf h list.dummyHead = head.next := by rw [nextOf, hhead]; rfl
  refine ⟨_, h', ?_, hr', hframe⟩
  rw [hnext] at hfind
  simp only [removeElem, getNodeByValue, Option.bind_eq_bind, hhead, Option.bind_some, hfind]
  exact hunlink

theorem listClear_spec (hr : Represents h list ps xs) :
    ∃ h', listClear h list = some (h', { list with size := 0 }) ∧
      Represents h' { list with size := 0 } [] [] ∧ Frame h h' (list.chain ps) := by
  have hleft : list.dummyHead ∈ list.chain ps := List.mem_cons_self
  have hright : list.dummyTail ∈ list.chain ps := by simp
  obtain ⟨h₁, hset₁, hs₁, hnext₁, hprev₁, -⟩ := setNext_spec list.dummyTail (hr.live _ hleft)
  obtain ⟨h₂, hset₂, hs₂, hnext₂, hprev₂, -⟩ :=
    @setPrev_spec _ h₁ list.dummyTail list.dummyHead (by rw [hs₁.live]; exact hr.live _ hright)
  have hsub : ∀ q, q ∈ [list.dummyHead, list.dummyTail] → q ∈ list.chain ps := by
    intro q hq
    rcases List.mem_pair.1 hq with rfl | rfl
    · exact hleft
    · exact hright
  refine ⟨h₂, ?_, ⟨rfl, ?_, ?_, ?_, rfl⟩, ?_⟩
  · simp only [listClear, Option.bind_eq_bind, hset₁, hset₂, Option.bind_some]
    rfl
  · have hnodup := hr.nodup
    rw [LinkedList.chain, List.cons_append, List.nodup_cons] at hnodup
    refine List.nodup_cons.2 ⟨fun hmem => hnodup.1 ?_, List.nodup_singleton _⟩
    exact List.mem_append_right _ hmem
  · intro q hq
    rw [hs₂.live, hs₁.live]
    exact hr.live q (hsub q hq)
  · refine linked_pair.2 ⟨?_, ?_⟩
    · rw [hnext₂, hnext₁, Function.update_self]
    · rw [hprev₂, Function.update_self]
  · intro q hq _
    rw [hs₂.others q (ne_of_mem_of_not_mem hright hq).symm,
      hs₁.others q (ne_of_mem_of_not_mem hleft hq).symm]

theorem listInit_spec (h : Heap (Node α)) (junk : Nat → Node α) (equal : α → α → Bool) :
    ∃ h' list, listInit h junk equal = some (h', list) ∧ list.equal = equal ∧
      Represents h' list [] [] ∧ ∀ q, q < h.next → h'.get? q = h.get? q := by
  obtain ⟨h₁, hh₁⟩ : ∃ h₁, h₁ = (h.alloc (junk h.next)).2 := ⟨_, rfl⟩
  obtain ⟨h₂, hh₂⟩ : ∃ h₂, h₂ = (h₁.alloc (junk h₁.next)).2 := ⟨_, rfl⟩
  have hnext₁ : h₁.next = h.next + 1 := by rw [hh₁]; rfl
  have hne : h.next ≠ h₁.next := by omega
  have hget : ∀ q, h₂.get? q = if q = h₁.next then some (junk h₁.next)
      else if q = h.next then some (junk h.next) else h.get? q := by
    intro q
    rw [hh₂, Heap.get?_alloc, hh₁, Heap.get?_alloc]
  have htail : h₂.get? h₁.next = some (junk h₁.next) := by rw [hget, if_pos rfl]
  have hhead : (h₂.get? h.next).isSome := by
    rw [hget, if_neg hne, if_pos rfl]
    rfl
  obtain ⟨h₃, hset₃, hs₃, -⟩ := storeAt_spec (fun node => { node with next := none }) htail
  obtain ⟨h₄, hset₄, hs₄, hforward, -, -⟩ :=
    @setNext_spec _ h₃ h.next h₁.next (by rw [hs₃.live]; exact hhead)
  obtain ⟨h₅, hset₅, hs₅, hforward₅, hback, -⟩ :=
    @setPrev_spec _ h₄ h₁.next h.next (by rw [hs₄.live, hs₃.live, htail]; rfl)
  refine ⟨h₅, ⟨0, h.next, h₁.next, equal⟩, ?_, rfl, ⟨rfl, ?_, ?_, ?_, rfl⟩, ?_⟩
  · have hfirst : h.alloc (junk h.next) = (h.next, h₁) := by rw [hh₁]; rfl
    have hsecond : h₁.alloc (junk h₁.next) = (h₁.next, h₂) := by rw [hh₂]; rfl
    simp only [listInit, Option.bind_eq_bind, hfirst, hsecond, hset₃, hset₄, hset₅,
      Option.bind_some]
    rfl
  · exact List.nodup_cons.2 ⟨fun hmem => hne (List.mem_singleton.1 hmem), List.nodup_singleton _⟩
  · intro q hq
    rw [hs₅.live, hs₄.live, hs₃.live]
    rcases List.mem_pair.1 hq with rfl | rfl
    · exact hhead
    · rw [htail]
      rfl
  · refine linked_pair.2 ⟨?_, ?_⟩
    · rw [hforward₅, hforward, Function.update_self]
    · rw [hback, Function.update_self]
  · intro q hq
    rw [hs₅.others q (by omega), hs₄.others q (by omega), hs₃.others q (by omega), hget,
      if_neg (by omega), if_neg (by omega)]

/-! ## Runs -/

inductive Op (α : Type) where
  | addHead (data : α)
  | addTail (data : α)
  | popHead
  | popTail
  | removeElem (data : α)
  | listClear

/-- What the operation does to a sequence, and what it gives back: `none` where it is not
called, on no element or on a value equal to none. -/
def Op.onSequence (equal : α → α → Bool) : Op α → List α → Option (Option α × List α)
  | addHead d, xs => some (none, d :: xs)
  | addTail d, xs => some (none, xs ++ [d])
  | popHead, xs => xs.head?.map fun x => (some x, xs.tail)
  | popTail, xs => xs.getLast?.map fun x => (some x, xs.dropLast)
  | removeElem d, xs => (xs.find? (equal d)).map fun x => (some x, xs.eraseP (equal d))
  | listClear, _ => some (none, [])

def Op.onNodes (junk : Nat → Node α) :
    Op α → Heap (Node α) × LinkedList α → Option (Option α × Heap (Node α) × LinkedList α)
  | addHead d, s => (A3.addHead s.1 junk d s.2).map fun r => (none, r)
  | addTail d, s => (A3.addTail s.1 junk d s.2).map fun r => (none, r)
  | popHead, s => (A3.popHead s.1 s.2).map fun r => (some r.1, r.2)
  | popTail, s => (A3.popTail s.1 s.2).map fun r => (some r.1, r.2)
  | removeElem d, s => (A3.removeElem s.1 d s.2).map fun r => (some r.1, r.2)
  | listClear, s => (A3.listClear s.1 s.2).map fun r => (none, r)

/-- One operation after another, with all that they give back. -/
def runOps {σ : Type} (step : Op α → σ → Option (Option α × σ)) :
    List (Op α) → σ → Option (List (Option α) × σ)
  | [], s => some ([], s)
  | op :: ops, s => do
      let (ret, s) ← step op s
      let (rets, s) ← runOps step ops s
      pure (ret :: rets, s)

theorem Op.refines {equal : α → α → Bool} {op : Op α} {ret : Option α} {ys : List α}
    (hr : Represents h list ps xs) (hequal : list.equal = equal)
    (hop : op.onSequence equal xs = some (ret, ys)) (junk : Nat → Node α) :
    ∃ h' list' ps', op.onNodes junk (h, list) = some (ret, h', list') ∧
      Represents h' list' ps' ys ∧ list'.equal = equal ∧ Frame h h' (list.chain ps) := by
  cases op with
  | addHead d =>
      obtain ⟨rfl, rfl⟩ := Prod.mk.inj (Option.some.inj hop)
      obtain ⟨h', hrun, hr', hframe⟩ := addHead_spec hr junk d
      exact ⟨h', _, _, by rw [onNodes, hrun]; rfl, hr', hequal, hframe⟩
  | addTail d =>
      obtain ⟨rfl, rfl⟩ := Prod.mk.inj (Option.some.inj hop)
      obtain ⟨h', hrun, hr', hframe⟩ := addTail_spec hr junk d
      exact ⟨h', _, _, by rw [onNodes, hrun]; rfl, hr', hequal, hframe⟩
  | popHead =>
      obtain ⟨x, hx, heq⟩ := Option.map_eq_some_iff.1 hop
      obtain ⟨rfl, rfl⟩ := Prod.mk.inj heq
      obtain ⟨xs, rfl⟩ := List.head?_eq_some_iff.1 hx
      obtain ⟨ps', h', hrun, hr', hframe⟩ := popHead_spec hr
      exact ⟨h', _, ps', by rw [onNodes, hrun]; rfl, hr', hequal, hframe⟩
  | popTail =>
      obtain ⟨x, hx, heq⟩ := Option.map_eq_some_iff.1 hop
      obtain ⟨rfl, rfl⟩ := Prod.mk.inj heq
      obtain ⟨before, rfl⟩ := List.getLast?_eq_some_iff.1 hx
      obtain ⟨ps', h', hrun, hr', hframe⟩ := popTail_spec hr
      refine ⟨h', { list with size := list.size - 1 }, ps', by rw [onNodes, hrun]; rfl, ?_,
        hequal, hframe⟩
      rw [List.dropLast_concat]
      exact hr'
  | removeElem d =>
      obtain ⟨x, hx, heq⟩ := Option.map_eq_some_iff.1 hop
      obtain ⟨rfl, rfl⟩ := Prod.mk.inj heq
      obtain ⟨hfound, before, behind, rfl, hnone⟩ := List.find?_eq_some_iff_append.1 hx
      have hnone' : ∀ y ∈ before, ¬list.equal d y := by
        intro y hy
        have := hnone y hy
        rw [hequal]
        simpa using this
      obtain ⟨ps', h', hrun, hr', hframe⟩ := removeElem_spec hr hnone' (by rw [hequal]; exact hfound)
      refine ⟨h', { list with size := list.size - 1 }, ps', by rw [onNodes, hrun]; rfl, ?_,
        hequal, hframe⟩
      have herase : (before ++ x :: behind).eraseP (equal d) = before ++ behind := by
        rw [List.eraseP_append_right, List.eraseP_cons_of_pos hfound]
        intro y hy
        rw [← hequal]
        exact hnone' y hy
      rw [herase]
      exact hr'
  | listClear =>
      obtain ⟨rfl, rfl⟩ := Prod.mk.inj (Option.some.inj hop)
      obtain ⟨h', hrun, hr', hframe⟩ := listClear_spec hr
      exact ⟨h', _, _, by rw [onNodes, hrun]; rfl, hr', hequal, hframe⟩

theorem runOps_refines {equal : α → α → Bool} {rets : List (Option α)} {ys : List α}
    (ops : List (Op α)) (hr : Represents h list ps xs) (hequal : list.equal = equal)
    (hops : runOps (Op.onSequence equal) ops xs = some (rets, ys)) (junk : Nat → Node α) :
    ∃ h' list' ps', runOps (Op.onNodes junk) ops (h, list) = some (rets, h', list') ∧
      Represents h' list' ps' ys := by
  induction ops generalizing h list ps xs rets with
  | nil =>
      obtain ⟨rfl, rfl⟩ := Prod.mk.inj (Option.some.inj hops)
      exact ⟨h, list, ps, rfl, hr⟩
  | cons op ops ih =>
      simp only [runOps, Option.bind_eq_bind, Option.bind_eq_some_iff] at hops
      obtain ⟨⟨ret, zs⟩, hop, ⟨rets', ys'⟩, hrest, heq⟩ := hops
      obtain ⟨rfl, rfl⟩ := Prod.mk.inj (Option.some.inj heq)
      obtain ⟨h₁, list₁, ps₁, hstep, hr₁, hequal₁, -⟩ := Op.refines hr hequal hop junk
      obtain ⟨h', list', ps', hrun, hr'⟩ := ih hr₁ hequal₁ hrest
      refine ⟨h', list', ps', ?_, hr'⟩
      simp only [runOps, Option.bind_eq_bind, hstep, Option.bind_some, hrun]
      rfl

/-- A list of other nodes is the same after it. -/
theorem Represents.other {other : LinkedList α} {os : List Nat} {ys : List α}
    (ho : Represents h other os ys) (hapart : ∀ q ∈ other.chain os, q ∉ list.chain ps)
    (hframe : Frame h h' (list.chain ps)) : Represents h' other os ys := by
  have hsame : ∀ q ∈ other.chain os, h'.get? q = h.get? q := by
    intro q hq
    obtain ⟨node, hnode⟩ := Option.isSome_iff_exists.1 (ho.live q hq)
    exact hframe q (hapart q hq) (Heap.lt_next_of_get? hnode)
  refine ⟨ho.size, ho.nodup, ?_, ho.linked.congr ?_ ?_, ?_⟩
  · intro q hq
    rw [hsame q hq]
    exact ho.live q hq
  · intro q hq
    exact nextOf_congr h h' q (hsame q hq)
  · intro q hq
    exact prevOf_congr h h' q (hsame q hq)
  · rw [← ho.data]
    refine List.map_congr_left fun q hq => dataOf_congr h h' q (hsame q ?_)
    exact List.mem_append_left _ (List.mem_cons_of_mem _ hq)

/-- The walks find the nodes that the list represents. -/
theorem Represents.walks (hr : Represents h list ps xs) :
    forwardNodes h list = ps ∧ backwardNodes h list = ps.reverse := by
  have hfuel := hr.length_lt
  have hnodup := hr.nodup
  rw [LinkedList.chain, List.nodup_append] at hnodup
  obtain ⟨hhead, -, htail⟩ := hnodup
  refine ⟨walk_linked hr.linked ?_ (by omega), walk_back hr.linked ?_ (by omega)⟩
  · intro hmem
    exact htail _ (List.mem_cons_of_mem _ hmem) _ (List.mem_singleton_self _) rfl
  · exact (List.nodup_cons.1 hhead).1

/-- A list that was made by `list_init` and changed by any operations that its sequence
allows is that sequence, in both directions, and gives back what the sequence does. -/
theorem linkedList_refines (h : Heap (Node α)) (junk : Nat → Node α) (equal : α → α → Bool)
    {ops : List (Op α)} {rets : List (Option α)} {xs : List α}
    (hops : runOps (Op.onSequence equal) ops [] = some (rets, xs)) :
    ∃ h₀ list₀ h' list', listInit h junk equal = some (h₀, list₀) ∧
      runOps (Op.onNodes junk) ops (h₀, list₀) = some (rets, h', list') ∧
      Represents h' list' (forwardNodes h' list') xs ∧
      backwardNodes h' list' = (forwardNodes h' list').reverse := by
  obtain ⟨h₀, list₀, hinit, hequal, hr₀, -⟩ := listInit_spec h junk equal
  obtain ⟨h', list', ps', hrun, hr'⟩ := runOps_refines ops hr₀ hequal hops junk
  obtain ⟨hforward, hbackward⟩ := hr'.walks
  refine ⟨h₀, list₀, h', list', hinit, hrun, ?_, ?_⟩
  · rw [hforward]
    exact hr'
  · rw [hforward, hbackward]

theorem linkedList_refines_five :
    runOps (Op.onSequence (· == ·)) [.addTail 1, .addHead 2, .addTail 1, .removeElem 1, .popTail]
        [] = some ([none, none, none, some 1, some 1], [2]) ∧
      ∃ h₀ list₀ h' list', listInit Heap.empty (fun _ => ⟨7, some 9, none⟩) (· == ·) =
          some (h₀, list₀) ∧
        runOps (Op.onNodes fun _ => ⟨7, some 9, none⟩)
          [.addTail 1, .addHead 2, .addTail 1, .removeElem 1, .popTail] (h₀, list₀) =
            some ([none, none, none, some 1, some 1], h', list') ∧
        Represents h' list' (forwardNodes h' list') [2] ∧
        backwardNodes h' list' = (forwardNodes h' list').reverse :=
  have hops : runOps (Op.onSequence (· == ·))
      [.addTail 1, .addHead 2, .addTail 1, .removeElem 1, .popTail] [] =
        some ([none, none, none, some 1, some 1], [2]) := by decide
  ⟨hops, linkedList_refines Heap.empty (fun _ => ⟨7, some 9, none⟩) (· == ·) hops⟩

end SimpleShell.A3
