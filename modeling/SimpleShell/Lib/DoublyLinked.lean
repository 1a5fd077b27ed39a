import Mathlib.Data.List.Chain
import Mathlib.Data.List.Nodup
import Mathlib.Data.List.Perm.Subperm

/-!
# Doubly linked chains

The nodes `ps` are linked when every one points forward to the one behind it and is
pointed back to by it. The links are two functions on pointers, whatever memory they are
read from, and a change of the memory is a new pair of functions that agrees with the
old one but for the links that were stored.
-/

namespace SimpleShell.Lib

variable {P : Type} {next prev next' prev' : P → Option P} {ps l r : List P} {a b n : P}

def Linked (next prev : P → Option P) (ps : List P) : Prop :=
  ps.IsChain fun p q => next p = some q ∧ prev q = some p

/-- The nodes met from one on until `stop`, `fuel` of them at most. -/
def walk [DecidableEq P] (step : P → Option P) (stop : P) : Nat → P → List P
  | 0, _ => []
  | fuel + 1, p =>
      match step p with
      | none => []
      | some q => if q = stop then [] else q :: walk step stop fuel q

theorem linked_cons_cons {p q : P} :
    Linked next prev (p :: q :: ps) ↔
      (next p = some q ∧ prev q = some p) ∧ Linked next prev (q :: ps) :=
  List.isChain_cons_cons

theorem linked_pair {p q : P} :
    Linked next prev [p, q] ↔ next p = some q ∧ prev q = some p :=
  List.isChain_pair

/-- A chain with a link in the middle is what is linked before and behind it. -/
theorem linked_append : Linked next prev (l ++ a :: b :: r) ↔
    Linked next prev (l ++ [a]) ∧ (next a = some b ∧ prev b = some a) ∧
      Linked next prev (b :: r) :=
  List.isChain_append_cons_cons

theorem Linked.reverse (h : Linked next prev ps) : Linked prev next ps.reverse := by
  have hback := List.isChain_reverse.2 h
  exact hback.imp fun p q hpq => hpq.symm

/-- Left of a change the chain keeps its links, the last node's forward link apart. -/
theorem Linked.left (h : Linked next prev (l ++ [a])) (hnext : ∀ p ∈ l, next' p = next p)
    (hprev : ∀ p ∈ l ++ [a], prev' p = prev p) : Linked next' prev' (l ++ [a]) := by
  induction l with
  | nil => exact List.isChain_singleton a
  | cons p l ih =>
      cases l with
      | nil =>
          rw [List.singleton_append, linked_pair] at h ⊢
          rw [hnext p (List.mem_singleton_self p), hprev a (by simp)]
          exact h
      | cons q l =>
          rw [List.cons_append, List.cons_append, linked_cons_cons] at h ⊢
          rw [hnext p List.mem_cons_self, hprev q (by simp)]
          refine ⟨h.1, ih h.2 ?_ ?_⟩
          · intro x hx
            exact hnext x (List.mem_cons_of_mem p hx)
          · intro x hx
            exact hprev x (List.mem_cons_of_mem p hx)

/-- Right of a change it keeps them, the first node's backward link apart. -/
theorem Linked.right (h : Linked next prev (b :: r)) (hnext : ∀ p ∈ b :: r, next' p = next p)
    (hprev : ∀ p ∈ r, prev' p = prev p) : Linked next' prev' (b :: r) := by
  induction r generalizing b with
  | nil => exact List.isChain_singleton b
  | cons q r ih =>
      rw [linked_cons_cons] at h ⊢
      rw [hnext b List.mem_cons_self, hprev q List.mem_cons_self]
      refine ⟨h.1, ih h.2 ?_ ?_⟩
      · intro x hx
        exact hnext x (List.mem_cons_of_mem b hx)
      · intro x hx
        exact hprev x (List.mem_cons_of_mem q hx)

/-- Links apart from the chain do not matter. -/
theorem Linked.congr (h : Linked next prev ps) (hnext : ∀ p ∈ ps, next' p = next p)
    (hprev : ∀ p ∈ ps, prev' p = prev p) : Linked next' prev' ps := by
  cases ps with
  | nil => exact List.isChain_nil
  | cons b r => exact h.right hnext fun p hp => hprev p (List.mem_cons_of_mem b hp)

theorem ne_of_nodup (h : (l ++ a :: b :: r).Nodup) :
    (∀ p ∈ l, p ≠ a ∧ p ≠ b) ∧ a ≠ b ∧ ∀ p ∈ r, p ≠ a ∧ p ≠ b := by
  simp only [List.nodup_append, List.nodup_cons, List.mem_cons, not_or] at h
  obtain ⟨-, ⟨⟨hab, har⟩, hbr, -⟩, hl⟩ := h
  refine ⟨fun p hp => ⟨hl p hp a (.inl rfl), hl p hp b (.inr (.inl rfl))⟩, hab, fun p hp => ?_⟩
  exact ⟨ne_of_mem_of_not_mem hp har, ne_of_mem_of_not_mem hp hbr⟩

/-- Both sides of a place stay linked when only the links across it are stored. -/
theorem linked_sides (hleft : Linked next prev (l ++ [a])) (hright : Linked next prev (b :: r))
    (hnodup : (l ++ a :: b :: r).Nodup)
    (hnext : ∀ p ∈ l ++ a :: b :: r, p ≠ a → next' p = next p)
    (hprev : ∀ p ∈ l ++ a :: b :: r, p ≠ b → prev' p = prev p) :
    Linked next' prev' (l ++ [a]) ∧ Linked next' prev' (b :: r) := by
  obtain ⟨hl, hab, hr⟩ := ne_of_nodup hnodup
  refine ⟨hleft.left ?_ ?_, hright.right ?_ ?_⟩
  · intro p hp
    exact hnext p (List.mem_append_left _ hp) (hl p hp).1
  · intro p hp
    rcases List.mem_append.1 hp with hp | hp
    · exact hprev p (List.mem_append_left _ hp) (hl p hp).2
    · obtain rfl := List.mem_singleton.1 hp
      exact hprev p (by simp) hab
  · intro p hp
    rcases List.mem_cons.1 hp with rfl | hp
    · exact hnext p (by simp) hab.symm
    · exact hnext p (by simp [hp]) (hr p hp).1
  · intro p hp
    exact hprev p (by simp [hp]) (hr p hp).2

/-- A new node between two that are linked. -/
theorem Linked.insert (h : Linked next prev (l ++ a :: b :: r)) (hnodup : (l ++ a :: b :: r).Nodup)
    (hnew : n ∉ l ++ a :: b :: r) (hnext : ∀ p, p ≠ a → p ≠ n → next' p = next p)
    (hprev : ∀ p, p ≠ b → p ≠ n → prev' p = prev p) (ha : next' a = some n)
    (hn : next' n = some b ∧ prev' n = some a) (hb : prev' b = some n) :
    Linked next' prev' (l ++ a :: n :: b :: r) := by
  rw [linked_append] at h
  obtain ⟨hleft, -, hright⟩ := h
  obtain ⟨hleft, hright⟩ := @linked_sides _ next prev next' prev' _ _ _ _ hleft hright hnodup
    (fun p hp hpa => hnext p hpa (ne_of_mem_of_not_mem hp hnew))
    (fun p hp hpb => hprev p hpb (ne_of_mem_of_not_mem hp hnew))
  rw [linked_append, linked_cons_cons]
  exact ⟨hleft, ⟨ha, hn.2⟩, ⟨hn.1, hb⟩, hright⟩

/-- A node is taken out when its two neighbours are linked to each other. -/
theorem Linked.remove (h : Linked next prev (l ++ a :: n :: b :: r))
    (hnodup : (l ++ a :: n :: b :: r).Nodup) (hnext : ∀ p, p ≠ a → next' p = next p)
    (hprev : ∀ p, p ≠ b → prev' p = prev p) (ha : next' a = some b) (hb : prev' b = some a) :
    Linked next' prev' (l ++ a :: b :: r) := by
  rw [linked_append, linked_cons_cons] at h
  obtain ⟨hleft, -, -, hright⟩ := h
  have hrest : (l ++ a :: b :: r).Nodup := by
    refine hnodup.sublist ((List.Sublist.refl l).append ?_)
    exact (List.sublist_cons_self n (b :: r)).cons_cons a
  obtain ⟨hleft, hright⟩ := @linked_sides _ next prev next' prev' _ _ _ _ hleft hright hrest
    (fun p _ => hnext p) (fun p _ => hprev p)
  rw [linked_append]
  exact ⟨hleft, ⟨ha, hb⟩, hright⟩

/-- A walk along the chain meets its nodes in their order. -/
theorem walk_linked [DecidableEq P] {fuel : Nat} (h : Linked next prev (a :: ps ++ [b]))
    (hb : b ∉ ps) (hfuel : ps.length < fuel) : walk next b fuel a = ps := by
  induction ps generalizing a fuel with
  | nil =>
      obtain ⟨fuel, rfl⟩ : ∃ k, fuel = k + 1 := ⟨fuel - 1, by simp at hfuel; omega⟩
      have hlink := linked_pair.1 h
      rw [walk, hlink.1]
      exact if_pos rfl
  | cons q ps ih =>
      rw [List.length_cons] at hfuel
      obtain ⟨fuel, rfl⟩ : ∃ k, fuel = k + 1 := ⟨fuel - 1, by omega⟩
      rw [List.mem_cons, not_or] at hb
      rw [List.cons_append, List.cons_append, linked_cons_cons] at h
      rw [walk, h.1.1]
      dsimp only
      rw [if_neg (Ne.symm hb.1), ih h.2 hb.2 (by omega)]

/-- And the walk back meets them in the opposite order. -/
theorem walk_back [DecidableEq P] {fuel : Nat} (h : Linked next prev (a :: ps ++ [b]))
    (ha : a ∉ ps) (hfuel : ps.length < fuel) : walk prev a fuel b = ps.reverse := by
  have hback := h.reverse
  rw [List.reverse_append, List.reverse_singleton, List.reverse_cons, ← List.append_assoc,
    List.singleton_append] at hback
  exact walk_linked hback (by rwa [List.mem_reverse]) (by rwa [List.length_reverse])

/-- Distinct pointers below a bound are no more than the bound. -/
theorem length_le_of_nodup {ps : List Nat} {k : Nat} (hnodup : ps.Nodup) (h : ∀ p ∈ ps, p < k) :
    ps.length ≤ k := by
  have hsub : ps ⊆ List.range k := fun p hp => List.mem_range.2 (h p hp)
  have hle := (hnodup.subperm hsub).length_le
  rwa [List.length_range] at hle

end SimpleShell.Lib
