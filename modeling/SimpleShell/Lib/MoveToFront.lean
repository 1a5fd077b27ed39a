import Mathlib.Data.List.Basic
import Mathlib.Data.List.Nodup

/-!
# Lists that are kept in order of use

What is used moves to the front, what makes room leaves at the back. An element that is among
the first `n` is among the first `n + 1` after another was used, and does not leave as long as
there are more than `n`.
-/

namespace SimpleShell.Lib

namespace MoveToFront

variable {α : Type} [DecidableEq α] {l : List α} {x y : α} {n : Nat}

/-- The list after `x` was used. -/
def use (l : List α) (x : α) : List α := x :: l.erase x

@[simp] theorem use_use : use (use l x) x = use l x := by
  rw [use, use, List.erase_cons_head]

/-- Looking for `x` by a test that it alone passes. -/
theorem use_eq_eraseP {p : α → Bool} (h : ∀ y ∈ l, p y = true ↔ y = x) :
    use l x = x :: l.eraseP p := by
  rw [use]
  congr 1
  induction l with
  | nil => rfl
  | cons y l ih =>
      have hrest := ih fun z hz => h z (List.mem_cons_of_mem _ hz)
      have hy := h y List.mem_cons_self
      by_cases hyx : y = x
      · rw [List.eraseP_cons_of_pos (hy.2 hyx), hyx, List.erase_cons_head]
      · rw [List.eraseP_cons_of_neg fun heq => hyx (hy.1 heq),
          List.erase_cons_tail (by simpa using hyx), hrest]

theorem nodup_use (h : l.Nodup) : (use l x).Nodup :=
  List.nodup_cons.2 ⟨fun hmem => (h.mem_erase_iff.1 hmem).1 rfl, h.erase x⟩

theorem mem_use (hx : x ∈ l) : y ∈ use l x ↔ y ∈ l := by
  by_cases hxy : y = x
  · rw [hxy]
    exact iff_of_true List.mem_cons_self hx
  · rw [use, List.mem_cons, List.mem_erase_of_ne hxy]
    exact or_iff_right hxy

theorem length_use (hx : x ∈ l) : (use l x).length = l.length := by
  have hpos := List.length_pos_of_mem hx
  rw [use, List.length_cons, List.length_erase_of_mem hx]
  omega

theorem mem_take_erase (h : x ∈ l.take n) (hxy : x ≠ y) : x ∈ (l.erase y).take n := by
  induction l generalizing n with
  | nil => simp at h
  | cons a l ih =>
      cases n with
      | zero => simp at h
      | succ n =>
          rw [List.take_succ_cons, List.mem_cons] at h
          by_cases ha : a = y
          · rw [ha, List.erase_cons_head]
            rcases h with hx | hx
            · exact absurd (hx.trans ha) hxy
            · exact (List.take_sublist_take_left (Nat.le_succ n)).subset hx
          · rw [List.erase_cons_tail (by simpa using ha), List.take_succ_cons, List.mem_cons]
            exact h.imp_right ih

theorem mem_take_use (h : x ∈ l.take n) (y : α) : x ∈ (use l y).take (n + 1) := by
  rw [use, List.take_succ_cons, List.mem_cons]
  by_cases hxy : x = y
  · exact .inl hxy
  · exact .inr (mem_take_erase h hxy)

omit [DecidableEq α] in
theorem mem_take_mono {m : Nat} (h : x ∈ l.take n) (hnm : n ≤ m) : x ∈ l.take m :=
  (List.take_sublist_take_left hnm).subset h

omit [DecidableEq α] in
theorem mem_take_cons (h : x ∈ l.take n) (y : α) : x ∈ (y :: l).take (n + 1) := by
  rw [List.take_succ_cons]
  exact List.mem_cons_of_mem _ h

omit [DecidableEq α] in
/-- What leaves at the back was not among the first `n`. -/
theorem ne_getLast_of_mem_take (hnodup : l.Nodup) (h : x ∈ l.take n) (hn : n < l.length)
    (hy : l.getLast? = some y) : x ≠ y := by
  rintro rfl
  have hmem : x ∈ l.drop n := by
    rw [List.mem_iff_getElem]
    refine ⟨l.length - 1 - n, by rw [List.length_drop]; omega, ?_⟩
    rw [List.getElem_drop]
    rw [List.getLast?_eq_getElem?, List.getElem?_eq_some_iff] at hy
    obtain ⟨hlt, hy⟩ := hy
    rw [← hy]
    congr 1
    omega
  rw [← List.take_append_drop n l, List.nodup_append] at hnodup
  exact hnodup.2.2 x h x hmem rfl

omit [DecidableEq α] in
theorem mem_take_dropLast (h : x ∈ l.take n) (hn : n < l.length) : x ∈ l.dropLast.take n := by
  rw [List.dropLast_eq_take, List.take_take, Nat.min_eq_left (by omega)]
  exact h

omit [DecidableEq α] in
theorem mem_dropLast (hnodup : l.Nodup) (hy : l.getLast? = some y) :
    x ∈ l.dropLast ↔ x ∈ l ∧ x ≠ y := by
  obtain ⟨front, rfl⟩ := List.getLast?_eq_some_iff.1 hy
  rw [List.nodup_append] at hnodup
  rw [List.dropLast_concat, List.mem_append, List.mem_singleton]
  constructor
  · intro hx
    exact ⟨.inl hx, hnodup.2.2 x hx y List.mem_cons_self⟩
  · rintro ⟨hx | hx, hne⟩
    · exact hx
    · exact absurd hx hne

/-! ## The order of the uses -/

/-- How many uses there were since `x` was used. `uses` has the last one first. -/
def age (uses : List α) (x : α) : Nat := uses.idxOf x

/-- What is in the list was used, and what stands before another thing was used after it. -/
structure InOrder (uses l : List α) : Prop where
  used : ∀ z ∈ l, z ∈ uses
  order : l.Pairwise fun y z => age uses y < age uses z

theorem InOrder.sublist {uses l' : List α} (h : InOrder uses l) (hsub : l'.Sublist l) :
    InOrder uses l' :=
  ⟨fun z hz => h.used z (hsub.subset hz), h.order.sublist hsub⟩

/-- Something that is not in the list is used and put to its front. -/
theorem InOrder.cons {uses : List α} (h : InOrder uses l) (hx : x ∉ l) :
    InOrder (x :: uses) (x :: l) := by
  have hafter : ∀ y ∈ l, age (x :: uses) y = age uses y + 1 := fun y hy =>
    List.idxOf_cons_ne _ fun heq : x = y => hx (heq ▸ hy)
  refine ⟨fun z hz => ?_, List.pairwise_cons.2 ⟨fun y hy => ?_, ?_⟩⟩
  · rcases List.mem_cons.1 hz with rfl | hz
    · exact List.mem_cons_self
    · exact List.mem_cons_of_mem _ (h.used z hz)
  · rw [hafter y hy, age, List.idxOf_cons_self]
    exact Nat.succ_pos _
  · refine h.order.imp_of_mem fun hy hz hlt => ?_
    rw [hafter _ hy, hafter _ hz]
    exact Nat.succ_lt_succ hlt

theorem InOrder.use {uses : List α} (h : InOrder uses l) (hnodup : l.Nodup) (x : α) :
    InOrder (x :: uses) (MoveToFront.use l x) :=
  (h.sublist List.erase_sublist).cons fun hmem => (hnodup.mem_erase_iff.1 hmem).1 rfl

/-- Things that were used once each. -/
theorem InOrder.self (hnodup : l.Nodup) : InOrder l l := by
  induction l with
  | nil => exact ⟨nofun, List.Pairwise.nil⟩
  | cons x l ih =>
      obtain ⟨hx, hl⟩ := List.nodup_cons.1 hnodup
      exact (ih hl).cons hx

/-- What leaves at the back was used longest ago. -/
theorem InOrder.getLast {uses : List α} (h : InOrder uses l) (hy : l.getLast? = some y) (hx : x ∈ l)
    (hne : x ≠ y) : age uses x < age uses y := by
  obtain ⟨front, rfl⟩ := List.getLast?_eq_some_iff.1 hy
  refine (List.pairwise_append.1 h.order).2.2 x ?_ y (List.mem_singleton_self y)
  exact (List.mem_append.1 hx).resolve_right fun hin => hne (List.mem_singleton.1 hin)

end MoveToFront

end SimpleShell.Lib
