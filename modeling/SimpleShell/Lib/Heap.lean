import Mathlib.Logic.Function.Basic

/-!
# A heap of objects

`malloc` and `free` for one kind of object. A pointer is the number of the
allocation that made it, so it is never handed out twice: a pointer kept past
`free` reads as `none` for good, whatever is allocated later.
-/

namespace SimpleShell.Lib

structure Heap (α : Type) where
  next : Nat
  cell : Nat → Option α
  fresh : ∀ p, next ≤ p → cell p = none

namespace Heap

variable {α : Type}

def empty : Heap α := ⟨0, fun _ => none, fun _ _ => rfl⟩

def get? (h : Heap α) (p : Nat) : Option α := h.cell p

/-- The new pointer and the heap it points into. -/
def alloc (h : Heap α) (a : α) : Nat × Heap α :=
  (h.next,
    { next := h.next + 1
      cell := Function.update h.cell h.next (some a)
      fresh := fun p hp => by
        rw [Function.update_of_ne (by omega)]
        exact h.fresh p (by omega) })

def free (h : Heap α) (p : Nat) : Heap α :=
  { next := h.next
    cell := Function.update h.cell p none
    fresh := fun q hq => by
      by_cases hqp : q = p
      · subst hqp; simp
      · rw [Function.update_of_ne hqp]; exact h.fresh q hq }

/-- A store through `p`, which a freed pointer does not take. -/
def set (h : Heap α) (p : Nat) (a : α) : Heap α :=
  { next := h.next
    cell := fun q => if q = p then (h.cell p).map fun _ => a else h.cell q
    fresh := fun q hq => by
      split
      · next hqp => subst hqp; rw [h.fresh q hq]; rfl
      · exact h.fresh q hq }

@[simp] theorem get?_empty (p : Nat) : (empty : Heap α).get? p = none := rfl

theorem get?_alloc (h : Heap α) (a : α) (q : Nat) :
    (h.alloc a).2.get? q = if q = h.next then some a else h.get? q := by
  simp only [get?, alloc, Function.update_apply]

theorem get?_free (h : Heap α) (p q : Nat) :
    (h.free p).get? q = if q = p then none else h.get? q := by
  simp only [get?, free, Function.update_apply]

theorem get?_set {h : Heap α} {p : Nat} {b : α} (hp : h.get? p = some b)
    (a : α) (q : Nat) :
    (h.set p a).get? q = if q = p then some a else h.get? q := by
  simp only [get?, set] at hp ⊢
  split <;> simp_all

/-- A store through a dead pointer is lost. -/
theorem set_of_none {h : Heap α} {p : Nat} (hp : h.get? p = none) (a : α) :
    h.set p a = h := by
  cases h with
  | mk next cell fresh =>
      simp only [set, Heap.mk.injEq, true_and]
      funext q
      split
      · next hq =>
          change cell p = none at hp
          rw [hq, hp]
          rfl
      · rfl

theorem set_self {h : Heap α} {p : Nat} {a : α}
    (hp : h.get? p = some a) : h.set p a = h := by
  cases h with
  | mk next cell fresh =>
      simp only [set, Heap.mk.injEq, true_and]
      funext q
      split
      · next hq =>
          rw [hq]
          change cell p = some a at hp
          rw [hp]
          rfl
      · rfl

theorem set_set (h : Heap α) (p : Nat) (a b : α) :
    (h.set p a).set p b = h.set p b := by
  simp only [set, Heap.mk.injEq, true_and]
  funext q
  split
  · next hq => rw [if_pos trivial, Option.map_map]; rfl
  · next hq => rfl

theorem lt_next_of_get? {h : Heap α} {p : Nat} {a : α} (hp : h.get? p = some a) :
    p < h.next := by
  by_contra hge
  simp only [get?, h.fresh p (by omega)] at hp
  cases hp

end Heap

end SimpleShell.Lib
