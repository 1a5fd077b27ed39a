import Mathlib.Data.List.GetD

/-!
# Growable arrays

An array that a write past its end makes longer. `overwrite` is the whole
array after a write of `buf` at `o`: the written range holds the buffer, the
other cells keep what they held, and the cells of a gap between the old end and
`o` hold the filler.
-/

namespace SimpleShell.Lib

variable {α : Type}

def overwrite (fill : α) (a : List α) (o : Nat) (buf : List α) : List α :=
  (List.range (max a.length (o + buf.length))).map fun x =>
    if o ≤ x ∧ x < o + buf.length then buf.getD (x - o) fill else a.getD x fill

@[simp] theorem length_overwrite (fill : α) (a : List α) (o : Nat) (buf : List α) :
    (overwrite fill a o buf).length = max a.length (o + buf.length) := by
  simp [overwrite]

theorem getD_overwrite (fill : α) (a : List α) (o : Nat) (buf : List α) (x : Nat) :
    (overwrite fill a o buf).getD x fill =
      if o ≤ x ∧ x < o + buf.length then buf.getD (x - o) fill
      else a.getD x fill := by
  rcases Nat.lt_or_ge x (max a.length (o + buf.length)) with hx | hx
  · simp [overwrite, List.getD_eq_getElem?_getD, List.getElem?_map,
      List.getElem?_range hx]
  · rw [List.getD_eq_default _ _ (by simpa using hx), if_neg (by omega),
      List.getD_eq_default _ _ (by omega)]

/-- Two arrays of one length are equal when their cells are. -/
theorem ext_getD {z : α} {a b : List α} (hlen : a.length = b.length)
    (h : ∀ x, x < a.length → a.getD x z = b.getD x z) : a = b := by
  refine List.ext_getElem hlen fun x hx hx' => ?_
  have := h x hx
  rwa [List.getD_eq_getElem _ _ hx, List.getD_eq_getElem _ _ hx'] at this

end SimpleShell.Lib
