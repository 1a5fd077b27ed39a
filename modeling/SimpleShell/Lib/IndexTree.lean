import Mathlib.Algebra.Group.Int.Defs
import Mathlib.Algebra.Ring.Nat
import Mathlib.Data.List.Basic
import Mathlib.Data.List.Nodup

/-!
# Index trees with a null pointer

Blocks of `N` pointers that lead, over a fixed number of levels, from a root to
leaves; 0 is the null pointer and leads nowhere. `E k j` is pointer `j` of
block `k`, so a tree is a root and the pointer function, and a node is named by
the path of indices that reaches it. In a tree of `L` levels a path of length
`L` ends at a leaf and a shorter one at an index block; a path that leaves the
tree reads as null.

The leaves are numbered from left to right. `slots L n` lists the nodes that
the first `n` leaves need, each index block before what hangs below it, and
`mem_slots` says which they are: those whose first leaf is among the `n`.
-/

namespace SimpleShell.Lib

/-- The node that path `p` reaches from `e`, `L` levels above the leaves. -/
def nodeAt (E : Nat → Nat → Nat) (N : Nat) : Nat → Nat → List Nat → Nat
  | _, e, [] => e
  | 0, _, _ :: _ => 0
  | L + 1, e, j :: p => if e = 0 ∨ N ≤ j then 0 else nodeAt E N L (E e j) p

/-- The path to leaf `i`. -/
def pathTo (N : Nat) : Nat → Nat → List Nat
  | 0, _ => []
  | L + 1, i => (i / N ^ L) :: pathTo N L (i % N ^ L)

/-- How many children a tree of `L + 1` levels needs for its first `n` leaves. -/
def fanOut (N L n : Nat) : Nat := (n + N ^ L - 1) / N ^ L

/-- The nodes that the first `n` leaves need, roots first. -/
def slots (N : Nat) : Nat → Nat → List (List Nat)
  | 0, _ => [[]]
  | L + 1, n =>
      [] :: (List.range (fanOut N L n)).flatMap fun j =>
        (slots N L (min (n - j * N ^ L) (N ^ L))).map (j :: ·)

/-- The first leaf below the node at `p`. -/
def firstLeaf (N : Nat) : Nat → List Nat → Nat
  | L + 1, j :: p => j * N ^ L + firstLeaf N L p
  | _, _ => 0

variable {E E' : Nat → Nat → Nat} {N L : Nat}

/-! ## Nodes -/

@[simp] theorem nodeAt_nil (e : Nat) : nodeAt E N L e [] = e := by
  cases L <;> rfl

@[simp] theorem nodeAt_null (p : List Nat) : nodeAt E N L 0 p = 0 := by
  cases p with
  | nil => exact nodeAt_nil 0
  | cons j p =>
      cases L with
      | zero => rfl
      | succ L => simp [nodeAt]

theorem nodeAt_cons {e j : Nat} (he : e ≠ 0) (hj : j < N) (p : List Nat) :
    nodeAt E N (L + 1) e (j :: p) = nodeAt E N L (E e j) p := by
  rw [nodeAt, if_neg (by omega)]

theorem nodeAt_cons_of_ne {e j : Nat} {p : List Nat}
    (h : nodeAt E N (L + 1) e (j :: p) ≠ 0) :
    e ≠ 0 ∧ j < N ∧ nodeAt E N L (E e j) p ≠ 0 := by
  rw [nodeAt] at h
  split at h
  · exact absurd rfl h
  · next hne => exact ⟨by omega, by omega, h⟩

/-- One pointer further. -/
theorem nodeAt_snoc {e j : Nat} {p : List Nat} (hp : p.length < L)
    (hne : nodeAt E N L e p ≠ 0) (hj : j < N) :
    nodeAt E N L e (p ++ [j]) = E (nodeAt E N L e p) j := by
  induction L generalizing e p with
  | zero => exact absurd hp (Nat.not_lt_zero _)
  | succ L ih =>
      cases p with
      | nil =>
          rw [nodeAt_nil] at hne
          rw [List.nil_append, nodeAt_cons hne hj, nodeAt_nil, nodeAt_nil]
      | cons i p =>
          obtain ⟨he, hi, hchild⟩ := nodeAt_cons_of_ne hne
          rw [List.cons_append, nodeAt_cons he hi, nodeAt_cons he hi]
          exact ih (Nat.lt_of_succ_lt_succ hp) hchild

/-- Everything above a node is there. -/
theorem nodeAt_prefix_ne {e : Nat} {p q : List Nat}
    (h : nodeAt E N L e (p ++ q) ≠ 0) : nodeAt E N L e p ≠ 0 := by
  induction L generalizing e p with
  | zero =>
      cases p with
      | nil =>
          rw [nodeAt_nil]
          intro he
          rw [he, nodeAt_null] at h
          exact h rfl
      | cons j p => exact absurd rfl h
  | succ L ih =>
      cases p with
      | nil =>
          rw [nodeAt_nil]
          intro he
          rw [he, nodeAt_null] at h
          exact h rfl
      | cons j p =>
          obtain ⟨he, hj, hchild⟩ := nodeAt_cons_of_ne h
          rw [nodeAt_cons he hj]
          exact ih hchild

/-- Only the pointers along the path matter. -/
theorem nodeAt_congr_path {e : Nat} {p : List Nat}
    (h : ∀ q j r, p = q ++ j :: r → q.length < L → j < N →
      nodeAt E N L e q ≠ 0 →
        E' (nodeAt E N L e q) j = E (nodeAt E N L e q) j) :
    nodeAt E' N L e p = nodeAt E N L e p := by
  induction L generalizing e p with
  | zero => cases p <;> rfl
  | succ L ih =>
      cases p with
      | nil => rfl
      | cons j p =>
          rw [nodeAt, nodeAt]
          split
          · rfl
          · next hne =>
              have he : e ≠ 0 := by omega
              have hj : j < N := by omega
              have hsame : E' e j = E e j := by
                have := h [] j p rfl (Nat.succ_pos L) hj
                rw [nodeAt_nil] at this
                exact this he
              rw [hsame]
              refine ih fun q i r hp hq hi hq0 => ?_
              have := h (j :: q) i r (by rw [hp]; rfl) (Nat.succ_lt_succ hq) hi
              rw [nodeAt_cons he hj] at this
              exact this hq0

theorem nodeAt_congr {e : Nat}
    (h : ∀ q, q.length < L → nodeAt E N L e q ≠ 0 → ∀ j, j < N →
      E' (nodeAt E N L e q) j = E (nodeAt E N L e q) j) (p : List Nat) :
    nodeAt E' N L e p = nodeAt E N L e p :=
  nodeAt_congr_path fun q j _ _ hq hj hne => h q hq hne j hj

/-- A node stays where it is while the non-null pointers do. -/
theorem nodeAt_of_keep {e : Nat} {p : List Nat}
    (h : ∀ q j r, p = q ++ j :: r → q.length < L → j < N →
      E (nodeAt E N L e q) j ≠ 0 →
        E' (nodeAt E N L e q) j = E (nodeAt E N L e q) j)
    (hp : nodeAt E N L e p ≠ 0) : nodeAt E' N L e p = nodeAt E N L e p := by
  refine nodeAt_congr_path fun q j r heq hq hj hne => h q j r heq hq hj ?_
  rw [← nodeAt_snoc hq hne hj]
  refine nodeAt_prefix_ne (q := r) ?_
  rw [List.append_assoc, List.singleton_append, ← heq]
  exact hp

/-! ## Which nodes the first leaves need -/

theorem firstLeaf_nil : firstLeaf N L [] = 0 := by cases L <;> rfl

theorem lt_fanOut (hN : 0 < N) {j n : Nat} :
    j < fanOut N L n ↔ j * N ^ L < n := by
  have hpos : 0 < N ^ L := Nat.pow_pos hN
  unfold fanOut
  rw [← Nat.succ_le_iff, Nat.le_div_iff_mul_le hpos, Nat.succ_mul]
  omega

theorem firstLeaf_lt (hN : 0 < N) {p : List Nat} (hlen : p.length ≤ L)
    (hlt : ∀ j ∈ p, j < N) : firstLeaf N L p < N ^ L := by
  induction L generalizing p with
  | zero => exact Nat.pow_pos hN
  | succ L ih =>
      cases p with
      | nil => exact Nat.pow_pos hN
      | cons j p =>
          have hj : j < N := hlt j (List.mem_cons_self ..)
          have hp : firstLeaf N L p < N ^ L :=
            ih (Nat.le_of_succ_le_succ hlen) fun k hk =>
              hlt k (List.mem_cons_of_mem j hk)
          calc j * N ^ L + firstLeaf N L p < j * N ^ L + N ^ L := by omega
            _ = (j + 1) * N ^ L := by rw [Nat.add_mul, Nat.one_mul]
            _ ≤ N * N ^ L := Nat.mul_le_mul_right _ hj
            _ = N ^ (L + 1) := by rw [Nat.pow_succ, Nat.mul_comm]

theorem mem_slots (hN : 0 < N) {n : Nat} (hn : 0 < n) (hle : n ≤ N ^ L)
    {p : List Nat} :
    p ∈ slots N L n ↔
      p.length ≤ L ∧ (∀ j ∈ p, j < N) ∧ firstLeaf N L p < n := by
  induction L generalizing n p with
  | zero =>
      rw [slots, List.mem_singleton]
      constructor
      · intro hp
        subst hp
        exact ⟨Nat.le_refl _, by simp, by simpa [firstLeaf] using hn⟩
      · intro h
        exact List.length_eq_zero_iff.1 (Nat.le_zero.1 h.1)
  | succ L ih =>
      have hpos : 0 < N ^ L := Nat.pow_pos hN
      have hsub {j : Nat} (hj : j * N ^ L < n) :
          0 < min (n - j * N ^ L) (N ^ L) := by omega
      rw [slots, List.mem_cons]
      cases p with
      | nil => simp [firstLeaf, hn]
      | cons j p =>
          simp only [reduceCtorEq, List.mem_flatMap, List.mem_range,
            List.mem_map, List.cons.injEq, false_or, lt_fanOut hN,
            List.length_cons, firstLeaf]
          constructor
          · intro h
            obtain ⟨i, hi, q, hq, hij, hqp⟩ := h
            subst hij hqp
            obtain ⟨h₁, h₂, h₃⟩ := (ih (hsub hi) (Nat.min_le_right ..)).1 hq
            refine ⟨by omega, fun k hk => ?_, by omega⟩
            rcases List.mem_cons.1 hk with rfl | hk
            · rw [Nat.pow_succ, Nat.mul_comm] at hle
              exact Nat.lt_of_mul_lt_mul_right (Nat.lt_of_lt_of_le hi hle)
            · exact h₂ k hk
          · intro h
            obtain ⟨h₁, h₂, h₃⟩ := h
            have hp : ∀ k ∈ p, k < N := fun k hk =>
              h₂ k (List.mem_cons_of_mem j hk)
            have hfirst := firstLeaf_lt (L := L) hN (by omega) hp
            have hj : j * N ^ L < n := by omega
            exact ⟨j, hj, p, (ih (hsub hj) (Nat.min_le_right ..)).2
              ⟨by omega, hp, by omega⟩, rfl, rfl⟩

theorem length_pathTo (i : Nat) : (pathTo N L i).length = L := by
  induction L generalizing i with
  | zero => rfl
  | succ L ih => simp [pathTo, ih]

theorem firstLeaf_pathTo {i : Nat} (hi : i < N ^ L) :
    firstLeaf N L (pathTo N L i) = i := by
  induction L generalizing i with
  | zero =>
      rw [Nat.pow_zero] at hi
      change 0 = i
      omega
  | succ L ih =>
      have hpos : 0 < N ^ L := by
        rcases Nat.eq_zero_or_pos (N ^ L) with h | h
        · rw [Nat.pow_succ, h] at hi; omega
        · exact h
      rw [pathTo, firstLeaf, ih (Nat.mod_lt _ hpos), Nat.mul_comm]
      exact Nat.div_add_mod i (N ^ L)

theorem pathTo_lt (hN : 0 < N) {i : Nat} (hi : i < N ^ L) :
    ∀ j ∈ pathTo N L i, j < N := by
  induction L generalizing i with
  | zero => simp [pathTo]
  | succ L ih =>
      intro j hj
      rcases List.mem_cons.1 hj with rfl | hj
      · refine Nat.div_lt_of_lt_mul ?_
        rwa [← Nat.pow_succ]
      · exact ih (Nat.mod_lt _ (Nat.pow_pos hN)) j hj

/-- No node is listed twice. -/
theorem nodup_slots (n : Nat) : (slots N L n).Nodup := by
  induction L generalizing n with
  | zero => exact List.nodup_singleton []
  | succ L ih =>
      rw [slots, List.nodup_cons]
      constructor
      · simp
      · refine List.nodup_flatMap.2 ⟨fun j _ => (ih _).map fun p q hpq => (List.cons.inj hpq).2, ?_⟩
        refine List.nodup_range.imp fun {i j} hij p hi hj => hij ?_
        obtain ⟨q, -, rfl⟩ := List.mem_map.1 hi
        obtain ⟨r, -, hr⟩ := List.mem_map.1 hj
        exact ((List.cons.inj hr).1).symm

end SimpleShell.Lib
