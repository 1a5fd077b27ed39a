import Mathlib.Algebra.Group.Int.Defs
import Mathlib.Algebra.Ring.Nat
import Mathlib.Data.List.Basic

/-!
# Machine words as little-endian bytes

An array of 64-bit words written to a file byte by byte and read back. The
number of words is known on both sides, so the only law needed is that reading
what was written gives the words again.
-/

namespace SimpleShell.Lib

/-- The low `k` bytes of `v`, least significant first. -/
def leBytes : Nat → Nat → List UInt8
  | 0, _ => []
  | k + 1, v => .ofNat v :: leBytes k (v / 256)

/-- The number whose bytes are `bs`, least significant first. -/
def leNat : List UInt8 → Nat
  | [] => 0
  | b :: bs => b.toNat + 256 * leNat bs

@[simp] theorem length_leBytes (k v : Nat) : (leBytes k v).length = k := by
  induction k generalizing v with
  | zero => rfl
  | succ k ih => simp [leBytes, ih]

theorem leNat_leBytes (k v : Nat) : leNat (leBytes k v) = v % 256 ^ k := by
  induction k generalizing v with
  | zero => simp [leBytes, leNat, Nat.mod_one]
  | succ k ih =>
      simp only [leBytes, leNat, ih, UInt8.toNat_ofNat']
      rw [show 256 ^ (k + 1) = 256 * 256 ^ k from Nat.pow_succ', Nat.mod_mul]

/-- The words' bytes, in memory order. -/
def wordsToBytes (ws : List (BitVec 64)) : List UInt8 :=
  ws.flatMap fun w => leBytes 8 w.toNat

/-- `n` words read from `bs`. -/
def bytesToWords : Nat → List UInt8 → List (BitVec 64)
  | 0, _ => []
  | n + 1, bs => .ofNat 64 (leNat (bs.take 8)) :: bytesToWords n (bs.drop 8)

@[simp] theorem length_wordsToBytes (ws : List (BitVec 64)) :
    (wordsToBytes ws).length = 8 * ws.length := by
  induction ws with
  | nil => rfl
  | cons w ws ih =>
      simp only [wordsToBytes, List.flatMap_cons, List.length_append,
        length_leBytes, List.length_cons] at ih ⊢
      omega

@[simp] theorem length_bytesToWords (n : Nat) (bs : List UInt8) :
    (bytesToWords n bs).length = n := by
  induction n generalizing bs with
  | zero => rfl
  | succ n ih => simp [bytesToWords, ih]

theorem bytesToWords_wordsToBytes (ws : List (BitVec 64)) :
    bytesToWords ws.length (wordsToBytes ws) = ws := by
  induction ws with
  | nil => rfl
  | cons w ws ih =>
      have htake : (leBytes 8 w.toNat ++ wordsToBytes ws).take 8 =
          leBytes 8 w.toNat := by
        rw [List.take_append_of_le_length (by simp)]
        exact List.take_of_length_le (by simp)
      have hdrop : (leBytes 8 w.toNat ++ wordsToBytes ws).drop 8 =
          wordsToBytes ws :=
        List.drop_left' (by simp)
      have hcons : wordsToBytes (w :: ws) =
          leBytes 8 w.toNat ++ wordsToBytes ws := by
        simp [wordsToBytes]
      rw [List.length_cons, bytesToWords, hcons, htake, hdrop, ih,
        leNat_leBytes]
      congr 1
      apply BitVec.eq_of_toNat_eq
      have := w.isLt
      simp only [BitVec.toNat_ofNat]
      omega

end SimpleShell.Lib
