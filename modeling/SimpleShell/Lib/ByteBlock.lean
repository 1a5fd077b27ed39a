import Mathlib.Algebra.Group.Int.Defs
import Mathlib.Algebra.Ring.Nat
import Mathlib.Data.List.Basic

/-!
# Fixed-size byte blocks and the integers stored in them

A C program overlays its structs on raw memory: a sector, a directory entry or
a word of a bitmap is so many bytes, and a field is the few of them that start
at some offset. `ByteBlock n` is that memory, read at any natural offset and
built from any function of the offset, so that two blocks agree as soon as
their bytes do. The 32-bit fields are little-endian.

Writes come in two forms: `setU32` stores one field, `splice` copies a list of
bytes over the block. Each has one lemma saying what a later read finds.
-/

namespace SimpleShell.Lib

/-- `n` bytes of memory. -/
structure ByteBlock (n : Nat) where
  data : Vector UInt8 n
deriving DecidableEq

namespace ByteBlock

variable {n : Nat}

/-- The byte at offset `i`; outside the block there is nothing to read. -/
def byte (b : ByteBlock n) (i : Nat) : UInt8 :=
  if h : i < n then b.data[i] else 0

def ofFn (f : Nat → UInt8) : ByteBlock n := ⟨Vector.ofFn fun i => f i⟩

/-- What `calloc` and `memset(_, 0, _)` leave behind. -/
def zeros : ByteBlock n := ofFn fun _ => 0

@[simp] theorem byte_ofFn (f : Nat → UInt8) (i : Nat) :
    (ofFn f : ByteBlock n).byte i = if i < n then f i else 0 := by
  unfold byte ofFn
  split <;> simp_all

@[simp] theorem byte_zeros (i : Nat) : (zeros : ByteBlock n).byte i = 0 := by
  simp [zeros]

theorem byte_of_ge {b : ByteBlock n} {i : Nat} (h : n ≤ i) : b.byte i = 0 := by
  rw [byte, dif_neg (by omega)]

theorem ext {a b : ByteBlock n} (h : ∀ i, i < n → a.byte i = b.byte i) :
    a = b := by
  obtain ⟨u⟩ := a
  obtain ⟨v⟩ := b
  congr 1
  refine Vector.ext fun i hi => ?_
  have := h i hi
  simpa only [byte, dif_pos hi] using this

/-! ## 32-bit fields -/

/-- The little-endian 32-bit field at offset `o`. -/
def u32 (b : ByteBlock n) (o : Nat) : Nat :=
  (b.byte o).toNat + 256 * (b.byte (o + 1)).toNat +
    65536 * (b.byte (o + 2)).toNat + 16777216 * (b.byte (o + 3)).toNat

/-- Stores `v` in the 32-bit field at offset `o`. -/
def setU32 (b : ByteBlock n) (o v : Nat) : ByteBlock n :=
  ofFn fun i =>
    if i = o then .ofNat v
    else if i = o + 1 then .ofNat (v / 256)
    else if i = o + 2 then .ofNat (v / 65536)
    else if i = o + 3 then .ofNat (v / 16777216)
    else b.byte i

theorem u32_lt (b : ByteBlock n) (o : Nat) : b.u32 o < 2 ^ 32 := by
  have h0 := (b.byte o).toNat_lt
  have h1 := (b.byte (o + 1)).toNat_lt
  have h2 := (b.byte (o + 2)).toNat_lt
  have h3 := (b.byte (o + 3)).toNat_lt
  unfold u32
  omega

theorem u32_congr {a b : ByteBlock n} {o : Nat}
    (h : ∀ i, o ≤ i → i < o + 4 → a.byte i = b.byte i) : a.u32 o = b.u32 o := by
  unfold u32
  rw [h o (by omega) (by omega), h (o + 1) (by omega) (by omega),
    h (o + 2) (by omega) (by omega), h (o + 3) (by omega) (by omega)]

@[simp] theorem u32_zeros (o : Nat) : (zeros : ByteBlock n).u32 o = 0 := by
  simp [u32]

theorem byte_setU32_of_ne {b : ByteBlock n} {o v i : Nat}
    (h : i < o ∨ o + 4 ≤ i) : (b.setU32 o v).byte i = b.byte i := by
  by_cases hi : i < n
  · simp only [setU32, byte_ofFn, if_pos hi]
    rw [if_neg (by omega), if_neg (by omega), if_neg (by omega),
      if_neg (by omega)]
  · rw [byte_of_ge (by omega), byte_of_ge (by omega)]

theorem u32_setU32_same {b : ByteBlock n} {o v : Nat} (ho : o + 4 ≤ n)
    (hv : v < 2 ^ 32) : (b.setU32 o v).u32 o = v := by
  have hb : ∀ j, j < 4 → o + j < n := fun j hj => by omega
  simp only [u32, setU32, byte_ofFn, show o < n by omega, hb 1 (by omega),
    hb 2 (by omega), hb 3 (by omega), if_true, show ¬ o + 1 = o by omega,
    show ¬ o + 2 = o by omega, show ¬ o + 3 = o by omega,
    show ¬ o + 2 = o + 1 by omega, show ¬ o + 3 = o + 1 by omega,
    show ¬ o + 3 = o + 2 by omega, if_false, UInt8.toNat_ofNat']
  omega

theorem u32_setU32_of_ne {b : ByteBlock n} {o o' v : Nat}
    (h : o + 4 ≤ o' ∨ o' + 4 ≤ o) : (b.setU32 o v).u32 o' = b.u32 o' :=
  u32_congr fun _ _ _ => byte_setU32_of_ne (by omega)

/-- Storing what a field holds changes nothing. -/
theorem setU32_u32 (b : ByteBlock n) (o : Nat) : b.setU32 o (b.u32 o) = b := by
  have h0 := (b.byte o).toNat_lt
  have h1 := (b.byte (o + 1)).toNat_lt
  have h2 := (b.byte (o + 2)).toNat_lt
  have h3 := (b.byte (o + 3)).toNat_lt
  have hbyte : ∀ (x : UInt8) (v : Nat), v % 256 = x.toNat → UInt8.ofNat v = x := by
    intro x v hv
    refine UInt8.toNat.inj ?_
    rw [UInt8.toNat_ofNat', hv]
  refine ext fun i hi => ?_
  rw [setU32, byte_ofFn, if_pos hi]
  unfold u32
  split
  · next heq =>
      rw [heq]
      exact hbyte _ _ (by omega)
  · split
    · next heq =>
        rw [heq]
        exact hbyte _ _ (by omega)
    · split
      · next heq =>
          rw [heq]
          exact hbyte _ _ (by omega)
      · split
        · next heq =>
            rw [heq]
            exact hbyte _ _ (by omega)
        · rfl

/-! ## Copies in and out -/

/-- `memcpy` of `src` to offset `o` of the block. The offset is a C `int`: what
falls outside the block is not part of it. -/
def splice (b : ByteBlock n) (o : Int) (src : List UInt8) : ByteBlock n :=
  ofFn fun i =>
    if o ≤ i ∧ (i : Int) < o + src.length then src.getD (i - o).toNat 0
    else b.byte i

/-- `len` bytes from offset `o` on; `stray` is what memory holds outside the
block. -/
def load (stray : Int → UInt8) (b : ByteBlock n) (o : Int) (len : Nat) :
    List UInt8 :=
  (List.range len).map fun k : Nat =>
    let i : Int := o + k
    if 0 ≤ i ∧ i < n then b.byte i.toNat else stray i

theorem byte_splice {b : ByteBlock n} {o : Int} {src : List UInt8} {i : Nat}
    (hi : i < n) : (b.splice o src).byte i =
      if o ≤ i ∧ (i : Int) < o + src.length then src.getD (i - o).toNat 0
      else b.byte i := by
  rw [splice, byte_ofFn, if_pos hi]

@[simp] theorem length_load (stray : Int → UInt8) (b : ByteBlock n) (o : Int)
    (len : Nat) : (b.load stray o len).length = len := by
  simp [load]

theorem load_eq {stray : Int → UInt8} {b : ByteBlock n} {o len : Nat}
    (h : o + len ≤ n) :
    b.load stray o len = (List.range len).map fun k => b.byte (o + k) := by
  unfold load
  refine List.map_congr_left fun k hk => ?_
  have hk := List.mem_range.1 hk
  simp only []
  rw [if_pos (by omega)]
  congr 1

/-- The whole block as a list. -/
def toList (b : ByteBlock n) : List UInt8 := (List.range n).map b.byte

@[simp] theorem length_toList (b : ByteBlock n) : b.toList.length = n := by
  simp [toList]

end ByteBlock

end SimpleShell.Lib
