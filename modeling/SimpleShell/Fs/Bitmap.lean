import SimpleShell.Lib.LittleEndian
import SimpleShell.Fs.Block
import Mathlib.Data.Finset.Card
import Mathlib.Data.Finset.Range

/-!
# Bitmaps

`bitmap.c`: an array of bits packed into 64-bit words, with the masks and
shifts of the source. Past this file a bitmap is read through `bitmapTest`
alone; each operation comes with one lemma saying which tests it changes.
`Bitmap.Wf` records what `bitmap_create` and `bitmap_read` establish and
`bitmap_mark` keeps in range: the array has the length the bit count calls for,
and the unused bits of its last word are clear.
-/

namespace SimpleShell.Fs

open SimpleShell.Lib

abbrev ELEM_BITS : Nat := 64

/-- `struct bitmap`, with `elem_type` the 64-bit `unsigned long`. -/
structure Bitmap where
  bitCnt : Nat
  bits : List (BitVec 64)
deriving DecidableEq

def elemIdx (bitIdx : Nat) : Nat := bitIdx / ELEM_BITS

def bitMask (bitIdx : Nat) : BitVec 64 := 1#64 <<< (bitIdx % ELEM_BITS)

def elemCnt (bitCnt : Nat) : Nat := (bitCnt + ELEM_BITS - 1) / ELEM_BITS

def byteCnt (bitCnt : Nat) : Nat := 8 * elemCnt bitCnt

def lastMask (b : Bitmap) : BitVec 64 :=
  let lastBits := b.bitCnt % ELEM_BITS
  if lastBits ≠ 0 then (1#64 <<< lastBits) - 1 else .allOnes 64

/-! ## Single bits -/

def bitmapTest (b : Bitmap) (idx : Nat) : Bool :=
  (b.bits.getD (elemIdx idx) 0 &&& bitMask idx) != 0

def bitmapMark (b : Bitmap) (idx : Nat) : Bitmap :=
  { b with bits := b.bits.modify (elemIdx idx) (· ||| bitMask idx) }

def bitmapReset (b : Bitmap) (idx : Nat) : Bitmap :=
  { b with bits := b.bits.modify (elemIdx idx) (· &&& ~~~ bitMask idx) }

def bitmapSet (b : Bitmap) (idx : Nat) (value : Bool) : Bitmap :=
  if value then bitmapMark b idx else bitmapReset b idx

/-! ## Runs of bits -/

def bitmapSetMultiple (b : Bitmap) (start cnt : Nat) (value : Bool) : Bitmap :=
  (List.range cnt).foldl (fun b i => bitmapSet b (start + i) value) b

def bitmapCount (b : Bitmap) (start cnt : Nat) (value : Bool) : Nat :=
  (List.range cnt).countP fun i => bitmapTest b (start + i) == value

def bitmapContains (b : Bitmap) (start cnt : Nat) (value : Bool) : Bool :=
  (List.range cnt).any fun i => bitmapTest b (start + i) == value

/-- `bitmap_scan`, with `none` for `BITMAP_ERROR`. -/
def bitmapScan (b : Bitmap) (start cnt : Nat) (value : Bool) : Option Nat :=
  if cnt ≤ b.bitCnt then
    let last := b.bitCnt - cnt
    (List.range' start (last + 1 - start)).find? fun i =>
      !bitmapContains b i cnt (!value)
  else none

def bitmapScanAndFlip (b : Bitmap) (start cnt : Nat) (value : Bool) :
    Option Nat × Bitmap :=
  match bitmapScan b start cnt value with
  | some idx => (some idx, bitmapSetMultiple b idx cnt (!value))
  | none => (none, b)

/-- `bitmap_create`: the words are cleared by `memset` and once more by
`bitmap_set_all`. -/
def bitmapCreate (bitCnt : Nat) : Bitmap :=
  bitmapSetMultiple ⟨bitCnt, List.replicate (elemCnt bitCnt) 0⟩ 0 bitCnt false

/-- The bytes of the word array, what `bitmap_write` hands to the file. -/
def Bitmap.toBytes (b : Bitmap) : List UInt8 := wordsToBytes b.bits

/-- The word array after `file_read_at` put `bytes` at its start, with the last
word masked. -/
def Bitmap.ofBytes (b : Bitmap) (bytes : List UInt8) : Bitmap :=
  let bits := bytesToWords b.bits.length
    (bytes ++ b.toBytes.drop bytes.length)
  { b with bits := bits.modify (elemCnt b.bitCnt - 1) (· &&& lastMask b) }

/-! ## What a test sees -/

theorem bitmapTest_eq (b : Bitmap) (idx : Nat) :
    bitmapTest b idx =
      (b.bits.getD (idx / ELEM_BITS) 0).getLsbD (idx % ELEM_BITS) := by
  have hlt : idx % ELEM_BITS < 64 := Nat.mod_lt _ (by decide)
  unfold bitmapTest bitMask elemIdx
  rw [← BitVec.twoPow_eq, BitVec.and_twoPow]
  split
  · next h =>
      rw [h]
      have : BitVec.twoPow 64 (idx % ELEM_BITS) ≠ 0#64 := fun h0 => by
        have := congrArg (fun x => x.getLsbD (idx % ELEM_BITS)) h0
        simp [hlt] at this
      simpa using this
  · next h =>
      have h := Bool.eq_false_iff.2 h
      rw [h]
      rfl

/-- A change of one word, bit by bit. -/
theorem bitmapTest_modify (b : Bitmap) (f : BitVec 64 → BitVec 64)
    (w j : Nat) :
    bitmapTest { b with bits := b.bits.modify w f } j =
      if j / ELEM_BITS = w ∧ w < b.bits.length then
        (f (b.bits.getD w 0)).getLsbD (j % ELEM_BITS)
      else bitmapTest b j := by
  rw [bitmapTest_eq, bitmapTest_eq]
  simp only [List.getD_eq_getElem?_getD, List.getElem?_modify]
  by_cases hw : j / ELEM_BITS = w
  · subst hw
    by_cases hlen : j / ELEM_BITS < b.bits.length
    · simp [hlen]
    · simp [hlen]
  · simp [hw, Ne.symm hw]

theorem bitmapTest_mark {b : Bitmap} {i : Nat} (hi : i / ELEM_BITS < b.bits.length)
    (j : Nat) : bitmapTest (bitmapMark b i) j = (j == i || bitmapTest b j) := by
  unfold bitmapMark elemIdx
  rw [bitmapTest_modify]
  have hlt : i % ELEM_BITS < 64 := Nat.mod_lt _ (by decide)
  split
  · next h =>
      rw [BitVec.getLsbD_or, bitMask, ← BitVec.twoPow_eq,
        BitVec.getLsbD_twoPow, bitmapTest_eq, h.1]
      by_cases hji : j = i
      · subst hji; simp [hlt]
      · have : i % ELEM_BITS ≠ j % ELEM_BITS := fun hm => hji (by
          have := Nat.div_add_mod j ELEM_BITS
          have := Nat.div_add_mod i ELEM_BITS
          rw [h.1, ← hm] at *; omega)
        simp [hji, this]
  · next h =>
      have hji : j ≠ i := fun he => h ⟨by rw [he], hi⟩
      simp [hji]

theorem bitmapTest_reset (b : Bitmap) (i j : Nat) :
    bitmapTest (bitmapReset b i) j = (j != i && bitmapTest b j) := by
  unfold bitmapReset elemIdx
  rw [bitmapTest_modify]
  have hlt : j % ELEM_BITS < 64 := Nat.mod_lt _ (by decide)
  split
  · next h =>
      rw [BitVec.getLsbD_and, BitVec.getLsbD_not, bitMask, ← BitVec.twoPow_eq,
        BitVec.getLsbD_twoPow, bitmapTest_eq, h.1]
      by_cases hji : j = i
      · subst hji; simp [hlt]
      · have : i % ELEM_BITS ≠ j % ELEM_BITS := fun hm => hji (by
          have := Nat.div_add_mod j ELEM_BITS
          have := Nat.div_add_mod i ELEM_BITS
          rw [h.1, ← hm] at *; omega)
        simp [hji, this, hlt]
  · next h =>
      by_cases hji : j = i
      · -- An index past the array has no bit to clear, and none set.
        subst hji
        have hge : b.bits.length ≤ j / ELEM_BITS := by
          by_contra hlt
          exact h ⟨rfl, by omega⟩
        rw [bitmapTest_eq]
        simp [List.getElem?_eq_none hge]
      · simp [hji]

@[simp] theorem bitmapMark_length (b : Bitmap) (i : Nat) :
    (bitmapMark b i).bits.length = b.bits.length := by simp [bitmapMark]

@[simp] theorem bitmapReset_length (b : Bitmap) (i : Nat) :
    (bitmapReset b i).bits.length = b.bits.length := by simp [bitmapReset]

@[simp] theorem bitmapMark_bitCnt (b : Bitmap) (i : Nat) :
    (bitmapMark b i).bitCnt = b.bitCnt := rfl

@[simp] theorem bitmapReset_bitCnt (b : Bitmap) (i : Nat) :
    (bitmapReset b i).bitCnt = b.bitCnt := rfl

/-! ## Well-formed bitmaps -/

structure Bitmap.Wf (b : Bitmap) : Prop where
  length : b.bits.length = elemCnt b.bitCnt
  unused : ∀ i, b.bitCnt ≤ i → bitmapTest b i = false

theorem Bitmap.Wf.word_lt {b : Bitmap} (hb : b.Wf) {i : Nat}
    (hi : i < b.bitCnt) : i / ELEM_BITS < b.bits.length := by
  rw [hb.length, elemCnt]
  simp only [ELEM_BITS] at *
  omega

/-- Two bitmaps of one size that no test tells apart are the same. -/
theorem Bitmap.Wf.ext {b b' : Bitmap} (hb : b.Wf) (hb' : b'.Wf) (hcnt : b'.bitCnt = b.bitCnt)
    (h : ∀ j, bitmapTest b' j = bitmapTest b j) : b' = b := by
  have hlen : b'.bits.length = b.bits.length := by rw [hb.length, hb'.length, hcnt]
  have hbits : b'.bits = b.bits := by
    refine List.ext_getElem hlen fun w hw' hw => BitVec.eq_of_getLsbD_eq fun i hi => ?_
    have hdiv : (ELEM_BITS * w + i) / ELEM_BITS = w := by simp only [ELEM_BITS]; omega
    have hmod : (ELEM_BITS * w + i) % ELEM_BITS = i := by simp only [ELEM_BITS]; omega
    have htest := h (ELEM_BITS * w + i)
    rw [bitmapTest_eq, bitmapTest_eq, hdiv, hmod, List.getD_eq_getElem?_getD,
      List.getD_eq_getElem?_getD, List.getElem?_eq_getElem hw', List.getElem?_eq_getElem hw]
      at htest
    exact htest
  obtain ⟨cnt, bits⟩ := b
  obtain ⟨cnt', bits'⟩ := b'
  congr

theorem Bitmap.Wf.lt_of_test {b : Bitmap} (hb : b.Wf) {i : Nat}
    (hi : bitmapTest b i) : i < b.bitCnt := by
  by_contra h
  rw [hb.unused i (by omega)] at hi
  exact Bool.noConfusion hi

theorem Bitmap.Wf.mark {b : Bitmap} (hb : b.Wf) {i : Nat}
    (hi : i < b.bitCnt) : (bitmapMark b i).Wf := by
  refine ⟨by simpa using hb.length, fun j hj => ?_⟩
  rw [bitmapMark_bitCnt] at hj
  rw [bitmapTest_mark (hb.word_lt hi), hb.unused j hj]
  simp
  omega

theorem Bitmap.Wf.reset {b : Bitmap} (hb : b.Wf) (i : Nat) :
    (bitmapReset b i).Wf := by
  refine ⟨by simpa using hb.length, fun j hj => ?_⟩
  rw [bitmapTest_reset, hb.unused j hj, Bool.and_false]

theorem bitmapSetMultiple_one (b : Bitmap) (i : Nat) (v : Bool) :
    bitmapSetMultiple b i 1 v = bitmapSet b i v := by
  simp [bitmapSetMultiple]

theorem foldl_reset (b : Bitmap) (l : List Nat) :
    let b' := l.foldl (fun b i => bitmapSet b (0 + i) false) b
    b'.bitCnt = b.bitCnt ∧ b'.bits.length = b.bits.length ∧
      ∀ j, bitmapTest b' j = (bitmapTest b j && !l.contains j) := by
  induction l generalizing b with
  | nil => simp
  | cons a l ih =>
      obtain ⟨h₁, h₂, h₃⟩ := ih (bitmapSet b (0 + a) false)
      simp only [List.foldl_cons]
      refine ⟨h₁, by simpa [bitmapSet] using h₂, fun j => ?_⟩
      rw [h₃]
      simp only [bitmapSet, Bool.false_eq_true, if_false, Nat.zero_add,
        bitmapTest_reset, List.contains_cons]
      rw [bne]
      cases j == a <;> cases bitmapTest b j <;> cases l.contains j <;> rfl

theorem bitmapCreate_bitCnt (n : Nat) : (bitmapCreate n).bitCnt = n :=
  (foldl_reset _ _).1

theorem bitmapTest_replicate (n m i : Nat) :
    bitmapTest ⟨n, List.replicate m 0⟩ i = false := by
  rw [bitmapTest_eq]
  simp only [List.getD_eq_getElem?_getD, List.getElem?_replicate]
  split <;> simp

theorem bitmapTest_create (n i : Nat) : bitmapTest (bitmapCreate n) i = false := by
  obtain ⟨-, -, h⟩ := foldl_reset ⟨n, List.replicate (elemCnt n) 0⟩ (List.range n)
  change bitmapTest (List.foldl _ _ _) i = false
  rw [h, bitmapTest_replicate, Bool.false_and]

theorem bitmapCreate_wf (n : Nat) : (bitmapCreate n).Wf := by
  refine ⟨?_, fun i _ => bitmapTest_create n i⟩
  rw [bitmapCreate_bitCnt]
  exact (foldl_reset _ _).2.1.trans (by simp)

/-! ## Search and count -/

theorem bitmapContains_one (b : Bitmap) (i : Nat) (v : Bool) :
    bitmapContains b i 1 v = (bitmapTest b i == v) := by
  simp [bitmapContains]

theorem bitmapContains_eq_false {b : Bitmap} {start cnt : Nat} {v : Bool} :
    bitmapContains b start cnt v = false ↔
      ∀ i, start ≤ i → i < start + cnt → bitmapTest b i = !v := by
  unfold bitmapContains
  rw [List.any_eq_false]
  constructor
  · intro hall i hi hlt
    have h := hall (i - start) (List.mem_range.2 (by omega))
    rw [Nat.add_sub_cancel' hi, beq_iff_eq] at h
    exact Bool.eq_not.2 h
  · intro hall i hi
    rw [beq_iff_eq]
    exact Bool.eq_not.1 (hall _ (by omega) (Nat.add_lt_add_left (List.mem_range.1 hi) start))

/-- `cnt` clear bits from `k` on. -/
structure FreeRun (b : Bitmap) (cnt k : Nat) : Prop where
  fits : k + cnt ≤ b.bitCnt
  clear : ∀ i, k ≤ i → i < k + cnt → bitmapTest b i = false

theorem freeRun_iff {b : Bitmap} {cnt k : Nat} :
    FreeRun b cnt k ↔ k + cnt ≤ b.bitCnt ∧ bitmapContains b k cnt true = false :=
  ⟨fun h => ⟨h.fits, bitmapContains_eq_false.2 h.clear⟩,
    fun h => ⟨h.1, bitmapContains_eq_false.1 h.2⟩⟩

theorem freeRun_one {b : Bitmap} {k : Nat} :
    FreeRun b 1 k ↔ k < b.bitCnt ∧ bitmapTest b k = false := by
  rw [freeRun_iff, bitmapContains_one]
  cases bitmapTest b k <;> rfl

/-- First fit: the lowest run there is. -/
theorem bitmapScan_run_some {b : Bitmap} {cnt k : Nat} :
    bitmapScan b 0 cnt false = some k ↔
      FreeRun b cnt k ∧ ∀ j, j < k → ¬FreeRun b cnt j := by
  simp only [freeRun_iff]
  unfold bitmapScan
  split
  · next h =>
      simp only [List.find?_range'_eq_some, List.mem_range', Bool.not_false, Bool.not_eq_true']
      constructor
      · rintro ⟨hclear, ⟨i, hi, rfl⟩, hfirst⟩
        refine ⟨⟨by omega, hclear⟩, fun j hj hrun => ?_⟩
        have hset := hfirst j (Nat.zero_le j) hj
        rw [hrun.2] at hset
        cases hset
      · rintro ⟨⟨hfits, hclear⟩, hfirst⟩
        refine ⟨hclear, ⟨k, by omega, by omega⟩, fun j _ hj => ?_⟩
        by_contra hset
        exact hfirst j hj ⟨by omega, Bool.eq_false_iff.2 (by simpa using hset)⟩
  · next h =>
      simp only [reduceCtorEq, false_iff]
      rintro ⟨⟨hfits, -⟩, -⟩
      omega

theorem bitmapScan_run_none {b : Bitmap} {cnt : Nat} :
    bitmapScan b 0 cnt false = none ↔ ∀ k, ¬FreeRun b cnt k := by
  simp only [freeRun_iff]
  unfold bitmapScan
  split
  · next h =>
      simp only [List.find?_eq_none, List.mem_range', Bool.not_false, Bool.not_eq_true',
        Bool.not_eq_false]
      constructor
      · rintro hall k ⟨hfits, hclear⟩
        have hset := hall k ⟨k, by omega, by omega⟩
        rw [hclear] at hset
        cases hset
      · rintro hall k ⟨i, hi, rfl⟩
        by_contra hset
        exact hall (0 + 1 * i) ⟨by omega, Bool.eq_false_iff.2 (by simpa using hset)⟩
  · next h =>
      simp only [true_iff]
      rintro k ⟨hfits, -⟩
      omega

/-- For one sector: the lowest clear bit. -/
theorem bitmapScan_free_some {b : Bitmap} {k : Nat} :
    bitmapScan b 0 1 false = some k ↔
      k < b.bitCnt ∧ bitmapTest b k = false ∧ ∀ j, j < k → bitmapTest b j := by
  rw [bitmapScan_run_some]
  simp only [freeRun_one, not_and, Bool.not_eq_false, and_assoc]
  constructor
  · rintro ⟨hlt, hclear, hfirst⟩
    exact ⟨hlt, hclear, fun j hj => hfirst j hj (by omega)⟩
  · rintro ⟨hlt, hclear, hfirst⟩
    exact ⟨hlt, hclear, fun j hj _ => hfirst j hj⟩

theorem bitmapScan_free_none {b : Bitmap} :
    bitmapScan b 0 1 false = none ↔ ∀ j, j < b.bitCnt → bitmapTest b j := by
  rw [bitmapScan_run_none]
  simp only [freeRun_one, not_and, Bool.not_eq_false]

/-! ## Setting a run -/

theorem bitmapSetMultiple_succ (b : Bitmap) (start cnt : Nat) (v : Bool) :
    bitmapSetMultiple b start (cnt + 1) v =
      bitmapSet (bitmapSetMultiple b start cnt v) (start + cnt) v := by
  simp only [bitmapSetMultiple, List.range_succ, List.foldl_append, List.foldl_cons,
    List.foldl_nil]

theorem bitmapSet_bitCnt (b : Bitmap) (i : Nat) (v : Bool) :
    (bitmapSet b i v).bitCnt = b.bitCnt := by
  cases v <;> rfl

theorem Bitmap.Wf.set {b : Bitmap} (hb : b.Wf) {i : Nat} (hi : i < b.bitCnt) (v : Bool) :
    (bitmapSet b i v).Wf := by
  cases v
  · exact hb.reset i
  · exact hb.mark hi

theorem bitmapTest_set {b : Bitmap} (hb : b.Wf) {i : Nat} (hi : i < b.bitCnt) (v : Bool)
    (j : Nat) : bitmapTest (bitmapSet b i v) j = if j = i then v else bitmapTest b j := by
  cases v
  · refine (bitmapTest_reset b i j).trans ?_
    by_cases hji : j = i <;> simp [hji]
  · refine (bitmapTest_mark (hb.word_lt hi) j).trans ?_
    by_cases hji : j = i <;> simp [hji]

/-- `bitmap_set_multiple` sets the bits of the run and no others. -/
theorem bitmapSetMultiple_spec {b : Bitmap} (hb : b.Wf) {start cnt : Nat} (v : Bool)
    (hfits : start + cnt ≤ b.bitCnt) :
    (bitmapSetMultiple b start cnt v).Wf ∧
      (bitmapSetMultiple b start cnt v).bitCnt = b.bitCnt ∧
      ∀ i, bitmapTest (bitmapSetMultiple b start cnt v) i =
        if start ≤ i ∧ i < start + cnt then v else bitmapTest b i := by
  induction cnt with
  | zero =>
      refine ⟨hb, rfl, fun i => ?_⟩
      rw [if_neg (by omega)]
      rfl
  | succ cnt ih =>
      obtain ⟨hwf, hcnt, htest⟩ := ih (by omega)
      have hlt : start + cnt < (bitmapSetMultiple b start cnt v).bitCnt := by omega
      rw [bitmapSetMultiple_succ]
      refine ⟨hwf.set hlt v, (bitmapSet_bitCnt ..).trans hcnt, fun i => ?_⟩
      rw [bitmapTest_set hwf hlt, htest]
      by_cases hi : i = start + cnt
      · rw [if_pos hi, if_pos (by omega)]
      · rw [if_neg hi]
        exact if_congr (by omega) rfl rfl

/-- `num_free_sectors`. -/
def numFree (b : Bitmap) : Nat := bitmapCount b 0 b.bitCnt false

theorem numFree_eq (b : Bitmap) :
    numFree b = ((Finset.range b.bitCnt).filter fun i => bitmapTest b i = false).card := by
  simp [numFree, bitmapCount, Finset.card_def, Finset.filter_val, Finset.range_val,
    Multiset.range, List.countP_eq_length_filter]

theorem numFree_eq_zero {b : Bitmap} :
    numFree b = 0 ↔ ∀ j, j < b.bitCnt → bitmapTest b j := by
  rw [numFree_eq, Finset.card_eq_zero, Finset.filter_eq_empty_iff]
  simp

theorem numFree_mark {b : Bitmap} (hb : b.Wf) {k : Nat} (hk : k < b.bitCnt)
    (hfree : bitmapTest b k = false) :
    numFree (bitmapMark b k) + 1 = numFree b := by
  rw [numFree_eq, numFree_eq, bitmapMark_bitCnt]
  have hmem : k ∈ (Finset.range b.bitCnt).filter fun i => bitmapTest b i = false := by
    simp [hk, hfree]
  rw [← Finset.card_erase_add_one hmem]
  congr 2
  ext i
  simp only [Finset.mem_filter, Finset.mem_range, Finset.mem_erase,
    bitmapTest_mark (hb.word_lt hk)]
  by_cases hik : i = k <;> simp [hik]

theorem numFree_reset {b : Bitmap} {k : Nat} (hk : k < b.bitCnt)
    (hused : bitmapTest b k) : numFree (bitmapReset b k) = numFree b + 1 := by
  rw [numFree_eq, numFree_eq, bitmapReset_bitCnt]
  have hmem : k ∈ (Finset.range b.bitCnt).filter
      fun i => bitmapTest (bitmapReset b k) i = false := by
    simp [hk, bitmapTest_reset]
  rw [← Finset.card_erase_add_one hmem]
  congr 2
  ext i
  simp only [Finset.mem_filter, Finset.mem_range, Finset.mem_erase,
    bitmapTest_reset]
  by_cases hik : i = k <;> simp [hik, hused]

/-! ## Through the file and back -/

theorem Bitmap.Wf.length_toBytes {b : Bitmap} (hb : b.Wf) :
    b.toBytes.length = byteCnt b.bitCnt := by
  rw [Bitmap.toBytes, length_wordsToBytes, hb.length, byteCnt]

theorem getLsbD_lastMask (b : Bitmap) {j : Nat} (hj : j < 64) :
    (lastMask b).getLsbD j =
      (b.bitCnt % ELEM_BITS == 0 || decide (j < b.bitCnt % ELEM_BITS)) := by
  unfold lastMask
  simp only []
  split
  · next h =>
      have hlt : b.bitCnt % ELEM_BITS < 64 := Nat.mod_lt _ (by decide)
      have hpow : 2 ^ (b.bitCnt % ELEM_BITS) < 2 ^ 64 :=
        Nat.pow_lt_pow_right (by decide) hlt
      have hone : 1 ≤ 2 ^ (b.bitCnt % ELEM_BITS) := Nat.one_le_two_pow
      have hval : ((1#64 <<< (b.bitCnt % ELEM_BITS)) - 1).toNat =
          2 ^ (b.bitCnt % ELEM_BITS) - 1 := by
        rw [← BitVec.twoPow_eq, BitVec.toNat_sub, BitVec.toNat_twoPow,
          Nat.mod_eq_of_lt hpow]
        simp
        omega
      rw [BitVec.getLsbD, hval, Nat.testBit_two_pow_sub_one]
      simp [h]
  · next h =>
      have h : b.bitCnt % ELEM_BITS = 0 := by simpa using h
      rw [BitVec.getLsbD_allOnes]
      simp [h, hj]

/-- `bitmap_read` gives back what `bitmap_write` put in the file, into any
bitmap of the same size: the mask has nothing to clear. -/
theorem Bitmap.ofBytes_toBytes {b c : Bitmap} (hb : b.Wf)
    (hcnt : c.bitCnt = b.bitCnt) (hlen : c.bits.length = b.bits.length) :
    c.ofBytes b.toBytes = b := by
  have hwords : bytesToWords c.bits.length
      (b.toBytes ++ c.toBytes.drop b.toBytes.length) = b.bits := by
    rw [List.drop_of_length_le (by simp [Bitmap.toBytes, hlen]),
      List.append_nil, hlen]
    exact bytesToWords_wordsToBytes b.bits
  unfold Bitmap.ofBytes
  simp only []
  rw [hwords, hcnt]
  obtain ⟨n, bits⟩ := b
  simp only [Bitmap.mk.injEq, true_and] at hcnt ⊢
  refine List.ext_getElem? fun w => ?_
  rw [List.getElem?_modify]
  split
  · next hw =>
      -- Only the last word is masked, and its masked bits are unused ones.
      subst hw
      cases hg : bits[elemCnt n - 1]? with
      | none => rfl
      | some word =>
          simp only [Option.map_eq_map, Option.map_some, Option.some.injEq]
          refine BitVec.eq_of_getLsbD_eq fun j hj => ?_
          rw [BitVec.getLsbD_and, getLsbD_lastMask c hj, hcnt]
          by_cases hm : n % ELEM_BITS = 0 ∨ j < n % ELEM_BITS
          · rcases hm with hm | hm <;> simp [hm]
          · have hun := hb.unused (64 * (elemCnt n - 1) + j) (by
              simp only [elemCnt, ELEM_BITS] at *
              omega)
            rw [bitmapTest_eq] at hun
            have hdiv : (64 * (elemCnt n - 1) + j) / ELEM_BITS = elemCnt n - 1 := by
              simp only [ELEM_BITS]; omega
            have hmod : (64 * (elemCnt n - 1) + j) % ELEM_BITS = j := by
              simp only [ELEM_BITS]; omega
            rw [hdiv, hmod] at hun
            simp only [List.getD_eq_getElem?_getD, hg, Option.getD_some] at hun
            simp [hun]
  · simp

/-- What was in memory does not matter to `bitmap_read` when the file has all the bytes. -/
theorem Bitmap.ofBytes_congr {b c : Bitmap} {bytes : List UInt8} (hcnt : c.bitCnt = b.bitCnt)
    (hlen : c.bits.length = b.bits.length) (hbytes : 8 * b.bits.length ≤ bytes.length) :
    c.ofBytes bytes = b.ofBytes bytes := by
  have hnone : ∀ a : Bitmap, a.bits.length = b.bits.length →
      a.toBytes.drop bytes.length = [] := by
    intro a ha
    refine List.drop_of_length_le ?_
    rw [Bitmap.toBytes, length_wordsToBytes, ha]
    exact hbytes
  unfold Bitmap.ofBytes lastMask
  dsimp only
  rw [hnone c hlen, hnone b rfl, hcnt, hlen]

/-- Whatever the file holds, the masked bits are clear. -/
theorem Bitmap.ofBytes_wf {b : Bitmap} (hlen : b.bits.length = elemCnt b.bitCnt)
    (bytes : List UInt8) : (b.ofBytes bytes).Wf := by
  obtain ⟨words, hwords⟩ : ∃ words, words = bytesToWords b.bits.length
    (bytes ++ b.toBytes.drop bytes.length) := ⟨_, rfl⟩
  have hof : b.ofBytes bytes =
      ⟨b.bitCnt, words.modify (elemCnt b.bitCnt - 1) (· &&& lastMask b)⟩ := by
    rw [hwords]
    rfl
  have hlength : words.length = elemCnt b.bitCnt := by
    rw [hwords, length_bytesToWords, hlen]
  rw [hof]
  refine ⟨by rw [List.length_modify, hlength], fun i hi => ?_⟩
  have hi : b.bitCnt ≤ i := hi
  rw [bitmapTest_modify ⟨b.bitCnt, words⟩]
  split
  · next h =>
      -- In the last word it is a bit past the mask.
      rw [BitVec.getLsbD_and, getLsbD_lastMask b (Nat.mod_lt _ (by decide))]
      have hfalse : (b.bitCnt % ELEM_BITS == 0 ||
          decide (i % ELEM_BITS < b.bitCnt % ELEM_BITS)) = false := by
        obtain ⟨hword, hlast⟩ := h
        rw [hlength] at hlast
        simp only [elemCnt, ELEM_BITS] at hword hlast ⊢
        simp only [Bool.or_eq_false_iff, beq_eq_false_iff_ne, decide_eq_false_iff_not]
        omega
      rw [hfalse, Bool.and_false]
  · next h =>
      have hpast : words.length ≤ i / ELEM_BITS := by
        by_contra hlt
        refine h ⟨?_, ?_⟩
        all_goals
          simp only [elemCnt, ELEM_BITS] at *
          omega
      rw [bitmapTest_eq, List.getD_eq_getElem?_getD, List.getElem?_eq_none hpast]
      exact BitVec.getLsbD_zero

end SimpleShell.Fs
