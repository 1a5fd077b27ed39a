import SimpleShell.Fs.Recover

/-!
# What `recover (1)` makes of a sector

`remove_nulls` moves the bytes behind a NUL one place down and counts the length down with
it, and the next sector starts from the length that is left. So only a window at the start
of a sector is cleaned, which gets smaller with every NUL found; behind it stand copies of
its last byte and the rest of the sector as it was, and `strlen` decides how much of that
goes into the host file. The sector is the one on the device, whatever the cache holds.
-/

namespace SimpleShell.Fs

open SimpleShell.Lib

def nonNul (l : List UInt8) : List UInt8 := l.filter (· ≠ 0)

/-- `l` from its first NUL on. -/
def afterNul (l : List UInt8) : List UInt8 := l.drop (cString l).length

/-- What stands behind the cleaned window `a`: the copies of its last byte, the rest `r` of
the sector and the memory `b` behind it, up to the first NUL. -/
def leftOver (a r b : List UInt8) : List UInt8 :=
  cString (List.replicate (a.count 0) (a.getLastD 0) ++ r ++ b)

/-- Nothing but the other bytes of the rest `r` comes out behind the window `a`. -/
structure TailClean (a r b : List UInt8) : Prop where
  whole : 0 ∉ a → nonNul (afterNul r) = [] ∧ (0 ∈ r ∨ cString b = [])
  ended : 0 ∈ a → a.getLastD 0 = 0 → nonNul r = []
  shifted : 0 ∈ a → a.getLastD 0 ≠ 0 → 0 ∈ r ∧ (∀ x ∈ cString r, x = a.getLastD 0) ∧
    nonNul (afterNul r) = List.replicate (a.count 0) (a.getLastD 0)

section Bytes

variable {a b r t : List UInt8} {x : UInt8}

@[simp] theorem nonNul_append (a b : List UInt8) : nonNul (a ++ b) = nonNul a ++ nonNul b :=
  List.filter_append ..

theorem nonNul_of_notMem (h : (0 : UInt8) ∉ a) : nonNul a = a :=
  List.filter_eq_self.2 fun _ hx => decide_eq_true fun h₀ => h (h₀ ▸ hx)

theorem notMem_nonNul (a : List UInt8) : (0 : UInt8) ∉ nonNul a := by
  simp [nonNul]

theorem nonNul_length (a : List UInt8) : (nonNul a).length + a.count 0 = a.length := by
  induction a with
  | nil => rfl
  | cons x a ih =>
      unfold nonNul at ih ⊢
      by_cases hx : x = 0
      · rw [List.filter_cons_of_neg (by simpa using hx), hx, List.count_cons_self,
          List.length_cons]
        omega
      · rw [List.filter_cons_of_pos (by simpa using hx), List.count_cons_of_ne hx,
          List.length_cons, List.length_cons]
        omega

/-- A NUL parts a list in what a C string shows of it and the rest. -/
theorem cString_split (h : (0 : UInt8) ∈ a) :
    ∃ t, afterNul a = 0 :: t ∧ a = cString a ++ 0 :: t ∧ (0 : UInt8) ∉ cString a := by
  induction a with
  | nil => cases h
  | cons x a ih =>
      by_cases hx : x = 0
      · subst hx
        exact ⟨a, rfl, rfl, List.not_mem_nil⟩
      · have hcons : cString (x :: a) = x :: cString a :=
          List.takeWhile_cons_of_pos (decide_eq_true (p := x ≠ 0) hx)
        obtain ⟨t, hafter, hsplit, hnone⟩ :=
          ih ((List.mem_cons.1 h).resolve_left (Ne.symm hx))
        refine ⟨t, ?_, ?_, ?_⟩
        · unfold afterNul at hafter ⊢
          rw [hcons]
          exact hafter
        · rw [hcons]
          exact congrArg (List.cons x) hsplit
        · rw [hcons]
          exact fun hmem => (List.mem_cons.1 hmem).elim (Ne.symm hx) hnone

theorem cString_of_notMem (h : (0 : UInt8) ∉ a) : cString a = a := by
  have hall := cString_append h []
  have hnil : cString [] = [] := rfl
  rwa [hnil, List.append_nil] at hall

theorem nonNul_split (h : (0 : UInt8) ∈ a) : nonNul a = cString a ++ nonNul (afterNul a) := by
  obtain ⟨t, hafter, hsplit, hnone⟩ := cString_split h
  rw [hafter]
  conv => lhs; rw [hsplit]
  rw [nonNul_append, nonNul_of_notMem hnone]

theorem cString_split_append (h : (0 : UInt8) ∈ a) (b : List UInt8) :
    cString (a ++ b) = cString a := by
  obtain ⟨t, -, hsplit, hnone⟩ := cString_split h
  conv => lhs; rw [hsplit, List.append_assoc]
  rw [cString_append hnone, List.cons_append]
  exact List.append_nil _

/-- Only copies of one byte can be put in front of a list or behind it alike. -/
theorem replicate_append_comm (n : Nat) (x : UInt8) (hn : 0 < n) :
    ∀ l : List UInt8, List.replicate n x ++ l = l ++ t ↔
      (∀ y ∈ l, y = x) ∧ t = List.replicate n x := by
  obtain ⟨m, rfl⟩ : ∃ m, n = m + 1 := ⟨n - 1, by omega⟩
  intro l
  induction l with
  | nil => simp [eq_comm]
  | cons y l ih =>
      have hshift : List.replicate (m + 1) x ++ y :: l = x :: (List.replicate m x ++ y :: l) := rfl
      rw [hshift, List.cons_append, List.cons.injEq, List.forall_mem_cons, and_assoc, ← ih]
      constructor
      · intro ⟨hxy, heq⟩
        refine ⟨hxy.symm, ?_⟩
        rw [← heq, ← hxy, List.replicate_succ', List.append_assoc]
        rfl
      · intro ⟨hyx, heq⟩
        refine ⟨hyx.symm, ?_⟩
        rw [← heq, hyx, List.replicate_succ', List.append_assoc]
        rfl

/-- When the left-over is just what it should be. -/
theorem leftOver_eq_iff : leftOver a r b = nonNul r ↔ TailClean a r b := by
  unfold leftOver
  by_cases hmem : (0 : UInt8) ∈ a
  · have hpos : 0 < a.count 0 := List.count_pos_iff.2 hmem
    by_cases hlast : a.getLastD 0 = 0
    · have hnil : cString (List.replicate (a.count 0) (a.getLastD 0) ++ r ++ b) = [] := by
        obtain ⟨m, hm⟩ : ∃ m, a.count 0 = m + 1 := ⟨a.count 0 - 1, by omega⟩
        rw [hm, hlast]
        rfl
      rw [hnil]
      constructor
      · intro heq
        exact ⟨fun hno => absurd hmem hno, fun _ _ => heq.symm, fun _ hne => absurd hlast hne⟩
      · intro h
        exact (h.ended hmem hlast).symm
    · have hnone : (0 : UInt8) ∉ List.replicate (a.count 0) (a.getLastD 0) := by
        intro hin
        exact hlast (List.eq_of_mem_replicate hin).symm
      rw [List.append_assoc, cString_append hnone]
      by_cases hr : (0 : UInt8) ∈ r
      · rw [cString_split_append hr, nonNul_split hr, replicate_append_comm _ _ hpos]
        constructor
        · intro ⟨hall, hrest⟩
          exact ⟨fun hno => absurd hmem hno, fun _ h₀ => absurd h₀ hlast,
            fun _ _ => ⟨hr, hall, hrest⟩⟩
        · intro h
          exact (h.shifted hmem hlast).2
      · rw [cString_append hr, nonNul_of_notMem hr]
        constructor
        · intro heq
          have hlen := congrArg List.length heq
          rw [List.length_append, List.length_append, List.length_replicate] at hlen
          omega
        · intro h
          exact absurd (h.shifted hmem hlast).1 hr
  · rw [List.count_eq_zero_of_not_mem hmem, List.replicate_zero, List.nil_append]
    by_cases hr : (0 : UInt8) ∈ r
    · rw [cString_split_append hr, nonNul_split hr]
      constructor
      · intro heq
        have hnil : nonNul (afterNul r) = [] := List.append_right_eq_self.1 heq.symm
        exact ⟨fun _ => ⟨hnil, .inl hr⟩, fun hin => absurd hin hmem, fun hin => absurd hin hmem⟩
      · intro h
        rw [(h.whole hmem).1, List.append_nil]
    · rw [cString_append hr, nonNul_of_notMem hr]
      constructor
      · intro heq
        have hnil : cString b = [] := List.append_right_eq_self.1 heq
        refine ⟨fun _ => ⟨?_, .inr hnil⟩, fun hin => absurd hin hmem, fun hin => absurd hin hmem⟩
        rw [afterNul, cString_of_notMem hr, List.drop_length]
        rfl
      · intro h
        rw [(h.whole hmem).2.resolve_left hr, List.append_nil]

/-! ## `remove_nulls` -/

theorem memmove_nul {pre post : List UInt8} (r : List UInt8) :
    memmove (pre ++ 0 :: post ++ r) pre.length (pre.length + 1)
        (pre.length + 1 + post.length - pre.length - 1) =
      pre ++ post ++ ((0 :: post).getLastD 0 :: r) := by
  have hdst : (pre ++ 0 :: post ++ r).take pre.length = pre := by
    rw [List.append_assoc, List.take_left]
  have hsrc : (pre ++ 0 :: post ++ r).drop (pre.length + 1) = post ++ r := by
    rw [List.append_assoc, List.drop_append]
    simp
  have hcount : pre.length + 1 + post.length - pre.length - 1 = post.length := by omega
  have hlast : (0 :: post : List UInt8) = (0 :: post).dropLast ++ [(0 :: post).getLastD 0] := by
    have hget : (0 :: post : List UInt8).getLastD 0 = (0 :: post).getLast (List.cons_ne_nil _ _) := by
      rw [List.getLastD_cons, List.getLast_eq_getLastD]
    rw [hget]
    exact (List.dropLast_append_getLast _).symm
  have hend : (pre ++ 0 :: post ++ r).drop (pre.length + post.length) =
      (0 :: post).getLastD 0 :: r := by
    generalize (0 :: post).getLastD 0 = x at hlast ⊢
    have hlen : (0 :: post : List UInt8).dropLast.length = post.length := List.length_dropLast
    rw [hlast, ← List.append_assoc pre, List.append_assoc, List.drop_left' (by
      rw [List.length_append, hlen])]
    rfl
  rw [memmove, hcount, hdst, hsrc, List.take_left, hend]

/-- The window loses its NULs, and its last byte is copied as often. -/
theorem removeNulls_spec (n : Nat) : ∀ a r : List UInt8, a.length = n →
    removeNulls (a ++ r) n =
      (nonNul a ++ List.replicate (a.count 0) (a.getLastD 0) ++ r, (nonNul a).length) := by
  induction n with
  | zero =>
      intro a r ha
      obtain rfl := List.eq_nil_of_length_eq_zero ha
      rfl
  | succ n ih =>
      intro a r ha
      have htake : (a ++ r).take (n + 1) = a := List.take_left' ha
      rw [removeNulls, htake]
      by_cases hmem : (0 : UInt8) ∈ a
      · obtain ⟨post, -, hsplit, hnone⟩ := cString_split hmem
        generalize cString a = pre at hsplit hnone
        subst hsplit
        rw [List.length_append, List.length_cons] at ha
        have hidx : (pre ++ 0 :: post).idxOf 0 = pre.length := by
          rw [List.idxOf_append_of_notMem hnone, List.idxOf_cons_self, Nat.add_zero]
        have hlen : n + 1 = pre.length + 1 + post.length := by omega
        have hwindow : (pre ++ post).length = n := by
          rw [List.length_append]
          omega
        have hkept : nonNul (pre ++ 0 :: post) = nonNul (pre ++ post) := by
          rw [nonNul_append, nonNul_append]
          rfl
        have hcount : (pre ++ 0 :: post).count 0 = (pre ++ post).count 0 + 1 := by
          rw [List.count_append, List.count_append, List.count_cons_self]
          rfl
        have hlast : (pre ++ 0 :: post).getLastD 0 = (0 :: post).getLastD 0 := by
          simp [List.getLastD_eq_getLast?, List.getLast?_append, List.getLast?_cons]
        rw [if_pos hmem]
        dsimp only
        rw [hidx, hlen, memmove_nul, ih _ _ hwindow, hkept, hcount, hlast]
        refine Prod.ext ?_ rfl
        generalize hx : (0 :: post).getLastD 0 = x
        -- A second NUL is in `post`, whose last byte is that of the window then and now.
        have hcopies : List.replicate ((pre ++ post).count 0) ((pre ++ post).getLastD 0) =
            List.replicate ((pre ++ post).count 0) x := by
          cases post with
          | nil =>
              rw [List.append_nil, List.count_eq_zero_of_not_mem hnone]
              rfl
          | cons y post =>
              have hsame : (pre ++ y :: post).getLastD 0 = x := by
                rw [← hx]
                simp [List.getLastD_eq_getLast?, List.getLast?_append, List.getLast?_cons]
              rw [hsame]
        dsimp only
        rw [hcopies, List.replicate_succ', List.append_assoc, List.append_assoc, List.append_assoc,
          List.singleton_append]
      · have hcount : a.count 0 = 0 := List.count_eq_zero_of_not_mem hmem
        rw [if_neg hmem, hcount, nonNul_of_notMem hmem, ha, List.replicate_zero, List.append_nil]

/-- `remove_nulls` filters the first `n` bytes in place and leaves the others alone. -/
theorem removeNulls_filters {n : Nat} (hn : n ≤ b.length) :
    (removeNulls b n).2 = (nonNul (b.take n)).length ∧
      (removeNulls b n).1.take (removeNulls b n).2 = nonNul (b.take n) ∧
      (removeNulls b n).1.drop n = b.drop n ∧ (removeNulls b n).1.length = b.length := by
  have hlen : (b.take n).length = n := by
    rw [List.length_take]
    omega
  have hspec := removeNulls_spec n (b.take n) (b.drop n) hlen
  have hcount := nonNul_length (b.take n)
  rw [List.take_append_drop] at hspec
  -- The filtered bytes and the copies behind them fill the window again.
  have hwindow : (nonNul (b.take n) ++
      List.replicate ((b.take n).count 0) ((b.take n).getLastD 0)).length = n := by
    rw [List.length_append, List.length_replicate, hcount, hlen]
  rw [hspec]
  refine ⟨rfl, ?_, List.drop_left' hwindow, ?_⟩
  · rw [List.append_assoc]
    exact List.take_left' rfl
  · rw [List.length_append, hwindow, List.length_drop]
    omega

theorem removeNulls_filters_five : 4 ≤ [97, 0, 98, 0, 99].length ∧
    removeNulls [97, 0, 98, 0, 99] 4 = ([97, 98, 0, 0, 99], 2) ∧
    (removeNulls [97, 0, 98, 0, 99] 4).2 = (nonNul ([97, 0, 98, 0, 99].take 4)).length :=
  ⟨by decide, by decide, (@removeNulls_filters [97, 0, 98, 0, 99] 4 (by decide)).1⟩

end Bytes

/-! ## The loop -/

section Dump

variable {s : FileSys} {mem : Nat → Malloced} {i : Nat} {text : CString}

/-- The bytes that `recover (1)` reads for sector `i`. -/
def deviceBytes (s : FileSys) (mem : Nat → Malloced) (i : Nat) : List UInt8 :=
  (blockRead s.cache.state.fsDevice i (mem i).buffer).toList

/-- The sectors from 4 on that are in use. -/
def usedSectors (s : FileSys) (n : Nat) : List Nat :=
  ((List.range n).drop 4).filter fun i => bitmapTest s.freeMap i

/-- What the window is after these sectors: each takes away the NULs found in it. -/
def windowAfter (s : FileSys) (mem : Nat → Malloced) (sectors : List Nat) (n : Nat) : Nat :=
  sectors.foldl (fun n i => n - ((deviceBytes s mem i).take n).count 0) n

/-- The start of sector `i` that is cleaned, and the rest. -/
def windowOf (s : FileSys) (mem : Nat → Malloced) (i : Nat) : List UInt8 :=
  (deviceBytes s mem i).take (windowAfter s mem (usedSectors s i) BLOCK_SECTOR_SIZE)

def restOf (s : FileSys) (mem : Nat → Malloced) (i : Nat) : List UInt8 :=
  (deviceBytes s mem i).drop (windowAfter s mem (usedSectors s i) BLOCK_SECTOR_SIZE)

theorem recovered1Name_inj {i j : Nat} (h : recovered1Name i = recovered1Name j) : i = j := by
  unfold recovered1Name at h
  rw [List.map_append, List.map_append, List.map_append, List.map_append] at h
  have hdigits := List.append_cancel_left (List.append_cancel_right h)
  have hback : ∀ n : Nat, ((Nat.toDigits 10 n).map fun c => UInt8.ofNat c.toNat).map
      (fun b => Char.ofNat b.toNat) = Nat.toDigits 10 n := by
    intro n
    rw [List.map_map]
    refine (List.map_congr_left fun c hc => ?_).trans (List.map_id _)
    have hdigit := Nat.isDigit_of_mem_toDigits (by decide) (by decide) hc
    have hsmall : c.toNat < 256 := by
      simp only [Char.isDigit, Bool.and_eq_true, decide_eq_true_eq] at hdigit
      have := hdigit.2
      exact Nat.lt_of_le_of_lt (UInt32.le_iff_toNat_le.1 this) (by decide)
    rw [Function.comp_apply, UInt8.toNat_ofNat', Nat.mod_eq_of_lt hsmall, Char.ofNat_toNat]
    rfl
  have hsame := hback i
  rw [hdigits, hback j] at hsame
  rw [← Nat.ofDigitChars_ten_toDigits (n := i), ← hsame, Nat.ofDigitChars_ten_toDigits]

theorem length_deviceBytes (s : FileSys) (mem : Nat → Malloced) (i : Nat) :
    (deviceBytes s mem i).length = BLOCK_SECTOR_SIZE := ByteBlock.length_toList _

/-- The host file of one sector, for the window that the loop comes with. -/
def dumpText (s : FileSys) (mem : Nat → Malloced) (i n : Nat) : CString :=
  nonNul ((deviceBytes s mem i).take n) ++
    leftOver ((deviceBytes s mem i).take n) ((deviceBytes s mem i).drop n) (mem i).beyond

theorem removeNulls_device {n : Nat} (hn : n ≤ BLOCK_SECTOR_SIZE) :
    let r := removeNulls (deviceBytes s mem i) n
    cString (r.1 ++ (mem i).beyond) = dumpText s mem i n ∧
      r.2 = n - ((deviceBytes s mem i).take n).count 0 := by
  have hlen : ((deviceBytes s mem i).take n).length = n := by
    rw [List.length_take, length_deviceBytes]
    exact Nat.min_eq_left hn
  have hspec := removeNulls_spec n ((deviceBytes s mem i).take n) ((deviceBytes s mem i).drop n) hlen
  rw [List.take_append_drop] at hspec
  have hcount := nonNul_length ((deviceBytes s mem i).take n)
  unfold dumpText
  dsimp only
  rw [hspec]
  refine ⟨?_, by dsimp only; omega⟩
  unfold leftOver
  dsimp only
  rw [List.append_assoc, List.append_assoc, cString_append (notMem_nonNul _), List.append_assoc]

theorem recoverUsed_mem (s : FileSys) (mem : Nat → Malloced) :
    ∀ (sectors : List Nat) (n : Nat), n ≤ BLOCK_SECTOR_SIZE → ∀ f,
      f ∈ recoverUsed s mem sectors n ↔ ∃ before i after, sectors = before ++ i :: after ∧
        bitmapTest s.freeMap i ∧ f = (recovered1Name i, dumpText s mem i
          (windowAfter s mem (before.filter fun j => bitmapTest s.freeMap j) n)) := by
  intro sectors
  induction sectors with
  | nil =>
      intro n _ f
      constructor
      · intro hf
        cases hf
      · intro ⟨before, i, after, hsplit, _⟩
        exact absurd hsplit.symm (by simp)
  | cons i sectors ih =>
      intro n hn f
      rw [recoverUsed]
      by_cases hused : bitmapTest s.freeMap i
      · obtain ⟨htext, hleft⟩ := @removeNulls_device s mem i n hn
        rw [if_pos hused]
        change f ∈ (recovered1Name i, cString ((removeNulls (deviceBytes s mem i) n).1 ++
          (mem i).beyond)) :: recoverUsed s mem sectors (removeNulls (deviceBytes s mem i) n).2 ↔ _
        rw [htext, hleft, List.mem_cons, ih _ (by omega)]
        constructor
        · intro hor
          rcases hor with hf | ⟨before, j, after, hsplit, hj, hf⟩
          · exact ⟨[], i, sectors, rfl, hused, hf⟩
          · refine ⟨i :: before, j, after, by rw [hsplit]; rfl, hj, ?_⟩
            rw [hf, List.filter_cons_of_pos hused]
            rfl
        · intro ⟨before, j, after, hsplit, hj, hf⟩
          cases before with
          | nil =>
              obtain ⟨rfl, -⟩ := List.cons.inj hsplit
              exact .inl hf
          | cons k before =>
              obtain ⟨rfl, hrest⟩ := List.cons.inj hsplit
              refine .inr ⟨before, j, after, hrest, hj, ?_⟩
              rw [hf, List.filter_cons_of_pos hused]
              rfl
      · rw [if_neg hused, ih _ hn]
        constructor
        · intro ⟨before, j, after, hsplit, hj, hf⟩
          refine ⟨i :: before, j, after, by rw [hsplit]; rfl, hj, ?_⟩
          rw [hf, List.filter_cons_of_neg hused]
        · intro ⟨before, j, after, hsplit, hj, hf⟩
          cases before with
          | nil =>
              obtain ⟨rfl, -⟩ := List.cons.inj hsplit
              exact absurd hj hused
          | cons k before =>
              obtain ⟨rfl, hrest⟩ := List.cons.inj hsplit
              refine ⟨before, j, after, hrest, hj, ?_⟩
              rw [hf, List.filter_cons_of_neg hused]

/-- What precedes `i` among the sectors of the loop. -/
theorem range_drop_split {n i : Nat} {before after : List Nat}
    (h : (List.range n).drop 4 = before ++ i :: after) : before = (List.range i).drop 4 := by
  have hlen := congrArg List.length h
  rw [List.length_drop, List.length_range, List.length_append, List.length_cons] at hlen
  have hget : ((List.range n).drop 4)[before.length]? = some i := by
    rw [h, List.getElem?_append_right (Nat.le_refl _), Nat.sub_self]
    rfl
  rw [List.getElem?_drop, List.getElem?_range (by omega)] at hget
  have hi : 4 + before.length = i := Option.some.inj hget
  have hbefore : ((List.range n).drop 4).take before.length = before := by
    rw [h, List.take_left]
  have hmin : min (4 + before.length) n = 4 + before.length := by omega
  rw [← hbefore, ← hi, List.take_drop, List.take_range, hmin]

theorem mem_recover1 (h₄ : 4 ≤ i) (hi : i < s.freeMap.bitCnt) (hused : bitmapTest s.freeMap i) :
    (recovered1Name i, text) ∈ recover1 mem s ↔ text = dumpText s mem i
      (windowAfter s mem (usedSectors s i) BLOCK_SECTOR_SIZE) := by
  unfold recover1
  rw [recoverUsed_mem _ _ _ _ (Nat.le_refl _)]
  constructor
  · intro ⟨before, j, after, hsplit, hj, hf⟩
    obtain ⟨hname, htext⟩ := Prod.mk.inj hf
    obtain rfl := recovered1Name_inj hname
    rw [htext, range_drop_split hsplit]
    rfl
  · intro htext
    have hlen : i - 4 < ((List.range s.freeMap.bitCnt).drop 4).length := by
      rw [List.length_drop, List.length_range]
      omega
    have hget : ((List.range s.freeMap.bitCnt).drop 4)[i - 4] = i := by
      rw [List.getElem_drop, List.getElem_range]
      omega
    have hsplit := List.take_append_drop (i - 4) ((List.range s.freeMap.bitCnt).drop 4)
    rw [List.drop_eq_getElem_cons hlen, hget] at hsplit
    refine ⟨_, i, _, hsplit.symm, hused, ?_⟩
    rw [range_drop_split hsplit.symm, htext]
    rfl

/-- A sector comes out as it should if and only if the cache holds no newer bytes and the
left-over is clean, or the newer bytes are by chance those that come out. -/
theorem recover1_exact_iff (s : FileSys) (mem : Nat → Malloced) {i : Nat} (h₄ : 4 ≤ i)
    (hi : i < s.freeMap.bitCnt) (hused : bitmapTest s.freeMap i) :
    (∀ text, (recovered1Name i, text) ∈ recover1 mem s ↔ text = nonNul (s.content i).toList) ↔
      (nonNul (s.content i).toList = nonNul (deviceBytes s mem i) ∧
          TailClean (windowOf s mem i) (restOf s mem i) (mem i).beyond) ∨
        (nonNul (s.content i).toList ≠ nonNul (deviceBytes s mem i) ∧
          nonNul (s.content i).toList = nonNul (windowOf s mem i) ++
            leftOver (windowOf s mem i) (restOf s mem i) (mem i).beyond) := by
  have hdump : dumpText s mem i (windowAfter s mem (usedSectors s i) BLOCK_SECTOR_SIZE) =
      nonNul (windowOf s mem i) ++ leftOver (windowOf s mem i) (restOf s mem i) (mem i).beyond := rfl
  have hparts : nonNul (deviceBytes s mem i) = nonNul (windowOf s mem i) ++
      nonNul (restOf s mem i) := by
    rw [← nonNul_append, windowOf, restOf, List.take_append_drop]
  have hall : (∀ text, (recovered1Name i, text) ∈ recover1 mem s ↔
      text = nonNul (s.content i).toList) ↔ nonNul (s.content i).toList =
        nonNul (windowOf s mem i) ++ leftOver (windowOf s mem i) (restOf s mem i)
          (mem i).beyond := by
    constructor
    · intro h
      exact ((mem_recover1 h₄ hi hused).1 ((h _).2 rfl)).trans hdump
    · intro h text
      rw [mem_recover1 h₄ hi hused, hdump, h]
  rw [hall]
  by_cases hsync : nonNul (s.content i).toList = nonNul (deviceBytes s mem i)
  · have hclean : nonNul (s.content i).toList = nonNul (windowOf s mem i) ++
        leftOver (windowOf s mem i) (restOf s mem i) (mem i).beyond ↔
          TailClean (windowOf s mem i) (restOf s mem i) (mem i).beyond := by
      rw [hsync, hparts, List.append_cancel_left_eq, eq_comm, leftOver_eq_iff]
    rw [hclean]
    constructor
    · exact fun h => .inl ⟨hsync, h⟩
    · exact fun h => h.elim (fun h => h.2) fun h => absurd hsync h.1
  · constructor
    · exact fun h => .inr ⟨hsync, h⟩
    · exact fun h => h.elim (fun h => absurd h.1 hsync) fun h => h.2

end Dump

end SimpleShell.Fs
