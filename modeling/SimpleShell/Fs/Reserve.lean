import SimpleShell.Fs.Growth

/-!
# Reserving the blocks of one tree

`inode_reserve_indirect` as an `Outcome` over the slots of the tree it is called
on, by induction on the level. A block is worked on in a local copy, so the
entries of the copy are a family of roots of their own: `Outcome.root` carries
the recursive call to that family, the loop appends the calls, and the write of
the copy makes the family the children of the block again.
-/

namespace SimpleShell.Fs

open SimpleShell.Lib

variable {D : Set Nat} {s s' : FileSys}

/-! ## Trees and families of trees -/

def treeVal (s : FileSys) (L e : Nat) (p : List Nat) : Nat :=
  nodeAt (ptr s.content) 128 L e p

def TreeIdx (L : Nat) (p : List Nat) : Prop := p.length < L

/-- The trees with roots `ρ r`, `lv r` levels high. -/
def famVal (s : FileSys) (lv ρ : Nat → Nat) (a : Slot) : Nat :=
  treeVal s (lv a.1) (ρ a.1) a.2

def FamIdx (lv : Nat → Nat) (a : Slot) : Prop := TreeIdx (lv a.1) a.2

theorem treeVal_null (L : Nat) (p : List Nat) : treeVal s L 0 p = 0 :=
  nodeAt_null p

theorem treeVal_nil (L e : Nat) : treeVal s L e [] = e := nodeAt_nil e

/-- A tree reads the same in two states that agree on its index blocks. -/
theorem treeVal_congr {L e : Nat}
    (h : ∀ q, TreeIdx L q → treeVal s L e q ≠ 0 →
      s'.content (treeVal s L e q) = s.content (treeVal s L e q)) (p : List Nat) :
    treeVal s' L e p = treeVal s L e p :=
  nodeAt_congr (fun q hq hne j _ => congrArg (blockEntry · j) (h q hq hne)) p

theorem Roots.tree {lv ρ : Nat → Nat}
    (h : Roots D s (FamIdx lv) (famVal s lv ρ)) (i : Nat) :
    Roots D s (TreeIdx (lv i)) (treeVal s (lv i) (ρ i)) where
  used p hp := h.used (i, p) hp
  inj p q hp heq := (Prod.mk.inj (h.inj (i, p) (i, q) hp heq)).2
  offData p hidx hp := h.offData (i, p) hidx hp

/-- A walk over one tree of a family is a walk over the family. -/
theorem Outcome.root {l r : Nat → Nat} {i e : Nat} {n : List (List Nat)}
    {b : Bool} (hV : Roots D s (FamIdx l) (famVal s l r))
    (h : Outcome D s s' (TreeIdx (l i)) n b (treeVal s (l i) (r i))
      (treeVal s' (l i) e)) :
    Outcome D s s' (FamIdx l) (n.map (i, ·)) b (famVal s l r)
      (famVal s' l (Function.update r i e)) := by
  refine Outcome.lift (i, ·) (fun _ => Iff.rfl) (fun _ => rfl) (fun p => ?_)
    (fun a ha => ?_) hV h
  · simp only [famVal, Function.update_self]
  · have hai : a.1 ≠ i := fun hai => ha a.2 (hai ▸ rfl)
    rw [famVal, Function.update_of_ne hai]
    refine treeVal_congr (fun q hq hne => ?_) a.2
    refine h.grow.frame _ (hV.used (a.1, q) hne) (hV.offData (a.1, q) hq hne) hne
      fun p _ heq => hai ?_
    exact (Prod.mk.inj (hV.inj (a.1, q) (i, p) hne heq.symm)).1

/-! ## The entries of a block -/

/-- The first `M` pointers in a block. -/
def entries (M : Nat) (blk : Sector) (j : Nat) : Nat :=
  if j < M then blockEntry blk j else 0

theorem entries_setU32 {M : Nat} {blk : Sector} {i e : Nat} (hM : M ≤ 128)
    (hi : i < M) (he : e < 2 ^ 32) :
    entries M (blk.setU32 (4 * i) e) = Function.update (entries M blk) i e := by
  funext j
  rcases eq_or_ne j i with rfl | hji
  · rw [Function.update_self, entries, if_pos hi]
    exact ByteBlock.u32_setU32_same (by simp only [BLOCK_SECTOR_SIZE]; omega) he
  · rw [Function.update_of_ne hji, entries, entries]
    split
    · exact ByteBlock.u32_setU32_of_ne (by omega)
    · rfl

/-- Below a block is the family of its entries. -/
theorem treeVal_cons {L e : Nat} (he : e ≠ 0) (j : Nat) (p : List Nat) :
    treeVal s (L + 1) e (j :: p) =
      famVal s (fun _ => L) (entries 128 (s.content e)) (j, p) := by
  unfold famVal entries
  simp only []
  split
  · next hj => exact nodeAt_cons he hj p
  · next hj =>
      rw [treeVal_null, treeVal, nodeAt, if_pos (.inr (Nat.not_lt.1 hj))]

theorem lt_of_entry {idx : Slot → Prop} {V V' : Slot → Nat} {a : Slot}
    (h : Grow D s s' idx V V') (hV : Roots D s idx V) : V' a < 2 ^ 32 := by
  rcases eq_or_ne (V' a) 0 with h₀ | hne
  · rw [h₀]; decide
  · have hlt := h.ok.lt_size (h.used hV hne)
    have := s'.cache.size_le_noSector
    simp only [NO_SECTOR] at this
    omega

/-- The slots that the loop over an index block fills, in its own order. -/
def loopSlots (L : Nat) : Nat → Nat → Nat → List Slot
  | 0, _, _ => []
  | cnt + 1, i, num =>
      (slots 128 L (min num (128 ^ L))).map (i, ·) ++
        loopSlots L cnt (i + 1) (num - min num (128 ^ L))

theorem le_of_mem_loopSlots {L cnt i num : Nat} {a : Slot}
    (h : a ∈ loopSlots L cnt i num) : i ≤ a.1 := by
  induction cnt generalizing i num with
  | zero => exact absurd h (List.not_mem_nil)
  | succ cnt ih =>
      rcases List.mem_append.1 h with h | h
      · obtain ⟨p, -, rfl⟩ := List.mem_map.1 h
        exact Nat.le_refl _
      · exact Nat.le_of_succ_le (ih h)

theorem loopSlots_eq (L cnt i num : Nat) :
    loopSlots L cnt i num = (List.range' i cnt).flatMap fun j =>
      (slots 128 L (min (num - (j - i) * 128 ^ L) (128 ^ L))).map (j, ·) := by
  induction cnt generalizing i num with
  | zero => rfl
  | succ cnt ih =>
      rw [loopSlots, ih, List.range'_succ, List.flatMap_cons, Nat.sub_self,
        Nat.zero_mul, Nat.sub_zero]
      congr 1
      refine List.flatMap_congr fun j hj => ?_
      obtain ⟨t, ht, rfl⟩ := List.mem_range'.1 hj
      have hsub : num - min num (128 ^ L) - (i + 1 + 1 * t - (i + 1)) * 128 ^ L =
          num - (i + 1 + 1 * t - i) * 128 ^ L := by
        have h₁ : i + 1 + 1 * t - (i + 1) = t := by omega
        have h₂ : i + 1 + 1 * t - i = t + 1 := by omega
        rw [h₁, h₂, Nat.succ_mul]
        omega
      rw [hsub]

theorem slots_succ (L num : Nat) :
    slots 128 (L + 1) num =
      [[]] ++ (loopSlots L (fanOut 128 L num) 0 num).map fun a => a.1 :: a.2 := by
  rw [slots, loopSlots_eq, List.map_flatMap, List.range_eq_range']
  simp [Function.comp_def]

/-! ## The loop over the entries -/

/-- What `inode_reserve_indirect` does at one level. -/
def TreeSpec (D : Set Nat) (L : Nat) : Prop :=
  ∀ {s : FileSys} {e n : Nat}, FreeMapOk D s →
    Roots D s (TreeIdx L) (treeVal s L e) → 0 < n → n ≤ 128 ^ L →
      let r := reserveIndirect allocSector L s e n
      Outcome D s r.2 (TreeIdx L) (slots 128 L n) r.1.1 (treeVal s L e)
        (treeVal r.2 L r.1.2)

theorem reserveLoop_spec {L : Nat} (htree : TreeSpec D L) {m : Nat} :
    ∀ {i n : Nat} {s : FileSys} {blk : Sector}, i + m ≤ 128 →
      m ≤ fanOut 128 L n → FreeMapOk D s →
      Roots D s (FamIdx fun _ => L) (famVal s (fun _ => L) (entries 128 blk)) →
        let r := reserveLoop (reserveIndirect allocSector L) (128 ^ L) m i s blk n
        Outcome D s r.2 (FamIdx fun _ => L) (loopSlots L m i n) r.1.1
          (famVal s (fun _ => L) (entries 128 blk))
          (famVal r.2 (fun _ => L) (entries 128 r.1.2)) := by
  induction m with
  | zero =>
      intro i n s blk _ _ hok hV
      exact .refl hok hV fun a ha => absurd ha List.not_mem_nil
  | succ m ih =>
      intro i n s blk hi hcnt hok hV
      have hpos : 0 < 128 ^ L := Nat.pow_pos (by decide)
      have hnum : 0 < n := by
        have := (lt_fanOut (N := 128) (by decide)).1
          (Nat.lt_of_lt_of_le (Nat.succ_pos m) hcnt)
        omega
      have hrest : m ≤ fanOut 128 L (n - min n (128 ^ L)) := by
        rcases Nat.eq_zero_or_pos m with rfl | hc
        · exact Nat.zero_le _
        · have := (lt_fanOut (N := 128) (by decide)).1
            (Nat.lt_of_lt_of_le (Nat.lt_succ_self m) hcnt)
          have hc' : m - 1 < fanOut 128 L (n - min n (128 ^ L)) := by
            refine (lt_fanOut (by decide)).2 ?_
            have hmul : m * 128 ^ L = (m - 1) * 128 ^ L + 128 ^ L := by
              rw [← Nat.succ_mul]
              congr 1
              omega
            omega
          omega
      have hentry : entries 128 blk i = blockEntry blk i := if_pos (by omega)
      have hone := htree hok (hV.tree i) (n := min n (128 ^ L))
        (Nat.lt_min.2 ⟨hnum, hpos⟩) (Nat.min_le_right ..)
      rw [hentry] at hone
      have hroot := Outcome.root (l := fun _ => L) (r := entries 128 blk) (i := i) hV
        (by rw [hentry]; exact hone)
      rw [reserveLoop]
      simp only []
      generalize hr : reserveIndirect allocSector L s (blockEntry blk i)
        (min n (128 ^ L)) = r at hroot ⊢
      have hlt : r.1.2 < 2 ^ 32 := by
        have := lt_of_entry (a := (i, [])) hroot.grow hV
        rw [famVal, treeVal_nil, Function.update_self] at this
        exact this
      rw [← entries_setU32 (Nat.le_refl _) (by omega) hlt] at hroot
      cases hr₁ : r.1.1 with
      | false =>
          rw [hr₁] at hroot
          exact hroot.stop
      | true =>
          rw [hr₁] at hroot
          refine hroot.append hok (ih (by omega) hrest hroot.grow.ok
            (hroot.grow.roots hok hV)) fun a ha hmem => ?_
          have := le_of_mem_loopSlots ha
          obtain ⟨p, -, rfl⟩ := List.mem_map.1 hmem
          exact absurd this (Nat.not_succ_le_self i)

/-! ## One index block -/

/-- The tree as it stands while its root block is worked on in a copy. -/
def copyVal (s : FileSys) (L e : Nat) (blk : Sector) : List Nat → Nat
  | [] => e
  | j :: p => famVal s (fun _ => L) (entries 128 blk) (j, p)

theorem treeVal_eq_copyVal {L e : Nat} (he : e ≠ 0) (p : List Nat) :
    treeVal s (L + 1) e p = copyVal s L e (s.content e) p := by
  cases p with
  | nil => exact treeVal_nil _ e
  | cons j p => exact treeVal_cons he j p

theorem Roots.children {L e : Nat} (he : e ≠ 0)
    (h : Roots D s (TreeIdx (L + 1)) (treeVal s (L + 1) e)) :
    Roots D s (FamIdx fun _ => L)
      (famVal s (fun _ => L) (entries 128 (s.content e))) where
  used a ha := by
    rw [← treeVal_cons he] at ha ⊢
    exact h.used _ ha
  inj a b ha hab := by
    rw [← treeVal_cons he] at ha
    rw [← treeVal_cons he, ← treeVal_cons he] at hab
    obtain ⟨h₁, h₂⟩ := List.cons.inj (h.inj _ _ ha hab)
    exact Prod.ext h₁ h₂
  offData a hidx ha := by
    rw [← treeVal_cons he] at ha ⊢
    exact h.offData _ (Nat.succ_lt_succ hidx) ha

theorem reserveBlock_spec {L e num : Nat} (htree : TreeSpec D L)
    (hok : FreeMapOk D s) (hfan : fanOut 128 L num ≤ 128) (he : e ≠ 0)
    (hV : Roots D s (TreeIdx (L + 1)) (treeVal s (L + 1) e)) :
    let r := reserveBlock (reserveIndirect allocSector L) L s e num
    r.1.2 = e ∧
      Outcome D s r.2 (TreeIdx (L + 1))
        ((loopSlots L (fanOut 128 L num) 0 num).map fun a => a.1 :: a.2) r.1.1
        (treeVal s (L + 1) e) (treeVal r.2 (L + 1) e) := by
  have hroot : treeVal s (L + 1) e [] = e := treeVal_nil _ e
  have hused : s.used e := hroot ▸ hV.used [] (hroot.symm ▸ he)
  have hD : e ∉ D := hroot ▸ hV.offData [] (Nat.succ_pos L) (hroot.symm ▸ he)
  have hread : (s.readSector e).1 = s.content e :=
    FileSys.readSector_fst (hok.lt_size hused)
  have hfam := hV.children he
  have hval₀ : famVal (s.readSector e).2 (fun _ => L) (entries 128 (s.content e)) =
      famVal s (fun _ => L) (entries 128 (s.content e)) := by
    funext a
    exact treeVal_congr (fun q _ _ => by rw [FileSys.readSector_content]) a.2
  have hloop := reserveLoop_spec htree (i := 0) (n := num)
    (m := fanOut 128 L num) (by omega) (Nat.le_refl _) (hok.readSector e)
    (by rw [hval₀]; exact ⟨hfam.used, hfam.inj, hfam.offData⟩)
  simp only [hval₀] at hloop
  have hloop := Outcome.of_readSector hloop
  obtain ⟨r, hr⟩ : ∃ r, r = reserveLoop (reserveIndirect allocSector L) (128 ^ L)
    (fanOut 128 L num) 0 (s.readSector e).2 (s.content e) num := ⟨_, rfl⟩
  have hdef : reserveBlock (reserveIndirect allocSector L) L s e num =
      if r.1.1 then ((true, e), r.2.writeSector e r.1.2) else ((false, e), r.2) := by
    rw [hr, ← hread]
    rfl
  rw [hdef]
  rw [← hr] at hloop
  -- The walk over the entries, seen from the tree they hang below.
  have htreeval : treeVal s (L + 1) e = copyVal s L e (s.content e) :=
    funext fun p => treeVal_eq_copyVal he p
  have hcopy : Outcome D s r.2 (TreeIdx (L + 1))
      ((loopSlots L (fanOut 128 L num) 0 num).map fun a => a.1 :: a.2) r.1.1
      (treeVal s (L + 1) e) (copyVal r.2 L e r.1.2) := by
    refine Outcome.lift (fun a : Slot => a.1 :: a.2)
      (fun _ => Nat.succ_lt_succ_iff) (fun a => (treeVal_cons he a.1 a.2).symm)
      (fun _ => rfl) (fun p hp => ?_) hV hloop
    cases p with
    | nil => exact hroot.symm
    | cons j p => exact absurd rfl (hp (j, p))
  -- No entry leads back to the block itself.
  have hnot : ∀ a : Slot, famVal r.2 (fun _ => L) (entries 128 r.1.2) a ≠ e := by
    intro a ha
    have hne : copyVal r.2 L e r.1.2 (a.1 :: a.2) ≠ 0 := fun h => he (ha.symm.trans h)
    have := hcopy.grow.inj (a.1 :: a.2) [] hne ha
    exact absurd this (List.cons_ne_nil _ _)
  have hblock : r.2.content e = s.content e := by
    refine hloop.grow.frame e hused hD he fun a _ ha => ?_
    rw [← treeVal_cons he] at ha
    have := hV.inj (a.1 :: a.2) [] (by rw [ha]; exact he) (ha.trans hroot.symm)
    exact absurd this (List.cons_ne_nil _ _)
  have hkeep : ∀ j, entries 128 (s.content e) j ≠ 0 →
      entries 128 r.1.2 j = entries 128 (s.content e) j := by
    intro j hj
    have := hloop.grow.keep (j, []) (by rw [famVal, treeVal_nil]; exact hj)
    rwa [famVal, famVal, treeVal_nil, treeVal_nil] at this
  cases hr₁ : r.1.1 with
  | true =>
      rw [hr₁] at hcopy
      refine ⟨rfl, ?_⟩
      have hlt : e < r.2.cache.size := by
        rw [hloop.grow.size]
        exact hok.lt_size hused
      have hwritten : treeVal (r.2.writeSector e r.1.2) (L + 1) e =
          copyVal r.2 L e r.1.2 := by
        funext p
        rw [treeVal_eq_copyVal he, FileSys.writeSector_content hlt,
          Function.update_self]
        cases p with
        | nil => rfl
        | cons j p =>
            refine treeVal_congr (fun q _ _ => ?_) p
            rw [FileSys.writeSector_content hlt]
            exact Function.update_of_ne (hnot (j, q)) ..
      simp only [if_true]
      rw [hwritten]
      refine hcopy.writeBack (n := []) hok hV (Nat.succ_pos L) hroot he fun j hj hne => ?_
      rw [hblock] at hne ⊢
      have := hkeep j (by rw [entries, if_pos hj]; exact hne)
      rwa [entries, entries, if_pos hj, if_pos hj] at this
  | false =>
      rw [hr₁] at hcopy
      simp only [Bool.false_eq_true, if_false]
      refine ⟨trivial, hcopy.forget fun p => ?_⟩
      rw [treeVal_eq_copyVal he, treeVal_eq_copyVal he, hblock]
      cases p with
      | nil => exact .inl rfl
      | cons j p =>
          rcases eq_or_ne (entries 128 (s.content e) j) 0 with h₀ | hne
          · refine .inr ⟨?_, ?_⟩
            · change treeVal r.2 L (entries 128 (s.content e) j) p = 0
              rw [h₀, treeVal_null]
            · change treeVal s L (entries 128 (s.content e) j) p = 0
              rw [h₀, treeVal_null]
          · refine .inl ?_
            change treeVal r.2 L (entries 128 (s.content e) j) p =
              treeVal r.2 L (entries 128 r.1.2 j) p
            rw [hkeep j hne]

/-! ## The whole tree -/

theorem fanOut_pos {L num : Nat} (h : 0 < num) : 0 < fanOut 128 L num :=
  (lt_fanOut (by decide)).2 (by omega)

theorem fanOut_le {L num : Nat} (h : num ≤ 128 ^ (L + 1)) :
    fanOut 128 L num ≤ 128 := by
  by_contra hlt
  have := (lt_fanOut (N := 128) (L := L) (n := num) (j := 128) (by decide)).1
    (by omega)
  rw [Nat.pow_succ, Nat.mul_comm] at h
  omega

/-- On a full disk a null pointer stays null. A missing data sector costs
nothing, a missing index block sector 0. -/
theorem reserveIndirect_full {L : Nat} :
    ∀ {s : FileSys} {n : Nat}, s.freeSectors = 0 → 0 < s.cache.size → 0 < n →
      let r := reserveIndirect allocSector L s 0 n
      r.1 = (false, 0) ∧ Refused s r.2 (TreeIdx L []) := by
  induction L with
  | zero =>
      intro s n hfull _ _
      unfold reserveIndirect
      simp only [allocSector_full hfull, if_true]
      exact ⟨trivial, rfl, rfl, rfl, Nat.lt_succ_self _, fun _ _ => rfl,
        fun h => absurd h (Nat.lt_irrefl 0), fun _ => rfl⟩
  | succ L ih =>
      intro s n hfull hsize hnum
      have hdef : reserveIndirect allocSector (L + 1) s 0 n =
          reserveBlock (reserveIndirect allocSector L) L
            (({ s with allocFailures := s.allocFailures + 1 } : FileSys).writeSector
              0 .zeros) 0 n := by
        unfold reserveIndirect
        rw [if_pos rfl, allocSector_full hfull]
        rfl
      obtain ⟨s₁, hs₁⟩ : ∃ s₁ : FileSys, s₁ =
          ({ s with allocFailures := s.allocFailures + 1 } : FileSys).writeSector
            0 .zeros := ⟨_, rfl⟩
      have hcont : s₁.content = Function.update s.content 0 .zeros := by
        rw [hs₁, FileSys.writeSector_content (s := { s with
          allocFailures := s.allocFailures + 1 }) hsize]
        rfl
      have hsize₁ : s₁.cache.size = s.cache.size := by
        rw [hs₁, FileSys.writeSector_size]
      have hread : (s₁.readSector 0).1 = .zeros := by
        rw [FileSys.readSector_fst (by omega), hcont, Function.update_self]
      -- The first entry of the cleared sector is null, so the loop stops there.
      have hentry : blockEntry .zeros 0 = 0 := ByteBlock.u32_zeros 0
      have hmin : 0 < min n (128 ^ L) :=
        Nat.lt_min.2 ⟨hnum, Nat.pow_pos (by decide)⟩
      obtain ⟨hret, href⟩ := ih (s := (s₁.readSector 0).2)
        (n := min n (128 ^ L)) (by
          unfold FileSys.freeSectors
          rw [FileSys.readSector_freeMap, hs₁, FileSys.writeSector_freeMap]
          exact hfull) (by rw [FileSys.readSector_size, hsize₁]; exact hsize) hmin
      have hloop : reserveLoop (reserveIndirect allocSector L) (128 ^ L)
          (fanOut 128 L n) 0 (s₁.readSector 0).2 .zeros n =
          ((false, ByteBlock.setU32 .zeros (4 * 0) 0),
            (reserveIndirect allocSector L (s₁.readSector 0).2 0
              (min n (128 ^ L))).2) := by
        obtain ⟨c, hc⟩ := Nat.exists_eq_succ_of_ne_zero
          (Nat.ne_of_gt (fanOut_pos (L := L) hnum))
        rw [hc, reserveLoop]
        simp only [hentry, hret, Bool.false_eq_true, if_false]
      have hblock : reserveBlock (reserveIndirect allocSector L) L s₁ 0 n =
          ((false, 0), (reserveIndirect allocSector L (s₁.readSector 0).2 0
            (min n (128 ^ L))).2) := by
        have hdef' : reserveBlock (reserveIndirect allocSector L) L s₁ 0 n =
            let r := reserveLoop (reserveIndirect allocSector L) (128 ^ L)
              (fanOut 128 L n) 0 (s₁.readSector 0).2 .zeros n
            if r.1.1 then ((true, 0), r.2.writeSector 0 r.1.2)
            else ((false, 0), r.2) := by
          rw [← hread]
          rfl
        rw [hdef', hloop]
        rfl
      rw [hdef, ← hs₁, hblock]
      have hcleared : ∀ s' : FileSys,
          Refused (s₁.readSector 0).2 s' (TreeIdx L []) → s'.content 0 = .zeros := by
        intro s' h
        rcases Nat.eq_zero_or_pos L with hL | hL
        · rw [h.keep (by rw [hL]; exact Nat.lt_irrefl 0),
            FileSys.readSector_content, hcont, Function.update_self]
        · exact h.clear hL
      refine ⟨rfl, ?_, ?_, ?_, ?_, fun k hk => ?_, fun _ => hcleared _ href,
        fun h => absurd (Nat.succ_pos L) h⟩
      · rw [href.freeMap, FileSys.readSector_freeMap, hs₁,
          FileSys.writeSector_freeMap]
      · rw [href.mem, FileSys.readSector_mem, hs₁, FileSys.writeSector_mem]
      · rw [href.size, FileSys.readSector_size, hsize₁]
      · have hfail : (s₁.readSector 0).2.allocFailures = s.allocFailures + 1 := by
          rw [FileSys.readSector_allocFailures, hs₁,
            FileSys.writeSector_allocFailures]
        have hlt := href.allocFailures
        rw [hfail] at hlt
        exact Nat.lt_of_succ_lt hlt
      · rw [href.content k hk, FileSys.readSector_content, hcont,
          Function.update_of_ne hk]

/-- A null root is given a block, which is clear, so the tree is the block
alone. -/
theorem Outcome.newTree {L k : Nat} (hok : FreeMapOk D s)
    (hV : Roots D s (TreeIdx L) (treeVal s L 0)) (hk : Allocated D s k s') :
    Outcome D s (s'.writeSector k .zeros) (TreeIdx L) [[]] true (treeVal s L 0)
      (treeVal (s'.writeSector k .zeros) L k) := by
  have hk₀ : k ≠ 0 := fun h => hk.free (h ▸ hok.mapSector)
  have hlt : k < s'.cache.size := by
    have := hk.lt
    have := hok.cnt
    rw [hk.size]
    omega
  have hval : treeVal (s'.writeSector k .zeros) L k =
      Function.update (treeVal s L 0) [] k := by
    funext p
    cases p with
    | nil => rw [Function.update_self]; exact treeVal_nil _ k
    | cons j p =>
        rw [Function.update_of_ne (List.cons_ne_nil j p), treeVal_null]
        cases L with
        | zero => rfl
        | succ L =>
            rw [treeVal_cons hk₀, FileSys.writeSector_content hlt,
              Function.update_self, famVal, entries]
            simp only [blockEntry, ByteBlock.u32_zeros, ite_self, treeVal_null]
  rw [hval]
  exact .alloc hok hV (treeVal_null _ []) hk

theorem reserveIndirect_spec (L : Nat) : TreeSpec D L := by
  induction L with
  | zero =>
      intro s e num hok hV _ _
      unfold reserveIndirect
      split
      · next he =>
          subst he
          rcases Nat.eq_zero_or_pos s.freeSectors with hfull | hfree
          · obtain ⟨hret, href⟩ := reserveIndirect_full (L := 0) (n := 1) hfull
              (hok.lt_size hok.mapSector) Nat.one_pos
            unfold reserveIndirect at hret href
            rw [if_pos rfl] at hret href
            have hval : treeVal (allocSector s).2 0 0 = treeVal s 0 0 :=
              funext fun p => (treeVal_null 0 p).trans (treeVal_null 0 p).symm
            simp only [allocSector_full hfull] at href hval ⊢
            rw [hval]
            exact .refused hok hV hfull (treeVal_null 0 []) href
          · obtain ⟨k, s', heq, hk⟩ := allocSector_free hok (Nat.ne_of_gt hfree)
            simp only [heq]
            exact .newTree hok hV hk
      · next he =>
          refine .refl hok hV fun p hp => ?_
          rw [List.mem_singleton.1 hp, treeVal_nil]
          exact he
  | succ L ih =>
      intro s e num hok hV hnum hle
      have hfan := fanOut_le hle
      rw [slots_succ]
      have hdisj : ∀ p ∈ (loopSlots L (fanOut 128 L num) 0 num).map
          (fun a => a.1 :: a.2), p ∉ ([[]] : List (List Nat)) := by
        intro p hp hnil
        obtain ⟨a, -, rfl⟩ := List.mem_map.1 hp
        exact absurd (List.mem_singleton.1 hnil) (List.cons_ne_nil _ _)
      rcases eq_or_ne e 0 with rfl | he
      · rcases Nat.eq_zero_or_pos s.freeSectors with hfull | hfree
        · obtain ⟨hret, href⟩ := reserveIndirect_full (L := L + 1) hfull
            (hok.lt_size hok.mapSector) hnum
          simp only [hret]
          have hval : treeVal (reserveIndirect allocSector (L + 1) s 0 num).2
              (L + 1) 0 = treeVal s (L + 1) 0 :=
            funext fun p => (treeVal_null _ p).trans (treeVal_null _ p).symm
          rw [hval]
          exact .refused hok hV hfull (treeVal_null _ []) href
        · obtain ⟨k, s', heq, hk⟩ := allocSector_free hok (Nat.ne_of_gt hfree)
          have hk₀ : k ≠ 0 := fun h => hk.free (h ▸ hok.mapSector)
          have halloc := Outcome.newTree hok hV hk
          obtain ⟨hret, hrest⟩ := reserveBlock_spec ih halloc.grow.ok hfan hk₀
            (halloc.grow.roots hok hV)
          have hdef : reserveIndirect allocSector (L + 1) s 0 num =
              reserveBlock (reserveIndirect allocSector L) L
                (s'.writeSector k .zeros) k num := by
            rw [reserveIndirect, if_pos rfl, heq]
            rfl
          rw [hdef]
          simp only [hret]
          exact halloc.append hok hrest hdisj
      · obtain ⟨hret, hrest⟩ := reserveBlock_spec ih hok hfan he hV
        rw [reserveIndirect, if_neg he]
        simp only [hret]
        refine (Outcome.refl hok hV fun p hp => ?_).append hok hrest hdisj
        rw [List.mem_singleton.1 hp, treeVal_nil]
        exact he

/-! ## The whole inode -/

theorem slotVal_eq (s : FileSys) (d : Sector) :
    slotVal s.content d = famVal s rootLevel (entries 125 d) := by
  funext a
  unfold slotVal famVal entries
  split
  · rfl
  · rw [treeVal_null]

/-- The parts of an inode that a reservation does not touch. -/
def SameHeader (d d' : Sector) : Prop := ∀ o, 500 ≤ o → d'.byte o = d.byte o

theorem SameHeader.refl (d : Sector) : SameHeader d d := fun _ _ => rfl

theorem SameHeader.trans {d d' d'' : Sector} (h₁ : SameHeader d d')
    (h₂ : SameHeader d' d'') : SameHeader d d'' := fun o ho =>
  (h₂ o ho).trans (h₁ o ho)

theorem SameHeader.setU32 (d : Sector) {r : Nat} (hr : r < 125) (v : Nat) :
    SameHeader d (d.setU32 (4 * r) v) := fun _ ho =>
  ByteBlock.byte_setU32_of_ne (by omega)

theorem SameHeader.length {d d' : Sector} (h : SameHeader d d') :
    inodeLength d' = inodeLength d := by
  unfold inodeLength
  rw [ByteBlock.u32_congr (a := d') (b := d) fun i hi _ => h i (by omega)]

section Inode

variable {d : Sector}

/-- A walk over the tree at root pointer `i`, and the inode with its result. -/
theorem Outcome.inode {i e : Nat} {need : List (List Nat)} {ok : Bool}
    (hi : i < 125) (hV : Roots D s IsIndex (slotVal s.content d))
    (h : Outcome D s s' (TreeIdx (rootLevel i)) need ok
      (treeVal s (rootLevel i) (blockEntry d i)) (treeVal s' (rootLevel i) e)) :
    Outcome D s s' IsIndex (need.map (i, ·)) ok (slotVal s.content d)
      (slotVal s'.content (d.setU32 (4 * i) e)) := by
  rw [slotVal_eq] at hV
  have hentry : entries 125 d i = blockEntry d i := if_pos hi
  have hroot := Outcome.root (i := i) (e := e) (n := need) (b := ok)
    (l := rootLevel) hV (by rw [hentry]; exact h)
  have hlt : e < 2 ^ 32 := by
    have := lt_of_entry (a := (i, [])) hroot.grow hV
    rw [famVal, treeVal_nil, Function.update_self] at this
    exact this
  rw [slotVal_eq, slotVal_eq, entries_setU32 (show 125 ≤ 128 by omega) hi hlt]
  exact hroot

theorem Roots.root {i : Nat} (hi : i < 125)
    (hV : Roots D s IsIndex (slotVal s.content d)) :
    Roots D s (TreeIdx (rootLevel i)) (treeVal s (rootLevel i) (blockEntry d i)) := by
  rw [slotVal_eq] at hV
  have hentry : entries 125 d i = blockEntry d i := if_pos hi
  rw [← hentry]
  exact hV.tree i

theorem reserveDirect_spec {m : Nat} :
    ∀ {i : Nat} {s : FileSys} {d : Sector}, i + m ≤ 123 → FreeMapOk D s →
      Roots D s IsIndex (slotVal s.content d) →
        let r := reserveDirect allocSector m i s d
        SameHeader d r.1.2 ∧
          Outcome D s r.2 IsIndex ((List.range' i m).map (·, [])) r.1.1
            (slotVal s.content d) (slotVal r.2.content r.1.2) := by
  induction m with
  | zero =>
      intro i s d _ hok hV
      exact ⟨.refl d, .refl hok hV fun a ha => absurd ha List.not_mem_nil⟩
  | succ m ih =>
      intro i s d hi hok hV
      have hdisj : ∀ a ∈ (List.range' (i + 1) m).map fun j => ((j, []) : Slot),
          a ∉ ([(i, [])] : List Slot) := by
        intro a ha hai
        obtain ⟨j, hj, rfl⟩ := List.mem_map.1 ha
        obtain ⟨t, -, rfl⟩ := List.mem_range'.1 hj
        have := (Prod.mk.inj (List.mem_singleton.1 hai)).1
        omega
      rw [List.range'_succ, List.map_cons, ← List.singleton_append, reserveDirect]
      split
      · next h₀ =>
          have h₀ : blockEntry d i = 0 := h₀
          rcases Nat.eq_zero_or_pos s.freeSectors with hfull | hfree
          · simp only [allocSector_full hfull]
            exact ⟨.refl d, .refused hok hV hfull
              ((slotVal_nil (by omega)).trans h₀)
              ⟨rfl, rfl, rfl, Nat.lt_succ_self _, fun _ _ => rfl,
                fun h => absurd h (by simp [IsIndex, rootLevel]; omega),
                fun _ => rfl⟩⟩
          · obtain ⟨k, s', heq, hk⟩ := allocSector_free hok (Nat.ne_of_gt hfree)
            simp only [heq]
            have htree := hV.root (i := i) (by omega)
            rw [h₀] at htree
            have htree := Outcome.newTree hok htree hk
            rw [← h₀] at htree
            have hroot := Outcome.inode (i := i) (by omega) hV htree
            obtain ⟨hhead, hrest⟩ := ih (i := i + 1) (by omega) hroot.grow.ok
              (hroot.grow.roots hok hV)
            exact ⟨(SameHeader.setU32 d (by omega) k).trans hhead,
              hroot.append hok hrest hdisj⟩
      · next hne =>
          obtain ⟨hhead, hrest⟩ := ih (i := i + 1) (by omega) hok hV
          refine ⟨hhead, (Outcome.refl hok hV fun a ha => ?_).append hok hrest hdisj⟩
          rw [List.mem_singleton.1 ha, slotVal_nil (by omega)]
          exact hne

/-- The tree at root pointer `i` of an inode, through `inode_reserve_indirect`. -/
theorem reserveRoot_spec {i n : Nat} (hi : i < 125) (hok : FreeMapOk D s)
    (hV : Roots D s IsIndex (slotVal s.content d)) (hnum : 0 < n)
    (hle : n ≤ 128 ^ rootLevel i) :
    let r := reserveIndirect allocSector (rootLevel i) s (blockEntry d i) n
    Outcome D s r.2 IsIndex ((slots 128 (rootLevel i) n).map (i, ·)) r.1.1
      (slotVal s.content d) (slotVal r.2.content (d.setU32 (4 * i) r.1.2)) :=
  Outcome.inode hi hV (reserveIndirect_spec _ hok (hV.root hi) hnum hle)

theorem reserveDoublyIndirect_spec {n : Nat} (hnum : 0 < n)
    (hok : FreeMapOk D s) (hV : Roots D s IsIndex (slotVal s.content d)) :
    let r := reserveDoublyIndirect allocSector s d n
    SameHeader d r.1.2 ∧ ∃ ok, r.1.1 = (ok && decide (n ≤ 16384)) ∧
      Outcome D s r.2 IsIndex ((slots 128 2 (min n 16384)).map (124, ·)) ok
        (slotVal s.content d) (slotVal r.2.content r.1.2) := by
  have htree := reserveRoot_spec (i := 124) (n := min n 16384) (by omega) hok hV
    (by omega) (by rw [rootLevel_doubly]; exact Nat.min_le_right ..)
  rw [rootLevel_doubly, show blockEntry d 124 = doublyIndirectBlock d from rfl,
    show 4 * 124 = 496 from rfl] at htree
  obtain ⟨r, hr⟩ : ∃ r, r = reserveIndirect allocSector 2 s (doublyIndirectBlock d)
    (min n 16384) := ⟨_, rfl⟩
  unfold reserveDoublyIndirect
  simp only [INDIRECT_BLOCKS_PER_SECTOR, Nat.reduceMul]
  rw [← hr] at htree ⊢
  dsimp only at htree
  have hhead := SameHeader.setU32 d (r := 124) (by omega) r.1.2
  split
  · next hfail =>
      rw [hfail] at htree
      exact ⟨hhead, false, rfl, htree⟩
  · next hdone =>
      have hdone : r.1.1 = true := by simpa using hdone
      rw [hdone] at htree
      refine ⟨hhead, true, ?_, htree⟩
      rw [Bool.true_and, decide_eq_decide]
      omega

theorem reserveIndirectBlocks_spec {n : Nat} (hnum : 0 < n)
    (hok : FreeMapOk D s) (hV : Roots D s IsIndex (slotVal s.content d)) :
    let r := reserveIndirectBlocks allocSector s d n
    SameHeader d r.1.2 ∧ ∃ ok, r.1.1 = (ok && decide (n ≤ 16512)) ∧
      Outcome D s r.2 IsIndex ((slots 128 1 (min n 128)).map (123, ·) ++
          if n ≤ 128 then []
          else (slots 128 2 (min (n - 128) 16384)).map (124, ·)) ok
        (slotVal s.content d) (slotVal r.2.content r.1.2) := by
  have htree := reserveRoot_spec (i := 123) (n := min n 128) (by omega) hok hV
    (by omega) (by rw [rootLevel_indirect]; exact Nat.min_le_right ..)
  rw [rootLevel_indirect, show blockEntry d 123 = indirectBlock d from rfl,
    show 4 * 123 = 492 from rfl] at htree
  obtain ⟨r, hr⟩ : ∃ r, r = reserveIndirect allocSector 1 s (indirectBlock d)
    (min n 128) := ⟨_, rfl⟩
  unfold reserveIndirectBlocks
  simp only [INDIRECT_BLOCKS_PER_SECTOR]
  rw [← hr] at htree ⊢
  dsimp only at htree
  have hhead := SameHeader.setU32 d (r := 123) (by omega) r.1.2
  split
  · next hfail =>
      rw [hfail] at htree
      exact ⟨hhead, false, rfl, htree.stop⟩
  · next hdone =>
      have hdone : r.1.1 = true := by simpa using hdone
      rw [hdone] at htree
      split
      · next hle =>
          rw [if_pos (show n ≤ 128 by omega), List.append_nil]
          refine ⟨hhead, true, ?_, htree⟩
          rw [Bool.true_and]
          exact (decide_eq_true (by omega)).symm
      · next hgt =>
          have hmin : min n 128 = 128 := by omega
          obtain ⟨hhead', ok, hret, hrest⟩ := reserveDoublyIndirect_spec
            (n := n - min n 128) (by omega) htree.grow.ok
            (htree.grow.roots hok hV)
          rw [if_neg (show ¬ n ≤ 128 by omega)]
          refine ⟨hhead.trans hhead', ok, ?_, ?_⟩
          · refine hret.trans (congrArg (ok && ·) ?_)
            rw [decide_eq_decide]
            omega
          · have h128 : n - min n 128 = n - 128 := by omega
            rw [h128] at hrest ⊢
            refine htree.append hok hrest fun a ha ha' => ?_
            obtain ⟨p, -, rfl⟩ := List.mem_map.1 ha
            obtain ⟨q, -, hq⟩ := List.mem_map.1 ha'
            exact absurd (Prod.mk.inj hq).1 (by omega)

/-- `inode_reserve` fills the slots of a file of `length` bytes. It reports
success when it could, unless the length is more than three levels can hold. -/
theorem inodeReserve_spec {length : Int} (hlen : 0 ≤ length)
    (hok : FreeMapOk D s) (hV : Roots D s IsIndex (slotVal s.content d)) :
    let r := inodeReserve allocSector s d length
    SameHeader d r.1.2 ∧
      ∃ ok, r.1.1 = (ok && decide (bytesToSectors length ≤ MAX_SECTORS)) ∧
        Outcome D s r.2 IsIndex (inodeSlots (bytesToSectors length)) ok
          (slotVal s.content d) (slotVal r.2.content r.1.2) := by
  generalize hn : bytesToSectors length = n
  have hdirect := reserveDirect_spec (m := min n 123) (i := 0) (d := d) (by omega)
    hok hV
  unfold inodeReserve inodeSlots
  rw [if_neg (by omega), hn]
  simp only [DIRECT_BLOCKS_COUNT]
  generalize reserveDirect allocSector (min n 123) 0 s d = r at hdirect ⊢
  obtain ⟨hhead, hdirect⟩ := hdirect
  rw [← List.range_eq_range'] at hdirect
  split
  · next hfail =>
      rw [hfail] at hdirect
      exact ⟨hhead, false, by simp [hfail], hdirect.stop⟩
  · next hdone =>
      have hdone : r.1.1 = true := by simpa using hdone
      rw [hdone] at hdirect
      split
      · next hle =>
          have hle : n ≤ 123 := by omega
          rw [if_pos hle, if_pos (show n ≤ 251 by omega), List.append_nil,
            List.append_nil]
          exact ⟨hhead, true, by simp [hdone, MAX_SECTORS]; omega, hdirect⟩
      · next hgt =>
          have hmin : min n 123 = 123 := by omega
          obtain ⟨hhead', ok, hret, hrest⟩ := reserveIndirectBlocks_spec
            (n := n - min n 123) (by omega) hdirect.grow.ok
            (hdirect.grow.roots hok hV)
          rw [hmin] at hret hrest hhead' hdirect ⊢
          have hneed : (if n - 123 ≤ 128 then []
              else (slots 128 2 (min (n - 123 - 128) 16384)).map
                fun p => ((124, p) : Slot)) =
              if n ≤ 251 then []
              else (slots 128 2 (min (n - 251) 16384)).map (124, ·) := by
            rw [Nat.sub_sub]
            refine if_congr ?_ rfl rfl
            omega
          rw [hneed] at hrest
          rw [if_neg (show ¬ n ≤ 123 by omega)]
          refine ⟨hhead.trans hhead', ok, ?_, hdirect.append hok hrest ?_⟩
          · refine hret.trans (congrArg (ok && ·) ?_)
            rw [decide_eq_decide]
            simp only [MAX_SECTORS]
            omega
          · intro a ha ha'
            obtain ⟨j, hj, rfl⟩ := List.mem_map.1 ha'
            have := List.mem_range.1 hj
            rcases List.mem_append.1 ha with ha | ha
            · obtain ⟨p, -, hp⟩ := List.mem_map.1 ha
              exact absurd (Prod.mk.inj hp).1 (by omega)
            · split at ha
              · exact absurd ha List.not_mem_nil
              · obtain ⟨p, -, hp⟩ := List.mem_map.1 ha
                exact absurd (Prod.mk.inj hp).1 (by omega)

end Inode

end SimpleShell.Fs
