import SimpleShell.Fs.Reserve

/-!
# Reservations that take nothing

A walk of `inode_reserve` that takes no sector, because none is free or none is missing, leaves
the inode as it was and every sector but sector 0, which it clears where the first null pointer
is that of an index block and no sector is free for it.
-/

namespace SimpleShell.Fs

open SimpleShell.Lib

/-- Sector 0 apart, the disk and the free map are what they were. -/
structure Untaken (s s' : FileSys) : Prop where
  freeMap : s'.freeMap = s.freeMap
  content : ∀ v, v ≠ 0 → s'.content v = s.content v

theorem Untaken.refl (s : FileSys) : Untaken s s := ⟨rfl, fun _ _ => rfl⟩

/-- The free sectors run out at an index block, and sector 0 has something to lose. -/
def ClearsZero (s : FileSys) (d : Sector) (length : Int) : Prop :=
  s.content 0 ≠ .zeros ∧ 0 ≤ length ∧ ∃ a, IsIndex a ∧
    (missing (slotVal s.content d) (inodeSlots (bytesToSectors length)))[s.freeSectors]? = some a

/-- Where a reservation takes no sector the inode, now `d'`, and all of the disk but sector 0 are
as before, and sector 0 is unless it is cleared. -/
structure Sparing (s : FileSys) (d : Sector) (length : Int) (d' : Sector) (s' : FileSys) :
    Prop where
  untaken : s'.freeSectors = s.freeSectors → d' = d ∧ Untaken s s'
  zero : s'.content 0 = s.content 0 ↔ ¬ClearsZero s d length

section Untaken

variable {D : Set Nat} {s s₁ s' : FileSys} {d : Sector}

theorem Untaken.trans (h₁ : Untaken s s₁) (h₂ : Untaken s₁ s') : Untaken s s' :=
  ⟨h₂.freeMap.trans h₁.freeMap, fun v hv => (h₂.content v hv).trans (h₁.content v hv)⟩

theorem Untaken.readSector (k : Nat) (h : Untaken (s.readSector k).2 s') : Untaken s s' :=
  ⟨h.freeMap, fun v hv => (h.content v hv).trans (by rw [FileSys.readSector_content])⟩

theorem Refused.untaken {cleared : Prop} (h : Refused s s' cleared) : Untaken s s' :=
  ⟨h.freeMap, h.content⟩

theorem Outcome.freeSectors_le {σ : Type} {idx : σ → Prop} {need : List σ} {ok : Bool}
    {V V' : σ → Nat} (h : Outcome D s s' idx need ok V V') : s'.freeSectors ≤ s.freeSectors := by
  rw [h.freeSectors]
  exact Nat.sub_le ..

/-! ## One tree -/

/-- The call of `inode_reserve_indirect` at one level. -/
def TreeUntaken (D : Set Nat) (L : Nat) : Prop :=
  ∀ {s : FileSys} {e n : Nat}, FreeMapOk D s →
    Roots D s (TreeIdx L) (treeVal s L e) → 0 < n → n ≤ 128 ^ L →
      let r := reserveIndirect allocSector L s e n
      r.2.freeSectors = s.freeSectors → r.1.2 = e ∧ Untaken s r.2

theorem reserveLoop_untaken {L : Nat} (htree : TreeUntaken D L) {m : Nat} :
    ∀ {i n : Nat} {s : FileSys} {blk : Sector}, i + m ≤ 128 →
      m ≤ fanOut 128 L n → FreeMapOk D s →
      Roots D s (FamIdx fun _ => L) (famVal s (fun _ => L) (entries 128 blk)) →
        let r := reserveLoop (reserveIndirect allocSector L) (128 ^ L) m i s blk n
        r.2.freeSectors = s.freeSectors → r.1.2 = blk ∧ Untaken s r.2 := by
  induction m with
  | zero =>
      intro i n s blk _ _ _ _ r _
      exact ⟨rfl, .refl s⟩
  | succ m ih =>
      intro i n s blk hi hcnt hok hV
      have hpos : 0 < 128 ^ L := Nat.pow_pos (by decide)
      have hnum : 0 < n := by
        have := (lt_fanOut (N := 128) (by decide)).1
          (Nat.lt_of_lt_of_le (Nat.succ_pos m) hcnt)
        omega
      have hrest : m ≤ fanOut 128 L (n - min n (128 ^ L)) := by
        rcases Nat.eq_zero_or_pos m with rfl | hc
        · exact Nat.zero_le _
        · have := (lt_fanOut (N := 128) (by decide)).1
            (Nat.lt_of_lt_of_le (Nat.lt_succ_self m) hcnt)
          have hc' : m - 1 < fanOut 128 L (n - min n (128 ^ L)) := by
            refine (lt_fanOut (by decide)).2 ?_
            have hmul : m * 128 ^ L = (m - 1) * 128 ^ L + 128 ^ L := by
              rw [← Nat.succ_mul]
              congr 1
              omega
            omega
          omega
      have hmin : 0 < min n (128 ^ L) := Nat.lt_min.2 ⟨hnum, hpos⟩
      have hentry : entries 128 blk i = blockEntry blk i := if_pos (by omega)
      have htree' := hV.tree i
      rw [hentry] at htree'
      have hone := reserveIndirect_spec L hok htree' hmin (Nat.min_le_right ..)
      have hstill := htree hok htree' hmin (Nat.min_le_right ..)
      have hroot := Outcome.root (l := fun _ => L) (r := entries 128 blk) (i := i) hV
        (by rw [hentry]; exact hone)
      rw [reserveLoop]
      simp only []
      generalize reserveIndirect allocSector L s (blockEntry blk i) (min n (128 ^ L)) = r
        at hone hstill hroot ⊢
      have hlt : r.1.2 < 2 ^ 32 := by
        have := lt_of_entry (a := (i, [])) hroot.grow hV
        rw [famVal, treeVal_nil, Function.update_self] at this
        exact this
      have hle := hone.freeSectors_le
      rw [← entries_setU32 (Nat.le_refl _) (by omega) hlt] at hroot
      have hself : r.1.2 = blockEntry blk i → blk.setU32 (4 * i) r.1.2 = blk := by
        intro heq
        rw [heq]
        exact ByteBlock.setU32_u32 blk (4 * i)
      cases hr₁ : r.1.1 with
      | false =>
          simp only [Bool.false_eq_true, if_false]
          intro heq
          obtain ⟨he, hu⟩ := hstill heq
          exact ⟨hself he, hu⟩
      | true =>
          simp only [if_true]
          intro heq
          have hV' := hroot.grow.roots hok hV
          have hloop := reserveLoop_spec (reserveIndirect_spec L) (m := m) (i := i + 1)
            (n := n - min n (128 ^ L)) (by omega) hrest hroot.grow.ok hV'
          have hle' := hloop.freeSectors_le
          obtain ⟨he, hu⟩ := hstill (by omega)
          obtain ⟨he', hu'⟩ := ih (i := i + 1) (by omega) hrest hroot.grow.ok hV' (by omega)
          exact ⟨he'.trans (hself he), hu.trans hu'⟩

theorem reserveBlock_untaken {L e num : Nat} (htree : TreeUntaken D L)
    (hok : FreeMapOk D s) (hfan : fanOut 128 L num ≤ 128) (he : e ≠ 0)
    (hV : Roots D s (TreeIdx (L + 1)) (treeVal s (L + 1) e)) :
    let r := reserveBlock (reserveIndirect allocSector L) L s e num
    r.2.freeSectors = s.freeSectors → Untaken s r.2 := by
  have hroot : treeVal s (L + 1) e [] = e := treeVal_nil _ e
  have hused : s.used e := hroot ▸ hV.used [] (hroot.symm ▸ he)
  have hread : (s.readSector e).1 = s.content e :=
    FileSys.readSector_fst (hok.lt_size hused)
  have hfam := hV.children he
  have hval₀ : famVal (s.readSector e).2 (fun _ => L) (entries 128 (s.content e)) =
      famVal s (fun _ => L) (entries 128 (s.content e)) := by
    funext a
    exact treeVal_congr (fun q _ _ => by rw [FileSys.readSector_content]) a.2
  have hV₀ : Roots D (s.readSector e).2 (FamIdx fun _ => L)
      (famVal (s.readSector e).2 (fun _ => L) (entries 128 (s.content e))) := by
    rw [hval₀]
    exact ⟨hfam.used, hfam.inj, hfam.offData⟩
  have hloop := reserveLoop_untaken htree (i := 0) (n := num) (m := fanOut 128 L num) (by omega)
    (Nat.le_refl _) (hok.readSector e) hV₀
  have hgrow := (reserveLoop_spec (reserveIndirect_spec L) (i := 0) (n := num)
    (m := fanOut 128 L num) (by omega) (Nat.le_refl _) (hok.readSector e) hV₀).grow
  have hdef : reserveBlock (reserveIndirect allocSector L) L s e num =
      let r := reserveLoop (reserveIndirect allocSector L) (128 ^ L)
        (fanOut 128 L num) 0 (s.readSector e).2 (s.content e) num
      if r.1.1 then ((true, e), r.2.writeSector e r.1.2) else ((false, e), r.2) := by
    rw [← hread]
    rfl
  rw [hdef]
  generalize reserveLoop (reserveIndirect allocSector L) (128 ^ L) (fanOut 128 L num) 0
    (s.readSector e).2 (s.content e) num = r at hloop hgrow ⊢
  dsimp only
  split
  · intro heq
    obtain ⟨hblk, hu⟩ := hloop heq
    have hlt : e < r.2.cache.size := by
      rw [hgrow.size, FileSys.readSector_size]
      exact hok.lt_size hused
    have hback := Untaken.readSector e hu
    -- What is written back is what is there.
    refine ⟨hback.freeMap, fun v hv => ?_⟩
    rw [FileSys.writeSector_content hlt, hblk, ← hback.content e he, Function.update_eq_self]
    exact hback.content v hv
  · intro heq
    exact Untaken.readSector e (hloop heq).2

theorem reserveIndirect_untaken (L : Nat) : TreeUntaken D L := by
  induction L with
  | zero =>
      intro s e n hok hV hnum hle
      rcases eq_or_ne e 0 with rfl | he
      · rcases Nat.eq_zero_or_pos s.freeSectors with hfull | hfree
        · obtain ⟨hret, href⟩ := reserveIndirect_full (L := 0) hfull
            (hok.lt_size hok.mapSector) hnum
          intro r _
          exact ⟨congrArg Prod.snd hret, href.untaken⟩
        · -- A sector is taken.
          have hout := (reserveIndirect_spec (D := D) 0 hok hV hnum hle).freeSectors
          intro r heq
          rw [show missing (treeVal s 0 0) (slots 128 0 n) = [[]] from
            List.filter_eq_self.2 fun p _ => decide_eq_true (treeVal_null 0 p)] at hout
          have : r.2.freeSectors = s.freeSectors - 1 := hout
          omega
      · intro r _
        have hr : r = ((true, e), s) := if_neg he
        rw [hr]
        exact ⟨rfl, .refl s⟩
  | succ L ih =>
      intro s e n hok hV hnum hle
      rcases eq_or_ne e 0 with rfl | he
      · rcases Nat.eq_zero_or_pos s.freeSectors with hfull | hfree
        · obtain ⟨hret, href⟩ := reserveIndirect_full (L := L + 1) hfull
            (hok.lt_size hok.mapSector) hnum
          intro r _
          exact ⟨congrArg Prod.snd hret, href.untaken⟩
        · have hout := (reserveIndirect_spec (D := D) (L + 1) hok hV hnum hle).freeSectors
          intro r heq
          rw [show missing (treeVal s (L + 1) 0) (slots 128 (L + 1) n) = slots 128 (L + 1) n from
            List.filter_eq_self.2 fun p _ => decide_eq_true (treeVal_null (L + 1) p), slots_succ,
            List.length_append, List.length_singleton] at hout
          have : r.2.freeSectors = s.freeSectors - (1 + _) := hout
          omega
      · have hblock := reserveBlock_untaken ih hok (fanOut_le hle) he hV
        obtain ⟨hret, -⟩ := reserveBlock_spec (reserveIndirect_spec L) hok (fanOut_le hle) he hV
        intro r
        have hr : r = reserveBlock (reserveIndirect allocSector L) L s e n := if_neg he
        rw [hr]
        exact fun heq => ⟨hret, hblock heq⟩

/-! ## The inode -/

theorem reserveDirect_untaken {m : Nat} :
    ∀ {i : Nat} {s : FileSys} {d : Sector}, i + m ≤ 123 → FreeMapOk D s →
      Roots D s IsIndex (slotVal s.content d) →
        let r := reserveDirect allocSector m i s d
        r.2.freeSectors = s.freeSectors → r.1.2 = d ∧ Untaken s r.2 := by
  induction m with
  | zero =>
      intro i s d _ _ _ r _
      exact ⟨rfl, .refl s⟩
  | succ m ih =>
      intro i s d hi hok hV
      have hout := (reserveDirect_spec (m := m + 1) hi hok hV).2.freeSectors
      rw [reserveDirect] at hout ⊢
      rw [List.range'_succ, List.map_cons] at hout
      split
      · next h₀ =>
          have h₀ : blockEntry d i = 0 := h₀
          rcases Nat.eq_zero_or_pos s.freeSectors with hfull | hfree
          · simp only [allocSector_full hfull]
            exact fun _ => ⟨trivial, rfl, fun _ _ => rfl⟩
          · intro r heq
            have hone : 0 < (missing (slotVal s.content d)
                ((i, []) :: (List.range' (i + 1) m).map (·, []))).length := by
              refine List.length_pos_iff.2 (List.ne_nil_of_mem (a := (i, [])) ?_)
              exact List.mem_filter.2 ⟨List.mem_cons_self .., decide_eq_true
                ((slotVal_nil (by omega)).trans h₀)⟩
            rw [if_pos (show directBlock d i = 0 from h₀)] at hout
            have : r.2.freeSectors = s.freeSectors - _ := hout
            omega
      · exact ih (by omega) hok hV

theorem reserveRoot_untaken {i n : Nat} (hi : i < 125) (hok : FreeMapOk D s)
    (hV : Roots D s IsIndex (slotVal s.content d)) (hnum : 0 < n)
    (hle : n ≤ 128 ^ rootLevel i) :
    let r := reserveIndirect allocSector (rootLevel i) s (blockEntry d i) n
    r.2.freeSectors = s.freeSectors → d.setU32 (4 * i) r.1.2 = d ∧ Untaken s r.2 := by
  have hstill := reserveIndirect_untaken (rootLevel i) hok (hV.root hi) hnum hle
  generalize reserveIndirect allocSector (rootLevel i) s (blockEntry d i) n = r at hstill ⊢
  dsimp only at hstill ⊢
  intro heq
  obtain ⟨he, hu⟩ := hstill heq
  refine ⟨?_, hu⟩
  rw [he]
  exact ByteBlock.setU32_u32 d (4 * i)

theorem reserveDoublyIndirect_untaken {n : Nat} (hnum : 0 < n) (hok : FreeMapOk D s)
    (hV : Roots D s IsIndex (slotVal s.content d)) :
    let r := reserveDoublyIndirect allocSector s d n
    r.2.freeSectors = s.freeSectors → r.1.2 = d ∧ Untaken s r.2 := by
  have htree := reserveRoot_untaken (i := 124) (n := min n 16384) (by omega) hok hV
    (by omega) (by rw [rootLevel_doubly]; exact Nat.min_le_right ..)
  rw [rootLevel_doubly, show blockEntry d 124 = doublyIndirectBlock d from rfl,
    show 4 * 124 = 496 from rfl] at htree
  unfold reserveDoublyIndirect
  simp only [INDIRECT_BLOCKS_PER_SECTOR, Nat.reduceMul]
  generalize reserveIndirect allocSector 2 s (doublyIndirectBlock d) (min n 16384) = r at htree ⊢
  split
  · exact htree
  · exact htree

theorem reserveIndirectBlocks_untaken {n : Nat} (hnum : 0 < n) (hok : FreeMapOk D s)
    (hV : Roots D s IsIndex (slotVal s.content d)) :
    let r := reserveIndirectBlocks allocSector s d n
    r.2.freeSectors = s.freeSectors → r.1.2 = d ∧ Untaken s r.2 := by
  have htree := reserveRoot_untaken (i := 123) (n := min n 128) (by omega) hok hV
    (by omega) (by rw [rootLevel_indirect]; exact Nat.min_le_right ..)
  have hspec := reserveRoot_spec (i := 123) (n := min n 128) (by omega) hok hV
    (by omega) (by rw [rootLevel_indirect]; exact Nat.min_le_right ..)
  rw [rootLevel_indirect, show blockEntry d 123 = indirectBlock d from rfl,
    show 4 * 123 = 492 from rfl] at htree hspec
  unfold reserveIndirectBlocks
  simp only [INDIRECT_BLOCKS_PER_SECTOR]
  generalize reserveIndirect allocSector 1 s (indirectBlock d) (min n 128) = r at htree hspec ⊢
  split
  · exact htree
  · split
    · exact htree
    · next hgt =>
        have hV' := hspec.grow.roots hok hV
        have hle := hspec.freeSectors_le
        have hdouble := reserveDoublyIndirect_untaken (n := n - min n 128) (by omega)
          hspec.grow.ok hV'
        obtain ⟨-, ok, -, hout⟩ := reserveDoublyIndirect_spec (n := n - min n 128) (by omega)
          hspec.grow.ok hV'
        have hle' := hout.freeSectors_le
        intro heq
        obtain ⟨hd, hu⟩ := htree (by omega)
        obtain ⟨hd', hu'⟩ := hdouble (by omega)
        exact ⟨hd'.trans hd, hu.trans hu'⟩

theorem inodeReserve_untaken {length : Int} (hok : FreeMapOk D s)
    (hV : Roots D s IsIndex (slotVal s.content d)) :
    let r := inodeReserve allocSector s d length
    r.2.freeSectors = s.freeSectors → r.1.2 = d ∧ Untaken s r.2 := by
  unfold inodeReserve
  split
  · exact fun _ => ⟨rfl, .refl s⟩
  · simp only [DIRECT_BLOCKS_COUNT]
    have hdirect := reserveDirect_untaken (m := min (bytesToSectors length) 123) (i := 0) (d := d)
      (by omega) hok hV
    obtain ⟨-, hspec⟩ := reserveDirect_spec (m := min (bytesToSectors length) 123) (i := 0)
      (d := d) (by omega) hok hV
    generalize reserveDirect allocSector (min (bytesToSectors length) 123) 0 s d = r
      at hdirect hspec ⊢
    split
    · exact hdirect
    · split
      · exact hdirect
      · have hV' := hspec.grow.roots hok hV
        have hle := hspec.freeSectors_le
        have hrest := reserveIndirectBlocks_untaken
          (n := bytesToSectors length - min (bytesToSectors length) 123) (by omega)
          hspec.grow.ok hV'
        obtain ⟨-, ok, -, hout⟩ := reserveIndirectBlocks_spec
          (n := bytesToSectors length - min (bytesToSectors length) 123) (by omega)
          hspec.grow.ok hV'
        have hle' := hout.freeSectors_le
        intro heq
        obtain ⟨hd, hu⟩ := hdirect (by omega)
        obtain ⟨hd', hu'⟩ := hrest (by omega)
        exact ⟨hd'.trans hd, hu.trans hu'⟩

/-- The walk, and what it does to sector 0. -/
theorem inodeReserve_grow (hok : FreeMapOk D s) (hV : Roots D s IsIndex (slotVal s.content d))
    (length : Int) :
    let r := inodeReserve allocSector s d length
    Grow D s r.2 IsIndex (slotVal s.content d) (slotVal r.2.content r.1.2) ∧
      (r.2.content 0 = s.content 0 ↔ ¬ClearsZero s d length) := by
  intro r
  rcases Int.lt_or_le length 0 with hneg | hlen
  · have hr : r = ((false, d), s) := if_pos hneg
    rw [hr]
    exact ⟨.refl hok hV, iff_of_true rfl fun h => absurd h.2.1 (by omega)⟩
  · obtain ⟨-, ok, -, hout⟩ := inodeReserve_spec hlen hok hV
    have hshort := hout.short
    have henough := hout.enough
    refine ⟨hout.grow, ?_⟩
    have hiff : ClearsZero s d length ↔ s.content 0 ≠ .zeros ∧ ∃ a, IsIndex a ∧
        (missing (slotVal s.content d) (inodeSlots (bytesToSectors length)))[s.freeSectors]? =
          some a := ⟨fun h => ⟨h.1, h.2.2⟩, fun h => ⟨h.1, hlen, h.2⟩⟩
    rw [hiff]
    rcases Nat.lt_or_ge s.freeSectors (missing (slotVal s.content d)
      (inodeSlots (bytesToSectors length))).length with hlt | hle
    · -- The walk stops at the first slot that is left over.
      obtain ⟨-, hshort⟩ := hshort hlt
      have hzero := hshort.zero
      generalize missing (slotVal s.content d) (inodeSlots (bytesToSectors length)) = m
        at hlt hzero ⊢
      have hget := List.getElem?_eq_getElem hlt
      obtain ⟨hindex, hdata⟩ := hzero _ hget
      rw [hget]
      by_cases hidx : IsIndex m[s.freeSectors]
      · show r.2.content 0 = _ ↔ _
        rw [hindex hidx]
        constructor
        · exact fun heq hclear => hclear.1 heq.symm
        · intro hno
          by_contra hne
          exact hno ⟨fun h => hne h.symm, _, hidx, rfl⟩
      · refine iff_of_true (hdata hidx) ?_
        rintro ⟨-, a, ha, heq⟩
        exact hidx (Option.some.inj heq ▸ ha)
    · refine iff_of_true (henough hle).2.zero ?_
      rintro ⟨-, a, -, heq⟩
      rw [List.getElem?_eq_none hle] at heq
      cases heq

theorem inodeReserve_sparing (hok : FreeMapOk D s)
    (hV : Roots D s IsIndex (slotVal s.content d)) (length : Int) :
    Sparing s d length (inodeReserve allocSector s d length).1.2
      (inodeReserve allocSector s d length).2 :=
  ⟨inodeReserve_untaken hok hV, (inodeReserve_grow hok hV length).2⟩

end Untaken

end SimpleShell.Fs
