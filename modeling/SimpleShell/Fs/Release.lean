import SimpleShell.Fs.Reserve

/-!
# Releasing the sectors of an inode

`inode_deallocate` goes over the same slots as `inode_reserve`, by the same
splitting of the number of sectors, and releases what stands in each. `Freed`
says what a series of releases does: the sectors of a set are free afterwards,
and the disk is untouched but for the bitmap's own sectors. Index blocks are
read before the sectors below them are released, and a release erases nothing,
so the walk finds every pointer where it was.
-/

namespace SimpleShell.Fs

open SimpleShell.Lib

structure Freed (D : Set Nat) (s : FileSys) (S : Set Nat) (s' : FileSys) : Prop where
  used : ∀ j, s'.used j ↔ j ∉ S ∧ s.used j
  mem : s'.mem = s.mem
  allocFailures : s'.allocFailures = s.allocFailures
  size : s'.cache.size = s.cache.size
  content : ∀ j, j ∉ D → s'.content j = s.content j
  ok : FreeMapOk D s'

section Freed

variable {D S T : Set Nat} {s s₁ s' : FileSys} {k : Nat}

theorem Freed.refl (hok : FreeMapOk D s) : Freed D s ∅ s :=
  ⟨fun j => by simp, rfl, rfl, rfl, fun _ _ => rfl, hok⟩

theorem Freed.congr (h : Freed D s S s') (hST : ∀ v, v ∈ S ↔ v ∈ T) :
    Freed D s T s' := by
  rw [show T = S from Set.ext fun v => (hST v).symm]
  exact h

theorem Freed.union (h₁ : Freed D s S s₁) (h₂ : Freed D s₁ T s') :
    Freed D s (S ∪ T) s' where
  used j := by
    rw [h₂.used, h₁.used, Set.mem_union, not_or]
    constructor
    · exact fun ⟨hT, hS, hj⟩ => ⟨⟨hS, hT⟩, hj⟩
    · exact fun ⟨⟨hS, hT⟩, hj⟩ => ⟨hT, hS, hj⟩
  mem := h₂.mem.trans h₁.mem
  allocFailures := h₂.allocFailures.trans h₁.allocFailures
  size := h₂.size.trans h₁.size
  content j hj := (h₂.content j hj).trans (h₁.content j hj)
  ok := h₂.ok

/-- A sector that may be released: no system sector, nor one of the free map. -/
structure Releasable (s : FileSys) (v : Nat) : Prop where
  ne_map : v ≠ FREE_MAP_SECTOR
  ne_root : v ≠ ROOT_DIR_SECTOR
  off : OffMap s v

theorem Releasable.freed (hv : Releasable s k) (hok : FreeMapOk D s) :
    Freed D s {k} (freeMapRelease s k 1) := by
  have h := freeMapRelease_spec hok hv.ne_map hv.ne_root hv.off
  exact ⟨h.used, h.mem, h.allocFailures, h.size, h.content, h.ok⟩

/-- A release does not make the free map grow. -/
theorem Freed.releasable (h : Freed D s S s') (hok : FreeMapOk D s)
    (hv : Releasable s k) : Releasable s' k := by
  refine ⟨hv.ne_map, hv.ne_root, fun f i hf hget a ha => ?_⟩
  rw [h.mem] at hf hget
  obtain ⟨i', hget', hi⟩ := hok.opened f hf
  have hii : i = i' := Option.some.inj (hget.symm.trans hget')
  subst hii
  rw [hi.slotVal_of_keeps hf hget (fun j hj => .inr (by
    rw [h.content j hj]; exact .refl _)) ha]
  exact hv.off f i hf hget a ha

/-! ## Trees -/

/-- What the walk over a tree relies on: its index blocks hold no bitmap. -/
def OffData (D : Set Nat) (s : FileSys) (L e : Nat) : Prop :=
  ∀ p, TreeIdx L p → treeVal s L e p ≠ 0 → treeVal s L e p ∉ D

theorem Freed.treeVal (h : Freed D s S s') {L e : Nat} (hD : OffData D s L e)
    (p : List Nat) : treeVal s' L e p = SimpleShell.Fs.treeVal s L e p :=
  treeVal_congr (fun q hq hne => h.content _ (hD q hq hne)) p

theorem Freed.offData (h : Freed D s S s') {L e : Nat} (hD : OffData D s L e) :
    OffData D s' L e := by
  intro p hp hne
  rw [h.treeVal hD] at hne ⊢
  exact hD p hp hne

/-- The sectors in the slots of a tree. -/
def treeSectors (s : FileSys) (L e num : Nat) : Set Nat :=
  {v | ∃ p ∈ slots 128 L num, treeVal s L e p = v}

/-- What `inode_deallocate_indirect` does at one level. -/
def FreeSpec (D : Set Nat) (L : Nat) : Prop :=
  ∀ {s : FileSys} {e w : Nat}, FreeMapOk D s → OffData D s L e → 0 < w →
    w ≤ 128 ^ L → (∀ v ∈ treeSectors s L e w, v < s.cache.size ∧ Releasable s v) →
      Freed D s (treeSectors s L e w) (deallocateIndirect L s e w)

/-- The rounds that are left need no more than the leaves that are left. -/
theorem fanOut_rest {L m w : Nat} (h : m + 1 ≤ fanOut 128 L w) :
    m ≤ fanOut 128 L (w - min w (128 ^ L)) := by
  have hpos : 0 < 128 ^ L := Nat.pow_pos (by decide)
  rcases Nat.eq_zero_or_pos m with rfl | hc
  · exact Nat.zero_le _
  · have h₁ := (lt_fanOut (N := 128) (L := L) (j := m) (n := w) (by decide)).1 (by omega)
    have h₂ := (lt_fanOut (N := 128) (L := L) (j := m - 1)
      (n := w - min w (128 ^ L)) (by decide)).2
    have h₃ : m * 128 ^ L = (m - 1) * 128 ^ L + 128 ^ L := by
      rw [← Nat.succ_mul]
      congr 1
      omega
    have := h₂ (by omega)
    omega

theorem deallocateLoop_spec {L : Nat} (htree : FreeSpec D L) {b : Sector}
    {m : Nat} : ∀ {i w : Nat} {s : FileSys}, m ≤ fanOut 128 L w →
      FreeMapOk D s → (∀ j, OffData D s L (entries 128 b j)) → i + m ≤ 128 →
      (∀ a ∈ loopSlots L m i w,
        famVal s (fun _ => L) (entries 128 b) a < s.cache.size ∧
          Releasable s (famVal s (fun _ => L) (entries 128 b) a)) →
        Freed D s {v | ∃ a ∈ loopSlots L m i w,
          famVal s (fun _ => L) (entries 128 b) a = v}
          (deallocateLoop (deallocateIndirect L) (128 ^ L) b m i s w) := by
  induction m with
  | zero =>
      intro i w s _ hok _ _ _
      exact (Freed.refl hok).congr fun v => by simp [loopSlots]
  | succ m ih =>
      intro i w s hcnt hok hD hi hgood
      have hpos : 0 < 128 ^ L := Nat.pow_pos (by decide)
      have hnum : 0 < w := by
        have := (lt_fanOut (N := 128) (L := L) (j := 0) (n := w) (by decide)).1
          (by omega)
        omega
      have hentry : blockEntry b i = entries 128 b i :=
        (if_pos (show i < 128 by omega)).symm
      have hfirst := htree (e := entries 128 b i) (w := min w (128 ^ L)) hok (hD i)
        (by omega) (Nat.min_le_right ..) (by
          rintro v ⟨p, hp, rfl⟩
          exact hgood (i, p) (List.mem_append_left _ (List.mem_map_of_mem hp)))
      have hfam : ∀ a, famVal (deallocateIndirect L s (entries 128 b i)
          (min w (128 ^ L))) (fun _ => L) (entries 128 b) a =
          famVal s (fun _ => L) (entries 128 b) a :=
        fun a => hfirst.treeVal (hD a.1) a.2
      have hrest := ih (i := i + 1) (w := w - min w (128 ^ L)) (fanOut_rest hcnt) hfirst.ok
        (fun j => hfirst.offData (hD j)) (by omega) (by
          intro a ha
          rw [hfam, hfirst.size]
          obtain ⟨hlt, hrel⟩ := hgood a (List.mem_append_right _ ha)
          exact ⟨hlt, hfirst.releasable hok hrel⟩)
      rw [deallocateLoop, hentry]
      refine (hfirst.union hrest).congr fun v => ?_
      simp only [hfam, loopSlots, Set.mem_union, treeSectors, Set.mem_ofPred_eq,
        List.mem_append, List.mem_map]
      constructor
      · rintro (⟨p, hp, hv⟩ | ⟨a, ha, hv⟩)
        · exact ⟨(i, p), .inl ⟨p, hp, rfl⟩, hv⟩
        · exact ⟨a, .inr ha, hv⟩
      · rintro ⟨a, ⟨p, hp, rfl⟩ | ha, hv⟩
        · exact .inl ⟨p, hp, hv⟩
        · exact .inr ⟨a, ha, hv⟩

theorem deallocateIndirect_spec (L : Nat) : FreeSpec D L := by
  induction L with
  | zero =>
      intro s e num hok _ _ _ hgood
      have hmem : e ∈ treeSectors s 0 e num := ⟨[], List.mem_singleton_self _, rfl⟩
      refine ((hgood e hmem).2.freed hok).congr fun v => ?_
      constructor
      · rintro rfl
        exact hmem
      · rintro ⟨p, hp, rfl⟩
        rw [List.mem_singleton.1 hp]
        rfl
  | succ L ih =>
      intro s e num hok hD hnum hle hgood
      have hmem : e ∈ treeSectors s (L + 1) e num :=
        ⟨[], by rw [slots]; exact List.mem_cons_self, treeVal_nil _ e⟩
      obtain ⟨hlt, hrel⟩ := hgood e hmem
      have he : e ≠ 0 := hrel.ne_map
      have hread := FileSys.readSector_fst hlt
      have hok' := hok.readSector e
      have hcont := s.readSector_content e
      have hval : ∀ M p, treeVal (s.readSector e).2 L M p = treeVal s L M p := by
        intro M p
        unfold treeVal
        rw [hcont]
      have hfam : ∀ a, famVal (s.readSector e).2 (fun _ => L)
          (entries 128 (s.content e)) a = treeVal s (L + 1) e (a.1 :: a.2) := by
        intro a
        rw [treeVal_cons he]
        exact hval _ _
      have hsub : ∀ j, OffData D (s.readSector e).2 L (entries 128 (s.content e) j) := by
        intro j p hp hne
        have := hfam (j, p)
        unfold famVal at this
        rw [this] at hne ⊢
        exact hD (j :: p) (Nat.succ_lt_succ hp) hne
      have hfan : fanOut 128 L num ≤ 128 := fanOut_le hle
      have hloop := deallocateLoop_spec (ih) (b := s.content e)
        (m := fanOut 128 L num) (i := 0) (w := num) (Nat.le_refl _) hok' hsub
        (by omega) (by
          intro a ha
          rw [hfam, FileSys.readSector_size]
          obtain ⟨hlt, hrel⟩ := hgood _ ⟨a.1 :: a.2, by
            rw [slots_succ]
            exact List.mem_append_right _ (List.mem_map_of_mem
              (f := fun a : Slot => a.1 :: a.2) ha), rfl⟩
          refine ⟨hlt, hrel.ne_map, hrel.ne_root, fun f i hf hget b hb => ?_⟩
          rw [hcont]
          exact hrel.off f i hf hget b hb)
      have hrel' : Releasable (s.readSector e).2 e :=
        ⟨hrel.ne_map, hrel.ne_root, fun f i hf hget b hb => by
          rw [hcont]; exact hrel.off f i hf hget b hb⟩
      have hlast := (hloop.releasable hok' hrel').freed hloop.ok
      have hall := hloop.union hlast
      rw [deallocateIndirect]
      simp only [hread]
      refine ⟨fun j => ?_, hall.mem, hall.allocFailures,
        hall.size.trans (FileSys.readSector_size ..), fun j hj => ?_, hall.ok⟩
      · refine (hall.used j).trans (and_congr_left fun _ => not_congr ?_)
        simp only [hfam, Set.mem_union, Set.mem_ofPred_eq, Set.mem_singleton_iff,
          treeSectors, slots_succ, List.mem_append, List.mem_singleton, List.mem_map]
        constructor
        · rintro (⟨a, ha, hv⟩ | rfl)
          · exact ⟨a.1 :: a.2, .inr ⟨a, ha, rfl⟩, hv⟩
          · exact ⟨[], .inl rfl, treeVal_nil ..⟩
        · rintro ⟨p, rfl | ⟨a, ha, rfl⟩, hv⟩
          · exact .inr (hv.symm.trans (treeVal_nil ..))
          · exact .inl ⟨a, ha, hv⟩
      · exact (hall.content j hj).trans (congrFun hcont j)

/-! ## The whole inode -/

/-- The sectors in the slots of `as`. -/
def slotSectors (f : Nat → Sector) (d : Sector) (as : List Slot) : Set Nat :=
  {v | ∃ a ∈ as, slotVal f d a = v}

theorem slotSectors_append (f : Nat → Sector) (d : Sector) (as bs : List Slot) :
    slotSectors f d (as ++ bs) = slotSectors f d as ∪ slotSectors f d bs := by
  ext v
  simp only [slotSectors, Set.mem_union, Set.mem_ofPred_eq, List.mem_append]
  constructor
  · rintro ⟨a, ha | ha, hv⟩
    · exact .inl ⟨a, ha, hv⟩
    · exact .inr ⟨a, ha, hv⟩
  · rintro (⟨a, ha, hv⟩ | ⟨a, ha, hv⟩)
    · exact ⟨a, .inl ha, hv⟩
    · exact ⟨a, .inr ha, hv⟩

variable {d : Sector}

/-- The index blocks of `d` hold no bitmap. -/
def OffIndex (D : Set Nat) (f : Nat → Sector) (d : Sector) : Prop :=
  ∀ a, IsIndex a → slotVal f d a ≠ 0 → slotVal f d a ∉ D

theorem Freed.slotVal (h : Freed D s S s') (hD : OffIndex D s.content d) :
    slotVal s'.content d = SimpleShell.Fs.slotVal s.content d := by
  rw [slotVal_eq, slotVal_eq]
  funext a
  refine h.treeVal (fun p hp hne => ?_) a.2
  have := hD (a.1, p) hp
  rw [slotVal_eq] at this
  exact this hne

/-- The slots of `as` lead to sectors that may be released. -/
def Good (s : FileSys) (d : Sector) (as : List Slot) : Prop :=
  ∀ a ∈ as, SimpleShell.Fs.slotVal s.content d a < s.cache.size ∧
    Releasable s (SimpleShell.Fs.slotVal s.content d a)

theorem Freed.good (h : Freed D s S s') (hok : FreeMapOk D s)
    (hD : OffIndex D s.content d) {as : List Slot} (hg : Good s d as) :
    Good s' d as := by
  intro a ha
  obtain ⟨hlt, hrel⟩ := hg a ha
  rw [h.slotVal hD, h.size]
  exact ⟨hlt, h.releasable hok hrel⟩

theorem Freed.offIndex (h : Freed D s S s') (hD : OffIndex D s.content d) :
    OffIndex D s'.content d := by
  intro a ha hne
  rw [h.slotVal hD] at hne ⊢
  exact hD a ha hne

/-- One part of the work after another. -/
theorem Freed.slots_append (hD : OffIndex D s.content d)
    {as bs : List Slot} (h₁ : Freed D s (slotSectors s.content d as) s₁)
    (h₂ : Freed D s₁ (slotSectors s₁.content d bs) s') :
    Freed D s (slotSectors s.content d (as ++ bs)) s' := by
  rw [slotSectors_append]
  refine (h₁.union h₂).congr fun v => ?_
  unfold slotSectors
  rw [h₁.slotVal hD]

theorem deallocateDirect_spec {m : Nat} : ∀ {i : Nat} {s : FileSys},
    FreeMapOk D s → OffIndex D s.content d → i + m ≤ 123 →
      Good s d ((List.range' i m).map (·, [])) →
        Freed D s (slotSectors s.content d ((List.range' i m).map (·, [])))
          (deallocateDirect d m i s) := by
  induction m with
  | zero =>
      intro i s hok _ _ _
      exact (Freed.refl hok).congr fun v => by simp [slotSectors]
  | succ m ih =>
      intro i s hok hD hi hgood
      rw [List.range'_succ, List.map_cons, ← List.singleton_append] at hgood ⊢
      have hval : SimpleShell.Fs.slotVal s.content d (i, []) = directBlock d i :=
        slotVal_nil (by omega)
      have hrel := (hgood (i, []) (List.mem_append_left _ (List.mem_singleton_self _))).2
      rw [hval] at hrel
      have hfirst : Freed D s (slotSectors s.content d [(i, [])])
          (freeMapRelease s (directBlock d i) 1) := by
        refine (hrel.freed hok).congr fun v => ?_
        simp [slotSectors, hval, eq_comm]
      rw [deallocateDirect]
      exact hfirst.slots_append hD (ih hfirst.ok (hfirst.offIndex hD) (by omega)
        (hfirst.good hok hD fun a ha => hgood a (List.mem_append_right _ ha)))

/-- The tree at root pointer `i`. -/
theorem deallocateRoot_spec {i n : Nat} (hi : i < 125) (hok : FreeMapOk D s)
    (hD : OffIndex D s.content d) (hnum : 0 < n) (hle : n ≤ 128 ^ rootLevel i)
    (hgood : Good s d ((slots 128 (rootLevel i) n).map (i, ·))) :
    Freed D s (slotSectors s.content d ((slots 128 (rootLevel i) n).map (i, ·)))
      (deallocateIndirect (rootLevel i) s (blockEntry d i) n) := by
  have hval : ∀ p, SimpleShell.Fs.slotVal s.content d (i, p) =
      SimpleShell.Fs.treeVal s (rootLevel i) (blockEntry d i) p := by
    intro p
    rw [slotVal_eq, famVal, entries, if_pos hi]
  refine (deallocateIndirect_spec (rootLevel i) hok (fun p hp hne => ?_) hnum hle
    ?_).congr fun v => ?_
  · rw [← hval] at hne ⊢
    exact hD (i, p) hp hne
  · rintro v ⟨p, hp, rfl⟩
    rw [← hval]
    exact hgood _ (List.mem_map_of_mem hp)
  · constructor
    · rintro ⟨p, hp, rfl⟩
      exact ⟨(i, p), List.mem_map_of_mem hp, hval p⟩
    · rintro ⟨a, ha, rfl⟩
      obtain ⟨p, hp, rfl⟩ := List.mem_map.1 ha
      exact ⟨p, hp, (hval p).symm⟩

/-- `inode_deallocate` releases the sectors that the length calls for. -/
theorem inodeDeallocate_spec (hok : FreeMapOk D s) (hlen : 0 ≤ inodeLength d)
    (hD : OffIndex D s.content d) (hgood : Good s d (inodeSlots (numSectors d))) :
    Freed D s (slotSectors s.content d (inodeSlots (numSectors d)))
      (inodeDeallocate s d) := by
  unfold inodeDeallocate
  rw [if_neg (by omega)]
  unfold inodeSlots at hgood ⊢
  simp only [DIRECT_BLOCKS_COUNT, INDIRECT_BLOCKS_PER_SECTOR, Nat.reduceMul]
  generalize hn : numSectors d = n at hgood ⊢
  rw [← show numSectors d = bytesToSectors (inodeLength d) from rfl, hn]
  rw [List.range_eq_range'] at hgood ⊢
  have hdirect := deallocateDirect_spec (m := min n 123) (i := 0) hok hD (by omega)
    fun a ha => hgood a (List.mem_append_left _ ha)
  have hrest := hdirect.good hok hD fun a ha => hgood a (List.mem_append_right _ ha)
  generalize deallocateDirect d (min n 123) 0 s = s₁ at hdirect hrest ⊢
  refine hdirect.slots_append hD ?_
  have hok₁ := hdirect.ok
  have hD₁ := hdirect.offIndex hD
  have hsub : n - min n 123 = n - 123 := by omega
  rw [hsub]
  rcases Nat.lt_or_ge 123 n with hgt | hle
  · rw [if_neg (show ¬ n ≤ 123 by omega)] at hrest ⊢
    rw [if_pos (show 0 < min (n - 123) 128 by omega)]
    have hind := deallocateRoot_spec (i := 123) (n := min (n - 123) 128) (by omega)
      hok₁ hD₁ (by omega) (by rw [rootLevel_indirect]; exact Nat.min_le_right ..)
      fun a ha => hrest a (List.mem_append_left _ ha)
    have hrest' := hind.good hok₁ hD₁ fun a ha => hrest a (List.mem_append_right _ ha)
    rw [rootLevel_indirect, show blockEntry d 123 = indirectBlock d from rfl]
      at hind hrest'
    generalize deallocateIndirect 1 s₁ (indirectBlock d) (min (n - 123) 128) = s₂
      at hind hrest' ⊢
    refine hind.slots_append hD₁ ?_
    have hok₂ := hind.ok
    have hD₂ := hind.offIndex hD₁
    have hsub : n - 123 - min (n - 123) 128 = n - 251 := by omega
    rw [hsub]
    rcases Nat.lt_or_ge 251 n with hgt' | hle'
    · rw [if_neg (show ¬ n ≤ 251 by omega)] at hrest' ⊢
      rw [if_pos (show 0 < min (n - 251) 16384 by omega)]
      have hdbl := deallocateRoot_spec (i := 124) (n := min (n - 251) 16384)
        (by omega) hok₂ hD₂ (by omega)
        (by rw [rootLevel_doubly]; exact Nat.min_le_right ..)
      rw [rootLevel_doubly, show blockEntry d 124 = doublyIndirectBlock d from rfl]
        at hdbl
      exact hdbl hrest'
    · rw [if_pos (show n ≤ 251 by omega), if_neg (by omega)]
      exact (Freed.refl hok₂).congr fun v => by simp [slotSectors]
  · rw [if_pos (show n ≤ 123 by omega), if_pos (show n ≤ 251 by omega),
      if_neg (show ¬ 0 < min (n - 123) 128 by omega),
      if_neg (show ¬ 0 < min (n - 123 - min (n - 123) 128) 16384 by omega)]
    exact (Freed.refl hok₁).congr fun v => by simp [slotSectors]

end Freed

end SimpleShell.Fs
