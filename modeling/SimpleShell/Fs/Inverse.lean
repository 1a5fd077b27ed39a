import SimpleShell.Fs.Fresh

/-!
# Reservation and release

`inode_reserve` called with longer and longer lengths on an inode without blocks,
and `inode_deallocate` at the last of them. `Reserved` is what holds between the
calls: the slots of the lengths so far are filled, with sectors that were free
before the first call, and no other slot is. The release passes over the same
slots; `released` lists what it gives to `free_map_release`, in order.
-/

namespace SimpleShell.Fs

open SimpleShell.Lib

/-! ## A sequence of reservations -/

/-- `inode_reserve` at one length after the other, each call on what the last one
left, as long as they succeed. -/
def reserveAll : FileSys → Sector → List Int → Option (Sector × FileSys)
  | s, d, [] => some (d, s)
  | s, d, length :: rest =>
      let r := inodeReserve allocSector s d length
      if r.1.1 then reserveAll r.2 r.1.2 rest else none

theorem reserveAll_append (xs ys : List Int) (s : FileSys) (d : Sector) :
    reserveAll s d (xs ++ ys) =
      (reserveAll s d xs).bind fun r => reserveAll r.2 r.1 ys := by
  induction xs generalizing s d with
  | nil => rfl
  | cons length xs ih =>
      rw [List.cons_append, reserveAll, reserveAll]
      split
      · exact ih _ _
      · rfl

/-- The slots of `n` sectors are filled, with sectors taken since `s₀`. -/
structure Reserved (D : Set Nat) (s₀ s : FileSys) (d : Sector) (n : Nat) : Prop where
  grow : Grow D s₀ s IsIndex (fun _ => 0) (slotVal s.content d)
  only : ∀ a, a ∉ inodeSlots n → slotVal s.content d a = 0
  ne : ∀ a ∈ inodeSlots n, slotVal s.content d a ≠ 0
  taken : ∀ k, s.used k → s₀.used k ∨ ∃ a, slotVal s.content d a = k

section Reserved

variable {D : Set Nat} {s₀ s s' : FileSys} {d d' : Sector} {n : Nat}

theorem roots_null (idx : Slot → Prop) : Roots D s idx fun _ => 0 :=
  ⟨fun _ h => absurd rfl h, fun _ _ h => absurd rfl h, fun _ _ h => absurd rfl h⟩

theorem Reserved.start (hok : FreeMapOk D s) (hd : ∀ r < 125, blockEntry d r = 0) :
    Reserved D s s d 0 := by
  have hnull : slotVal s.content d = fun _ => 0 := by
    funext a
    unfold slotVal
    split
    · next hr => rw [hd a.1 hr, nodeAt_null]
    · rfl
  refine ⟨?_, fun a _ => by rw [hnull], fun a ha => absurd ha ?_, fun k hk => .inl hk⟩
  · rw [hnull]
    exact .refl hok (roots_null _)
  · exact List.not_mem_nil

theorem Reserved.roots (h : Reserved D s₀ s d n) (hok : FreeMapOk D s₀) :
    Roots D s IsIndex (slotVal s.content d) := h.grow.roots hok (roots_null _)

theorem Reserved.fresh (h : Reserved D s₀ s d n) {a : Slot} (ha : a ∈ inodeSlots n) :
    ¬ s₀.used (slotVal s.content d a) ∧ s.used (slotVal s.content d a) :=
  h.grow.fresh a rfl (h.ne a ha)

/-- What one call does. -/
theorem inodeReserve_done (hok : FreeMapOk D s) (hV : Roots D s IsIndex (slotVal s.content d))
    {length : Int} (h : inodeReserve allocSector s d length = ((true, d'), s')) :
    0 ≤ length ∧ bytesToSectors length ≤ MAX_SECTORS ∧
      Outcome D s s' IsIndex (inodeSlots (bytesToSectors length)) true
        (slotVal s.content d) (slotVal s'.content d') := by
  rcases Int.lt_or_le length 0 with hneg | hlen
  · rw [inodeReserve, if_pos hneg] at h
    cases h
  · obtain ⟨-, ok, hret, hout⟩ := inodeReserve_spec hlen hok hV
    rw [h] at hret hout
    have hand : ok = true ∧ bytesToSectors length ≤ MAX_SECTORS := by
      simpa using hret.symm
    rw [hand.1] at hout
    exact ⟨hlen, hand.2, hout⟩

theorem Reserved.call (h : Reserved D s₀ s d n) (hok : FreeMapOk D s₀) {m : Nat}
    (hle : n ≤ m)
    (hout : Outcome D s s' IsIndex (inodeSlots m) true (slotVal s.content d)
      (slotVal s'.content d')) : Reserved D s₀ s' d' m := by
  obtain ⟨-, hfill⟩ := hout.enough (hout.le_of_true rfl)
  refine ⟨h.grow.trans hok hout.grow, fun a ha => ?_, hfill.ne, fun k hk => ?_⟩
  · rw [hout.beyond a ha]
    exact h.only a fun hmem => ha (inodeSlots_mono hle hmem)
  · rcases hfill.exact k hk with hused | ⟨a, -, ha⟩
    · rcases h.taken k hused with h₀ | ⟨a, ha⟩
      · exact .inl h₀
      · rcases eq_or_ne k 0 with rfl | hk₀
        · exact .inl hok.mapSector
        · refine .inr ⟨a, ?_⟩
          rw [hout.grow.keep a (ha ▸ hk₀), ha]
    · exact .inr ⟨a, ha⟩

/-- The sectors of the last of the lengths. -/
def sectorsOf (lengths : List Int) : Nat := bytesToSectors (lengths.getLast?.getD 0)

theorem reserveAll_reserved (hok : FreeMapOk D s₀) {lengths : List Int}
    (h : Reserved D s₀ s d n) (hsorted : lengths.Pairwise (· ≤ ·))
    (hle : ∀ length ∈ lengths, n ≤ bytesToSectors length)
    (hall : reserveAll s d lengths = some (d', s')) :
    Reserved D s₀ s' d' (if lengths = [] then n else sectorsOf lengths) := by
  induction lengths generalizing s d n with
  | nil =>
      cases hall
      exact h
  | cons length rest ih =>
      obtain ⟨r, hr⟩ : ∃ r, inodeReserve allocSector s d length = r := ⟨_, rfl⟩
      obtain ⟨⟨ok, d₁⟩, s₁⟩ := r
      rw [reserveAll, hr] at hall
      cases ok with
      | false => cases hall
      | true =>
          obtain ⟨hfirst, hrest⟩ := List.pairwise_cons.1 hsorted
          obtain ⟨-, -, hout⟩ := inodeReserve_done h.grow.ok (h.roots hok) hr
          have hcall := h.call hok (hle length List.mem_cons_self) hout
          have hgo := ih hcall hrest (fun l hl => bytesToSectors_mono (hfirst l hl)) hall
          rw [if_neg (List.cons_ne_nil _ _)]
          cases rest with
          | nil => exact hgo
          | cons next rest =>
              rw [if_neg (List.cons_ne_nil _ _)] at hgo
              rw [sectorsOf, List.getLast?_cons_cons]
              exact hgo

theorem Reserved.mapped (h : Reserved D s₀ s d n) :
    Mapped s.content s.cache.size d n where
  ne := h.ne
  lt _ ha := h.grow.ok.lt_size (h.fresh ha).2
  inj _ ha _ _ heq := h.grow.inj _ _ (h.ne _ ha) heq

/-- What was taken since `s₀` may be released. -/
theorem Reserved.releasable (h : Reserved D s₀ s d n) (hok : FreeMapOk D s₀) {v : Nat}
    (hfree : ¬ s₀.used v) : Releasable s v := by
  refine ⟨fun heq => hfree (heq ▸ hok.mapSector), fun heq => hfree (heq ▸ hok.rootSector), ?_⟩
  intro f i hf hget a ha hav
  rw [h.grow.mem] at hf hget
  obtain ⟨i', hget', hi⟩ := hok.opened f hf
  obtain rfl : i = i' := Option.some.inj (hget.symm.trans hget')
  -- the slots of the free-map file are those it had at the start
  have hsame := hi.slotVal_of_keeps hf hget (fun k hk => by
    by_cases hslot : OffMap s₀ k
    · exact .inl hslot
    · right
      unfold OffMap at hslot
      push Not at hslot
      obtain ⟨f', i', hf', hget', b, hb, rfl⟩ := hslot
      obtain rfl : f = f' := Option.some.inj (hf.symm.trans hf')
      obtain rfl : i = i' := Option.some.inj (hget.symm.trans hget')
      exact h.grow.keeps _ (hi.used b hb) hk (hi.file.mapped.ne b hb)) ha
  rw [hsame] at hav
  exact hfree (hav ▸ hi.used a ha)

theorem Reserved.good (h : Reserved D s₀ s d n) (hok : FreeMapOk D s₀) :
    Good s d (inodeSlots n) := by
  intro a ha
  obtain ⟨hfree, hused⟩ := h.fresh ha
  exact ⟨h.grow.ok.lt_size hused, h.releasable hok hfree⟩

theorem Reserved.offIndex (h : Reserved D s₀ s d n) (hok : FreeMapOk D s₀) :
    OffIndex D s.content d := fun a ha hne => (h.roots hok).offData a ha hne

end Reserved

/-! ## What is released -/

/-- The sectors the loop of `inode_deallocate_indirect` gives to `free_map_release`,
`log` being those of the recursive call `f`. -/
def releasedLoop (log : FileSys → Nat → Nat → List Nat) (f : FileSys → Nat → Nat → FileSys)
    (unit : Nat) (blk : Sector) : Nat → Nat → FileSys → Nat → List Nat
  | 0, _, _, _ => []
  | cnt + 1, i, s, num =>
      let subsize := min num unit
      log s (blockEntry blk i) subsize ++
        releasedLoop log f unit blk cnt (i + 1) (f s (blockEntry blk i) subsize) (num - subsize)

def releasedIndirect : Nat → FileSys → Nat → Nat → List Nat
  | 0, _, entry, _ => [entry]
  | level + 1, s, entry, num =>
      let b := s.readSector entry
      let unit := INDIRECT_BLOCKS_PER_SECTOR ^ level
      let l := (num + unit - 1) / unit
      releasedLoop (releasedIndirect level) (deallocateIndirect level) unit b.1 l 0 b.2 num ++
        [entry]

/-- What `inode_deallocate` gives to `free_map_release`, in order. -/
def released (s : FileSys) (d : Sector) : List Nat :=
  if inodeLength d < 0 then []
  else
    let num := bytesToSectors (inodeLength d)
    let l := min num DIRECT_BLOCKS_COUNT
    let direct := (List.range l).map (directBlock d)
    let s := deallocateDirect d l 0 s
    let num := num - l
    let l := min num INDIRECT_BLOCKS_PER_SECTOR
    let indirect := if 0 < l then releasedIndirect 1 s (indirectBlock d) l else []
    let s := if 0 < l then deallocateIndirect 1 s (indirectBlock d) l else s
    let num := num - l
    let l := min num (INDIRECT_BLOCKS_PER_SECTOR * INDIRECT_BLOCKS_PER_SECTOR)
    let doubly := if 0 < l then releasedIndirect 2 s (doublyIndirectBlock d) l else []
    direct ++ (indirect ++ doubly)

/-- A run that does nothing but read sectors and release, in order, those of the
list. -/
inductive Releases : FileSys → List Nat → FileSys → Prop
  | done (s : FileSys) : Releases s [] s
  | read {s t : FileSys} {ks : List Nat} (k : Nat) :
      Releases (s.readSector k).2 ks t → Releases s ks t
  | release {s t : FileSys} {ks : List Nat} (k : Nat) :
      Releases (freeMapRelease s k 1) ks t → Releases s (k :: ks) t

theorem Releases.trans {s t u : FileSys} {xs ys : List Nat} (h : Releases s xs t)
    (h' : Releases t ys u) : Releases s (xs ++ ys) u := by
  induction h with
  | done => exact h'
  | read k _ ih => exact .read k (ih h')
  | release k _ ih => exact .release k (ih h')

theorem releases_direct (d : Sector) (cnt i : Nat) (s : FileSys) :
    Releases s ((List.range' i cnt).map (directBlock d)) (deallocateDirect d cnt i s) := by
  induction cnt generalizing i s with
  | zero => exact .done s
  | succ cnt ih => exact .release _ (ih (i + 1) _)

theorem releases_loop {log : FileSys → Nat → Nat → List Nat}
    {f : FileSys → Nat → Nat → FileSys} (hf : ∀ s e w, Releases s (log s e w) (f s e w))
    (unit : Nat) (blk : Sector) (cnt i : Nat) (s : FileSys) (num : Nat) :
    Releases s (releasedLoop log f unit blk cnt i s num)
      (deallocateLoop f unit blk cnt i s num) := by
  induction cnt generalizing i s num with
  | zero => exact .done s
  | succ cnt ih => exact (hf _ _ _).trans (ih (i + 1) _ _)

theorem releases_indirect (level : Nat) (s : FileSys) (entry num : Nat) :
    Releases s (releasedIndirect level s entry num) (deallocateIndirect level s entry num) := by
  induction level generalizing s entry num with
  | zero => exact .release entry (.done _)
  | succ level ih =>
      refine .read entry ?_
      exact (releases_loop ih _ _ _ _ _ _).trans (.release entry (.done _))

/-- `released` is the list of what `inode_deallocate` gives to `free_map_release`. -/
theorem inodeDeallocate_releases (s : FileSys) (d : Sector) :
    Releases s (released s d) (inodeDeallocate s d) := by
  have htree : ∀ (s : FileSys) (level entry l : Nat),
      Releases s (if 0 < l then releasedIndirect level s entry l else [])
        (if 0 < l then deallocateIndirect level s entry l else s) := by
    intro s level entry l
    split
    · exact releases_indirect level s entry l
    · exact .done s
  unfold released inodeDeallocate
  split
  · exact .done s
  · dsimp only
    rw [List.range_eq_range']
    exact (releases_direct d _ 0 s).trans ((htree _ 1 _ _).trans (htree _ 2 _ _))

section Released

variable {D : Set Nat} {s : FileSys} {d : Sector}

/-- What is released at one level. -/
def ReleaseSpec (D : Set Nat) (L : Nat) : Prop :=
  ∀ {s : FileSys} {e w : Nat}, FreeMapOk D s → OffData D s L e → 0 < w →
    w ≤ 128 ^ L → (∀ v ∈ treeSectors s L e w, v < s.cache.size ∧ Releasable s v) →
      (releasedIndirect L s e w).Perm ((slots 128 L w).map (treeVal s L e))

theorem releasedLoop_spec {L : Nat} (htree : ReleaseSpec D L) {b : Sector}
    {m : Nat} : ∀ {i w : Nat} {s : FileSys}, m ≤ fanOut 128 L w →
      FreeMapOk D s → (∀ j, OffData D s L (entries 128 b j)) → i + m ≤ 128 →
      (∀ a ∈ loopSlots L m i w,
        famVal s (fun _ => L) (entries 128 b) a < s.cache.size ∧
          Releasable s (famVal s (fun _ => L) (entries 128 b) a)) →
        (releasedLoop (releasedIndirect L) (deallocateIndirect L) (128 ^ L) b m i s w).Perm
          ((loopSlots L m i w).map (famVal s (fun _ => L) (entries 128 b))) := by
  induction m with
  | zero => exact fun _ _ _ _ _ => .refl _
  | succ m ih =>
      intro i w s hcnt hok hD hi hgood
      have hpos : 0 < 128 ^ L := Nat.pow_pos (by decide)
      have hnum : 0 < w := by
        have := (lt_fanOut (N := 128) (L := L) (j := 0) (n := w) (by decide)).1
          (by omega)
        omega
      have hentry : blockEntry b i = entries 128 b i :=
        (if_pos (show i < 128 by omega)).symm
      have hgood₁ : ∀ v ∈ treeSectors s L (entries 128 b i) (min w (128 ^ L)),
          v < s.cache.size ∧ Releasable s v := by
        rintro v ⟨p, hp, rfl⟩
        exact hgood (i, p) (List.mem_append_left _ (List.mem_map_of_mem hp))
      have hfirst := htree (e := entries 128 b i) (w := min w (128 ^ L)) hok (hD i)
        (by omega) (Nat.min_le_right ..) hgood₁
      have hfreed := deallocateIndirect_spec L hok (hD i) (by omega) (Nat.min_le_right ..) hgood₁
      have hfam : ∀ a, famVal (deallocateIndirect L s (entries 128 b i)
          (min w (128 ^ L))) (fun _ => L) (entries 128 b) a =
          famVal s (fun _ => L) (entries 128 b) a :=
        fun a => hfreed.treeVal (hD a.1) a.2
      have hrest := ih (i := i + 1) (w := w - min w (128 ^ L))
        (fanOut_rest hcnt) hfreed.ok (fun j => hfreed.offData (hD j)) (by omega) (by
          intro a ha
          rw [hfam, hfreed.size]
          obtain ⟨hlt, hrel⟩ := hgood a (List.mem_append_right _ ha)
          exact ⟨hlt, hfreed.releasable hok hrel⟩)
      rw [List.map_congr_left fun a _ => hfam a] at hrest
      rw [releasedLoop, hentry, loopSlots, List.map_append, List.map_map]
      exact hfirst.append hrest

theorem releasedIndirect_spec (L : Nat) : ReleaseSpec D L := by
  induction L with
  | zero =>
      intro s e w _ _ _ _ _
      exact .refl _
  | succ L ih =>
      intro s e num hok hD hnum hle hgood
      have hmem : e ∈ treeSectors s (L + 1) e num :=
        ⟨[], by rw [slots]; exact List.mem_cons_self, treeVal_nil _ e⟩
      obtain ⟨hlt, hrel⟩ := hgood e hmem
      have he : e ≠ 0 := hrel.ne_map
      have hread := FileSys.readSector_fst hlt
      have hok' := hok.readSector e
      have hcont := s.readSector_content e
      have hval : ∀ M p, treeVal (s.readSector e).2 L M p = treeVal s L M p := by
        intro M p
        unfold treeVal
        rw [hcont]
      have hfam : ∀ a, famVal (s.readSector e).2 (fun _ => L)
          (entries 128 (s.content e)) a = treeVal s (L + 1) e (a.1 :: a.2) := by
        intro a
        rw [treeVal_cons he]
        exact hval _ _
      have hsub : ∀ j, OffData D (s.readSector e).2 L (entries 128 (s.content e) j) := by
        intro j p hp hne
        have := hfam (j, p)
        unfold famVal at this
        rw [this] at hne ⊢
        exact hD (j :: p) (Nat.succ_lt_succ hp) hne
      have hfan : fanOut 128 L num ≤ 128 := fanOut_le hle
      have hloop := releasedLoop_spec ih (b := s.content e)
        (m := fanOut 128 L num) (i := 0) (w := num) (Nat.le_refl _) hok' hsub
        (by omega) (by
          intro a ha
          rw [hfam, FileSys.readSector_size]
          obtain ⟨hlt, hrel⟩ := hgood _ ⟨a.1 :: a.2, by
            rw [slots_succ]
            exact List.mem_append_right _ (List.mem_map_of_mem
              (f := fun a : Slot => a.1 :: a.2) ha), rfl⟩
          refine ⟨hlt, hrel.ne_map, hrel.ne_root, fun f i hf hget b hb => ?_⟩
          rw [hcont]
          exact hrel.off f i hf hget b hb)
      rw [List.map_congr_left fun a _ => hfam a] at hloop
      rw [releasedIndirect, slots_succ, List.map_append, List.map_map, List.map_singleton,
        treeVal_nil]
      simp only [hread]
      exact (List.perm_append_singleton e _).trans (hloop.cons e)

theorem releasedRoot_spec {i n : Nat} (hi : i < 125) (hok : FreeMapOk D s)
    (hD : OffIndex D s.content d) (hnum : 0 < n) (hle : n ≤ 128 ^ rootLevel i)
    (hgood : Good s d ((slots 128 (rootLevel i) n).map (i, ·))) :
    (releasedIndirect (rootLevel i) s (blockEntry d i) n).Perm
      (((slots 128 (rootLevel i) n).map (i, ·)).map (slotVal s.content d)) := by
  have hval : ∀ p, slotVal s.content d (i, p) =
      treeVal s (rootLevel i) (blockEntry d i) p := by
    intro p
    rw [slotVal_eq, famVal, entries, if_pos hi]
  have htree := releasedIndirect_spec (rootLevel i) hok
    (e := blockEntry d i) (fun p hp hne => by
      rw [← hval] at hne ⊢
      exact hD (i, p) hp hne) hnum hle (by
      rintro v ⟨p, hp, rfl⟩
      rw [← hval]
      exact hgood _ (List.mem_map_of_mem hp))
  rw [List.map_map]
  exact htree.trans (.of_eq (List.map_congr_left fun p _ => (hval p).symm))

/-- `inode_deallocate` releases what stands in the slots that the length calls for,
and nothing else. -/
theorem released_spec (hok : FreeMapOk D s) (hlen : 0 ≤ inodeLength d)
    (hD : OffIndex D s.content d) (hgood : Good s d (inodeSlots (numSectors d))) :
    (released s d).Perm ((inodeSlots (numSectors d)).map (slotVal s.content d)) := by
  unfold released
  rw [if_neg (by omega)]
  unfold inodeSlots at hgood ⊢
  simp only [DIRECT_BLOCKS_COUNT, INDIRECT_BLOCKS_PER_SECTOR, Nat.reduceMul]
  generalize hn : numSectors d = n at hgood ⊢
  rw [← show numSectors d = bytesToSectors (inodeLength d) from rfl, hn]
  have hrange := List.range_eq_range' (n := min n 123)
  have hdirect := deallocateDirect_spec (m := min n 123) (i := 0) hok hD (by omega)
    (by rw [← hrange]; exact fun a ha => hgood a (List.mem_append_left _ ha))
  have hrest := hdirect.good hok hD fun a ha => hgood a (List.mem_append_right _ ha)
  have hval := hdirect.slotVal hD
  generalize deallocateDirect d (min n 123) 0 s = s₁ at hdirect hrest hval ⊢
  have hok₁ := hdirect.ok
  have hD₁ := hdirect.offIndex hD
  have hfirst : (List.range (min n 123)).map (directBlock d) =
      ((List.range (min n 123)).map fun i => ((i, []) : Slot)).map (slotVal s.content d) := by
    rw [List.map_map]
    refine List.map_congr_left fun i hi => ?_
    have := List.mem_range.1 hi
    exact (slotVal_nil (by omega)).symm
  rw [List.map_append, hfirst]
  refine List.Perm.append_left _ ?_
  have hsub : n - min n 123 = n - 123 := by omega
  rw [hsub]
  rcases Nat.lt_or_ge 123 n with hgt | hle
  · rw [if_neg (show ¬ n ≤ 123 by omega)] at hrest ⊢
    rw [if_pos (show 0 < min (n - 123) 128 by omega),
      if_pos (show 0 < min (n - 123) 128 by omega)]
    have hgood₁ := fun a ha => hrest a (List.mem_append_left _ ha)
    have hind := releasedRoot_spec (i := 123) (n := min (n - 123) 128) (by omega)
      hok₁ hD₁ (by omega) (by rw [rootLevel_indirect]; exact Nat.min_le_right ..) hgood₁
    have hfreed := deallocateRoot_spec (i := 123) (n := min (n - 123) 128) (by omega)
      hok₁ hD₁ (by omega) (by rw [rootLevel_indirect]; exact Nat.min_le_right ..) hgood₁
    have hrest' := hfreed.good hok₁ hD₁ fun a ha => hrest a (List.mem_append_right _ ha)
    have hval' := hfreed.slotVal hD₁
    rw [rootLevel_indirect, show blockEntry d 123 = indirectBlock d from rfl]
      at hind hfreed hrest' hval'
    rw [hval] at hind
    rw [List.map_append]
    refine hind.append ?_
    generalize deallocateIndirect 1 s₁ (indirectBlock d) (min (n - 123) 128) = s₂
      at hfreed hrest' hval' ⊢
    have hok₂ := hfreed.ok
    have hD₂ := hfreed.offIndex hD₁
    have hsub : n - 123 - min (n - 123) 128 = n - 251 := by omega
    rw [hsub]
    rcases Nat.lt_or_ge 251 n with hgt' | hle'
    · rw [if_neg (show ¬ n ≤ 251 by omega)] at hrest' ⊢
      rw [if_pos (show 0 < min (n - 251) 16384 by omega)]
      have hdbl := releasedRoot_spec (i := 124) (n := min (n - 251) 16384)
        (by omega) hok₂ hD₂ (by omega)
        (by rw [rootLevel_doubly]; exact Nat.min_le_right ..)
      rw [rootLevel_doubly, show blockEntry d 124 = doublyIndirectBlock d from rfl,
        hval', hval] at hdbl
      exact hdbl hrest'
    · rw [if_pos (show n ≤ 251 by omega), if_neg (by omega)]
      exact .refl _
  · rw [if_pos (show n ≤ 123 by omega), if_pos (show n ≤ 251 by omega),
      if_neg (show ¬ 0 < min (n - 123) 128 by omega),
      if_neg (show ¬ 0 < min (n - 123 - min (n - 123) 128) 16384 by omega)]
    exact .refl _

theorem nodup_inodeSlots (n : Nat) : (inodeSlots n).Nodup := by
  have hroot : ∀ (i : Nat) (ps : List (List Nat)), ps.Nodup →
      (ps.map fun p => ((i, p) : Slot)).Nodup := fun i ps h =>
    h.map fun p q hpq => (Prod.mk.inj hpq).2
  have hdirect : ((List.range (min n 123)).map fun i => ((i, []) : Slot)).Nodup :=
    List.nodup_range.map fun i j hij => (Prod.mk.inj hij).1
  unfold inodeSlots
  refine List.nodup_append.2 ⟨hdirect, List.nodup_append.2 ⟨?_, ?_, ?_⟩, ?_⟩
  · split
    · exact List.nodup_nil
    · exact hroot _ _ (nodup_slots _)
  · split
    · exact List.nodup_nil
    · exact hroot _ _ (nodup_slots _)
  · intro a ha b hb hab
    split at ha
    · cases ha
    · split at hb
      · cases hb
      · obtain ⟨p, -, rfl⟩ := List.mem_map.1 ha
        obtain ⟨q, -, rfl⟩ := List.mem_map.1 hb
        exact absurd (Prod.mk.inj hab).1 (by decide)
  · intro a ha b hb hab
    obtain ⟨i, hi, rfl⟩ := List.mem_map.1 ha
    have hi := List.mem_range.1 hi
    rcases List.mem_append.1 hb with hb | hb
    · split at hb
      · cases hb
      · obtain ⟨q, -, rfl⟩ := List.mem_map.1 hb
        have := (Prod.mk.inj hab).1
        omega
    · split at hb
      · cases hb
      · obtain ⟨q, -, rfl⟩ := List.mem_map.1 hb
        have := (Prod.mk.inj hab).1
        omega

end Released

/-! ## Both together -/

/-- What a call has done that took an inode from `n` sectors, in `s` and `d`, to `m`
sectors. `s₀` is the state before the first call. -/
structure CallDone (s₀ s : FileSys) (d : Sector) (n : Nat) (s' : FileSys) (d' : Sector)
    (m : Nat) : Prop where
  mapped : ∀ i < m, (indexToSector s'.cache d' i).1 ≠ 0 ∧
    s'.used (indexToSector s'.cache d' i).1 ∧ ¬ s₀.used (indexToSector s'.cache d' i).1
  leaf : ∀ i < m, (indexToSector s'.cache d' i).1 = slotVal s'.content d' (leafSlot i)
  indices : ∀ i < m, ∀ j < m,
    (indexToSector s'.cache d' i).1 = (indexToSector s'.cache d' j).1 → i = j
  distinct : ∀ a ∈ inodeSlots m, ∀ b ∈ inodeSlots m,
    slotVal s'.content d' a = slotVal s'.content d' b → a = b
  kept : ∀ i < n, (indexToSector s'.cache d' i).1 = (indexToSector s.cache d i).1
  zeroed : ∀ i, n ≤ i → i < m →
    (s'.readSector (indexToSector s'.cache d' i).1).1 = .zeros

/-- Exactly what was taken since `s₀` is released, each sector once and so none that
is free. -/
structure Undone (s₀ s : FileSys) (d : Sector) : Prop where
  used : ∀ k, (inodeDeallocate s d).used k ↔ s₀.used k
  once : (released s d).Nodup
  taken : ∀ k, k ∈ released s d ↔ s.used k ∧ ¬ s₀.used k

section Both

variable {D : Set Nat} {s₀ s s' : FileSys} {d d' : Sector} {n m : Nat}

theorem Reserved.callDone (h : Reserved D s₀ s d n) (hok : FreeMapOk D s₀) (hle : n ≤ m)
    (hmax : m ≤ MAX_SECTORS)
    (hout : Outcome D s s' IsIndex (inodeSlots m) true (slotVal s.content d)
      (slotVal s'.content d')) : CallDone s₀ s d n s' d' m := by
  have h' := h.call hok hle hout
  have hfst : ∀ i < m, (indexToSector s'.cache d' i).1 = slotVal s'.content d' (leafSlot i) :=
    fun i hi => indexToSector_fst h'.mapped hi (by omega)
  have hmem : ∀ i < m, leafSlot i ∈ inodeSlots m := fun i hi => leafSlot_mem hi (by omega)
  refine ⟨fun i hi => ?_, hfst, fun i hi j hj heq => ?_, fun a ha b hb => ?_, fun i hi => ?_,
    fun i hn hi => ?_⟩
  · rw [hfst i hi]
    obtain ⟨hfree, hused⟩ := h'.fresh (hmem i hi)
    exact ⟨h'.ne _ (hmem i hi), hused, hfree⟩
  · rw [hfst i hi, hfst j hj] at heq
    exact leafSlot_inj (by omega) (by omega) (h'.mapped.inj _ (hmem i hi) _ (hmem j hj) heq)
  · exact h'.mapped.inj a ha b hb
  · rw [hfst i (by omega), indexToSector_fst h.mapped hi (by omega)]
    exact hout.grow.keep _ (h.ne _ (leafSlot_mem hi (by omega)))
  · have hnew : slotVal s.content d (leafSlot i) = 0 := by
      refine h.only _ fun hin => ?_
      have := (mem_inodeSlots.1 hin).2
      rw [(leafSlot_valid (show i < MAX_SECTORS by omega)).2] at this
      omega
    rw [hfst i hi, FileSys.readSector_fst (h'.mapped.lt _ (hmem i hi))]
    exact hout.grow.zeroed _ (not_isIndex_leafSlot i) hnew (h'.ne _ (hmem i hi))

theorem Reserved.undone (h : Reserved D s₀ s d n) (hok : FreeMapOk D s₀) (d' : Sector)
    (hval : ∀ f, slotVal f d' = slotVal f d) (hlen : 0 ≤ inodeLength d')
    (hsectors : numSectors d' = n) : Undone s₀ s d' := by
  have hD : OffIndex D s.content d' := fun a ha hne => by
    rw [hval] at hne ⊢
    exact h.offIndex hok a ha hne
  have hgood : Good s d' (inodeSlots (numSectors d')) := by
    rw [hsectors]
    intro a ha
    rw [hval]
    exact h.good hok a ha
  have hperm := released_spec h.grow.ok hlen hD hgood
  have hfreed := inodeDeallocate_spec h.grow.ok hlen hD hgood
  have hsectors' : slotSectors s.content d' (inodeSlots n) =
      slotSectors s.content d (inodeSlots n) := by
    unfold slotSectors
    rw [hval]
  rw [hsectors, hval] at hperm
  rw [hsectors, hsectors'] at hfreed
  have htaken : ∀ k, (∃ a ∈ inodeSlots n, slotVal s.content d a = k) ↔
      s.used k ∧ ¬ s₀.used k := by
    intro k
    constructor
    · rintro ⟨a, ha, rfl⟩
      exact (h.fresh ha).symm
    · rintro ⟨hused, hfree⟩
      obtain ⟨a, rfl⟩ := (h.taken k hused).resolve_left hfree
      by_cases ha : a ∈ inodeSlots n
      · exact ⟨a, ha, rfl⟩
      · rw [h.only a ha] at hfree
        exact absurd hok.mapSector hfree
  refine ⟨fun k => ?_, ?_, fun k => ?_⟩
  · rw [hfreed.used]
    have hset : k ∈ slotSectors s.content d (inodeSlots n) ↔ s.used k ∧ ¬ s₀.used k := htaken k
    have hmono := h.grow.mono k
    rw [hset]
    tauto
  · refine hperm.nodup_iff.2 ((nodup_inodeSlots n).map_on fun a ha b hb heq => ?_)
    exact h.mapped.inj a ha b hb heq
  · rw [hperm.mem_iff, List.mem_map]
    exact htaken k

/-- One of the calls of a sequence. -/
theorem reserveAll_call (hok : FreeMapOk D s₀) {d₀ : Sector}
    (hd : ∀ r < 125, blockEntry d₀ r = 0) {before after : List Int} {length : Int}
    (hsorted : (before ++ length :: after).Pairwise (· ≤ ·))
    (hall : reserveAll s₀ d₀ (before ++ length :: after) = some (d, s)) :
    0 ≤ length ∧ bytesToSectors length ≤ MAX_SECTORS ∧
      ∃ d₁ s₁ d₂ s₂, reserveAll s₀ d₀ before = some (d₁, s₁) ∧
        inodeReserve allocSector s₁ d₁ length = ((true, d₂), s₂) ∧
        CallDone s₀ s₁ d₁ (sectorsOf before) s₂ d₂ (bytesToSectors length) := by
  rw [reserveAll_append] at hall
  obtain ⟨⟨d₁, s₁⟩, hbefore, hrest⟩ := Option.bind_eq_some_iff.1 hall
  obtain ⟨r, hr⟩ : ∃ r, inodeReserve allocSector s₁ d₁ length = r := ⟨_, rfl⟩
  obtain ⟨⟨ok, d₂⟩, s₂⟩ := r
  rw [reserveAll, hr] at hrest
  cases ok with
  | false => cases hrest
  | true =>
      obtain ⟨hs₁, -, hs₂⟩ := List.pairwise_append.1 hsorted
      have hmid := reserveAll_reserved hok (Reserved.start hok hd) hs₁
        (fun _ _ => Nat.zero_le _) hbefore
      have hn : (if before = [] then 0 else sectorsOf before) = sectorsOf before := by
        split
        · next hnil => rw [hnil]; rfl
        · rfl
      rw [hn] at hmid
      obtain ⟨hlen, hmax, hout⟩ := inodeReserve_done hmid.grow.ok (hmid.roots hok) hr
      refine ⟨hlen, hmax, d₁, s₁, d₂, s₂, hbefore, hr, hmid.callDone hok ?_ hmax hout⟩
      refine bytesToSectors_mono ?_
      cases hlast : before.getLast? with
      | none => exact hlen
      | some l => exact hs₂ l (List.mem_of_getLast? hlast) length List.mem_cons_self

/-- Reserving for longer and longer lengths maps every index to a sector of its own,
leaves what was mapped where it was and clears what is new; releasing at the last
length gives back exactly what was taken. -/
theorem reserve_release_inverse (hok : FreeMapOk D s₀) {d₀ : Sector}
    (hd : ∀ r < 125, blockEntry d₀ r = 0) (lengths : List Int)
    (hsorted : lengths.Pairwise (· ≤ ·)) (hall : reserveAll s₀ d₀ lengths = some (d, s)) :
    (∀ before length after, lengths = before ++ length :: after →
      ∃ d₁ s₁ d₂ s₂, reserveAll s₀ d₀ before = some (d₁, s₁) ∧
        inodeReserve allocSector s₁ d₁ length = ((true, d₂), s₂) ∧
        CallDone s₀ s₁ d₁ (sectorsOf before) s₂ d₂ (bytesToSectors length)) ∧
      ∀ length, lengths.getLast? = some length → Undone s₀ s (setLength d length) := by
  constructor
  · rintro before length after rfl
    exact (reserveAll_call hok hd hsorted hall).2.2
  · intro length hlast
    obtain ⟨before, rfl⟩ := List.getLast?_eq_some_iff.1 hlast
    obtain ⟨hlen, hmax, -⟩ := reserveAll_call hok hd hsorted hall
    have hend := reserveAll_reserved hok (Reserved.start hok hd) hsorted
      (fun _ _ => Nat.zero_le _) hall
    have hn : (if before ++ [length] = [] then 0 else sectorsOf (before ++ [length])) =
        bytesToSectors length := by
      rw [if_neg (by simp), sectorsOf, List.getLast?_append]
      rfl
    have hset : inodeLength (setLength d length) = length := by
      simp only [bytesToSectors, BLOCK_SECTOR_SIZE, MAX_SECTORS] at hmax
      exact inodeLength_setLength hlen (by omega)
    rw [hn] at hend
    refine hend.undone hok _ (fun f => slotVal_setLength f d length) ?_ ?_
    · rw [hset]
      exact hlen
    · rw [numSectors, hset]

/-- There is room for a call. -/
theorem inodeReserve_room (hok : FreeMapOk D s) (hV : Roots D s IsIndex (slotVal s.content d))
    {length : Int} (hlen : 0 ≤ length) (hmax : bytesToSectors length ≤ MAX_SECTORS)
    (hroom : (inodeSlots (bytesToSectors length)).length ≤ s.freeSectors) :
    ∃ d' s', inodeReserve allocSector s d length = ((true, d'), s') ∧
      s.freeSectors ≤ s'.freeSectors + (inodeSlots (bytesToSectors length)).length := by
  obtain ⟨-, ok, hret, hout⟩ := inodeReserve_spec hlen hok hV
  have hmissing : (missing (slotVal s.content d) (inodeSlots (bytesToSectors length))).length ≤
      (inodeSlots (bytesToSectors length)).length := List.length_filter_le ..
  obtain ⟨htrue, hfill⟩ := hout.enough (by omega)
  have hfree := hfill.free
  obtain ⟨r, hr⟩ : ∃ r, inodeReserve allocSector s d length = r := ⟨_, rfl⟩
  obtain ⟨⟨b, d'⟩, s'⟩ := r
  rw [hr] at hret hfree
  have hb : b = true := by simpa [htrue, hmax] using hret
  subst hb
  change s'.freeSectors + _ = _ at hfree
  exact ⟨d', s', hr, by omega⟩

end Both

/-- An inode that grows from one sector to two, on a freshly formatted disk. -/
theorem reserve_release_inverse_two :
    ∃ s₀ s d, filesysInit true (blankDisk 200) (fun _ => 0) = (true, s₀) ∧
      reserveAll s₀ .zeros [512, 1024] = some (d, s) ∧
      (∃ d₁ s₁ d₂ s₂, reserveAll s₀ .zeros [512] = some (d₁, s₁) ∧
        inodeReserve allocSector s₁ d₁ 1024 = ((true, d₂), s₂) ∧
        CallDone s₀ s₁ d₁ 1 s₂ d₂ 2) ∧
      Undone s₀ s (setLength d 1024) := by
  obtain ⟨s₀, hinit, hreach, hfree, -⟩ := blankDisk_create 1 (by decide) (by decide)
  obtain ⟨D, K, dat, hsession⟩ := hreach.session
  have hok := hsession.mounted.vol.map
  have hnull : ∀ r < 125, blockEntry .zeros r = 0 := fun r _ => ByteBlock.u32_zeros _
  have hstart := Reserved.start hok hnull
  obtain ⟨d₁, s₁, h₁, hroom⟩ := inodeReserve_room hok (hstart.roots hok)
    (show (0 : Int) ≤ 512 by decide) (by decide)
    (by rw [hfree]; exact (by decide : (inodeSlots (bytesToSectors 512)).length ≤ 125))
  obtain ⟨-, -, hout⟩ := inodeReserve_done hok (hstart.roots hok) h₁
  have hone := hstart.call hok (Nat.zero_le _) hout
  rw [hfree, show (inodeSlots (bytesToSectors 512)).length = 1 by decide] at hroom
  obtain ⟨d₂, s₂, h₂, -⟩ := inodeReserve_room hone.grow.ok (hone.roots hok)
    (show (0 : Int) ≤ 1024 by decide) (by decide)
    (by rw [show (inodeSlots (bytesToSectors 1024)).length = 2 by decide]; omega)
  have hall : reserveAll s₀ .zeros [512, 1024] = some (d₂, s₂) := by
    rw [reserveAll, h₁, if_pos rfl, reserveAll, h₂, if_pos rfl, reserveAll]
  obtain ⟨hcalls, hback⟩ := reserve_release_inverse hok hnull [512, 1024] (by decide) hall
  exact ⟨s₀, s₂, d₂, hinit, hall, hcalls [512] 1024 [] rfl, hback 1024 rfl⟩

end SimpleShell.Fs
