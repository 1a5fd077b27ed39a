import SimpleShell.Fs.Inode
import SimpleShell.Lib.IndexTree

/-!
# The sectors of an inode

An inode is 125 index trees side by side: 123 direct pointers, which are trees
of no levels, the indirect block and the doubly indirect block. A `Slot` names
one pointer in them, `slotVal` is the sector it holds, and `leafSlot i` is the
slot of data sector `i`. `inodeSlots n` lists the slots a file of `n` sectors
needs, in the order in which `inode_reserve` visits them.

`Mapped` says that those slots are filled with distinct sectors of the device.
Under it `index_to_sector` finds `leafAt`, whatever the cache has to bring in
on the way.
-/

namespace SimpleShell.Fs

open SimpleShell.Lib

/-- The data sectors three levels can hold. -/
abbrev MAX_SECTORS : Nat := 16635

abbrev MAX_LENGTH : Int := 8517120

/-- Pointer `j` of the index block in sector `k`. -/
def ptr (f : Nat → Sector) (k j : Nat) : Nat := blockEntry (f k) j

/-- How far above the data the block of root pointer `r` is. -/
def rootLevel (r : Nat) : Nat := r - 122

/-- The first data sector below root pointer `r`. -/
def rootFirst (r : Nat) : Nat := if r < 124 then r else 251

/-- A pointer of an inode: the root pointer it hangs below and the path. -/
abbrev Slot := Nat × List Nat

/-- What stands in the slot; a slot that an inode does not have reads as null. -/
def slotVal (f : Nat → Sector) (d : Sector) (a : Slot) : Nat :=
  if a.1 < 125 then nodeAt (ptr f) 128 (rootLevel a.1) (blockEntry d a.1) a.2
  else 0

/-- The slot points to an index block. -/
def IsIndex (a : Slot) : Prop := a.2.length < rootLevel a.1

instance (a : Slot) : Decidable (IsIndex a) := by
  unfold IsIndex; infer_instance

/-- The first data sector at or below the slot. -/
def slotFirst (a : Slot) : Nat :=
  rootFirst a.1 + firstLeaf 128 (rootLevel a.1) a.2

def leafSlot (i : Nat) : Slot :=
  if i < 123 then (i, [])
  else if i < 251 then (123, pathTo 128 1 (i - 123))
  else (124, pathTo 128 2 (i - 251))

/-- The data sector that holds bytes `512 * i` to `512 * i + 511`. -/
def leafAt (f : Nat → Sector) (d : Sector) (i : Nat) : Nat :=
  slotVal f d (leafSlot i)

theorem rootLevel_indirect : rootLevel 123 = 1 := by simp [rootLevel]

theorem rootLevel_doubly : rootLevel 124 = 2 := by simp [rootLevel]

theorem slotFirst_indirect (p : List Nat) :
    slotFirst (123, p) = 123 + firstLeaf 128 1 p := by
  simp [slotFirst, rootFirst, rootLevel_indirect]

theorem slotFirst_doubly (p : List Nat) :
    slotFirst (124, p) = 251 + firstLeaf 128 2 p := by
  simp [slotFirst, rootFirst, rootLevel_doubly]

/-- The slots of a file of `n` sectors. -/
def inodeSlots (n : Nat) : List Slot :=
  (List.range (min n 123)).map (·, []) ++
    ((if n ≤ 123 then []
      else (slots 128 1 (min (n - 123) 128)).map (123, ·)) ++
    (if n ≤ 251 then []
      else (slots 128 2 (min (n - 251) 16384)).map (124, ·)))

/-! ## Which slots a file needs -/

structure ValidSlot (a : Slot) : Prop where
  root : a.1 < 125
  length : a.2.length ≤ rootLevel a.1
  lt : ∀ j ∈ a.2, j < 128

theorem mem_inodeSlots {a : Slot} {n : Nat} :
    a ∈ inodeSlots n ↔ ValidSlot a ∧ slotFirst a < n := by
  obtain ⟨r, p⟩ := a
  unfold inodeSlots
  rw [List.mem_append, List.mem_append]
  constructor
  · intro h
    rcases h with h | h | h
    · obtain ⟨i, hi, heq⟩ := List.mem_map.1 h
      have hi := List.mem_range.1 hi
      injection heq with h₁ h₂
      subst h₁ h₂
      refine ⟨⟨by change i < 125; omega, Nat.zero_le _, by simp⟩, ?_⟩
      change rootFirst i + firstLeaf 128 _ [] < n
      rw [firstLeaf_nil, rootFirst, if_pos (by omega)]
      omega
    · split at h
      · exact absurd h (by simp)
      · obtain ⟨q, hq, heq⟩ := List.mem_map.1 h
        injection heq with h₁ h₂
        subst h₁ h₂
        obtain ⟨h₁, h₂, h₃⟩ := (mem_slots (N := 128) (L := 1) (by decide)
          (by omega) (Nat.min_le_right ..)).1 hq
        refine ⟨⟨show 123 < 125 by omega,
          h₁.trans_eq rootLevel_indirect.symm, h₂⟩, ?_⟩
        rw [slotFirst_indirect]
        omega
    · split at h
      · exact absurd h (by simp)
      · obtain ⟨q, hq, heq⟩ := List.mem_map.1 h
        injection heq with h₁ h₂
        subst h₁ h₂
        obtain ⟨h₁, h₂, h₃⟩ := (mem_slots (N := 128) (L := 2) (by decide)
          (by omega) (Nat.min_le_right ..)).1 hq
        refine ⟨⟨show 124 < 125 by omega,
          h₁.trans_eq rootLevel_doubly.symm, h₂⟩, ?_⟩
        rw [slotFirst_doubly]
        omega
  · intro h
    obtain ⟨hv, hfirst⟩ := h
    have hroot : r < 125 := hv.root
    have hlen : p.length ≤ rootLevel r := hv.length
    have hlt : firstLeaf 128 (rootLevel r) p < 128 ^ rootLevel r :=
      firstLeaf_lt (by decide) hlen hv.lt
    change rootFirst r + firstLeaf 128 (rootLevel r) p < n at hfirst
    rcases Nat.lt_or_ge r 123 with hr | hr
    · have hp : p = [] := List.length_eq_zero_iff.1 (by
        unfold rootLevel at hlen; omega)
      subst hp
      rw [rootFirst, if_pos (by omega)] at hfirst
      exact .inl (List.mem_map.2 ⟨r, List.mem_range.2 (by omega), rfl⟩)
    · rcases Nat.lt_or_ge r 124 with hr' | hr'
      · have hr : r = 123 := by omega
        subst hr
        rw [rootLevel_indirect] at hlen hlt hfirst
        change 123 + firstLeaf 128 1 p < n at hfirst
        rw [if_neg (by omega)]
        exact .inr (.inl (List.mem_map.2 ⟨p, (mem_slots (N := 128) (L := 1)
          (by decide) (by omega) (Nat.min_le_right ..)).2
            ⟨hlen, hv.lt, Nat.lt_min.2 ⟨by omega, hlt⟩⟩, rfl⟩))
      · have hr : r = 124 := by omega
        subst hr
        rw [rootLevel_doubly] at hlen hlt hfirst
        change 251 + firstLeaf 128 2 p < n at hfirst
        rw [if_neg (by omega), if_neg (by omega)]
        exact .inr (.inr (List.mem_map.2 ⟨p, (mem_slots (N := 128) (L := 2)
          (by decide) (by omega) (Nat.min_le_right ..)).2
            ⟨hlen, hv.lt, Nat.lt_min.2 ⟨by omega, hlt⟩⟩, rfl⟩))

theorem inodeSlots_mono {m n : Nat} (h : m ≤ n) {a : Slot}
    (ha : a ∈ inodeSlots m) : a ∈ inodeSlots n := by
  obtain ⟨hv, hfirst⟩ := mem_inodeSlots.1 ha
  exact mem_inodeSlots.2 ⟨hv, by omega⟩

theorem slotVal_nil {f : Nat → Sector} {d : Sector} {r : Nat} (hr : r < 125) :
    slotVal f d (r, []) = blockEntry d r := by
  rw [slotVal, if_pos hr, nodeAt_nil]

/-- An index block holds the slots one step below its own. -/
theorem slotVal_snoc {f : Nat → Sector} {d : Sector} {r j : Nat} {p : List Nat}
    (hr : r < 125) (hp : IsIndex (r, p)) (hne : slotVal f d (r, p) ≠ 0)
    (hj : j < 128) :
    slotVal f d (r, p ++ [j]) = blockEntry (f (slotVal f d (r, p))) j := by
  rw [slotVal, if_pos hr] at hne
  rw [slotVal, if_pos hr, slotVal, if_pos hr]
  exact nodeAt_snoc hp hne hj

/-! ## Data sectors -/

theorem leafSlot_valid {i : Nat} (hi : i < MAX_SECTORS) :
    ValidSlot (leafSlot i) ∧ slotFirst (leafSlot i) = i := by
  unfold leafSlot
  split
  · next h =>
      refine ⟨⟨by change i < 125; omega, Nat.zero_le _, by simp⟩, ?_⟩
      change rootFirst i + firstLeaf 128 _ [] = i
      rw [firstLeaf_nil, rootFirst, if_pos (by omega), Nat.add_zero]
  · split
    · next h h' =>
        have hlt : i - 123 < 128 ^ 1 := by omega
        refine ⟨⟨show 123 < 125 by omega,
          Nat.le_of_eq ((length_pathTo _).trans rootLevel_indirect.symm),
          pathTo_lt (by decide) hlt⟩, ?_⟩
        rw [slotFirst_indirect, firstLeaf_pathTo hlt]
        omega
    · next h h' =>
        have hlt : i - 251 < 128 ^ 2 := by simp only [MAX_SECTORS] at hi; omega
        refine ⟨⟨show 124 < 125 by omega,
          Nat.le_of_eq ((length_pathTo _).trans rootLevel_doubly.symm),
          pathTo_lt (by decide) hlt⟩, ?_⟩
        rw [slotFirst_doubly, firstLeaf_pathTo hlt]
        omega

theorem leafSlot_mem {i n : Nat} (hi : i < n) (hmax : i < MAX_SECTORS) :
    leafSlot i ∈ inodeSlots n := by
  obtain ⟨hv, hfirst⟩ := leafSlot_valid hmax
  exact mem_inodeSlots.2 ⟨hv, by omega⟩

theorem leafSlot_inj {i j : Nat} (hi : i < MAX_SECTORS) (hj : j < MAX_SECTORS)
    (h : leafSlot i = leafSlot j) : i = j := by
  rw [← (leafSlot_valid hi).2, h, (leafSlot_valid hj).2]

theorem not_isIndex_leafSlot (i : Nat) : ¬ IsIndex (leafSlot i) := by
  unfold leafSlot
  split
  · next h => simp [IsIndex, rootLevel]; omega
  · split
    · simp [IsIndex, rootLevel, length_pathTo]
    · simp [IsIndex, rootLevel, length_pathTo]

/-! ## Mapped files -/

/-- The slots of the first `n` sectors hold distinct sectors of a device of
`size` sectors. -/
structure Mapped (f : Nat → Sector) (size : Nat) (d : Sector) (n : Nat) :
    Prop where
  ne : ∀ a ∈ inodeSlots n, slotVal f d a ≠ 0
  lt : ∀ a ∈ inodeSlots n, slotVal f d a < size
  inj : ∀ a ∈ inodeSlots n, ∀ b ∈ inodeSlots n,
    slotVal f d a = slotVal f d b → a = b

section Mapped

variable {f f' : Nat → Sector} {d d' : Sector} {size n : Nat}

theorem Mapped.mono {m : Nat} (h : Mapped f size d n) (hm : m ≤ n) :
    Mapped f size d m where
  ne a ha := h.ne a (inodeSlots_mono hm ha)
  lt a ha := h.lt a (inodeSlots_mono hm ha)
  inj a ha b hb := h.inj a (inodeSlots_mono hm ha) b (inodeSlots_mono hm hb)

theorem Mapped.congr (h : Mapped f size d n)
    (hval : ∀ a ∈ inodeSlots n, slotVal f' d' a = slotVal f d a) :
    Mapped f' size d' n where
  ne a ha := by rw [hval a ha]; exact h.ne a ha
  lt a ha := by rw [hval a ha]; exact h.lt a ha
  inj a ha b hb := by rw [hval a ha, hval b hb]; exact h.inj a ha b hb

/-- An index block of a mapped file holds no data of it. -/
theorem Mapped.index_ne_leaf (h : Mapped f size d n) {a : Slot}
    (ha : a ∈ inodeSlots n) (hidx : IsIndex a) {i : Nat} (hi : i < n)
    (hmax : i < MAX_SECTORS) : slotVal f d a ≠ leafAt f d i := by
  intro heq
  have := h.inj a ha _ (leafSlot_mem hi hmax) heq
  rw [this] at hidx
  exact not_isIndex_leafSlot i hidx

theorem Mapped.leaf_inj (h : Mapped f size d n) {i j : Nat} (hi : i < n)
    (hj : j < n) (hi' : i < MAX_SECTORS) (hj' : j < MAX_SECTORS)
    (heq : leafAt f d i = leafAt f d j) : i = j :=
  leafSlot_inj hi' hj'
    (h.inj _ (leafSlot_mem hi hi') _ (leafSlot_mem hj hj') heq)

end Mapped

/-- The slots above a slot, as far as they matter: the index blocks on the path
to what is mapped are mapped. -/
theorem prefix_mem_inodeSlots {r n : Nat} {p q : List Nat}
    (h : (r, p ++ q) ∈ inodeSlots n) : (r, p) ∈ inodeSlots n := by
  obtain ⟨hv, hfirst⟩ := mem_inodeSlots.1 h
  refine mem_inodeSlots.2 ⟨⟨hv.root, ?_, fun j hj =>
    hv.lt j (List.mem_append_left _ hj)⟩, Nat.lt_of_le_of_lt ?_ hfirst⟩
  · have hlen : (p ++ q).length ≤ rootLevel r := hv.length
    rw [List.length_append] at hlen
    exact Nat.le_trans (Nat.le_add_right ..) hlen
  · have hmono : ∀ (L : Nat) (p q : List Nat),
        firstLeaf 128 L p ≤ firstLeaf 128 L (p ++ q) := by
      intro L
      induction L with
      | zero => intro p q; cases p <;> exact Nat.zero_le _
      | succ L ih =>
          intro p q
          cases p with
          | nil => rw [firstLeaf_nil]; exact Nat.zero_le _
          | cons j p =>
              rw [List.cons_append, firstLeaf, firstLeaf]
              have := ih p q
              omega
    exact Nat.add_le_add_left (hmono ..) _

/-- A slot reads the same wherever the index blocks above it do. -/
theorem slotVal_congr {f f' : Nat → Sector} {d : Sector} {a : Slot}
    (h : ∀ q j r, a.2 = q ++ j :: r → IsIndex (a.1, q) →
      slotVal f d (a.1, q) ≠ 0 →
        f' (slotVal f d (a.1, q)) = f (slotVal f d (a.1, q))) :
    slotVal f' d a = slotVal f d a := by
  unfold slotVal
  split
  · next hr =>
      refine nodeAt_congr_path fun q j r hp hq _ hne => ?_
      have := h q j r hp hq
      rw [slotVal, if_pos hr] at this
      exact congrArg (blockEntry · j) (this hne)
  · rfl

/-- Every pointer that `b` holds stands in `b'` as well. -/
def Keeps (b b' : Sector) : Prop :=
  ∀ j, j < 128 → blockEntry b j ≠ 0 → blockEntry b' j = blockEntry b j

theorem Keeps.refl (b : Sector) : Keeps b b := fun _ _ _ => rfl

theorem Keeps.trans {a b c : Sector} (h₁ : Keeps a b) (h₂ : Keeps b c) :
    Keeps a c := by
  intro j hj hne
  rw [h₂ j hj (by rw [h₁ j hj hne]; exact hne), h₁ j hj hne]

/-- A filled slot stays as it is while the index blocks above it keep their
pointers. -/
theorem slotVal_of_keeps {f f' : Nat → Sector} {d : Sector} {a : Slot}
    (h : ∀ q j r, a.2 = q ++ j :: r → IsIndex (a.1, q) →
      slotVal f d (a.1, q) ≠ 0 →
        Keeps (f (slotVal f d (a.1, q))) (f' (slotVal f d (a.1, q))))
    (ha : slotVal f d a ≠ 0) : slotVal f' d a = slotVal f d a := by
  unfold slotVal at ha ⊢
  split
  · next hr =>
      rw [if_pos hr] at ha
      refine nodeAt_of_keep (fun q j r hp hq hj hne => ?_) ha
      have := h q j r hp hq
      rw [slotVal, if_pos hr] at this
      refine this (nodeAt_prefix_ne (q := j :: r) ?_) j hj hne
      rw [← hp]
      exact ha
  · rfl

/-- Data written to a mapped file leaves its index blocks alone. -/
theorem Mapped.slotVal_congr {f f' : Nat → Sector} {d : Sector} {size n : Nat}
    (hmap : Mapped f size d n) (hmax : n ≤ MAX_SECTORS)
    (h : ∀ k, (∀ i, i < n → k ≠ leafAt f d i) → f' k = f k) {a : Slot}
    (ha : a ∈ inodeSlots n) : slotVal f' d a = slotVal f d a := by
  refine SimpleShell.Fs.slotVal_congr fun q j r hp hq _ => h _ fun i hi => ?_
  have hmem : (a.1, q ++ j :: r) ∈ inodeSlots n := by rw [← hp]; exact ha
  exact hmap.index_ne_leaf (prefix_mem_inodeSlots hmem) hq hi (by omega)

end SimpleShell.Fs
