import Mathlib.Data.List.ReduceOption
import Mathlib.Data.List.Nodup

/-!
# Tables of slots

A table that keeps its items in slots and reuses the slots it frees. As a
collection it is `List.reduceOption` of the slots; filling a slot adds an item
and clearing one removes it, in whatever order the slots happen to be. A record
table keyed by its items' first components is a map as long as no key occurs
twice.
-/

namespace SimpleShell.Lib

namespace SlotTable

variable {α β : Type} {t : List (Option α)} {i : Nat} {x y : α}

theorem split_of_getElem? {o : Option α} (h : t[i]? = some o) :
    t = t.take i ++ o :: t.drop (i + 1) ∧ i < t.length := by
  obtain ⟨hlt, heq⟩ := List.getElem?_eq_some_iff.1 h
  refine ⟨?_, hlt⟩
  rw [← heq, ← List.drop_eq_getElem_cons hlt, List.take_append_drop]

/-- Filling a free slot. -/
theorem reduceOption_fill (h : t[i]? = some none) :
    (t.set i (some x)).reduceOption.Perm (x :: t.reduceOption) := by
  obtain ⟨hsplit, hlt⟩ := split_of_getElem? h
  have hset : t.set i (some x) = t.take i ++ some x :: t.drop (i + 1) :=
    List.set_eq_take_append_cons_drop.trans (if_pos hlt)
  have hold : t.reduceOption = (t.take i).reduceOption ++ (t.drop (i + 1)).reduceOption := by
    conv_lhs => rw [hsplit, List.reduceOption_append, List.reduceOption_cons_of_none]
  rw [hset, List.reduceOption_append, List.reduceOption_cons_of_some, hold]
  exact List.perm_middle

/-- Clearing a slot. -/
theorem reduceOption_clear (h : t[i]? = some (some x)) :
    t.reduceOption.Perm (x :: (t.set i none).reduceOption) := by
  obtain ⟨hsplit, hlt⟩ := split_of_getElem? h
  have hset : t.set i none = t.take i ++ none :: t.drop (i + 1) :=
    List.set_eq_take_append_cons_drop.trans (if_pos hlt)
  have hold : t.reduceOption =
      (t.take i).reduceOption ++ x :: (t.drop (i + 1)).reduceOption := by
    conv_lhs => rw [hsplit, List.reduceOption_append, List.reduceOption_cons_of_some]
  rw [hset, List.reduceOption_append, List.reduceOption_cons_of_none, hold]
  exact List.perm_middle

/-! ## Keyed tables -/

variable {l l' : List (α × β)} {a : α} {b b' : β}

/-- No key occurs twice. -/
def Keyed (l : List (α × β)) : Prop := (l.map Prod.fst).Nodup

theorem Keyed.perm (h : Keyed l) (hp : l'.Perm l) : Keyed l' :=
  (hp.map Prod.fst).nodup_iff.2 h

theorem Keyed.sublist (h : Keyed l) (hs : (l'.map Prod.fst).Sublist (l.map Prod.fst)) :
    Keyed l' := List.Nodup.sublist hs h

theorem keyed_cons : Keyed ((a, b) :: l) ↔ (∀ b', (a, b') ∉ l) ∧ Keyed l := by
  unfold Keyed
  rw [List.map_cons, List.nodup_cons]
  simp

/-- A key has one value. -/
theorem Keyed.unique (h : Keyed l) (hb : (a, b) ∈ l) (hb' : (a, b') ∈ l) : b = b' :=
  congrArg Prod.snd (List.inj_on_of_nodup_map h hb hb' rfl)

/-- Striking out a key. -/
theorem mem_eraseP [BEq α] [LawfulBEq α] {a' : α} (h : Keyed l) :
    (a', b) ∈ l.eraseP (fun e => e.1 == a) ↔ a' ≠ a ∧ (a', b) ∈ l := by
  induction l with
  | nil => simp
  | cons e l ih =>
      obtain ⟨hnew, hkey⟩ := keyed_cons.1 h
      by_cases heq : e.1 = a
      · rw [List.eraseP_cons_of_pos (by simpa using heq)]
        constructor
        · intro hmem
          refine ⟨fun hba => hnew b ?_, List.mem_cons_of_mem _ hmem⟩
          rw [heq, ← hba]
          exact hmem
        · rintro ⟨hne, hmem⟩
          rcases List.mem_cons.1 hmem with rfl | hmem
          · exact absurd heq hne
          · exact hmem
      · rw [List.eraseP_cons_of_neg (by simpa using heq), List.mem_cons, List.mem_cons,
          ih hkey]
        constructor
        · rintro (rfl | ⟨hne, hmem⟩)
          · exact ⟨heq, .inl rfl⟩
          · exact ⟨hne, .inr hmem⟩
        · rintro ⟨hne, rfl | hmem⟩
          · exact .inl rfl
          · exact .inr ⟨hne, hmem⟩

end SlotTable

end SimpleShell.Lib
