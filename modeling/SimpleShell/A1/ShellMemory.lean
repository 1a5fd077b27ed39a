import Mathlib.Data.List.Basic
import Mathlib.Data.List.Induction
import Mathlib.Data.List.Nodup

/-!
# The shell memory of A1

Variables go into the first free slot of 1000, and a slot is free while its name is the text
`none`. So a name keeps its slot from its first `set` on, the names behind the first 1000 never
get one, and `set none` only changes the value of the first free slot.
-/

namespace SimpleShell.A1

abbrev CString := List Char

structure MemoryStruct where
  var : CString
  value : CString
deriving DecidableEq

/-- The 1000 slots of `shellmemory`. -/
abbrev ShellMemory := List MemoryStruct

/-- The text of a free slot. -/
def noneText : CString := "none".toList

def memInit : ShellMemory := List.replicate 1000 ⟨noneText, noneText⟩

def memSetValue (mem : ShellMemory) (varIn valueIn : CString) : ShellMemory :=
  match mem.findIdx? fun slot => slot.var = varIn with
  | some i => mem.modify i fun slot => { slot with value := valueIn }
  | none =>
      match mem.findIdx? fun slot => slot.var = noneText with
      | some i => mem.set i ⟨varIn, valueIn⟩
      | none => mem

/-- What is stored under a name. -/
def stored (mem : ShellMemory) (varIn : CString) : Option CString :=
  (mem.find? fun slot => slot.var = varIn).map MemoryStruct.value

/-- The text for a name that is not found. -/
def missingText : CString := "Variable does not exist".toList

/-- `mem_get_value`, where `none` would be the null pointer. -/
def memGetValue (mem : ShellMemory) (varIn : CString) : Option CString :=
  match stored mem varIn with
  | some value => some value
  | none => some missingText

/-- The memory after these calls of `mem_set_value`, in order. -/
def memAfter (sets : List (CString × CString)) : ShellMemory :=
  sets.foldl (fun mem s => memSetValue mem s.1 s.2) memInit

/-! ## What a history leaves

A history is the calls of `mem_set_value`, the last one first. -/

abbrev History := List (CString × CString)

/-- The value that a name was last set to. -/
def lastSet (h : History) (name : CString) : Option CString :=
  (h.find? fun s => s.1 = name).map Prod.snd

/-- The names that have a slot, in the order of their slots. -/
def taken : History → List CString
  | [] => []
  | (name, _) :: h =>
      if name = noneText ∨ (taken h).contains name ∨ 1000 ≤ (taken h).length then taken h
      else taken h ++ [name]

/-- The value in the first free slot: what `none` was set to since the slot before was taken. -/
def freeText : History → CString
  | [] => noneText
  | (name, value) :: h =>
      if name = noneText then value
      else if (taken h).contains name then freeText h else noneText

/-- What `mem_get_value` answers after a history. -/
def heldValue (h : History) (name : CString) : CString :=
  if (taken h).contains name then (lastSet h name).getD []
  else if name = noneText ∧ (taken h).length < 1000 then freeText h
  else missingText

section History

variable {h : History} {name value varIn : CString}

theorem lastSet_cons (h : History) (name value varIn : CString) :
    lastSet ((name, value) :: h) varIn = if varIn = name then some value else lastSet h varIn := by
  unfold lastSet
  rw [List.find?_cons]
  by_cases heq : varIn = name
  · simp [heq]
  · simp [heq, Ne.symm heq]

/-- A call does not touch the values of other names. -/
theorem map_lastSet_cons {names : List CString} (hno : name ∉ names) :
    names.map (fun name' => MemoryStruct.mk name' ((lastSet ((name, value) :: h) name').getD [])) =
      names.map fun name' => MemoryStruct.mk name' ((lastSet h name').getD []) := by
  refine List.map_congr_left fun name' hmem => ?_
  have hne : name' ≠ name := fun heq => hno (heq ▸ hmem)
  rw [lastSet_cons, if_neg hne]

theorem lastSet_isSome : (lastSet h name).isSome ↔ name ∈ h.map Prod.fst := by
  unfold lastSet
  rw [Option.isSome_map, List.find?_isSome, List.mem_map]
  simp

theorem length_taken_le (h : History) : (taken h).length ≤ 1000 := by
  induction h with
  | nil => exact Nat.zero_le _
  | cons s h ih =>
      rw [taken]
      split
      · exact ih
      · next hno =>
          rw [List.length_append, List.length_singleton]
          omega

theorem nodup_taken (h : History) : (taken h).Nodup := by
  induction h with
  | nil => exact List.nodup_nil
  | cons s h ih =>
      rw [taken]
      split
      · exact ih
      · next hno =>
          rw [not_or, not_or] at hno
          exact List.nodup_append.2 ⟨ih, List.nodup_singleton _, fun x hx y hy heq =>
            hno.2.1 (List.contains_iff_mem.2 (List.mem_singleton.1 hy ▸ heq ▸ hx))⟩

theorem noneText_notMem_taken (h : History) : noneText ∉ taken h := by
  induction h with
  | nil => exact List.not_mem_nil
  | cons s h ih =>
      rw [taken]
      split
      · exact ih
      · next hno =>
          rw [not_or] at hno
          rw [List.mem_append, List.mem_singleton]
          rintro (hmem | heq)
          · exact ih hmem
          · exact hno.1 heq.symm

theorem mem_of_mem_taken (hname : name ∈ taken h) : name ∈ h.map Prod.fst := by
  induction h with
  | nil => exact absurd hname List.not_mem_nil
  | cons s h ih =>
      rw [List.map_cons, List.mem_cons]
      rw [taken] at hname
      split at hname
      · exact .inr (ih hname)
      · rcases List.mem_append.1 hname with hname | hname
        · exact .inr (ih hname)
        · exact .inl (List.mem_singleton.1 hname)

/-! ## The slots -/

/-- The slots without a name. -/
def freeSlots (h : History) : Nat → List MemoryStruct
  | 0 => []
  | n + 1 => ⟨noneText, freeText h⟩ :: List.replicate n ⟨noneText, noneText⟩

/-- The memory, slot by slot. -/
def slotsOf (h : History) : ShellMemory :=
  (taken h).map (fun name => ⟨name, (lastSet h name).getD []⟩) ++
    freeSlots h (1000 - (taken h).length)

theorem var_of_mem_freeSlots {n : Nat} {slot : MemoryStruct} (hmem : slot ∈ freeSlots h n) :
    slot.var = noneText := by
  cases n with
  | zero => exact absurd hmem List.not_mem_nil
  | succ n =>
      rcases List.mem_cons.1 hmem with rfl | hmem
      · rfl
      · rw [List.eq_of_mem_replicate hmem]

theorem findIdx?_freeSlots_of_ne (n : Nat) (hne : varIn ≠ noneText) :
    (freeSlots h n).findIdx? (fun slot => slot.var = varIn) = none := by
  rw [List.findIdx?_eq_none_iff]
  intro slot hslot
  rw [var_of_mem_freeSlots hslot]
  exact decide_eq_false (Ne.symm hne)

theorem findIdx?_names_none {names : List CString} (f : CString → CString)
    (hno : varIn ∉ names) :
    (names.map fun name => MemoryStruct.mk name (f name)).findIdx?
      (fun slot => slot.var = varIn) = none := by
  rw [List.findIdx?_eq_none_iff]
  intro slot hslot
  obtain ⟨name, hname, rfl⟩ := List.mem_map.1 hslot
  exact decide_eq_false fun heq => hno (heq ▸ hname)

theorem find?_names_none {names : List CString} (f : CString → CString) (hno : varIn ∉ names) :
    (names.map fun name => MemoryStruct.mk name (f name)).find?
      (fun slot => slot.var = varIn) = none := by
  rw [List.find?_eq_none]
  intro slot hslot
  obtain ⟨name, hname, rfl⟩ := List.mem_map.1 hslot
  simpa using fun heq : name = varIn => hno (heq ▸ hname)

theorem modify_length_append {α : Type} (front : List α) (x : α) (back : List α) (f : α → α) :
    (front ++ x :: back).modify front.length f = front ++ f x :: back := by
  induction front with
  | nil => rfl
  | cons y front ih =>
      rw [List.cons_append, List.length_cons, List.modify_succ_cons, ih]
      rfl

theorem set_length_append {α : Type} (front : List α) (x y : α) (back : List α) :
    (front ++ x :: back).set front.length y = front ++ y :: back := by
  rw [List.set_append_right _ _ (Nat.le_refl _), Nat.sub_self]
  rfl

/-- A name that has a slot gets a new value there. -/
theorem memSetValue_taken (hname : name ∈ taken h) :
    memSetValue (slotsOf h) name value = slotsOf ((name, value) :: h) := by
  have hne : name ≠ noneText := fun heq => noneText_notMem_taken h (heq ▸ hname)
  have htaken : taken ((name, value) :: h) = taken h := by
    rw [taken, if_pos (.inr (.inl (List.contains_iff_mem.2 hname)))]
  have hfree : ∀ n, freeSlots ((name, value) :: h) n = freeSlots h n := by
    intro n
    cases n with
    | zero => rfl
    | succ n => rw [freeSlots, freeSlots, freeText, if_neg hne, if_pos (List.contains_iff_mem.2 hname)]
  obtain ⟨front, back, hsplit⟩ := List.append_of_mem hname
  obtain ⟨-, hcons, hfront⟩ := List.nodup_append.1 (hsplit ▸ nodup_taken h)
  have hback := (List.nodup_cons.1 hcons).1
  have hfront : name ∉ front := fun hmem => hfront name hmem name (List.mem_cons_self ..) rfl
  unfold memSetValue slotsOf
  rw [htaken, hfree, hsplit, List.map_append, List.map_cons, List.map_append, List.map_cons,
    map_lastSet_cons hfront, map_lastSet_cons hback, lastSet_cons, if_pos rfl, List.append_assoc,
    List.append_assoc, List.cons_append, List.cons_append, List.findIdx?_append,
    findIdx?_names_none _ hfront, List.findIdx?_cons, if_pos (decide_eq_true rfl)]
  simp only [Option.map_some, Option.none_or, Nat.zero_add]
  rw [modify_length_append]
  rfl

/-- `none` is the name of the first free slot, whose value changes. -/
theorem memSetValue_noneText :
    memSetValue (slotsOf h) noneText value = slotsOf ((noneText, value) :: h) := by
  have hno := noneText_notMem_taken h
  have htaken : taken ((noneText, value) :: h) = taken h := by
    rw [taken, if_pos (.inl rfl)]
  unfold memSetValue slotsOf
  rw [htaken, map_lastSet_cons hno, List.findIdx?_append, findIdx?_names_none _ hno]
  cases hn : 1000 - (taken h).length with
  | zero => rfl
  | succ n =>
      rw [freeSlots, freeSlots, freeText, if_pos rfl, List.findIdx?_cons,
        if_pos (decide_eq_true rfl)]
      simp only [Option.map_some, Option.none_or, Nat.zero_add]
      rw [List.length_map, ← List.length_map (f := fun name =>
        MemoryStruct.mk name ((lastSet h name).getD [])), modify_length_append]

/-- A new name takes the first free slot, if there is one. -/
theorem memSetValue_new (hne : name ≠ noneText) (hname : name ∉ taken h) :
    memSetValue (slotsOf h) name value = slotsOf ((name, value) :: h) := by
  have hfind : (slotsOf h).findIdx? (fun slot => slot.var = name) = none := by
    unfold slotsOf
    rw [List.findIdx?_append, findIdx?_names_none _ hname, findIdx?_freeSlots_of_ne _ hne]
    rfl
  unfold memSetValue
  rw [hfind]
  unfold slotsOf
  rw [List.findIdx?_append, findIdx?_names_none _ (noneText_notMem_taken h)]
  have hle := length_taken_le h
  cases hn : 1000 - (taken h).length with
  | zero =>
      have htaken : taken ((name, value) :: h) = taken h := by
        rw [taken, if_pos (.inr (.inr (by omega)))]
      rw [htaken, map_lastSet_cons hname, hn]
      rfl
  | succ n =>
      have htaken : taken ((name, value) :: h) = taken h ++ [name] := by
        rw [taken, if_neg]
        rintro (heq | hmem | hfull)
        · exact hne heq
        · exact hname (List.contains_iff_mem.1 hmem)
        · omega
      have hleft : 1000 - (taken h ++ [name]).length = n := by
        rw [List.length_append, List.length_singleton]
        omega
      rw [freeSlots, List.findIdx?_cons, if_pos (decide_eq_true rfl), htaken, hleft,
        List.map_append, map_lastSet_cons hname, List.map_singleton, lastSet_cons, if_pos rfl]
      simp only [Option.map_some, Option.none_or, Nat.zero_add]
      rw [set_length_append, List.append_assoc]
      congr 2
      cases n with
      | zero => rfl
      | succ n =>
          rw [freeSlots, freeText, if_neg hne, if_neg (hname ∘ List.contains_iff_mem.1)]
          rfl

theorem memSetValue_slotsOf (h : History) (name value : CString) :
    memSetValue (slotsOf h) name value = slotsOf ((name, value) :: h) := by
  by_cases hname : name ∈ taken h
  · exact memSetValue_taken hname
  · by_cases hne : name = noneText
    · rw [hne]
      exact memSetValue_noneText
    · exact memSetValue_new hne hname

/-- After any calls the memory is what their history says. -/
theorem memAfter_eq (sets : List (CString × CString)) : memAfter sets = slotsOf sets.reverse := by
  induction sets using List.reverseRecOn with
  | nil => rfl
  | append_singleton sets s ih =>
      obtain ⟨name, value⟩ := s
      rw [memAfter, List.foldl_append, List.reverse_append]
      show memSetValue (memAfter sets) name value = slotsOf ((name, value) :: sets.reverse)
      rw [ih, memSetValue_slotsOf]

/-! ## What is found -/

theorem stored_slotsOf (h : History) (name : CString) :
    stored (slotsOf h) name =
      if (taken h).contains name then some ((lastSet h name).getD [])
      else if name = noneText ∧ (taken h).length < 1000 then some (freeText h) else none := by
  unfold stored slotsOf
  rw [List.find?_append]
  split
  · next hname =>
      obtain ⟨front, back, hsplit⟩ := List.append_of_mem (List.contains_iff_mem.1 hname)
      obtain ⟨-, -, hfront⟩ := List.nodup_append.1 (hsplit ▸ nodup_taken h)
      have hfront : name ∉ front := fun hmem => hfront name hmem name (List.mem_cons_self ..) rfl
      rw [hsplit, List.map_append, List.map_cons, List.find?_append, find?_names_none _ hfront]
      simp
  · next hname =>
      rw [find?_names_none _ (hname ∘ List.contains_iff_mem.2), Option.none_or]
      cases hn : 1000 - (taken h).length with
      | zero =>
          rw [if_neg (by omega)]
          rfl
      | succ n =>
          by_cases hne : name = noneText
          · rw [if_pos ⟨hne, by omega⟩, freeSlots, hne]
            simp
          · rw [if_neg fun hand => hne hand.1, List.find?_eq_none.2 fun slot hslot => by
              rw [var_of_mem_freeSlots hslot]
              simpa using Ne.symm hne]
            rfl

/-- `mem_get_value` after any calls. -/
theorem memGetValue_memAfter (sets : List (CString × CString)) (name : CString) :
    memGetValue (memAfter sets) name = some (heldValue sets.reverse name) := by
  unfold memGetValue heldValue
  rw [memAfter_eq, stored_slotsOf]
  by_cases hname : (taken sets.reverse).contains name
  · simp only [if_pos hname]
  · by_cases hfree : name = noneText ∧ (taken sets.reverse).length < 1000
    · simp only [if_neg hname, if_pos hfree]
    · simp only [if_neg hname, if_neg hfree]

/-- A name that has a slot reads as what it was last set to. -/
theorem heldValue_taken (hname : name ∈ taken h) : some (heldValue h name) = lastSet h name := by
  obtain ⟨value, hvalue⟩ := Option.isSome_iff_exists.1 (lastSet_isSome.2 (mem_of_mem_taken hname))
  rw [heldValue, if_pos (List.contains_iff_mem.2 hname), hvalue]
  rfl

end History

end SimpleShell.A1
