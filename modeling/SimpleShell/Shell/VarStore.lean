import Mathlib.Data.Finset.Card
import Mathlib.Data.List.Dedup
import SimpleShell.Shell.Memory

/-!
# The variable store as a finite map

`set` and `resetmem` against the map from names to values they stand for. The
variable zone always has one shape: the variables in the order in which they
were first set, one free slot that may hold a stray value, and untouched free
slots after it. The stray value is what a `set` of the name `none` leaves,
since that text marks a free slot. Every other name reads as in the map; `none`
reads as whatever the first free slot holds.
-/

namespace SimpleShell.Shell

/-! ## The command -/

def isAlphaNumStr (str : CString) : Bool :=
  !str.isEmpty && str.all Char.isAlphanum

/-- The loop that joins the words of a value. -/
def setBuffer : List CString → CString → Option CString
  | [], buffer => some buffer
  | word :: rest, buffer =>
      if isAlphaNumStr word then
        setBuffer rest (buffer ++ word ++ if rest = [] then [] else [' '])
      else none

/-- The words that are joined fit the buffer of 505 places, which nothing checks. -/
def SetFits (words : List CString) : Prop :=
  let joined := words.takeWhile isAlphaNumStr
  joined.flatten.length + joined.length < 505 + if words.all isAlphaNumStr then 1 else 0

instance (words : List CString) : Decidable (SetFits words) := by
  unfold SetFits
  infer_instance

/-- As the comment has it: at most five words, each shorter than 100 letters. -/
theorem setFits_of_few {words : List CString} (hfew : words.length ≤ 5)
    (hshort : ∀ word ∈ words, word.length < 100) : SetFits words := by
  have hjoined : ∀ l : List CString, (∀ word ∈ l, word.length < 100) →
      l.flatten.length ≤ 99 * l.length := by
    intro l hl
    induction l with
    | nil => simp
    | cons word l ih =>
        have hword := hl word List.mem_cons_self
        have hrest := ih fun w hw => hl w (List.mem_cons_of_mem word hw)
        rw [List.flatten_cons, List.length_append, List.length_cons]
        omega
  have hsub := List.takeWhile_sublist (l := words) isAlphaNumStr
  have hletters := hjoined _ fun word hword => hshort word (hsub.subset hword)
  have hlen := hsub.length_le
  unfold SetFits
  dsimp only
  omega

inductive Error where
  | TOO_FEW_TOKENS
  | NON_ALPHANUMERIC_TOKEN
  deriving DecidableEq

/-- The branch of the interpreter for `set`, given the words after it. -/
def interpreterSet (c : Sizes) (mem : ShellMemory) :
    List CString → Except Error Unit × ShellMemory
  | var :: word :: rest =>
      if isAlphaNumStr var then
        match setBuffer (word :: rest) [] with
        | some buffer => (.ok (), memSetValue c mem var buffer)
        | none => (.error .NON_ALPHANUMERIC_TOKEN, mem)
      else (.error .NON_ALPHANUMERIC_TOKEN, mem)
  | _ => (.error .TOO_FEW_TOKENS, mem)

inductive VarCommand where
  | set (name : CString) (words : List CString)
  | resetmem

def execVar (c : Sizes) (mem : ShellMemory) : VarCommand → ShellMemory
  | .set name words => (interpreterSet c mem (name :: words)).2
  | .resetmem => resetVarZone c mem

/-- The name and value a `set` binds, when its words pass the checks. -/
def bound (name : CString) (words : List CString) : Option (CString × CString) :=
  if isAlphaNumStr name && !words.isEmpty && words.all isAlphaNumStr then
    some (name, [' '].intercalate words) else none

def names (cmds : List VarCommand) : Finset CString :=
  (cmds.filterMap fun
    | .set name words => (bound name words).map Prod.fst
    | .resetmem => none).toFinset

abbrev Store := CString → Option CString

def Store.exec (store : Store) : VarCommand → Store
  | .set name words =>
      match bound name words with
      | some (name, value) => Function.update store name (some value)
      | none => store
  | .resetmem => fun _ => none

/-- The variables in the order of their first `set`, and the value in the free
slot after them. -/
structure Zone where
  vars : List MemoryStruct
  freeText : CString

namespace Zone

def assign (z : Zone) (name value : CString) : Zone :=
  if name = noneText then { z with freeText := value }
  else if name ∈ z.vars.map MemoryStruct.var then
    { z with vars := z.vars.map fun x => if x.var = name then { x with value := value } else x }
  else ⟨z.vars ++ [⟨name, value⟩], noneText⟩

def exec (z : Zone) : VarCommand → Zone
  | .set name words =>
      match bound name words with
      | some (name, value) => z.assign name value
      | none => z
  | .resetmem => ⟨[], noneText⟩

def slot (z : Zone) (k : Nat) : MemoryStruct :=
  (z.vars ++ [MemoryStruct.mk noneText z.freeText]).getD k ⟨noneText, noneText⟩

def lookup (z : Zone) (name : CString) : Option CString :=
  (z.vars.find? fun x => x.var = name).map MemoryStruct.value

/-- No variable occurs twice and none is called `none`. -/
structure Proper (z : Zone) : Prop where
  nodup : (z.vars.map MemoryStruct.var).Nodup
  named : noneText ∉ z.vars.map MemoryStruct.var

end Zone

/-- The zone a list of commands makes. -/
def zoneOf (cmds : List VarCommand) : Zone := cmds.foldl Zone.exec ⟨[], noneText⟩

variable {c : Sizes} {mem : ShellMemory} {z : Zone} {name value : CString}
  {cmds : List VarCommand}

/-! ## The command does what its words say -/

theorem setBuffer_eq (words : List CString) (hw : words ≠ []) (buffer : CString) :
    setBuffer words buffer =
      if words.all isAlphaNumStr then some (buffer ++ [' '].intercalate words) else none := by
  induction words generalizing buffer with
  | nil => exact absurd rfl hw
  | cons word rest ih =>
      unfold setBuffer
      by_cases h : isAlphaNumStr word
      · by_cases hr : rest = []
        · subst hr
          simp [h, setBuffer, List.intercalate]
        · rw [if_pos h, ih hr, if_neg hr]
          obtain ⟨next, tail, rfl⟩ := List.exists_cons_of_ne_nil hr
          simp [h, List.intercalate, List.intersperse, List.append_assoc]
      · simp [h]

theorem execVar_set (name : CString) (words : List CString) :
    execVar c mem (.set name words) =
      match bound name words with
      | some (name, value) => memSetValue c mem name value
      | none => mem := by
  cases words with
  | nil => simp [execVar, interpreterSet, bound]
  | cons word rest =>
      simp only [execVar, interpreterSet, bound]
      rw [setBuffer_eq _ (List.cons_ne_nil word rest)]
      by_cases hn : isAlphaNumStr name
      · by_cases hw : (word :: rest).all isAlphaNumStr
        · simp only [hn, hw, List.isEmpty_cons, Bool.not_false, Bool.and_self, if_true,
            List.nil_append]
        · simp only [hn, hw, List.isEmpty_cons, Bool.not_false, Bool.and_self, if_true,
            Bool.and_false, Bool.false_eq_true, if_false]
      · simp [hn]

/-! ## The zone in the memory -/

/-- The variable slots of the memory hold the zone. -/
structure Holds (c : Sizes) (mem : ShellMemory) (z : Zone) : Prop where
  proper : z.Proper
  fits : z.vars.length ≤ c.VAR_STORE_SIZE
  slots : ∀ k < c.VAR_STORE_SIZE, mem (c.FRAME_STORE_SIZE + k) = z.slot k

namespace Zone

theorem slot_lt {k : Nat} (hk : k < z.vars.length) : z.slot k = z.vars[k] := by
  rw [slot, List.getD_eq_getElem?_getD, List.getElem?_append_left hk,
    List.getElem?_eq_getElem hk, Option.getD_some]

theorem slot_length : z.slot z.vars.length = ⟨noneText, z.freeText⟩ := by
  simp [slot, List.getD_eq_getElem?_getD]

theorem slot_gt {k : Nat} (hk : z.vars.length < k) : z.slot k = ⟨noneText, noneText⟩ := by
  rw [slot, List.getD_eq_getElem?_getD, List.getElem?_eq_none (by simp; omega),
    Option.getD_none]

theorem slot_free {k : Nat} (hk : z.vars.length ≤ k) : (z.slot k).var = noneText := by
  rcases Nat.eq_or_lt_of_le hk with rfl | hlt
  · rw [slot_length]
  · rw [slot_gt hlt]

/-- A variable sits at one place. -/
theorem Proper.position (hz : z.Proper) {k : Nat} (hk : k < z.vars.length)
    (hname : z.vars[k].var = name) {j : Nat} (hj : j < z.vars.length)
    (hj' : z.vars[j].var = name) : j = k := by
  have hmap := hz.nodup
  rw [List.nodup_iff_injective_getElem] at hmap
  have hinj := @hmap ⟨j, by simpa using hj⟩ ⟨k, by simpa using hk⟩ (by simp [hname, hj'])
  simpa using hinj

theorem Proper.lookup_getElem (hz : z.Proper) {k : Nat} (hk : k < z.vars.length) :
    z.lookup z.vars[k].var = some z.vars[k].value := by
  unfold lookup
  have hfind : z.vars.find? (fun x => decide (x.var = z.vars[k].var)) = some z.vars[k] := by
    rw [List.find?_eq_some_iff_getElem]
    refine ⟨by simp, k, hk, rfl, fun j hj => ?_⟩
    have hne : z.vars[j].var ≠ z.vars[k].var := fun heq =>
      absurd (hz.position hk rfl (by omega) heq) (by omega)
    simpa using hne
  rw [hfind, Option.map_some]

theorem lookup_absent (h : name ∉ z.vars.map MemoryStruct.var) : z.lookup name = none := by
  unfold lookup
  rw [List.find?_eq_none.2, Option.map_none]
  intro x hx
  have hne : x.var ≠ name := fun heq => h (heq ▸ List.mem_map_of_mem hx)
  simpa using hne

end Zone

namespace Holds

variable (h : Holds c mem z)
include h

theorem scan_var {k : Nat} (hk : k < z.vars.length) :
    scanVars c mem z.vars[k].var = some (c.FRAME_STORE_SIZE + k) := by
  have hfit := h.fits
  apply scanVars_eq_some (by omega)
  · rw [h.slots k (by omega), Zone.slot_lt hk]
  · intro j hj heq
    rw [h.slots j (by omega), Zone.slot_lt (by omega)] at heq
    exact absurd (h.proper.position hk rfl (by omega) heq) (by omega)

theorem scan_absent (hname : name ≠ noneText) (habs : name ∉ z.vars.map MemoryStruct.var) :
    scanVars c mem name = none := by
  apply scanVars_eq_none
  intro k hk heq
  rw [h.slots k hk] at heq
  by_cases hlt : k < z.vars.length
  · rw [Zone.slot_lt hlt] at heq
    exact habs (heq ▸ List.mem_map_of_mem (List.getElem_mem hlt))
  · exact hname (heq.symm.trans (Zone.slot_free (by omega)))

theorem scan_free (hroom : z.vars.length < c.VAR_STORE_SIZE) :
    scanVars c mem noneText = some (c.FRAME_STORE_SIZE + z.vars.length) := by
  apply scanVars_eq_some hroom
  · rw [h.slots _ hroom, Zone.slot_length]
  · intro j hj heq
    rw [h.slots j (by omega), Zone.slot_lt hj] at heq
    exact h.proper.named (heq ▸ List.mem_map_of_mem (List.getElem_mem hj))

/-- Every name but `none` reads as the zone says. -/
theorem get (hname : name ≠ noneText) (caller : Char) :
    memGetValue c mem name caller = (z.lookup name).getD (notFound caller) := by
  unfold memGetValue
  by_cases hin : name ∈ z.vars.map MemoryStruct.var
  · obtain ⟨k, hk, rfl⟩ := List.mem_iff_getElem.1 hin
    rw [List.length_map] at hk
    rw [List.getElem_map, h.scan_var hk, h.proper.lookup_getElem hk]
    show (mem (c.FRAME_STORE_SIZE + k)).value = z.vars[k].value
    rw [h.slots k (Nat.lt_of_lt_of_le hk h.fits), Zone.slot_lt hk]
  · rw [h.scan_absent hname hin, Zone.lookup_absent hin]
    rfl

/-- A `set` of `none` with a free slot left writes into that slot. -/
theorem set_none (hroom : z.vars.length < c.VAR_STORE_SIZE) (value : CString) :
    Holds c (memSetValue c mem noneText value) { z with freeText := value } := by
  have hscan := h.scan_free hroom
  refine ⟨⟨h.proper.nodup, h.proper.named⟩, h.fits, fun k hk => ?_⟩
  unfold memSetValue
  rw [hscan]
  by_cases heq : k = z.vars.length
  · subst heq
    show Function.update mem _ _ _ = _
    rw [Function.update_self, h.slots _ hk, Zone.slot_length, Zone.slot_length]
  · show Function.update mem _ _ _ = _
    rw [Function.update_of_ne (by omega), h.slots k hk]
    rcases Nat.lt_or_ge k z.vars.length with hlt | hge
    · rw [Zone.slot_lt hlt, Zone.slot_lt (z := { z with freeText := value }) hlt]
    · rw [Zone.slot_gt (by omega), Zone.slot_gt (z := { z with freeText := value })
        (show z.vars.length < k by omega)]

/-- A `set` of a variable that is there. -/
theorem set_var (hname : name ≠ noneText) (hin : name ∈ z.vars.map MemoryStruct.var)
    (value : CString) : Holds c (memSetValue c mem name value) (z.assign name value) := by
  have hvars : (z.assign name value).vars =
      z.vars.map fun x => if x.var = name then { x with value := value } else x := by
    rw [Zone.assign, if_neg hname, if_pos hin]
  have hkeys : (z.assign name value).vars.map MemoryStruct.var =
      z.vars.map MemoryStruct.var := by
    rw [hvars, List.map_map]
    apply List.map_congr_left
    intro x _
    by_cases hx : x.var = name <;> simp [hx]
  have hfree : (z.assign name value).freeText = z.freeText := by
    rw [Zone.assign, if_neg hname, if_pos hin]
  have hlength : (z.assign name value).vars.length = z.vars.length := by
    rw [hvars, List.length_map]
  obtain ⟨k, hk, hkname⟩ := List.mem_iff_getElem.1 hin
  rw [List.length_map] at hk
  rw [List.getElem_map] at hkname
  have hscan := h.scan_var hk
  rw [hkname] at hscan
  refine ⟨⟨hkeys ▸ h.proper.nodup, hkeys ▸ h.proper.named⟩, hlength ▸ h.fits,
    fun i hi => ?_⟩
  unfold memSetValue
  rw [hscan]
  show Function.update mem _ _ _ = _
  rcases Nat.lt_or_ge i z.vars.length with hlt | hge
  · have hslot : (z.assign name value).slot i =
        if z.vars[i].var = name then { z.vars[i] with value := value } else z.vars[i] := by
      rw [Zone.slot_lt (hlength ▸ hlt)]
      simp [hvars]
    rw [hslot]
    by_cases hik : i = k
    · subst hik
      rw [Function.update_self, if_pos hkname, h.slots i hi, Zone.slot_lt hlt]
    · have hne : z.vars[i].var ≠ name := fun heq =>
        hik (h.proper.position hk hkname hlt heq)
      rw [Function.update_of_ne (by omega), if_neg hne, h.slots i hi, Zone.slot_lt hlt]
  · rw [Function.update_of_ne (by omega), h.slots i hi]
    rcases Nat.eq_or_lt_of_le hge with heq | hgt
    · rw [← heq, Zone.slot_length, ← hlength, Zone.slot_length, hfree]
    · rw [Zone.slot_gt hgt, Zone.slot_gt (hlength ▸ hgt)]

/-- A `set` of a new name takes the first free slot. -/
theorem set_new (hname : name ≠ noneText) (habs : name ∉ z.vars.map MemoryStruct.var)
    (hroom : z.vars.length < c.VAR_STORE_SIZE) (value : CString) :
    Holds c (memSetValue c mem name value) (z.assign name value) := by
  have hz : z.assign name value = ⟨z.vars ++ [⟨name, value⟩], noneText⟩ := by
    rw [Zone.assign, if_neg hname, if_neg habs]
  rw [hz]
  refine ⟨⟨?_, ?_⟩, by simp; omega, fun i hi => ?_⟩
  · simpa [List.nodup_append] using ⟨h.proper.nodup, fun x hx heq =>
      habs (heq ▸ List.mem_map_of_mem hx)⟩
  · simpa using ⟨fun x hx heq => h.proper.named (heq ▸ List.mem_map_of_mem hx),
      fun heq => hname heq.symm⟩
  unfold memSetValue
  rw [h.scan_absent hname habs, h.scan_free hroom]
  show Function.update mem _ _ _ = _
  rcases Nat.lt_trichotomy i z.vars.length with hlt | heq | hgt
  · rw [Function.update_of_ne (by omega), h.slots i hi, Zone.slot_lt hlt,
      Zone.slot_lt (by simp; omega)]
    simp [List.getElem_append_left hlt]
  · subst heq
    rw [Function.update_self, Zone.slot_lt (by simp)]
    simp
  · rw [Function.update_of_ne (by omega), h.slots i hi, Zone.slot_gt hgt]
    rcases Nat.eq_or_lt_of_le (Nat.succ_le_of_lt hgt) with heq | hlt
    · have hat := Zone.slot_length (z := ⟨z.vars ++ [⟨name, value⟩], noneText⟩)
      rw [List.length_append, List.length_singleton] at hat
      rw [← heq]
      exact hat.symm
    · rw [Zone.slot_gt]
      simpa using hlt

omit h in
/-- `resetmem` leaves no variable. -/
theorem reset : Holds c (resetVarZone c mem) ⟨[], noneText⟩ := by
  refine ⟨⟨by simp, by simp⟩, by simp, fun k hk => ?_⟩
  rw [resetVarZone_apply, if_pos (by omega)]
  cases k <;> rfl

end Holds

/-! ## The zone against the map -/

theorem zoneOf_concat (cmds : List VarCommand) (cmd : VarCommand) :
    zoneOf (cmds ++ [cmd]) = (zoneOf cmds).exec cmd := by
  rw [zoneOf, List.foldl_concat]
  rfl

theorem mem_names_concat {cmd : VarCommand} {x : CString} :
    x ∈ names (cmds ++ [cmd]) ↔
      x ∈ names cmds ∨ ∃ name words value, cmd = .set name words ∧
        bound name words = some (x, value) := by
  rw [names, List.filterMap_append, List.toFinset_append, Finset.mem_union]
  refine or_congr Iff.rfl ?_
  cases cmd with
  | resetmem => simp
  | set name words =>
      cases hb : bound name words with
      | none => simp [hb]
      | some pair => simp [hb, Prod.ext_iff, eq_comm]

theorem names_subset_concat (cmds : List VarCommand) (cmd : VarCommand) :
    names cmds ⊆ names (cmds ++ [cmd]) := fun _ hx => mem_names_concat.2 (.inl hx)

/-- The variables of the zone were set. -/
theorem vars_set (cmds : List VarCommand) :
    ∀ x ∈ (zoneOf cmds).vars.map MemoryStruct.var, x ∈ names cmds := by
  induction cmds using List.reverseRecOn with
  | nil => simp [zoneOf]
  | append_singleton cmds cmd ih =>
      intro x hx
      rw [zoneOf_concat] at hx
      rw [mem_names_concat]
      cases cmd with
      | resetmem => simp [Zone.exec] at hx
      | set name words =>
          simp only [Zone.exec] at hx
          cases hb : bound name words with
          | none => exact .inl (ih x (by simpa [hb] using hx))
          | some pair =>
              obtain ⟨other, value⟩ := pair
              simp only [hb, Zone.assign] at hx
              split at hx
              · exact .inl (ih x hx)
              split at hx
              · refine .inl (ih x ?_)
                rw [List.map_map] at hx
                obtain ⟨y, hy, rfl⟩ := List.mem_map.1 hx
                refine List.mem_map.2 ⟨y, hy, ?_⟩
                by_cases hyo : y.var = other <;> simp [hyo]
              · rw [List.map_append, List.mem_append] at hx
                rcases hx with hx | hx
                · exact .inl (ih x hx)
                · obtain rfl : x = other := by simpa using hx
                  exact .inr ⟨name, words, value, rfl, hb⟩

/-- The variables and a name that is not among them are different names. -/
theorem Zone.Proper.card {cmds cmds' : List VarCommand} (h : (zoneOf cmds).Proper)
    (hsub : names cmds ⊆ names cmds') {x : CString} (hx : x ∈ names cmds')
    (habs : x ∉ (zoneOf cmds).vars.map MemoryStruct.var) :
    (zoneOf cmds).vars.length < (names cmds').card := by
  have hkeys : (x :: (zoneOf cmds).vars.map MemoryStruct.var).toFinset ⊆ names cmds' := by
    intro y hy
    rw [List.mem_toFinset, List.mem_cons] at hy
    rcases hy with rfl | hy
    · exact hx
    · exact hsub (vars_set cmds y hy)
  have hle := Finset.card_le_card hkeys
  rw [List.toFinset_card_of_nodup (List.nodup_cons.2 ⟨habs, h.nodup⟩)] at hle
  simp only [List.length_cons, List.length_map] at hle
  omega

/-- The step: the memory holds the zone after each command. -/
theorem Holds.exec (h : Holds c mem (zoneOf cmds)) {cmd : VarCommand}
    (hcard : (names (cmds ++ [cmd])).card ≤ c.VAR_STORE_SIZE) :
    Holds c (execVar c mem cmd) (zoneOf (cmds ++ [cmd])) := by
  rw [zoneOf_concat]
  cases cmd with
  | resetmem => exact Holds.reset
  | set name words =>
      rw [execVar_set]
      simp only [Zone.exec]
      cases hb : bound name words with
      | none => exact h
      | some pair =>
          obtain ⟨other, value⟩ := pair
          have hx : other ∈ names (cmds ++ [VarCommand.set name words]) :=
            mem_names_concat.2 (.inr ⟨name, words, value, rfl, hb⟩)
          have hroom (habs : other ∉ (zoneOf cmds).vars.map MemoryStruct.var) :
              (zoneOf cmds).vars.length < c.VAR_STORE_SIZE :=
            Nat.lt_of_lt_of_le (h.proper.card (names_subset_concat cmds _) hx habs) hcard
          by_cases hnone : other = noneText
          · subst hnone
            have hset := h.set_none (hroom h.proper.named) value
            rwa [show ({ zoneOf cmds with freeText := value } : Zone) =
              (zoneOf cmds).assign noneText value by rw [Zone.assign, if_pos rfl]] at hset
          · by_cases hin : other ∈ (zoneOf cmds).vars.map MemoryStruct.var
            · exact h.set_var hnone hin value
            · exact h.set_new hnone hin (hroom hin) value

end SimpleShell.Shell
