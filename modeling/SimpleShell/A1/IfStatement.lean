import SimpleShell.A1.ShellMemory

/-!
# The if statement of A1

`ifStatement` looks for the `else`, compares the two identifiers and hands one of the two
slices of its arguments to the interpreter. It means to stop at an identifier that is not
in the memory, but `mem_get_value` answers a text there and never a null pointer.
-/

namespace SimpleShell.A1

/-! ## The statement -/

def MAX_ARGS_SIZE : Nat := 20

/-- What a call prints, the calls of the interpreter it makes, and what it returns. -/
structure IfRun where
  printed : List CString
  calls : List (List CString)
  ret : Int
deriving DecidableEq

def badcommandSpecific (command : CString) : IfRun :=
  ⟨["Bad command: ".toList ++ command ++ ['\n']], [], 1⟩

def emptyIfClause : IfRun := ⟨["Empty if clause\n".toList], [], 1⟩

/-- The value of an identifier, or the message for one that is not in the memory. -/
def identifierValue (mem : ShellMemory) (identifier : CString) : Except IfRun CString :=
  match identifier with
  | '$' :: name =>
      match memGetValue mem name with
      | none => .error ⟨[identifier ++ " doesn't exist".toList], [], 1⟩
      | some value => .ok value
  | _ => .ok identifier

/-- The first `else` behind the `then`, or 0. -/
def findElse (args : List CString) : Nat :=
  ((List.range' 5 (args.length - 6)).find? fun i => args[i]? = some "else".toList).getD 0

/-- The end of `ifStatement`: the loop that copies the arguments from `start` to `stop` into
`command`, which has room for 20, and the call with the first `size` of them. -/
def callInterpreter (interpreter : List CString → Int) (args : List CString)
    (start stop size : Nat) : Option IfRun :=
  let command := (args.drop start).take (stop - start)
  if MAX_ARGS_SIZE < command.length then none
  else if size = 0 then some (badcommandSpecific "my_if".toList)
  else some ⟨[], [command.take size], interpreter (command.take size)⟩

/-- `ifStatement`; `none` where it reads or writes outside of its arrays. -/
def ifStatement (interpreter : List CString → Int) (mem : ShellMemory) :
    List CString → Option IfRun
  | kw :: identifier1 :: op :: identifier2 :: thenWord :: rest =>
      let args := kw :: identifier1 :: op :: identifier2 :: thenWord :: rest
      if ¬(op = "==".toList ∨ op = "!=".toList) then some emptyIfClause
      else if thenWord ≠ "then".toList ∨ args.getLast? ≠ some "fi".toList then some emptyIfClause
      else
        let elseIndex := findElse args
        if elseIndex = 0 then some emptyIfClause
        else
          match identifierValue mem identifier1 with
          | .error run => some run
          | .ok value1 =>
              match identifierValue mem identifier2 with
              | .error run => some run
              | .ok value2 =>
                  let execCommand1 :=
                    if op = "==".toList then decide (value1 = value2) else decide (value1 ≠ value2)
                  if execCommand1 then
                    callInterpreter interpreter args 5 elseIndex (elseIndex - 5)
                  else
                    callInterpreter interpreter args (elseIndex + 1) args.length
                      (args.length - elseIndex - 2)
  | _ => none

/-! ## Which branch runs -/

/-- `if a op b then C1 else C2 fi`, of 20 tokens at most. -/
structure IfCommand where
  a : CString
  op : CString
  b : CString
  command1 : List CString
  command2 : List CString
  isOp : op = "==".toList ∨ op = "!=".toList
  nonempty : command1 ≠ [] ∧ command2 ≠ []
  noElse : "else".toList ∉ command1 ∧ "else".toList ∉ command2
  short : command1.length + command2.length + 7 ≤ MAX_ARGS_SIZE

namespace IfCommand

variable (c : IfCommand)

def args : List CString :=
  "if".toList :: c.a :: c.op :: c.b :: "then".toList ::
    (c.command1 ++ "else".toList :: (c.command2 ++ ["fi".toList]))

/-- The branch to run when the identifiers have the values `x` and `y`. -/
def branch (x y : CString) : List CString :=
  if (c.op = "==".toList ∧ x = y) ∨ (c.op = "!=".toList ∧ x ≠ y) then c.command1 else c.command2

end IfCommand

/-- An identifier with the value put in that it was last set to, if it was set. -/
def resolve (h : History) (identifier : CString) : Option CString :=
  match identifier with
  | '$' :: name => lastSet h name
  | _ => some identifier

/-- The text that `ifStatement` compares for an identifier. -/
def heldText (h : History) (identifier : CString) : CString :=
  match identifier with
  | '$' :: name => heldValue h name
  | _ => identifier

/-- The statement `c` after the calls `sets` of `mem_set_value`: one branch runs, once, or none
when an identifier was never set. -/
structure RunsOneBranch (interpreter : List CString → Int) (sets : List (CString × CString))
    (c : IfCommand) : Prop where
  branch : ∀ x y, resolve sets.reverse c.a = some x → resolve sets.reverse c.b = some y →
    ifStatement interpreter (memAfter sets) c.args =
      some ⟨[], [c.branch x y], interpreter (c.branch x y)⟩
  unset : resolve sets.reverse c.a = none ∨ resolve sets.reverse c.b = none →
    ∃ r, ifStatement interpreter (memAfter sets) c.args = some r ∧ r.calls = [] ∧ r.ret ≠ 0

/-- Both identifiers were set, and what is held for them is equal where what they were set to
is; or the branches are the same. -/
def ComparesRight (h : History) (c : IfCommand) : Prop :=
  ∃ x y, resolve h c.a = some x ∧ resolve h c.b = some y ∧
    (c.command1 = c.command2 ∨ (heldText h c.a = heldText h c.b ↔ x = y))

section Run

variable {interpreter : List CString → Int} {mem : ShellMemory} {c : IfCommand}
  {sets : List (CString × CString)} {x y : CString}

namespace IfCommand

theorem args_length (c : IfCommand) :
    c.args.length = c.command1.length + c.command2.length + 7 := by
  simp only [args, List.length_cons, List.length_append, List.length_nil]
  omega

theorem drop_args (c : IfCommand) :
    c.args.drop 5 = c.command1 ++ "else".toList :: (c.command2 ++ ["fi".toList]) := rfl

theorem getElem?_args (c : IfCommand) (i : Nat) :
    c.args[5 + i]? = (c.command1 ++ "else".toList :: (c.command2 ++ ["fi".toList]))[i]? := by
  rw [← drop_args, List.getElem?_drop]

theorem findElse_args (c : IfCommand) : findElse c.args = 5 + c.command1.length := by
  have hfind : (List.range' 5 (c.args.length - 6)).find?
      (fun i => c.args[i]? = some "else".toList) = some (5 + c.command1.length) := by
    rw [List.find?_range'_eq_some]
    refine ⟨?_, ?_, ?_⟩
    · rw [getElem?_args, List.getElem?_append_right (Nat.le_refl _), Nat.sub_self]
      exact decide_eq_true rfl
    · rw [args_length, List.mem_range'_1]
      omega
    · intro i hle hlt
      obtain ⟨j, rfl⟩ := Nat.exists_eq_add_of_le hle
      have hj : j < c.command1.length := by omega
      rw [getElem?_args, List.getElem?_append_left hj, List.getElem?_eq_getElem hj]
      have hne : c.command1[j] ≠ "else".toList := fun heq =>
        c.noElse.1 (heq ▸ List.getElem_mem hj)
      simpa using hne
  rw [findElse, hfind]
  rfl

theorem getLast?_args (c : IfCommand) : c.args.getLast? = some "fi".toList := by
  have hsplit : c.args = ("if".toList :: c.a :: c.op :: c.b :: "then".toList ::
      (c.command1 ++ "else".toList :: c.command2)) ++ ["fi".toList] := by
    simp [args]
  rw [hsplit, List.getLast?_concat]

end IfCommand

theorem callInterpreter_then (c : IfCommand) :
    callInterpreter interpreter c.args 5 (5 + c.command1.length) (5 + c.command1.length - 5) =
      some ⟨[], [c.command1], interpreter c.command1⟩ := by
  have hslice : (c.args.drop 5).take (5 + c.command1.length - 5) = c.command1 := by
    rw [c.drop_args, Nat.add_sub_cancel_left, List.take_left]
  have hlen := List.length_pos_iff.2 c.nonempty.1
  have hshort := c.short
  rw [callInterpreter, hslice, if_neg (by omega), if_neg (by omega), Nat.add_sub_cancel_left, List.take_length]

theorem callInterpreter_else (c : IfCommand) :
    callInterpreter interpreter c.args (5 + c.command1.length + 1) c.args.length
        (c.args.length - (5 + c.command1.length) - 2) =
      some ⟨[], [c.command2], interpreter c.command2⟩ := by
  have hdrop : c.args.drop (5 + c.command1.length + 1) = c.command2 ++ ["fi".toList] := by
    rw [Nat.add_assoc, ← List.drop_drop, c.drop_args, ← List.drop_drop, List.drop_left]
    rfl
  have hsize : c.args.length - (5 + c.command1.length) - 2 = c.command2.length := by
    rw [c.args_length]
    omega
  have hall : (c.command2 ++ ["fi".toList]).length ≤ c.args.length - (5 + c.command1.length + 1) := by
    rw [c.args_length, List.length_append, List.length_singleton]
    omega
  have hlen := List.length_pos_iff.2 c.nonempty.2
  have hshort := c.short
  have hroom : (c.command2 ++ ["fi".toList]).length ≤ MAX_ARGS_SIZE := by
    rw [List.length_append, List.length_singleton]
    omega
  rw [callInterpreter, hdrop, List.take_of_length_le hall, hsize, if_neg (by omega), if_neg (by omega), List.take_left]

/-- An identifier always gets a value. -/
theorem identifierValue_memAfter (sets : List (CString × CString)) (identifier : CString) :
    identifierValue (memAfter sets) identifier = .ok (heldText sets.reverse identifier) := by
  unfold identifierValue heldText
  split
  · rw [memGetValue_memAfter]
  · rfl

theorem IfCommand.branch_eq_iff (c : IfCommand) {x y x' y' : CString} :
    c.branch x' y' = c.branch x y ↔ c.command1 = c.command2 ∨ (x' = y' ↔ x = y) := by
  unfold branch
  rcases c.isOp with hop | hop
  · by_cases h : x = y
    · by_cases h' : x' = y'
      · simp [hop, h, h']
      · simp [hop, h, h', eq_comm]
    · by_cases h' : x' = y'
      · simp [hop, h, h']
      · simp [hop, h, h']
  · by_cases h : x = y
    · by_cases h' : x' = y'
      · simp [hop, h, h']
      · simp [hop, h, h']
    · by_cases h' : x' = y'
      · simp [hop, h, h', eq_comm]
      · simp [hop, h, h']

/-- A branch runs whatever the identifiers are. -/
theorem ifStatement_runs (hx : identifierValue mem c.a = .ok x)
    (hy : identifierValue mem c.b = .ok y) :
    ifStatement interpreter mem c.args =
      some ⟨[], [c.branch x y], interpreter (c.branch x y)⟩ := by
  have hlast := c.getLast?_args
  have hfind := c.findElse_args
  have hthen := @callInterpreter_then interpreter c
  have helse := @callInterpreter_else interpreter c
  unfold IfCommand.args at hlast hfind hthen helse ⊢
  rw [ifStatement]
  dsimp only
  rw [if_neg (not_not.2 c.isOp), if_neg (by rw [hlast]; simp), hfind, if_neg (by omega), hx, hy]
  dsimp only
  rw [hthen, helse]
  have hbranch : ((if c.op = "==".toList then decide (x = y) else decide (x ≠ y)) = true) ↔
      (c.op = "==".toList ∧ x = y) ∨ (c.op = "!=".toList ∧ x ≠ y) := by
    rcases c.isOp with hop | hop
    · simp [hop]
    · simp [hop]
  by_cases hcond : (c.op = "==".toList ∧ x = y) ∨ (c.op = "!=".toList ∧ x ≠ y)
  · rw [if_pos (hbranch.2 hcond), IfCommand.branch, if_pos hcond]
  · rw [if_neg fun h => hcond (hbranch.1 h), IfCommand.branch, if_neg hcond]

/-- The statement does what it should if and only if every variable in it was set, and what the
memory holds compares as what they were set to: for a name that was not set, or has lost its
value, a branch runs all the same. -/
theorem ifStatement_ok_iff (interpreter : List CString → Int) (sets : List (CString × CString))
    (c : IfCommand) : RunsOneBranch interpreter sets c ↔ ComparesRight sets.reverse c := by
  have hrun := @ifStatement_runs interpreter _ c _ _ (identifierValue_memAfter sets c.a)
    (identifierValue_memAfter sets c.b)
  constructor
  · intro h
    have hset : ¬(resolve sets.reverse c.a = none ∨ resolve sets.reverse c.b = none) := by
      intro hunset
      obtain ⟨r, heq, hcalls, -⟩ := h.unset hunset
      rw [hrun] at heq
      rw [← Option.some.inj heq] at hcalls
      cases hcalls
    rw [not_or] at hset
    obtain ⟨x, hx⟩ := Option.ne_none_iff_exists'.1 hset.1
    obtain ⟨y, hy⟩ := Option.ne_none_iff_exists'.1 hset.2
    have heq := h.branch x y hx hy
    rw [hrun, Option.some.injEq, IfRun.mk.injEq] at heq
    exact ⟨x, y, hx, hy, c.branch_eq_iff.1 (List.singleton_inj.1 heq.2.1)⟩
  · rintro ⟨x, y, hx, hy, hsame⟩
    refine ⟨fun x' y' hx' hy' => ?_, fun hunset => ?_⟩
    · obtain rfl : x = x' := Option.some.inj (hx.symm.trans hx')
      obtain rfl : y = y' := Option.some.inj (hy.symm.trans hy')
      rw [hrun, c.branch_eq_iff.2 hsame]
    · rw [hx, hy] at hunset
      rcases hunset with hnone | hnone
      · cases hnone
      · cases hnone

/-- An identifier that is no variable, or one that has a slot. -/
def Kept (h : History) (identifier : CString) : Prop :=
  ∀ name, identifier = '$' :: name → name ∈ taken h

/-- So it is for variables that were set while the memory had room for their names. -/
theorem comparesRight_of_kept {h : History} (ha : Kept h c.a) (hb : Kept h c.b) :
    ComparesRight h c := by
  have hsome : ∀ identifier, Kept h identifier →
      resolve h identifier = some (heldText h identifier) := by
    intro identifier hkept
    unfold resolve heldText
    split
    · next name => exact (heldValue_taken (hkept name rfl)).symm
    · rfl
  exact ⟨_, _, hsome _ ha, hsome _ hb, .inr Iff.rfl⟩

end Run

/-! ## A variable that was never set -/

/-- `if $x == a then echo yes else echo no fi`. -/
def ifUnset : IfCommand :=
  { a := "$x".toList, op := "==".toList, b := "a".toList
    command1 := ["echo".toList, "yes".toList], command2 := ["echo".toList, "no".toList]
    isOp := .inl rfl, nonempty := by decide, noElse := by decide, short := by decide }

/-- Nothing was set, and `echo no` runs. -/
theorem ifStatement_unset : resolve [] ifUnset.a = none ∧
    (∃ r, ifStatement (fun _ => 0) (memAfter []) ifUnset.args = some r ∧
      r.calls = [["echo".toList, "no".toList]] ∧ r.ret = 0) ∧
    ¬∀ interpreter sets c, RunsOneBranch interpreter sets c := by
  have hunset : resolve [] ifUnset.a = none := by decide
  have hrun : ∃ r, ifStatement (fun _ => 0) (memAfter []) ifUnset.args = some r ∧
      r.calls = [["echo".toList, "no".toList]] ∧ r.ret = 0 := by
    have hbranch : ifUnset.branch (heldText [] ifUnset.a) (heldText [] ifUnset.b) =
        ["echo".toList, "no".toList] := by decide
    refine ⟨_, ifStatement_runs (identifierValue_memAfter [] ifUnset.a)
      (identifierValue_memAfter [] ifUnset.b), ?_, rfl⟩
    show [ifUnset.branch (heldText [] ifUnset.a) (heldText [] ifUnset.b)] = _
    rw [hbranch]
  refine ⟨hunset, hrun, fun h => ?_⟩
  obtain ⟨r, heq, hcalls, -⟩ := (h (fun _ => 0) [] ifUnset).unset (.inl hunset)
  obtain ⟨r', heq', hcalls', -⟩ := hrun
  rw [heq] at heq'
  rw [← Option.some.inj heq', hcalls] at hcalls'
  cases hcalls'

/-- `set none a`, `set x b` and `if $none == a then echo yes else echo no fi`: the value of `none`
is that of the slot that `x` has taken since. -/
example : ¬ComparesRight [("x".toList, "b".toList), ("none".toList, "a".toList)]
    { ifUnset with a := "$none".toList } := by
  rintro ⟨x, y, hx, hy, hne | hiff⟩
  · exact absurd hne (by decide)
  · obtain rfl : x = "a".toList := (Option.some.inj hx).symm
    obtain rfl : y = "a".toList := (Option.some.inj hy).symm
    exact absurd (hiff.2 rfl) (by decide)

end SimpleShell.A1
