import Mathlib.Data.List.Range
import Mathlib.Logic.Function.Basic

/-!
# The shell memory

`shellmemory` holds the script lines in its first `FRAME_STORE_SIZE` slots and
the variables in the `VAR_STORE_SIZE` slots above them. Both kinds of slot are
free exactly when their `var` is the text `none`. Slots are numbered without an
upper limit, so that an access beyond the end of the array is an access to a
slot too; what lies there before the program starts is arbitrary.
-/

namespace SimpleShell.Shell

abbrev CString := List Char

structure MemoryStruct where
  var : CString
  value : CString
  deriving DecidableEq

abbrev ShellMemory := Nat → MemoryStruct

/-- The two sizes the makefile passes to the compiler. -/
structure Sizes where
  FRAME_STORE_SIZE : Nat
  VAR_STORE_SIZE : Nat

/-- The text of a free slot. -/
def noneText : CString := "none".toList

section

variable (c : Sizes) (mem : ShellMemory)

def FRAME_VAR_BORDER : Nat := c.FRAME_STORE_SIZE

def memFreeAt (pos : Nat) : ShellMemory :=
  Function.update mem pos ⟨noneText, noneText⟩

def memInit : ShellMemory :=
  (List.range (c.FRAME_STORE_SIZE + c.VAR_STORE_SIZE)).foldl memFreeAt mem

/-- The start of the first run of three free slots, and the memory with these
three carrying the process id. -/
def frameAlloc (pid : CString) : Option (Nat × ShellMemory) :=
  ((List.range (FRAME_VAR_BORDER c)).find? fun i =>
    decide (i + 3 ≤ FRAME_VAR_BORDER c) &&
      (List.range' i 3).all fun j => decide ((mem j).var = noneText)).map fun i =>
  (i, (List.range' i 3).foldl (fun m k => Function.update m k { m k with var := pid }) mem)

def memSetValueAt (pos : Nat) (pid valueIn : CString) : ShellMemory :=
  Function.update mem pos ⟨pid, valueIn⟩

def memGetValueAt (pos : Nat) : CString := (mem pos).value

/-- The first variable slot whose `var` is the given text. -/
def scanVars (name : CString) : Option Nat :=
  (List.range' (FRAME_VAR_BORDER c) c.VAR_STORE_SIZE).find? fun i =>
    decide ((mem i).var = name)

def memSetValue (varIn valueIn : CString) : ShellMemory :=
  match scanVars c mem varIn with
  | some i => Function.update mem i { mem i with value := valueIn }
  | none =>
      match scanVars c mem noneText with
      | some i => Function.update mem i ⟨varIn, valueIn⟩
      | none => mem

/-- What a lookup answers for a name it does not find. -/
def notFound (caller : Char) : CString :=
  if caller = 'p' then "Variable does not exist".toList else []

def memGetValue (varIn : CString) (caller : Char) : CString :=
  match scanVars c mem varIn with
  | some i => memGetValueAt mem i
  | none => notFound caller

def resetVarZone : ShellMemory :=
  (List.range' (FRAME_VAR_BORDER c) c.VAR_STORE_SIZE).foldl memFreeAt mem

def clearFrame (startPos : Nat) : ShellMemory :=
  (List.range' startPos 3).foldl memFreeAt mem

end

/-! ## What each operation leaves alone -/

variable {c : Sizes} {mem : ShellMemory}

@[simp] theorem FRAME_VAR_BORDER_eq : FRAME_VAR_BORDER c = c.FRAME_STORE_SIZE := rfl

theorem foldl_memFreeAt (l : List Nat) (mem : ShellMemory) (i : Nat) :
    l.foldl memFreeAt mem i = if i ∈ l then ⟨noneText, noneText⟩ else mem i := by
  induction l generalizing mem with
  | nil => simp
  | cons a l ih =>
      rw [List.foldl_cons, ih]
      by_cases hl : i ∈ l
      · simp [hl]
      · by_cases ha : i = a
        · subst ha
          simp [memFreeAt, hl]
        · simp [memFreeAt, hl, ha]

theorem resetVarZone_apply (i : Nat) :
    resetVarZone c mem i =
      if c.FRAME_STORE_SIZE ≤ i ∧ i < c.FRAME_STORE_SIZE + c.VAR_STORE_SIZE then
        ⟨noneText, noneText⟩ else mem i := by
  simp [resetVarZone, foldl_memFreeAt, List.mem_range'_1]

/-- A scan that finds its text finds it first at that slot. -/
theorem scanVars_eq_some {name : CString} {k : Nat} (hk : k < c.VAR_STORE_SIZE)
    (hat : (mem (c.FRAME_STORE_SIZE + k)).var = name)
    (hbefore : ∀ j < k, (mem (c.FRAME_STORE_SIZE + j)).var ≠ name) :
    scanVars c mem name = some (c.FRAME_STORE_SIZE + k) := by
  rw [scanVars, FRAME_VAR_BORDER_eq, List.find?_range'_eq_some]
  refine ⟨by simpa using hat, by simp [List.mem_range'_1]; omega, ?_⟩
  intro i hle hlt
  obtain ⟨j, rfl⟩ := Nat.exists_eq_add_of_le hle
  simpa using hbefore j (by omega)

theorem scanVars_eq_none {name : CString}
    (h : ∀ k < c.VAR_STORE_SIZE, (mem (c.FRAME_STORE_SIZE + k)).var ≠ name) :
    scanVars c mem name = none := by
  rw [scanVars, FRAME_VAR_BORDER_eq, List.find?_range'_eq_none]
  intro i hle hlt
  obtain ⟨k, rfl⟩ := Nat.exists_eq_add_of_le hle
  simpa using h k (by omega)

end SimpleShell.Shell
