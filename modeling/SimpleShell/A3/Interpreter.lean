import SimpleShell.A3.Kernel
import SimpleShell.Fs.Positions
import SimpleShell.Shell.ParseInput
import SimpleShell.Shell.VarStore
import SimpleShell.Shell.WordLoop

/-!
# The interpreter

`interpreter.c` with all its commands, and the `parseInput` of the third shell over it. A
command comes to an `Effect`: most return at once, having touched the shell memory, the file
system and the host's files and nothing of the kernel; `run` and `exec` name scripts, which
the kernel then runs; and some inputs overrun a buffer or follow a pointer to nothing.
-/

namespace SimpleShell.A3

open SimpleShell.Shell
open SimpleShell.Fs (FileSys)

/-! ## What the commands work on -/

/-- What the file commands find in memory that was allocated and not written, and which host
files can be opened for writing. -/
structure Unwritten where
  junk : Fs.Junk
  sectors : Nat → Fs.Malloced
  leftover : Fs.CString → Fs.Leftover
  copied : Fs.CString
  opens : Fs.CString → Bool

structure World where
  fs : FileSys
  host : Fs.CString → Option (List UInt8)
  newNameCount : Nat

namespace World

def withFs (w : World) (fs : FileSys) : World := { w with fs := fs }

/-- Host files that are written. -/
def put (w : World) (files : List (Fs.CString × Fs.CString)) : World :=
  { w with host := files.foldl (fun host f => Function.update host f.1 (some f.2)) w.host }

end World

def toBytes (str : CString) : Fs.CString := str.map fun letter => .ofNat letter.toNat

def ofBytes (bytes : List UInt8) : CString := bytes.map fun b => .ofNat b.toNat

/-- `atoi` of the C library: the digits after white space and a sign, in a `long` that keeps to
its range, cut down to an `int`. -/
def atoi (str : CString) : Int :=
  let str := str.dropWhile fun c => c = ' ' || ('\t'.toNat ≤ c.toNat && c.toNat ≤ '\r'.toNat)
  let negative := str.head? = some '-'
  let str := if negative || str.head? = some '+' then str.drop 1 else str
  let value : Int := (str.takeWhile Char.isDigit).foldl (fun n d => 10 * n + (d.toNat - '0'.toNat)) 0
  Fs.int32 (if negative then -min value (2 ^ 63) else min value (2 ^ 63 - 1))

/-! ## Errors -/

inductive Error where
  | FILE_DOES_NOT_EXIST
  | NO_MEM_SPACE
  | READY_QUEUE_FULL
  | SCHEDULING_ERROR
  | TOO_MANY_TOKENS
  | TOO_FEW_TOKENS
  | NON_ALPHANUMERIC_TOKEN
  | BAD_COMMAND
  | ERROR_RM
  | FILE_CREATION_ERROR
  | FILESYSTEM_ERROR
  | FILE_WRITE_ERROR
  | FILE_READ_ERROR
  deriving DecidableEq

/-- `handle_error`: the number of the error is returned. -/
def handleError : Error → Int
  | .FILE_DOES_NOT_EXIST => 0
  | .NO_MEM_SPACE => 1
  | .READY_QUEUE_FULL => 2
  | .SCHEDULING_ERROR => 3
  | .TOO_MANY_TOKENS => 4
  | .TOO_FEW_TOKENS => 5
  | .NON_ALPHANUMERIC_TOKEN => 6
  | .BAD_COMMAND => 7
  | .ERROR_RM => 8
  | .FILE_CREATION_ERROR => 9
  | .FILESYSTEM_ERROR => 10
  | .FILE_WRITE_ERROR => 11
  | .FILE_READ_ERROR => 12

/-! ## Commands -/

inductive Verb where
  | help | quit | set | print | run | echo | exec | resetmem
  | ls | cat | rm | create | write | find_file | read | copy_in | copy_out | size | seek
  | freespace | fragmentation_degree | defragment | recover
  deriving DecidableEq

/-- The chain of `strcmp`. -/
def verbs : List (String × Verb) :=
  [("help", .help), ("quit", .quit), ("exit", .quit), ("set", .set), ("print", .print),
    ("run", .run), ("echo", .echo), ("exec", .exec), ("resetmem", .resetmem), ("ls", .ls),
    ("cat", .cat), ("rm", .rm), ("create", .create), ("write", .write),
    ("find_file", .find_file), ("read", .read), ("copy_in", .copy_in), ("copy_out", .copy_out),
    ("size", .size), ("seek", .seek), ("freespace", .freespace),
    ("fragmentation_degree", .fragmentation_degree), ("defragment", .defragment),
    ("recover", .recover)]

def verb (word : CString) : Option Verb := (verbs.find? fun v => v.1.toList = word).map (·.2)

/-- What a command comes to. -/
inductive Effect where
  | did (ret : Int) (mem : ShellMemory) (w : World)
  | scripts (names : List CString) (w : World)
  | crash

/-- `echo` of a word: it is a name, or `$` and a name that may be empty. -/
def echoes : CString → Bool
  | '$' :: name => name.all Char.isAlphanum
  | word => isAlphaNumStr word

/-- The command line `cp ./x ./backing_store/xaa` fits its buffer of 100 places. -/
def CpFits (newNameCount : Nat) (script : CString) : Prop :=
  22 + 2 * script.length + newNameCount < 100

instance (newNameCount : Nat) (script : CString) : Decidable (CpFits newNameCount script) := by
  unfold CpFits
  infer_instance

/-- The loop of `exec` that copies its scripts: the new value of `new_name_count`. -/
def copyScripts : List CString → Nat → Option Nat
  | [], count => some count
  | script :: rest, count =>
      if CpFits count script then copyScripts rest (count + 1) else none

/-- `malloc (size + 1)` and `memset (buffer, 0, size + 1)` go through. -/
def BufferSize (size : Int) : Prop := -1 ≤ size ∧ size < 2 ^ 31 - 1

instance (size : Int) : Decidable (BufferSize size) := by
  unfold BufferSize
  infer_instance

section Commands

variable (c : Sizes) (u : World → Unwritten)

def recover (flag : Int) (w : World) : World :=
  if flag = 0 then w.withFs (Fs.recover0 w.fs)
  else if flag = 1 then w.put (Fs.recover1 (u w).sectors w.fs)
  else if flag = 2 then
    let r := Fs.recover2Host (u w).leftover (u w).opens w.fs
    (w.withFs r.2).put r.1
  else w

/-- The branch of `interpreter` for a command, given the words after it. -/
def branch (args : List CString) (mem : ShellMemory) (w : World) : Verb → Effect
  | .help => .did (if args = [] then 0 else handleError .TOO_MANY_TOKENS) mem w
  | .quit =>
      if args = [] then .did (-1) mem (w.withFs (Fs.filesysDone w.fs))
      else .did (handleError .TOO_MANY_TOKENS) mem w
  | .set =>
      match args with
      | var :: word :: words =>
          if isAlphaNumStr var then
            if SetFits (word :: words) then
              match setBuffer (word :: words) [] with
              | some buffer => .did 0 (memSetValue c mem var buffer) w
              | none => .did (handleError .NON_ALPHANUMERIC_TOKEN) mem w
            else .crash
          else .did (handleError .NON_ALPHANUMERIC_TOKEN) mem w
      | _ => .did (handleError .TOO_FEW_TOKENS) mem w
  | .print =>
      match args with
      | [] => .did (handleError .TOO_FEW_TOKENS) mem w
      | [_] => .did 0 mem w
      | _ => .did (handleError .TOO_MANY_TOKENS) mem w
  | .run =>
      match args with
      | [] => .did (handleError .TOO_FEW_TOKENS) mem w
      | [script] =>
          if CpFits w.newNameCount script then
            .scripts [script] { w with newNameCount := w.newNameCount + 1 }
          else .crash
      | _ => .did (handleError .TOO_MANY_TOKENS) mem w
  | .echo =>
      -- the array of words is read where nothing was written
      match args with
      | [] => .crash
      | [word] => .did (if echoes word then 0 else handleError .NON_ALPHANUMERIC_TOKEN) mem w
      | _ => .did (handleError .TOO_MANY_TOKENS) mem w
  | .exec =>
      if args = [] then .did (handleError .TOO_FEW_TOKENS) mem w
      else if 4 < args.length then .did (handleError .TOO_MANY_TOKENS) mem w
      else
        match copyScripts args w.newNameCount with
        | none => .crash
        | some count =>
            if 3 < args.length then .did 1 mem { w with newNameCount := count }
            else .scripts args { w with newNameCount := count }
  | .resetmem => .did 0 (resetVarZone c mem) w
  | .ls =>
      if args = [] then .did 0 mem (w.withFs (Fs.fsutilLs w.fs).2)
      else .did (handleError .TOO_MANY_TOKENS) mem w
  | .cat =>
      match args with
      | [name] => .did 0 mem (w.withFs (Fs.fsutilCat w.fs (toBytes name)).2)
      | _ => .did (handleError .TOO_MANY_TOKENS) mem w
  | .rm =>
      match args with
      | [name] =>
          let r := Fs.fsutilRm w.fs (toBytes name)
          .did (if r.1 then 1 else handleError .ERROR_RM) mem (w.withFs r.2)
      | _ => .did (handleError .TOO_MANY_TOKENS) mem w
  | .create =>
      match args with
      | [name, size] =>
          let r := Fs.fsutilCreate w.fs (toBytes name) (atoi size)
          .did (if r.1 then 0 else handleError .FILE_CREATION_ERROR) mem (w.withFs r.2)
      | _ => .did (handleError .TOO_MANY_TOKENS) mem w
  | .write =>
      match args with
      | name :: word :: words =>
          let r := Fs.fsutilWrite w.fs (toBytes name)
            (Fs.writeBuffer ((word :: words).map toBytes))
          .did (if r.1 = -1 then handleError .FILE_WRITE_ERROR else 0) mem (w.withFs r.2)
      | _ => .did (handleError .TOO_FEW_TOKENS) mem w
  | .find_file =>
      if args = [] then .did (handleError .TOO_FEW_TOKENS) mem w
      else .did 0 mem (w.withFs (Fs.findFile w.fs).2)
  | .read =>
      match args with
      | [name, size] =>
          if BufferSize (atoi size) then
            let r := Fs.fsutilRead w.fs (toBytes name) (atoi size)
            .did (if r.1.1 = -1 then handleError .FILE_READ_ERROR
              else if r.1.1 = atoi size then 1 else 0) mem (w.withFs r.2)
          else .crash
      | _ => .did (handleError .TOO_MANY_TOKENS) mem w
  | .copy_in =>
      match args with
      | [name] =>
          match w.host (toBytes name) with
          | none => .did (handleError .FILE_DOES_NOT_EXIST) mem w
          | some content =>
              let r := Fs.copyIn w.fs (toBytes name) content
              .did r.1 mem (w.withFs r.2)
      | _ => .did (handleError .TOO_MANY_TOKENS) mem w
  | .copy_out =>
      match args with
      | [name] =>
          let r := Fs.copyOut w.fs (toBytes name)
          let w := w.withFs r.2
          .did 0 mem (if (u w).opens (toBytes name)
            then w.put [(toBytes name, r.1.getD (u w).copied)] else w)
      | _ => .did (handleError .TOO_MANY_TOKENS) mem w
  | .size =>
      match args with
      | [name] =>
          let r := Fs.fsutilSize w.fs (toBytes name)
          .did (if r.1 = -1 then handleError .FILE_DOES_NOT_EXIST else 0) mem (w.withFs r.2)
      | _ => .did (handleError .TOO_MANY_TOKENS) mem w
  | .seek =>
      match args with
      | [name, offset] =>
          let r := Fs.fsutilSeek w.fs (toBytes name) (atoi offset)
          .did (if r.1 = -1 then handleError .FILE_DOES_NOT_EXIST else 0) mem (w.withFs r.2)
      | _ => .did (handleError .TOO_MANY_TOKENS) mem w
  | .freespace => .did (if args = [] then 0 else handleError .TOO_MANY_TOKENS) mem w
  | .fragmentation_degree =>
      if args = [] then .did 0 mem (w.withFs (Fs.fragmentationDegree w.fs).2)
      else .did (handleError .TOO_MANY_TOKENS) mem w
  | .defragment =>
      if args = [] then .did 0 mem (w.withFs (Fs.defragment (u w).junk w.fs))
      else .did (handleError .TOO_MANY_TOKENS) mem w
  | .recover =>
      match args with
      | [flag] => .did 0 mem (recover u (atoi flag) w)
      | _ => .did (handleError .TOO_MANY_TOKENS) mem w

/-- `interpreter`, up to the scripts. -/
def command (words : List CString) (mem : ShellMemory) (w : World) : Effect :=
  match words.map stripLineEnd with
  | [] => .did (handleError .TOO_FEW_TOKENS) mem w
  | name :: args =>
      match verb name with
      | none => .did (handleError .BAD_COMMAND) mem w
      | some v => branch c u args mem w v

/-! ## Over the kernel -/

/-- `cursor` is that of `strtok`. -/
structure Machine where
  world : World
  cursor : CString

/-- `new_proc` for each of the scripts. One that is not there ends the program. -/
def startScripts (k : Kernel Machine) : List CString → Kernel Machine
  | [] => k
  | script :: rest =>
      match k.rest.world.host (toBytes script) with
      | none => k.stop
      | some text => startScripts (newProc c (ofBytes text) k) rest

/-- `run` and `exec` with the round-robin policy. If they are not done within `fuel` rounds
there is no state to go on from. -/
def runScripts (parse : CString → Kernel Machine → Int × Kernel Machine) (fuel : Nat)
    (names : List CString) (k : Kernel Machine) : Int × Kernel Machine :=
  (0, (runProcRR parse c fuel (startScripts c k names)).getD k.stop)

def interpreter (parse : CString → Kernel Machine → Int × Kernel Machine) (fuel : Nat)
    (words : List CString) (k : Kernel Machine) : Int × Kernel Machine :=
  match command c u words k.shellmemory k.rest.world with
  | .did ret mem w => (ret, { k with shellmemory := mem, rest := { k.rest with world := w } })
  | .scripts names w => runScripts c parse fuel names { k with rest := { k.rest with world := w } }
  | .crash => (0, k.stop)

def setCursor (k : Kernel Machine) (cursor : CString) : Kernel Machine :=
  { k with rest := { k.rest with cursor := cursor } }

/-- The loop of `parseInput` over the tokens, with the last token and the last return value.
`fuel` bounds the depth of the calls and the length of the loops. -/
def parseLoop : Nat → Option CString → Int → Kernel Machine → Int × Kernel Machine
  | 0, _, _, k => (0, k.stop)
  | _ + 1, none, ret, k => (ret, k)
  | fuel + 1, some token, _, k =>
      if Fits token then
        let parse := fun ui k => parseLoop fuel (strtok ui).1 0 (setCursor k (strtok ui).2)
        let r := interpreter c u parse fuel (words token) k
        if r.2.stopped then r
        else
          let next := strtok r.2.rest.cursor
          let k := setCursor r.2 next.2
          if r.1 = -1 then (-1, k) else parseLoop fuel next.1 r.1 k
      else (0, k.stop)

def parseInput (fuel : Nat) (ui : CString) (k : Kernel Machine) : Int × Kernel Machine :=
  parseLoop c u fuel (strtok ui).1 0 (setCursor k (strtok ui).2)

end Commands

/-! ## Which commands answer 1 -/

/-- A file is there to be removed. -/
def Removes (fs : FileSys) (name : CString) : Prop := (Fs.fsutilRm fs (toBytes name)).1 = true

/-- There is such a file, and as many bytes from its position to its end. -/
def ReadsWhole (fs : FileSys) (name : CString) (size : Int) : Prop :=
  let o := Fs.openFile fs (toBytes name)
  ∃ f, o.1 = some f ∧ 0 ≤ size ∧ (size = 0 ∨ size ≤ Fs.fileLength o.2 f - f.pos)

def Verb.AnswersOne (args : List CString) (w : World) : Verb → Prop
  | .exec => args.length = 4
  | .rm => ∃ name, args = [name] ∧ Removes w.fs name
  | .read => ∃ name size, args = [name, size] ∧ ReadsWhole w.fs name (atoi size)
  | .copy_in => ∃ name, args = [name] ∧ (w.host (toBytes name)).isSome ∧ w.fs.freeSectors = 0
  | _ => False

def Verb.StartsProcess (args : List CString) : Verb → Prop
  | .run => args.length = 1
  | .exec => 1 ≤ args.length ∧ args.length ≤ 3
  | _ => False

/-- The command goes past the end of a buffer or of the array of words. -/
def Verb.Overruns (args : List CString) (w : World) : Verb → Prop
  | .set => ∃ var word words, args = var :: word :: words ∧ isAlphaNumStr var = true ∧
      ¬SetFits (word :: words)
  | .echo => args = []
  | .exec => args.length = 4 ∧ copyScripts args w.newNameCount = none
  | .read => ∃ name size, args = [name, size] ∧ ¬BufferSize (atoi size)
  | _ => False

section Answers

variable {c : Sizes} {u : World → Unwritten} {args : List CString} {mem : ShellMemory} {w : World}

-- every case split on a verb below rests on these equations
attribute [local simp] branch

theorem read_answers_iff {fs : FileSys} {name : CString} {size : Int} :
    (let r := Fs.fsutilRead fs (toBytes name) size; r.1.1 ≠ -1 ∧ r.1.1 = size) ↔
      ReadsWhole fs name size := by
  simp only [Fs.fsutilRead, ReadsWhole]
  cases (Fs.openFile fs (toBytes name)).1 with
  | none => simp
  | some f =>
      simp only [Fs.fileRead, Fs.inodeReadAt, Fs.inodeReadLoop_count _ (Nat.le_refl _),
        Fs.fileLength, Option.some.injEq, exists_eq_left']
      omega

theorem copyIn_answers_iff {fs : FileSys} {name : Fs.CString} {content : List UInt8} :
    (Fs.copyIn fs name content).1 = (if fs.freeSectors = 0 then 1 else 0) := by
  unfold Fs.copyIn
  dsimp only
  split
  · rfl
  · split
    · rfl
    · rfl

/-- What there is to say of each branch: what it comes to, and what it answers. -/
structure Told (args : List CString) (w : World) (v : Verb) (ret : Int) : Prop where
  starts : ¬v.StartsProcess args
  overruns : ¬v.Overruns args w
  one : ret = 1 ↔ v.AnswersOne args w
  quits : ret = -1 ↔ v = .quit ∧ args = []

/-- The branches that only ever answer 0 or the number of an error. -/
def Verb.Quiet (v : Verb) : Bool :=
  v ∉ [.quit, .set, .run, .echo, .exec, .rm, .read, .copy_in]

theorem Told.of_quiet {v : Verb} (hv : v.Quiet = true) {ret : Int} (hone : ret ≠ 1)
    (hquit : ret ≠ -1) : Told args w v ret := by
  cases v with
  | quit | set | run | echo | exec | rm | read | copy_in => exact absurd hv (by decide)
  | _ => exact ⟨id, id, iff_of_false hone id, iff_of_false hquit nofun⟩

theorem branch_quiet {v : Verb} (hv : v.Quiet = true) {ret : Int} {mem' : ShellMemory} {w' : World}
    (h : branch c u args mem w v = .did ret mem' w') : ret ≠ 1 ∧ ret ≠ -1 := by
  cases v with
  | quit | set | run | echo | exec | rm | read | copy_in => exact absurd hv (by decide)
  | resetmem =>
      obtain ⟨rfl, -, -⟩ := Effect.did.inj h
      decide
  | _ =>
      simp only [branch] at h
      split at h <;> (obtain ⟨rfl, -, -⟩ := Effect.did.inj h) <;> first | decide | (split <;> decide)

/-- A branch that refuses its words does nothing that is told of it. -/
theorem Told.refused {v : Verb} {ret : Int} (hstarts : ¬v.StartsProcess args)
    (hover : ¬v.Overruns args w) (hone : ¬v.AnswersOne args w) (hquits : ¬(v = .quit ∧ args = []))
    (h₁ : ret ≠ 1) (h₂ : ret ≠ -1) : Told args w v ret :=
  ⟨hstarts, hover, iff_of_false h₁ hone, iff_of_false h₂ hquits⟩

theorem set_did {ret : Int} {mem' : ShellMemory} {w' : World}
    (h : branch c u args mem w .set = .did ret mem' w') : Told args w .set ret := by
  have hquiet : (∀ var word words, args = var :: word :: words → isAlphaNumStr var = true →
      SetFits (word :: words)) ∧ ret ≠ 1 ∧ ret ≠ -1 := by
    simp only [branch] at h
    split at h
    · next var word words =>
        split at h
        · split at h
          · next hfits =>
              refine ⟨fun var' word' words' heq _ => ?_, ?_⟩
              · obtain ⟨-, rfl, rfl⟩ := by simpa using heq
                exact hfits
              · split at h
                · obtain ⟨rfl, -, -⟩ := Effect.did.inj h
                  decide
                · obtain ⟨rfl, -, -⟩ := Effect.did.inj h
                  decide
          · cases h
        · next halnum =>
            refine ⟨fun var' word' words' heq hvar => ?_, ?_⟩
            · obtain ⟨rfl, -⟩ := by simpa using heq
              exact absurd hvar halnum
            · obtain ⟨rfl, -, -⟩ := Effect.did.inj h
              decide
    · next hnone =>
        refine ⟨fun var word words heq => absurd heq (hnone var word words), ?_⟩
        obtain ⟨rfl, -, -⟩ := Effect.did.inj h
        decide
  obtain ⟨hfits, h₁, h₂⟩ := hquiet
  refine .refused id ?_ id nofun h₁ h₂
  rintro ⟨var, word, words, heq, hvar, hno⟩
  exact hno (hfits var word words heq hvar)

theorem scanVars_range {name : CString} {i : Nat} (h : scanVars c mem name = some i) :
    c.FRAME_STORE_SIZE ≤ i := (List.mem_range'_1.1 (List.mem_of_find?_eq_some h)).1

theorem memSetValue_frames (name value : CString) {i : Nat} (hi : i < c.FRAME_STORE_SIZE) :
    memSetValue c mem name value i = mem i := by
  have hne : ∀ {text : CString} {j : Nat}, scanVars c mem text = some j → i ≠ j :=
    fun h => Nat.ne_of_lt (Nat.lt_of_lt_of_le hi (scanVars_range h))
  unfold memSetValue
  cases hname : scanVars c mem name with
  | some j => exact Function.update_of_ne (hne hname) ..
  | none =>
      cases hfree : scanVars c mem noneText with
      | some j => exact Function.update_of_ne (hne hfree) ..
      | none => rfl

/-- No command writes to a frame. -/
theorem branch_frames {v : Verb} {ret : Int} {mem' : ShellMemory} {w' : World}
    (h : branch c u args mem w v = .did ret mem' w') :
    ∀ i < c.FRAME_STORE_SIZE, mem' i = mem i := by
  intro i hi
  cases v with
  | set =>
      simp only [branch] at h
      repeat' split at h
      all_goals first
        | (obtain ⟨-, rfl, -⟩ := Effect.did.inj h; exact memSetValue_frames _ _ hi)
        | (obtain ⟨-, rfl, -⟩ := Effect.did.inj h; rfl)
        | cases h
  | resetmem =>
      obtain ⟨-, rfl, -⟩ := Effect.did.inj h
      rw [resetVarZone_apply, if_neg fun hin => absurd hi (Nat.not_lt.2 hin.1)]
  | _ =>
      simp only [branch] at h
      repeat' split at h
      all_goals first
        | (obtain ⟨-, rfl, -⟩ := Effect.did.inj h; rfl)
        | cases h

theorem exec_did {ret : Int} {mem' : ShellMemory} {w' : World}
    (h : branch c u args mem w .exec = .did ret mem' w') : Told args w .exec ret := by
  simp only [branch] at h
  split at h
  · next hnil =>
      obtain ⟨rfl, -, -⟩ := Effect.did.inj h
      subst hnil
      exact .refused (by simp [Verb.StartsProcess]) (by simp [Verb.Overruns])
        (by simp [Verb.AnswersOne]) nofun (by decide) (by decide)
  · split at h
    · obtain ⟨rfl, -, -⟩ := Effect.did.inj h
      exact .refused (by simp only [Verb.StartsProcess]; omega)
        (fun hover => by have := hover.1; omega) (by simp only [Verb.AnswersOne]; omega) nofun
        (by decide) (by decide)
    · split at h
      · cases h
      · next hcopied =>
          split at h
          · obtain ⟨rfl, -, -⟩ := Effect.did.inj h
            refine ⟨by simp only [Verb.StartsProcess]; omega, fun hover => ?_,
              iff_of_true rfl (by simp only [Verb.AnswersOne]; omega),
              iff_of_false (by decide) nofun⟩
            rw [hover.2] at hcopied
            cases hcopied
          · cases h

theorem branch_did {v : Verb} {ret : Int} {mem' : ShellMemory} {w' : World}
    (h : branch c u args mem w v = .did ret mem' w') : Told args w v ret := by
  cases v with
  | quit =>
      simp only [branch] at h
      split at h
      · next hnil =>
          obtain ⟨rfl, -, -⟩ := Effect.did.inj h
          exact ⟨id, id, iff_of_false (by decide) id, iff_of_true rfl ⟨rfl, hnil⟩⟩
      · next hargs =>
          obtain ⟨rfl, -, -⟩ := Effect.did.inj h
          exact .refused id id id (fun hq => hargs hq.2) (by decide) (by decide)
  | set => exact set_did h
  | run =>
      simp only [branch] at h
      split at h
      · obtain ⟨rfl, -, -⟩ := Effect.did.inj h
        exact .refused nofun id id nofun (by decide) (by decide)
      · split at h <;> cases h
      · next hno =>
          obtain ⟨rfl, -, -⟩ := Effect.did.inj h
          refine .refused (fun hone => ?_) id id nofun (by decide) (by decide)
          obtain ⟨script, rfl⟩ := List.length_eq_one_iff.1 hone
          exact hno script rfl
  | echo =>
      simp only [branch] at h
      split at h
      · cases h
      · obtain ⟨rfl, -, -⟩ := Effect.did.inj h
        exact .refused id nofun id nofun (by split <;> decide) (by split <;> decide)
      · next hno _ =>
          obtain ⟨rfl, -, -⟩ := Effect.did.inj h
          exact .refused id hno id nofun (by decide) (by decide)
  | exec => exact exec_did h
  | rm =>
      simp only [branch] at h
      split at h
      · next name =>
          obtain ⟨rfl, -, -⟩ := Effect.did.inj h
          refine ⟨id, id, ?_, ?_⟩
          · simp only [Verb.AnswersOne, Removes, List.cons.injEq, and_true, exists_eq_left']
            split
            · next hrm => exact iff_of_true rfl hrm
            · next hrm => exact iff_of_false (by decide) hrm
          · refine iff_of_false ?_ nofun
            split <;> decide
      · next hno =>
          obtain ⟨rfl, -, -⟩ := Effect.did.inj h
          exact .refused id id (fun ⟨name, hname, _⟩ => hno name hname) nofun (by decide)
            (by decide)
  | read =>
      simp only [branch] at h
      split at h
      · next name size =>
          split at h
          · next hsize =>
              obtain ⟨rfl, -, -⟩ := Effect.did.inj h
              refine ⟨id, ?_, ?_, ?_⟩
              · rintro ⟨name', size', heq, hno⟩
                obtain ⟨-, rfl⟩ := by simpa using heq
                exact hno hsize
              · have hanswers : Verb.read.AnswersOne [name, size] w ↔
                    ReadsWhole w.fs name (atoi size) := by
                  refine ⟨fun ⟨name', size', heq, hwhole⟩ => ?_, fun hwhole => ⟨name, size, rfl, hwhole⟩⟩
                  obtain ⟨rfl, rfl⟩ := by simpa using heq
                  exact hwhole
                rw [hanswers, ← read_answers_iff]
                split
                · next hnone => exact iff_of_false (by decide) fun hread => hread.1 hnone
                · next hsome =>
                    split
                    · next hall => exact iff_of_true rfl ⟨hsome, hall⟩
                    · next hpart => exact iff_of_false (by decide) fun hread => hpart hread.2
              · refine iff_of_false ?_ nofun
                split
                · decide
                · split <;> decide
          · cases h
      · next hno =>
          obtain ⟨rfl, -, -⟩ := Effect.did.inj h
          exact .refused id (fun ⟨name, size, heq, _⟩ => hno name size heq)
            (fun ⟨name, size, heq, _⟩ => hno name size heq) nofun (by decide) (by decide)
  | copy_in =>
      simp only [branch] at h
      split at h
      · next name =>
          split at h
          · next hhost =>
              obtain ⟨rfl, -, -⟩ := Effect.did.inj h
              refine .refused id id ?_ nofun (by decide) (by decide)
              rintro ⟨name', heq, hsome, -⟩
              obtain rfl := by simpa using heq
              rw [hhost] at hsome
              cases hsome
          · next content hhost =>
              obtain ⟨rfl, -, -⟩ := Effect.did.inj h
              rw [copyIn_answers_iff]
              refine ⟨id, id, ?_, ?_⟩
              · simp only [Verb.AnswersOne, List.cons.injEq, and_true, exists_eq_left', hhost,
                  Option.isSome_some, true_and]
                split
                · next hfree => exact iff_of_true rfl hfree
                · next hfree => exact iff_of_false (by decide) hfree
              · refine iff_of_false ?_ nofun
                split <;> decide
      · next hno =>
          obtain ⟨rfl, -, -⟩ := Effect.did.inj h
          exact .refused id id (fun ⟨name, hname, _⟩ => hno name hname) nofun (by decide)
            (by decide)
  | _ =>
      obtain ⟨h₁, h₂⟩ := branch_quiet rfl h
      exact .of_quiet rfl h₁ h₂

theorem branch_scripts {v : Verb} {names : List CString} {w' : World}
    (h : branch c u args mem w v = .scripts names w') : v.StartsProcess args := by
  cases v with
  | run =>
      simp only [branch] at h
      split at h
      · cases h
      · rfl
      · cases h
  | exec =>
      simp only [branch] at h
      split at h
      · cases h
      · next hne =>
          have hpos := List.length_pos_of_ne_nil hne
          split at h
          · cases h
          · split at h
            · cases h
            · split at h
              · cases h
              · exact ⟨hpos, by omega⟩
  | resetmem => cases h
  | _ =>
      simp only [branch] at h
      repeat' split at h
      all_goals cases h

theorem branch_crash {v : Verb} (h : branch c u args mem w v = .crash) :
    v.StartsProcess args ∨ v.Overruns args w := by
  cases v with
  | run =>
      simp only [branch] at h
      split at h
      · cases h
      · exact .inl rfl
      · cases h
  | exec =>
      simp only [branch] at h
      split at h
      · cases h
      · next hne =>
          have hpos := List.length_pos_of_ne_nil hne
          split at h
          · cases h
          · split at h
            · next hcopied =>
                rcases Nat.lt_or_ge args.length 4 with hlt | hge
                · exact .inl ⟨hpos, by omega⟩
                · exact .inr ⟨by omega, hcopied⟩
            · split at h <;> cases h
  | set =>
      simp only [branch] at h
      split at h
      · next var word words =>
          split at h
          · next hvar =>
              split at h
              · split at h <;> cases h
              · next hno => exact .inr ⟨var, word, words, rfl, hvar, hno⟩
          · cases h
      · cases h
  | echo =>
      simp only [branch] at h
      split at h
      · exact .inr rfl
      · cases h
      · cases h
  | read =>
      simp only [branch] at h
      split at h
      · next name size =>
          split at h
          · cases h
          · next hno => exact .inr ⟨name, size, rfl, hno⟩
      · cases h
  | resetmem => cases h
  | _ =>
      simp only [branch] at h
      repeat' split at h
      all_goals cases h

end Answers

end SimpleShell.A3
