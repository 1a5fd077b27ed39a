import SimpleShell.A3.Interpreter
import SimpleShell.Fs.Fresh

/-!
# Page faults

`cpu_run` answers 1 for a line that is not in memory, and otherwise what the line's last
command answered. `run_proc` cannot tell the two apart: a command whose answer is 1 is taken
for a page fault, and the next page of the script is loaded over one that was there. Of all
commands these are an `rm` that removes its file, a `read` that reads all it was asked for, a
`copy_in` without a free sector and an `exec` of four scripts. A nested `run` or `exec` that
comes to its end frees every process there is, the one whose line it was among them.
-/

namespace SimpleShell.A3

open SimpleShell.Shell
open SimpleShell.Fs (FileSys Reachable PlainName)

/-! ## The commands of a line -/

/-- The command that `interpreter` finds in its words, and the words after it. -/
def invoked (words : List CString) : Option (Verb × List CString) :=
  match words.map stripLineEnd with
  | [] => none
  | name :: args => (verb name).map (·, args)

def StartsProcess (words : List CString) : Prop := ∃ p ∈ invoked words, p.1.StartsProcess p.2

def Overruns (words : List CString) (w : World) : Prop := ∃ p ∈ invoked words, p.1.Overruns p.2 w

def AnswersOne (words : List CString) (w : World) : Prop :=
  ∃ p ∈ invoked words, p.1.AnswersOne p.2 w

def Quits (words : List CString) : Prop := ∃ p ∈ invoked words, p = (.quit, [])

/-- Of the segments of a line, in the state in which the first one is called: up to a `quit`
each of them stays within its buffers and starts no process, and without one the last of them
does not answer 1. -/
def LineOk (c : Sizes) (u : World → Unwritten) : List CString → ShellMemory → World → Prop
  | [], _, _ => True
  | segment :: rest, mem, w =>
      (Fits segment ∧ ¬StartsProcess (words segment) ∧ ¬Overruns (words segment) w) ∧
        if rest = [] then ¬AnswersOne (words segment) w
        else Quits (words segment) ∨ ∀ ret mem' w',
          command c u (words segment) mem w = .did ret mem' w' → LineOk c u rest mem' w'

section Commands

variable {c : Sizes} {u : World → Unwritten} {words : List CString} {mem mem' : ShellMemory}
  {w w' : World} {ret : Int}

theorem command_eq (c : Sizes) (u : World → Unwritten) (words : List CString) (mem : ShellMemory)
    (w : World) :
    (∃ v args, invoked words = some (v, args) ∧ command c u words mem w = branch c u args mem w v) ∨
    (invoked words = none ∧ ∃ e ∈ [Error.TOO_FEW_TOKENS, Error.BAD_COMMAND],
      command c u words mem w = .did (handleError e) mem w) := by
  unfold command invoked
  cases words.map stripLineEnd with
  | nil => exact .inr ⟨rfl, .TOO_FEW_TOKENS, by simp, rfl⟩
  | cons name args =>
      cases hverb : verb name with
      | none => exact .inr ⟨by simp [hverb], .BAD_COMMAND, by simp, by simp [hverb]⟩
      | some v => exact .inl ⟨v, args, by simp [hverb], by simp [hverb]⟩

/-- What a command answers, when it answers. -/
theorem command_did (h : command c u words mem w = .did ret mem' w') :
    (¬StartsProcess words ∧ ¬Overruns words w) ∧ (ret = 1 ↔ AnswersOne words w) ∧
      (ret = -1 ↔ Quits words) := by
  unfold StartsProcess Overruns AnswersOne Quits
  rcases command_eq c u words mem w with ⟨v, args, hinv, heq⟩ | ⟨hinv, e, he, heq⟩
  · rw [heq] at h
    have htold := branch_did h
    simp only [hinv, Option.mem_some_iff, exists_eq_left', Prod.mk.injEq]
    exact ⟨⟨htold.starts, htold.overruns⟩, htold.one, htold.quits⟩
  · rw [heq] at h
    obtain ⟨rfl, -, -⟩ := Effect.did.inj h
    rw [hinv]
    have herror : ∀ e ∈ [Error.TOO_FEW_TOKENS, Error.BAD_COMMAND],
        handleError e ≠ 1 ∧ handleError e ≠ -1 := by decide
    exact ⟨⟨nofun, nofun⟩, iff_of_false (herror e he).1 nofun, iff_of_false (herror e he).2 nofun⟩

theorem command_frames (h : command c u words mem w = .did ret mem' w') :
    ∀ i < c.FRAME_STORE_SIZE, mem' i = mem i := by
  rcases command_eq c u words mem w with ⟨v, args, -, heq⟩ | ⟨-, e, -, heq⟩
  · exact branch_frames (heq ▸ h)
  · rw [heq] at h
    obtain ⟨-, rfl, -⟩ := Effect.did.inj h
    exact fun _ _ => rfl

theorem command_scripts {names : List CString} (h : command c u words mem w = .scripts names w') :
    StartsProcess words := by
  rcases command_eq c u words mem w with ⟨v, args, hinv, heq⟩ | ⟨-, e, -, heq⟩
  · exact ⟨(v, args), hinv, branch_scripts (heq ▸ h)⟩
  · rw [heq] at h
    cases h

theorem command_crash (h : command c u words mem w = .crash) :
    StartsProcess words ∨ Overruns words w := by
  rcases command_eq c u words mem w with ⟨v, args, hinv, heq⟩ | ⟨-, e, -, heq⟩
  · exact (branch_crash (heq ▸ h)).imp (fun hs => ⟨(v, args), hinv, hs⟩) fun ho =>
      ⟨(v, args), hinv, ho⟩
  · rw [heq] at h
    cases h

end Commands

/-! ## Lines -/

section Lines

variable {c : Sizes} {u : World → Unwritten} {parse : CString → Kernel Machine → Int × Kernel Machine}
  {fuel : Nat} {k : Kernel Machine}

/-- The program has ended, or no process is left. -/
def Gone (k : Kernel Machine) : Prop := k.stopped = true ∨ k.allPcb = []

theorem runProcRR_gone (n : Nat) {k' : Kernel Machine} (h : runProcRR parse c n k = some k') :
    Gone k' := by
  induction n generalizing k with
  | zero =>
      unfold runProcRR at h
      split at h
      · next hstop => exact .inl (Option.some.inj h ▸ hstop)
      · split at h
        · exact .inr (Option.some.inj h ▸ rfl)
        · cases h
  | succ n ih =>
      unfold runProcRR at h
      split at h
      · next hstop => exact .inl (Option.some.inj h ▸ hstop)
      · split at h
        · exact .inr (Option.some.inj h ▸ rfl)
        · split at h
          · next heq _ =>
              obtain rfl := Nat.succ.inj heq
              exact ih h
          · cases h

theorem runScripts_gone (names : List CString) : Gone (runScripts c parse fuel names k).2 := by
  unfold runScripts
  cases h : runProcRR parse c fuel (startScripts c k names) with
  | none => exact .inl rfl
  | some k' => exact runProcRR_gone fuel h

/-- A call of `interpreter`: its command returns and leaves the kernel alone, or it is one of
those after which the process is gone. -/
theorem interpreter_cases (parse : CString → Kernel Machine → Int × Kernel Machine) (fuel : Nat)
    (words : List CString) :
    (∃ ret mem w, command c u words k.shellmemory k.rest.world = .did ret mem w ∧
      interpreter c u parse fuel words k =
        (ret, { k with shellmemory := mem, rest := { k.rest with world := w } })) ∨
    ((StartsProcess words ∨ Overruns words k.rest.world) ∧
      Gone (interpreter c u parse fuel words k).2) := by
  unfold interpreter
  cases h : command c u words k.shellmemory k.rest.world with
  | did ret mem w => exact .inl ⟨ret, mem, w, rfl, rfl⟩
  | scripts names w => exact .inr ⟨.inl (command_scripts h), runScripts_gone names⟩
  | crash => exact .inr ⟨command_crash h, .inl rfl⟩

theorem parseLoop_gone {token : Option CString} {ret : Int} (h : Gone k) :
    Gone (parseLoop c u fuel token ret k).2 := by
  induction fuel generalizing token ret k with
  | zero => exact .inl rfl
  | succ fuel ih =>
      cases token with
      | none => exact h
      | some token =>
          rw [parseLoop]
          split
          · have hnext : Gone (interpreter c u
                (fun ui k => parseLoop c u fuel (strtok ui).1 0 (setCursor k (strtok ui).2)) fuel
                (words token) k).2 := by
              rcases interpreter_cases (fun ui k =>
                  parseLoop c u fuel (strtok ui).1 0 (setCursor k (strtok ui).2)) fuel (words token)
                with ⟨ret', mem, w, -, heq⟩ | ⟨-, hgone⟩
              · rw [heq]
                exact h
              · exact hgone
            dsimp only
            split
            · exact hnext
            · split
              · exact hnext
              · exact ih hnext
          · exact .inl rfl

/-- All that is the kernel's is as before. -/
structure Untouched (c : Sizes) (k k' : Kernel Machine) : Prop where
  pcbs : k'.pcbs = k.pcbs
  queue : k'.queue = k.queue
  lruCache : k'.lruCache = k.lruCache
  allPcb : k'.allPcb = k.allPcb
  pidCounter : k'.pidCounter = k.pidCounter
  executed : k'.executed = k.executed
  frames : ∀ i < c.FRAME_STORE_SIZE, k'.shellmemory i = k.shellmemory i

theorem Untouched.trans {k₁ k₂ : Kernel Machine} (h : Untouched c k k₁) (h' : Untouched c k₁ k₂) :
    Untouched c k k₂ :=
  ⟨h'.pcbs.trans h.pcbs, h'.queue.trans h.queue, h'.lruCache.trans h.lruCache,
    h'.allPcb.trans h.allPcb, h'.pidCounter.trans h.pidCounter, h'.executed.trans h.executed,
    fun i hi => (h'.frames i hi).trans (h.frames i hi)⟩

/-- A command that starts no process leaves the kernel alone, whatever comes of it, and the line
that it stands in. -/
theorem interpreter_untouched (parse : CString → Kernel Machine → Int × Kernel Machine) (fuel : Nat)
    {words : List CString} (hstart : ¬StartsProcess words) :
    Untouched c k (interpreter c u parse fuel words k).2 ∧
      (interpreter c u parse fuel words k).2.rest.cursor = k.rest.cursor := by
  unfold interpreter
  cases h : command c u words k.shellmemory k.rest.world with
  | did ret mem w => exact ⟨⟨rfl, rfl, rfl, rfl, rfl, rfl, command_frames h⟩, rfl⟩
  | scripts names w => exact absurd (command_scripts h) hstart
  | crash => exact ⟨⟨rfl, rfl, rfl, rfl, rfl, rfl, fun _ _ => rfl⟩, rfl⟩

theorem setCursor_untouched (k : Kernel Machine) (cursor : CString) :
    Untouched c k (setCursor k cursor) :=
  ⟨rfl, rfl, rfl, rfl, rfl, rfl, fun _ _ => rfl⟩

theorem parseLoop_untouched {token : Option CString} {ret : Int}
    (hc : token = none → k.rest.cursor = [])
    (hstart : ∀ segment ∈ remaining (token, k.rest.cursor), ¬StartsProcess (words segment)) :
    Untouched c k (parseLoop c u fuel token ret k).2 := by
  have hstop : ∀ k, Untouched c k k.stop := fun _ => ⟨rfl, rfl, rfl, rfl, rfl, rfl, fun _ _ => rfl⟩
  induction fuel generalizing token ret k with
  | zero => exact hstop k
  | succ fuel ih =>
      cases token with
      | none => exact ⟨rfl, rfl, rfl, rfl, rfl, rfl, fun _ _ => rfl⟩
      | some token =>
          rw [remaining_some] at hstart
          obtain ⟨hfirst, hrest⟩ := List.forall_mem_cons.1 hstart
          rw [parseLoop]
          split
          · obtain ⟨hnext, hcursor⟩ := interpreter_untouched (c := c) (u := u) (k := k) (fun ui k =>
              parseLoop c u fuel (strtok ui).1 0 (setCursor k (strtok ui).2)) fuel hfirst
            dsimp only
            generalize interpreter c u _ fuel (words token) k = r at hnext hcursor ⊢
            rw [← hcursor] at hrest
            have hmoved := hnext.trans (setCursor_untouched r.2 (strtok r.2.rest.cursor).2)
            split
            · exact hnext
            · split
              · exact hmoved
              · exact hmoved.trans (ih strtok_none hrest)
          · exact hstop k

theorem parseInput_untouched {line : CString}
    (hstart : ∀ segment ∈ segments line, ¬StartsProcess (words segment)) :
    Untouched c k (parseInput c u fuel line k).2 := by
  rw [← remaining_strtok] at hstart
  exact (setCursor_untouched k (strtok line).2).trans (parseLoop_untouched strtok_none hstart)

/-- What a line whose process goes on as it should leaves: all that is the kernel's. -/
structure Went (c : Sizes) (k : Kernel Machine) (r : Int × Kernel Machine) : Prop
    extends Untouched c k r.2 where
  answers : r.1 ≠ 1
  stopped : r.2.stopped = k.stopped

/-- One turn of the loop of `parseInput`. -/
theorem parseLoop_token (fuel : Nat) {token : CString} (ret : Int) (hrun : k.stopped = false)
    (hfits : Fits token) :
    (∃ ret' mem w, command c u (words token) k.shellmemory k.rest.world = .did ret' mem w ∧
      parseLoop c u (fuel + 1) (some token) ret k =
        let k' := setCursor { k with shellmemory := mem, rest := { k.rest with world := w } }
          (strtok k.rest.cursor).2
        if ret' = -1 then (-1, k') else parseLoop c u fuel (strtok k.rest.cursor).1 ret' k') ∨
    ((StartsProcess (words token) ∨ Overruns (words token) k.rest.world) ∧
      Gone (parseLoop c u (fuel + 1) (some token) ret k).2) := by
  rw [parseLoop, if_pos hfits]
  dsimp only
  rcases interpreter_cases (c := c) (u := u) (k := k) (fun ui k =>
      parseLoop c u fuel (strtok ui).1 0 (setCursor k (strtok ui).2)) fuel (words token)
    with ⟨ret', mem, w, hdid, heq⟩ | ⟨hwhy, hgone⟩
  · rw [heq]
    dsimp only
    rw [if_neg (by rw [hrun]; decide)]
    exact .inl ⟨ret', mem, w, hdid, rfl⟩
  · refine .inr ⟨hwhy, ?_⟩
    split
    · exact hgone
    · split
      · exact hgone
      · exact parseLoop_gone hgone

/-- If the line is as it should be, so is what it leaves. -/
theorem parseLoop_went {token : Option CString} {ret : Int} (hrun : k.stopped = false)
    (hc : token = none → k.rest.cursor = [])
    (hfuel : (remaining (token, k.rest.cursor)).length < fuel)
    (hret : remaining (token, k.rest.cursor) = [] → ret ≠ 1)
    (hok : LineOk c u (remaining (token, k.rest.cursor)) k.shellmemory k.rest.world) :
    Went c k (parseLoop c u fuel token ret k) := by
  induction fuel generalizing token ret k with
  | zero => exact absurd hfuel (Nat.not_lt_zero _)
  | succ fuel ih =>
      cases token with
      | none =>
          have hnil : remaining (none, k.rest.cursor) = [] := by rw [hc rfl]; rfl
          exact ⟨⟨rfl, rfl, rfl, rfl, rfl, rfl, fun _ _ => rfl⟩, hret hnil, rfl⟩
      | some token =>
          rw [remaining_some] at hfuel hok
          obtain ⟨⟨hfits, hstart, hover⟩, hrest⟩ := hok
          rcases parseLoop_token (c := c) (u := u) fuel ret hrun hfits with
            ⟨ret', mem, w, hdid, heq⟩ | ⟨hwhy, -⟩
          · obtain ⟨-, hone, hquit⟩ := command_did hdid
            have hframes := command_frames hdid
            rw [heq]
            dsimp only
            split
            · exact ⟨⟨rfl, rfl, rfl, rfl, rfl, rfl, hframes⟩, (by decide : (-1 : Int) ≠ 1), rfl⟩
            · next hgo =>
                have hlast : remaining (strtok k.rest.cursor) = [] → ret' ≠ 1 := fun hnil => by
                  rw [if_pos hnil] at hrest
                  exact fun h => hrest (hone.1 h)
                have hok' : LineOk c u (remaining (strtok k.rest.cursor)) mem w := by
                  split at hrest
                  · next hnil =>
                      rw [hnil]
                      trivial
                  · exact (hrest.resolve_left fun h => hgo (hquit.2 h)) ret' mem w hdid
                have hwent := ih
                  (k := setCursor { k with shellmemory := mem, rest := { k.rest with world := w } }
                    (strtok k.rest.cursor).2)
                  hrun strtok_none (Nat.lt_of_succ_lt_succ hfuel) hlast hok'
                have hdone : Untouched c k (setCursor
                    { k with shellmemory := mem, rest := { k.rest with world := w } }
                    (strtok k.rest.cursor).2) := ⟨rfl, rfl, rfl, rfl, rfl, rfl, hframes⟩
                exact ⟨hdone.trans hwent.toUntouched, hwent.answers, hwent.stopped⟩
          · exact absurd hwhy (not_or.2 ⟨hstart, hover⟩)

theorem parseInput_went {line : CString} (hrun : k.stopped = false)
    (hfuel : (segments line).length < fuel)
    (hok : LineOk c u (segments line) k.shellmemory k.rest.world) :
    Went c k (parseInput c u fuel line k) := by
  rw [← remaining_strtok] at hfuel hok
  have hwent := parseLoop_went (c := c) (u := u) (k := setCursor k (strtok line).2) hrun strtok_none
    hfuel (fun _ => (by decide : (0 : Int) ≠ 1)) hok
  exact ⟨(setCursor_untouched k (strtok line).2).trans hwent.toUntouched, hwent.answers,
    hwent.stopped⟩

/-- If it is not, it answers 1, or the process is gone. -/
theorem parseLoop_fails {token : Option CString} {ret : Int} (hrun : k.stopped = false)
    (hc : token = none → k.rest.cursor = [])
    (hbad : ¬LineOk c u (remaining (token, k.rest.cursor)) k.shellmemory k.rest.world) :
    (parseLoop c u fuel token ret k).1 = 1 ∨ Gone (parseLoop c u fuel token ret k).2 := by
  induction fuel generalizing token ret k with
  | zero => exact .inr (.inl rfl)
  | succ fuel ih =>
      cases token with
      | none =>
          rw [show remaining (none, k.rest.cursor) = [] by rw [hc rfl]; rfl] at hbad
          exact absurd trivial hbad
      | some token =>
          rw [remaining_some] at hbad
          by_cases hfits : Fits token
          · rcases parseLoop_token (c := c) (u := u) fuel ret hrun hfits with
              ⟨ret', mem, w, hdid, heq⟩ | ⟨-, hgone⟩
            · obtain ⟨hstays, hone, hquit⟩ := command_did hdid
              rw [heq]
              dsimp only
              have hno := mt (And.intro ⟨hfits, hstays⟩) hbad
              by_cases hlast : remaining (strtok k.rest.cursor) = []
              · -- the loop ends with the answer of this command
                rw [if_pos hlast, not_not] at hno
                obtain rfl := hone.2 hno
                have htoken : (strtok k.rest.cursor).1 = none :=
                  Option.toList_eq_nil_iff.1 (List.append_eq_nil_iff.1 hlast).1
                have hnone : strtok k.rest.cursor = (none, []) :=
                  Prod.ext htoken (strtok_none htoken)
                rw [if_neg (by decide), hnone]
                cases fuel with
                | zero => exact .inr (.inl rfl)
                | succ fuel => exact .inl rfl
              · rw [if_neg hlast, not_or] at hno
                obtain ⟨hnoquit, hno⟩ := hno
                rw [if_neg fun h => hnoquit (hquit.1 h)]
                refine ih hrun strtok_none fun hok => hno fun ret'' mem'' w'' hdid' => ?_
                rw [hdid] at hdid'
                obtain ⟨-, rfl, rfl⟩ := Effect.did.inj hdid'
                exact hok
            · exact .inr hgone
          · rw [parseLoop, if_neg hfits]
            exact .inr (.inl rfl)

end Lines

/-! ## run_proc -/

section RunProc

variable {σ : Type}

/-- The text of line `j` of page `i`. -/
def lineText (pid i j : Nat) (k : Kernel σ) : CString :=
  memGetValueAt k.shellmemory ((k.page (pid, i)).index j)

/-- A page fault is one: the page-fault path is taken for a line that is not resident. One
that is resident is run once, its process is there afterwards, and no page of it moves. -/
structure FaultReported (parseInput : CString → Kernel σ → Int × Kernel σ) (c : Sizes)
    (pid i j : Nat) (k : Kernel σ) : Prop where
  fault : (runProc parseInput c pid i j k).1 = 1 ↔ (k.page (pid, i)).validBit j = false
  back : (k.page (pid, i)).validBit j = true →
    (cpuRun parseInput pid i j k).2.stopped = false ∧
      pid ∈ (cpuRun parseInput pid i j k).2.allPcb
  once : (k.page (pid, i)).validBit j = true →
    (∃ nested, (runProc parseInput c pid i j k).2.executed =
        k.executed ++ (pid, lineText pid i j k) :: nested ∧ ∀ e ∈ nested, e.1 ≠ pid) ∧
      ((runProc parseInput c pid i j k).2.pcbs pid).size = (k.pcbs pid).size - 1
  table : (k.page (pid, i)).validBit j = true → ∀ n,
    (runProc parseInput c pid i j k).2.page (pid, n) = k.page (pid, n)

variable {parseInput : CString → Kernel σ → Int × Kernel σ} {c : Sizes} {pid i j : Nat}
  {k : Kernel σ}

/-- The kernel in which the line is passed to `parseInput`. -/
def lineStart (pid i j : Nat) (k : Kernel σ) : Kernel σ :=
  { k with executed := k.executed ++ [(pid, lineText pid i j k)] }

theorem cpuRun_resident (parseInput : CString → Kernel σ → Int × Kernel σ)
    (h : (k.page (pid, i)).validBit j = true) :
    let r := parseInput (lineText pid i j k) (lineStart pid i j k)
    cpuRun parseInput pid i j k = (r.1, r.2.setPcb pid { r.2.pcbs pid with
      programCounter := Function.update (r.2.pcbs pid).programCounter i
        ((r.2.pcbs pid).programCounter i + 1)
      size := (r.2.pcbs pid).size - 1 }) := by
  unfold cpuRun
  rw [if_neg (by simp [h])]
  rfl

end RunProc

section PageFault

variable {c : Sizes} {u : World → Unwritten} {fuel pid i j : Nat} {k : Kernel Machine}

/-- What happens to a line that is not as it should be is no page fault, or the end of the
process. -/
theorem FaultReported.lineOk (hrun : k.stopped = false)
    (hbit : (k.page (pid, i)).validBit j = true)
    (h : FaultReported (parseInput c u fuel) c pid i j k) :
    LineOk c u (segments (lineText pid i j k)) k.shellmemory k.rest.world := by
  by_contra hbad
  have hcpu := cpuRun_resident (parseInput c u fuel) hbit
  dsimp only at hcpu
  rw [← remaining_strtok] at hbad
  have hfails : (parseInput c u fuel (lineText pid i j k) (lineStart pid i j k)).1 = 1 ∨
      Gone (parseInput c u fuel (lineText pid i j k) (lineStart pid i j k)).2 :=
    parseLoop_fails hrun strtok_none hbad
  obtain ⟨hruns, hlive⟩ := h.back hbit
  rcases hfails with hone | hstop | hempty
  · have hfault : (runProc (parseInput c u fuel) c pid i j k).1 = 1 := by
      unfold runProc
      dsimp only
      rw [if_pos (by rw [hcpu]; exact hone)]
    rw [h.fault.1 hfault] at hbit
    cases hbit
  · rw [hcpu] at hruns
    rw [show (parseInput c u fuel (lineText pid i j k) (lineStart pid i j k)).2.stopped = false
      from hruns] at hstop
    cases hstop
  · rw [hcpu] at hlive
    have hlive : pid ∈ (parseInput c u fuel (lineText pid i j k) (lineStart pid i j k)).2.allPcb :=
      hlive
    rw [hempty] at hlive
    cases hlive

end PageFault

end SimpleShell.A3
