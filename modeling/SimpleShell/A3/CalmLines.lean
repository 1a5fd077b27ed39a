import SimpleShell.A3.PageFault
import SimpleShell.A3.Paging

/-!
# Lines that scripts can be made of

What `run_proc_RR` does with a script is right for lines that answer something other than 1 and
leave the kernel alone. In whatever state they are run, that is so of lines of calm commands:
all but `run`, `exec`, `rm`, `read` and `copy_in`, and these too where they are refused.
-/

namespace SimpleShell.A3

open SimpleShell.Shell

/-- Whatever the state, the command starts no process, overruns no buffer and does not
answer 1. -/
def Verb.Calm (args : List CString) : Verb → Prop
  | .set => SetFits (args.drop 1)
  | .run | .rm | .copy_in => args.length ≠ 1
  | .echo => args ≠ []
  | .exec => args = [] ∨ 4 < args.length
  | .read => args.length ≠ 2
  | _ => True

instance (args : List CString) (v : Verb) : Decidable (v.Calm args) := by
  cases v <;> (unfold Verb.Calm; infer_instance)

/-- The segments of the line fit the arrays of `parseInput`, and their commands are calm. -/
def CalmLine (line : CString) : Prop :=
  ∀ segment ∈ segments line, Fits segment ∧ ∀ p ∈ invoked (words segment), p.1.Calm p.2

instance (line : CString) : Decidable (CalmLine line) := by
  unfold CalmLine
  infer_instance

section Calm

variable {c : Sizes} {u : World → Unwritten} {fuel : Nat} {k : Kernel Machine}

theorem Verb.Calm.starts {v : Verb} {args : List CString} (h : v.Calm args) :
    ¬v.StartsProcess args := by
  cases v with
  | run => exact h
  | exec =>
      rcases h with rfl | hlen
      · exact fun hs => absurd hs.1 (by decide)
      · exact fun hs => by have := hs.2; omega
  | _ => exact id

theorem Verb.Calm.told {v : Verb} {args : List CString} (h : v.Calm args) (w : World) :
    ¬v.StartsProcess args ∧ ¬v.Overruns args w ∧ ¬v.AnswersOne args w := by
  refine ⟨h.starts, ?_⟩
  cases v with
  | set =>
      refine ⟨?_, id⟩
      rintro ⟨var, word, words, rfl, -, hno⟩
      exact hno h
  | rm =>
      refine ⟨id, ?_⟩
      rintro ⟨name, rfl, -⟩
      exact h rfl
  | copy_in =>
      refine ⟨id, ?_⟩
      rintro ⟨name, rfl, -⟩
      exact h rfl
  | echo => exact ⟨h, id⟩
  | exec =>
      rcases h with rfl | hlen
      · exact ⟨fun ho => absurd ho.1 (by decide), (by decide : ¬([] : List CString).length = 4)⟩
      · exact ⟨fun ho => by have := ho.1; omega, fun ha => by have : args.length = 4 := ha; omega⟩
  | read =>
      refine ⟨?_, ?_⟩
      · rintro ⟨name, size, rfl, -⟩
        exact h rfl
      · rintro ⟨name, size, rfl, -⟩
        exact h rfl
  | _ => exact ⟨id, id⟩

/-- In whatever state, a line of calm commands is as it should be. -/
theorem CalmLine.lineOk {l : List CString}
    (h : ∀ segment ∈ l, Fits segment ∧ ∀ p ∈ invoked (words segment), p.1.Calm p.2)
    (mem : ShellMemory) (w : World) : LineOk c u l mem w := by
  induction l generalizing mem w with
  | nil => trivial
  | cons segment rest ih =>
      obtain ⟨⟨hfits, hcalm⟩, hrest⟩ := List.forall_mem_cons.1 h
      refine ⟨⟨hfits, fun ⟨p, hp, hs⟩ => ((hcalm p hp).told w).1 hs,
        fun ⟨p, hp, ho⟩ => ((hcalm p hp).told w).2.1 ho⟩, ?_⟩
      split
      · exact fun ⟨p, hp, ha⟩ => ((hcalm p hp).told w).2.2 ha
      · exact .inr fun _ mem' w' _ => ih hrest mem' w'

/-- Once the program has ended, the first command is the last one. -/
theorem parseLoop_ended (fuel : Nat) {token : CString} (ret : Int) (hstop : k.stopped = true)
    (hfits : Fits token) (hcalm : ∀ p ∈ invoked (words token), p.1.Calm p.2) :
    Went c k (parseLoop c u (fuel + 1) (some token) ret k) := by
  rw [parseLoop, if_pos hfits]
  dsimp only
  rcases interpreter_cases (c := c) (u := u) (k := k) (fun ui k =>
      parseLoop c u fuel (strtok ui).1 0 (setCursor k (strtok ui).2)) fuel (words token)
    with ⟨ret', mem, w, hdid, heq⟩ | ⟨hwhy, -⟩
  · rw [heq]
    dsimp only
    rw [if_pos hstop]
    refine ⟨⟨rfl, rfl, rfl, rfl, rfl, rfl, command_frames hdid⟩, fun h => ?_, rfl⟩
    obtain ⟨p, hp, ha⟩ := (command_did hdid).2.1.1 h
    exact ((hcalm p hp).told _).2.2 ha
  · rcases hwhy with ⟨p, hp, hs⟩ | ⟨p, hp, ho⟩
    · exact absurd hs ((hcalm p hp).told k.rest.world).1
    · exact absurd ho ((hcalm p hp).told k.rest.world).2.1

theorem parseInput_calm {line : CString} (h : CalmLine line)
    (hfuel : (segments line).length < fuel) : Went c k (parseInput c u fuel line k) := by
  cases hstop : k.stopped with
  | false => exact parseInput_went hstop hfuel (CalmLine.lineOk h _ _)
  | true =>
      obtain ⟨n, rfl⟩ := Nat.exists_eq_add_one_of_ne_zero (Nat.ne_of_gt (Nat.zero_lt_of_lt hfuel))
      unfold parseInput
      cases htoken : (strtok line).1 with
      | none => exact ⟨setCursor_untouched k _, (by decide : (0 : Int) ≠ 1), rfl⟩
      | some token =>
          have hin : token ∈ segments line := by
            rw [← remaining_strtok, remaining, htoken]
            exact List.mem_append_left _ (List.mem_singleton_self token)
          have hwent := parseLoop_ended (c := c) (u := u) (k := setCursor k (strtok line).2) n 0
            hstop (h token hin).1 (h token hin).2
          exact ⟨(setCursor_untouched k _).trans hwent.toUntouched, hwent.answers, hwent.stopped⟩

/-- The interpreter is ordinary on lines of calm commands. -/
theorem parseInput_ordinary {lines : CString → Prop}
    (h : ∀ line, lines line → CalmLine line ∧ (segments line).length < fuel) :
    Ordinary lines c (parseInput c u fuel) := by
  have hwent : ∀ line, lines line → ∀ k, Went c k (parseInput c u fuel line k) :=
    fun line hline k => parseInput_calm (h line hline).1 (h line hline).2
  exact ⟨fun line hl k => (hwent line hl k).answers, fun line hl k => (hwent line hl k).pcbs,
    fun line hl k => (hwent line hl k).queue, fun line hl k => (hwent line hl k).lruCache,
    fun line hl k => (hwent line hl k).allPcb, fun line hl k => (hwent line hl k).executed,
    fun line hl k => (hwent line hl k).stopped, fun line hl k => (hwent line hl k).frames⟩

theorem parseInput_keepsCounter {lines : CString → Prop}
    (h : ∀ line, lines line → CalmLine line ∧ (segments line).length < fuel) :
    KeepsCounter lines (parseInput c u fuel) :=
  fun line hline _ => (parseInput_calm (h line hline).1 (h line hline).2).pidCounter

end Calm

end SimpleShell.A3
