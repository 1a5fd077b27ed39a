import Mathlib.Data.List.Basic
import SimpleShell.Shell.Memory

/-!
# One-liners

`parseInput` cuts its line at semicolons with `strtok`, whose cursor is one
hidden variable of the whole program. A command may bring `parseInput` in again,
through `run_proc_RR` and `cpu_run`, while the outer call is still between two of
its tokens. What `interpreter` does is seen here only as far as it matters to
that: an `Activity` is the lines it passes to `cpu_run` one after the other, and
what it returns in the end.
-/

namespace SimpleShell.Shell

/-! ## strtok -/

/-- A token and the new cursor; the delimiter is `;`. `strtok(ui, ";")` starts
at `ui`, `strtok(NULL, ";")` at the cursor the last call left. -/
def strtok (cursor : CString) : Option CString × CString :=
  let s := cursor.dropWhile (· == ';')
  if s = [] then (none, [])
  else (some (s.takeWhile (· != ';')), (s.dropWhile (· != ';')).drop 1)

/-- The loop that extracts words, with the letters of the word so far. Only the
spaces at the start are skipped; of two spaces in a row the second ends an empty
word. -/
def extractWords : CString → CString → List CString
  | [], tmp => [tmp]
  | letter :: rest, tmp =>
      if letter = ' ' then tmp :: if rest = [] then [] else extractWords rest []
      else extractWords rest (tmp ++ [letter])

def words (token : CString) : List CString :=
  let token := token.dropWhile (· == ' ')
  if token = [] then [] else extractWords token []

/-- `token` has 1000 places and the array `words` 100. -/
def Fits (token : CString) : Prop := token.length < 1000 ∧ (words token).length ≤ 100

instance (token : CString) : Decidable (Fits token) := by
  unfold Fits
  infer_instance

/-! ## parseInput -/

variable {σ : Type}

/-- What a call of `interpreter` does, `σ` being the state of the rest of the
program. -/
inductive Activity (σ : Type) where
  | done (ret : Int) (s : σ)
  | cpuRun (line : CString) (s : σ) (resume : Int → σ → Activity σ)

/-- What is there after a call: the value returned, the cursor and the state. -/
structure Returned (σ : Type) where
  ret : Int
  cursor : CString
  state : σ

/-- What a call of `parseInput` does: the words it calls `interpreter` on, in
order, whether any command returned -1 while it was active, and what it returns,
if it does. -/
structure Outcome (σ : Type) where
  calls : List (List CString)
  quits : Bool
  returned : Option (Returned σ)

/-- Carrying out an activity; `parse` is the nested `parseInput`. -/
def Activity.run (parse : σ → CString → Outcome σ) :
    Activity σ → CString → Bool × Option (Returned σ)
  | .done ret s, cursor => (ret == -1, some ⟨ret, cursor, s⟩)
  | .cpuRun line s resume, _ =>
      let o := parse s line
      match o.returned with
      | none => (o.quits, none)
      | some r =>
          let next := (resume r.ret r.state).run parse r.cursor
          (o.quits || next.1, next.2)

/-- The loop over the tokens, with the last token, the cursor and the last
return value. `fuel` bounds the depth of the calls and the length of the loop.
A token that does not fit its arrays is the end of the program. -/
def parseLoop (interpreter : σ → List CString → Activity σ) :
    Nat → Option CString → CString → σ → Int → Outcome σ
  | 0, _, _, _, _ => ⟨[], false, none⟩
  | _ + 1, none, cursor, s, ret => ⟨[], false, some ⟨ret, cursor, s⟩⟩
  | fuel + 1, some token, cursor, s, _ =>
      if Fits token then
        let parse := fun s ui => parseLoop interpreter fuel (strtok ui).1 (strtok ui).2 s 0
        let did := (interpreter s (words token)).run parse cursor
        match did.2 with
        | none => ⟨[words token], did.1, none⟩
        | some r =>
            let next := strtok r.cursor
            if r.ret = -1 then ⟨[words token], true, some { r with cursor := next.2 }⟩
            else
              let o := parseLoop interpreter fuel next.1 next.2 r.state r.ret
              { o with calls := words token :: o.calls, quits := did.1 || o.quits }
      else ⟨[], false, none⟩

def parseInput (interpreter : σ → List CString → Activity σ) (fuel : Nat) (s : σ)
    (ui : CString) : Outcome σ :=
  parseLoop interpreter fuel (strtok ui).1 (strtok ui).2 s 0

/-! ## The segments of a line -/

/-- What stands between the semicolons of a line, empty segments dropped. -/
def segments (ui : CString) : List CString := (ui.splitOn ';').filter (· ≠ [])

theorem segments_append_delim (front ui : CString) :
    segments (front ++ ';' :: ui) = segments front ++ segments ui := by
  unfold segments
  rw [List.splitOn_append_cons_self, List.filter_append]

theorem segments_whole {ui : CString} (h : ';' ∉ ui) (hne : ui ≠ []) : segments ui = [ui] := by
  unfold segments
  rw [List.splitOn_eq_singleton h]
  simp [hne]

@[simp] theorem segments_nil : segments [] = [] := rfl

theorem segments_dropWhile (ui : CString) :
    segments (ui.dropWhile (· == ';')) = segments ui := by
  induction ui with
  | nil => rfl
  | cons a ui ih =>
      by_cases ha : a = ';'
      · subst ha
        rw [List.dropWhile_cons_of_pos (by simp), ih]
        exact (segments_append_delim [] ui).symm
      · rw [List.dropWhile_cons_of_neg (by simpa using ha)]

/-- The segments that a token and the cursor behind it still stand for. -/
def remaining (next : Option CString × CString) : List CString :=
  next.1.toList ++ segments next.2

/-- `strtok` takes the first segment off the line. -/
theorem remaining_strtok (ui : CString) : remaining (strtok ui) = segments ui := by
  rw [← segments_dropWhile ui]
  unfold strtok remaining
  cases hs : ui.dropWhile (· == ';') with
  | nil => simp
  | cons a t =>
      have ha : a ≠ ';' := by
        have hhead := List.head?_dropWhile_not (· == ';') ui
        rw [hs] at hhead
        simpa using hhead
      have hfront : ';' ∉ (a :: t).takeWhile (· != ';') := fun hmem => by
        simpa using List.all_eq_true.1 (List.all_takeWhile (l := a :: t)) _ hmem
      have hne : (a :: t).takeWhile (· != ';') ≠ [] := by
        rw [List.takeWhile_cons_of_pos (by simpa using ha)]
        exact List.cons_ne_nil _ _
      have hsplit := (List.takeWhile_append_dropWhile (p := (· != ';')) (l := a :: t)).symm
      simp only [reduceIte, List.cons_ne_nil, Option.toList_some]
      cases hrest : (a :: t).dropWhile (· != ';') with
      | nil =>
          rw [hrest, List.append_nil] at hsplit
          rw [List.drop_nil, segments_nil, List.append_nil, ← segments_whole hfront hne,
            ← hsplit]
      | cons b rest =>
          have hb : b = ';' := by
            have hhead := List.head?_dropWhile_not (· != ';') (a :: t)
            rw [hrest] at hhead
            simpa using hhead
          subst hb
          rw [List.drop_one, List.tail_cons, ← segments_whole hfront hne,
            ← segments_append_delim, ← hrest, ← hsplit]

/-- No token, no cursor. -/
theorem strtok_none {ui : CString} (h : (strtok ui).1 = none) : (strtok ui).2 = [] := by
  simp only [strtok] at h ⊢
  split at h
  · next hs => rw [if_pos hs]
  · cases h

variable {interpreter : σ → List CString → Activity σ}

/-- One token: the loop stops there, or it goes on with the next one. -/
theorem parseLoop_token {fuel : Nat} {token cursor : CString} {s : σ} {ret : Int}
    (hfits : Fits token) (hq : (parseLoop interpreter (fuel + 1) (some token) cursor s ret).quits =
      false) :
    let did := (interpreter s (words token)).run (parseInput interpreter fuel) cursor
    did.1 = false ∧
      ((did.2 = none ∧ parseLoop interpreter (fuel + 1) (some token) cursor s ret =
          ⟨[words token], false, none⟩) ∨
        ∃ r, did.2 = some r ∧ r.ret ≠ -1 ∧
          let o := parseLoop interpreter fuel (strtok r.cursor).1 (strtok r.cursor).2 r.state r.ret
          o.quits = false ∧ parseLoop interpreter (fuel + 1) (some token) cursor s ret =
            { o with calls := words token :: o.calls }) := by
  intro did
  have heq : parseLoop interpreter (fuel + 1) (some token) cursor s ret =
      match did.2 with
      | none => ⟨[words token], did.1, none⟩
      | some r =>
          if r.ret = -1 then
            ⟨[words token], true, some { r with cursor := (strtok r.cursor).2 }⟩
          else
            let o := parseLoop interpreter fuel (strtok r.cursor).1 (strtok r.cursor).2 r.state r.ret
            { o with calls := words token :: o.calls, quits := did.1 || o.quits } := by
    rw [parseLoop, if_pos hfits]
    rfl
  rw [heq] at hq ⊢
  cases hr : did.2 with
  | none =>
      simp only [hr] at hq ⊢
      exact ⟨hq, .inl ⟨trivial, by rw [hq]⟩⟩
  | some r =>
      simp only [hr] at hq ⊢
      by_cases hret : r.ret = -1
      · rw [if_pos hret] at hq
        cases hq
      · rw [if_neg hret] at hq ⊢
        simp only [Bool.or_eq_false_iff] at hq
        exact ⟨hq.1, .inr ⟨r, rfl, hret, hq.2, by rw [hq.1, Bool.false_or]⟩⟩

theorem remaining_some (token cursor : CString) :
    remaining (some token, cursor) = token :: remaining (strtok cursor) := by
  rw [remaining_strtok]
  rfl

/-- Whatever comes back from the lines it runs, the command does not return -1. -/
def Activity.NeverQuits : Activity σ → Prop
  | .done ret _ => ret ≠ -1
  | .cpuRun _ _ resume => ∀ ret s, (resume ret s).NeverQuits

theorem Activity.NeverQuits.run {parse : σ → CString → Outcome σ}
    (hparse : ∀ s ui, (parse s ui).quits = false) {act : Activity σ} (h : act.NeverQuits)
    (cursor : CString) :
    (act.run parse cursor).1 = false ∧ ∀ r ∈ (act.run parse cursor).2, r.ret ≠ -1 := by
  induction act generalizing cursor with
  | done ret s =>
      refine ⟨beq_eq_false_iff_ne.2 h, fun r hr => ?_⟩
      obtain rfl := Option.some.inj hr
      exact h
  | cpuRun line s resume ih =>
      simp only [Activity.run]
      cases (parse s line).returned with
      | none => exact ⟨hparse s line, nofun⟩
      | some r' =>
          obtain ⟨hquit, hret⟩ := ih r'.ret r'.state (h _ _) r'.cursor
          simp only [hparse s line, Bool.false_or]
          exact ⟨hquit, hret⟩

end SimpleShell.Shell
