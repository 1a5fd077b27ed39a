import Mathlib.Logic.Function.Basic

/-!
# Machines that answer

A machine takes one command at a time, answers it and goes on in its next state. `Simulates`
relates the states of two machines so that they answer alike, for one step, and with it for
every run. A machine of cells gives each command one cell to look at and to change: what the
commands on a cell are answered is then what they would be answered had there been no others.
-/

namespace SimpleShell.Lib

variable {σ τ κ α ι ν : Type}

structure Machine (σ κ α : Type) where
  step : σ → κ → α × σ

namespace Machine

variable {M : Machine σ κ α} {A : Machine τ κ α} {s : σ} {t : τ} {k : κ} {ks ls : List κ}
  {ok : σ → κ → Prop} {R : σ → τ → Prop}

/-- The answers to a list of commands, and the state behind them. -/
def run (M : Machine σ κ α) : σ → List κ → List α × σ
  | s, [] => ([], s)
  | s, k :: ks =>
      let r := M.step s k
      let rest := M.run r.2 ks
      (r.1 :: rest.1, rest.2)

@[simp] theorem run_nil : M.run s [] = ([], s) := rfl

@[simp] theorem run_cons : M.run s (k :: ks) =
    ((M.step s k).1 :: (M.run (M.step s k).2 ks).1, (M.run (M.step s k).2 ks).2) := rfl

theorem run_append : M.run s (ks ++ ls) =
    ((M.run s ks).1 ++ (M.run (M.run s ks).2 ls).1, (M.run (M.run s ks).2 ls).2) := by
  induction ks generalizing s with
  | nil => rfl
  | cons k ks ih => rw [List.cons_append, run_cons, ih, run_cons, List.cons_append]

/-! ## Simulation -/

/-- Each command is given in a state that allows it. -/
def Allowed (M : Machine σ κ α) (ok : σ → κ → Prop) : σ → List κ → Prop
  | _, [] => True
  | s, k :: ks => ok s k ∧ M.Allowed ok (M.step s k).2 ks

theorem allowed_append : M.Allowed ok s (ks ++ ls) ↔
    M.Allowed ok s ks ∧ M.Allowed ok (M.run s ks).2 ls := by
  induction ks generalizing s with
  | nil => exact (and_iff_right trivial).symm
  | cons k ks ih =>
      rw [List.cons_append, Allowed, Allowed, ih, run_cons]
      exact and_assoc.symm

/-- Where `R` relates the states and the command is allowed, both machines answer the same and
`R` relates the states behind. -/
def Simulates (M : Machine σ κ α) (A : Machine τ κ α) (ok : σ → κ → Prop)
    (R : σ → τ → Prop) : Prop :=
  ∀ s t k, R s t → ok s k →
    (M.step s k).1 = (A.step t k).1 ∧ R (M.step s k).2 (A.step t k).2

theorem Simulates.run (h : M.Simulates A ok R) (hR : R s t) (hok : M.Allowed ok s ks) :
    (M.run s ks).1 = (A.run t ks).1 ∧ R (M.run s ks).2 (A.run t ks).2 := by
  induction ks generalizing s t with
  | nil => exact ⟨rfl, hR⟩
  | cons k ks ih =>
      obtain ⟨hanswer, hnext⟩ := h s t k hR hok.1
      obtain ⟨hrest, hend⟩ := ih hnext hok.2
      rw [run_cons, run_cons, hanswer, hrest]
      exact ⟨rfl, hend⟩

/-! ## Cells -/

section Cells

variable [DecidableEq ι] (key : κ → ι) (cell : κ → ν → α × ν)

/-- The machine on one cell. -/
def one : Machine ν κ α := ⟨fun v k => cell k v⟩

/-- The machine on all of them. -/
def cells : Machine (ι → ν) κ α where
  step f k := ((cell k (f (key k))).1, Function.update f (key k) (cell k (f (key k))).2)

/-- The answers to the commands on cell `i`. -/
def answersAt (i : ι) : List κ → List α → List α
  | k :: ks, a :: as => if key k = i then a :: answersAt i ks as else answersAt i ks as
  | _, _ => []

variable {key cell}

/-- Cell `i` of a run is a run of its own, on the commands that are about it. -/
theorem cells_run (f : ι → ν) (ks : List κ) (i : ι) :
    answersAt key i ks ((cells key cell).run f ks).1 =
        ((one cell).run (f i) (ks.filter fun k => key k = i)).1 ∧
      ((cells key cell).run f ks).2 i =
        ((one cell).run (f i) (ks.filter fun k => key k = i)).2 := by
  induction ks generalizing f with
  | nil => exact ⟨rfl, rfl⟩
  | cons k ks ih =>
      obtain ⟨hanswers, hend⟩ := ih ((cells key cell).step f k).2
      rw [run_cons, answersAt]
      by_cases hk : key k = i
      · have hcell : ((cells key cell).step f k).2 i = (cell k (f i)).2 := by
          rw [← hk]
          exact Function.update_self ..
        rw [hcell] at hanswers hend
        rw [if_pos hk, List.filter_cons_of_pos (by simpa using hk), run_cons, hanswers, hend]
        refine ⟨?_, rfl⟩
        rw [← hk]
        rfl
      · have hcell : ((cells key cell).step f k).2 i = f i :=
          Function.update_of_ne (Ne.symm hk) ..
        rw [hcell] at hanswers hend
        rw [if_neg hk, List.filter_cons_of_neg (by simpa using hk)]
        exact ⟨hanswers, hend⟩

/-- A run on cell `i` alone. -/
theorem cells_run_own {f : ι → ν} {i : ι} (hks : ∀ k ∈ ks, key k = i) :
    ((cells key cell).run f ks).1 = ((one cell).run (f i) ks).1 ∧
      ((cells key cell).run f ks).2 i = ((one cell).run (f i) ks).2 := by
  induction ks generalizing f with
  | nil => exact ⟨rfl, rfl⟩
  | cons k ks ih =>
      have hk := hks k List.mem_cons_self
      have hcell : ((cells key cell).step f k).2 i = (cell k (f i)).2 := by
        rw [← hk]
        exact Function.update_self ..
      obtain ⟨hanswers, hend⟩ := ih (f := ((cells key cell).step f k).2) fun l hl =>
        hks l (List.mem_cons_of_mem _ hl)
      rw [hcell] at hanswers hend
      rw [run_cons, run_cons, hanswers, hend, ← hk]
      exact ⟨rfl, rfl⟩

theorem cells_run_other {f : ι → ν} {i : ι} (hks : ∀ k ∈ ks, key k ≠ i) :
    ((cells key cell).run f ks).2 i = f i := by
  have hnil : (ks.filter fun k => key k = i) = [] := by
    rw [List.filter_eq_nil_iff]
    intro k hk
    simpa using hks k hk
  rw [(cells_run f ks i).2, hnil, run_nil]

/-- Two runs that are the same on cell `i` answer its commands alike and leave it alike. -/
theorem cells_isolated {f g : ι → ν} {i : ι} (hi : f i = g i)
    (hks : (ks.filter fun k => key k = i) = ls.filter fun k => key k = i) :
    answersAt key i ks ((cells key cell).run f ks).1 =
        answersAt key i ls ((cells key cell).run g ls).1 ∧
      ((cells key cell).run f ks).2 i = ((cells key cell).run g ls).2 i := by
  obtain ⟨hanswers, hend⟩ := @cells_run κ α ι ν _ key cell f ks i
  obtain ⟨hanswers', hend'⟩ := @cells_run κ α ι ν _ key cell g ls i
  rw [hanswers, hend, hanswers', hend', hi, hks]
  exact ⟨rfl, rfl⟩

end Cells

end Machine

end SimpleShell.Lib
