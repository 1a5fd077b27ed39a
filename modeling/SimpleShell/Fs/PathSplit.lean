import SimpleShell.Fs.Directory
import Mathlib.Algebra.Group.Int.Defs
import Mathlib.Algebra.Ring.Nat
import Mathlib.Data.List.TakeWhile

/-!
# Splitting a path

`split_path_filename` appends a token to the directory when the next one is there, so
that the last stays apart as the file name. The directory and the file name keep the
components of the path and fit in the buffers of `filesys_open`. Those of
`filesys_create` and `filesys_remove` are one byte shorter, which is too short for a
path without a slash: its file name is all of it.
-/

namespace SimpleShell.Fs

open SimpleShell.Lib

/-! ## The loop -/

/-- `strtok_r (_, "/", &p)`: the next token, and where it leaves `p`. -/
def strtokR (s : CString) : Option (CString × CString) :=
  let s := s.dropWhile (· == SLASH)
  if s = [] then none
  else some (s.takeWhile (· != SLASH), (s.dropWhile (· != SLASH)).drop 1)

/-- The loop of `split_path_filename`: the directory so far, `last_token` and what is left
of the copy of the path, which every token makes shorter. -/
def splitLoop : Nat → CString → CString → CString → CString × CString
  | 0, directory, lastToken, _ => (directory, lastToken)
  | fuel + 1, directory, lastToken, s =>
      match strtokR s with
      | none => (directory, lastToken)
      | some (token, rest) =>
          splitLoop fuel
            (if lastToken = [] then directory else directory ++ lastToken ++ [SLASH]) token rest

def splitPathFilenameLoop (path : CString) : CString × CString :=
  splitLoop (path.length + 1) (if path.head? = some SLASH then [SLASH] else []) [] path

/-! ## Tokens -/

section Tokens

variable {a b s t rest : CString}

theorem tokens_append (a b : CString) : tokens (a ++ SLASH :: b) = tokens a ++ tokens b := by
  rw [tokens, List.splitOn_append_cons_self, List.filter_append]
  rfl

theorem tokens_of_notMem (h : SLASH ∉ a) : tokens a = [a].filter (· ≠ []) := by
  rw [tokens, List.splitOn_eq_singleton h]

theorem tokens_slash (s : CString) : tokens (SLASH :: s) = tokens s := by
  rw [← List.nil_append (SLASH :: s), tokens_append]
  rfl

theorem tokens_dropWhile (s : CString) : tokens (s.dropWhile (· == SLASH)) = tokens s := by
  induction s with
  | nil => rfl
  | cons c s ih =>
      by_cases hc : c = SLASH
      · rw [List.dropWhile_cons_of_pos (by simpa using hc), ih, hc, tokens_slash]
      · rw [List.dropWhile_cons_of_neg (by simpa using hc)]

theorem notMem_takeWhile (s : CString) : SLASH ∉ s.takeWhile (· != SLASH) := by
  intro hmem
  simpa using List.mem_takeWhile_imp hmem

/-- A path is a segment alone, or a segment, a slash and a path. -/
theorem path_induct {motive : CString → Prop} (last : ∀ a, SLASH ∉ a → motive a)
    (step : ∀ a b, SLASH ∉ a → motive b → motive (a ++ SLASH :: b)) (s : CString) : motive s := by
  obtain ⟨n, hn⟩ : ∃ n, s.length ≤ n := ⟨_, Nat.le_refl _⟩
  induction n generalizing s with
  | zero =>
      obtain rfl := List.eq_nil_of_length_eq_zero (Nat.le_zero.1 hn)
      exact last [] List.not_mem_nil
  | succ n ih =>
      by_cases h : SLASH ∈ s
      · obtain ⟨a, b, rfl, ha⟩ := List.eq_append_cons_of_mem h
        rw [List.length_append, List.length_cons] at hn
        exact step a b ha (ih b (by omega))
      · exact last s h

theorem mem_tokens_append (ha : SLASH ∉ a) :
    t ∈ tokens (a ++ SLASH :: b) ↔ (t = a ∧ a ≠ []) ∨ t ∈ tokens b := by
  rw [tokens_append, tokens_of_notMem ha, List.mem_append, List.mem_filter, List.mem_singleton]
  refine or_congr_left ⟨fun h => ⟨h.1, ?_⟩, fun h => ⟨h.1, ?_⟩⟩
  · simpa [h.1] using h.2
  · simpa [h.1] using h.2

theorem mem_tokens_last (ha : SLASH ∉ a) : t ∈ tokens a ↔ t = a ∧ a ≠ [] := by
  rw [tokens_of_notMem ha, List.mem_filter, List.mem_singleton]
  refine ⟨fun h => ⟨h.1, ?_⟩, fun h => ⟨h.1, ?_⟩⟩
  · simpa [h.1] using h.2
  · simpa [h.1] using h.2

/-- A token is a component: it is not empty and has no slash. -/
theorem token_spec (s : CString) : ∀ t ∈ tokens s, t ≠ [] ∧ SLASH ∉ t := by
  induction s using path_induct with
  | last a ha =>
      intro t ht
      obtain ⟨rfl, hne⟩ := (mem_tokens_last ha).1 ht
      exact ⟨hne, ha⟩
  | step a b ha ih =>
      intro t ht
      rcases (mem_tokens_append ha).1 ht with ⟨rfl, hne⟩ | ht
      · exact ⟨hne, ha⟩
      · exact ih t ht

theorem token_length (s : CString) : ∀ t ∈ tokens s, t.length ≤ s.length := by
  induction s using path_induct with
  | last a ha =>
      intro t ht
      rw [((mem_tokens_last ha).1 ht).1]
  | step a b ha ih =>
      intro t ht
      rw [List.length_append, List.length_cons]
      rcases (mem_tokens_append ha).1 ht with ⟨rfl, -⟩ | ht
      · omega
      · have := ih t ht
        omega

/-- The tokens with a slash each, and the slash that the path starts with. -/
theorem tokens_sum (s : CString) :
    ((tokens s).map fun t => t.length + 1).sum + (if s.head? = some SLASH then 1 else 0) ≤
      s.length + 1 := by
  induction s using path_induct with
  | last a ha =>
      have hhead : a.head? ≠ some SLASH := fun heq => ha (List.mem_of_head? heq)
      rw [if_neg hhead, tokens_of_notMem ha]
      cases a with
      | nil => decide
      | cons c a => simp
  | step a b ha ih =>
      rw [tokens_append, List.map_append, List.sum_append, tokens_of_notMem ha,
        List.length_append, List.length_cons]
      cases a with
      | nil =>
          rw [List.nil_append, List.head?_cons, if_pos rfl]
          simp only [List.length_nil]
          have hnil : (([[]] : List CString).filter (· ≠ [])).map (fun t => t.length + 1) = [] := by
            simp
          rw [hnil, List.sum_nil]
          omega
      | cons c a =>
          have hhead : (c :: a ++ SLASH :: b).head? ≠ some SLASH := by
            intro heq
            rw [List.cons_append, List.head?_cons, Option.some.injEq] at heq
            exact ha (heq ▸ List.mem_cons_self)
          rw [if_neg hhead]
          simp only [ne_eq, reduceCtorEq, not_false_eq_true, decide_true, List.filter_cons_of_pos,
            List.filter_nil, List.map_cons, List.map_nil, List.sum_cons, List.sum_nil]
          omega

/-- The components with a slash behind each are the components. -/
theorem tokens_flatMap {ts : List CString} (h : ∀ t ∈ ts, t ≠ [] ∧ SLASH ∉ t) :
    tokens (ts.flatMap (· ++ [SLASH])) = ts := by
  induction ts with
  | nil => rfl
  | cons t ts ih =>
      obtain ⟨hne, hslash⟩ := h t List.mem_cons_self
      rw [List.flatMap_cons, List.append_assoc, List.singleton_append, tokens_append,
        tokens_of_notMem hslash, ih fun t ht => h t (List.mem_cons_of_mem _ ht)]
      simp [hne]

end Tokens

/-! ## The loop computes the split -/

section Loop

variable {s token rest : CString}

theorem strtokR_none (h : strtokR s = none) : tokens s = [] := by
  have hrest : s.dropWhile (· == SLASH) = [] := by
    by_contra hne
    rw [strtokR, if_neg hne] at h
    cases h
  rw [← tokens_dropWhile, hrest]
  rfl

theorem strtokR_some (h : strtokR s = some (token, rest)) :
    token ≠ [] ∧ tokens s = token :: tokens rest ∧ rest.length < s.length := by
  have hlen : (s.dropWhile (· == SLASH)).length ≤ s.length := List.length_dropWhile_le ..
  have htokens := tokens_dropWhile s
  have hhead : ∀ c, (s.dropWhile (· == SLASH)).head? = some c → c ≠ SLASH := by
    intro c hc heq
    have hnot := List.head?_dropWhile_not (· == SLASH) s
    rw [hc] at hnot
    simp [heq] at hnot
  rw [strtokR] at h
  generalize s.dropWhile (· == SLASH) = r at h hlen htokens hhead
  by_cases hr : r = []
  · rw [if_pos hr] at h
    cases h
  · rw [if_neg hr] at h
    obtain ⟨rfl, rfl⟩ := Prod.mk.inj (Option.some.inj h)
    obtain ⟨c, r, rfl⟩ := List.exists_cons_of_ne_nil hr
    have hne : (c :: r).takeWhile (· != SLASH) ≠ [] := by
      rw [List.takeWhile_cons_of_pos (by simpa using hhead c rfl)]
      exact List.cons_ne_nil _ _
    have hsplit := List.takeWhile_append_dropWhile (p := (· != SLASH)) (l := c :: r)
    have hslash := notMem_takeWhile (c :: r)
    have hback := List.head?_dropWhile_not (· != SLASH) (c :: r)
    generalize (c :: r).takeWhile (· != SLASH) = t at hne hsplit hslash
    generalize (c :: r).dropWhile (· != SLASH) = u at hsplit hback
    rw [← hsplit] at htokens hlen
    have hfilter : [t].filter (· ≠ []) = [t] := by simp [hne]
    have hpos := List.length_pos_iff.2 hne
    rw [List.length_append] at hlen
    cases u with
    | nil =>
        rw [List.append_nil, tokens_of_notMem hslash, hfilter] at htokens
        exact ⟨hne, htokens.symm, by rw [List.drop_nil, List.length_nil]; omega⟩
    | cons d u =>
        have hd : d = SLASH := by simpa using hback
        rw [hd, tokens_append, tokens_of_notMem hslash, hfilter] at htokens
        rw [List.length_cons] at hlen
        exact ⟨hne, htokens.symm, by rw [List.drop_succ_cons, List.drop_zero]; omega⟩

/-- One token late: the directory gets all tokens but the last, `last_token` first. -/
theorem splitLoop_spec {fuel : Nat} {directory lastToken s : CString} (hfuel : s.length < fuel) :
    splitLoop fuel directory lastToken s =
      (directory ++ (([lastToken].filter (· ≠ []) ++ tokens s).dropLast).flatMap (· ++ [SLASH]),
        ([lastToken].filter (· ≠ []) ++ tokens s).getLastD []) := by
  induction fuel generalizing directory lastToken s with
  | zero => omega
  | succ fuel ih =>
      rw [splitLoop]
      cases hnext : strtokR s with
      | none =>
          rw [strtokR_none hnext, List.append_nil]
          by_cases hlast : lastToken = [] <;> simp [hlast]
      | some next =>
          obtain ⟨token, rest⟩ := next
          obtain ⟨hne, htokens, hshort⟩ := strtokR_some hnext
          dsimp only
          rw [ih (by omega), htokens]
          have hfilter : [token].filter (· ≠ []) = [token] := by simp [hne]
          rw [hfilter]
          by_cases hlast : lastToken = []
          · simp [hlast]
          · simp [hlast, List.getLastD_eq_getLast?, List.getLast?_cons]

theorem splitPathFilename_eq_loop (path : CString) :
    splitPathFilenameLoop path = splitPathFilename path := by
  rw [splitPathFilenameLoop, splitLoop_spec (Nat.lt_succ_self _)]
  rfl

end Loop

/-! ## What the split keeps -/

section Split

variable {path : CString}

structure KeepsComponents (path directory filename : CString) : Prop where
  components : tokens path = tokens directory ++ [filename].filter (· ≠ [])
  filename_nil : filename = [] ↔ tokens path = []
  noSlash : SLASH ∉ filename
  absolute : directory.head? = some SLASH ↔ path.head? = some SLASH

/-- A string and its NUL have room in a buffer. -/
def Fits (s : CString) (size : Nat) : Prop := s.length + 1 ≤ size

/-- `char directory[strlen (path)]` and `file_name` of `filesys_create` and `filesys_remove`. -/
def createBuffer (path : CString) : Nat := path.length

/-- Those of `filesys_open`. -/
def openBuffer (path : CString) : Nat := path.length + 1

/-- All that a split has to do: `r` is the directory and the file name. -/
structure SplitOk (path : CString) (r : CString × CString) : Prop where
  keeps : KeepsComponents path r.1 r.2
  create : Fits r.1 (createBuffer path) ∧ Fits r.2 (createBuffer path)
  opened : Fits r.1 (openBuffer path) ∧ Fits r.2 (openBuffer path)

theorem splitPathFilename_keeps (path : CString) :
    KeepsComponents path (splitPathFilename path).1 (splitPathFilename path).2 := by
  have htokens := token_spec path
  have hlast : tokens path = [] ∨ ∃ before t, tokens path = before ++ [t] := by
    rcases List.eq_nil_or_concat (tokens path) with h | ⟨before, t, h⟩
    · exact .inl h
    · exact .inr ⟨before, t, by rw [h, List.concat_eq_append]⟩
  have hroot : ∀ r : CString, tokens ((if path.head? = some SLASH then [SLASH] else []) ++ r) =
      tokens r := by
    intro r
    split
    · exact tokens_slash r
    · rfl
  rcases hlast with hnil | ⟨before, t, hsplit⟩
  · have hname : (splitPathFilename path).2 = [] := by rw [splitPathFilename, hnil]; rfl
    have hdir : (splitPathFilename path).1 = if path.head? = some SLASH then [SLASH] else [] := by
      rw [splitPathFilename, hnil]
      exact List.append_nil _
    rw [hname, hdir]
    refine ⟨?_, ⟨fun _ => hnil, fun _ => rfl⟩, List.not_mem_nil, ?_⟩
    · rw [hnil]
      split <;> rfl
    · split <;> simp [*]
  · have hname : (splitPathFilename path).2 = t := by
      rw [splitPathFilename, hsplit]
      simp
    have hdir : (splitPathFilename path).1 =
        (if path.head? = some SLASH then [SLASH] else []) ++ before.flatMap (· ++ [SLASH]) := by
      rw [splitPathFilename, hsplit, List.dropLast_concat]
    rw [hsplit] at htokens
    obtain ⟨hne, hslash⟩ := htokens t (by simp)
    have hbefore : ∀ u ∈ before, u ≠ [] ∧ SLASH ∉ u := fun u hu => htokens u (by simp [hu])
    rw [hname, hdir]
    refine ⟨?_, ?_, hslash, ?_⟩
    · rw [hroot, tokens_flatMap hbefore, hsplit]
      simp [hne]
    · rw [hsplit]
      simp [hne]
    · split
      · next habs => simp [habs]
      · next habs =>
          refine ⟨fun h => absurd h ?_, fun h => absurd h habs⟩
          cases before with
          | nil => simp
          | cons u before =>
              obtain ⟨hu, hslash'⟩ := hbefore u List.mem_cons_self
              obtain ⟨c, u, rfl⟩ := List.exists_cons_of_ne_nil hu
              intro h
              rw [List.nil_append, List.flatMap_cons, List.cons_append, List.cons_append,
                List.head?_cons, Option.some.injEq] at h
              exact hslash' (h ▸ List.mem_cons_self)

/-- The directory and the file name are no longer than the path together. -/
theorem splitPathFilename_length (path : CString) :
    (splitPathFilename path).1.length + (splitPathFilename path).2.length ≤ path.length := by
  have hsum := tokens_sum path
  have hflat : ∀ ts : List CString, (ts.flatMap (· ++ [SLASH])).length =
      (ts.map fun t => t.length + 1).sum := by
    intro ts
    rw [List.length_flatMap]
    simp
  have hroot : (if path.head? = some SLASH then [SLASH] else [] : CString).length =
      if path.head? = some SLASH then 1 else 0 := by split <;> rfl
  rw [splitPathFilename]
  dsimp only
  rw [List.length_append, hroot, hflat]
  rcases List.eq_nil_or_concat (tokens path) with hnil | ⟨before, t, hsplit⟩
  · rw [hnil, List.dropLast_nil, List.map_nil, List.sum_nil, List.getLastD_nil, List.length_nil]
    split
    · next habs =>
        have := List.length_pos_of_mem (List.mem_of_head? habs)
        omega
    · omega
  · rw [List.concat_eq_append] at hsplit
    rw [hsplit, List.map_append, List.sum_append] at hsum
    simp only [List.map_cons, List.map_nil, List.sum_cons, List.sum_nil] at hsum
    have hname : (before ++ [t]).getLastD [] = t := by simp
    rw [hsplit, List.dropLast_concat, hname]
    omega

theorem filename_mem (h : (splitPathFilename path).2 ≠ []) :
    (splitPathFilename path).2 ∈ tokens path := by
  rw [splitPathFilename] at h ⊢
  rcases List.eq_nil_or_concat (tokens path) with hnil | ⟨before, t, hsplit⟩
  · rw [hnil] at h
    exact absurd rfl h
  · rw [hsplit, List.concat_eq_append]
    simp

/-- The split is right for every path and has room in the buffers of `filesys_open`; it has
room in the others if and only if the path has a slash and is more than one. -/
theorem splitPathFilename_ok_iff (path : CString) :
    SplitOk path (splitPathFilenameLoop path) ↔ SLASH ∈ path ∧ path ≠ [SLASH] := by
  rw [splitPathFilename_eq_loop]
  have hkeeps := splitPathFilename_keeps path
  have hlen := splitPathFilename_length path
  constructor
  · intro h
    refine ⟨?_, ?_⟩
    · by_contra hslash
      have hfits := h.create.2
      have hname : (splitPathFilename path).2 = path := by
        rw [splitPathFilename, tokens_of_notMem hslash]
        by_cases hnil : path = [] <;> simp [hnil]
      rw [hname] at hfits
      exact absurd hfits (Nat.not_succ_le_self _)
    · rintro rfl
      exact absurd h.create.1 (by unfold Fits; decide)
  · intro ⟨hslash, hne⟩
    obtain ⟨a, b, rfl, ha⟩ := List.eq_append_cons_of_mem hslash
    have hlong : 2 ≤ (a ++ SLASH :: b).length := by
      rw [List.length_append, List.length_cons]
      by_contra hshort
      obtain rfl := List.eq_nil_of_length_eq_zero (by omega : a.length = 0)
      obtain rfl := List.eq_nil_of_length_eq_zero (by omega : b.length = 0)
      exact hne rfl
    refine ⟨hkeeps, ⟨?_, ?_⟩, ⟨?_, ?_⟩⟩
    · unfold Fits createBuffer
      by_cases hname : (splitPathFilename (a ++ SLASH :: b)).2 = []
      · have hdir : (splitPathFilename (a ++ SLASH :: b)).1.length ≤ 1 := by
          rw [splitPathFilename, hkeeps.filename_nil.1 hname]
          dsimp only
          split <;> simp
        omega
      · have := List.length_pos_iff.2 hname
        omega
    · unfold Fits createBuffer
      by_cases hname : (splitPathFilename (a ++ SLASH :: b)).2 = []
      · rw [hname, List.length_nil]
        omega
      · rw [List.length_append, List.length_cons]
        rcases (mem_tokens_append ha).1 (filename_mem hname) with ⟨heq, -⟩ | hmem
        · rw [heq]
          omega
        · have := token_length b _ hmem
          omega
    · unfold Fits openBuffer
      omega
    · unfold Fits openBuffer
      omega

/-- `create a` has no room for the name in `char file_name[1]`. -/
theorem splitPathFilename_overflow : splitPathFilenameLoop [97] = ([], [97]) ∧
    ¬Fits [97] (createBuffer [97]) ∧ ¬∀ path, SplitOk path (splitPathFilenameLoop path) := by
  refine ⟨by decide, by unfold Fits; decide, fun h => ?_⟩
  have hfits := (h [97]).create.2
  unfold Fits at hfits
  exact absurd hfits (by decide)

end Split

end SimpleShell.Fs
