import SimpleShell.Shell.WordLoop

/-!
# One-liners of the second shell

`parseInput` of the second version walks over the line with one cursor and no
`strtok`. It steps over exactly one character behind a word, the newline as well,
and not at all where it finds no word; it calls `interpreter` once more behind the
loop, whether or not a word is left.

A line is here what the cursor has not passed yet. It is shorter than the 1000
characters at which the cursor stops, its words fit into `tmp` and into the array
of words.
-/

namespace SimpleShell.A2.OneLiner

open SimpleShell.Shell (CString spacedWords spacedWords_nil spacedWords_whole)

/-- The loop over the letters of a word goes on. -/
def inWord (c : Char) : Bool := c ≠ ';' && c ≠ '\n' && c ≠ ' '

variable {σ : Type}

/-- The calls of `interpreter`, each with what it returned, the value `parseInput`
returns if it does, and the state of the rest of the program. -/
structure Parse (σ : Type) where
  calls : List (List CString × Int)
  ret : Option Int
  state : σ

/-- `interpreter` is called and `parseInput` returns what it returned. -/
def lastCall (interpreter : σ → List CString → Int × σ) (words : List CString) (s : σ) :
    Parse σ :=
  let r := interpreter s words
  ⟨[(words, r.1)], some r.1, r.2⟩

/-- The outer loop. `fuel` bounds its rounds. -/
def parseLoop (interpreter : σ → List CString → Int × σ) :
    Nat → CString → List CString → σ → Parse σ
  | 0, _, _, s => ⟨[], none, s⟩
  | fuel + 1, ui, words, s =>
      if ui.head? = none ∨ ui.head? = some '\n' then lastCall interpreter words s
      else
        let ui := ui.dropWhile (· == ' ')
        if ui = [] then lastCall interpreter words s
        else
          let tmp := ui.takeWhile inWord
          let rest := ui.dropWhile inWord
          if tmp = [] then parseLoop interpreter fuel ui words s
          else if rest.head? = some ';' then
            let r := interpreter s (words ++ [tmp])
            if r.1 = -1 then ⟨[(words ++ [tmp], r.1)], some r.1, r.2⟩
            else
              let p := parseLoop interpreter fuel ((rest.drop 1).dropWhile (· == ' ')) [] r.2
              { p with calls := (words ++ [tmp], r.1) :: p.calls }
          else parseLoop interpreter fuel (rest.drop 1) (words ++ [tmp]) s

def parseInput (interpreter : σ → List CString → Int × σ) (fuel : Nat) (s : σ)
    (ui : CString) : Parse σ :=
  parseLoop interpreter fuel (ui.dropWhile (· == ' ')) [] s

/-! ## The segments of a line -/

/-- The line up to the first newline. -/
def text (ui : CString) : CString := ui.takeWhile (· != '\n')

/-- The first newline and what is behind it. -/
def tail (ui : CString) : CString := ui.dropWhile (· != '\n')

def segments (ui : CString) : List CString := (text ui).splitOn ';'

/-- The words of each segment, those the loop already has in front of the first. -/
def called (words : List CString) (segs : List CString) : List (List CString) :=
  (segs.map spacedWords).modifyHead (words ++ ·)

/-- The commands of a line: the words of each segment that has one. -/
def commands (ui : CString) : List (List CString) :=
  (called [] (segments ui)).filter (· ≠ [])

def EndsInWord (seg : CString) : Prop := ∃ c, seg.getLast? = some c ∧ c ≠ ' '

/-- Nothing but spaces up to a newline or the end. -/
def Blank (line : CString) : Prop :=
  ∀ c, (line.dropWhile (· == ' ')).head? = some c → c = '\n'

/-- Every semicolon stands right behind a word; the last segment has a word; and if
the newline stands right behind a word, the next line is blank. `words` are those
the loop already has. -/
structure Separated (words : List CString) (segs : List CString) (tail : CString) : Prop where
  joined : ∀ seg ∈ segs.dropLast, EndsInWord seg
  ended : (called words segs).getLast? ≠ some []
  newline : ∀ last, segs.getLast? = some last → EndsInWord last → Blank (tail.drop 1)

/-! ## Front parts of a segment -/

theorem spacedWords_space (front back : CString) :
    spacedWords (front ++ ' ' :: back) = spacedWords front ++ spacedWords back := by
  simp only [spacedWords]
  rw [List.splitOn_append_cons_self, List.filter_append]

theorem endsInWord_space {front seg : CString} :
    EndsInWord (front ++ ' ' :: seg) ↔ EndsInWord seg := by
  unfold EndsInWord
  cases hlast : seg.getLast? with
  | none => simp [List.getLast?_append, List.getLast?_cons, hlast]
  | some c => simp [List.getLast?_append, List.getLast?_cons, hlast]

theorem segments_ne_nil (ui : CString) : segments ui ≠ [] := List.splitOn_ne_nil _ _

theorem text_append {front : CString} (h : '\n' ∉ front) (ui : CString) :
    text (front ++ ui) = front ++ text ui := by
  unfold text
  rw [List.takeWhile_append_of_pos]
  intro c hc
  simpa using fun heq : c = '\n' => h (heq ▸ hc)

theorem tail_append {front : CString} (h : '\n' ∉ front) (ui : CString) :
    tail (front ++ ui) = tail ui := by
  unfold tail
  rw [List.dropWhile_append_of_pos]
  intro c hc
  simpa using fun heq : c = '\n' => h (heq ▸ hc)

theorem splitOn_append {front : CString} (h : ';' ∉ front) (rest : CString) :
    (front ++ rest).splitOn ';' = (rest.splitOn ';').modifyHead (front ++ ·) := by
  induction front with
  | nil =>
      obtain ⟨seg, segs, heq⟩ := List.exists_cons_of_ne_nil (List.splitOn_ne_nil ';' rest)
      rw [List.nil_append, heq]
      rfl
  | cons c front ih =>
      have hc : c ≠ ';' := fun heq => h (heq ▸ List.mem_cons_self)
      obtain ⟨seg, segs, heq⟩ := List.exists_cons_of_ne_nil (List.splitOn_ne_nil ';' rest)
      rw [List.cons_append, List.splitOn_cons_eq_if_modifyHead,
        ih fun hmem => h (List.mem_cons_of_mem _ hmem), heq]
      simp [hc]

theorem segments_append {front : CString} (h : '\n' ∉ front) (h' : ';' ∉ front)
    (ui : CString) : segments (front ++ ui) = (segments ui).modifyHead (front ++ ·) := by
  unfold segments
  rw [text_append h, splitOn_append h']

theorem segments_semicolon {front : CString} (h : '\n' ∉ front) (h' : ';' ∉ front)
    (ui : CString) : segments (front ++ ';' :: ui) = front :: segments ui := by
  unfold segments
  rw [text_append h, show ';' :: ui = [';'] ++ ui from rfl, text_append (by decide),
    List.singleton_append, List.splitOn_append_cons_self, List.splitOn_eq_singleton h',
    List.singleton_append]

theorem called_space (words : List CString) (front : CString) (segs : List CString) :
    called words (segs.modifyHead (front ++ ' ' :: ·)) =
      called (words ++ spacedWords front) segs := by
  cases segs with
  | nil => rfl
  | cons seg segs => simp [called, spacedWords_space]

theorem separated_space {words : List CString} {front : CString} {segs : List CString}
    {tail : CString} :
    Separated words (segs.modifyHead (front ++ ' ' :: ·)) tail ↔
      Separated (words ++ spacedWords front) segs tail := by
  have hjoined : (∀ seg ∈ (segs.modifyHead (front ++ ' ' :: ·)).dropLast, EndsInWord seg) ↔
      ∀ seg ∈ segs.dropLast, EndsInWord seg := by
    rcases segs with - | ⟨seg, - | ⟨next, rest⟩⟩
    · rfl
    · simp
    · simp [endsInWord_space]
  have hnewline : (∀ last, (segs.modifyHead (front ++ ' ' :: ·)).getLast? = some last →
      EndsInWord last → Blank (tail.drop 1)) ↔
      ∀ last, segs.getLast? = some last → EndsInWord last → Blank (tail.drop 1) := by
    rcases segs with - | ⟨seg, - | ⟨next, rest⟩⟩
    · rfl
    · simp [endsInWord_space]
    · simp [List.getLast?_cons_cons]
  constructor
  · rintro ⟨h, hended, h'⟩
    rw [called_space] at hended
    exact ⟨hjoined.1 h, hended, hnewline.1 h'⟩
  · rintro ⟨h, hended, h'⟩
    rw [← called_space] at hended
    exact ⟨hjoined.2 h, hended, hnewline.2 h'⟩

theorem called_dropWhile (words : List CString) (ui : CString) :
    called words (segments (ui.dropWhile (· == ' '))) = called words (segments ui) := by
  induction ui with
  | nil => rfl
  | cons c ui ih =>
      by_cases hc : c = ' '
      · subst hc
        rw [List.dropWhile_cons_of_pos (by simp), ih, show ' ' :: ui = [' '] ++ ui from rfl,
          segments_append (by decide) (by decide)]
        have hspace := called_space words [] (segments ui)
        rw [spacedWords_nil, List.append_nil] at hspace
        exact hspace.symm
      · rw [List.dropWhile_cons_of_neg (by simpa using hc)]

theorem separated_dropWhile {words : List CString} {ui : CString} :
    Separated words (segments (ui.dropWhile (· == ' '))) (tail (ui.dropWhile (· == ' '))) ↔
      Separated words (segments ui) (tail ui) := by
  induction ui with
  | nil => rfl
  | cons c ui ih =>
      by_cases hc : c = ' '
      · subst hc
        rw [List.dropWhile_cons_of_pos (by simp), ih, show ' ' :: ui = [' '] ++ ui from rfl,
          segments_append (by decide) (by decide), tail_append (by decide)]
        have hspace := @separated_space words [] (segments ui) (tail ui)
        rw [spacedWords_nil, List.append_nil] at hspace
        exact hspace.symm
      · rw [List.dropWhile_cons_of_neg (by simpa using hc)]

theorem called_call (words : List CString) (front : CString) (segs : List CString) :
    called words (front :: segs) = (words ++ spacedWords front) :: called [] segs := by
  cases segs with
  | nil => rfl
  | cons seg segs => simp [called]

theorem separated_call {words : List CString} {front : CString} {segs : List CString}
    {tail : CString} (h : EndsInWord front) (hsegs : segs ≠ []) :
    Separated words (front :: segs) tail ↔ Separated [] segs tail := by
  obtain ⟨seg, rest, rfl⟩ := List.exists_cons_of_ne_nil hsegs
  have hlast : (called words (front :: seg :: rest)).getLast? =
      (called [] (seg :: rest)).getLast? := by
    rw [called_call]
    simp [called]
  constructor
  · rintro ⟨hjoined, hended, hnewline⟩
    rw [hlast] at hended
    refine ⟨fun s hs => hjoined s ?_, hended, fun last hl => hnewline last ?_⟩
    · rw [List.dropLast_cons_cons]
      exact List.mem_cons_of_mem _ hs
    · rw [List.getLast?_cons_cons]
      exact hl
  · rintro ⟨hjoined, hended, hnewline⟩
    rw [← hlast] at hended
    refine ⟨fun s hs => ?_, hended, fun last hl => hnewline last ?_⟩
    · rw [List.dropLast_cons_cons] at hs
      rcases List.mem_cons.1 hs with rfl | hs
      · exact h
      · exact hjoined s hs
    · rw [List.getLast?_cons_cons] at hl
      exact hl

theorem not_separated_semicolon {words : List CString} {segs : List CString} {tail : CString}
    (hsegs : segs ≠ []) : ¬ Separated words ([] :: segs) tail := by
  intro h
  obtain ⟨seg, rest, rfl⟩ := List.exists_cons_of_ne_nil hsegs
  obtain ⟨c, hc, -⟩ := h.joined [] (by simp)
  cases hc

theorem not_mem_word {word : CString} (hword : ∀ c ∈ word, inWord c) :
    ';' ∉ word ∧ '\n' ∉ word ∧ ' ' ∉ word := by
  refine ⟨fun h => ?_, fun h => ?_, fun h => ?_⟩ <;> exact absurd (hword _ h) (by decide)

theorem endsInWord_word {word : CString} (hne : word ≠ []) (hword : ∀ c ∈ word, inWord c) :
    EndsInWord word := by
  refine ⟨word.getLast hne, List.getLast?_eq_some_getLast hne, fun hsp => ?_⟩
  exact (not_mem_word hword).2.2 (hsp ▸ List.getLast_mem hne)

theorem segments_whole {front : CString} (h : '\n' ∉ front) (h' : ';' ∉ front) :
    segments (front ++ []) = [front] := by
  rw [segments_append h h']
  simp [segments, text]

theorem separated_end {words : List CString} {tail : CString} :
    Separated words [[]] tail ↔ words ≠ [] := by
  have hcalled : called words [[]] = [words] := by simp [called]
  constructor
  · intro h hnil
    refine h.ended ?_
    rw [hcalled, hnil]
    rfl
  · intro h
    refine ⟨fun seg hseg => ?_, ?_, ?_⟩
    · cases hseg
    · rw [hcalled]
      simpa using h
    · rintro last ⟨⟩ ⟨c, hc, -⟩
      cases hc

theorem separated_word {words : List CString} {word : CString} {tail : CString}
    (hword : spacedWords word = [word]) (hlast : EndsInWord word) :
    Separated words [word] tail ↔ Blank (tail.drop 1) := by
  constructor
  · intro h
    exact h.newline word rfl hlast
  · intro h
    refine ⟨fun seg hseg => ?_, ?_, fun _ _ _ => h⟩
    · cases hseg
    · simp [called, hword]

/-! ## The loop -/

section

variable {interpreter : σ → List CString → Int × σ}

/-- No call of `interpreter` returns -1, however far the loop runs. -/
def NoQuit (interpreter : σ → List CString → Int × σ) (ui : CString) (words : List CString)
    (s : σ) : Prop :=
  ∀ fuel, ∀ c ∈ (parseLoop interpreter fuel ui words s).calls, c.2 ≠ -1

/-- The loop ends, and these are the calls made. -/
def Finishes (interpreter : σ → List CString → Int × σ) (ui : CString)
    (words : List CString) (s : σ) (calls : List (List CString)) : Prop :=
  ∃ fuel, (parseLoop interpreter fuel ui words s).ret ≠ none ∧
    (parseLoop interpreter fuel ui words s).calls.map Prod.fst = calls

/-- Two states from which the loop does the same. -/
structure Same (interpreter : σ → List CString → Int × σ) (ui : CString)
    (words : List CString) (ui' : CString) (words' : List CString) (s : σ) : Prop where
  left : ∀ fuel, ∃ fuel', parseLoop interpreter fuel ui words s =
    parseLoop interpreter fuel' ui' words' s
  right : ∀ fuel', ∃ fuel, parseLoop interpreter fuel ui words s =
    parseLoop interpreter fuel' ui' words' s

theorem Same.finishes {ui ui' : CString} {words words' : List CString} {s : σ}
    (h : Same interpreter ui words ui' words' s) {calls : List (List CString)} :
    Finishes interpreter ui words s calls ↔ Finishes interpreter ui' words' s calls := by
  constructor
  · rintro ⟨fuel, hret, hcalls⟩
    obtain ⟨fuel', heq⟩ := h.left fuel
    rw [heq] at hret hcalls
    exact ⟨fuel', hret, hcalls⟩
  · rintro ⟨fuel, hret, hcalls⟩
    obtain ⟨fuel', heq⟩ := h.right fuel
    rw [← heq] at hret hcalls
    exact ⟨fuel', hret, hcalls⟩

theorem Same.noQuit {ui ui' : CString} {words words' : List CString} {s : σ}
    (h : Same interpreter ui words ui' words' s) (hquit : NoQuit interpreter ui words s) :
    NoQuit interpreter ui' words' s := by
  intro fuel
  obtain ⟨fuel', heq⟩ := h.right fuel
  rw [← heq]
  exact hquit fuel'

theorem parseLoop_end {ui : CString} (h : ui.head? = none ∨ ui.head? = some '\n')
    (fuel : Nat) (words : List CString) (s : σ) :
    parseLoop interpreter (fuel + 1) ui words s = lastCall interpreter words s := by
  rw [parseLoop, if_pos h]

theorem finishes_end {ui : CString} (h : ui.head? = none ∨ ui.head? = some '\n')
    {words : List CString} {s : σ} {calls : List (List CString)} :
    Finishes interpreter ui words s calls ↔ calls = [words] := by
  constructor
  · rintro ⟨fuel, hret, rfl⟩
    cases fuel with
    | zero => exact absurd rfl hret
    | succ fuel => rw [parseLoop_end h]; rfl
  · rintro rfl
    refine ⟨1, ?_, ?_⟩
    · rw [parseLoop_end h]
      exact Option.some_ne_none _
    · rw [parseLoop_end h]
      rfl

theorem parseLoop_space (ui : CString) (words : List CString) (s : σ) (fuel : Nat) :
    parseLoop interpreter (fuel + 1) (' ' :: ui) words s =
      if ui.head? = some '\n' then parseLoop interpreter fuel ui words s
      else parseLoop interpreter (fuel + 1) ui words s := by
  rw [parseLoop, if_neg (by simp), List.dropWhile_cons_of_pos (by simp)]
  cases ui with
  | nil => simp [parseLoop]
  | cons c ui =>
      by_cases hnl : c = '\n'
      · subst hnl
        simp [inWord]
      · have hnext : ¬ (c :: ui).head? = some '\n' := by simpa using hnl
        rw [if_neg hnext]
        have hhead : ¬ ((c :: ui).head? = none ∨ (c :: ui).head? = some '\n') := by
          simpa using hnl
        conv_rhs => rw [parseLoop, if_neg hhead]

/-- A space in front is skipped. -/
theorem same_space (interpreter : σ → List CString → Int × σ) (ui : CString) (words : List CString) (s : σ) :
    Same interpreter (' ' :: ui) words ui words s := by
  by_cases hnl : ui.head? = some '\n'
  · have hstep : ∀ fuel, parseLoop interpreter (fuel + 1) (' ' :: ui) words s =
        parseLoop interpreter fuel ui words s := fun fuel => by
      rw [parseLoop_space, if_pos hnl]
    refine ⟨fun fuel => ?_, fun fuel => ⟨fuel + 1, hstep fuel⟩⟩
    cases fuel with
    | zero => exact ⟨0, rfl⟩
    | succ fuel => exact ⟨fuel, hstep fuel⟩
  · have hstep : ∀ fuel, parseLoop interpreter fuel (' ' :: ui) words s =
        parseLoop interpreter fuel ui words s := fun fuel => by
      cases fuel with
      | zero => rfl
      | succ fuel => rw [parseLoop_space, if_neg hnl]
    exact ⟨fun fuel => ⟨fuel, hstep fuel⟩, fun fuel => ⟨fuel, hstep fuel⟩⟩

/-- The loop stays where it is: there is no word in front of the semicolon. -/
theorem parseLoop_semicolon (ui : CString) (words : List CString) (s : σ) (fuel : Nat) :
    parseLoop interpreter fuel (';' :: ui) words s = ⟨[], none, s⟩ := by
  induction fuel with
  | zero => rfl
  | succ fuel ih =>
      rw [parseLoop, if_neg (by simp), List.dropWhile_cons_of_neg (by simp), if_neg (by simp),
        List.takeWhile_cons_of_neg (by simp [inWord])]
      simp only [reduceIte]
      exact ih

theorem parseLoop_word {word rest : CString} (hne : word ≠ []) (hword : ∀ c ∈ word, inWord c)
    (hrest : ∀ c, rest.head? = some c → inWord c = false) (fuel : Nat)
    (words : List CString) (s : σ) :
    parseLoop interpreter (fuel + 1) (word ++ rest) words s =
      if rest.head? = some ';' then
        if (interpreter s (words ++ [word])).1 = -1 then
          ⟨[(words ++ [word], (interpreter s (words ++ [word])).1)],
            some (interpreter s (words ++ [word])).1, (interpreter s (words ++ [word])).2⟩
        else
          let p := parseLoop interpreter fuel ((rest.drop 1).dropWhile (· == ' ')) []
            (interpreter s (words ++ [word])).2
          { p with calls := (words ++ [word], (interpreter s (words ++ [word])).1) :: p.calls }
      else parseLoop interpreter fuel (rest.drop 1) (words ++ [word]) s := by
  have htake : (word ++ rest).takeWhile inWord = word := by
    rw [List.takeWhile_append_of_pos hword]
    cases rest with
    | nil => rw [List.takeWhile_nil, List.append_nil]
    | cons c rest =>
        rw [List.takeWhile_cons_of_neg (by simp [hrest c rfl]), List.append_nil]
  have hdrop : (word ++ rest).dropWhile inWord = rest := by
    rw [List.dropWhile_append_of_pos hword]
    cases rest with
    | nil => rfl
    | cons c rest => rw [List.dropWhile_cons_of_neg (by simp [hrest c rfl])]
  obtain ⟨c, front, rfl⟩ := List.exists_cons_of_ne_nil hne
  have hc : (c ≠ ';' ∧ c ≠ '\n') ∧ c ≠ ' ' := by
    simpa [inWord] using hword c List.mem_cons_self
  have hskip : (c :: front ++ rest).dropWhile (· == ' ') = c :: front ++ rest :=
    List.dropWhile_cons_of_neg (by simpa using hc.2)
  rw [parseLoop, if_neg (by simp [hc.1.2])]
  dsimp only
  rw [hskip, htake, hdrop, if_neg (List.append_ne_nil_of_left_ne_nil hne rest), if_neg hne]

theorem same_word (interpreter : σ → List CString → Int × σ) {word : CString} (rest : CString)
    (hne : word ≠ []) (hword : ∀ c ∈ word, inWord c)
    (hrest : ∀ c, rest.head? = some c → c = ' ' ∨ c = '\n') (words : List CString) (s : σ) :
    Same interpreter (word ++ rest) words (rest.drop 1) (words ++ [word]) s := by
  have hstep : ∀ fuel, parseLoop interpreter (fuel + 1) (word ++ rest) words s =
      parseLoop interpreter fuel (rest.drop 1) (words ++ [word]) s := fun fuel => by
    rw [parseLoop_word hne hword, if_neg]
    · intro hsemi
      rcases hrest _ hsemi with heq | heq <;> cases heq
    · intro c hc
      rcases hrest c hc with rfl | rfl <;> rfl
  refine ⟨fun fuel => ?_, fun fuel => ⟨fuel + 1, hstep fuel⟩⟩
  cases fuel with
  | zero => exact ⟨0, rfl⟩
  | succ fuel => exact ⟨fuel, hstep fuel⟩

theorem parseLoop_call {word : CString} (hne : word ≠ []) (hword : ∀ c ∈ word, inWord c)
    {words : List CString} {s : σ} (hret : (interpreter s (words ++ [word])).1 ≠ -1)
    (rest : CString) (fuel : Nat) :
    parseLoop interpreter (fuel + 1) (word ++ ';' :: rest) words s =
      let p := parseLoop interpreter fuel (rest.dropWhile (· == ' ')) []
        (interpreter s (words ++ [word])).2
      { p with calls := (words ++ [word], (interpreter s (words ++ [word])).1) :: p.calls } := by
  rw [parseLoop_word hne hword, if_pos List.head?_cons, if_neg hret]
  · rfl
  · rintro c ⟨⟩
    rfl

/-- `NoQuit` speaks of the call at the semicolon, and of those after it. -/
theorem NoQuit.call {word : CString} (hne : word ≠ []) (hword : ∀ c ∈ word, inWord c)
    {words : List CString} {s : σ} {rest : CString}
    (h : NoQuit interpreter (word ++ ';' :: rest) words s) :
    (interpreter s (words ++ [word])).1 ≠ -1 ∧
      NoQuit interpreter (rest.dropWhile (· == ' ')) [] (interpreter s (words ++ [word])).2 := by
  have hret : (interpreter s (words ++ [word])).1 ≠ -1 := by
    intro hquit
    refine h 1 (words ++ [word], (interpreter s (words ++ [word])).1) ?_ hquit
    rw [parseLoop_word hne hword, if_pos List.head?_cons, if_pos hquit]
    · exact List.mem_singleton_self _
    · rintro c ⟨⟩
      rfl
  refine ⟨hret, fun fuel c hc => h (fuel + 1) c ?_⟩
  rw [parseLoop_call hne hword hret]
  exact List.mem_cons_of_mem _ hc

theorem finishes_call {word : CString} (hne : word ≠ []) (hword : ∀ c ∈ word, inWord c)
    {words : List CString} {s : σ} (hret : (interpreter s (words ++ [word])).1 ≠ -1)
    {rest : CString} {calls : List (List CString)} :
    Finishes interpreter (word ++ ';' :: rest) words s ((words ++ [word]) :: calls) ↔
      Finishes interpreter (rest.dropWhile (· == ' ')) []
        (interpreter s (words ++ [word])).2 calls := by
  constructor
  · rintro ⟨fuel, hdone, hcalls⟩
    cases fuel with
    | zero => exact absurd rfl hdone
    | succ fuel =>
        rw [parseLoop_call hne hword hret] at hdone hcalls
        exact ⟨fuel, hdone, (List.cons.inj hcalls).2⟩
  · rintro ⟨fuel, hdone, hcalls⟩
    refine ⟨fuel + 1, ?_, ?_⟩
    · rw [parseLoop_call hne hword hret]
      exact hdone
    · rw [parseLoop_call hne hword hret]
      exact congrArg _ hcalls

/-- The words the loop has are the first of the next call. -/
theorem Finishes.head {ui : CString} {words : List CString} {s : σ}
    {calls : List (List CString)} (h : Finishes interpreter ui words s calls) :
    ∃ more rest, calls = (words ++ more) :: rest := by
  obtain ⟨fuel, hret, rfl⟩ := h
  induction fuel generalizing ui words s with
  | zero => exact absurd rfl hret
  | succ fuel ih =>
      have hlast : ∃ more rest, (lastCall interpreter words s).calls.map Prod.fst =
          (words ++ more) :: rest := ⟨[], [], by rw [List.append_nil]; rfl⟩
      rw [parseLoop] at hret ⊢
      dsimp only at hret ⊢
      split at hret
      · next hend => rwa [if_pos hend]
      · next hend =>
          rw [if_neg hend]
          split at hret
          · next hnil => rwa [if_pos hnil]
          · next hnil =>
              rw [if_neg hnil]
              split at hret
              · next htmp =>
                  rw [if_pos htmp]
                  exact ih hret
              · next htmp =>
                  rw [if_neg htmp]
                  split at hret
                  · next hsemi =>
                      rw [if_pos hsemi]
                      split
                      · exact ⟨_, [], rfl⟩
                      · exact ⟨_, _, rfl⟩
                  · next hsemi =>
                      rw [if_neg hsemi]
                      obtain ⟨more, rest, heq⟩ := ih hret
                      rw [List.append_assoc] at heq
                      exact ⟨_, rest, heq⟩

/-- A line that begins with a word goes on with a space, a newline, a semicolon or
not at all. -/
theorem exists_word {c : Char} (hc : inWord c) (ui : CString) :
    ∃ word rest, c :: ui = word ++ rest ∧ word ≠ [] ∧ (∀ c ∈ word, inWord c) ∧
      (rest = [] ∨ ∃ d back, rest = d :: back ∧ inWord d = false) := by
  refine ⟨(c :: ui).takeWhile inWord, (c :: ui).dropWhile inWord,
    List.takeWhile_append_dropWhile.symm, ?_, fun c hc => List.mem_takeWhile_imp hc, ?_⟩
  · rw [List.takeWhile_cons_of_pos hc]
    exact List.cons_ne_nil _ _
  · cases hrest : (c :: ui).dropWhile inWord with
    | nil => exact .inl rfl
    | cons d back =>
        have hd := List.head?_dropWhile_not inWord (c :: ui)
        rw [hrest] at hd
        exact .inr ⟨d, back, rfl, by simpa using hd⟩

theorem Finishes.word {word rest : CString} (hne : word ≠ []) (hword : ∀ c ∈ word, inWord c)
    (hrest : rest = [] ∨ ∃ d back, rest = d :: back ∧ inWord d = false)
    {words : List CString} {s : σ} {calls : List (List CString)}
    (h : Finishes interpreter (word ++ rest) words s calls) :
    ∃ more rest, calls = (words ++ [word] ++ more) :: rest := by
  have hhead : ∀ c, rest.head? = some c → inWord c = false := by
    rcases hrest with rfl | ⟨d, back, rfl, hd⟩
    · rintro c ⟨⟩
    · rintro c ⟨⟩
      exact hd
  obtain ⟨fuel, hret, rfl⟩ := h
  cases fuel with
  | zero => exact absurd rfl hret
  | succ fuel =>
      rw [parseLoop_word hne hword hhead] at hret ⊢
      split at hret
      · next hsemi =>
          rw [if_pos hsemi]
          split
          · exact ⟨[], [], by rw [List.append_nil]; rfl⟩
          · exact ⟨[], _, by rw [List.append_nil]; rfl⟩
      · next hsemi =>
          rw [if_neg hsemi]
          exact Finishes.head ⟨fuel, hret, rfl⟩

/-- Behind a newline the loop goes on, unless nothing but spaces is left. -/
theorem finishes_blank {ui : CString} {words : List CString} {s : σ} :
    Finishes interpreter ui words s [words] ↔ Blank ui := by
  induction ui with
  | nil => exact iff_of_true ((finishes_end (.inl rfl)).2 rfl) (fun c hc => by cases hc)
  | cons c ui ih =>
      by_cases hsp : c = ' '
      · subst hsp
        rw [(same_space _ ui words s).finishes, ih, Blank, Blank,
          List.dropWhile_cons_of_pos (by simp)]
      · rw [Blank, List.dropWhile_cons_of_neg (by simpa using hsp), List.head?_cons]
        by_cases hnl : c = '\n'
        · subst hnl
          exact iff_of_true ((finishes_end (.inr rfl)).2 rfl) (fun c hc => by cases hc; rfl)
        · refine iff_of_false (fun h => ?_) (fun h => hnl (h c rfl))
          by_cases hsemi : c = ';'
          · subst hsemi
            obtain ⟨fuel, hret, -⟩ := h
            rw [parseLoop_semicolon] at hret
            exact hret rfl
          · -- the next call has a further word
            obtain ⟨word, rest, heq, hne, hword, hrest⟩ :=
              exists_word (show inWord c = true by simp [inWord, hsp, hnl, hsemi]) ui
            rw [heq] at h
            obtain ⟨more, calls, hcalls⟩ := h.word hne hword hrest
            have hlen := congrArg List.length (List.cons.inj hcalls).1
            simp at hlen

/-- What a call returned is what `interpreter` returns. -/
theorem parseLoop_returned {ui : CString} {words : List CString} {s : σ} {fuel : Nat}
    {c : List CString × Int} (h : c ∈ (parseLoop interpreter fuel ui words s).calls) :
    ∃ s', c.2 = (interpreter s' c.1).1 := by
  have hlast : ∀ words s, c ∈ (lastCall interpreter words s).calls →
      ∃ s', c.2 = (interpreter s' c.1).1 := by
    intro words s hc
    obtain rfl := List.mem_singleton.1 hc
    exact ⟨s, rfl⟩
  induction fuel generalizing ui words s with
  | zero => cases h
  | succ fuel ih =>
      rw [parseLoop] at h
      dsimp only at h
      split at h
      · exact hlast _ _ h
      · split at h
        · exact hlast _ _ h
        · split at h
          · exact ih h
          · split at h
            · split at h
              · obtain rfl := List.mem_singleton.1 h
                exact ⟨s, rfl⟩
              · rcases List.mem_cons.1 h with rfl | h
                · exact ⟨s, rfl⟩
                · exact ih h
            · exact ih h

theorem finishes_iff {ui : CString} {words : List CString} {s : σ}
    (hquit : NoQuit interpreter ui words s) :
    Finishes interpreter ui words s ((called words (segments ui)).filter (· ≠ [])) ↔
      Separated words (segments ui) (tail ui) := by
  induction hn : ui.length using Nat.strong_induction_on generalizing ui words s with
  | _ n ih =>
      have hend : ∀ {ui : CString}, segments ui = [[]] →
          (ui.head? = none ∨ ui.head? = some '\n') →
          (Finishes interpreter ui words s ((called words (segments ui)).filter (· ≠ [])) ↔
            Separated words (segments ui) (tail ui)) := by
        intro ui hseg hhead
        have hcalled : called words [[]] = [words] := by simp [called]
        rw [hseg, separated_end, finishes_end hhead, hcalled]
        by_cases hw : words = []
        · simp [hw]
        · simp [hw]
      cases ui with
      | nil => exact hend rfl (.inl rfl)
      | cons c ui =>
          rw [List.length_cons] at hn
          by_cases hnl : c = '\n'
          · subst hnl
            exact hend (by simp [segments, text]) (.inr rfl)
          by_cases hsp : c = ' '
          · subst hsp
            have hsame := same_space interpreter ui words s
            have hgo := ih ui.length (by omega) (hsame.noQuit hquit) rfl
            have hcalled := called_space words [] (segments ui)
            have hsep := @separated_space words [] (segments ui) (tail ui)
            rw [spacedWords_nil, List.append_nil] at hcalled hsep
            rw [hsame.finishes, show ' ' :: ui = [' '] ++ ui from rfl,
              segments_append (by decide) (by decide), tail_append (by decide)]
            exact hcalled ▸ hgo.trans hsep.symm
          by_cases hsemi : c = ';'
          · subst hsemi
            have hseg : segments (';' :: ui) = [] :: segments ui :=
              segments_semicolon List.not_mem_nil List.not_mem_nil ui
            rw [hseg]
            refine iff_of_false ?_ (not_separated_semicolon (segments_ne_nil ui))
            rintro ⟨fuel, hret, -⟩
            rw [parseLoop_semicolon] at hret
            exact hret rfl
          obtain ⟨word, rest, heq, hne, hword, hrest⟩ :=
            exists_word (show inWord c = true by simp [inWord, hsp, hnl, hsemi]) ui
          have hlen := congrArg List.length heq
          have hpos := List.length_pos_of_ne_nil hne
          rw [List.length_cons, List.length_append] at hlen
          rw [heq] at hquit ⊢
          obtain ⟨hsemi, hnl, hsp⟩ := not_mem_word hword
          have hspaced : spacedWords word = [word] := spacedWords_whole hsp hne
          have hlast := endsInWord_word hne hword
          rcases hrest with rfl | ⟨d, back, rfl, hd⟩
          · have hsame := same_word interpreter [] hne hword
              (by rintro c ⟨⟩) words s
            rw [hsame.finishes, finishes_end (.inl rfl), segments_whole hnl hsemi,
              separated_word hspaced hlast, tail_append hnl]
            refine iff_of_true ?_ ?_
            · simp [called, hspaced]
            · rintro c ⟨⟩
          · rw [List.length_cons] at hlen
            have hcases : d = ';' ∨ d = '\n' ∨ d = ' ' := by
              by_contra hnot
              simp [inWord] at hd
              tauto
            rcases hcases with rfl | rfl | rfl
            · obtain ⟨hret, hquit⟩ := hquit.call hne hword
              have hdrop := (List.dropWhile_suffix (· == ' ') (l := back)).length_le
              have hgo := ih _ (by omega) hquit rfl
              rw [called_dropWhile, separated_dropWhile] at hgo
              rw [segments_semicolon hnl hsemi, called_call, hspaced,
                List.filter_cons_of_pos (by simp), finishes_call hne hword hret, hgo,
                separated_call hlast (segments_ne_nil back), tail_append hnl]
              rfl
            · have hsame := same_word interpreter ('\n' :: back) hne hword
                (by rintro c ⟨⟩; exact .inr rfl) words s
              have hseg : segments (word ++ '\n' :: back) = [word] := by
                rw [segments_append hnl hsemi, segments, text,
                  List.takeWhile_cons_of_neg (by simp)]
                simp
              have htail : tail (word ++ '\n' :: back) = '\n' :: back := by
                rw [tail_append hnl, tail, List.dropWhile_cons_of_neg (by simp)]
              have hcalled : called words [word] = [words ++ [word]] := by
                simp [called, hspaced]
              rw [hseg, htail, hcalled, List.filter_cons_of_pos (by simp), hsame.finishes,
                separated_word hspaced hlast]
              exact finishes_blank
            · have hsame := same_word interpreter (' ' :: back) hne hword
                (by rintro c ⟨⟩; exact .inl rfl) words s
              have hgo := ih back.length (by omega) (hsame.noQuit hquit) rfl
              have hassoc : word ++ ' ' :: back = (word ++ [' ']) ++ back := by simp
              have hseg : segments (word ++ ' ' :: back) =
                  (segments back).modifyHead (word ++ ' ' :: ·) := by
                rw [hassoc, segments_append (by simpa using hnl) (by simpa using hsemi)]
                simp
              have htail : tail (word ++ ' ' :: back) = tail back := by
                rw [hassoc, tail_append (by simpa using hnl)]
              rw [hsame.finishes, hseg, htail, called_space, separated_space, hspaced]
              exact hgo

end

/-! ## Lines -/

/-- An input line, none of whose words or segments is too long for the arrays of
`parseInput`. -/
structure Line where
  ui : CString
  short : ui.length < 1000
  noNul : '\x00' ∉ ui
  words : ∀ seg ∈ ui.splitOnP fun c => c = ';' || c = '\n',
    ∀ word ∈ spacedWords seg, word.length < 200
  fewWords : ∀ seg ∈ ui.splitOnP fun c => c = ';' || c = '\n', (spacedWords seg).length ≤ 99

/-- `parseInput` ends and calls `interpreter` on the commands of the line, each once
and in order, exactly when the line is separated by the book. -/
theorem parseInput_commands_iff (interpreter : σ → List CString → Int × σ) (s : σ)
    (line : Line)
    (hquit : ∀ fuel, ∀ c ∈ (parseInput interpreter fuel s line.ui).calls, c.2 ≠ -1) :
    (∃ fuel, (parseInput interpreter fuel s line.ui).ret ≠ none ∧
      (parseInput interpreter fuel s line.ui).calls.map Prod.fst = commands line.ui) ↔
      Separated [] (segments line.ui) (tail line.ui) := by
  have hgo := finishes_iff hquit
  rw [called_dropWhile, separated_dropWhile] at hgo
  exact hgo

/-- Every command succeeds. -/
def succeed (s : Unit) (_ : List CString) : Int × Unit := (0, s)

theorem succeed_ne (ui : CString) (fuel : Nat) :
    ∀ c ∈ (parseInput succeed fuel () ui).calls, c.2 ≠ -1 := by
  intro c hc
  obtain ⟨s', hs'⟩ := parseLoop_returned hc
  rw [hs']
  exact (by decide : (0 : Int) ≠ -1)

def tidyLine : Line where
  ui := "a b; c\n".toList
  short := by decide
  noNul := by decide
  words := by decide
  fewWords := by decide

theorem parseInput_commands_iff_tidy :
    ∃ fuel, (parseInput succeed fuel () tidyLine.ui).ret ≠ none ∧
      (parseInput succeed fuel () tidyLine.ui).calls.map Prod.fst = commands tidyLine.ui := by
  refine (parseInput_commands_iff succeed () tidyLine (succeed_ne _)).2 ⟨?_, ?_, ?_⟩
  · intro seg hseg
    have hmem : seg ∈ ["a b".toList] := hseg
    obtain rfl := List.mem_singleton.1 hmem
    exact ⟨'b', rfl, by decide⟩
  · decide
  · intro last hlast _
    rintro c ⟨⟩

/-- A space in front of the semicolon. -/
def strandedLine : Line where
  ui := "a ;b".toList
  short := by decide
  noNul := by decide
  words := by decide
  fewWords := by decide

/-- No call returns -1, and `parseInput` does not end. -/
theorem parseInput_stranded :
    (∀ fuel, ∀ c ∈ (parseInput succeed fuel () strandedLine.ui).calls, c.2 ≠ -1) ∧
      ∀ fuel, (parseInput succeed fuel () strandedLine.ui).ret = none := by
  refine ⟨succeed_ne _, fun fuel => ?_⟩
  have hsame := same_word succeed " ;b".toList (List.cons_ne_nil 'a' [])
    (List.forall_mem_singleton.2 (by decide))
    (by rintro c ⟨⟩; exact .inl rfl) [] ()
  obtain ⟨fuel', heq⟩ := hsame.left fuel
  have hstuck : parseInput succeed fuel () strandedLine.ui =
      parseLoop succeed fuel' ";b".toList ["a".toList] () := heq
  have hsemi : ";b".toList = ';' :: "b".toList := rfl
  rw [hstuck, hsemi, parseLoop_semicolon]

end SimpleShell.A2.OneLiner
