import Mathlib.Data.List.TakeWhile
import SimpleShell.Shell.ParseInput

/-!
# Spaces between words

`parseInput` skips one delimiter after each word, and `interpreter` cuts the words
at their line ends only afterwards. So a second space in a row makes an empty word,
and so does a newline that stands alone.
-/

namespace SimpleShell.Shell

/-- What `interpreter` does to each word first: it ends at the first `\r` or `\n`. -/
def stripLineEnd (word : CString) : CString := word.takeWhile fun c => c ≠ '\r' && c ≠ '\n'

/-- The maximal nonempty substrings without a space. -/
def spacedWords (text : CString) : List CString := (text.splitOn ' ').filter (· ≠ [])

/-- A segment of an input line: its text, and whether the newline of the line
follows it. The words fit into the array, which has 100 places. -/
structure Segment where
  text : CString
  newline : Bool
  oneLine : '\n' ∉ text
  short : text.length + newline.toNat < 1000
  fewWords : (spacedWords text).length ≤ 100

def Segment.lineEnd (segment : Segment) : CString := if segment.newline then ['\n'] else []

/-- The characters between two semicolons, as `strtok` cuts them out. -/
def Segment.token (segment : Segment) : CString := segment.text ++ segment.lineEnd

/-- The words `interpreter` works with. -/
def Segment.passed (segment : Segment) : List CString :=
  (words segment.token).map stripLineEnd

/-- Every space is followed by the next word, or ends the text. -/
def SingleSpaced (text : CString) : Prop :=
  ∀ c, [' ', c] <:+: text → c ≠ ' ' ∧ c ≠ '\n'

/-- Leading spaces apart, one space between two words and at most one after the
last, the newline right behind a word, and no `\r`. -/
structure Segment.Plain (segment : Segment) : Prop where
  noReturn : '\r' ∉ segment.text
  spaced : SingleSpaced (segment.token.dropWhile (· == ' '))
  newline : (segment.token.dropWhile (· == ' ')).head? ≠ some '\n'

/-! ## Splitting at spaces -/

theorem spacedWords_cons (text : CString) : spacedWords (' ' :: text) = spacedWords text := by
  unfold spacedWords
  rw [show ' ' :: text = [] ++ ' ' :: text from rfl, List.splitOn_append_cons_self]
  rfl

theorem spacedWords_append {tmp : CString} (h : ' ' ∉ tmp) (hne : tmp ≠ []) (text : CString) :
    spacedWords (tmp ++ ' ' :: text) = tmp :: spacedWords text := by
  unfold spacedWords
  rw [List.splitOn_append_cons_self, List.filter_append, List.splitOn_eq_singleton h]
  simp [hne]

theorem spacedWords_whole {tmp : CString} (h : ' ' ∉ tmp) (hne : tmp ≠ []) :
    spacedWords tmp = [tmp] := by
  unfold spacedWords
  rw [List.splitOn_eq_singleton h]
  simp [hne]

@[simp] theorem spacedWords_nil : spacedWords [] = [] := rfl

theorem spacedWords_ne_nil {text w : CString} (h : w ∈ spacedWords text) : w ≠ [] := by
  simpa using (List.mem_filter.1 h).2

theorem spacedWords_dropWhile (text : CString) :
    spacedWords (text.dropWhile (· == ' ')) = spacedWords text := by
  induction text with
  | nil => rfl
  | cons a text ih =>
      by_cases ha : a = ' '
      · subst ha
        rw [List.dropWhile_cons_of_pos (by simp), ih, spacedWords_cons]
      · rw [List.dropWhile_cons_of_neg (by simpa using ha)]

theorem singleSpaced_cons {c : Char} {text : CString} :
    SingleSpaced (c :: text) ↔
      SingleSpaced text ∧ (c = ' ' → text.head? ≠ some ' ' ∧ text.head? ≠ some '\n') := by
  constructor
  · intro h
    refine ⟨fun d hd => h d (hd.trans (List.suffix_cons c text).isInfix), ?_⟩
    rintro rfl
    cases text with
    | nil => simp
    | cons d text =>
        have hd := h d (List.IsPrefix.isInfix ⟨text, rfl⟩)
        simpa using hd
  · rintro ⟨htext, hhead⟩ d hd
    rcases List.infix_cons_iff.1 hd with hprefix | hinfix
    · obtain ⟨rest, hrest⟩ := hprefix
      simp only [List.cons_append, List.nil_append, List.cons.injEq] at hrest
      obtain ⟨rfl, rfl⟩ := hrest
      simpa using hhead rfl
    · exact htext d hinfix

theorem singleSpaced_lineEnd {lineEnd : CString} (hend : lineEnd = [] ∨ lineEnd = ['\n']) :
    SingleSpaced lineEnd := by
  intro c hc
  have hlen := hc.length_le
  rcases hend with rfl | rfl <;> simp at hlen

/-! ## The word loop -/

theorem stripLineEnd_append (tmp : CString) : stripLineEnd (tmp ++ ['\n']) = stripLineEnd tmp := by
  simp only [stripLineEnd]
  rw [List.takeWhile_append]
  split
  · next hlen =>
      have hall := (List.takeWhile_prefix _ (l := tmp)).eq_of_length hlen
      rw [List.takeWhile_cons_of_neg (by simp), List.append_nil, hall]
  · rfl

theorem stripLineEnd_eq {tmp : CString} (h : '\n' ∉ tmp) : stripLineEnd tmp = tmp ↔ '\r' ∉ tmp := by
  constructor
  · intro heq hmem
    rw [← heq] at hmem
    simpa using List.mem_takeWhile_imp hmem
  · intro hr
    refine List.takeWhile_eq_self_iff.2 fun c hc => ?_
    have hcr : c ≠ '\r' := fun heq => hr (heq ▸ hc)
    have hcn : c ≠ '\n' := fun heq => h (heq ▸ hc)
    simp [hcr, hcn]

/-- The loop with the word so far, `lineEnd` being what follows the text. -/
theorem extractWords_eq_iff {lineEnd : CString} (hend : lineEnd = [] ∨ lineEnd = ['\n'])
    {text tmp : CString} (htext : '\n' ∉ text) (hspace : ' ' ∉ tmp) (hline : '\n' ∉ tmp) :
    (extractWords (text ++ lineEnd) tmp).map stripLineEnd = spacedWords (tmp ++ text) ↔
      '\r' ∉ tmp ++ text ∧ SingleSpaced (text ++ lineEnd) ∧
        (tmp = [] → text ≠ [] ∧ text.head? ≠ some ' ') := by
  induction text generalizing tmp with
  | nil =>
      have hwords : (extractWords ([] ++ lineEnd) tmp).map stripLineEnd = [stripLineEnd tmp] := by
        rcases hend with rfl | rfl
        · rfl
        · rw [List.nil_append, extractWords, if_neg (by decide), extractWords, List.map_singleton,
            stripLineEnd_append]
      have hspaced : SingleSpaced ([] ++ lineEnd) := singleSpaced_lineEnd hend
      rw [hwords, List.append_nil]
      by_cases hne : tmp = []
      · simp [hne]
      · simp only [hne, spacedWords_whole hspace hne, List.cons.injEq, and_true,
          stripLineEnd_eq hline, hspaced, false_implies]
  | cons c text ih =>
      have htext' : '\n' ∉ text := fun hmem => htext (List.mem_cons_of_mem _ hmem)
      have hc : c ≠ '\n' := fun heq => htext (heq ▸ List.mem_cons_self)
      rw [List.cons_append, extractWords, singleSpaced_cons]
      by_cases hsp : c = ' '
      · subst hsp
        rw [if_pos rfl]
        by_cases hne : tmp = []
        · -- an empty word is among the words
          subst hne
          refine ⟨fun heq => ?_, fun h => absurd rfl (h.2.2 rfl).2⟩
          have hmem : [] ∈ spacedWords ([] ++ ' ' :: text) := by
            rw [← heq]
            exact List.mem_map.2 ⟨[], List.mem_cons_self, rfl⟩
          exact absurd rfl (spacedWords_ne_nil hmem)
        · rw [spacedWords_append hspace hne, List.map_cons, List.cons.injEq, stripLineEnd_eq hline]
          have hrest : (if text ++ lineEnd = [] then [] else extractWords (text ++ lineEnd) []).map
              stripLineEnd = spacedWords text ↔
              '\r' ∉ text ∧ SingleSpaced (text ++ lineEnd) ∧
                (text ++ lineEnd).head? ≠ some ' ' ∧ (text ++ lineEnd).head? ≠ some '\n' := by
            by_cases hnil : text ++ lineEnd = []
            · obtain ⟨rfl, rfl⟩ := List.append_eq_nil_iff.1 hnil
              simp [singleSpaced_lineEnd hend]
            · have hgo := @ih [] htext' List.not_mem_nil List.not_mem_nil
              rw [List.nil_append] at hgo
              rw [if_neg hnil, hgo]
              cases text with
              | nil =>
                  rcases hend with rfl | rfl
                  · exact absurd rfl hnil
                  · simp
              | cons d text =>
                  have hd : d ≠ '\n' := fun heq => htext' (heq ▸ List.mem_cons_self)
                  simp [hd]
          rw [hrest]
          simp only [List.mem_append, List.mem_cons, hne]
          tauto
      · rw [if_neg hsp]
        have hgo := @ih (tmp ++ [c]) htext' (by simp [hspace, Ne.symm hsp])
          (by simp [hline, hc.symm])
        rw [List.append_assoc] at hgo
        simp only [List.singleton_append] at hgo
        rw [hgo]
        simp [hsp]

/-! ## Segments -/

namespace Segment

variable (segment : Segment)

theorem lineEnd_cases : segment.lineEnd = [] ∨ segment.lineEnd = ['\n'] := by
  unfold lineEnd
  cases segment.newline
  · exact .inl rfl
  · exact .inr rfl

theorem token_dropWhile :
    segment.token.dropWhile (· == ' ') =
      segment.text.dropWhile (· == ' ') ++ segment.lineEnd := by
  rw [token, List.dropWhile_append]
  split
  · next hnil =>
      rw [List.isEmpty_iff.1 hnil, List.nil_append]
      rcases segment.lineEnd_cases with hend | hend <;> rw [hend] <;> rfl
  · rfl

theorem not_mem_dropWhile {c : Char} (hc : c ≠ ' ') {text : CString} :
    c ∈ text.dropWhile (· == ' ') ↔ c ∈ text := by
  refine ⟨fun h => (List.dropWhile_suffix _).subset h, fun h => ?_⟩
  rw [← List.takeWhile_append_dropWhile (p := (· == ' ')) (l := text)] at h
  rcases List.mem_append.1 h with hspace | hrest
  · exact absurd (by simpa using List.mem_takeWhile_imp hspace) hc
  · exact hrest

/-- The words array is the words of the segment exactly when the segment is plain. -/
theorem passed_eq_iff : segment.passed = spacedWords segment.text ↔ segment.Plain := by
  have htext : '\n' ∉ segment.text.dropWhile (· == ' ') := by
    rw [not_mem_dropWhile (by decide)]
    exact segment.oneLine
  have hloop := @extractWords_eq_iff _ segment.lineEnd_cases _ []
    htext List.not_mem_nil List.not_mem_nil
  have hspace : (segment.text.dropWhile (· == ' ')).head? ≠ some ' ' := fun h => by
    simpa [h] using List.head?_dropWhile_not (· == ' ') segment.text
  rw [List.nil_append, not_mem_dropWhile (by decide), spacedWords_dropWhile] at hloop
  have hplain : segment.Plain ↔ '\r' ∉ segment.text ∧
      SingleSpaced (segment.token.dropWhile (· == ' ')) ∧
      (segment.token.dropWhile (· == ' ')).head? ≠ some '\n' :=
    ⟨fun h => ⟨h.noReturn, h.spaced, h.newline⟩, fun h => ⟨h.1, h.2.1, h.2.2⟩⟩
  rw [hplain, passed, words, token_dropWhile]
  cases hrest : segment.text.dropWhile (· == ' ') with
  | nil =>
      have hnil : spacedWords segment.text = [] := by
        rw [← spacedWords_dropWhile, hrest]
        rfl
      have hr : '\r' ∉ segment.text := by
        rw [← not_mem_dropWhile (by decide), hrest]
        exact List.not_mem_nil
      rcases segment.lineEnd_cases with hend | hend
      · simp [hend, hnil, hr, singleSpaced_lineEnd]
      · simp [hend, hnil, extractWords]
  | cons c rest =>
      rw [hrest] at hloop hspace htext
      have hc : c ≠ '\n' := fun heq => htext (heq ▸ List.mem_cons_self)
      rw [if_neg (by simp), hloop]
      simpa [hc] using fun _ _ => hspace

/-- Segments that are plain and differ in their spaces only run the same command. -/
theorem passed_congr {segment other : Segment} (h : segment.Plain) (h' : other.Plain)
    (hwords : spacedWords segment.text = spacedWords other.text) :
    segment.passed = other.passed := by
  rw [segment.passed_eq_iff.2 h, other.passed_eq_iff.2 h', hwords]

/-- The array of a segment is right, and is not changed by other spaces, exactly
when the segment is plain. -/
theorem passed_iff_plain (segment : Segment) :
    (segment.passed = spacedWords segment.text ∧
      ∀ other : Segment, other.Plain → spacedWords other.text = spacedWords segment.text →
        other.passed = segment.passed) ↔ segment.Plain := by
  constructor
  · rintro ⟨hpassed, -⟩
    exact segment.passed_eq_iff.1 hpassed
  · intro h
    exact ⟨segment.passed_eq_iff.2 h, fun other ho hwords => passed_congr ho h hwords⟩

/-- `echo  a`, with two spaces. -/
def doubled : Segment where
  text := "echo  a".toList
  newline := true
  oneLine := by decide
  short := by decide
  fewWords := by decide

/-- The second space ends an empty word. -/
theorem doubled_passed :
    doubled.passed = ["echo".toList, [], "a".toList] ∧
      doubled.passed ≠ spacedWords doubled.text := by decide

end Segment

end SimpleShell.Shell
