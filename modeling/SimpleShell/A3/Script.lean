import SimpleShell.A2.Frames
import SimpleShell.A2.Loader
import SimpleShell.A3.Kernel

/-!
# A script on its own

`count_lines` counts the newlines that end a line with something in it, and one more for the
last line, which has none. `fgets` delivers lines, blank ones too. Where the two agree a script
that has the frames to itself is run from its first line to its last: a page is asked for when
the lines before it are done, which is when the file stands at its first line.
-/

namespace SimpleShell.A3

open SimpleShell.Shell
open SimpleShell.A2 (readLine pidString textLines textLines_cons textLines_eq_nil Terminated
  readLine_newline readLine_end pidString_ne)

/-! ## Lines -/

/-- A line that `fgets` delivers whole: less than 998 characters before its newline. -/
def ShortLine (line : CString) : Prop := (line.takeWhile (· ≠ '\n')).length < 998

/-- What one `fgets` after the other delivers, up to the one that meets the end. Each takes a
character at least. -/
def fgetsFrom : Nat → CString → List CString
  | 0, _ => []
  | n + 1, file =>
      match fgets file with
      | none => []
      | some (line, file) => line :: fgetsFrom n file

def delivered (content : CString) : List CString := fgetsFrom content.length content

/-- The lines of a script with nothing in them. -/
def blankLines (content : CString) : Nat := (textLines content).count ['\n']

/-- Whether the last line has no newline. -/
def openEnd (content : CString) : Nat := if content = [] ∨ Terminated content then 0 else 1

/-! ## Runs -/

/-- No process, and every frame free. -/
structure Idle {σ : Type} (c : Sizes) (k : Kernel σ) : Prop where
  queue : k.queue = []
  lruCache : k.lruCache = []
  allPcb : k.allPcb = []
  stopped : k.stopped = false
  free : ∀ i, i < c.FRAME_STORE_SIZE → (k.shellmemory i).var = noneText

/-- These lines answer something other than 1 and run no scripts themselves. -/
structure Ordinary {σ : Type} (lines : CString → Prop) (c : Sizes)
    (parseInput : CString → Kernel σ → Int × Kernel σ) : Prop where
  answer : ∀ line, lines line → ∀ k, (parseInput line k).1 ≠ 1
  pcbs : ∀ line, lines line → ∀ k, (parseInput line k).2.pcbs = k.pcbs
  queue : ∀ line, lines line → ∀ k, (parseInput line k).2.queue = k.queue
  lruCache : ∀ line, lines line → ∀ k, (parseInput line k).2.lruCache = k.lruCache
  allPcb : ∀ line, lines line → ∀ k, (parseInput line k).2.allPcb = k.allPcb
  executed : ∀ line, lines line → ∀ k, (parseInput line k).2.executed = k.executed
  stopped : ∀ line, lines line → ∀ k, (parseInput line k).2.stopped = k.stopped
  frames : ∀ line, lines line → ∀ k i, i < c.FRAME_STORE_SIZE →
    (parseInput line k).2.shellmemory i = k.shellmemory i

theorem Ordinary.mono {σ : Type} {lines more : CString → Prop} {c : Sizes}
    {parseInput : CString → Kernel σ → Int × Kernel σ} (h : Ordinary more c parseInput)
    (hsub : ∀ line, lines line → more line) : Ordinary lines c parseInput :=
  ⟨fun line hl => h.answer line (hsub line hl), fun line hl => h.pcbs line (hsub line hl),
    fun line hl => h.queue line (hsub line hl), fun line hl => h.lruCache line (hsub line hl),
    fun line hl => h.allPcb line (hsub line hl), fun line hl => h.executed line (hsub line hl),
    fun line hl => h.stopped line (hsub line hl), fun line hl => h.frames line (hsub line hl)⟩

/-- With frames for all its pages and ordinary lines, a process for the script is run to its end,
every line once and in order. -/
def RunsThrough (content : CString) : Prop :=
  ∀ (σ : Type) (c : Sizes) (parseInput : CString → Kernel σ → Int × Kernel σ) (k : Kernel σ),
    Ordinary (· ∈ delivered content) c parseInput → Idle c k →
    3 * pageTableSize (countLines content) ≤ c.FRAME_STORE_SIZE →
      ∃ fuel k', runProcRR parseInput c fuel (newProc c content k) = some k' ∧
        k'.stopped = false ∧
        k'.executed = k.executed ++ (delivered content).map fun line => (k.pidCounter, line)

/-- The size of the process is the number of lines it is given, and it is run to its end. -/
structure ValidScript (content : CString) : Prop where
  size : countLines content = (delivered content).length
  runs : RunsThrough content

section Lines

variable {file content line : CString} {lines : List CString}

theorem fgets_cons (h : textLines file = line :: lines) (hshort : ShortLine line) :
    ∃ rest, fgets file = some (line, rest) ∧ textLines rest = lines := by
  obtain ⟨rest, hfile, hrest, hend⟩ := textLines_cons h
  have hne : file ≠ [] := by
    intro hnil
    rw [hnil] at h
    cases h
  unfold fgets
  rw [if_neg hne]
  rcases hend with ⟨front, rfl, hfront⟩ | ⟨hline, rfl⟩
  · have hlen : front.length < 998 := by
      rw [ShortLine, List.takeWhile_append_of_pos fun x hx => by
        simpa using fun hnl : x = '\n' => hfront (hnl ▸ hx)] at hshort
      simpa using hshort
    refine ⟨rest, ?_, hrest⟩
    rw [hfile, List.append_assoc, List.singleton_append, readLine_newline hfront hlen]
  · have hlen : line.length < 998 := by
      have hall : line.takeWhile (· ≠ '\n') = line := by
        rw [← List.append_nil line, List.takeWhile_append_of_pos fun x hx => by
          simpa using fun hnl : x = '\n' => hline (hnl ▸ hx), List.takeWhile_nil]
      rwa [ShortLine, hall] at hshort
    refine ⟨[], ?_, hrest⟩
    rw [hfile, List.append_nil, readLine_end hline hlen]

theorem fgets_nil (h : textLines file = []) : fgets file = none :=
  if_pos (textLines_eq_nil.1 h)

theorem readLine_length (n : Nat) (file : CString) :
    (readLine n file).1.length + (readLine n file).2.1.length = file.length := by
  induction n generalizing file with
  | zero => exact Nat.zero_add _
  | succ n ih =>
      cases file with
      | nil => rfl
      | cons letter file =>
          rw [readLine]
          split
          · exact Nat.add_comm ..
          · have := ih file
            simp only [List.length_cons]
            omega

/-- Each `fgets` takes a character at least. -/
theorem fgets_length {rest : CString} (h : fgets file = some (line, rest)) :
    rest.length < file.length := by
  unfold fgets at h
  split at h
  · cases h
  · next hne =>
      obtain ⟨rfl, rfl⟩ := Prod.mk.inj (Option.some.inj h)
      have hlength := readLine_length 998 file
      have hpos : 0 < (readLine 998 file).1.length := by
        cases file with
        | nil => exact absurd rfl hne
        | cons letter file =>
            rw [readLine]
            split
            · exact Nat.one_pos
            · exact Nat.succ_pos _
      omega

theorem fgetsFrom_fuel (n : Nat) : ∀ {m : Nat} {file : CString}, file.length ≤ n →
    file.length ≤ m → fgetsFrom n file = fgetsFrom m file := by
  induction n with
  | zero =>
      intro m file hn _
      obtain rfl := List.length_eq_zero_iff.1 (Nat.le_zero.1 hn)
      cases m with
      | zero => rfl
      | succ m => rfl
  | succ n ih =>
      intro m file hn hm
      cases m with
      | zero =>
          obtain rfl := List.length_eq_zero_iff.1 (Nat.le_zero.1 hm)
          rfl
      | succ m =>
          rw [fgetsFrom, fgetsFrom]
          cases hline : fgets file with
          | none => rfl
          | some r =>
              have hlt := @fgets_length _ r.1 r.2 hline
              dsimp only
              rw [ih (m := m) (by omega) (by omega)]

theorem delivered_none (h : fgets file = none) : delivered file = [] := by
  unfold delivered
  cases hlen : file.length with
  | zero => rfl
  | succ n => rw [fgetsFrom, h]

theorem delivered_some {rest : CString} (h : fgets file = some (line, rest)) :
    delivered file = line :: delivered rest := by
  have hlt := fgets_length h
  unfold delivered
  obtain ⟨n, hn⟩ := Nat.exists_eq_add_one_of_ne_zero (Nat.ne_of_gt (Nat.zero_lt_of_lt hlt))
  rw [hn, fgetsFrom, h]
  dsimp only
  rw [fgetsFrom_fuel n (by omega) (Nat.le_refl _)]

/-- The lines of a script are what is delivered. -/
theorem delivered_eq (hshort : ∀ line ∈ textLines content, ShortLine line) :
    delivered content = textLines content := by
  generalize hlines : textLines content = lines at hshort
  induction lines generalizing content with
  | nil => exact delivered_none (fgets_nil hlines)
  | cons line lines ih =>
      obtain ⟨rest, heq, hrest⟩ := fgets_cons hlines (hshort line List.mem_cons_self)
      rw [delivered_some heq, ih hrest fun l hl => hshort l (List.mem_cons_of_mem _ hl)]

theorem fgets_eq_none (h : delivered file = []) : fgets file = none := by
  cases hline : fgets file with
  | none => rfl
  | some r => exact absurd ((delivered_some hline).symm.trans h) (List.cons_ne_nil _ _)

/-- The first of the lines that are delivered comes first. -/
theorem fgets_eq_some (h : delivered file = line :: lines) :
    ∃ rest, fgets file = some (line, rest) ∧ delivered rest = lines := by
  cases hline : fgets file with
  | none => exact absurd (h.symm.trans (delivered_none hline)) (List.cons_ne_nil _ _)
  | some r =>
      obtain ⟨rfl, rfl⟩ := List.cons.inj (h.symm.trans (@delivered_some _ r.1 r.2 hline))
      exact ⟨r.2, rfl, rfl⟩

theorem textLines_length_le (n : Nat) (file : CString) :
    (textLines file).length ≤ (textLines (readLine n file).2.1).length + 1 := by
  induction n generalizing file with
  | zero => exact Nat.le_succ _
  | succ n ih =>
      cases file with
      | nil => exact Nat.zero_le _
      | cons letter file =>
          rw [readLine, textLines]
          split
          · exact Nat.le_refl _
          · have hle := ih file
            cases hlines : textLines file with
            | nil => exact Nat.succ_le_succ (Nat.zero_le _)
            | cons line lines => rwa [hlines] at hle

/-- A line that is too long is delivered in more than one piece. -/
theorem length_le_delivered (content : CString) :
    (textLines content).length ≤ (delivered content).length := by
  generalize hpieces : delivered content = pieces
  induction pieces generalizing content with
  | nil =>
      have hnil : content = [] := by
        by_contra hne
        have hnone := fgets_eq_none hpieces
        rw [fgets, if_neg hne] at hnone
        cases hnone
      rw [hnil]
      exact Nat.le_refl _
  | cons piece pieces ih =>
      obtain ⟨rest, hfgets, hrest⟩ := fgets_eq_some hpieces
      unfold fgets at hfgets
      split at hfgets
      · cases hfgets
      · obtain ⟨-, rfl⟩ := Prod.mk.inj (Option.some.inj hfgets)
        have hle := textLines_length_le 998 content
        have := ih _ hrest
        rw [List.length_cons]
        omega

/-! ## Counting -/

theorem countLoop_front (hfront : '\n' ∉ line) (rest : CString) (count : Nat) :
    ∀ last : Char, countLoop (line ++ rest) last count =
      countLoop rest (line.getLast?.getD last) count := by
  induction line with
  | nil => exact fun last => rfl
  | cons letter line ih =>
      intro last
      rw [List.mem_cons, not_or] at hfront
      rw [List.cons_append, countLoop, if_neg fun h => hfront.1 h.1.symm, ih hfront.2]
      cases line with
      | nil => rfl
      | cons second line =>
          rw [List.getLast?_cons_cons]
          rw [List.getLast?_eq_getLast_of_ne_nil (List.cons_ne_nil _ _)]
          rfl

theorem countLoop_add (content : CString) :
    ∀ (last : Char) (count : Nat), countLoop content last count =
      countLoop content last 0 + count := by
  induction content with
  | nil => exact fun last count => (Nat.zero_add count).symm
  | cons letter content ih =>
      intro last count
      rw [countLoop, countLoop, ih]
      split
      · rw [ih letter (0 + 1)]
        omega
      · rfl

theorem openEnd_append (front rest : CString) :
    openEnd (front ++ ['\n'] ++ rest) = openEnd rest := by
  refine if_congr ?_ rfl rfl
  have hne : front ++ ['\n'] ++ rest ≠ [] := by simp
  rw [or_iff_right hne]
  cases rest with
  | nil =>
      refine iff_of_true ?_ (.inl rfl)
      show (front ++ ['\n'] ++ []).getLast? = _
      rw [List.append_nil, List.getLast?_concat]
  | cons letter rest =>
      rw [or_iff_right (List.cons_ne_nil _ _)]
      show (front ++ ['\n'] ++ letter :: rest).getLast? = _ ↔ (letter :: rest).getLast? = _
      rw [List.getLast?_append_of_ne_nil _ (List.cons_ne_nil _ _)]

theorem openEnd_line (hline : '\n' ∉ line) (hne : line ≠ []) : openEnd line = 1 := by
  refine if_neg ?_
  rintro (hnil | hlast)
  · exact hne hnil
  · exact hline (List.mem_of_getLast? hlast)

/-- The newlines that are counted, the blank lines and the open end are the lines. -/
theorem countLoop_lines (lines : List CString) :
    ∀ {content : CString}, textLines content = lines →
      countLoop content '\n' 0 + lines.count ['\n'] + openEnd content = lines.length := by
  induction lines with
  | nil =>
      intro content h
      rw [textLines_eq_nil.1 h]
      rfl
  | cons line lines ih =>
      intro content h
      obtain ⟨rest, rfl, hrest, hend⟩ := textLines_cons h
      rcases hend with ⟨front, rfl, hfront⟩ | ⟨hline, rfl⟩
      · have hloop : countLoop (front ++ ['\n'] ++ rest) '\n' 0 =
            countLoop rest '\n' 0 + if front = [] then 0 else 1 := by
          rw [List.append_assoc, countLoop_front hfront, List.singleton_append, countLoop]
          cases front with
          | nil => rfl
          | cons letter front =>
              rw [List.getLast?_eq_getLast_of_ne_nil (List.cons_ne_nil _ _), Option.getD_some,
                if_pos ⟨rfl, fun heq => hfront (heq ▸ List.getLast_mem (List.cons_ne_nil _ _))⟩,
                countLoop_add, if_neg (List.cons_ne_nil _ _)]
        have hcount : (if (front ++ ['\n'] == ['\n']) = true then 1 else 0) =
            1 - if front = [] then 0 else 1 := by
          cases front with
          | nil => rfl
          | cons letter front => simp
        rw [hloop, List.count_cons, List.length_cons, openEnd_append, hcount, ← ih hrest]
        split
        · omega
        · omega
      · have hnil : lines = [] := hrest.symm
        have hne : line ≠ [] := by
          rintro rfl
          cases h
        have hblank : (line == ['\n']) = false := by
          rw [beq_eq_false_iff_ne]
          rintro rfl
          exact hline List.mem_cons_self
        rw [hnil, List.append_nil, openEnd_line hline hne, List.count_cons, hblank]
        have hloop := countLoop_front hline [] 0 '\n'
        rw [List.append_nil] at hloop
        rw [hloop]
        rfl

theorem countLines_add (content : CString) :
    countLines content + blankLines content + openEnd content = (textLines content).length + 1 := by
  have := @countLoop_lines (textLines content) content rfl
  unfold countLines blankLines
  omega

end Lines

/-! ## Loading a page -/

section Load

variable {σ : Type} {c : Sizes} {k : Kernel σ} {content pidText : CString} {pid m done : Nat}

/-- The lines of a page, as many as there are, and their frames. -/
theorem fillPage_spec {start : Nat} (cnt : Nat) :
    ∀ {j : Nat} {mem : ShellMemory} {page : Page} {file : CString} {lines : List CString},
      delivered file = lines → (∀ x, page.index x = start + x) →
      (∀ x, j ≤ x → page.validBit x = false) →
      ∃ mem' page' file', fillPage pidText (List.range' j cnt) mem page file =
          (mem', page', file') ∧ delivered file' = lines.drop cnt ∧ page'.index = page.index ∧
        (∀ x, page'.validBit x =
          if x < j then page.validBit x else decide (x < j + cnt ∧ x - j < lines.length)) ∧
        ∀ x, mem' x =
          if start + j ≤ x ∧ x < start + j + cnt ∧ x - (start + j) < lines.length then
            ⟨pidText, lines.getD (x - (start + j)) []⟩
          else mem x := by
  induction cnt with
  | zero =>
      intro j mem page file lines hlines _ hvalid
      refine ⟨mem, page, file, rfl, hlines, rfl, fun x => ?_, fun x => ?_⟩
      · split
        · rfl
        · next hge => rw [hvalid x (by omega), eq_comm, decide_eq_false_iff_not]; omega
      · rw [if_neg (by omega)]
  | succ cnt ih =>
      intro j mem page file lines hlines hindex hvalid
      rw [List.range'_succ, fillPage]
      cases lines with
      | nil =>
          rw [fgets_eq_none hlines]
          refine ⟨mem, page, file, rfl, by rw [List.drop_nil]; exact hlines, rfl,
            fun x => ?_, fun x => ?_⟩
          · split
            · rfl
            · next hge => rw [hvalid x (by omega), eq_comm, decide_eq_false_iff_not]; simp
          · rw [if_neg (by simp)]
      | cons line lines =>
          obtain ⟨rest, heq, hrest⟩ := fgets_eq_some hlines
          rw [heq]
          dsimp only
          obtain ⟨mem', page', file', hfill, hfile', hindex', hvalid', hmem'⟩ :=
            @ih (j + 1) (memSetValueAt mem (page.index j) pidText line)
              { page with validBit := Function.update page.validBit j true } rest lines hrest
              hindex fun x hx => by
                show Function.update page.validBit j true x = false
                rw [Function.update_of_ne (by omega)]
                exact hvalid x (by omega)
          refine ⟨mem', page', file', hfill, hfile', hindex', fun x => ?_, fun x => ?_⟩
          · rw [hvalid' x]
            rcases Nat.lt_trichotomy x j with hlt | rfl | hgt
            · rw [if_pos (by omega), if_pos hlt]
              exact Function.update_of_ne (by omega) _ _
            · rw [if_pos (by omega), if_neg (by omega)]
              show Function.update page.validBit x true x = _
              rw [Function.update_self, eq_comm, decide_eq_true_iff, List.length_cons]
              omega
            · rw [if_neg (by omega), if_neg (by omega), decide_eq_decide, List.length_cons]
              omega
          · rw [hmem' x]
            rcases Nat.lt_trichotomy x (start + j) with hlt | rfl | hgt
            · rw [if_neg (by omega), if_neg (by omega), memSetValueAt, hindex,
                Function.update_of_ne (by omega)]
            · rw [if_neg (by omega), if_pos ⟨Nat.le_refl _, by omega, by simp⟩, memSetValueAt,
                hindex, Function.update_self, Nat.sub_self]
              rfl
            · have hsub : x - (start + j) = x - (start + (j + 1)) + 1 := by omega
              rw [memSetValueAt, hindex, Function.update_of_ne (by omega), hsub,
                List.getD_cons_succ, List.length_cons]
              refine if_congr ?_ rfl rfl
              omega

/-- The frames up to `start` are taken, those behind are free. -/
theorem frameAlloc_next {mem : ShellMemory} {start : Nat}
    (htaken : ∀ x, x < start → (mem x).var ≠ noneText)
    (hfree : ∀ x, start ≤ x → x < c.FRAME_STORE_SIZE → (mem x).var = noneText)
    (hroom : start + 3 ≤ c.FRAME_STORE_SIZE) :
    ∃ mem', frameAlloc c mem pidText = some (start, mem') ∧
      ∀ x, mem' x = if start ≤ x ∧ x < start + 3 then { mem x with var := pidText } else mem x := by
  have hfind : ((List.range (FRAME_VAR_BORDER c)).find? fun i =>
      decide (i + 3 ≤ FRAME_VAR_BORDER c) &&
        (List.range' i 3).all fun j => decide ((mem j).var = noneText)) = some start := by
    rw [List.find?_range_eq_some]
    refine ⟨?_, ?_, fun x hx => ?_⟩
    · rw [Bool.and_eq_true, List.all_eq_true]
      refine ⟨decide_eq_true hroom, fun x hx => ?_⟩
      rw [List.mem_range'_1] at hx
      exact decide_eq_true (hfree x hx.1 (by omega))
    · rw [List.mem_range, FRAME_VAR_BORDER_eq]
      omega
    · rw [Bool.not_eq_true', Bool.and_eq_false_iff]
      refine .inr ?_
      rw [List.all_eq_false]
      exact ⟨x, by rw [List.mem_range'_1]; omega, by simpa using htaken x hx⟩
  refine ⟨_, by rw [frameAlloc, hfind]; rfl, fun x => ?_⟩
  simp only [List.range', List.foldl_cons, List.foldl_nil, Function.update_apply]
  split_ifs <;> first | rfl | omega | (subst_vars; rfl)

/-- The process has the first `m` pages of its script in memory, one behind the other, and
`done` lines of it are done; `ran` was run before. -/
structure Loaded (c : Sizes) (lines : List CString) (pid : Nat) (ran : List (Nat × CString))
    (m done : Nat) (k : Kernel σ) : Prop where
  size : (k.pcbs pid).size = (lines.length : Int) - done
  counter : ∀ i, (k.pcbs pid).programCounter i = min 3 (done - 3 * i)
  pages : (k.pcbs pid).pageTableSize = pageTableSize lines.length
  file : delivered (k.pcbs pid).sourceFile = lines.drop (3 * m)
  index : ∀ i, i < m → ∀ j, (k.page (pid, i)).index j = 3 * i + j
  valid : ∀ i, i < m → ∀ j, j < 3 →
    (k.page (pid, i)).validBit j = decide (3 * i + j < lines.length)
  absent : ∀ i, m ≤ i → ∀ j, (k.page (pid, i)).validBit j = false
  value : ∀ x, x < 3 * m → x < lines.length → (k.shellmemory x).value = lines.getD x []
  taken : ∀ x, x < 3 * m → (k.shellmemory x).var ≠ noneText
  free : ∀ x, 3 * m ≤ x → x < c.FRAME_STORE_SIZE → (k.shellmemory x).var = noneText
  executed : k.executed = ran ++ (lines.take done).map fun line => (pid, line)
  stopped : k.stopped = false
  le : done ≤ lines.length
  room : m ≤ pageTableSize lines.length

/-- Its pages are all that the cache holds. -/
structure Cached (pid m : Nat) (k : Kernel σ) : Prop where
  mem : ∀ i, i < m → (pid, i) ∈ k.lruCache
  only : ∀ p ∈ k.lruCache, ∃ i, i < m ∧ p = (pid, i)

theorem pageTableSize_spec (n : Nat) : n ≤ 3 * pageTableSize n ∧ 3 * pageTableSize n < n + 3 := by
  unfold pageTableSize
  split
  · omega
  · omega

variable {lines : List CString} {ran : List (Nat × CString)}

theorem Loaded.load (h : Loaded c lines pid ran m done k)
    (hm : m < pageTableSize lines.length)
    (hroom : 3 * pageTableSize lines.length ≤ c.FRAME_STORE_SIZE) :
    (loadPage c pid m k).1 = 0 ∧ Loaded c lines pid ran (m + 1) done (loadPage c pid m k).2 ∧
      (loadPage c pid m k).2.queue = k.queue ∧ (loadPage c pid m k).2.lruCache = k.lruCache := by
  obtain ⟨mem₁, halloc, hmem₁⟩ := @frameAlloc_next c (pidString pid) k.shellmemory (3 * m) h.taken
    h.free (by omega)
  obtain ⟨mem', page', file', hfill, hfile', hindex', hvalid', hmem'⟩ :=
    @fillPage_spec (pidString pid) (3 * m) 3 0 mem₁
      { (k.pcbs pid).pageTable m with index := fun j => 3 * m + j, validBit := fun _ => false }
      (k.pcbs pid).sourceFile _ h.file (fun _ => rfl) fun _ _ => rfl
  obtain ⟨k', hk'⟩ : ∃ k' : Kernel σ, k' = { k with
      shellmemory := mem'
      pcbs := Function.update k.pcbs pid
        { (k.pcbs pid).setPage m page' with sourceFile := file' } } := ⟨_, rfl⟩
  have hload : loadPage c pid m k = (0, k') := by
    unfold loadPage
    rw [halloc, hk']
    dsimp only
    rw [show [0, 1, 2] = List.range' 0 3 from rfl, hfill]
  have hpcb : k'.pcbs pid = { (k.pcbs pid).setPage m page' with sourceFile := file' } := by
    rw [hk']
    exact Function.update_self ..
  have hmemory : k'.shellmemory = mem' := by rw [hk']
  have hpage : ∀ i, k'.page (pid, i) = if i = m then page' else k.page (pid, i) := by
    intro i
    unfold Kernel.page
    dsimp only
    rw [hpcb]
    exact Function.update_apply ..
  rw [hload]
  have hlen : (lines.drop (3 * m)).length = lines.length - 3 * m := List.length_drop
  obtain ⟨hsize₁, hsize₂⟩ := pageTableSize_spec lines.length
  refine ⟨rfl, ⟨?_, ?_, ?_, ?_, fun i hi j => ?_, fun i hi j hj => ?_, fun i hi j => ?_,
    fun x hx hlt => ?_, fun x hx => ?_, fun x hx hF => ?_, ?_, ?_, h.le, hm⟩, ?_, ?_⟩
  · rw [hpcb]
    exact h.size
  · rw [hpcb]
    exact h.counter
  · rw [hpcb]
    exact h.pages
  · rw [hpcb]
    dsimp only
    rw [hfile', List.drop_drop]
    congr 1
  · rw [hpage]
    split
    · next heq => rw [hindex', heq]
    · next hne => exact h.index i (by omega) j
  · rw [hpage]
    split
    · next heq =>
        rw [hvalid', if_neg (Nat.not_lt_zero j), heq, decide_eq_decide, hlen]
        omega
    · next hne => exact h.valid i (by omega) j hj
  · rw [hpage, if_neg (by omega)]
    exact h.absent i (by omega) j
  · rw [hmemory, hmem']
    split
    · next hin =>
        dsimp only
        rw [Nat.add_zero, List.getD_eq_getElem?_getD, List.getElem?_drop,
          ← List.getD_eq_getElem?_getD]
        congr 1
        omega
    · next hout =>
        rw [hmem₁, if_neg (by rw [hlen] at hout; omega)]
        exact h.value x (by rw [hlen] at hout; omega) hlt
  · rw [hmemory, hmem']
    split
    · exact pidString_ne pid
    · rw [hmem₁]
      split
      · exact pidString_ne pid
      · exact h.taken x (by omega)
  · rw [hmemory, hmem', if_neg (by omega), hmem₁, if_neg (by omega)]
    exact h.free x (by omega) hF
  · rw [hk']
    exact h.executed
  · rw [hk']
    exact h.stopped
  · rw [hk']
  · rw [hk']

/-! ## A line -/

variable {parseInput : CString → Kernel σ → Int × Kernel σ}

theorem Loaded.next (h : Loaded c lines pid ran m done k) (hdone : done < lines.length) :
    nextPage (k.pcbs pid) = done / 3 ∧ (k.pcbs pid).programCounter (done / 3) = done % 3 := by
  obtain ⟨hsize, -⟩ := pageTableSize_spec lines.length
  have hfind : (List.range (k.pcbs pid).pageTableSize).find?
      (fun i => decide ((k.pcbs pid).programCounter i ≠ 3)) = some (done / 3) := by
    rw [List.find?_range_eq_some]
    refine ⟨decide_eq_true ?_, ?_, fun x hx => ?_⟩
    · rw [h.counter]
      omega
    · rw [List.mem_range, h.pages]
      omega
    · rw [Bool.not_eq_true', decide_eq_false_iff_not, h.counter]
      omega
  refine ⟨?_, ?_⟩
  · unfold nextPage
    rw [hfind]
    rfl
  · rw [h.counter]
    omega

/-- The next line is in memory and is run. -/
theorem Loaded.hit (h : Loaded c lines pid ran m done k) (hc : Cached pid m k)
    (ho : Ordinary (· ∈ lines) c parseInput) (hdone : done < lines.length) (hin : done / 3 < m)
    (hroom : 3 * pageTableSize lines.length ≤ c.FRAME_STORE_SIZE) :
    (runNext parseInput c pid k).1 = 0 ∧
      Loaded c lines pid ran m (done + 1) (runNext parseInput c pid k).2 ∧
      Cached pid m (runNext parseInput c pid k).2 ∧
      (runNext parseInput c pid k).2.queue = k.queue := by
  obtain ⟨hnext, hplace⟩ := h.next hdone
  have hindex := h.index _ hin (done % 3)
  have hvalid := h.valid _ hin (done % 3) (Nat.mod_lt _ (by decide))
  have hat : 3 * (done / 3) + done % 3 = done := by omega
  rw [hat] at hindex hvalid
  rw [decide_eq_true hdone] at hvalid
  have hroom' := h.room
  have hline : memGetValueAt k.shellmemory done = lines.getD done [] :=
    h.value done (by omega) hdone
  obtain ⟨k₁, hk₁⟩ : ∃ k₁ : Kernel σ,
      k₁ = { k with executed := k.executed ++ [(pid, lines.getD done [])] } := ⟨_, rfl⟩
  obtain ⟨r, hr⟩ : ∃ r, parseInput (lines.getD done []) k₁ = r := ⟨_, rfl⟩
  have hmem : lines.getD done [] ∈ lines := by
    rw [List.getD_eq_getElem?_getD, List.getElem?_eq_getElem hdone, Option.getD_some]
    exact List.getElem_mem hdone
  have hne : r.1 ≠ 1 := hr ▸ ho.answer _ hmem _
  have hpcbs : r.2.pcbs = k.pcbs := by rw [← hr, ho.pcbs _ hmem, hk₁]
  have hframes : ∀ x, x < c.FRAME_STORE_SIZE → r.2.shellmemory x = k.shellmemory x := by
    intro x hx
    rw [← hr, ho.frames _ hmem _ _ hx, hk₁]
  -- The state behind the line, before the cache is seen to.
  obtain ⟨k₂, hk₂⟩ : ∃ k₂ : Kernel σ, k₂ = r.2.setPcb pid { r.2.pcbs pid with
      programCounter := Function.update (r.2.pcbs pid).programCounter (done / 3)
        ((r.2.pcbs pid).programCounter (done / 3) + 1)
      size := (r.2.pcbs pid).size - 1 } := ⟨_, rfl⟩
  have hcpu : cpuRun parseInput pid (done / 3) (done % 3) k = (r.1, k₂) := by
    unfold cpuRun
    rw [if_neg (by rw [hvalid]; simp), hindex, hline]
    dsimp only
    rw [← hk₁, hr, ← hk₂]
  have hpcb : k₂.pcbs pid = { k.pcbs pid with
      programCounter := Function.update (k.pcbs pid).programCounter (done / 3)
        ((k.pcbs pid).programCounter (done / 3) + 1)
      size := (k.pcbs pid).size - 1 } := by
    rw [hk₂, ← hpcbs]
    exact Function.update_self ..
  have hpage : ∀ i, k₂.page (pid, i) = k.page (pid, i) := by
    intro i
    unfold Kernel.page
    dsimp only
    rw [hpcb]
  have hmemory : k₂.shellmemory = r.2.shellmemory := by rw [hk₂]; rfl
  have hlru : k₂.lruCache = k.lruCache := by
    rw [hk₂]
    show r.2.lruCache = _
    rw [← hr, ho.lruCache _ hmem, hk₁]
  have hqueue : k₂.queue = k.queue := by
    rw [hk₂]
    show r.2.queue = _
    rw [← hr, ho.queue _ hmem, hk₁]
  have hstopped : k₂.stopped = k.stopped := by
    rw [hk₂]
    show r.2.stopped = _
    rw [← hr, ho.stopped _ hmem, hk₁]
  have hexecuted : k₂.executed = k.executed ++ [(pid, lines.getD done [])] := by
    rw [hk₂]
    show r.2.executed = _
    rw [← hr, ho.executed _ hmem, hk₁]
  have hrun : runNext parseInput c pid k = (0, touchPage pid (done / 3) k₂) := by
    unfold runNext
    dsimp only
    rw [hnext, hplace]
    unfold runProc
    rw [hcpu]
    exact if_neg hne
  -- The page is in the cache, and no other has its first frame.
  have hequal : ∀ i, i < m → (pageEqual k₂ (pid, done / 3) (pid, i) = true ↔ i = done / 3) := by
    intro i hi
    unfold pageEqual
    rw [decide_eq_true_iff, hpage, hpage, h.index _ hin, h.index _ hi]
    omega
  have hfind : k₂.lruCache.find? (pageEqual k₂ (pid, done / 3)) = some (pid, done / 3) := by
    cases hfind : k₂.lruCache.find? (pageEqual k₂ (pid, done / 3)) with
    | none =>
        rw [List.find?_eq_none] at hfind
        exact absurd ((hequal _ hin).2 rfl) (hfind _ (hlru ▸ hc.mem _ hin))
    | some p =>
        obtain ⟨i, hi, rfl⟩ := hc.only p (hlru ▸ List.mem_of_find?_eq_some hfind)
        rw [(hequal i hi).1 (List.find?_some hfind)]
  have htouch : touchPage pid (done / 3) k₂ = { k₂ with
      lruCache := (pid, done / 3) :: k₂.lruCache.eraseP (pageEqual k₂ (pid, done / 3)) } := by
    unfold touchPage
    rw [hfind]
  rw [hrun, htouch]
  refine ⟨rfl, ⟨?_, fun i => ?_, ?_, ?_, fun i hi j => ?_, fun i hi j hj => ?_, fun i hi j => ?_,
    fun x hx hlt => ?_, fun x hx => ?_, fun x hx hF => ?_, ?_, hstopped.trans h.stopped, hdone,
    h.room⟩, ⟨fun i hi => ?_, fun p hp => ?_⟩, hqueue⟩
  · show (k₂.pcbs pid).size = _
    rw [hpcb]
    dsimp only
    rw [h.size]
    omega
  · show (k₂.pcbs pid).programCounter i = _
    rw [hpcb]
    dsimp only
    rw [Function.update_apply]
    split
    · next heq =>
        rw [heq, h.counter]
        omega
    · next hnext =>
        rw [h.counter]
        omega
  · show (k₂.pcbs pid).pageTableSize = _
    rw [hpcb]
    exact h.pages
  · show delivered (k₂.pcbs pid).sourceFile = _
    rw [hpcb]
    exact h.file
  · show (k₂.page (pid, i)).index j = _
    rw [hpage]
    exact h.index i hi j
  · show (k₂.page (pid, i)).validBit j = _
    rw [hpage]
    exact h.valid i hi j hj
  · show (k₂.page (pid, i)).validBit j = _
    rw [hpage]
    exact h.absent i hi j
  · show (k₂.shellmemory x).value = _
    rw [hmemory, hframes x (by omega)]
    exact h.value x hx hlt
  · show (k₂.shellmemory x).var ≠ _
    rw [hmemory, hframes x (by omega)]
    exact h.taken x hx
  · show (k₂.shellmemory x).var = _
    rw [hmemory, hframes x hF]
    exact h.free x hx hF
  · show k₂.executed = _
    rw [hexecuted, h.executed, List.append_assoc, List.getD_eq_getElem?_getD, List.take_add_one,
      List.getElem?_eq_getElem hdone, List.map_append]
    rfl
  · show (pid, i) ∈ (pid, done / 3) :: _
    by_cases heq : i = done / 3
    · rw [heq]
      exact List.mem_cons_self
    · refine List.mem_cons_of_mem _ ((List.mem_eraseP_of_neg ?_).2 (hlru ▸ hc.mem i hi))
      rw [hequal i hi]
      exact heq
  · rcases List.mem_cons.1 hp with rfl | hp
    · exact ⟨done / 3, hin, rfl⟩
    · exact hc.only p (hlru ▸ List.mem_of_mem_eraseP hp)

/-- It is the first of a page that is not: the page is loaded. -/
theorem Loaded.miss (h : Loaded c lines pid ran m done k) (hc : Cached pid m k)
    (hdone : done < lines.length) (hout : done / 3 = m)
    (hroom : 3 * pageTableSize lines.length ≤ c.FRAME_STORE_SIZE) :
    (runNext parseInput c pid k).1 = 1 ∧
      Loaded c lines pid ran (m + 1) done (runNext parseInput c pid k).2 ∧
      Cached pid (m + 1) (runNext parseInput c pid k).2 ∧
      (runNext parseInput c pid k).2.queue = k.queue ++ [pid] := by
  obtain ⟨hnext, hplace⟩ := h.next hdone
  obtain ⟨hsize, -⟩ := pageTableSize_spec lines.length
  obtain ⟨hret, hload, hqueue, hlru⟩ := h.load (by omega) hroom
  have hrun : runNext parseInput c pid k = (1, { (loadPage c pid m k).2 with
      lruCache := (pid, m) :: (loadPage c pid m k).2.lruCache
      queue := (loadPage c pid m k).2.queue ++ [pid] }) := by
    unfold runNext
    dsimp only
    rw [hnext, hplace, hout]
    unfold runProc cpuRun
    rw [if_pos (h.absent m (Nat.le_refl _) _)]
    dsimp only
    rw [if_pos rfl]
    unfold pageFault
    dsimp only
    rw [hret, if_neg (by decide)]
  rw [hrun]
  generalize (loadPage c pid m k).2 = k' at hload hqueue hlru ⊢
  refine ⟨rfl, ⟨hload.size, hload.counter, hload.pages, hload.file, hload.index, hload.valid,
    hload.absent, hload.value, hload.taken, hload.free, hload.executed, hload.stopped, hload.le,
    hload.room⟩, ⟨fun i hi => ?_, fun p hp => ?_⟩, by rw [hqueue]⟩
  · show (pid, i) ∈ (pid, m) :: k'.lruCache
    by_cases heq : i = m
    · rw [heq]
      exact List.mem_cons_self
    · exact List.mem_cons_of_mem _ (hlru ▸ hc.mem i (by omega))
  · rcases List.mem_cons.1 hp with rfl | hp
    · exact ⟨m, Nat.lt_succ_self m, rfl⟩
    · obtain ⟨i, hi, rfl⟩ := hc.only p (hlru ▸ hp)
      exact ⟨i, by omega, rfl⟩

/-! ## The run -/

theorem runProcRR_done {fuel : Nat} (hstopped : k.stopped = false) (hdone : queueDone k = true) :
    runProcRR parseInput c fuel k = some (rrEnd k) := by
  rw [runProcRR.eq_def]
  simp only [hstopped, hdone, Bool.false_eq_true, if_false, if_true]

theorem runProcRR_turn {fuel : Nat} (hstopped : k.stopped = false) (hdone : queueDone k = false)
    (hqueue : k.queue = [pid]) :
    runProcRR parseInput c (fuel + 1) k =
      runProcRR parseInput c fuel (rrTurn parseInput c pid { k with queue := [] }) := by
  rw [runProcRR.eq_def]
  simp only [hstopped, hdone, Bool.false_eq_true, if_false, hqueue]

/-- The queue does not matter to the process that was taken from it. -/
theorem Loaded.setQueue (h : Loaded c lines pid ran m done k) (queue : List Nat) :
    Loaded c lines pid ran m done { k with queue := queue } :=
  ⟨h.size, h.counter, h.pages, h.file, h.index, h.valid, h.absent, h.value, h.taken, h.free,
    h.executed, h.stopped, h.le, h.room⟩

theorem Cached.setQueue (h : Cached pid m k) (queue : List Nat) :
    Cached pid m { k with queue := queue } := ⟨h.mem, h.only⟩

theorem Loaded.not_queueDone (h : Loaded c lines pid ran m done k) (hdone : done < lines.length)
    (hqueue : k.queue = [pid]) : queueDone k = false := by
  obtain ⟨hsize, -⟩ := pageTableSize_spec lines.length
  unfold queueDone pcbDone
  rw [hqueue, List.all_cons, List.all_nil, Bool.and_true, h.pages, List.all_eq_false]
  refine ⟨done / 3, by rw [List.mem_range]; omega, ?_⟩
  rw [decide_eq_true_iff, h.counter]
  omega

/-- All lines were run. -/
def Finished (parseInput : CString → Kernel σ → Int × Kernel σ) (c : Sizes)
    (lines : List CString) (pid : Nat) (ran : List (Nat × CString)) (k : Kernel σ) : Prop :=
  ∃ fuel k', runProcRR parseInput c fuel k = some k' ∧ k'.stopped = false ∧
    k'.executed = ran ++ lines.map fun line => (pid, line)

theorem Loaded.finished_done (h : Loaded c lines pid ran m lines.length k)
    (hdone : queueDone k = true) : Finished parseInput c lines pid ran k := by
  refine ⟨0, rrEnd k, runProcRR_done h.stopped hdone, h.stopped, ?_⟩
  show k.executed = _
  rw [h.executed, List.take_length]

theorem Finished.turn (hstopped : k.stopped = false) (hdone : queueDone k = false)
    (hqueue : k.queue = [pid])
    (h : Finished parseInput c lines pid ran (rrTurn parseInput c pid { k with queue := [] })) :
    Finished parseInput c lines pid ran k := by
  obtain ⟨fuel, k', hrun, hend⟩ := h
  exact ⟨fuel + 1, k', by rw [runProcRR_turn hstopped hdone hqueue, hrun], hend⟩

theorem Loaded.finished_end (h : Loaded c lines pid ran m lines.length k)
    (hqueue : k.queue = [pid]) : Finished parseInput c lines pid ran k := by
  cases hdone : queueDone k with
  | true => exact h.finished_done hdone
  | false =>
      refine .turn h.stopped hdone hqueue ?_
      have hturn : rrTurn parseInput c pid { k with queue := [] } = { k with queue := [] } := by
        unfold rrTurn
        rw [(h.setQueue []).size, if_neg (by omega), if_neg (by omega)]
      rw [hturn]
      exact (h.setQueue []).finished_done rfl

/-- `left` bounds the lines and the pages that are left. -/
theorem Loaded.finished (ho : Ordinary (· ∈ lines) c parseInput)
    (hroom : 3 * pageTableSize lines.length ≤ c.FRAME_STORE_SIZE) (left : Nat) :
    ∀ {m done : Nat} {k : Kernel σ},
      (lines.length - done) + (pageTableSize lines.length - m) ≤ left →
      Loaded c lines pid ran m done k → Cached pid m k → done ≤ 3 * m → k.queue = [pid] →
      Finished parseInput c lines pid ran k := by
  induction left with
  | zero =>
      intro m done k hleft h hc hreach hqueue
      have hle := h.le
      obtain rfl : done = lines.length := by omega
      exact h.finished_end hqueue
  | succ left ih =>
      intro m done k hleft h hc hreach hqueue
      have hle := h.le
      have hroom' := h.room
      obtain ⟨hsize, -⟩ := pageTableSize_spec lines.length
      have h₀ := h.setQueue []
      have hc₀ := hc.setQueue []
      rcases Nat.lt_or_ge done lines.length with hlt | hge
      · refine .turn h.stopped (h.not_queueDone hlt hqueue) hqueue ?_
        by_cases hout : done / 3 = m
        · -- A page fault: the process is at the tail of the queue again.
          obtain ⟨hret, hload, hcache, hback⟩ := @Loaded.miss σ c { k with queue := [] } pid m done
            lines ran parseInput h₀ hc₀ hlt hout hroom
          have hturn : rrTurn parseInput c pid { k with queue := [] } =
              (runNext parseInput c pid { k with queue := [] }).2 := by
            unfold rrTurn
            dsimp only
            rw [h₀.size, hret, if_pos rfl]
            split
            · rfl
            · rw [if_pos (by omega)]
          rw [hturn]
          exact ih (by omega) hload hcache (by omega) hback
        · obtain ⟨hret, h₁, hc₁, hqueue₁⟩ := h₀.hit hc₀ ho hlt (by omega) hroom
          by_cases hone : done + 1 = lines.length
          · -- The last line; the process is not put back.
            have hturn : rrTurn parseInput c pid { k with queue := [] } =
                (runNext parseInput c pid { k with queue := [] }).2 := by
              unfold rrTurn
              rw [h₀.size, if_neg (by omega), if_pos (by omega)]
            rw [hturn]
            rw [hone] at h₁
            refine h₁.finished_done ?_
            unfold queueDone
            rw [hqueue₁]
            rfl
          · have hturn : rrTurn parseInput c pid { k with queue := [] } =
                if (runNext parseInput c pid
                    (runNext parseInput c pid { k with queue := [] }).2).1 = 1 then
                  (runNext parseInput c pid (runNext parseInput c pid { k with queue := [] }).2).2
                else { (runNext parseInput c pid
                    (runNext parseInput c pid { k with queue := [] }).2).2 with
                  queue := (runNext parseInput c pid
                    (runNext parseInput c pid { k with queue := [] }).2).2.queue ++ [pid] } := by
              unfold rrTurn
              dsimp only
              rw [h₀.size, if_pos (by omega), hret, if_neg (by decide)]
            rw [hturn]
            generalize (runNext parseInput c pid { k with queue := [] }).2 = k₁ at h₁ hc₁ hqueue₁ ⊢
            by_cases hout₁ : (done + 1) / 3 = m
            · obtain ⟨hret₁, hload, hcache, hback⟩ := @Loaded.miss σ c k₁ pid m (done + 1) lines ran
                parseInput h₁ hc₁ (by omega) hout₁ hroom
              rw [if_pos hret₁]
              refine ih (by omega) hload hcache (by omega) ?_
              rw [hback, hqueue₁]
              rfl
            · obtain ⟨hret₁, h₂, hc₂, hqueue₂⟩ := h₁.hit hc₁ ho (by omega) (by omega) hroom
              rw [if_neg (by rw [hret₁]; decide)]
              refine ih (by omega) (h₂.setQueue _) (hc₂.setQueue _) (by omega) ?_
              rw [hqueue₂, hqueue₁]
              rfl
      · obtain rfl : done = lines.length := by omega
        exact h.finished_end hqueue

/-! ## The start -/

theorem Loaded.start (hi : Idle c k) (hsize : countLines content = lines.length)
    (hlines : delivered content = lines) :
    Loaded c lines pid k.executed 0 0
      { k.setPcb pid (pcbStart pid content) with pidCounter := pid + 1 } := by
  have hpcb : (k.setPcb pid (pcbStart pid content)).pcbs pid = pcbStart pid content :=
    Function.update_self ..
  refine ⟨?_, fun i => ?_, ?_, ?_, fun i hi => absurd hi (Nat.not_lt_zero i),
    fun i hi => absurd hi (Nat.not_lt_zero i), fun i _ j => ?_,
    fun x hx => absurd hx (Nat.not_lt_zero x), fun x hx => absurd hx (Nat.not_lt_zero x),
    fun x _ hF => hi.free x hF, (List.append_nil _).symm, hi.stopped, Nat.zero_le _,
    Nat.zero_le _⟩
  · show ((k.setPcb pid (pcbStart pid content)).pcbs pid).size = _
    rw [hpcb]
    show (countLines content : Int) = _
    rw [hsize]
    omega
  · show ((k.setPcb pid (pcbStart pid content)).pcbs pid).programCounter i = _
    rw [hpcb, Nat.zero_sub, Nat.min_zero]
    rfl
  · show ((k.setPcb pid (pcbStart pid content)).pcbs pid).pageTableSize = _
    rw [hpcb, ← hsize]
    rfl
  · show delivered ((k.setPcb pid (pcbStart pid content)).pcbs pid).sourceFile = _
    rw [hpcb]
    exact hlines
  · show (((k.setPcb pid (pcbStart pid content)).pcbs pid).pageTable i).validBit j = false
    rw [hpcb]
    rfl

theorem initPage_eq {i : Nat} (hret : (loadPage c pid i k).1 = 0) :
    initPage c pid k i = (loadPage c pid i k).2 := by
  unfold initPage
  dsimp only
  rw [hret, if_neg (by decide)]

theorem Loaded.initPages (h : Loaded c lines pid ran 0 done k)
    (hroom : 3 * pageTableSize lines.length ≤ c.FRAME_STORE_SIZE) (m : Nat)
    (hm : m ≤ pageTableSize lines.length) :
    Loaded c lines pid ran m done ((List.range m).foldl (initPage c pid) k) ∧
      ((List.range m).foldl (initPage c pid) k).queue = k.queue ∧
      ((List.range m).foldl (initPage c pid) k).lruCache = k.lruCache := by
  induction m with
  | zero => exact ⟨h, rfl, rfl⟩
  | succ m ih =>
      obtain ⟨h₁, hqueue, hlru⟩ := ih (by omega)
      obtain ⟨hret, h₂, hqueue₂, hlru₂⟩ := h₁.load hm hroom
      rw [List.range_succ, List.foldl_append, List.foldl_cons, List.foldl_nil, initPage_eq hret]
      exact ⟨h₂, hqueue₂.trans hqueue, hlru₂.trans hlru⟩

theorem mem_lruStart (pid m : Nat) (p : Nat × Nat) :
    p ∈ (List.range m).foldl (fun lru i => (pid, i) :: lru) [] ↔ ∃ i, i < m ∧ p = (pid, i) := by
  induction m with
  | zero => simp
  | succ m ih =>
      rw [List.range_succ, List.foldl_append, List.foldl_cons, List.foldl_nil, List.mem_cons, ih]
      constructor
      · rintro (rfl | ⟨i, hi, rfl⟩)
        · exact ⟨m, Nat.lt_succ_self m, rfl⟩
        · exact ⟨i, by omega, rfl⟩
      · rintro ⟨i, hi, rfl⟩
        by_cases heq : i = m
        · exact .inl (by rw [heq])
        · exact .inr ⟨i, by omega, rfl⟩

theorem runsThrough (hsize : countLines content = (delivered content).length) :
    RunsThrough content := by
  intro σ c parseInput k ho hi hroom
  rw [hsize] at hroom
  obtain ⟨hpages, -⟩ := pageTableSize_spec (delivered content).length
  have hlimit : pageLimit (pcbStart k.pidCounter content) =
      min 2 (pageTableSize (delivered content).length) := by
    rw [← hsize]
    rfl
  have hstart := @Loaded.start σ c k content k.pidCounter _ hi hsize rfl
  obtain ⟨h₀, hqueue, hlru⟩ := hstart.initPages hroom
    (min 2 (pageTableSize (delivered content).length)) (Nat.min_le_right ..)
  obtain ⟨k₀, hk₀⟩ : ∃ k₀ : Kernel σ, k₀ = (List.range
      (min 2 (pageTableSize (delivered content).length))).foldl (initPage c k.pidCounter)
        { k.setPcb k.pidCounter (pcbStart k.pidCounter content) with
          pidCounter := k.pidCounter + 1 } := ⟨_, rfl⟩
  rw [← hk₀] at h₀ hqueue hlru
  have hnew : newProc c content k = { k₀ with
      allPcb := k₀.allPcb ++ [k.pidCounter]
      queue := k₀.queue ++ [k.pidCounter]
      lruCache := (List.range (min 2 (pageTableSize (delivered content).length))).foldl
        (fun lru i => (k.pidCounter, i) :: lru) k₀.lruCache } := by
    unfold newProc
    dsimp only
    rw [hlimit, ← hk₀]
  rw [hnew]
  refine @Loaded.finished σ c k.pidCounter (delivered content) k.executed parseInput ho
    hroom _ _ 0 _ (Nat.le_refl _) ⟨h₀.size, h₀.counter, h₀.pages, h₀.file, h₀.index, h₀.valid,
      h₀.absent, h₀.value, h₀.taken, h₀.free, h₀.executed, h₀.stopped, h₀.le, h₀.room⟩
    ⟨fun i him => ?_, fun p hp => ?_⟩ (Nat.zero_le _) ?_
  · show (k.pidCounter, i) ∈ (List.range _).foldl (fun lru i => (k.pidCounter, i) :: lru) k₀.lruCache
    rw [hlru, show (k.setPcb k.pidCounter (pcbStart k.pidCounter content)).lruCache = [] from
      hi.lruCache, mem_lruStart]
    exact ⟨i, him, rfl⟩
  · replace hp : p ∈ (List.range _).foldl (fun lru i => (k.pidCounter, i) :: lru) k₀.lruCache := hp
    rwa [hlru, show (k.setPcb k.pidCounter (pcbStart k.pidCounter content)).lruCache = [] from
      hi.lruCache, mem_lruStart] at hp
  · show k₀.queue ++ [k.pidCounter] = [k.pidCounter]
    rw [hqueue, show (k.setPcb k.pidCounter (pcbStart k.pidCounter content)).queue = [] from
      hi.queue, List.nil_append]

end Load

/-! ## Valid scripts -/

instance (line : CString) : Decidable (ShortLine line) := inferInstanceAs (Decidable (_ < _))

/-- A script is valid when its last line alone makes up for the line that is counted at the end:
no line is blank and the last has no newline, or one is blank and the last has its newline. -/
theorem validScript_iff (content : CString) (hshort : ∀ line ∈ textLines content, ShortLine line) :
    ValidScript content ↔ blankLines content + openEnd content = 1 := by
  have hcount := countLines_add content
  constructor
  · intro h
    have hsize := h.size
    rw [delivered_eq hshort] at hsize
    omega
  · intro h
    have hsize : countLines content = (delivered content).length := by
      rw [delivered_eq hshort]
      omega
    exact ⟨hsize, runsThrough hsize⟩

theorem validScript_help : ValidScript "help\nls".toList :=
  (validScript_iff "help\nls".toList (by decide)).2 (by decide)

/-- The newline at the end of the last line is counted as a line. -/
theorem not_validScript_newline : ¬ValidScript "ls\n".toList :=
  fun h => absurd h.size (by decide)

end SimpleShell.A3
