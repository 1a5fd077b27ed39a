import Mathlib.Data.List.Basic
import SimpleShell.A2.Kernel

/-!
# What the loaders load

Both loaders ask `feof` before `fgets`, so a file is to them a list of reads: its
lines, and once more the last one if a newline ends it, since the end of such a
file only shows when a read finds nothing. `reads` is that list. A load takes the
next three reads, or six at the start, and makes pages of them; the places of the
last page that get no line take a frame as well.
-/

namespace SimpleShell.A2

open SimpleShell.Shell (CString MemoryStruct noneText)

/-! ## Lines and reads -/

/-- The lines of a text, each with its newline. -/
def textLines : CString → List CString
  | [] => []
  | letter :: rest =>
      if letter = '\n' then ['\n'] :: textLines rest
      else match textLines rest with
        | [] => [[letter]]
        | line :: lines => (letter :: line) :: lines

/-- A newline ends the text. -/
def Terminated (content : CString) : Prop := content.getLast? = some '\n'

instance (content : CString) : Decidable (Terminated content) :=
  inferInstanceAs (Decidable (_ = _))

/-- A line that fits the buffer: at most 98 characters and a newline. -/
def Short (line : CString) : Prop := (line.takeWhile (· ≠ '\n')).length ≤ 98

/-- What the reads of a loader deliver, up to the one that meets the end. -/
def reads (content : CString) : List CString :=
  if Terminated content then textLines content ++ (textLines content).getLast?.toList
  else textLines content

theorem textLines_eq_nil {content : CString} : textLines content = [] ↔ content = [] := by
  cases content with
  | nil => simp [textLines]
  | cons letter rest =>
      simp only [textLines, reduceCtorEq, iff_false]
      split
      · exact List.cons_ne_nil _ _
      · split <;> exact List.cons_ne_nil _ _

/-- The first line, and the rest of the text after it. -/
theorem textLines_cons {content line : CString} {lines : List CString}
    (h : textLines content = line :: lines) :
    ∃ rest, content = line ++ rest ∧ textLines rest = lines ∧
      ((∃ front, line = front ++ ['\n'] ∧ '\n' ∉ front) ∨ ('\n' ∉ line ∧ rest = [])) := by
  induction content generalizing line lines with
  | nil => cases h
  | cons letter content ih =>
      simp only [textLines] at h
      split at h
      · next hnl =>
          simp only [List.cons.injEq] at h
          obtain ⟨rfl, rfl⟩ := h
          exact ⟨content, by simp [hnl], rfl, .inl ⟨[], by simp, by simp⟩⟩
      · next hnl =>
          split at h
          · next hrest =>
              simp only [List.cons.injEq] at h
              obtain ⟨rfl, rfl⟩ := h
              rw [textLines_eq_nil] at hrest
              subst hrest
              exact ⟨[], rfl, rfl, .inr ⟨by simpa using Ne.symm hnl, rfl⟩⟩
          · next line' lines' hrest =>
              simp only [List.cons.injEq] at h
              obtain ⟨rfl, rfl⟩ := h
              obtain ⟨rest, rfl, hlines, hend⟩ := ih hrest
              refine ⟨rest, rfl, hlines, ?_⟩
              rcases hend with ⟨front, rfl, hfront⟩ | ⟨hline, hnil⟩
              · exact .inl ⟨letter :: front, rfl, by simp [Ne.symm hnl, hfront]⟩
              · exact .inr ⟨by simp [Ne.symm hnl, hline], hnil⟩

theorem readLine_newline {n : Nat} {front rest : CString} (hfront : '\n' ∉ front)
    (hn : front.length < n) :
    readLine n (front ++ '\n' :: rest) = (front ++ ['\n'], rest, false) := by
  induction front generalizing n with
  | nil =>
      obtain ⟨n, rfl⟩ : ∃ m, n = m + 1 := ⟨n - 1, by simp only [List.length_nil] at hn; omega⟩
      simp [readLine]
  | cons letter front ih =>
      obtain ⟨n, rfl⟩ : ∃ m, n = m + 1 := ⟨n - 1, by simp only [List.length_cons] at hn; omega⟩
      simp only [List.mem_cons, not_or] at hfront
      simp only [List.cons_append, readLine, if_neg (Ne.symm hfront.1)]
      rw [ih hfront.2 (by simpa using hn)]

theorem readLine_end {n : Nat} {line : CString} (hline : '\n' ∉ line) (hn : line.length < n) :
    readLine n line = (line, [], true) := by
  induction line generalizing n with
  | nil =>
      obtain ⟨n, rfl⟩ : ∃ m, n = m + 1 := ⟨n - 1, by simp only [List.length_nil] at hn; omega⟩
      rfl
  | cons letter line ih =>
      obtain ⟨n, rfl⟩ : ∃ m, n = m + 1 := ⟨n - 1, by simp only [List.length_cons] at hn; omega⟩
      simp only [List.mem_cons, not_or] at hline
      simp only [readLine, if_neg (Ne.symm hline.1)]
      rw [ih hline.2 (by simpa using hn)]

/-- `fgets` on a file with a first line. -/
theorem fgets_line {l line : CString} {f : Stream} {lines : List CString}
    (h : textLines f.rest = line :: lines) (hshort : Short line) :
    (fgets l f).1 = line ∧ f.rest = line ++ (fgets l f).2.rest ∧
      textLines (fgets l f).2.rest = lines ∧
      (fgets l f).2.eof = decide ('\n' ∉ line) := by
  obtain ⟨rest, hrest, hlines, hend⟩ := textLines_cons h
  unfold fgets
  rw [hrest]
  rcases hend with ⟨front, rfl, hfront⟩ | ⟨hline, rfl⟩
  · have hn : front.length < 99 := by
      have hlen := hshort
      rw [Short, List.takeWhile_append_of_pos fun x hx => by
        simpa using fun hnl : x = '\n' => hfront (hnl ▸ hx)] at hlen
      simpa using Nat.lt_succ_of_le hlen
    rw [List.append_assoc, List.singleton_append, readLine_newline hfront hn]
    simp [hlines]
  · have hne : line ≠ [] := by
      intro hnil
      rw [hrest, hnil] at h
      cases h
    have hn : line.length < 99 := by
      have hlen := hshort
      have hall : line.takeWhile (· ≠ '\n') = line := by
        rw [← List.append_nil line, List.takeWhile_append_of_pos fun x hx => by
          simpa using fun hnl : x = '\n' => hline (hnl ▸ hx), List.takeWhile_nil]
      rw [Short, hall] at hlen
      omega
    rw [List.append_nil, readLine_end hline hn]
    simp [hne, hline, ← hlines]

theorem fgets_empty {command : CString} {fp : Stream} (h : fp.rest = []) :
    fgets command fp = (command, ⟨[], true⟩) := by
  unfold fgets
  rw [h]
  rfl

/-- The reads from here on are these, and the last one meets the end. -/
def Feeds : CString → Stream → List CString → Prop
  | _, fp, [] => fp.eof = true
  | command, fp, line :: lines =>
      fp.eof = false ∧ (fgets command fp).1 = line ∧ Feeds line (fgets command fp).2 lines

/-- A newline ends the text if one ends its last line. -/
theorem terminated_append {line rest : CString} (h : rest ≠ []) :
    Terminated (line ++ rest) ↔ Terminated rest := by
  rw [Terminated, Terminated, List.getLast?_append_of_ne_nil _ h]

theorem reads_append {line rest : CString} (h : textLines (line ++ rest) = line :: textLines rest)
    (hrest : rest ≠ []) : reads (line ++ rest) = line :: reads rest := by
  obtain ⟨next, tail, htail⟩ := List.exists_cons_of_ne_nil
    fun hnil => hrest (textLines_eq_nil.1 hnil)
  simp only [reads, terminated_append hrest, h, htail]
  split <;> simp

/-- The loader's reads of a file are its lines, and the last one again if a
newline ends it. -/
theorem feeds_reads {content : CString} (hne : content ≠ [])
    (hshort : ∀ line ∈ textLines content, Short line) (command : CString) :
    Feeds command ⟨content, false⟩ (reads content) := by
  obtain ⟨lines, hlines⟩ : ∃ lines, lines = textLines content := ⟨_, rfl⟩
  induction lines generalizing content command with
  | nil => exact absurd (textLines_eq_nil.1 hlines.symm) hne
  | cons line lines ih =>
      have hline : Short line := hshort line (by rw [← hlines]; exact List.mem_cons_self)
      obtain ⟨hget, hsplit, hrest, heof⟩ :=
        fgets_line (l := command) (f := ⟨content, false⟩) hlines.symm hline
      obtain ⟨fp, hfp⟩ : ∃ fp, fp = (fgets command ⟨content, false⟩).2 := ⟨_, rfl⟩
      rw [← hfp] at hsplit hrest heof
      change content = line ++ fp.rest at hsplit
      cases lines with
      | nil =>
          have hend := textLines_eq_nil.1 hrest
          rw [hend, List.append_nil] at hsplit
          subst hsplit
          by_cases hnl : '\n' ∈ content
          · have hterm : Terminated content := by
              obtain ⟨_, _, hr, hlast⟩ := textLines_cons hlines.symm
              rcases hlast with ⟨front, hf, _⟩ | ⟨hno, _⟩
              · rw [hf, Terminated]
                simp
              · exact absurd hnl hno
            have hreads : reads content = [content, content] := by
              simp [reads, hterm, ← hlines]
            rw [hreads]
            refine ⟨rfl, hget, ?_⟩
            rw [← hfp]
            refine ⟨by simpa [hnl] using heof, ?_, ?_⟩
            · rw [fgets_empty hend]
            · rw [fgets_empty hend]
              rfl
          · have hterm : ¬ Terminated content := fun hlast =>
              hnl (List.mem_of_getLast? hlast)
            have hreads : reads content = [content] := by simp [reads, hterm, ← hlines]
            rw [hreads]
            refine ⟨rfl, hget, ?_⟩
            rw [← hfp]
            show fp.eof = true
            simpa [hnl] using heof
      | cons next lines =>
          have hrne : fp.rest ≠ [] := fun hr => by
            rw [hr] at hrest
            cases hrest
          have hnl : '\n' ∈ line := by
            obtain ⟨rest, hr, hrl, hlast⟩ := textLines_cons hlines.symm
            rcases hlast with ⟨front, rfl, _⟩ | ⟨_, rfl⟩
            · simp
            · cases hrl
          have hreads : reads content = line :: reads fp.rest := by
            rw [hsplit] at hlines ⊢
            exact reads_append (by rw [← hlines, hrest]) hrne
          rw [hreads]
          refine ⟨rfl, hget, ?_⟩
          rw [← hfp]
          have hfalse : fp = ⟨fp.rest, false⟩ := by
            cases fp
            simpa [hnl] using heof
          rw [hfalse]
          exact ih hrne (fun l hl => hshort l (by
            rw [← hlines]
            rw [hrest] at hl
            exact List.mem_cons_of_mem _ hl)) line hrest.symm

theorem textLines_length_pos {content : CString} (h : content ≠ []) :
    0 < (textLines content).length :=
  List.length_pos_of_ne_nil fun hnil => h (textLines_eq_nil.1 hnil)

theorem reads_ne_nil {content : CString} (h : content ≠ []) : reads content ≠ [] := by
  have hlines : textLines content ≠ [] := fun hnil => h (textLines_eq_nil.1 hnil)
  unfold reads
  split
  · exact List.append_ne_nil_of_left_ne_nil hlines _
  · exact hlines

/-- `process_initialize` counts the reads. -/
theorem countLines_eq {content : CString} (hne : content ≠ []) :
    countLines content = (reads content).length := by
  obtain ⟨lines, hlines⟩ : ∃ lines, lines = textLines content := ⟨_, rfl⟩
  induction lines generalizing content with
  | nil => exact absurd (textLines_eq_nil.1 hlines.symm) hne
  | cons line lines ih =>
      obtain ⟨rest, hsplit, hrest, hend⟩ := textLines_cons hlines.symm
      subst hsplit
      have hcount : (line ++ rest).count '\n' = line.count '\n' + rest.count '\n' :=
        List.count_append ..
      by_cases hr : rest = []
      · subst hr
        rw [List.append_nil] at hlines hcount hne ⊢
        rcases hend with ⟨front, rfl, hfront⟩ | ⟨hline, -⟩
        · have hterm : Terminated (front ++ ['\n']) := by simp [Terminated]
          simp only [textLines] at hrest
          subst hrest
          simp [countLines, reads, hterm, ← hlines, List.count_eq_zero_of_not_mem hfront]
        · have hterm : ¬ Terminated line := fun hlast => hline (List.mem_of_getLast? hlast)
          simp only [textLines] at hrest
          subst hrest
          simp [countLines, reads, hterm, ← hlines, List.count_eq_zero_of_not_mem hline]
      · have hfront : line.count '\n' = 1 := by
          rcases hend with ⟨front, rfl, hfront⟩ | ⟨-, rfl⟩
          · simp [List.count_eq_zero_of_not_mem hfront]
          · exact absurd rfl hr
        rw [reads_append (by rw [← hlines, hrest]) hr, List.length_cons, ← ih hr hrest.symm,
          countLines, hcount, hfront, countLines]
        omega

/-! ## Pages -/

variable {w : World}

theorem Feeds.eof {command : CString} {fp : Stream} {lines : List CString}
    (h : Feeds command fp lines) : fp.eof = decide (lines = []) := by
  cases lines with
  | nil =>
      show fp.eof = true
      exact h
  | cons line lines => simpa using h.1

theorem Feeds.ne_nil {command : CString} {fp : Stream} {lines : List CString}
    (h : Feeds command fp lines) (hfp : fp.eof = false) : lines ≠ [] := by
  rw [h.eof] at hfp
  exact of_decide_eq_false hfp

/-- The lines that are loaded already are skipped. -/
theorem Feeds.skip {n : Nat} {command : CString} {fp : Stream} {lines : List CString}
    (h : Feeds command fp lines) (hn : n ≤ lines.length) :
    Feeds (skipLines n command fp).1 (skipLines n command fp).2 (lines.drop n) := by
  induction n generalizing command fp lines with
  | zero => exact h
  | succ n ih =>
      cases lines with
      | nil => simp at hn
      | cons line lines =>
          rw [skipLines, h.2.1, List.drop_succ_cons]
          exact ih h.2.2 (by simpa using hn)

theorem Feeds.linesRead {n : Nat} {command : CString} {fp : Stream} {lines : List CString}
    (h : Feeds command fp lines) : linesRead n fp = min n lines.length := by
  induction n generalizing command fp lines with
  | zero => simp [A2.linesRead]
  | succ n ih =>
      cases lines with
      | nil =>
          have heof : fp.eof = true := h
          simp [A2.linesRead, heof]
      | cons line lines =>
          have hsnd : (fgets [] fp).2 = (fgets command fp).2 := rfl
          rw [A2.linesRead, h.1, hsnd, ih h.2.2]
          simp only [Bool.false_eq_true, if_false, List.length_cons]
          omega

/-- A row of allocations. -/
def allocateFrames (w : World) (pid : Nat) : List CString → Kernel → List Int × Kernel
  | [], k => ([], k)
  | text :: texts, k =>
      let frame := allocateFrame w text pid k
      let rest := allocateFrames w pid texts frame.2
      (frame.1 :: rest.1, rest.2)

theorem allocateFrames_length {pid : Nat} {texts : List CString} {k : Kernel} :
    (allocateFrames w pid texts k).1.length = texts.length := by
  induction texts generalizing k with
  | nil => rfl
  | cons text texts ih => simp [allocateFrames, ih]

theorem allocateFrames_append {pid : Nat} {texts more : List CString} {k : Kernel} :
    allocateFrames w pid (texts ++ more) k =
      ((allocateFrames w pid texts k).1 ++
        (allocateFrames w pid more (allocateFrames w pid texts k).2).1,
        (allocateFrames w pid more (allocateFrames w pid texts k).2).2) := by
  induction texts generalizing k with
  | nil => rfl
  | cons text texts ih => simp [allocateFrames, ih]

/-- The page of a process with these frames and texts, the first `n` of them
lines. -/
def pageOf (owner : Nat) (frames : List Int) (texts : List CString) (n : Nat) : Page :=
  ⟨fun j => frames.getD j 0, fun j => decide (j < n), owner, fun j => texts.getD j []⟩

theorem update_getD {α : Type} (l : List α) (x d : α) :
    Function.update (fun j => l.getD j d) l.length x = fun j => (l ++ [x]).getD j d := by
  funext j
  rcases Nat.lt_trichotomy j l.length with hlt | heq | hgt
  · rw [Function.update_of_ne (by omega)]
    simp [List.getD_eq_getElem?_getD, List.getElem?_append_left hlt]
  · subst heq
    simp [List.getD_eq_getElem?_getD]
  · rw [Function.update_of_ne (by omega)]
    simp only [List.getD_eq_getElem?_getD]
    rw [List.getElem?_eq_none (by omega), List.getElem?_eq_none (by simp; omega)]

/-- The next place of a page gets a line. -/
theorem pageOf_line {b : Nat} {frames : List Int} {texts : List CString} {n : Nat} (hf : frames.length = n)
    (ht : texts.length = n) (frame : Int) (text : CString) :
    setPageText (setPageValidBits (setPageIndex (pageOf b frames texts n) n frame) n true) n text =
      pageOf b (frames ++ [frame]) (texts ++ [text]) (n + 1) := by
  have hbits : Function.update (fun j => decide (j < n)) n true = fun j => decide (j < n + 1) := by
    funext j
    by_cases hj : j = n
    · subst hj
      simp
    · rw [Function.update_of_ne hj]
      exact decide_eq_decide.2 (by omega)
  show Page.mk (Function.update (fun j => frames.getD j 0) n frame)
    (Function.update (fun j => decide (j < n)) n true) b
    (Function.update (fun j => texts.getD j []) n text) = _
  rw [hbits, pageOf, ← update_getD frames, ← update_getD texts, hf, ht]

/-- The next place of a page stays without one. -/
theorem pageOf_hold {b : Nat} {frames : List Int} {texts : List CString} {n i : Nat}
    (hf : frames.length = i) (ht : texts.length = i) (hn : n ≤ i) (frame : Int) (text : CString) :
    setPageText (setPageValidBits (setPageIndex (pageOf b frames texts n) i frame) i false) i text =
      pageOf b (frames ++ [frame]) (texts ++ [text]) n := by
  have hbits : Function.update (fun j => decide (j < n)) i false = fun j => decide (j < n) := by
    funext j
    by_cases hj : j = i
    · subst hj
      simpa using hn
    · rw [Function.update_of_ne hj]
  show Page.mk (Function.update (fun j => frames.getD j 0) i frame)
    (Function.update (fun j => decide (j < n)) i false) b
    (Function.update (fun j => texts.getD j []) i text) = _
  rw [hbits, pageOf, ← update_getD frames, ← update_getD texts, hf, ht]

/-- What a loader has done since `l`, at the start of page `q`, when the page has
the lines `texts` and `lines` are the reads to come. -/
structure PageRead (w : World) (q : Nat) (l l' : Load) (texts lines : List CString) : Prop where
  feeds : Feeds l'.command l'.fp lines
  command : texts ≠ [] → l'.command = texts.getLastD []
  lineCount : l'.lineCount = l.lineCount + texts.length
  lineIndexInPage : texts ≠ [] → l'.lineIndexInPage = texts.length - 1
  lineLocation : texts ≠ [] →
    l'.lineLocation = (allocateFrames w l.pcb.pid texts l.kernel).1.getD (texts.length - 1) 0
  page : texts ≠ [] →
    l'.page = pageOf l.pcb.pid (allocateFrames w l.pcb.pid texts l.kernel).1 texts texts.length
  pcb : l'.pcb = if texts = [] then l.pcb else
    { l.pcb with pageTable := l.pcb.pageTable.set q (some l'.page) }
  kernel : l'.kernel = (allocateFrames w l.pcb.pid texts l.kernel).2

variable {q : Nat} {l l' : Load} {texts lines : List CString}

theorem PageRead.pid (h : PageRead w q l l' texts lines) : l'.pcb.pid = l.pcb.pid := by
  rw [h.pcb]
  split <;> rfl

/-- One turn of the loop. -/
theorem PageRead.turn {line : CString} (h : PageRead w q l l' texts (line :: lines))
    (hcount : l.lineCount % 3 = 0) (hlen : texts.length < 3) :
    PageRead w q l (loadLine w q l') (texts ++ [line]) lines := by
  obtain ⟨heof, hget, hfeeds⟩ := h.feeds
  have hindex : l'.lineCount % 3 = texts.length := by
    rw [h.lineCount]
    omega
  have hpid := h.pid
  obtain ⟨frames, hframes⟩ : ∃ a, a = allocateFrames w l.pcb.pid texts l.kernel := ⟨_, rfl⟩
  have hframesLength : frames.1.length = texts.length := hframes ▸ allocateFrames_length
  obtain ⟨frame, hframe⟩ : ∃ a, a = allocateFrame w line l.pcb.pid frames.2 := ⟨_, rfl⟩
  have happend : allocateFrames w l.pcb.pid (texts ++ [line]) l.kernel =
      (frames.1 ++ [frame.1], frame.2) := by
    rw [allocateFrames_append, ← hframes]
    simp [allocateFrames, ← hframe]
  have hpage : (if l'.lineCount % 3 = 0 then makePAGE l.pcb.pid else l'.page) =
      pageOf l.pcb.pid frames.1 texts texts.length := by
    rw [hindex]
    by_cases hnil : texts = []
    · subst hnil
      rw [List.length_nil, if_pos rfl]
      rw [List.length_nil, List.length_eq_zero_iff] at hframesLength
      rw [hframesLength]
      rfl
    · rw [if_neg (by simpa using hnil), h.page hnil, ← hframes]
  have hstep : loadLine w q l' =
      { fp := (fgets l'.command l'.fp).2, command := line, lineCount := l'.lineCount + 1,
        lineIndexInPage := texts.length, lineLocation := frame.1,
        page := pageOf l.pcb.pid (frames.1 ++ [frame.1]) (texts ++ [line]) (texts.length + 1),
        pcb := { l'.pcb with
          pageTable := l'.pcb.pageTable.set q
            (some (pageOf l.pcb.pid (frames.1 ++ [frame.1]) (texts ++ [line]) (texts.length + 1))) },
        kernel := frame.2 } := by
    unfold loadLine
    dsimp only
    rw [hget, hpid, h.kernel, ← hframes, ← hframe, hpage, hindex, pageOf_line hframesLength rfl]
  rw [hstep]
  refine ⟨hfeeds, fun _ => by simp, ?_, fun _ => by simp, fun _ => ?_, fun _ => ?_, ?_, ?_⟩
  · show l'.lineCount + 1 = _
    rw [h.lineCount, List.length_append, List.length_singleton]
    omega
  · rw [happend]
    simp [← hframesLength]
  · rw [happend]
    simp
  · rw [if_neg (by simp)]
    show ({ l'.pcb with pageTable := _ } : PCB) = _
    rw [h.pcb]
    split
    · rfl
    · simp [List.set_set]
  · rw [happend]

theorem PageRead.start (h : Feeds l.command l.fp lines) : PageRead w q l l [] lines :=
  ⟨h, fun hne => absurd rfl hne, rfl, fun hne => absurd rfl hne, fun hne => absurd rfl hne,
    fun hne => absurd rfl hne, rfl, rfl⟩

/-- The loop up to the end of the page. -/
theorem PageRead.loop {n : Nat} {g : Nat → Nat} (h : PageRead w q l l' texts lines)
    (hcount : l.lineCount % 3 = 0) (hn : texts.length + n ≤ 3)
    (hq : ∀ i < 3, g (l.lineCount + i) = q) :
    PageRead w q l (loadLoop w g n l') (texts ++ lines.take n) (lines.drop n) := by
  induction n generalizing l' texts lines with
  | zero => simpa [loadLoop] using h
  | succ n ih =>
      cases lines with
      | nil =>
          have heof : l'.fp.eof = true := h.feeds
          simpa [loadLoop, heof] using h
      | cons line lines =>
          have hindex : g l'.lineCount = q := by
            rw [h.lineCount]
            exact hq _ (by omega)
          rw [loadLoop, h.feeds.1, hindex, List.take_succ_cons, List.drop_succ_cons,
            List.append_cons]
          refine ih (h.turn hcount (by omega)) ?_
          rw [List.length_append, List.length_singleton]
          omega

theorem loadLoop_add (pageIndex : Nat → Nat) (m n : Nat) (l : Load) :
    loadLoop w pageIndex (m + n) l = loadLoop w pageIndex n (loadLoop w pageIndex m l) := by
  induction m generalizing l with
  | zero => simp [loadLoop]
  | succ m ih =>
      rw [Nat.succ_add, loadLoop, loadLoop]
      split
      · next heof =>
          cases n with
          | zero => rfl
          | succ n => rw [loadLoop, if_pos heof]
      · exact ih _

/-- The places without a line. -/
theorem placeHolders (text : CString) (keep : Bool) {m i n : Nat} {table : List (Option Page)}
    {frames : List Int} (hpage : l.page = pageOf l.pcb.pid frames texts n) (hf : frames.length = i)
    (ht : texts.length = i) (hn : n ≤ i) (htable : l.pcb.pageTable = table.set q (some l.page)) :
    let a := allocateFrames w l.pcb.pid (List.replicate m text) l.kernel
    let l' := (List.range' i m).foldl (placeHolder w text keep q) l
    l'.kernel = a.2 ∧ l'.pcb = { l.pcb with
      pageTable := table.set q (some (pageOf l.pcb.pid
        (frames ++ if keep then a.1 else List.replicate m (-1))
        (texts ++ List.replicate m text) n)) } := by
  induction m generalizing l i frames texts with
  | zero =>
      refine ⟨rfl, ?_⟩
      have hnil : (if keep = true then (allocateFrames w l.pcb.pid [] l.kernel).1 else []) = [] := by
        split <;> rfl
      simp only [List.range'_zero, List.foldl_nil, List.replicate_zero, hnil, List.append_nil,
        ← hpage, ← htable]
  | succ m ih =>
      obtain ⟨frame, hframe⟩ : ∃ a, a = allocateFrame w text l.pcb.pid l.kernel := ⟨_, rfl⟩
      obtain ⟨l', hl'⟩ : ∃ l', l' = placeHolder w text keep q l i := ⟨_, rfl⟩
      obtain ⟨value, hvalue⟩ : ∃ v, v = if keep = true then frame.1 else -1 := ⟨_, rfl⟩
      have hpage' : l'.page = pageOf l.pcb.pid (frames ++ [value]) (texts ++ [text]) n := by
        rw [hl', placeHolder, ← hframe]
        dsimp only
        rw [hpage, ← hvalue, pageOf_hold hf ht hn]
      have hpcb' : l'.pcb = { l.pcb with pageTable := table.set q (some l'.page) } := by
        have hset : l'.pcb = { l.pcb with pageTable := l.pcb.pageTable.set q (some l'.page) } := by
          rw [hl', placeHolder]
        rw [hset, htable, List.set_set]
      have hkernel : l'.kernel = frame.2 := by rw [hl', placeHolder, ← hframe]
      have hpid : l'.pcb.pid = l.pcb.pid := by rw [hpcb']
      rw [← hpid] at hpage'
      have hrest := ih (l := l') (i := i + 1) hpage' (by simp [hf]) (by simp [ht]) (by omega)
        (by rw [hpcb'])
      rw [List.range'_succ, List.foldl_cons, ← hl']
      rw [hkernel, hpid] at hrest
      obtain ⟨hk, hp⟩ := hrest
      have ha : allocateFrames w l.pcb.pid (List.replicate (m + 1) text) l.kernel =
          (frame.1 :: (allocateFrames w l.pcb.pid (List.replicate m text) frame.2).1,
            (allocateFrames w l.pcb.pid (List.replicate m text) frame.2).2) := by
        rw [List.replicate_succ, allocateFrames, ← hframe]
      dsimp only
      rw [ha]
      refine ⟨hk, ?_⟩
      rw [hp, hpcb']
      have hframes : (frames ++ [value]) ++
          (if keep = true then (allocateFrames w l.pcb.pid (List.replicate m text) frame.2).1
            else List.replicate m (-1)) =
          frames ++ if keep = true then
            frame.1 :: (allocateFrames w l.pcb.pid (List.replicate m text) frame.2).1
            else List.replicate (m + 1) (-1) := by
        rw [hvalue]
        cases keep <;> simp [List.replicate_succ]
      have htexts : texts ++ [text] ++ List.replicate m text =
          texts ++ List.replicate (m + 1) text := by simp [List.replicate_succ]
      rw [hframes, htexts]

/-- The texts of a page, filled up to three. -/
def padded (texts : List CString) (fill : CString) : List CString :=
  texts ++ List.replicate (3 - texts.length) fill

/-- The page that a load makes of these lines. The other places have the frames
they were given, or -1. -/
def loadedPage (w : World) (pid : Nat) (keep : Bool) (fill : CString) (texts : List CString)
    (k : Kernel) : Page :=
  let read := allocateFrames w pid texts k
  let held := allocateFrames w pid (List.replicate (3 - texts.length) fill) read.2
  pageOf pid (read.1 ++ if keep then held.1 else List.replicate (3 - texts.length) (-1))
    (padded texts fill) texts.length

theorem padded_three {fill : CString} (h : texts.length = 3) : padded texts fill = texts := by
  simp [padded, h]

theorem padded_length {z : CString} (h : texts.length ≤ 3) :
    (padded texts z).length = 3 := by
  simp only [padded, List.length_append, List.length_replicate]
  omega

theorem loadedPage_three {pid : Nat} {keep : Bool} {fill : CString} {k : Kernel}
    (h : texts.length = 3) :
    loadedPage w pid keep fill texts k = pageOf pid (allocateFrames w pid texts k).1 texts 3 := by
  simp [loadedPage, padded, h, allocateFrames]

/-- The process after a load of page `q`; `finished` if the file's end was met. -/
def pageLoaded (w : World) (q : Nat) (keep : Bool) (fill : CString) (texts : List CString)
    (finished : Bool) (lineCount : Nat) (pcb : PCB) (k : Kernel) : PCB :=
  { pcb with
    pageTable := pcb.pageTable.set q (some (loadedPage w pcb.pid keep fill texts k))
    lineLoaded := lineCount + texts.length
    lastLineNumber :=
      if finished then (allocateFrames w pcb.pid texts k).1.getD (texts.length - 1) 0
      else pcb.lastLineNumber
    lastPageNumber := if finished then q else pcb.lastPageNumber }

/-- The end of both loaders. -/
theorem PageRead.finish (h : PageRead w q l l' texts lines) (hne : texts ≠ [])
    (hlen : texts.length ≤ 3) (keep : Bool) (fill : CString) :
    ((placesLeft (loadEnd q l')).foldl (placeHolder w fill keep q) (loadEnd q l')).pcb =
        pageLoaded w q keep fill texts (decide (lines = [])) l.lineCount l.pcb l.kernel ∧
      ((placesLeft (loadEnd q l')).foldl (placeHolder w fill keep q) (loadEnd q l')).kernel =
        (allocateFrames w l.pcb.pid (padded texts fill) l.kernel).2 := by
  obtain ⟨e, he⟩ : ∃ e, e = loadEnd q l' := ⟨_, rfl⟩
  have hpos : 0 < texts.length := List.length_pos_of_ne_nil hne
  have hepage : e.page = l'.page := by rw [he, loadEnd]
  have hekernel : e.kernel = l'.kernel := by rw [he, loadEnd]
  have hepcb : e.pcb = { l.pcb with
      pageTable := l.pcb.pageTable.set q (some l'.page)
      lineLoaded := l.lineCount + texts.length
      lastLineNumber :=
        if lines = [] then (allocateFrames w l.pcb.pid texts l.kernel).1.getD (texts.length - 1) 0
        else l.pcb.lastLineNumber
      lastPageNumber := if lines = [] then q else l.pcb.lastPageNumber } := by
    rw [he, loadEnd, h.feeds.eof, h.lineCount, h.pcb, h.lineLocation hne, if_neg hne]
    by_cases hnil : lines = []
    · simp [hnil]
    · simp [hnil]
  have hpid : e.pcb.pid = l.pcb.pid := by rw [hepcb]
  have hplaces : placesLeft e = List.range' texts.length (3 - texts.length) := by
    have hindex : e.lineIndexInPage = texts.length - 1 := by
      rw [he, loadEnd]
      exact h.lineIndexInPage hne
    rw [placesLeft, hindex]
    congr 1 <;> omega
  have hheld := placeHolders (w := w) (q := q) fill keep (m := 3 - texts.length)
    (by rw [hpid]; exact hepage.trans (h.page hne)) allocateFrames_length rfl (Nat.le_refl _)
    (by rw [hepcb, hepage])
  rw [← he, hplaces]
  obtain ⟨hk, hp⟩ := hheld
  refine ⟨hp.trans ?_, hk.trans ?_⟩
  · rw [hpid, hekernel, h.kernel, hepcb]
    simp only [pageLoaded, loadedPage, padded, decide_eq_true_eq]
  · rw [hpid, hekernel, h.kernel, padded, allocateFrames_append]

/-! ## The two loaders -/

variable {fp : Stream} {pcb : PCB} {k : Kernel}

theorem take_ne_nil {n : Nat} (hne : lines ≠ []) (hn : 0 < n) : lines.take n ≠ [] := by
  simp only [ne_eq, List.take_eq_nil_iff, not_or]
  exact ⟨by omega, hne⟩

/-- A script of at most one page. -/
theorem loadPagesToMemory_short (hfeeds : Feeds [] fp lines) (hne : lines ≠ [])
    (hlen : lines.length ≤ 3) :
    loadPagesToMemory w fp pcb k =
      (pageLoaded w 0 false (lines.getLastD []) lines true 0 pcb (noteLoad pcb.pid 1 k),
        (allocateFrames w pcb.pid (padded lines (lines.getLastD []))
          (noteLoad pcb.pid 1 k)).2) := by
  have hpos : 0 < lines.length := List.length_pos_of_ne_nil hne
  have hneed : (A2.linesRead 6 fp + 2) / 3 = 1 := by
    rw [hfeeds.linesRead]
    omega
  unfold loadPagesToMemory
  rw [hneed]
  have hread := (PageRead.start (w := w) (q := 0) (l := ⟨fp, [], 0, 0, 0, makePAGE pcb.pid, pcb,
    noteLoad pcb.pid 1 k⟩) hfeeds).loop (n := 3) (g := fun c => c / 3) rfl (by simp)
    (fun i hi => by dsimp only; omega)
  rw [List.nil_append, List.take_of_length_le hlen, List.drop_eq_nil_of_le hlen] at hread
  dsimp only
  rw [show (6 : Nat) = 3 + 3 from rfl, loadLoop_add]
  generalize loadLoop w (fun c => c / 3) 3 (⟨fp, [], 0, 0, 0, makePAGE pcb.pid, pcb,
    noteLoad pcb.pid 1 k⟩ : Load) = l' at hread ⊢
  have hstop : loadLoop w (fun c => c / 3) 3 l' = l' := by
    have heof : l'.fp.eof = true := hread.feeds
    rw [loadLoop, if_pos heof]
  have hindex : (l'.lineCount - 1) / 3 = 0 := by
    rw [hread.lineCount]
    simp only [Nat.zero_add]
    omega
  have hcommand : (loadEnd 0 l').command = lines.getLastD [] := hread.command hne
  obtain ⟨hp, hk⟩ := hread.finish hne hlen false (lines.getLastD [])
  rw [hstop, hindex, hcommand, hp, hk]
  rfl

/-- A longer script gets two pages. -/
theorem loadPagesToMemory_long {b : PCB} (hfeeds : Feeds [] fp lines) (hlen : 3 < lines.length) :
    ∃ k0 k1 second, k0 = noteLoad b.pid 2 k ∧
      k1 = (allocateFrames w b.pid (padded (lines.take 3) []) k0).2 ∧
      second = (lines.drop 3).take 3 ∧
      loadPagesToMemory w fp b k =
        (pageLoaded w 1 false (second.getLastD []) second (decide (lines.drop 6 = [])) 3
          (pageLoaded w 0 false [] (lines.take 3) false 0 b k0) k1,
          (allocateFrames w b.pid (padded second (second.getLastD [])) k1).2) := by
  refine ⟨_, _, _, rfl, rfl, rfl, ?_⟩
  have hne : lines ≠ [] := fun hnil => by simp [hnil] at hlen
  have hneed : (A2.linesRead 6 fp + 2) / 3 = 2 := by
    rw [hfeeds.linesRead]
    omega
  unfold loadPagesToMemory
  rw [hneed]
  have hfirst := (PageRead.start (w := w) (q := 0) (l := ⟨fp, [], 0, 0, 0, makePAGE b.pid, b,
    noteLoad b.pid 2 k⟩) hfeeds).loop (n := 3) (g := fun c => c / 3) rfl (by simp)
    (fun i hi => by dsimp only; omega)
  rw [List.nil_append] at hfirst
  dsimp only
  rw [show (6 : Nat) = 3 + 3 from rfl, loadLoop_add]
  generalize loadLoop w (fun c => c / 3) 3 (⟨fp, [], 0, 0, 0, makePAGE b.pid, b,
    noteLoad b.pid 2 k⟩ : Load) = l1 at hfirst ⊢
  have hfirstLen : (lines.take 3).length = 3 := by
    rw [List.length_take]
    omega
  have hfirstNe : lines.take 3 ≠ [] := take_ne_nil hne (by omega)
  have hcount : l1.lineCount = 3 := by rw [hfirst.lineCount, hfirstLen]
  have hsecondNe : (lines.drop 3).take 3 ≠ [] :=
    take_ne_nil (fun hnil => by simp only [List.drop_eq_nil_iff] at hnil; omega) (by omega)
  have hsecondLen : ((lines.drop 3).take 3).length ≤ 3 := List.length_take_le ..
  have hsecondPos : 0 < ((lines.drop 3).take 3).length := List.length_pos_of_ne_nil hsecondNe
  have hsecond := (PageRead.start (w := w) (q := 1) hfirst.feeds).loop (n := 3)
    (g := fun c => c / 3) (by rw [hcount]) (by simp)
    (fun i hi => by rw [hcount]; omega)
  rw [List.nil_append, List.drop_drop] at hsecond
  generalize loadLoop w (fun c => c / 3) 3 l1 = l2 at hsecond ⊢
  have hindex : (l2.lineCount - 1) / 3 = 1 := by
    rw [hsecond.lineCount, hcount]
    omega
  have hcommand : (loadEnd 1 l2).command = ((lines.drop 3).take 3).getLastD [] :=
    hsecond.command hsecondNe
  obtain ⟨hp, hk⟩ := hsecond.finish hsecondNe hsecondLen false (((lines.drop 3).take 3).getLastD [])
  have hpcb : l1.pcb = { b with pageTable := b.pageTable.set 0 (some (pageOf b.pid
      (allocateFrames w b.pid (lines.take 3) (noteLoad b.pid 2 k)).1
      (lines.take 3) 3)) } := by
    rw [hfirst.pcb, if_neg hfirstNe, hfirst.page hfirstNe, hfirstLen]
  rw [hindex, hcommand, hp, hk, hpcb, hfirst.kernel, hcount, padded_three hfirstLen]
  simp only [pageLoaded, loadedPage_three hfirstLen, Bool.false_eq_true, if_false]

/-- A page loaded later. -/
theorem loadMissingPageToMem_eq {q : Nat}
    (hfeeds : Feeds [] ⟨(w.files pcb.filename).getD [], false⟩ lines)
    (hq : pcb.lineLoaded = 3 * q) (hlen : 3 * q < lines.length) :
    loadMissingPageToMem w pcb k =
      (pageLoaded w q true [] ((lines.drop (3 * q)).take 3)
          (decide (lines.drop (3 * q + 3) = [])) (3 * q) pcb (noteLoad pcb.pid 1 k),
        (allocateFrames w pcb.pid (padded ((lines.drop (3 * q)).take 3) [])
          (noteLoad pcb.pid 1 k)).2) := by
  have hskip := hfeeds.skip (Nat.le_of_lt hlen)
  have hne : (lines.drop (3 * q)).take 3 ≠ [] :=
    take_ne_nil (fun hnil => by simp only [List.drop_eq_nil_iff] at hnil; omega) (by omega)
  have hread := (PageRead.start (w := w) (q := q) (l := ⟨_, _, 3 * q, 0, 0, makePAGE pcb.pid, pcb,
    noteLoad pcb.pid 1 k⟩) hskip).loop (n := 3) (g := fun _ => q)
    (Nat.mul_mod_right ..) (by simp) (fun _ _ => rfl)
  rw [List.nil_append, List.drop_drop] at hread
  obtain ⟨hp, hk⟩ := hread.finish hne (List.length_take_le ..) true []
  have hpage : 3 * q / 3 = q := by omega
  unfold loadMissingPageToMem
  dsimp only
  rw [hq, hpage, hp, hk]

end SimpleShell.A2
