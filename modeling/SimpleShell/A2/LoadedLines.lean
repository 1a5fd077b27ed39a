import Mathlib.Data.List.Range
import SimpleShell.A2.Loader

/-!
# The lines of a process

A process is known by the reads it was loaded from: the places of its page table
hold the reads it has got so far, in order, and nothing else. Every load takes
that one page further, up to the end of the file.
-/

namespace SimpleShell.A2

open SimpleShell.Shell (CString MemoryStruct noneText)

variable {w : World} {lines texts : List CString} {pcb : PCB} {k : Kernel} {q : Nat}

namespace PCB

def page (pcb : PCB) (q : Nat) : Option Page := (pcb.pageTable[q]?).join

/-- The line that was put at a place of the process, if that place is valid. -/
def lineAt (pcb : PCB) (i : Nat) : Option CString :=
  match pcb.page (i / 3) with
  | some page => if page.validBits (i % 3) then some (page.text (i % 3)) else none
  | none => none

end PCB

/-- The process has got some of the reads, whole pages unless they are all. -/
structure HasLines (lines : List CString) (pcb : PCB) : Prop where
  size : lines.length / 3 + 1 ≤ pcb.pageTable.length
  loaded : pcb.lineLoaded ≤ lines.length
  whole : pcb.lineLoaded < lines.length → pcb.lineLoaded % 3 = 0
  line : ∀ i, pcb.lineAt i = if i < pcb.lineLoaded then lines[i]? else none
  page : ∀ q, pcb.page q = none ↔ pcb.lineLoaded ≤ 3 * q
  more : pcb.lineLoaded < lines.length → pcb.lastLineNumber = -1 ∧ pcb.lastPageNumber = -1
  last : pcb.lineLoaded = lines.length → pcb.lastPageNumber = ((lines.length - 1) / 3 : Nat) ∧
    ∃ page, pcb.page ((lines.length - 1) / 3) = some page ∧
      pcb.lastLineNumber = page.index ((lines.length - 1) % 3)

/-- A process that was just made. -/
theorem HasLines.fresh {b : CString} {n : Nat} (hne : lines ≠ [])
    (hn : lines.length / 3 + 1 ≤ n) :
    HasLines lines (makePCB w (List.replicate n none) b k).1 := by
  have hpos := List.length_pos_of_ne_nil hne
  have hpage : ∀ q, (makePCB w (List.replicate n none) b k).1.page q = none := by
    intro q
    show ((List.replicate n none)[q]?).join = none
    rw [List.getElem?_replicate]
    split <;> rfl
  refine ⟨by simpa [makePCB] using hn, Nat.zero_le _, fun _ => rfl, fun i => ?_, fun q => ?_,
    fun _ => ⟨rfl, rfl⟩, fun h => ?_⟩
  · rw [PCB.lineAt, hpage, if_neg (by simp [makePCB])]
  · rw [hpage]
    simp [makePCB]
  · exact absurd h (by simp only [makePCB]; omega)

theorem HasLines.of_eq {pcb' : PCB} (h : HasLines lines pcb)
    (htable : pcb'.pageTable = pcb.pageTable) (hloaded : pcb'.lineLoaded = pcb.lineLoaded)
    (hline : pcb'.lastLineNumber = pcb.lastLineNumber)
    (hpage : pcb'.lastPageNumber = pcb.lastPageNumber) : HasLines lines pcb' := by
  have hpages : pcb'.page = pcb.page := by
    funext q
    rw [PCB.page, PCB.page, htable]
  have hlines : pcb'.lineAt = pcb.lineAt := by
    funext i
    rw [PCB.lineAt, PCB.lineAt, hpages]
  refine ⟨by rw [htable]; exact h.size, by rw [hloaded]; exact h.loaded, ?_, ?_, ?_, ?_, ?_⟩
  · rw [hloaded]
    exact h.whole
  · rw [hlines, hloaded]
    exact h.line
  · rw [hpages, hloaded]
    exact h.page
  · rw [hloaded, hline, hpage]
    exact h.more
  · rw [hloaded, hline, hpage, hpages]
    exact h.last

theorem loadedPage_validBits (pid : Nat) (keep : Bool) (fill : CString) (texts : List CString)
    (k : Kernel) (j : Nat) :
    (loadedPage w pid keep fill texts k).validBits j = decide (j < texts.length) := rfl

theorem loadedPage_text (pid : Nat) (keep : Bool) (fill : CString) (k : Kernel) {j : Nat}
    (hj : j < texts.length) : (loadedPage w pid keep fill texts k).text j = texts[j] := by
  show (padded texts fill).getD j [] = texts[j]
  rw [List.getD_eq_getElem?_getD, padded, List.getElem?_append_left hj,
    List.getElem?_eq_getElem hj, Option.getD_some]

theorem loadedPage_index (pid : Nat) (keep : Bool) (fill : CString) (k : Kernel) {j : Nat}
    (hj : j < texts.length) :
    (loadedPage w pid keep fill texts k).index j =
      (allocateFrames w pid texts k).1.getD j 0 := by
  have hlen : j < (allocateFrames w pid texts k).1.length := by
    rw [allocateFrames_length]
    exact hj
  show List.getD (_ ++ _) j 0 = _
  rw [List.getD_eq_getElem?_getD, List.getD_eq_getElem?_getD, List.getElem?_append_left hlen]

/-- A load of the next page, and of the last one if the reads end with it. -/
theorem HasLines.load (h : HasLines lines pcb) (hq : pcb.lineLoaded = 3 * q)
    (hlt : 3 * q < lines.length) (keep : Bool) (fill : CString) (k : Kernel) :
    HasLines lines (pageLoaded w q keep fill ((lines.drop (3 * q)).take 3)
      (decide (lines.drop (3 * q + 3) = [])) (3 * q) pcb k) := by
  obtain ⟨texts, htexts⟩ : ∃ texts, texts = (lines.drop (3 * q)).take 3 := ⟨_, rfl⟩
  have hlen : texts.length = min 3 (lines.length - 3 * q) := by
    rw [htexts, List.length_take, List.length_drop]
  rw [← htexts]
  have hdone : (lines.drop (3 * q + 3) = []) ↔ lines.length ≤ 3 * q + 3 := List.drop_eq_nil_iff
  obtain ⟨pcb', hpcb'⟩ : ∃ pcb', pcb' = pageLoaded w q keep fill texts
    (decide (lines.drop (3 * q + 3) = [])) (3 * q) pcb k := ⟨_, rfl⟩
  have hloaded : pcb'.lineLoaded = 3 * q + texts.length := by rw [hpcb', pageLoaded]
  have hsize := h.size
  have hpageq : pcb'.page q = some (loadedPage w pcb.pid keep fill texts k) := by
    rw [hpcb', PCB.page, pageLoaded, List.getElem?_set_self (by omega)]
    rfl
  have hpage : ∀ p, p ≠ q → pcb'.page p = pcb.page p := by
    intro p hp
    rw [hpcb', PCB.page, PCB.page, pageLoaded, List.getElem?_set_ne (Ne.symm hp)]
  rw [← hpcb']
  refine ⟨?_, ?_, ?_, fun i => ?_, fun p => ?_, ?_, ?_⟩
  · rw [hpcb', pageLoaded, List.length_set]
    exact h.size
  · omega
  · omega
  · by_cases hi : i / 3 = q
    · rw [PCB.lineAt, hi, hpageq]
      simp only [loadedPage_validBits, decide_eq_true_eq]
      by_cases hj : i % 3 < texts.length
      · rw [if_pos hj, if_pos (by omega), loadedPage_text _ _ _ _ hj, ← List.getElem?_eq_getElem hj,
          htexts, List.getElem?_take_of_lt (by omega), List.getElem?_drop]
        congr 1
        omega
      · rw [if_neg hj]
        split
        · rw [List.getElem?_eq_none (by omega)]
        · rfl
    · have hline := h.line i
      rw [PCB.lineAt] at hline ⊢
      rw [hpage _ hi, hline, hq, hloaded]
      by_cases hi' : i < 3 * q
      · rw [if_pos hi', if_pos (by omega)]
      · rw [if_neg hi', if_neg (by omega)]
  · by_cases hp : p = q
    · rw [hp, hpageq, hloaded]
      simp only [reduceCtorEq, false_iff]
      omega
    · rw [hpage p hp, h.page p, hq, hloaded]
      omega
  · intro hmore
    have hfin : ¬ lines.drop (3 * q + 3) = [] := by
      rw [hdone]
      omega
    rw [hpcb', pageLoaded]
    simpa [hfin] using h.more (by omega)
  · intro hend
    have hfin : lines.drop (3 * q + 3) = [] := by
      rw [hdone]
      omega
    have hdiv : (lines.length - 1) / 3 = q := by omega
    rw [hdiv]
    refine ⟨by rw [hpcb', pageLoaded]; simp [hfin], _, hpageq, ?_⟩
    have hmod : (lines.length - 1) % 3 = texts.length - 1 := by omega
    rw [hmod, loadedPage_index _ _ _ _ (by omega), hpcb', pageLoaded]
    simp [hfin]

/-! ## The two loaders -/

/-- What a load leaves as it is. -/
structure SameProcess (pcb pcb' : PCB) : Prop where
  filename : pcb'.filename = pcb.filename
  pid : pcb'.pid = pcb.pid
  pc : pcb'.PC = pcb.PC

/-- The first load. -/
theorem HasLines.loadPages {content : CString} (h : HasLines lines pcb)
    (hzero : pcb.lineLoaded = 0) (hfeeds : Feeds [] ⟨content, false⟩ lines) (k : Kernel) :
    HasLines lines (loadPagesToMemory w ⟨content, false⟩ pcb k).1 ∧
      (loadPagesToMemory w ⟨content, false⟩ pcb k).1.lineLoaded = min 6 lines.length ∧
      SameProcess pcb (loadPagesToMemory w ⟨content, false⟩ pcb k).1 := by
  have hne := hfeeds.ne_nil rfl
  have hpos := List.length_pos_of_ne_nil hne
  by_cases hlen : lines.length ≤ 3
  · rw [loadPagesToMemory_short hfeeds hne hlen]
    have hload := h.load (w := w) (q := 0) hzero hpos false (lines.getLastD [])
      (noteLoad pcb.pid 1 k)
    simp only [Nat.mul_zero, List.drop_zero, Nat.zero_add, List.drop_eq_nil_of_le hlen,
      List.take_of_length_le hlen, decide_true] at hload
    refine ⟨hload, ?_, ⟨rfl, rfl, rfl⟩⟩
    simp only [pageLoaded]
    omega
  · obtain ⟨k0, k1, second, -, -, hsecond, heq⟩ := loadPagesToMemory_long (w := w) (b := pcb)
      (k := k) hfeeds (by omega)
    have hfirst := h.load (w := w) (q := 0) hzero hpos false [] k0
    have hmore : ¬ lines.drop 3 = [] := by
      rw [List.drop_eq_nil_iff]
      omega
    simp only [Nat.mul_zero, List.drop_zero, Nat.zero_add, hmore, decide_false] at hfirst
    have hthree : (lines.take 3).length = 3 := by
      rw [List.length_take]
      omega
    have hload := hfirst.load (w := w) (q := 1) (by simp [pageLoaded, hthree]) (by omega) false
      (second.getLastD []) k1
    rw [Nat.mul_one, ← hsecond] at hload
    rw [heq]
    refine ⟨hload, ?_, ⟨rfl, rfl, rfl⟩⟩
    simp only [pageLoaded, hsecond, List.length_take, List.length_drop]
    omega

/-- A later load. -/
theorem HasLines.loadMissing (h : HasLines lines pcb)
    (hfeeds : Feeds [] ⟨(w.files pcb.filename).getD [], false⟩ lines)
    (hmore : pcb.lineLoaded < lines.length) (k : Kernel) :
    HasLines lines (loadMissingPageToMem w pcb k).1 ∧
      (loadMissingPageToMem w pcb k).1.lineLoaded = min (pcb.lineLoaded + 3) lines.length ∧
      SameProcess pcb (loadMissingPageToMem w pcb k).1 := by
  have hq : pcb.lineLoaded = 3 * (pcb.lineLoaded / 3) := by
    have hwhole := h.whole hmore
    omega
  rw [loadMissingPageToMem_eq hfeeds hq (by omega)]
  refine ⟨h.load hq (by omega) true [] _, ?_, ⟨rfl, rfl, rfl⟩⟩
  simp only [pageLoaded, List.length_take, List.length_drop]
  omega

end SimpleShell.A2
