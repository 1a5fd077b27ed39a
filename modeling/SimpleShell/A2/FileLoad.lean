import SimpleShell.A2.LoadedLines
import SimpleShell.A2.Holding

/-!
# The file in the frame store

What the two loaders put into the frames of a process, read back from the frame
store through its page table. Together it is all the reads of the file, which are
its lines exactly when no newline ends it; a load that does not get its frames
does not come to its end.
-/

namespace SimpleShell.A2

open SimpleShell.Shell (CString MemoryStruct noneText)

variable {w : World} {lines texts : List CString} {pcb b : PCB} {k : Kernel} {q : Nat}

/-- The line at a place of the process, if that place is valid. -/
def PCB.validLine (pcb : PCB) (mem : Memory) (i : Nat) : Option CString :=
  match pcb.page (i / 3) with
  | some page => if page.validBits (i % 3) then some (mem (page.index (i % 3))).value else none
  | none => none

/-- The valid lines of the pages that a load made, in order. -/
def linesPlaced (before after : PCB) (mem : Memory) : List CString :=
  (List.range (3 * after.pageTable.length)).filterMap fun i =>
    if (before.page (i / 3)).isNone then after.validLine mem i else none

/-- A process that was just made, in the kernel of the first load. -/
def fresh (w : World) (content filename : CString) (k : Kernel) : PCB × Kernel :=
  makePCB w (List.replicate (countLines content / 3 + 1) none) filename k

/-- A process and the kernel after its first load and `n` later ones, each in
whatever state the kernel is then. -/
def afterLoads (w : World) (content filename : CString) (kernels : Nat → Kernel) :
    Nat → PCB × Kernel
  | 0 =>
      loadPagesToMemory w ⟨content, false⟩ (fresh w content filename (kernels 0)).1
        (fresh w content filename (kernels 0)).2
  | n + 1 =>
      loadMissingPageToMem w (afterLoads w content filename kernels n).1 (kernels (n + 1))

def beforeLoad (w : World) (content filename : CString) (kernels : Nat → Kernel) : Nat → PCB
  | 0 => (fresh w content filename (kernels 0)).1
  | n + 1 => (afterLoads w content filename kernels n).1

/-- The lines that these loads placed, read from the store after each. -/
def linesLoaded (w : World) (content filename : CString) (kernels : Nat → Kernel) (n : Nat) :
    List CString :=
  (List.range (n + 1)).flatMap fun i =>
    let after := afterLoads w content filename kernels i
    linesPlaced (beforeLoad w content filename kernels i) after.1 after.2.shellmemory

/-- `last_line_number` is the frame of the last line of the file, which is in it. -/
def LastLineAt (content : CString) (pcb : PCB) (mem : Memory) : Prop :=
  ∃ page, pcb.page (((textLines content).length - 1) / 3) = some page ∧
    pcb.lastLineNumber = page.index (((textLines content).length - 1) % 3) ∧
    (textLines content).getLast? = some (mem pcb.lastLineNumber).value

/-! ## One load -/

/-- A place of a page that was loaded is among what the load was given. -/
theorem loadedPage_given (pid : Nat) (keep : Bool) (fill : CString) (k : Kernel) {j : Nat}
    (hj : j < texts.length) :
    ((loadedPage w pid keep fill texts k).index j, MemoryStruct.mk (pidString pid) texts[j]) ∈
      given pid (allocateFrames w pid (padded texts fill) k).1 (padded texts fill) := by
  have hread : j < (allocateFrames w pid texts k).1.length := by
    rw [allocateFrames_length]
    exact hj
  rw [loadedPage_index _ _ _ _ hj, given, Multiset.mem_coe, padded, allocateFrames_append]
  refine List.mem_iff_getElem?.2 ⟨j, ?_⟩
  rw [List.getElem?_zip_eq_some]
  constructor
  · rw [List.getElem?_append_left hread, List.getD_eq_getElem?_getD, List.getElem?_eq_getElem hread,
      Option.getD_some]
  · rw [List.getElem?_map, List.getElem?_append_left hj, List.getElem?_eq_getElem hj,
      Option.map_some]

/-- What was put at the places of the pages that a load made is in their frames. -/
def InFrames (before after : PCB) (mem : Memory) : Prop :=
  ∀ i, before.page (i / 3) = none → after.validLine mem i = after.lineAt i

/-- A page is made, and its lines are in its frames. -/
theorem pageLoaded_inFrames {keep finished : Bool} {fill : CString} {lineCount : Nat} {mem : Memory}
    {s : Multiset Cell}
    (hheld : Held w mem
      (given b.pid (allocateFrames w b.pid (padded texts fill) k).1 (padded texts fill) + s)) {i : Nat}
    (hold : i / 3 ≠ q → b.validLine mem i = b.lineAt i) :
    (pageLoaded w q keep fill texts finished lineCount b k).validLine mem i =
      (pageLoaded w q keep fill texts finished lineCount b k).lineAt i := by
  obtain ⟨pcb, hpcb⟩ : ∃ pcb, pcb = pageLoaded w q keep fill texts finished lineCount b k :=
    ⟨_, rfl⟩
  have hpage : pcb.page (i / 3) =
      if i / 3 = q ∧ q < b.pageTable.length then some (loadedPage w b.pid keep fill texts k)
      else if i / 3 = q then none else b.page (i / 3) := by
    rw [hpcb, PCB.page, pageLoaded, List.getElem?_set, PCB.page]
    by_cases hq : q = i / 3
    · subst hq
      by_cases hlt : i / 3 < b.pageTable.length <;> simp [hlt]
    · simp [hq, Ne.symm hq]
  rw [← hpcb, PCB.validLine, PCB.lineAt, hpage]
  by_cases hq : i / 3 = q
  · by_cases hlt : q < b.pageTable.length
    · rw [if_pos ⟨hq, hlt⟩]
      simp only [loadedPage_validBits, decide_eq_true_eq]
      by_cases hj : i % 3 < texts.length
      · obtain ⟨-, -, -, hmem⟩ := hheld.stored _
          (Multiset.mem_add.2 (.inl (loadedPage_given b.pid keep fill k hj)))
        rw [if_pos hj, if_pos hj, loadedPage_text _ _ _ _ hj, hmem]
      · rw [if_neg hj, if_neg hj]
    · rw [if_neg fun h => hlt h.2, if_pos hq]
  · have hsame := hold hq
    rw [PCB.validLine, PCB.lineAt] at hsame
    rw [if_neg fun h => hq h.1, if_neg hq]
    exact hsame

/-- The program runs, and the pages in the queue hold their frames. -/
structure Orderly (w : World) (k : Kernel) : Prop where
  running : k.stopped = false
  held : Held w k.shellmemory (cellsOf k.lruQueue)

/-- A row of allocations for so many pages. -/
theorem Orderly.load (h : Orderly w k) (pid pages : Nat) (texts : List CString) (hpos : 0 < pages)
    (hlen : texts.length = 3 * pages) :
    ((allocateFrames w pid texts (noteLoad pid pages k)).2.stopped = false ↔
        CanLoad w pid pages k) ∧
      ((allocateFrames w pid texts (noteLoad pid pages k)).2.stopped = false →
        ∃ s, Held w (allocateFrames w pid texts (noteLoad pid pages k)).2.shellmemory
          (given pid (allocateFrames w pid texts (noteLoad pid pages k)).1 texts + s)) := by
  obtain ⟨k0, hk0⟩ : ∃ k0, k0 = noteLoad pid pages k := ⟨_, rfl⟩
  have hrun : k0.stopped = false := by
    rw [hk0]
    exact h.running
  have hheld : Held w k0.shellmemory (cellsOf k0.lruQueue + 0) := by
    rw [hk0, add_zero]
    exact h.held
  have hsnap : snapshot k0 = snapshot k := by
    rw [hk0]
    rfl
  rw [← hk0, CanLoad]
  by_cases hpid : pid < 10
  · obtain ⟨-, hstop, hdone⟩ := allocateFrames_good (t := texts) hpid hrun hheld
    rw [hsnap, hlen] at hstop hdone
    exact ⟨by rw [and_iff_right hpid, hstop], fun hgo => ⟨_, hdone (hstop.2 hgo)⟩⟩
  · have hne : texts ≠ [] := List.ne_nil_of_length_pos (by omega)
    have hstop := (allocateFrames_two_digits (Nat.le_of_not_lt hpid) hne hrun hheld).2
    have hnot : ¬ (allocateFrames w pid texts k0).2.stopped = false := by simp [hstop]
    exact ⟨iff_of_false hnot fun hcan => hpid hcan.1, fun hgo => absurd hgo hnot⟩

/-- What a load does: it comes to its end exactly when its frames are there, and
then the lines of the pages it made are in them. -/
structure LoadDone (w : World) (pages : Nat) (before : PCB) (k : Kernel) (r : PCB × Kernel) :
    Prop where
  comes : r.2.stopped = false ↔ CanLoad w before.pid pages k
  frames : r.2.stopped = false → InFrames before r.1 r.2.shellmemory

theorem validLine_none {i : Nat} (h : pcb.page (i / 3) = none) (mem : Memory) :
    pcb.validLine mem i = pcb.lineAt i := by
  rw [PCB.validLine, PCB.lineAt, h]

/-- How many pages the first load makes. -/
def firstPages (lines : List CString) : Nat := (min 6 lines.length + 2) / 3

theorem loadPages_done {fp : Stream} (h : Orderly w k) (hfeeds : Feeds [] fp lines)
    (hne : lines ≠ []) :
    LoadDone w (firstPages lines) b k (loadPagesToMemory w fp b k) := by
  have hpos := List.length_pos_of_ne_nil hne
  by_cases hlen : lines.length ≤ 3
  · have hpages : firstPages lines = 1 := by
      unfold firstPages
      omega
    rw [loadPagesToMemory_short hfeeds hne hlen, hpages]
    obtain ⟨hcomes, hheld⟩ := h.load b.pid 1
      (padded lines (lines.getLastD [])) Nat.one_pos (padded_length hlen)
    refine ⟨hcomes, fun hgo i hi => ?_⟩
    obtain ⟨s, hs⟩ := hheld hgo
    exact pageLoaded_inFrames hs fun _ => validLine_none hi _
  · obtain ⟨k0, k1, second, hk0, hk1, hsecond, heq⟩ := loadPagesToMemory_long (w := w) (b := b)
      (k := k) hfeeds (by omega)
    have hpages : firstPages lines = 2 := by
      unfold firstPages
      omega
    have hfirstLen : (lines.take 3).length ≤ 3 := List.length_take_le ..
    have hsecondLen : second.length ≤ 3 := by
      rw [hsecond]
      exact List.length_take_le ..
    obtain ⟨hcomes, hheld⟩ := h.load b.pid 2
      (padded (lines.take 3) [] ++ padded second (second.getLastD [])) (by decide)
      (by rw [List.length_append, padded_length hfirstLen, padded_length hsecondLen])
    rw [← hk0, allocateFrames_append, ← hk1, given_append allocateFrames_length] at hheld
    rw [← hk0, allocateFrames_append, ← hk1] at hcomes
    rw [heq, hpages]
    refine ⟨hcomes, fun hgo i hi => ?_⟩
    obtain ⟨s, hs⟩ := hheld hgo
    have hs' := hs
    rw [add_assoc] at hs
    rw [add_comm (given b.pid _ (padded (lines.take 3) [])), add_assoc] at hs'
    exact pageLoaded_inFrames (b := pageLoaded w 0 false [] (lines.take 3) false 0 b k0) hs'
      fun _ => pageLoaded_inFrames hs fun _ => validLine_none hi _

theorem loadMissing_done (h : Orderly w k) (hlines : HasLines lines b)
    (hfeeds : Feeds [] ⟨(w.files b.filename).getD [], false⟩ lines)
    (hmore : b.lineLoaded < lines.length) :
    LoadDone w 1 b k (loadMissingPageToMem w b k) := by
  have hwhole := hlines.whole hmore
  obtain ⟨q, hq⟩ : ∃ q, b.lineLoaded = 3 * q := ⟨b.lineLoaded / 3, by omega⟩
  rw [loadMissingPageToMem_eq hfeeds hq (by omega)]
  obtain ⟨hcomes, hheld⟩ := h.load b.pid 1
    (padded ((lines.drop (3 * q)).take 3) []) Nat.one_pos
    (padded_length (List.length_take_le ..))
  refine ⟨hcomes, fun hgo i hi => ?_⟩
  obtain ⟨s, hs⟩ := hheld hgo
  exact pageLoaded_inFrames hs fun _ => validLine_none hi _

/-- The lines that a load placed are the reads it came to. -/
theorem filterMap_between (l : List CString) (m n : Nat) :
    (List.range n).filterMap (fun i => if m ≤ i then l[i]? else none) = (l.take n).drop m := by
  induction n with
  | zero => simp
  | succ n ih =>
      rw [List.range_succ, List.filterMap_append, ih, List.take_add_one]
      by_cases hm : m ≤ n
      · rcases Nat.lt_or_ge n l.length with hn | hn
        · rw [List.drop_append_of_le_length (by rw [List.length_take]; omega),
            List.getElem?_eq_getElem hn]
          simp [hm, hn]
        · simp [hm, hn]
      · rw [List.drop_eq_nil_of_le (by rw [List.length_take]; omega)]
        rw [List.drop_eq_nil_of_le (by
          rw [List.length_append, List.length_take]
          cases l[n]? <;> simp <;> omega)]
        simp [hm]

theorem linesPlaced_eq {before after : PCB} {mem : Memory} (hbefore : HasLines lines before)
    (hafter : HasLines lines after) (hwhole : before.lineLoaded % 3 = 0)
    (hin : InFrames before after mem) :
    linesPlaced before after mem = (lines.take after.lineLoaded).drop before.lineLoaded := by
  have hline : (fun i => if (before.page (i / 3)).isNone then after.validLine mem i else none) =
      fun i => if before.lineLoaded ≤ i then (lines.take after.lineLoaded)[i]? else none := by
    funext i
    by_cases hi : before.lineLoaded ≤ i
    · have hnone := (hbefore.page (i / 3)).2 (by omega)
      rw [if_pos hi, hnone, hin i hnone, hafter.line, List.getElem?_take]
      rfl
    · have hsome : (before.page (i / 3)).isNone = false := by
        rw [Option.isNone_eq_false_iff, ← Option.ne_none_iff_isSome, ne_eq, hbefore.page]
        omega
      rw [if_neg hi, hsome]
      rfl
  have hsize := hafter.size
  have hloaded := hafter.loaded
  rw [linesPlaced, hline, filterMap_between, List.take_of_length_le]
  rw [List.length_take]
  omega

/-! ## The whole file -/

/-- The process after the loads, whatever became of the kernel. -/
structure AfterLoads (content filename : CString) (n : Nat) (pcb : PCB) (pid : Nat) : Prop where
  lines : HasLines (reads content) pcb
  loaded : pcb.lineLoaded = min (6 + 3 * n) (reads content).length
  file : pcb.filename = filename
  pid : pcb.pid = pid

theorem fresh_hasLines {content : CString} (hne : content ≠ []) (filename : CString) (k : Kernel) :
    HasLines (reads content) (fresh w content filename k).1 := by
  rw [fresh, countLines_eq hne]
  exact HasLines.fresh (reads_ne_nil hne) (Nat.le_refl _)

section Loads

variable {content filename : CString} {kernels : Nat → Kernel}

variable (kernels) in
theorem afterLoads_spec (hfile : w.files filename = some content) (hne : content ≠ [])
    (hshort : ∀ line ∈ textLines content, Short line) (n : Nat)
    (hn : ∀ i < n, 6 + 3 * i < (reads content).length) :
    AfterLoads content filename n (afterLoads w content filename kernels n).1
      (kernels 0).pidCounter := by
  induction n with
  | zero =>
      obtain ⟨hlines, hloaded, hsame⟩ := (fresh_hasLines (w := w) hne filename
        (kernels 0)).loadPages (w := w) rfl (feeds_reads hne hshort [])
        (fresh w content filename (kernels 0)).2
      exact ⟨hlines, hloaded, hsame.filename, hsame.pid⟩
  | succ n ih =>
      have hbefore := ih fun i hi => hn i (by omega)
      have hloads := hbefore.loaded
      have hlast := hn n (by omega)
      have hfeeds : Feeds [] ⟨(w.files (afterLoads w content filename kernels n).1.filename).getD [],
          false⟩ (reads content) := by
        rw [hbefore.file, hfile]
        exact feeds_reads hne hshort []
      obtain ⟨hlines, hloaded, hsame⟩ := hbefore.lines.loadMissing hfeeds (by omega) (kernels (n + 1))
      rw [afterLoads]
      exact ⟨hlines, by omega, hsame.filename.trans hbefore.file, hsame.pid.trans hbefore.pid⟩

/-- How many pages a load makes. -/
def pagesOf (content : CString) : Nat → Nat
  | 0 => firstPages (reads content)
  | _ + 1 => 1

/-- The frames of the load are there. -/
def LoadFits (w : World) (content : CString) (kernels : Nat → Kernel) (i : Nat) : Prop :=
  CanLoad w (kernels 0).pidCounter (pagesOf content i) (kernels i)

section Short

variable (hfile : w.files filename = some content) (hne : content ≠ [])
  (hshort : ∀ line ∈ textLines content, Short line)

include hfile hne hshort

variable (kernels) in
theorem beforeLoad_spec (n : Nat) (hn : ∀ i < n, 6 + 3 * i < (reads content).length) :
    HasLines (reads content) (beforeLoad w content filename kernels n) ∧
      (beforeLoad w content filename kernels n).lineLoaded = (if n = 0 then 0 else 3 + 3 * n) ∧
      (beforeLoad w content filename kernels n).pid = (kernels 0).pidCounter := by
  cases n with
  | zero => exact ⟨fresh_hasLines hne filename (kernels 0), rfl, rfl⟩
  | succ n =>
      have hspec := afterLoads_spec kernels hfile hne hshort n
        fun i hi => hn i (by omega)
      have hlast := hn n (by omega)
      have hloaded := hspec.loaded
      refine ⟨hspec.lines, ?_, hspec.pid⟩
      show (afterLoads w content filename kernels n).1.lineLoaded = _
      rw [if_neg (Nat.succ_ne_zero n)]
      omega

/-- Every load comes to its end exactly when its frames are there. -/
theorem afterLoads_done (hkernels : ∀ i, Orderly w (kernels i)) (n : Nat)
    (hn : ∀ i < n, 6 + 3 * i < (reads content).length) :
    ((afterLoads w content filename kernels n).2.stopped = false ↔
        LoadFits w content kernels n) ∧
      ((afterLoads w content filename kernels n).2.stopped = false →
        InFrames (beforeLoad w content filename kernels n)
          (afterLoads w content filename kernels n).1
          (afterLoads w content filename kernels n).2.shellmemory) := by
  cases n with
  | zero =>
      have horderly : Orderly w (fresh w content filename (kernels 0)).2 :=
        ⟨(hkernels 0).running, (hkernels 0).held⟩
      have hdone := loadPages_done (b := (fresh w content filename (kernels 0)).1) horderly
        (feeds_reads hne hshort []) (reads_ne_nil hne)
      exact ⟨hdone.comes, hdone.frames⟩
  | succ n =>
      have hbefore := afterLoads_spec kernels hfile hne hshort n
        fun i hi => hn i (by omega)
      have hlast := hn n (by omega)
      have hloaded := hbefore.loaded
      have hfeeds : Feeds [] ⟨(w.files (afterLoads w content filename kernels n).1.filename).getD [],
          false⟩ (reads content) := by
        rw [hbefore.file, hfile]
        exact feeds_reads hne hshort []
      have hdone := loadMissing_done (hkernels (n + 1)) hbefore.lines hfeeds (by omega)
      refine ⟨?_, hdone.frames⟩
      rw [LoadFits, ← hbefore.pid]
      exact hdone.comes

/-- What the loads placed is the reads so far. -/
theorem linesLoaded_eq (hkernels : ∀ i, Orderly w (kernels i)) (n : Nat)
    (hn : ∀ i < n, 6 + 3 * i < (reads content).length)
    (hall : ∀ i ≤ n, (afterLoads w content filename kernels i).2.stopped = false) :
    linesLoaded w content filename kernels n =
      (reads content).take (afterLoads w content filename kernels n).1.lineLoaded := by
  have hplaced : ∀ m ≤ n, linesPlaced (beforeLoad w content filename kernels m)
      (afterLoads w content filename kernels m).1
      (afterLoads w content filename kernels m).2.shellmemory =
      ((reads content).take (6 + 3 * m)).drop (if m = 0 then 0 else 3 + 3 * m) := by
    intro m hm
    obtain ⟨hbefore, hloaded, -⟩ := beforeLoad_spec kernels hfile hne hshort m
      fun i hi => hn i (by omega)
    have hafter := afterLoads_spec kernels hfile hne hshort m
      fun i hi => hn i (by omega)
    obtain ⟨-, hin⟩ := afterLoads_done hfile hne hshort hkernels m fun i hi => hn i (by omega)
    have hwhole : (beforeLoad w content filename kernels m).lineLoaded % 3 = 0 := by
      rw [hloaded]
      split <;> omega
    rw [linesPlaced_eq hbefore hafter.lines hwhole (hin (hall m hm)), hloaded, hafter.loaded,
      ← List.take_take, List.take_length]
  have hrange : ∀ m ≤ n, linesLoaded w content filename kernels m =
      (reads content).take (6 + 3 * m) := by
    intro m hm
    induction m with
    | zero =>
        rw [linesLoaded, List.range_one, List.flatMap_singleton]
        exact hplaced 0 hm
    | succ m ih =>
        rw [linesLoaded, List.range_succ, List.flatMap_append, List.flatMap_singleton]
        change linesLoaded w content filename kernels m ++ linesPlaced _ _ _ = _
        rw [ih (by omega), hplaced (m + 1) hm, if_neg (Nat.succ_ne_zero m),
          show 3 + 3 * (m + 1) = 6 + 3 * m by omega]
        have htake : (reads content).take (6 + 3 * m) =
            ((reads content).take (6 + 3 * (m + 1))).take (6 + 3 * m) := by
          rw [List.take_take, Nat.min_eq_left (by omega)]
        rw [htake, List.take_append_drop]
  rw [hrange n (Nat.le_refl n), (afterLoads_spec kernels hfile hne hshort n hn).loaded,
    ← List.take_take, List.take_length]

/-- With its last page loaded, the process has the last line's frame for its last. -/
theorem lastLineAt_loaded (hterm : ¬ Terminated content) (hkernels : ∀ i, Orderly w (kernels i))
    (n : Nat) (hn : ∀ i < n, 6 + 3 * i < (reads content).length)
    (hend : (reads content).length ≤ 6 + 3 * n)
    (hgo : (afterLoads w content filename kernels n).2.stopped = false) :
    LastLineAt content (afterLoads w content filename kernels n).1
      (afterLoads w content filename kernels n).2.shellmemory := by
  have hreads : reads content = textLines content := by rw [reads, if_neg hterm]
  have hpos := textLines_length_pos hne
  obtain ⟨hbefore, hfrom, -⟩ := beforeLoad_spec kernels hfile hne hshort n hn
  have hafter := afterLoads_spec kernels hfile hne hshort n hn
  obtain ⟨-, hin⟩ := afterLoads_done hfile hne hshort hkernels n hn
  have hloaded := hafter.loaded
  have hlines := hafter.lines
  rw [hreads] at hbefore hlines hloaded hend hn
  obtain ⟨-, page, hpage, hindex⟩ := hlines.last (by omega)
  refine ⟨page, hpage, hindex, ?_⟩
  have hnone : (beforeLoad w content filename kernels n).page
      (((textLines content).length - 1) / 3) = none := by
    rw [hbefore.page, hfrom]
    split
    · exact Nat.zero_le _
    · next hpos' =>
        have hlast := hn (n - 1) (by omega)
        omega
  have hline := hin hgo _ hnone
  rw [hlines.line, if_pos (by omega), PCB.validLine, hpage, ← List.getLast?_eq_getElem?] at hline
  rw [← hline, hindex]
  dsimp only at hline ⊢
  rw [if_pos]
  by_contra hbit
  rw [if_neg hbit] at hline
  have hsome := List.getLast?_isSome.2 fun hnil => hne (textLines_eq_nil.1 hnil)
  rw [← hline] at hsome
  cases hsome

end Short

/-- The loads up to number `n` come to their ends, and what they place is the
file. -/
structure LoadsFile (w : World) (content filename : CString) (kernels : Nat → Kernel) (n : Nat) :
    Prop where
  comes : ∀ i ≤ n, (afterLoads w content filename kernels i).2.stopped = false
  lines : linesLoaded w content filename kernels n = textLines content
  last : LastLineAt content (afterLoads w content filename kernels n).1
    (afterLoads w content filename kernels n).2.shellmemory

/-- The loads deliver the lines of the file, each once, and record the frame of
the last one, exactly when no newline ends the file and every load finds its
frames. -/
theorem loadedLines_iff (w : World) (content filename : CString) (kernels : Nat → Kernel)
    (hfile : w.files filename = some content) (hne : content ≠ [])
    (hshort : ∀ line ∈ textLines content, Short line) (hkernels : ∀ i, Orderly w (kernels i)) :
    ∃ n, (∀ i < n, (afterLoads w content filename kernels i).1.lastPageNumber = -1) ∧
      (afterLoads w content filename kernels n).1.lastPageNumber ≠ -1 ∧
      (LoadsFile w content filename kernels n ↔
        ¬ Terminated content ∧ ∀ i ≤ n, LoadFits w content kernels i) := by
  have hpos := List.length_pos_of_ne_nil (reads_ne_nil hne)
  obtain ⟨n, hndef⟩ : ∃ n, n = ((reads content).length - 4) / 3 := ⟨_, rfl⟩
  have hn : ∀ i < n, 6 + 3 * i < (reads content).length := fun i hi => by omega
  have hend : (reads content).length ≤ 6 + 3 * n := by omega
  have hspec := afterLoads_spec kernels hfile hne hshort n hn
  have hloaded := hspec.loaded
  have hcomes : (∀ i ≤ n, (afterLoads w content filename kernels i).2.stopped = false) ↔
      ∀ i ≤ n, LoadFits w content kernels i :=
    forall₂_congr fun i hi =>
      (afterLoads_done hfile hne hshort hkernels i fun j hj => hn j (by omega)).1
  refine ⟨n, fun i hi => ?_, ?_, ?_⟩
  · have hearly := afterLoads_spec kernels hfile hne hshort i
      fun j hj => hn j (by omega)
    have hfew := hearly.loaded
    have hmore := hn i hi
    exact (hearly.lines.more (by omega)).2
  · rw [(hspec.lines.last (by omega)).1]
    omega
  · constructor
    · intro h
      refine ⟨fun hterm => ?_, hcomes.1 h.comes⟩
      have hlines := h.lines
      rw [linesLoaded_eq hfile hne hshort hkernels n hn h.comes, hloaded,
        List.take_of_length_le (by omega), reads, if_pos hterm] at hlines
      have hlast := List.getLast?_isSome.2 fun hnil => hne (textLines_eq_nil.1 hnil)
      obtain ⟨last, hsome⟩ := Option.isSome_iff_exists.1 hlast
      have hlen := congrArg List.length hlines
      rw [hsome] at hlen
      simp at hlen
    · rintro ⟨hterm, hfits⟩
      have hall := hcomes.2 hfits
      refine ⟨hall, ?_, lastLineAt_loaded hfile hne hshort hterm hkernels n hn hend
        (hall n (Nat.le_refl n))⟩
      rw [linesLoaded_eq hfile hne hshort hkernels n hn hall, hloaded,
        List.take_of_length_le (by omega), reads, if_neg hterm]

end Loads

/-- Seven lines: three pages. -/
def sevenLetters : CString := "a\nb\nc\nd\ne\nf\ng".toList

/-- Six frames: at the second load the first page is in the queue, to be evicted. -/
def sevenKernels : Nat → Kernel
  | 0 => kernelStart
  | _ + 1 =>
      let loaded := afterLoads (scriptWorld 6 sevenLetters) sevenLetters [] (fun _ => kernelStart) 0
      { loaded.2 with lruQueue := ((loaded.1.page 0).map fun page => [page]).getD [] }

theorem sevenKernels_orderly (i : Nat) :
    Orderly (scriptWorld 6 sevenLetters) (sevenKernels i) := by
  cases i with
  | zero =>
      exact ⟨rfl, fun c hc => absurd hc (Multiset.notMem_zero c), Multiset.nodup_zero⟩
  | succ i =>
      have hcells : cellsOf (sevenKernels (i + 1)).lruQueue =
          (([(0, ⟨['1'], ['a', '\n']⟩), (1, ⟨['1'], ['b', '\n']⟩), (2, ⟨['1'], ['c', '\n']⟩)] :
            List Cell) : Multiset Cell) := rfl
      refine ⟨rfl, ?_⟩
      rw [hcells]
      refine ⟨fun c hc => ?_, by decide⟩
      obtain rfl | rfl | rfl : c = (0, ⟨['1'], ['a', '\n']⟩) ∨ c = (1, ⟨['1'], ['b', '\n']⟩) ∨
          c = (2, ⟨['1'], ['c', '\n']⟩) := by simpa using hc
      · exact ⟨by decide, by decide, by decide, rfl⟩
      · exact ⟨by decide, by decide, by decide, rfl⟩
      · exact ⟨by decide, by decide, by decide, rfl⟩

/-- They are loaded in two loads, the second of which evicts a page. -/
theorem loadedLines_iff_seven :
    ∃ n, LoadsFile (scriptWorld 6 sevenLetters) sevenLetters [] sevenKernels n ∧
      evictions (scriptWorld 6 sevenLetters) (snapshot (sevenKernels 1)) 3 = 1 := by
  have hshort : ∀ line ∈ textLines sevenLetters, Short line := by
    unfold Short
    decide
  obtain ⟨n, -, -, h⟩ := loadedLines_iff (scriptWorld 6 sevenLetters) sevenLetters [] sevenKernels
    rfl (by decide) hshort sevenKernels_orderly
  have hfull : (freeSlots (scriptWorld 6 sevenLetters) (sevenKernels 1).shellmemory).card = 0 := rfl
  have hone : evictions (scriptWorld 6 sevenLetters) (snapshot (sevenKernels 1)) 3 = 1 := by
    show (3 - (freeSlots _ (sevenKernels 1).shellmemory).card + 2) / 3 = 1
    rw [hfull]
  have hstart : (freeSlots (scriptWorld 6 sevenLetters) kernelStart.shellmemory).card = 6 := rfl
  refine ⟨n, h.2 ⟨by decide, fun i _ => ?_⟩, hone⟩
  cases i with
  | zero =>
      have hzero : evictions (scriptWorld 6 sevenLetters) (snapshot (sevenKernels 0)) 6 = 0 := by
        show (6 - (freeSlots _ kernelStart.shellmemory).card + 2) / 3 = 0
        rw [hstart]
      refine ⟨by decide, ?_⟩
      show CanEvict _ (snapshot (sevenKernels 0)) 6
      refine ⟨by rw [hzero]; exact Nat.zero_le _, fun page hmem => ?_⟩
      rw [hzero] at hmem
      cases hmem
  | succ i =>
      refine ⟨by decide, ?_⟩
      show CanEvict _ (snapshot (sevenKernels 1)) 3
      refine ⟨by rw [hone]; decide, ?_⟩
      rw [hone]
      decide

/-- The script `a` with a newline: its line is loaded twice. -/
theorem loadedLines_newline :
    (afterLoads (scriptWorld 6 ['a', '\n']) ['a', '\n'] [] (fun _ => kernelStart)
        0).1.lastPageNumber = 0 ∧
      linesLoaded (scriptWorld 6 ['a', '\n']) ['a', '\n'] [] (fun _ => kernelStart) 0 =
        [['a', '\n'], ['a', '\n']] ∧
      textLines ['a', '\n'] = [['a', '\n']] := by
  decide

end SimpleShell.A2
