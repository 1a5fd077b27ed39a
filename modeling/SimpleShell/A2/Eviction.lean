import Mathlib.Algebra.BigOperators.Group.List.Basic
import Mathlib.Algebra.Order.Group.Multiset
import Mathlib.Data.List.ReduceOption
import SimpleShell.A2.FileLoad
import SimpleShell.A2.Execution

/-!
# What eviction finds

A page joins the queue when its first line is executed, and from its load until
it is taken off the queue again its frames are its own. So all that can go wrong
when `allocate_frame` finds no free frame is that the queue is empty or that its
head is a short page with -1 for a frame.
-/

namespace SimpleShell.A2

open SimpleShell.Shell (CString MemoryStruct noneText)

variable {w : World} {k k' : Kernel} {mem : Memory} {s t : Multiset Cell}

/-! ## Pages that were never executed -/

/-- The pages of a process that are loaded and not in the queue yet. -/
def PCB.pending (pcb : PCB) : List Page :=
  (pcb.pageTable.drop (pcb.PC.1 + min pcb.PC.2 1)).reduceOption

def PCB.cells (pcb : PCB) : Multiset Cell := cellsOf pcb.pending

theorem cellsOf_set {table : List (Option Page)} {q : Nat} (hq : (table[q]?).join = none)
    (page : Page) :
    cellsOf (table.set q (some page)).reduceOption ≤ page.cells + cellsOf table.reduceOption := by
  induction table generalizing q with
  | nil => exact Multiset.zero_le _
  | cons entry table ih =>
      cases q with
      | zero =>
          obtain rfl : entry = none := by simpa using hq
          simp [List.reduceOption_cons_of_some, List.reduceOption_cons_of_none]
      | succ q =>
          have hrest := ih (by simpa using hq)
          cases entry with
          | none =>
              simpa [List.reduceOption_cons_of_none] using hrest
          | some other =>
              simp only [List.set_cons_succ, List.reduceOption_cons_of_some, cellsOf_cons]
              rw [add_left_comm]
              exact add_le_add_right hrest _

/-- What a load of a page adds to the pages never executed. -/
theorem PCB.cells_set {pcb b : PCB} {q : Nat} {page : Page} (hq : pcb.page q = none)
    (hpc : b.PC = pcb.PC) (htable : b.pageTable = pcb.pageTable.set q (some page)) :
    b.cells ≤ page.cells + pcb.cells := by
  rw [PCB.cells, PCB.cells, PCB.pending, PCB.pending, hpc, htable, List.drop_set]
  split
  · exact Multiset.le_add_left _ _
  · next hge =>
      refine cellsOf_set ?_ page
      rw [List.getElem?_drop, show pcb.PC.1 + min pcb.PC.2 1 +
        (q - (pcb.PC.1 + min pcb.PC.2 1)) = q by omega]
      exact hq

theorem mapRange_eq_zip {frames : List Int} {texts : List CString} {pid n : Nat}
    (hf : frames.length = 3) (ht : texts.length = 3) :
    (List.range 3).map (pageOf pid frames texts n).cell =
      frames.zip (texts.map (MemoryStruct.mk (pidString pid))) := by
  refine List.ext_getElem (by simp [hf, ht]) fun j hj hj' => ?_
  have hlt : j < 3 := by simpa using hj
  simp [Page.cell, pageOf, List.getD_eq_getElem?_getD, hf, ht, hlt]

/-- The frames of a page that was loaded are among those its load was given. -/
theorem loadedPage_cells {pid : Nat} {keep : Bool} {fill : CString} {texts : List CString}
    (hlen : texts.length ≤ 3) :
    (loadedPage w pid keep fill texts k).cells ≤
      given pid (allocateFrames w pid (padded texts fill) k).1 (padded texts fill) := by
  obtain ⟨read, hread⟩ : ∃ read, read = allocateFrames w pid texts k := ⟨_, rfl⟩
  obtain ⟨held, hheld⟩ : ∃ held, held = allocateFrames w pid
    (List.replicate (3 - texts.length) fill) read.2 := ⟨_, rfl⟩
  have hreadLen : read.1.length = texts.length := hread ▸ allocateFrames_length
  have hheldLen : held.1.length = 3 - texts.length := by
    rw [hheld, allocateFrames_length, List.length_replicate]
  have hall : (allocateFrames w pid (padded texts fill) k).1 = read.1 ++ held.1 := by
    rw [padded, allocateFrames_append, ← hread, ← hheld]
  have hcells : (loadedPage w pid keep fill texts k).cells =
      (((read.1 ++ if keep then held.1 else List.replicate (3 - texts.length) (-1)).zip
        ((padded texts fill).map (MemoryStruct.mk (pidString pid)))).filter
          fun c => decide (c.1 ≠ -1) : List _) := by
    rw [Page.cells, loadedPage, ← hread, ← hheld, mapRange_eq_zip _ (padded_length hlen)]
    rw [List.length_append]
    split
    · omega
    · rw [List.length_replicate]
      omega
  rw [hcells, hall, given, Multiset.coe_le]
  cases keep with
  | true => exact List.filter_sublist.subperm
  | false =>
      rw [padded, List.map_append, List.zip_append (by simpa using hreadLen),
        List.zip_append (by simpa using hreadLen), List.filter_append]
      have hnone : (((if false = true then held.1 else List.replicate (3 - texts.length) (-1)).zip
          ((List.replicate (3 - texts.length) fill).map (MemoryStruct.mk (pidString pid)))).filter
            fun c => decide (c.1 ≠ -1)) = [] := by
        rw [List.filter_eq_nil_iff]
        intro c hc
        have hfst := (List.of_mem_zip hc).1
        rw [if_neg Bool.false_ne_true] at hfst
        simp [List.eq_of_mem_replicate hfst]
      rw [hnone, List.append_nil]
      exact (List.filter_sublist.trans (List.sublist_append_left _ _)).subperm

theorem pageLoaded_cells {q lineCount : Nat} {keep finished : Bool} {fill : CString}
    {texts : List CString} {pcb : PCB} (hq : pcb.page q = none) (hlen : texts.length ≤ 3) :
    (pageLoaded w q keep fill texts finished lineCount pcb k).cells ≤
      given pcb.pid (allocateFrames w pcb.pid (padded texts fill) k).1 (padded texts fill) +
        pcb.cells :=
  (PCB.cells_set (b := pageLoaded w q keep fill texts finished lineCount pcb k) hq rfl rfl).trans
    (add_le_add_left (loadedPage_cells hlen) _)

/-- A process without a page has none pending. -/
theorem PCB.cells_none {pcb : PCB} (h : ∀ q, pcb.page q = none) : pcb.cells = 0 := by
  have hnone : pcb.pending = [] := by
    rw [PCB.pending, List.reduceOption, List.filterMap_eq_nil_iff]
    intro entry hmem
    obtain ⟨q, hq⟩ := List.mem_iff_getElem?.1 (List.mem_of_mem_drop hmem)
    have hpage := h q
    rw [PCB.page, hq] at hpage
    exact hpage
  rw [PCB.cells, hnone, cellsOf_nil]

/-! ## The frames of the lines to come -/

/-- The lines loaded from the current page on are in frames of their own. -/
structure Apart (pcb : PCB) : Prop where
  real : ∀ i, 3 * pcb.PC.1 ≤ i → i < pcb.lineLoaded → 0 ≤ pcb.frame i
  distinct : ∀ i j, 3 * pcb.PC.1 ≤ i → i < pcb.lineLoaded → 3 * pcb.PC.1 ≤ j →
    j < pcb.lineLoaded → pcb.frame i = pcb.frame j → i = j

theorem Apart.of_frames {pcb : PCB} {frames : List Int} (hnodup : frames.Nodup)
    (hreal : ∀ f ∈ frames, 0 ≤ f)
    (h : ∀ i, 3 * pcb.PC.1 ≤ i → i < pcb.lineLoaded →
      frames[i - 3 * pcb.PC.1]? = some (pcb.frame i)) : Apart pcb := by
  refine ⟨fun i hi hlt => hreal _ (List.mem_of_getElem? (h i hi hlt)),
    fun i j hi hlt hj hlt' heq => ?_⟩
  have hfirst := h i hi hlt
  have hsecond := h j hj hlt'
  rw [← heq] at hsecond
  have hsame := (List.getElem?_inj (List.getElem?_eq_some_iff.1 hfirst).1 hnodup).1
    (hfirst.trans hsecond.symm)
  omega

theorem Apart.later {pcb b : PCB} (h : Apart pcb) (htable : b.pageTable = pcb.pageTable)
    (hloaded : b.lineLoaded = pcb.lineLoaded) (hpc : pcb.PC.1 ≤ b.PC.1) : Apart b := by
  have hframe : b.frame = pcb.frame := by
    funext i
    rw [PCB.frame, PCB.frame, PCB.page, PCB.page, htable]
  refine ⟨fun i hi hlt => ?_, fun i j hi hlt hj hlt' heq => ?_⟩
  · rw [hframe]
    exact h.real i (by omega) (by omega)
  · rw [hframe] at heq
    exact h.distinct i j (by omega) (by omega) (by omega) (by omega) heq

/-- The frames a load was given are different frames of the store. -/
theorem Held.given_frames {pid : Nat} {frames : List Int} {texts : List CString}
    (h : Held w mem (given pid frames texts + s)) (hlen : frames.length = texts.length) :
    frames.Nodup ∧ ∀ f ∈ frames, 0 ≤ f := by
  have hfst : (given pid frames texts).map Prod.fst = (frames : Multiset Int) := by
    rw [given, Multiset.map_coe, List.map_fst_zip (by simp [hlen])]
  have hnodup := (Multiset.nodup_of_le (Multiset.map_le_map (Multiset.le_add_right _ s))
    h.distinct)
  rw [hfst, Multiset.coe_nodup] at hnodup
  refine ⟨hnodup, fun f hf => ?_⟩
  have hmem : f ∈ (given pid frames texts).map Prod.fst := by
    rw [hfst]
    exact hf
  obtain ⟨c, hc, rfl⟩ := Multiset.mem_map.1 hmem
  exact (h.stored c (Multiset.mem_add.2 (.inl hc))).1

theorem loadedPage_frame {pid : Nat} {keep : Bool} {fill : CString} {texts : List CString} {j : Nat}
    (hj : j < texts.length) :
    (allocateFrames w pid (padded texts fill) k).1[j]? =
      some ((loadedPage w pid keep fill texts k).index j) := by
  have hread : j < (allocateFrames w pid texts k).1.length := by
    rw [allocateFrames_length]
    exact hj
  rw [loadedPage_index _ _ _ _ hj, padded, allocateFrames_append, List.getElem?_append_left hread,
    List.getD_eq_getElem?_getD, List.getElem?_eq_getElem hread, Option.getD_some]

/-- The frame of a line of the page that was loaded. -/
theorem pageLoaded_frame {q lineCount : Nat} {keep finished : Bool} {fill : CString}
    {texts : List CString} {pcb : PCB} {i : Nat} (hq : q < pcb.pageTable.length) :
    (pageLoaded w q keep fill texts finished lineCount pcb k).frame i =
      if i / 3 = q then (loadedPage w pcb.pid keep fill texts k).index (i % 3)
      else pcb.frame i := by
  rw [PCB.frame, PCB.frame, PCB.page, PCB.page, pageLoaded, List.getElem?_set]
  by_cases h : q = i / 3
  · rw [if_pos h, if_pos h.symm, if_pos hq]
    rfl
  · rw [if_neg h, if_neg (Ne.symm h)]

/-! ## Processes -/

/-- `page_table` has room for the pages of the script. -/
def TableFits (content : CString) : Prop :=
  linesRead (content.length + 1) ⟨content, false⟩ / 3 ≤ countLines content / 3

theorem readLine_rest (n : Nat) (rest : CString) :
    (readLine n rest).2.1.length ≤ rest.length ∧
      ((readLine n rest).2.2 = false → 0 < n → (readLine n rest).2.1.length < rest.length) := by
  induction n generalizing rest with
  | zero => exact ⟨Nat.le_refl _, fun _ h => absurd h (Nat.lt_irrefl 0)⟩
  | succ n ih =>
      cases rest with
      | nil => exact ⟨Nat.le_refl _, fun h => by cases h⟩
      | cons letter rest =>
          rw [readLine]
          split
          · exact ⟨Nat.le_succ _, fun _ _ => Nat.lt_succ_self _⟩
          · have hle := (ih rest).1
            dsimp only
            rw [List.length_cons]
            exact ⟨by omega, fun _ _ => by omega⟩

/-- Every file feeds some lines. -/
theorem exists_feeds (n : Nat) (command : CString) (fp : Stream) (hn : fp.rest.length ≤ n) :
    ∃ lines, Feeds command fp lines ∧ lines.length ≤ n + 1 := by
  induction n using Nat.strong_induction_on generalizing command fp with
  | _ n ih =>
      cases heof : fp.eof with
      | true => exact ⟨[], heof, by simp⟩
      | false =>
          obtain ⟨hle, hlt⟩ := readLine_rest 99 fp.rest
          cases hnext : (fgets command fp).2.eof with
          | true => exact ⟨[_], ⟨heof, rfl, hnext⟩, by simp⟩
          | false =>
              have hless : (fgets command fp).2.rest.length < fp.rest.length :=
                hlt hnext (by decide)
              obtain ⟨lines, hfeeds, hlen⟩ := ih (n - 1) (by omega) (fgets command fp).1
                (fgets command fp).2 (by omega)
              exact ⟨_ :: lines, ⟨heof, rfl, hfeeds⟩, by rw [List.length_cons]; omega⟩

theorem TableFits.lines {content : CString} (h : TableFits content) :
    ∃ lines, Feeds [] ⟨content, false⟩ lines ∧ lines.length / 3 + 1 ≤ countLines content / 3 + 1 := by
  obtain ⟨lines, hfeeds, hlen⟩ := exists_feeds content.length [] ⟨content, false⟩ (Nat.le_refl _)
  have hread := hfeeds.linesRead (n := content.length + 1)
  rw [TableFits, hread] at h
  exact ⟨lines, hfeeds, by omega⟩

/-- A process on its way through its script. -/
structure Proc (w : World) (lines : List CString) (pcb : PCB) : Prop where
  feeds : Feeds [] ⟨(w.files pcb.filename).getD [], false⟩ lines
  got : HasLines lines pcb
  place : pcb.PC.2 < 3
  here : pcb.at < lines.length
  loaded : pcb.at ≤ pcb.lineLoaded
  apart : Apart pcb

def Known (w : World) (pcb : PCB) : Prop := ∃ lines, Proc w lines pcb

/-- While the program runs, the processes are known, and their pending pages and
further frames are held. -/
structure Alive (w : World) (s : Multiset Cell) (pcbs : List PCB) (k : Kernel) : Prop where
  known : k.stopped = false → ∀ pcb ∈ pcbs, Known w pcb
  verdict : Verdict w (s + (pcbs.map PCB.cells).sum) k

theorem Alive.of_eq {pcbs : List PCB} (h : Alive w s pcbs k) (hmem : k'.shellmemory = k.shellmemory)
    (hqueue : k'.lruQueue = k.lruQueue) (hstop : k'.stopped = k.stopped)
    (hfull : k'.trace.full = k.trace.full) (hloads : k'.trace.loads = k.trace.loads) :
    Alive w s pcbs k' := by
  refine ⟨?_, h.verdict.of_eq hmem hqueue hstop hfull hloads⟩
  rw [hstop]
  exact h.known

theorem Alive.stop {pcbs pcbs' : List PCB} (h : Alive w s pcbs k) (hstop : k'.stopped = true)
    (hfull : k'.trace.full = k.trace.full) (hloads : k'.trace.loads = k.trace.loads) :
    Alive w t pcbs' k' := by
  refine ⟨fun hrun => ?_, h.verdict.stop hstop hfull hloads⟩
  rw [hstop] at hrun
  cases hrun

theorem Alive.perm {pcbs pcbs' : List PCB} (h : Alive w s pcbs k) (hp : pcbs.Perm pcbs') :
    Alive w s pcbs' k := by
  refine ⟨fun hrun pcb hmem => h.known hrun pcb (hp.mem_iff.2 hmem), ?_⟩
  rw [← (hp.map PCB.cells).sum_eq]
  exact h.verdict

theorem Alive.cons {pcb : PCB} {pcbs : List PCB} (h : Alive w (pcb.cells) pcbs k)
    (hknown : k.stopped = false → Known w pcb) : Alive w 0 (pcb :: pcbs) k := by
  refine ⟨fun hrun => List.forall_mem_cons.2 ⟨hknown hrun, h.known hrun⟩, ?_⟩
  rw [List.map_cons, List.sum_cons, zero_add]
  exact h.verdict

theorem Alive.uncons {pcb : PCB} {pcbs : List PCB} (h : Alive w 0 (pcb :: pcbs) k) :
    Alive w pcb.cells pcbs k ∧ (k.stopped = false → Known w pcb) := by
  refine ⟨⟨fun hrun p hp => h.known hrun p (List.mem_cons_of_mem _ hp), ?_⟩,
    fun hrun => h.known hrun pcb List.mem_cons_self⟩
  have hverdict := h.verdict
  rw [List.map_cons, List.sum_cons, zero_add] at hverdict
  exact hverdict

theorem Alive.mono {pcbs : List PCB} (h : Alive w t pcbs k) (hle : s ≤ t) : Alive w s pcbs k :=
  ⟨h.known, h.verdict.mono (add_le_add_left hle _)⟩

/-- A page that is missing is the next one to load, and all lines loaded have been
executed. -/
theorem Proc.fault {lines : List CString} {pcb : PCB} (h : Proc w lines pcb)
    (hpage : pcb.page pcb.PC.1 = none) :
    pcb.lineLoaded = 3 * pcb.PC.1 ∧ pcb.PC.2 = 0 ∧ 3 * pcb.PC.1 < lines.length := by
  have hnone := (h.got.page _).1 hpage
  have hhere := h.here
  have hloaded := h.loaded
  unfold PCB.at at hhere hloaded
  omega

/-- What a load leaves of a process and the kernel. -/
structure Loads (w : World) (pages : Nat) (s : Multiset Cell) (pcbs : List PCB) (before : PCB)
    (k : Kernel) (r : PCB × Kernel) : Prop where
  alive : Alive w (r.1.cells + s) pcbs r.2
  known : r.2.stopped = false → Known w r.1
  comes : r.2.stopped = false ↔ CanLoad w before.pid pages k

/-- A page fault. -/
theorem Alive.fault {pcb : PCB} {pcbs : List PCB} {lines : List CString}
    (h : Alive w (pcb.cells + s) pcbs k) (hrun : k.stopped = false) (hproc : Proc w lines pcb)
    (hpage : pcb.page pcb.PC.1 = none) :
    Loads w 1 s pcbs pcb k (loadMissingPageToMem w pcb k) := by
  obtain ⟨hq, hplace, hmore⟩ := hproc.fault hpage
  obtain ⟨q, hqdef⟩ : ∃ q, q = pcb.PC.1 := ⟨_, rfl⟩
  rw [← hqdef] at hq hmore
  obtain ⟨hlines, hloaded, hsame⟩ := hproc.got.loadMissing hproc.feeds (by omega) k
  have heq := loadMissingPageToMem_eq (k := k) hproc.feeds hq hmore
  obtain ⟨texts, htexts⟩ : ∃ texts, texts = (lines.drop (3 * q)).take 3 := ⟨_, rfl⟩
  have hlen : texts.length ≤ 3 := by
    rw [htexts, List.length_take]
    omega
  rw [← htexts] at heq
  obtain ⟨hload, hcomes⟩ := h.verdict.load pcb.pid 1 (padded texts [])
    hrun Nat.one_pos (padded_length hlen)
  have hsize := hproc.got.size
  have hnone : pcb.page q = none := by
    rw [hqdef]
    exact hpage
  have hcells : (pageLoaded w q true [] texts (decide (lines.drop (3 * q + 3) = [])) (3 * q) pcb
      (noteLoad pcb.pid 1 k)).cells ≤ _ := pageLoaded_cells hnone hlen
  rw [heq] at hlines hloaded hsame ⊢
  refine ⟨⟨fun _ => h.known hrun, ?_⟩, fun hgo => ⟨lines, ?_, hlines, ?_, ?_, ?_, ?_⟩, hcomes⟩
  · refine hload.mono ?_
    rw [← add_assoc, ← add_assoc]
    exact add_le_add_left (add_le_add_left hcells _) _
  · rw [hsame.filename]
    exact hproc.feeds
  · rw [hsame.pc]
    exact hproc.place
  · rw [PCB.at, hsame.pc]
    exact hproc.here
  · rw [PCB.at, hsame.pc, hplace, ← hqdef, hloaded]
    omega
  · obtain ⟨hnodup, hreal⟩ := ((hload.held hgo).mono
      (Multiset.le_add_left _ _)).given_frames (by rw [allocateFrames_length])
    refine Apart.of_frames hnodup hreal fun i hi hlt => ?_
    rw [hsame.pc, ← hqdef] at hi ⊢
    have htake : texts.length = min 3 (lines.length - 3 * q) := by
      rw [htexts, List.length_take, List.length_drop]
    dsimp only at hloaded hlt
    rw [hloaded] at hlt
    have hdiv : i / 3 = q := by omega
    have hmod : i % 3 = i - 3 * q := by omega
    dsimp only
    rw [pageLoaded_frame (by omega), if_pos hdiv, hmod]
    exact loadedPage_frame (by omega)

/-- A process with no page yet. -/
theorem Alive.loadPages {content : CString} {pcb : PCB} {pcbs : List PCB}
    (h : Alive w s pcbs k) (hrun : k.stopped = false) {lines : List CString}
    (hlines : HasLines lines pcb) (hfile : w.files pcb.filename = some content)
    (hfeeds : Feeds [] ⟨content, false⟩ lines) (hzero : pcb.lineLoaded = 0)
    (hpc : pcb.PC = (0, 0)) :
    Loads w (firstPages lines) s pcbs pcb k (loadPagesToMemory w ⟨content, false⟩ pcb k) := by
  have hne := hfeeds.ne_nil rfl
  have hpos := List.length_pos_of_ne_nil hne
  obtain ⟨hlines', hloaded, hsame⟩ := hlines.loadPages (w := w) hzero hfeeds k
  have hproc : Apart (loadPagesToMemory w ⟨content, false⟩ pcb k).1 →
      Known w (loadPagesToMemory w ⟨content, false⟩ pcb k).1 := by
    intro hapart
    have hat : (loadPagesToMemory w ⟨content, false⟩ pcb k).1.at = 0 := by
      rw [PCB.at, hsame.pc, hpc]
      rfl
    refine ⟨lines, ?_, hlines', ?_, by omega, by omega, hapart⟩
    · rw [hsame.filename, hfile]
      exact hfeeds
    · rw [hsame.pc, hpc]
      decide
  have hnone : ∀ q, pcb.page q = none := fun q => (hlines.page q).2 (by omega)
  have hsize := hlines.size
  by_cases hlen : lines.length ≤ 3
  · have hpages : firstPages lines = 1 := by
      unfold firstPages
      omega
    rw [hpages]
    rw [loadPagesToMemory_short hfeeds hne hlen] at hproc hloaded hsame ⊢
    obtain ⟨hload, hcomes⟩ := h.verdict.load pcb.pid 1
      (padded lines (lines.getLastD [])) hrun Nat.one_pos (padded_length hlen)
    refine ⟨⟨fun _ => h.known hrun, hload.mono ?_⟩, fun hgo => hproc ?_, hcomes⟩
    · rw [← add_assoc]
      refine add_le_add_left (add_le_add_left ((pageLoaded_cells (hnone 0) hlen).trans ?_) _) _
      rw [PCB.cells_none hnone, add_zero]
    · obtain ⟨hnodup, hreal⟩ := ((hload.held hgo).mono
        (Multiset.le_add_left _ _)).given_frames (by rw [allocateFrames_length])
      refine Apart.of_frames hnodup hreal fun i hi hlt => ?_
      rw [hsame.pc, hpc] at hi ⊢
      dsimp only at hloaded hlt ⊢
      rw [hloaded] at hlt
      rw [pageLoaded_frame (by omega), if_pos (by omega), Nat.mod_eq_of_lt (by omega)]
      exact loadedPage_frame (by omega)
  · obtain ⟨k0, k1, second, hk0, hk1, hsecond, heq⟩ := loadPagesToMemory_long (w := w) (b := pcb)
      (k := k) hfeeds (by omega)
    have hpages : firstPages lines = 2 := by
      unfold firstPages
      omega
    obtain ⟨pcb0, hpcb0⟩ : ∃ pcb0, pcb0 = pageLoaded w 0 false [] (lines.take 3) false 0 pcb k0 :=
      ⟨_, rfl⟩
    rw [hpages]
    rw [heq, ← hpcb0] at hproc hloaded hsame ⊢
    have hfirstLen : (lines.take 3).length ≤ 3 := List.length_take_le ..
    have hfirstThree : (lines.take 3).length = 3 := by
      rw [List.length_take]
      omega
    have hsecondLen : second.length ≤ 3 := by
      rw [hsecond]
      exact List.length_take_le ..
    have hsecondCount : second.length = min 3 (lines.length - 3) := by
      rw [hsecond, List.length_take, List.length_drop]
    have hone : pcb0.page 1 = none := by
      have hpage := hnone 1
      rw [hpcb0]
      rw [PCB.page] at hpage ⊢
      rw [pageLoaded, List.getElem?_set_ne (by decide)]
      exact hpage
    have hcells0 : pcb0.cells ≤ given pcb.pid
        (allocateFrames w pcb.pid (padded (lines.take 3) []) k0).1 (padded (lines.take 3) []) := by
      rw [hpcb0]
      refine (pageLoaded_cells (hnone 0) hfirstLen).trans ?_
      rw [PCB.cells_none hnone, add_zero]
    have hpid : pcb0.pid = pcb.pid := by rw [hpcb0, pageLoaded]
    have htable : pcb0.pageTable.length = pcb.pageTable.length := by
      rw [hpcb0, pageLoaded, List.length_set]
    -- both pages are one row of six allocations
    obtain ⟨hload, hcomes⟩ := h.verdict.load pcb.pid 2
      (padded (lines.take 3) [] ++ padded second (second.getLastD [])) hrun (by decide)
      (by rw [List.length_append, padded_length hfirstLen, padded_length hsecondLen])
    rw [← hk0, allocateFrames_append, ← hk1] at hload hcomes
    refine ⟨⟨fun _ => h.known hrun, ?_⟩, fun hgo => hproc ?_, hcomes⟩
    · rw [given_append allocateFrames_length] at hload
      refine hload.mono ?_
      rw [← add_assoc]
      refine add_le_add_left (add_le_add_left ?_ _) _
      refine (pageLoaded_cells hone hsecondLen).trans ?_
      rw [hpid, add_comm]
      exact add_le_add_left hcells0 _
    · obtain ⟨hnodup, hreal⟩ := ((hload.held hgo).mono (Multiset.le_add_left _ _)).given_frames
        (by rw [List.length_append, List.length_append, allocateFrames_length,
          allocateFrames_length])
      refine Apart.of_frames hnodup hreal fun i hi hlt => ?_
      rw [hsame.pc, hpc] at hi ⊢
      dsimp only at hloaded hlt ⊢
      rw [hloaded] at hlt
      have hrow : (allocateFrames w pcb.pid (padded (lines.take 3) []) k0).1.length = 3 := by
        rw [allocateFrames_length, padded_length hfirstLen]
      rw [pageLoaded_frame (by omega), hpid, Nat.mul_zero, Nat.sub_zero]
      by_cases hi3 : i < 3
      · rw [if_neg (by omega), hpcb0, pageLoaded_frame (by omega), if_pos (by omega),
          Nat.mod_eq_of_lt hi3, List.getElem?_append_left (by omega)]
        exact loadedPage_frame (by omega)
      · rw [if_pos (by omega), List.getElem?_append_right (by omega), hrow,
          show i % 3 = i - 3 by omega]
        exact loadedPage_frame (by omega)

/-- How many pages `process_initialize` loads, for a process of this file. -/
def pagesLoaded (content : CString) : Nat := (linesRead 6 ⟨content, false⟩ + 2) / 3

theorem pagesLoaded_eq {content command : CString} {lines : List CString}
    (h : Feeds command ⟨content, false⟩ lines) : pagesLoaded content = firstPages lines := by
  rw [pagesLoaded, firstPages, h.linesRead]

/-- What `process_initialize` of a file does. -/
theorem Alive.begin_file {filename content : CString} {k : Kernel} (hfits : TableFits content)
    (hfile : w.files filename = some content) (hrun : k.stopped = false)
    (h : Alive w s k.readyQueue k) :
    Alive w s (processInitialize w filename k).readyQueue (processInitialize w filename k) ∧
      ((processInitialize w filename k).stopped = false ↔
        CanLoad w k.pidCounter (pagesLoaded content) k) := by
  obtain ⟨lines, hfeeds, hroom⟩ := hfits.lines
  obtain ⟨made, hmade⟩ : ∃ made, made = makePCB w
    (List.replicate (countLines content / 3 + 1) none) filename k := ⟨_, rfl⟩
  have heq : processInitialize w filename k =
      if (loadPagesToMemory w ⟨content, false⟩ made.1 made.2).2.stopped then
        (loadPagesToMemory w ⟨content, false⟩ made.1 made.2).2
      else enqueue (loadPagesToMemory w ⟨content, false⟩ made.1 made.2).1
        (loadPagesToMemory w ⟨content, false⟩ made.1 made.2).2 := by
    rw [processInitialize, hrun, if_neg Bool.false_ne_true, hfile, hmade]
  have hlines : HasLines lines made.1 := by
    rw [hmade]
    exact HasLines.fresh (hfeeds.ne_nil rfl) hroom
  have hmadeAlive : Alive w s k.readyQueue made.2 := by
    rw [hmade]
    exact ⟨h.known, h.verdict.of_eq rfl rfl rfl rfl rfl⟩
  have hloaded := hmadeAlive.loadPages (by rw [hmade]; exact hrun) hlines
    (by rw [hmade]; exact hfile) hfeeds (by rw [hmade]; rfl) (by rw [hmade]; rfl)
  have hquiet := (loadPagesToMemory_moves (w := w) ⟨content, false⟩ made.1 made.2).2
  rw [heq]
  generalize loadPagesToMemory w ⟨content, false⟩ made.1 made.2 = r at hloaded hquiet ⊢
  have hqueue : r.2.readyQueue = k.readyQueue := by
    rw [hquiet.queue, hmade]
    rfl
  have hcomes : r.2.stopped = false ↔ CanLoad w k.pidCounter (pagesLoaded content) k := by
    rw [pagesLoaded_eq hfeeds, hloaded.comes, hmade]
    exact Iff.rfl
  split
  · next hstop => exact ⟨hloaded.alive.stop hstop rfl rfl, hcomes⟩
  · next hstop =>
      have hgo : r.2.stopped = false := by simpa using hstop
      refine ⟨⟨fun _ pcb hmem => ?_, ?_⟩, hcomes⟩
      · change pcb ∈ r.2.readyQueue ++ [r.1] at hmem
        rw [hqueue] at hmem
        rcases List.mem_append.1 hmem with hmem | hmem
        · exact hloaded.alive.known hgo pcb hmem
        · rw [List.mem_singleton.1 hmem]
          exact hloaded.known hgo
      · show Verdict w (s + ((r.2.readyQueue ++ [r.1]).map PCB.cells).sum) _
        have hverdict := hloaded.alive.verdict
        rw [hqueue, List.map_append, List.sum_append, List.map_singleton, List.sum_singleton,
          add_comm _ r.1.cells, ← add_assoc, add_comm s]
        exact hverdict.of_eq rfl rfl rfl rfl rfl

/-- `process_initialize` -/
theorem Alive.begin {filename : CString} {k : Kernel}
    (hfits : ∀ filename content, w.files filename = some content → TableFits content)
    (h : Alive w s k.readyQueue k) :
    Alive w s (processInitialize w filename k).readyQueue (processInitialize w filename k) := by
  cases hrun : k.stopped with
  | true =>
      rw [processInitialize_stopped filename hrun]
      exact h
  | false =>
      cases hfile : w.files filename with
      | none =>
          rw [processInitialize, hrun, if_neg Bool.false_ne_true, hfile]
          exact h
      | some content => exact (h.begin_file (hfits filename content hfile) hfile hrun).1

/-- The scripts that a script's line loads. -/
theorem Alive.parseInput {k : Kernel}
    (hfits : ∀ filename content, w.files filename = some content → TableFits content)
    (line : CString) (h : Alive w s k.readyQueue k) :
    Alive w s (parseInput w line k).readyQueue (parseInput w line k) := by
  unfold A2.parseInput
  induction w.loadedBy line generalizing k with
  | nil => exact h
  | cons filename rest ih => exact ih (h.begin hfits)

/-- The pages after the current one are pending, whatever the next place is. -/
theorem updatePC_cells (pcb : PCB) :
    (updatePC { pcb with priority := false }).cells =
      cellsOf (pcb.pageTable.drop (pcb.PC.1 + 1)).reduceOption := by
  unfold updatePC
  split
  · rw [PCB.cells, PCB.pending, Nat.min_eq_right (Nat.le_add_left ..)]
  · next hplace =>
      split
      · rfl
      · have hone : 1 ≤ pcb.PC.2 := by
          dsimp only at hplace
          omega
        rw [PCB.cells, PCB.pending, Nat.min_eq_right hone]

theorem Verdict.enqueue {page : Page} (h : Verdict w (page.cells + s) k) :
    Verdict w s (lruQueueAddToTail page k) := by
  refine ⟨h.agree, h.can, fun hrun => ?_⟩
  rw [lruQueueAddToTail, cellsOf_append, cellsOf_cons, cellsOf_nil, add_zero, add_assoc]
  exact h.held hrun

/-- The page joins the queue with its first line. -/
theorem Alive.lineStart {pcb : PCB} {page : Page} {pcbs : List PCB} {k : Kernel}
    (h : Alive w pcb.cells pcbs k) (hpage : pcb.page pcb.PC.1 = some page) :
    Alive w (A2.updatePC { pcb with priority := false }).cells pcbs (lineStart page pcb k) := by
  have hcells : pcb.cells = (if pcb.PC.2 = 0 then page.cells else 0) +
      cellsOf (pcb.pageTable.drop (pcb.PC.1 + 1)).reduceOption := by
    rw [PCB.cells, PCB.pending]
    split
    · next hzero =>
        obtain ⟨hlt, hget⟩ := List.getElem?_eq_some_iff.1 (Option.join_eq_some_iff.1 hpage)
        rw [hzero, Nat.zero_min, Nat.add_zero, List.drop_eq_getElem_cons hlt, hget,
          List.reduceOption_cons_of_some, cellsOf_cons]
    · rw [Nat.min_eq_right (by omega), zero_add]
  have hverdict := h.verdict
  rw [hcells, add_assoc] at hverdict
  rw [updatePC_cells, A2.lineStart]
  split
  · next hzero =>
      rw [if_pos hzero] at hverdict
      exact ⟨h.known, hverdict.enqueue⟩
  · next hzero =>
      rw [if_neg hzero, zero_add] at hverdict
      exact ⟨h.known, hverdict⟩

/-- The line at the current place. -/
theorem Alive.lineRun {pcb : PCB} {page : Page} {k : Kernel}
    (hfits : ∀ filename content, w.files filename = some content → TableFits content)
    (h : Alive w pcb.cells k.readyQueue k) (hpage : pcb.page pcb.PC.1 = some page) :
    Alive w (A2.updatePC { pcb with priority := false }).cells (lineRun w page pcb k).readyQueue
      (lineRun w page pcb k) := by
  have hstart := h.lineStart hpage
  have hqueue : (A2.lineStart page pcb k).readyQueue = k.readyQueue := by
    rw [A2.lineStart]
    split <;> rfl
  rw [← hqueue] at hstart
  have hnote : ∀ entry, Alive w (A2.updatePC { pcb with priority := false }).cells
      (noteExecuted entry (A2.lineStart page pcb k)).readyQueue
      (noteExecuted entry (A2.lineStart page pcb k)) :=
    fun _ => hstart.of_eq rfl rfl rfl rfl rfl
  exact (hnote _).parseInput hfits _

/-- A line that has a page is loaded, and in a frame of the store. -/
theorem Proc.line {lines : List CString} {pcb : PCB} {page : Page} (h : Proc w lines pcb)
    (hpage : pcb.page pcb.PC.1 = some page) :
    pcb.at < pcb.lineLoaded ∧ pcb.frame pcb.at = page.index pcb.PC.2 ∧
      0 ≤ page.index pcb.PC.2 := by
  have hplace := h.place
  have hhere := h.here
  have hle := h.loaded
  have hwhole := h.got.whole
  have hsome : ¬ pcb.lineLoaded ≤ 3 * pcb.PC.1 := fun hle' => by
    rw [(h.got.page _).2 hle'] at hpage
    cases hpage
  have hat : pcb.at = 3 * pcb.PC.1 + pcb.PC.2 := rfl
  have hlt : pcb.at < pcb.lineLoaded := by omega
  have hframe : pcb.frame pcb.at = page.index pcb.PC.2 := by
    rw [PCB.frame, show pcb.at / 3 = pcb.PC.1 by omega, hpage, show pcb.at % 3 = pcb.PC.2 by omega]
  refine ⟨hlt, hframe, ?_⟩
  rw [← hframe]
  exact h.apart.real _ (by omega) hlt

/-- The frame of a line is that of the last line only for the last line. -/
theorem Proc.last_iff {lines : List CString} {pcb : PCB} {page : Page} (h : Proc w lines pcb)
    (hpage : pcb.page pcb.PC.1 = some page) :
    page.index pcb.PC.2 = pcb.lastLineNumber ↔ pcb.at + 1 = lines.length := by
  obtain ⟨hlt, hframe, hreal⟩ := h.line hpage
  have hhere := h.here
  have hle := h.got.loaded
  have hat : pcb.at = 3 * pcb.PC.1 + pcb.PC.2 := rfl
  constructor
  · intro heq
    have hall : pcb.lineLoaded = lines.length := by
      by_contra hne
      have hminus := (h.got.more (by omega)).1
      omega
    obtain ⟨-, last, hlast, hnumber⟩ := h.got.last hall
    have hend : pcb.frame (lines.length - 1) = pcb.lastLineNumber := by
      rw [PCB.frame, hlast, hnumber]
    have hsame := h.apart.distinct pcb.at (lines.length - 1) (by omega) hlt (by omega) (by omega)
      (hframe.trans (heq.trans hend.symm))
    omega
  · intro heq
    obtain ⟨-, last, hlast, hnumber⟩ := h.got.last (by omega)
    have hend : pcb.frame (lines.length - 1) = pcb.lastLineNumber := by
      rw [PCB.frame, hlast, hnumber]
    rw [← hframe, ← hend, show lines.length - 1 = pcb.at by omega]

/-- The next place is on a page of the script. -/
theorem Proc.next {lines : List CString} {pcb : PCB} {page : Page} (h : Proc w lines pcb)
    (hpage : pcb.page pcb.PC.1 = some page) (hmore : pcb.at + 1 < lines.length) :
    Proc w lines (updatePC { pcb with priority := false }) := by
  obtain ⟨hlt, -⟩ := h.line hpage
  have hplace := h.place
  have hle := h.got.loaded
  have hat : pcb.at = 3 * pcb.PC.1 + pcb.PC.2 := rfl
  unfold updatePC
  split
  · next h2 =>
      dsimp only at h2
      have hnext : PCB.at { pcb with priority := false, PC := (pcb.PC.1, pcb.PC.2 + 1) } =
          pcb.at + 1 := by
        rw [PCB.at, hat]
        dsimp only
        omega
      refine ⟨h.feeds, h.got.of_eq rfl rfl rfl rfl, ?_, hnext.trans_lt hmore, ?_,
        h.apart.later rfl rfl (Nat.le_refl _)⟩
      · show pcb.PC.2 + 1 < 3
        omega
      · show PCB.at { pcb with priority := false, PC := (pcb.PC.1, pcb.PC.2 + 1) } ≤ pcb.lineLoaded
        omega
  · next h2 =>
      dsimp only at h2
      have hnext : pcb.lastPageNumber = -1 ∨ (pcb.PC.1 : Int) < pcb.lastPageNumber := by
        by_cases hall : pcb.lineLoaded = lines.length
        · rw [(h.got.last hall).1]
          omega
        · exact .inl (h.got.more (by omega)).2
      rw [if_pos hnext]
      have hnextAt : PCB.at { pcb with priority := false, PC := (pcb.PC.1 + 1, 0) } =
          pcb.at + 1 := by
        rw [PCB.at, hat]
        dsimp only
        omega
      refine ⟨h.feeds, h.got.of_eq rfl rfl rfl rfl, Nat.zero_lt_succ 2, hnextAt.trans_lt hmore, ?_,
        h.apart.later rfl rfl (Nat.le_succ _)⟩
      show PCB.at { pcb with priority := false, PC := (pcb.PC.1 + 1, 0) } ≤ pcb.lineLoaded
      omega

/-- What a process and the kernel are after some of its lines. -/
structure Went (w : World) (s : Multiset Cell) (r : Bool × PCB × Kernel) : Prop where
  alive : Alive w s r.2.2.readyQueue r.2.2
  known : r.1 = false → r.2.2.stopped = false → Known w r.2.1
  cells : r.1 = false → r.2.2.stopped = false → s = r.2.1.cells

/-- The lines of one turn. -/
theorem Alive.execute {k : Kernel}
    (hfits : ∀ filename content, w.files filename = some content → TableFits content)
    (n : Nat) {pcb : PCB} (hrun : k.stopped = false) (hknown : Known w pcb)
    (h : Alive w pcb.cells k.readyQueue k) : ∃ s, Went w s (executeProcess w n pcb k) := by
  induction n generalizing pcb k with
  | zero => exact ⟨_, h, fun _ _ => hknown, fun _ _ => rfl⟩
  | succ n ih =>
      obtain ⟨lines, hproc⟩ := hknown
      cases hpage : pcb.page pcb.PC.1 with
      | none =>
          rw [executeProcess_fault hpage]
          have hqueue := (loadMissingPageToMem_moves (w := w) pcb k).2.queue
          rw [← add_zero pcb.cells] at h
          obtain ⟨halive, hknown, -⟩ := h.fault hrun hproc hpage
          rw [add_zero, ← hqueue] at halive
          exact ⟨_, halive, fun _ hgo => hknown hgo, fun _ _ => rfl⟩
      | some page =>
          obtain ⟨-, -, hreal⟩ := hproc.line hpage
          have hline := h.lineRun hfits hpage
          rw [executeProcess_line hpage hreal]
          split
          · next hstop =>
              refine ⟨0, hline.mono (Multiset.zero_le _), fun _ hgo => ?_, fun _ hgo => ?_⟩
              · rw [hstop] at hgo
                cases hgo
              · rw [hstop] at hgo
                cases hgo
          · next hstop =>
              split
              · exact ⟨0, (hline.mono (Multiset.zero_le _)).of_eq rfl rfl rfl rfl rfl, nofun, nofun⟩
              · next hlast =>
                  have hhere := hproc.here
                  have hmore : pcb.at + 1 < lines.length := by
                    have hne : ¬ pcb.at + 1 = lines.length := fun heq =>
                      hlast ((hproc.last_iff hpage).2 heq)
                    omega
                  exact ih (by simpa using hstop) ⟨lines, hproc.next hpage hmore⟩ hline

/-! ## Turns and sessions -/

theorem decrement_cells (pcbs : List PCB) :
    (readyQueueDecrementJobLengthScore pcbs).map PCB.cells = pcbs.map PCB.cells := by
  rw [readyQueueDecrementJobLengthScore, List.map_map]
  refine List.map_congr_left fun pcb _ => ?_
  dsimp only [Function.comp_apply]
  split <;> rfl

theorem known_decrement {pcbs : List PCB} (h : ∀ pcb ∈ pcbs, Known w pcb) :
    ∀ pcb ∈ readyQueueDecrementJobLengthScore pcbs, Known w pcb := by
  intro pcb hmem
  obtain ⟨pcb0, hmem0, rfl⟩ := List.mem_map.1 hmem
  obtain ⟨lines, hproc⟩ := h pcb0 hmem0
  split
  · exact ⟨lines, hproc.feeds, hproc.got.of_eq rfl rfl rfl rfl, hproc.place, hproc.here,
      hproc.loaded, hproc.apart.later rfl rfl (Nat.le_refl _)⟩
  · exact ⟨lines, hproc⟩

/-- While the process taken runs, it and the queue are what the queue was. -/
theorem Alive.taken {policy : Policy} {cur : PCB} (hrun : k.stopped = false)
    (h : Alive w 0 k.readyQueue k) (ht : taken policy k = some (cur, k')) :
    Alive w cur.cells k'.readyQueue k' ∧ Known w cur := by
  obtain ⟨rest, stop, hperm, rfl, -⟩ := taken_queue hrun ht
  obtain ⟨hrest, hcur⟩ := (h.perm hperm.symm).uncons
  refine ⟨?_, hcur hrun⟩
  have hsame : Alive w cur.cells (takenRest policy k rest stop).readyQueue k := by
    rw [takenRest]
    split
    · refine ⟨fun hrun => known_decrement (hrest.known hrun), ?_⟩
      rw [decrement_cells]
      exact hrest.verdict
    · exact hrest
  cases stop with
  | true => exact hsame.stop rfl rfl rfl
  | false => exact hsame.of_eq rfl rfl hrun.symm rfl rfl

/-- One turn of a scheduler. -/
theorem Alive.turn {policy : Policy} {k : Kernel}
    (hfits : ∀ filename content, w.files filename = some content → TableFits content)
    (h : Alive w 0 k.readyQueue k) :
    Alive w 0 (scheduler w policy k).readyQueue (scheduler w policy k) := by
  rw [scheduler_eq, schedulerTurn]
  split
  · exact h
  · next hgo =>
      have hrun : k.stopped = false := by simpa using hgo
      cases ht : A2.taken policy k with
      | none => exact h
      | some r =>
          obtain ⟨cur, k1⟩ := r
          obtain ⟨halive, hknown⟩ := h.taken hrun ht
          dsimp only
          split
          · exact halive.mono (Multiset.zero_le _)
          · next hgo1 =>
              obtain ⟨s, hwent⟩ :=
                halive.execute hfits (quantaOf policy) (by simpa using hgo1) hknown
              generalize executeProcess w (quantaOf policy) cur k1 = r at hwent ⊢
              split
              · exact hwent.alive.mono (Multiset.zero_le _)
              · next hend =>
                  obtain ⟨hdone, hstop⟩ : r.1 = false ∧ r.2.2.stopped = false := by
                    simpa using hend
                  have hcons : Alive w 0 (r.2.1 :: r.2.2.readyQueue) r.2.2 := by
                    refine Alive.cons ?_ fun _ => hwent.known hdone hstop
                    rw [← hwent.cells hdone hstop]
                    exact hwent.alive
                  by_cases hp : policy = .SJF
                  · subst hp
                    exact (hcons.uncons.1.mono (Multiset.zero_le _)).of_eq rfl rfl rfl rfl rfl
                  · have hput := putBackOf_perm hp r.2.2.readyQueue r.2.1
                    exact (hcons.perm hput.symm).of_eq rfl rfl rfl rfl rfl

/-- The states between turns in a session of `run` and `exec` commands: the
scripts loaded, a scheduler begun, a turn of a scheduler. -/
inductive Session (w : World) : Kernel → Prop where
  | start : Session w kernelStart
  | load (filename : CString) (k : Kernel) : Session w k → Session w (processInitialize w filename k)
  | begin (policy : Policy) (k : Kernel) : Session w k → Session w (schedulerStart policy k)
  | turn (policy : Policy) (k : Kernel) : Session w k → Session w (scheduler w policy k)

theorem Alive.schedulerStart {policy : Policy} (h : Alive w 0 k.readyQueue k) :
    Alive w 0 (schedulerStart policy k).readyQueue (schedulerStart policy k) := by
  cases policy with
  | AGING => exact (h.perm (sortReadyQueue_perm _).symm).of_eq rfl rfl rfl rfl rfl
  | FCFS => exact h
  | SJF => exact h
  | RR => exact h
  | RR30 => exact h

theorem Session.alive (hfits : ∀ filename content, w.files filename = some content →
    TableFits content) {k : Kernel} (h : Session w k) : Alive w 0 k.readyQueue k := by
  induction h with
  | start =>
      have hheld : Held w kernelStart.shellmemory 0 :=
        ⟨fun c hc => absurd hc (Multiset.notMem_zero c), Multiset.nodup_zero⟩
      have hcan : AllCan w kernelStart := fun load hload => by cases hload
      have hgood : AllGood w kernelStart := fun snap hsnap => by cases hsnap
      have hknown : ∀ pcb ∈ kernelStart.readyQueue, Known w pcb := fun pcb hmem => by cases hmem
      exact ⟨fun _ => hknown, iff_of_true hcan hgood, fun _ => hcan, fun _ => hheld⟩
  | load filename k _ ih => exact ih.begin hfits
  | begin policy k _ ih => exact ih.schedulerStart
  | turn policy k _ ih => exact ih.turn hfits

/-- While the program runs, the pages in the queue hold their frames. -/
theorem Session.orderly (hfits : ∀ filename content, w.files filename = some content →
    TableFits content) {k : Kernel} (h : Session w k) (hrun : k.stopped = false) :
    Orderly w k :=
  ⟨hrun, ((h.alive hfits).verdict.held hrun).mono (Multiset.le_add_right _ _)⟩

/-- In every session `allocate_frame` finds the head of the queue in order
exactly when every load had enough whole pages to evict. -/
theorem eviction_good_iff (w : World) (hfits : ∀ filename content,
    w.files filename = some content → TableFits content) (k : Kernel) (h : Session w k) :
    (∀ snap ∈ k.trace.full, Good w snap) ↔
      ∀ load ∈ k.trace.loads, CanEvict w load.1 load.2 :=
  (h.alive hfits).verdict.agree.symm

/-- The kernel with one process, whose script has this content. -/
def oneProcess (frames : Nat) (content : CString) : Kernel :=
  processInitialize (scriptWorld frames content) [] kernelStart

/-- Seven lines on six frames, after a turn of `FCFS`: the third page has taken the
frames of the first. -/
theorem eviction_good_iff_seven :
    Session (scriptWorld 6 sevenLetters)
        (schedulerFCFS (scriptWorld 6 sevenLetters) (oneProcess 6 sevenLetters)) ∧
      (schedulerFCFS (scriptWorld 6 sevenLetters)
        (oneProcess 6 sevenLetters)).trace.full.length = 1 ∧
      ∀ snap ∈ (schedulerFCFS (scriptWorld 6 sevenLetters)
        (oneProcess 6 sevenLetters)).trace.full, Good (scriptWorld 6 sevenLetters) snap := by
  have hsession : Session (scriptWorld 6 sevenLetters)
      (schedulerFCFS (scriptWorld 6 sevenLetters) (oneProcess 6 sevenLetters)) :=
    .turn .FCFS _ (.load [] kernelStart .start)
  refine ⟨hsession, by decide +kernel,
    (eviction_good_iff (scriptWorld 6 sevenLetters) ?_ _ hsession).2 (by decide +kernel)⟩
  intro filename content hfile
  obtain rfl : sevenLetters = content := Option.some.inj hfile
  unfold TableFits
  decide

/-- Four lines on three frames: the second page finds no free frame, and no page
in the queue. -/
theorem eviction_queue_empty :
    Session (scriptWorld 3 "a\na\na\na".toList) (oneProcess 3 "a\na\na\na".toList) ∧
      ∃ snap ∈ (oneProcess 3 "a\na\na\na".toList).trace.full, snap.lruQueue = [] := by
  refine ⟨.load [] kernelStart .start, ?_⟩
  have hlen : 0 < (oneProcess 3 "a\na\na\na".toList).trace.full.length := by decide +kernel
  exact ⟨(oneProcess 3 "a\na\na\na".toList).trace.full[0], List.getElem_mem hlen, rfl⟩

end SimpleShell.A2
