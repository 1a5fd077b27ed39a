import Mathlib.Algebra.BigOperators.Group.List.Basic
import Mathlib.Algebra.Order.Group.Multiset
import Mathlib.Data.Finset.Card
import Mathlib.Data.List.ReduceOption
import SimpleShell.A2.Loader

/-!
# What a load finds and leaves

Frames that are held are frames of the store, each once, with what was put there.
While the pages in the queue hold their frames, a load goes well exactly when the
free frames and the whole pages at the head of the queue are enough for it; then
it holds the frames it got as well. Where they are not enough, the program comes
to grief.
-/

namespace SimpleShell.A2

open SimpleShell.Shell (CString MemoryStruct noneText)

variable {w : World} {k k' : Kernel} {mem : Memory}

theorem pidString_ne (pid : Nat) : pidString pid ≠ noneText := by
  intro heq
  have hmem : 'n' ∈ Nat.toDigits 10 pid := by
    change 'n' ∈ pidString pid
    rw [heq]
    decide
  have hdigit := Nat.isDigit_of_mem_toDigits (by decide) (by decide) hmem
  exact absurd hdigit (by decide)

theorem freeFrame_spec {mem : Memory} {i : Nat} (h : freeFrame w mem = some i) :
    i < w.FRAME_STORE_SIZE ∧ (mem i).var = noneText := by
  have hmem := List.mem_of_find?_eq_some h
  have hfree := List.find?_some h
  exact ⟨List.mem_range.1 hmem, of_decide_eq_true hfree⟩

/-! ## Frames and what they hold -/

/-- A frame and what is in it. -/
abbrev Cell := Int × MemoryStruct

variable {s t : Multiset Cell}

/-- A place of a page: its frame, with the line that was put there. -/
def Page.cell (page : Page) (j : Nat) : Cell :=
  (page.index j, ⟨pidString page.owner, page.text j⟩)

/-- The frames of a page. -/
def Page.cells (page : Page) : Multiset Cell :=
  (((List.range 3).map page.cell).filter fun c => c.1 ≠ -1 : List _)

def cellsOf (pages : List Page) : Multiset Cell := (pages.map Page.cells).sum

@[simp] theorem cellsOf_nil : cellsOf [] = 0 := rfl

@[simp] theorem cellsOf_cons (page : Page) (pages : List Page) :
    cellsOf (page :: pages) = page.cells + cellsOf pages := rfl

@[simp] theorem cellsOf_append (pages more : List Page) :
    cellsOf (pages ++ more) = cellsOf pages + cellsOf more := by
  rw [cellsOf, List.map_append, List.sum_append]
  rfl

/-- Frames of the store, each once, with these contents. -/
structure Held (w : World) (mem : Memory) (s : Multiset Cell) : Prop where
  stored : ∀ c ∈ s, 0 ≤ c.1 ∧ c.1 < w.FRAME_STORE_SIZE ∧ c.2.var ≠ noneText ∧ mem c.1 = c.2
  distinct : (s.map Prod.fst).Nodup

theorem Held.mono (h : Held w mem t) (hle : s ≤ t) : Held w mem s :=
  ⟨fun c hc => h.stored c (Multiset.mem_of_le hle hc),
    Multiset.nodup_of_le (Multiset.map_le_map hle) h.distinct⟩

theorem Held.store (h : Held w mem s) {i pid : Nat} {text : CString}
    (hi : i < w.FRAME_STORE_SIZE) (hvar : (mem i).var = noneText) :
    Held w (storeLine mem i pid text) (((i : Int), ⟨pidString pid, text⟩) ::ₘ s) := by
  have hne : ∀ c ∈ s, c.1 ≠ i := by
    intro c hc heq
    obtain ⟨-, -, hkept, hmem⟩ := h.stored c hc
    rw [heq] at hmem
    exact hkept (hmem ▸ hvar)
  refine ⟨fun c hc => ?_, ?_⟩
  · rcases Multiset.mem_cons.1 hc with rfl | hc
    · exact ⟨by simp, by simpa using hi, pidString_ne pid, Function.update_self ..⟩
    · obtain ⟨hge, hlt, hkept, hmem⟩ := h.stored c hc
      exact ⟨hge, hlt, hkept, by rw [storeLine, Function.update_of_ne (hne c hc), hmem]⟩
  · rw [Multiset.map_cons, Multiset.nodup_cons]
    refine ⟨fun hmem => ?_, h.distinct⟩
    obtain ⟨c, hc, heq⟩ := Multiset.mem_map.1 hmem
    exact hne c hc heq

theorem Held.free {c : Cell} (h : Held w mem (c ::ₘ s)) : Held w (memFreeLine mem c.1) s := by
  have hdistinct := h.distinct
  rw [Multiset.map_cons, Multiset.nodup_cons] at hdistinct
  refine ⟨fun d hd => ?_, hdistinct.2⟩
  obtain ⟨hge, hlt, hkept, hmem⟩ := h.stored d (Multiset.mem_cons_of_mem hd)
  have hne : d.1 ≠ c.1 := fun heq => hdistinct.1 (heq ▸ Multiset.mem_map_of_mem _ hd)
  exact ⟨hge, hlt, hkept, by rw [memFreeLine, Function.update_of_ne hne, hmem]⟩

/-! ## Free frames -/

def freeSlots (w : World) (mem : Memory) : Finset Nat :=
  (Finset.range w.FRAME_STORE_SIZE).filter fun (i : Nat) => (mem i).var = noneText

theorem mem_freeSlots {i : Nat} :
    i ∈ freeSlots w mem ↔ i < w.FRAME_STORE_SIZE ∧ (mem i).var = noneText := by
  rw [freeSlots, Finset.mem_filter, Finset.mem_range]

theorem freeFrame_none : freeFrame w mem = none ↔ freeSlots w mem = ∅ := by
  simp [freeFrame, freeSlots, Finset.filter_eq_empty_iff]

theorem freeSlots_store {i pid : Nat} {text : CString} :
    freeSlots w (storeLine mem i pid text) = (freeSlots w mem).erase i := by
  ext j
  rw [mem_freeSlots, Finset.mem_erase, mem_freeSlots, storeLine]
  by_cases hj : j = i
  · simp [hj, pidString_ne]
  · rw [Function.update_of_ne (by exact_mod_cast hj)]
    simp [hj]

theorem freeSlots_free {i : Nat} (hi : i < w.FRAME_STORE_SIZE) :
    freeSlots w (memFreeLine mem i) = insert i (freeSlots w mem) := by
  ext j
  rw [mem_freeSlots, Finset.mem_insert, mem_freeSlots, memFreeLine]
  by_cases hj : j = i
  · simp [hj, hi]
  · rw [Function.update_of_ne (by exact_mod_cast hj)]
    simp [hj]

/-! ## One allocation -/

/-- The page at the head of the queue has three frames of the store, and its own
lines are in them. -/
def Good (w : World) (snap : Snapshot) : Prop :=
  ∃ page rest, snap.lruQueue = page :: rest ∧ ∀ j < 3, 0 ≤ page.index j ∧
    page.index j < w.FRAME_STORE_SIZE ∧
    snap.shellmemory (page.index j) = ⟨pidString page.owner, page.text j⟩

theorem Page.Whole.cells {page : Page} (h : page.Whole) :
    page.cells = page.cell 0 ::ₘ page.cell 1 ::ₘ page.cell 2 ::ₘ 0 := by
  have hlist : ((List.range 3).map page.cell).filter (fun c => decide (c.1 ≠ -1)) =
      [page.cell 0, page.cell 1, page.cell 2] := by
    have h0 := h 0 (by decide)
    have h1 := h 1 (by decide)
    have h2 := h 2 (by decide)
    simp [List.range_succ, Page.cell, h0, h1, h2]
  rw [Page.cells, hlist]
  rfl

theorem Page.mem_cells {page : Page} {j : Nat} (hj : j < 3) (hne : page.index j ≠ -1) :
    page.cell j ∈ page.cells := by
  rw [Page.cells, Multiset.mem_coe, List.mem_filter]
  exact ⟨List.mem_map.2 ⟨j, List.mem_range.2 hj, rfl⟩, decide_eq_true hne⟩

/-- The head of the queue is good exactly when it is there and whole. -/
theorem Held.good_iff (h : Held w k.shellmemory (cellsOf k.lruQueue + s)) :
    Good w (snapshot k) ↔ ∃ page rest, k.lruQueue = page :: rest ∧ page.Whole := by
  constructor
  · rintro ⟨page, rest, hqueue, hgood⟩
    refine ⟨page, rest, hqueue, fun j hj heq => ?_⟩
    have hge := (hgood j hj).1
    omega
  · rintro ⟨page, rest, hqueue, hwhole⟩
    refine ⟨page, rest, hqueue, fun j hj => ?_⟩
    obtain ⟨hge, hlt, -, hmem⟩ := h.stored (page.cell j) (Multiset.mem_add.2 (.inl (by
      rw [hqueue, cellsOf_cons]
      exact Multiset.mem_add.2 (.inl (Page.mem_cells hj (hwhole j hj))))))
    exact ⟨hge, hlt, hmem⟩

/-- What an allocation leaves when it goes well: `n` frames are free then, and
`queue` is what is left of the page queue. -/
structure GotFrame (w : World) (pid : Nat) (text : CString) (s : Multiset Cell)
    (queue : List Page) (n : Nat) (r : Int × Kernel) : Prop where
  held : Held w r.2.shellmemory ((r.1, ⟨pidString pid, text⟩) ::ₘ (cellsOf r.2.lruQueue + s))
  queue : r.2.lruQueue = queue
  free : (freeSlots w r.2.shellmemory).card = n
  stopped : r.2.stopped = decide (10 ≤ pid)

theorem allocateFrame_some (text : CString) {b i : Nat} (hrun : k.stopped = false)
    (h : Held w k.shellmemory (cellsOf k.lruQueue + s))
    (hfree : freeFrame w k.shellmemory = some i) :
    GotFrame w b text s k.lruQueue ((freeSlots w k.shellmemory).card - 1)
        (allocateFrame w text b k) := by
  obtain ⟨hlt, hvar⟩ := freeFrame_spec hfree
  unfold allocateFrame
  rw [hrun, if_neg Bool.false_ne_true, hfree]
  refine ⟨h.store hlt hvar, rfl, ?_, rfl⟩
  show (freeSlots w (storeLine k.shellmemory i b text)).card = _
  rw [freeSlots_store, Finset.card_erase_of_mem (mem_freeSlots.2 ⟨hlt, hvar⟩)]

/-- Taking the page off leaves its three frames free. -/
theorem Held.freePage {page : Page} (h : Held w mem (page.cells + s)) (hwhole : page.Whole)
    (hfull : freeSlots w mem = ∅) :
    ∃ mem', mem' = (List.range 3).foldl (fun m i => memFreeLine m (page.index i)) mem ∧
      Held w mem' s ∧ ∃ i : Nat, page.index 0 = i ∧ i ∈ freeSlots w mem' ∧
        (freeSlots w mem').card = 3 := by
  refine ⟨_, rfl, ?_⟩
  rw [hwhole.cells] at h
  simp only [Multiset.cons_add, Multiset.zero_add] at h
  have hdistinct := h.distinct
  have hrange : ∀ j < 3, ∃ i : Nat, page.index j = i ∧ i < w.FRAME_STORE_SIZE := by
    intro j hj
    have hmem : page.cell j ∈ page.cell 0 ::ₘ page.cell 1 ::ₘ page.cell 2 ::ₘ s := by
      obtain rfl | rfl | rfl : j = 0 ∨ j = 1 ∨ j = 2 := by omega
      · simp
      · simp
      · simp
    obtain ⟨hge, hlt, -⟩ := h.stored _ hmem
    obtain ⟨i, hi⟩ := Int.eq_ofNat_of_zero_le hge
    change page.index j = i at hi
    change page.index j < _ at hlt
    exact ⟨i, hi, by omega⟩
  obtain ⟨i0, h0, hlt0⟩ := hrange 0 (by decide)
  obtain ⟨i1, h1, hlt1⟩ := hrange 1 (by decide)
  obtain ⟨i2, h2, hlt2⟩ := hrange 2 (by decide)
  have hmem : (List.range 3).foldl (fun m i => memFreeLine m (page.index i)) mem =
      memFreeLine (memFreeLine (memFreeLine mem i0) i1) i2 := by
    simp [List.range_succ, h0, h1, h2]
  simp only [Page.cell, h0, h1, h2] at h hdistinct
  have hslots : freeSlots w (memFreeLine (memFreeLine (memFreeLine mem i0) i1) i2) =
      {i2, i1, i0} := by
    rw [freeSlots_free hlt2, freeSlots_free hlt1, freeSlots_free hlt0, hfull]
    rfl
  simp only [Multiset.map_cons, Multiset.nodup_cons, Multiset.mem_cons, not_or] at hdistinct
  rw [hmem, hslots]
  refine ⟨h.free.free.free, i0, h0, by simp, ?_⟩
  have h01 : i0 ≠ i1 := fun heq => hdistinct.1.1 (by rw [heq])
  have h02 : i0 ≠ i2 := fun heq => hdistinct.1.2.1 (by rw [heq])
  have h12 : i1 ≠ i2 := fun heq => hdistinct.2.1.1 (by rw [heq])
  rw [Finset.card_insert_of_notMem (by simp [Ne.symm h12, Ne.symm h02]),
    Finset.card_insert_of_notMem (by simp [Ne.symm h01]), Finset.card_singleton]

theorem allocateFrame_none (text : CString) {b : Nat} {page : Page} {rest : List Page}
    (hrun : k.stopped = false) (h : Held w k.shellmemory (cellsOf k.lruQueue + s))
    (hfree : freeFrame w k.shellmemory = none) (hqueue : k.lruQueue = page :: rest)
    (hwhole : page.Whole) : GotFrame w b text s rest 2 (allocateFrame w text b k) := by
  rw [hqueue, cellsOf_cons, add_assoc] at h
  obtain ⟨mem', hmem', hheld, i, hi, hslot, hcard⟩ := h.freePage hwhole (freeFrame_none.1 hfree)
  have hstored := mem_freeSlots.1 hslot
  unfold allocateFrame
  rw [hrun, if_neg Bool.false_ne_true, hfree]
  simp only [hqueue, if_pos hwhole, ← hmem', hi]
  refine ⟨hheld.store hstored.1 hstored.2, rfl, ?_, rfl⟩
  show (freeSlots w (storeLine mem' i b text)).card = 2
  rw [freeSlots_store, Finset.card_erase_of_mem hslot, hcard]

/-- Without a free frame and a whole page the program goes no further. -/
theorem allocateFrame_stops {text : CString} {b : Nat} (hrun : k.stopped = false)
    (hfree : freeFrame w k.shellmemory = none)
    (hnone : ¬ ∃ page rest, k.lruQueue = page :: rest ∧ page.Whole) :
    (allocateFrame w text b k).2.stopped = true := by
  unfold allocateFrame
  rw [hrun, if_neg Bool.false_ne_true, hfree]
  cases hqueue : k.lruQueue with
  | nil => simp
  | cons page rest =>
      have hwhole : ¬ page.Whole := fun hwhole => hnone ⟨page, rest, hqueue, hwhole⟩
      simp [hwhole]

theorem allocateFrame_trace (text : CString) (pid : Nat) (k : Kernel) :
    (allocateFrame w text pid k).2.trace = { k.trace with
      full := k.trace.full ++
        if k.stopped = false ∧ freeFrame w k.shellmemory = none then [snapshot k] else [] } := by
  unfold allocateFrame
  cases hrun : k.stopped with
  | true => simp
  | false =>
      cases freeFrame w k.shellmemory with
      | some i => simp [frameReturn]
      | none =>
          cases k.lruQueue with
          | nil => rfl
          | cons victim rest =>
              simp only [Bool.false_eq_true, if_false, true_and, if_true]
              split <;> rfl

/-! ## One load -/

/-- How many pages a load takes off the queue. -/
def evictions (w : World) (snap : Snapshot) (need : Nat) : Nat :=
  (need - (freeSlots w snap.shellmemory).card + 2) / 3

/-- The queue has the pages a load takes off it, and they are whole. -/
def CanEvict (w : World) (snap : Snapshot) (need : Nat) : Prop :=
  evictions w snap need ≤ snap.lruQueue.length ∧
    ∀ page ∈ snap.lruQueue.take (evictions w snap need), page.Whole

instance (w : World) (snap : Snapshot) (need : Nat) : Decidable (CanEvict w snap need) := by
  unfold CanEvict
  infer_instance

theorem canEvict_zero (snap : Snapshot) : CanEvict w snap 0 := by
  have hzero : evictions w snap 0 = 0 := by
    unfold evictions
    omega
  refine ⟨by omega, fun page hmem => ?_⟩
  rw [hzero] at hmem
  cases hmem

/-- With a frame free, the rest of the load decides. -/
theorem canEvict_some {mem' : Memory} {queue : List Page} {n : Nat}
    (hpos : freeSlots w mem ≠ ∅)
    (hcard : (freeSlots w mem').card = (freeSlots w mem).card - 1) :
    CanEvict w ⟨mem, queue⟩ (n + 1) ↔ CanEvict w ⟨mem', queue⟩ n := by
  have hcount := Finset.card_pos.2 (Finset.nonempty_iff_ne_empty.2 hpos)
  have hsame : evictions w ⟨mem, queue⟩ (n + 1) = evictions w ⟨mem', queue⟩ n := by
    unfold evictions
    dsimp only
    omega
  rw [CanEvict, CanEvict, hsame]

/-- With none free, the head of the queue and the rest of the load decide. -/
theorem canEvict_none {mem' : Memory} {page : Page} {rest : List Page} {n : Nat}
    (hempty : freeSlots w mem = ∅) (hcard : (freeSlots w mem').card = 2) :
    CanEvict w ⟨mem, page :: rest⟩ (n + 1) ↔ page.Whole ∧ CanEvict w ⟨mem', rest⟩ n := by
  have hnext : evictions w ⟨mem, page :: rest⟩ (n + 1) = evictions w ⟨mem', rest⟩ n + 1 := by
    unfold evictions
    dsimp only
    rw [hempty, hcard, Finset.card_empty]
    omega
  rw [CanEvict, CanEvict, hnext, List.length_cons, List.take_succ_cons, List.forall_mem_cons,
    Nat.succ_le_succ_iff]
  tauto

theorem canEvict_nil {n : Nat} (hempty : freeSlots w mem = ∅) :
    ¬ CanEvict w ⟨mem, []⟩ (n + 1) := by
  intro h
  have hle := h.1
  unfold evictions at hle
  rw [hempty, Finset.card_empty, List.length_nil] at hle
  omega

/-- All that `allocate_frame` found without a free frame was good. -/
def AllGood (w : World) (k : Kernel) : Prop := ∀ snap ∈ k.trace.full, Good w snap

/-- The frames with the texts put there for a process. -/
def given (pid : Nat) (frames : List Int) (texts : List CString) : Multiset Cell :=
  (frames.zip (texts.map (MemoryStruct.mk (pidString pid))) : List _)

theorem given_cons (pid : Nat) (frame : Int) (frames : List Int) (text : CString)
    (texts : List CString) : given pid (frame :: frames) (text :: texts) =
      (frame, ⟨pidString pid, text⟩) ::ₘ given pid frames texts := rfl

theorem given_append {pid : Nat} {frames more : List Int} {texts rest : List CString}
    (h : frames.length = texts.length) :
    given pid (frames ++ more) (texts ++ rest) = given pid frames texts + given pid more rest := by
  rw [given, List.map_append, List.zip_append (by simpa using h), ← Multiset.coe_add]
  rfl

theorem allocateFrames_loads (pid : Nat) (texts : List CString) (k : Kernel) :
    (allocateFrames w pid texts k).2.trace.loads = k.trace.loads := by
  induction texts generalizing k with
  | nil => rfl
  | cons text texts ih =>
      rw [allocateFrames]
      refine (ih _).trans ?_
      rw [allocateFrame_trace]

theorem allocateFrames_stopped {pid : Nat} (texts : List CString) (hstop : k.stopped = true) :
    (allocateFrames w pid texts k).2 = k := by
  induction texts with
  | nil => rfl
  | cons text texts ih =>
      have hone : allocateFrame w text pid k = (0, k) := by
        rw [allocateFrame, if_pos hstop]
      rw [allocateFrames, hone]
      exact ih

theorem AllGood.before {pid : Nat} {texts : List CString}
    (h : AllGood w (allocateFrames w pid texts k).2) : AllGood w k := by
  induction texts generalizing k with
  | nil => exact h
  | cons text texts ih =>
      intro snap hmem
      refine ih h snap ?_
      rw [allocateFrame_trace]
      exact List.mem_append_left _ hmem

/-- One allocation: all goes well exactly when there is one to evict, if one has
to be. -/
structure OneGood (w : World) (b : Nat) (text : CString) (s : Multiset Cell) (k : Kernel)
    (n : Nat) : Prop where
  good : AllGood w k → (CanEvict w (snapshot k) 1 ↔ AllGood w (allocateFrame w text b k).2)
  got : CanEvict w (snapshot k) 1 → ∃ queue m, GotFrame w b text s queue m
    (allocateFrame w text b k) ∧ (CanEvict w (snapshot k) (n + 1) ↔
      CanEvict w ⟨(allocateFrame w text b k).2.shellmemory, queue⟩ n)
  stops : ¬ CanEvict w (snapshot k) 1 → (allocateFrame w text b k).2.stopped = true

theorem CanEvict.one {snap : Snapshot} {n : Nat} (h : CanEvict w snap (n + 1)) :
    CanEvict w snap 1 := by
  have hle : evictions w snap 1 ≤ evictions w snap (n + 1) := by
    unfold evictions
    omega
  exact ⟨hle.trans h.1, fun page hmem => h.2 page (List.take_subset_take_left _ hle hmem)⟩

theorem allocateFrame_good {b n : Nat} (text : CString) (hrun : k.stopped = false)
    (h : Held w k.shellmemory (cellsOf k.lruQueue + s)) : OneGood w b text s k n := by
  have htrace := allocateFrame_trace (w := w) text b k
  cases hfree : freeFrame w k.shellmemory with
  | some i =>
      have hgot := allocateFrame_some text (b := b) hrun h hfree
      have hpos : freeSlots w k.shellmemory ≠ ∅ := fun hempty => by
        rw [freeFrame_none.2 hempty] at hfree
        cases hfree
      have hone : CanEvict w (snapshot k) 1 := by
        rw [snapshot, canEvict_some hpos hgot.free]
        exact canEvict_zero _
      have hgood' : AllGood w k → AllGood w (allocateFrame w text b k).2 := by
        intro hgood
        rw [hfree, if_neg (by simp), List.append_nil] at htrace
        rw [AllGood, htrace]
        exact hgood
      exact ⟨fun hgood => iff_of_true hone (hgood' hgood), fun _ => ⟨_, _, hgot, canEvict_some hpos hgot.free⟩,
        fun hnot => absurd hone hnot⟩
  | none =>
      have hempty := freeFrame_none.1 hfree
      rw [hfree, if_pos ⟨hrun, rfl⟩] at htrace
      have hsnap : AllGood w k →
          (AllGood w (allocateFrame w text b k).2 ↔ Good w (snapshot k)) := by
        intro hgood
        rw [AllGood, htrace]
        refine ⟨fun hall => hall _ (by simp), fun hnow snap hmem => ?_⟩
        rcases List.mem_append.1 hmem with hmem | hmem
        · exact hgood snap hmem
        · rw [List.mem_singleton.1 hmem]
          exact hnow
      have hwhole : CanEvict w (snapshot k) 1 ↔
          ∃ page rest, k.lruQueue = page :: rest ∧ page.Whole := by
        rw [snapshot]
        cases hqueue : k.lruQueue with
        | nil => simp [canEvict_nil hempty]
        | cons page rest =>
            have hcard : evictions w ⟨k.shellmemory, page :: rest⟩ 1 = 1 := by
              unfold evictions
              dsimp only
              rw [hempty, Finset.card_empty]
            simp [CanEvict, hcard]
      refine ⟨fun hgood => by rw [hsnap hgood, hwhole, h.good_iff], fun hcan => ?_, fun hnot =>
        allocateFrame_stops hrun hfree (hwhole.not.1 hnot)⟩
      obtain ⟨page, rest, hqueue, hpage⟩ := hwhole.1 hcan
      have hgot := allocateFrame_none text (b := b) hrun h hfree hqueue hpage
      refine ⟨_, _, hgot, ?_⟩
      rw [snapshot, hqueue, canEvict_none hempty hgot.free, and_iff_right hpage]

/-- A row of allocations for a process with an id of one digit. -/
structure RowGood (w : World) (b : Nat) (texts : List CString) (s : Multiset Cell) (k : Kernel)
    (r : List Int × Kernel) : Prop where
  good : AllGood w k → (CanEvict w (snapshot k) texts.length ↔ AllGood w r.2)
  stopped : CanEvict w (snapshot k) texts.length ↔ r.2.stopped = false
  held : CanEvict w (snapshot k) texts.length →
    Held w r.2.shellmemory (given b r.1 texts + (cellsOf r.2.lruQueue + s))

/-- It goes well exactly when there is enough to evict. -/
theorem allocateFrames_good {b : Nat} {t : List CString} (hb : b < 10) (hrun : k.stopped = false)
    (h : Held w k.shellmemory (cellsOf k.lruQueue + s)) :
    RowGood w b t s k (allocateFrames w b t k) := by
  induction t generalizing k s with
  | nil =>
      refine ⟨fun hgood => iff_of_true (canEvict_zero _) hgood, iff_of_true (canEvict_zero _) hrun, fun _ => ?_⟩
      simpa [allocateFrames, given] using h
  | cons text t ih =>
      obtain ⟨hone, hgets, hstops⟩ :=
        allocateFrame_good (b := b) (n := t.length) text hrun h
      rw [allocateFrames]
      generalize allocateFrame w text b k = r at hone hgets hstops ⊢
      by_cases hcan : CanEvict w (snapshot k) 1
      · obtain ⟨queue, m, hgot, hnext⟩ := hgets hcan
        have hheld : Held w r.2.shellmemory
            (cellsOf r.2.lruQueue + ((r.1, ⟨pidString b, text⟩) ::ₘ s)) := by
          rw [Multiset.add_cons]
          exact hgot.held
        have hgo : r.2.stopped = false := by
          rw [hgot.stopped]
          simpa using hb
        have hrest := ih hgo hheld
        rw [← hgot.queue] at hnext
        refine ⟨fun hgood => hnext.trans (hrest.good ((hone hgood).1 hcan)),
          hnext.trans hrest.stopped, fun hall => ?_⟩
        have hdone := hrest.held (hnext.1 hall)
        rw [Multiset.add_cons, Multiset.add_cons, ← Multiset.cons_add, ← given_cons] at hdone
        exact hdone
      · have hnot : ¬ CanEvict w (snapshot k) (text :: t).length := fun hall => hcan hall.one
        have hstop := hstops hcan
        have hbad : AllGood w k → ¬ AllGood w r.2 := fun hgood hall => hcan ((hone hgood).2 hall)
        rw [allocateFrames_stopped t hstop]
        exact ⟨fun hgood => iff_of_false hnot (hbad hgood), iff_of_false hnot (by simp [hstop]),
          fun hall => absurd hall hnot⟩

/-- With an id of two digits the first allocation is the last. -/
theorem allocateFrames_two_digits {b : Nat} {t : List CString} (hb : 10 ≤ b) (ht : t ≠ [])
    (hrun : k.stopped = false) (h : Held w k.shellmemory (cellsOf k.lruQueue + s)) :
    (AllGood w k → (CanEvict w (snapshot k) 1 ↔ AllGood w (allocateFrames w b t k).2)) ∧
      (allocateFrames w b t k).2.stopped = true := by
  obtain ⟨text, t, rfl⟩ := List.exists_cons_of_ne_nil ht
  have hone := allocateFrame_good (b := b) (n := 0) text hrun h
  have hstop : (allocateFrame w text b k).2.stopped = true := by
    by_cases hcan : CanEvict w (snapshot k) 1
    · obtain ⟨queue, m, hgot, -⟩ := hone.got hcan
      rw [hgot.stopped]
      simpa using hb
    · exact hone.stops hcan
  rw [allocateFrames, allocateFrames_stopped t hstop]
  exact ⟨hone.good, hstop⟩

/-! ## The kernel -/

/-- Every load so far had enough to evict. -/
def AllCan (w : World) (k : Kernel) : Prop := ∀ load ∈ k.trace.loads, CanEvict w load.1 load.2

/-- What is known of the trace and, while the program runs, of the frames of the
queue and of further pages. -/
structure Verdict (w : World) (s : Multiset Cell) (k : Kernel) : Prop where
  agree : AllCan w k ↔ AllGood w k
  can : k.stopped = false → AllCan w k
  held : k.stopped = false → Held w k.shellmemory (cellsOf k.lruQueue + s)

theorem Verdict.mono (h : Verdict w t k) (hle : s ≤ t) : Verdict w s k :=
  ⟨h.agree, h.can, fun hrun => (h.held hrun).mono (add_le_add_right hle _)⟩

theorem Verdict.of_eq (h : Verdict w s k) (hmem : k'.shellmemory = k.shellmemory)
    (hqueue : k'.lruQueue = k.lruQueue) (hstop : k'.stopped = k.stopped)
    (hfull : k'.trace.full = k.trace.full) (hloads : k'.trace.loads = k.trace.loads) :
    Verdict w s k' := by
  refine ⟨?_, ?_, ?_⟩
  · rw [AllCan, AllGood, hfull, hloads]
    exact h.agree
  · rw [AllCan, hstop, hloads]
    exact h.can
  · rw [hmem, hqueue, hstop]
    exact h.held

/-- Nothing is known of the frames of a program that has come to grief. -/
theorem Verdict.stop (h : Verdict w s k) (hstop : k'.stopped = true)
    (hfull : k'.trace.full = k.trace.full) (hloads : k'.trace.loads = k.trace.loads) :
    Verdict w t k' := by
  refine ⟨?_, fun hrun => ?_, fun hrun => ?_⟩
  · rw [AllCan, AllGood, hfull, hloads]
    exact h.agree
  · rw [hstop] at hrun
    cases hrun
  · rw [hstop] at hrun
    cases hrun

/-- The frames for so many pages are there: free ones or those of whole pages at
the head of the queue, and the process has an id of one digit. -/
def CanLoad (w : World) (pid pages : Nat) (k : Kernel) : Prop :=
  pid < 10 ∧ CanEvict w (snapshot k) (3 * pages)

/-- A load keeps the verdict, or changes it on both sides; it comes to its end
exactly when the frames are there. -/
theorem Verdict.load (h : Verdict w s k) (b pages : Nat) (texts : List CString)
    (hrun : k.stopped = false) (hpos : 0 < pages) (hlen : texts.length = 3 * pages) :
    Verdict w (given b (allocateFrames w b texts (noteLoad b pages k)).1 texts + s)
        (allocateFrames w b texts (noteLoad b pages k)).2 ∧
      ((allocateFrames w b texts (noteLoad b pages k)).2.stopped = false ↔
        CanLoad w b pages k) := by
  obtain ⟨k0, hk0⟩ : ∃ k0, k0 = noteLoad b pages k := ⟨_, rfl⟩
  have hrun0 : k0.stopped = false := by
    rw [hk0]
    exact hrun
  have hheld : Held w k0.shellmemory (cellsOf k0.lruQueue + s) := by
    rw [hk0]
    exact h.held hrun
  have hall := h.can hrun
  have hgood : AllGood w k0 := by
    rw [hk0]
    exact h.agree.1 hall
  have hsnap : snapshot k0 = snapshot k := by
    rw [hk0]
    rfl
  have hloads := allocateFrames_loads (w := w) b texts k0
  have hcan : AllCan w (allocateFrames w b texts k0).2 ↔
      CanEvict w (snapshot k) (framesAsked b pages) := by
    rw [AllCan, hloads, hk0]
    show (∀ load ∈ k.trace.loads ++ [(snapshot k, framesAsked b pages)],
      CanEvict w load.1 load.2) ↔ _
    rw [List.forall_mem_append, List.forall_mem_singleton]
    exact and_iff_right hall
  rw [← hk0, CanLoad]
  by_cases hb : b < 10
  · obtain ⟨hgood', hstop, hdone⟩ := allocateFrames_good (t := texts) hb hrun0 hheld
    rw [hsnap, hlen] at hgood' hstop hdone
    rw [framesAsked, if_pos hb] at hcan
    refine ⟨⟨hcan.trans (hgood' hgood), fun hgo => hcan.2 (hstop.2 hgo), fun hgo => ?_⟩, ?_⟩
    · rw [add_left_comm]
      exact hdone (hstop.2 hgo)
    · rw [and_iff_right hb, hstop]
  · have hne : texts ≠ [] := List.ne_nil_of_length_pos (by omega)
    obtain ⟨hgood', hstop⟩ := allocateFrames_two_digits (Nat.le_of_not_lt hb) hne hrun0 hheld
    rw [hsnap] at hgood'
    rw [framesAsked, if_neg hb] at hcan
    have hnot : ¬ (allocateFrames w b texts k0).2.stopped = false := by simp [hstop]
    exact ⟨⟨hcan.trans (hgood' hgood), fun hgo => absurd hgo hnot, fun hgo => absurd hgo hnot⟩,
      iff_of_false hnot fun hc => hb hc.1⟩

end SimpleShell.A2
