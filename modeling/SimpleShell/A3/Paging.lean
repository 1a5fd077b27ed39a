import SimpleShell.A3.Script
import SimpleShell.Lib.MoveToFront
import Mathlib.Algebra.Order.BigOperators.Group.List
import Mathlib.Algebra.Order.Ring.Nat
import Mathlib.Data.List.Perm.Subperm

/-!
# Processes and their pages

What holds of the frames, the page tables and the list of used pages while several processes
take turns: each page in memory has three frames of its own, with the lines of its script, and
is in the list once; a page that was loaded and is not in memory any more has no line left to
run. `Progress` says how far a process is.
-/

namespace SimpleShell.A3

open SimpleShell.Shell SimpleShell.Lib
open SimpleShell.A2 (pidString textLines pidString_ne)

/-! ## Progress -/

/-- The lines that the script delivers, how many of them are counted and how many are done, and
how many pages were loaded. -/
structure Progress where
  lines : List CString
  size : Nat
  done : Nat
  loaded : Nat

namespace Progress

def pages (g : Progress) : Nat := pageTableSize g.size

/-- Every line of page `i` was run. -/
def Complete (g : Progress) (i : Nat) : Prop := min (3 * (i + 1)) g.size ≤ g.done

structure Ok (g : Progress) : Prop where
  counted : g.size ≤ g.lines.length
  le : g.done ≤ g.size
  reach : g.done ≤ 3 * g.loaded
  bound : g.loaded ≤ g.pages
  near : g.loaded ≤ 2 ∨ 3 * g.loaded ≤ g.done + 3

def next (g : Progress) : Progress := { g with done := g.done + 1 }

def load (g : Progress) : Progress := { g with loaded := g.loaded + 1 }

end Progress

/-! ## Pages in memory -/

variable {σ : Type}

/-- Page `i` of process `pid` is in the frames from `3 * m` on. -/
structure InFrames (k : Kernel σ) (pid i : Nat) (lines : List CString) (m : Nat) : Prop where
  index : ∀ j, (k.page (pid, i)).index j = 3 * m + j
  valid : ∀ j, j < 3 → (k.page (pid, i)).validBit j = decide (3 * i + j < lines.length)
  var : ∀ j, j < 3 → (k.shellmemory (3 * m + j)).var = pidString pid
  value : ∀ j, j < 3 → 3 * i + j < lines.length →
    (k.shellmemory (3 * m + j)).value = lines.getD (3 * i + j) []

/-- The PCB of a process that is so far. -/
structure Process (k : Kernel σ) (pid : Nat) (g : Progress) : Prop where
  size : (k.pcbs pid).size = (g.size : Int) - g.done
  counter : ∀ i, (k.pcbs pid).programCounter i = min 3 (g.done - 3 * i)
  pages : (k.pcbs pid).pageTableSize = g.pages
  file : delivered (k.pcbs pid).sourceFile = g.lines.drop (3 * g.loaded)
  page : ∀ i, (k.page (pid, i)).pagePid = pid ∧ (k.page (pid, i)).pageIndex = i

/-- The pages that were loaded so far. -/
def pagesLoaded (g : Nat → Progress) (procs : List Nat) : Nat :=
  (procs.map fun pid => (g pid).loaded).sum

structure Paged (c : Sizes) (procs : List Nat) (g : Nat → Progress) (k : Kernel σ) : Prop where
  process : ∀ pid ∈ procs, Process k pid (g pid)
  ok : ∀ pid ∈ procs, (g pid).Ok
  nodup : k.lruCache.Nodup
  known : ∀ pid i, (pid, i) ∈ k.lruCache → pid ∈ procs ∧ i < (g pid).loaded
  frames : ∀ pid i, (pid, i) ∈ k.lruCache →
    ∃ m, 3 * m + 3 ≤ c.FRAME_STORE_SIZE ∧ InFrames k pid i (g pid).lines m
  apart : ∀ p ∈ k.lruCache, ∀ q ∈ k.lruCache, (k.page p).index 0 = (k.page q).index 0 → p = q
  used : ∀ x, x < c.FRAME_STORE_SIZE → (k.shellmemory x).var ≠ noneText →
    ∃ p ∈ k.lruCache, (k.page p).index 0 ≤ x ∧ x < (k.page p).index 0 + 3
  absent : ∀ pid ∈ procs, ∀ i, (pid, i) ∉ k.lruCache → ∀ j, (k.page (pid, i)).validBit j = false
  gone : ∀ pid ∈ procs, ∀ i, i < (g pid).loaded → (pid, i) ∉ k.lruCache → (g pid).Complete i
  zero : ∀ pid ∈ procs, ∀ i, i < (g pid).loaded → (pid, i) ∉ k.lruCache →
    ∀ j, (k.page (pid, i)).index j = 0
  low : ∀ p ∈ k.lruCache, (k.page p).index 0 < 3 * pagesLoaded g procs
  stopped : k.stopped = false

section Paged

variable {c : Sizes} {procs : List Nat} {g : Nat → Progress} {k k' : Kernel σ} {pid i m : Nat}
  {pidText : CString}

/-- The lists of processes do not matter to the pages. -/
theorem Paged.setLists (h : Paged c procs g k) (queue allPcb : List Nat) :
    Paged c procs g { k with queue := queue, allPcb := allPcb } :=
  ⟨fun pid hpid => ⟨(h.process pid hpid).size, (h.process pid hpid).counter,
    (h.process pid hpid).pages, (h.process pid hpid).file, (h.process pid hpid).page⟩, h.ok,
    h.nodup, h.known, fun pid i hi =>
      let ⟨m, hm, hin⟩ := h.frames pid i hi
      ⟨m, hm, hin.index, hin.valid, hin.var, hin.value⟩,
    h.apart, h.used, h.absent, h.gone, h.zero, h.low, h.stopped⟩

theorem Paged.setQueue (h : Paged c procs g k) (queue : List Nat) :
    Paged c procs g { k with queue := queue } := h.setLists queue k.allPcb

/-! ## Counting pages -/

theorem sum_update {f : Progress → Nat} {p' : Progress} (hle : f (g pid) ≤ f p')
    (hpid : pid ∈ procs) :
    (procs.map fun q => f (g q)).sum + f p' ≤
      (procs.map fun q => f (Function.update g pid p' q)).sum + f (g pid) := by
  have hsame : ∀ q, f (g q) ≤ f (Function.update g pid p' q) := by
    intro q
    by_cases hq : q = pid
    · rw [hq, Function.update_self]
      exact hle
    · rw [Function.update_of_ne hq]
  induction procs with
  | nil => cases hpid
  | cons q procs ih =>
      simp only [List.map_cons, List.sum_cons]
      rcases List.mem_cons.1 hpid with rfl | hin
      · have hrest := List.sum_le_sum fun q (_ : q ∈ procs) => hsame q
        rw [Function.update_self]
        omega
      · have hq := hsame q
        have hrest := ih hin
        omega

theorem pagesLoaded_load (hpid : pid ∈ procs) :
    pagesLoaded g procs + 1 ≤ pagesLoaded (Function.update g pid (g pid).load) procs := by
  have hsum := @sum_update procs g pid Progress.loaded (g pid).load (Nat.le_succ _) hpid
  have hload : (g pid).load.loaded = (g pid).loaded + 1 := rfl
  unfold pagesLoaded
  omega

/-- A list of loaded pages without repetition is no longer than their number. -/
theorem Paged.length_le (h : Paged c procs g k) : k.lruCache.length ≤ pagesLoaded g procs := by
  have hsub : k.lruCache ⊆ procs.flatMap fun pid =>
      (List.range (g pid).loaded).map fun i => (pid, i) := by
    rintro ⟨pid, i⟩ hp
    obtain ⟨hpid, hlt⟩ := h.known pid i hp
    rw [List.mem_flatMap]
    exact ⟨pid, hpid, List.mem_map.2 ⟨i, List.mem_range.2 hlt, rfl⟩⟩
  have hlen := (List.subperm_of_subset h.nodup hsub).length_le
  simpa [List.length_flatMap, pagesLoaded] using hlen

/-- The pages in memory are those with a line in it. -/
theorem Paged.resident_iff (h : Paged c procs g k) (hpid : pid ∈ procs) :
    (pid, i) ∈ k.lruCache ↔ ∃ j < 3, (k.page (pid, i)).validBit j = true := by
  constructor
  · intro hmem
    obtain ⟨m, -, hin⟩ := h.frames pid i hmem
    have hlt := (h.known pid i hmem).2
    have hbound := (h.ok pid hpid).bound
    have hcounted := (h.ok pid hpid).counted
    obtain ⟨-, hsize⟩ := pageTableSize_spec (g pid).size
    unfold Progress.pages at hbound
    refine ⟨0, by decide, ?_⟩
    rw [hin.valid 0 (by decide), decide_eq_true_iff]
    omega
  · rintro ⟨j, -, hvalid⟩
    by_contra hout
    rw [h.absent pid hpid i hout j] at hvalid
    cases hvalid

/-! ## Finding frames -/

theorem Paged.slot (h : Paged c procs g k) {p : Nat × Nat} (hp : p ∈ k.lruCache) :
    ∃ m, 3 * m + 3 ≤ c.FRAME_STORE_SIZE ∧ (k.page p).index 0 = 3 * m ∧
      ∀ j, j < 3 → (k.shellmemory (3 * m + j)).var ≠ noneText := by
  obtain ⟨m, hm, hin⟩ := h.frames p.1 p.2 hp
  refine ⟨m, hm, hin.index 0, fun j hj => ?_⟩
  rw [hin.var j hj]
  exact pidString_ne p.1

/-- As many pages are in memory as there are triples of frames in use, from the first on. -/
theorem Paged.length_of_taken (h : Paged c procs g k) {n : Nat}
    (htaken : ∀ m, m < n → ∃ x, 3 * m ≤ x ∧ x < 3 * m + 3 ∧ x < c.FRAME_STORE_SIZE ∧
      (k.shellmemory x).var ≠ noneText) : n ≤ k.lruCache.length := by
  have hmem : ∀ m, m ∈ List.range n → m ∈ k.lruCache.map fun p => (k.page p).index 0 / 3 := by
    intro m hm
    obtain ⟨x, hle, hlt, hx, hused⟩ := htaken m (List.mem_range.1 hm)
    obtain ⟨p, hp, hle', hlt'⟩ := h.used x hx hused
    obtain ⟨n, -, hindex, -⟩ := h.slot hp
    rw [List.mem_map]
    exact ⟨p, hp, by omega⟩
  have hlen := (List.subperm_of_subset List.nodup_range hmem).length_le
  rwa [List.length_range, List.length_map] at hlen

/-- Three neighbouring frames that are free, if there are any: the first are those of a page. -/
theorem Paged.frameAlloc_some (h : Paged c procs g k) {start : Nat} {mem : ShellMemory}
    (halloc : frameAlloc c k.shellmemory pidText = some (start, mem)) :
    ∃ m, start = 3 * m ∧ 3 * m + 3 ≤ c.FRAME_STORE_SIZE ∧ m ≤ k.lruCache.length ∧
      (∀ j, j < 3 → (k.shellmemory (3 * m + j)).var = noneText) ∧
      ∀ x, mem x = if 3 * m ≤ x ∧ x < 3 * m + 3 then { k.shellmemory x with var := pidText }
        else k.shellmemory x := by
  unfold frameAlloc at halloc
  rw [Option.map_eq_some_iff] at halloc
  obtain ⟨i, hfind, heq⟩ := halloc
  obtain ⟨rfl, rfl⟩ := Prod.mk.inj heq
  rw [List.find?_range_eq_some] at hfind
  obtain ⟨hfree, -, hfirst⟩ := hfind
  rw [Bool.and_eq_true, List.all_eq_true, decide_eq_true_iff, FRAME_VAR_BORDER_eq] at hfree
  obtain ⟨hroom, hfree⟩ := hfree
  have hnone : ∀ x, i ≤ x → x < i + 3 → (k.shellmemory x).var = noneText := fun x h₁ h₂ =>
    of_decide_eq_true (hfree x (List.mem_range'_1.2 ⟨h₁, h₂⟩))
  -- The frames of the page in which the first of the three lies are free too.
  have hall : ∀ j, j < 3 → (k.shellmemory (3 * (i / 3) + j)).var = noneText := by
    intro j hj
    by_contra hused
    obtain ⟨p, hp, hle, hlt⟩ := h.used _ (by omega) hused
    obtain ⟨m, -, hindex, hvar⟩ := h.slot hp
    rw [hindex] at hle hlt
    have hm : m = i / 3 := by omega
    refine hvar (i % 3) (by omega) ?_
    rw [hm, show 3 * (i / 3) + i % 3 = i by omega]
    exact hnone i (Nat.le_refl i) (by omega)
  have haligned : 3 * (i / 3) = i := by
    by_contra hne
    have := hfirst (3 * (i / 3)) (by omega)
    rw [Bool.not_eq_true', Bool.and_eq_false_iff, decide_eq_false_iff_not, FRAME_VAR_BORDER_eq,
      List.all_eq_false] at this
    rcases this with hout | ⟨x, hx, hused⟩
    · omega
    · rw [List.mem_range'_1] at hx
      have := hall (x - 3 * (i / 3)) (by omega)
      rw [show 3 * (i / 3) + (x - 3 * (i / 3)) = x by omega] at this
      exact hused (decide_eq_true this)
  refine ⟨i / 3, haligned.symm, by omega, h.length_of_taken fun m hm => ?_, hall, fun x => ?_⟩
  · have := hfirst (3 * m) (by omega)
    rw [Bool.not_eq_true', Bool.and_eq_false_iff, decide_eq_false_iff_not, FRAME_VAR_BORDER_eq,
      List.all_eq_false] at this
    rcases this with hout | ⟨x, hx, hused⟩
    · omega
    · rw [List.mem_range'_1] at hx
      rw [decide_eq_true_iff] at hused
      exact ⟨x, hx.1, hx.2, by omega, hused⟩
  rw [haligned]
  simp only [List.range', List.foldl_cons, List.foldl_nil, Function.update_apply]
  split_ifs <;> first | rfl | omega | (subst_vars; rfl)

/-- Without free frames every page of frames is taken. -/
theorem Paged.frameAlloc_none (h : Paged c procs g k)
    (halloc : frameAlloc c k.shellmemory pidText = none) :
    c.FRAME_STORE_SIZE / 3 ≤ k.lruCache.length := by
  unfold frameAlloc at halloc
  rw [Option.map_eq_none_iff, List.find?_eq_none] at halloc
  refine h.length_of_taken fun m hm => ?_
  have hno := halloc (3 * m) (by rw [List.mem_range, FRAME_VAR_BORDER_eq]; omega)
  rw [Bool.and_eq_true, not_and, decide_eq_true_iff, FRAME_VAR_BORDER_eq, Bool.not_eq_true,
    List.all_eq_false] at hno
  obtain ⟨x, hx, hused⟩ := hno (by omega)
  rw [List.mem_range'_1] at hx
  rw [decide_eq_true_iff] at hused
  exact ⟨x, hx.1, hx.2, by omega, hused⟩

/-! ## Loading a page -/

theorem fillPage_names (places : List Nat) :
    ∀ {mem : ShellMemory} {page : Page} {file : CString},
      (fillPage pidText places mem page file).2.1.pagePid = page.pagePid ∧
        (fillPage pidText places mem page file).2.1.pageIndex = page.pageIndex := by
  induction places with
  | nil => exact ⟨rfl, rfl⟩
  | cons j places ih =>
      intro mem page file
      rw [fillPage]
      split
      · exact ⟨rfl, rfl⟩
      · exact ih

/-- The frames from `3 * m` on, after a page was put there. -/
structure Filled (mem mem' : ShellMemory) (pid i : Nat) (lines : List CString) (m : Nat) : Prop where
  var : ∀ j, j < 3 → (mem' (3 * m + j)).var = pidString pid
  value : ∀ j, j < 3 → 3 * i + j < lines.length →
    (mem' (3 * m + j)).value = lines.getD (3 * i + j) []
  other : ∀ x, x < 3 * m ∨ 3 * m + 3 ≤ x → mem' x = mem x

/-- `load_PAGE`, when there are frames. -/
theorem loadPage_some {lines : List CString} {start : Nat} {mem : ShellMemory}
    (halloc : frameAlloc c k.shellmemory (pidString pid) = some (start, mem)) (hstart : start = 3 * m)
    (hmem : ∀ x, mem x = if 3 * m ≤ x ∧ x < 3 * m + 3 then
      { k.shellmemory x with var := pidString pid } else k.shellmemory x)
    (hfile : delivered (k.pcbs pid).sourceFile = lines.drop (3 * i)) :
    ∃ mem' page' file', loadPage c pid i k = (0, { k with
        shellmemory := mem'
        pcbs := Function.update k.pcbs pid
          { (k.pcbs pid).setPage i page' with sourceFile := file' } }) ∧
      delivered file' = lines.drop (3 * (i + 1)) ∧ Filled k.shellmemory mem' pid i lines m ∧
      (∀ j, page'.index j = 3 * m + j) ∧
      (∀ j, j < 3 → page'.validBit j = decide (3 * i + j < lines.length)) ∧
      page'.pagePid = (k.page (pid, i)).pagePid ∧
      page'.pageIndex = (k.page (pid, i)).pageIndex := by
  obtain ⟨mem', page', file', hfill, hfile', hindex', hvalid', hmem'⟩ :=
    @fillPage_spec (pidString pid) start 3 0 mem
      { (k.pcbs pid).pageTable i with index := fun j => start + j, validBit := fun _ => false }
      (k.pcbs pid).sourceFile _ hfile (fun _ => rfl) fun _ _ => rfl
  have hnames := @fillPage_names (pidString pid) (List.range' 0 3) mem
    { (k.pcbs pid).pageTable i with index := fun j => start + j, validBit := fun _ => false }
    (k.pcbs pid).sourceFile
  rw [hfill] at hnames
  have hlen : (lines.drop (3 * i)).length = lines.length - 3 * i := List.length_drop
  refine ⟨mem', page', file', ?_, ?_, ⟨fun j hj => ?_, fun j hj hlt => ?_, fun x hx => ?_⟩,
    fun j => ?_, fun j hj => ?_, hnames.1, hnames.2⟩
  · unfold loadPage
    rw [halloc]
    dsimp only
    rw [show [0, 1, 2] = List.range' 0 3 from rfl, hfill]
  · rw [hfile', List.drop_drop]
    rfl
  · rw [hmem']
    split
    · rfl
    · rw [hmem, if_pos (by omega)]
  · rw [hmem', hstart, if_pos (by rw [hlen]; omega)]
    dsimp only
    rw [List.getD_eq_getElem?_getD, List.getElem?_drop, ← List.getD_eq_getElem?_getD]
    congr 1
    omega
  · rw [hmem', if_neg (by omega), hmem, if_neg (by omega)]
  · rw [hindex', hstart]
  · rw [hvalid', if_neg (Nat.not_lt_zero j), decide_eq_decide, hlen]
    omega

/-- A page that is loaded becomes the one used last. -/
theorem Paged.load (h : Paged c procs g k) (hpid : pid ∈ procs) {start : Nat} {mem : ShellMemory}
    (halloc : frameAlloc c k.shellmemory (pidString pid) = some (start, mem))
    (hbound : (g pid).loaded < (g pid).pages)
    (hnear : (g pid).loaded + 1 ≤ 2 ∨ 3 * (g pid).loaded ≤ (g pid).done) :
    ∃ k', loadPage c pid (g pid).loaded k = (0, k') ∧ k'.queue = k.queue ∧
      k'.lruCache = k.lruCache ∧ k'.allPcb = k.allPcb ∧ k'.executed = k.executed ∧
      k'.pidCounter = k.pidCounter ∧
      (∀ x, c.FRAME_STORE_SIZE ≤ x → k'.shellmemory x = k.shellmemory x) ∧
      Paged c procs (Function.update g pid (g pid).load)
        { k' with lruCache := (pid, (g pid).loaded) :: k'.lruCache } := by
  obtain ⟨m, hstart, hroom, hfirst, hfree, hmem⟩ := h.frameAlloc_some halloc
  have hp := h.process pid hpid
  have hok := h.ok pid hpid
  obtain ⟨mem', page', file', hload, hfile', hfilled, hindex, hvalid, hpagePid, hpageIndex⟩ :=
    loadPage_some halloc hstart hmem hp.file
  obtain ⟨k₁, hk₁⟩ : ∃ k₁ : Kernel σ, k₁ = { k with
      shellmemory := mem'
      pcbs := Function.update k.pcbs pid
        { (k.pcbs pid).setPage (g pid).loaded page' with sourceFile := file' }
      lruCache := (pid, (g pid).loaded) :: k.lruCache } := ⟨_, rfl⟩
  have hmemory : k₁.shellmemory = mem' := by rw [hk₁]
  have hcache : k₁.lruCache = (pid, (g pid).loaded) :: k.lruCache := by rw [hk₁]
  have hpcb : k₁.pcbs pid =
      { (k.pcbs pid).setPage (g pid).loaded page' with sourceFile := file' } := by
    rw [hk₁]
    exact Function.update_self ..
  have hother : ∀ q, q ≠ pid → k₁.pcbs q = k.pcbs q := fun q hq => by
    rw [hk₁]
    exact Function.update_of_ne hq ..
  have hnew : k₁.page (pid, (g pid).loaded) = page' := by
    unfold Kernel.page
    rw [hpcb]
    exact Function.update_self ..
  have hsame : ∀ q j, (q, j) ≠ (pid, (g pid).loaded) → k₁.page (q, j) = k.page (q, j) := by
    intro q j hne
    unfold Kernel.page
    by_cases hq : q = pid
    · rw [hq] at hne ⊢
      dsimp only
      rw [hpcb]
      exact Function.update_of_ne (fun hj => hne (by rw [hj])) ..
    · dsimp only
      rw [hother q hq]
  have hout : (pid, (g pid).loaded) ∉ k.lruCache := fun hmem =>
    absurd (h.known _ _ hmem).2 (Nat.lt_irrefl _)
  have hne : ∀ q j, (q, j) ∈ k.lruCache → (q, j) ≠ (pid, (g pid).loaded) := fun q j hq heq =>
    hout (heq ▸ hq)
  have hlines : ∀ q, (Function.update g pid (g pid).load q).lines = (g q).lines := by
    intro q
    by_cases hq : q = pid
    · rw [hq, Function.update_self]
      rfl
    · rw [Function.update_of_ne hq]
  -- The pages that were there have other frames.
  have hslots : ∀ p ∈ k.lruCache, ∀ n, (k.page p).index 0 = 3 * n → n ≠ m := by
    rintro p hpm n hn rfl
    obtain ⟨n', -, hn', hvar⟩ := h.slot hpm
    have hnn : n' = n := by omega
    exact hvar 0 (by omega) (hnn ▸ hfree 0 (by omega))
  have hmore := @pagesLoaded_load procs g pid hpid
  have hcount := h.length_le
  refine ⟨_, hload, rfl, rfl, rfl, rfl, rfl, fun x hx => hfilled.other x (by omega), ?_⟩
  dsimp only
  rw [← hk₁]
  refine ⟨fun q hq => ?_, fun q hq => ?_, ?_, fun q j hj => ?_, fun q j hj => ?_,
    fun p hpm q hqm heq => ?_, fun x hx hvar => ?_, fun q hq j hj => ?_, fun q hq j hlt hj => ?_,
    fun q hq j hlt hj => ?_, fun p hpm => ?_, by rw [hk₁]; exact h.stopped⟩
  · by_cases hqp : q = pid
    · rw [hqp, Function.update_self]
      refine ⟨by rw [hpcb]; exact hp.size, by rw [hpcb]; exact hp.counter,
        by rw [hpcb]; exact hp.pages, by rw [hpcb]; exact hfile', fun j => ?_⟩
      by_cases hj : j = (g pid).loaded
      · rw [hj, hnew, hpagePid, hpageIndex]
        exact hp.page _
      · rw [hsame pid j fun heq => hj (congrArg Prod.snd heq)]
        exact hp.page j
    · rw [Function.update_of_ne hqp]
      have hq' := h.process q hq
      have hpages : ∀ j, k₁.page (q, j) = k.page (q, j) := fun j =>
        hsame q j fun heq => hqp (congrArg Prod.fst heq)
      exact ⟨by rw [hother q hqp]; exact hq'.size, by rw [hother q hqp]; exact hq'.counter,
        by rw [hother q hqp]; exact hq'.pages, by rw [hother q hqp]; exact hq'.file,
        fun j => by rw [hpages]; exact hq'.page j⟩
  · by_cases hqp : q = pid
    · rw [hqp, Function.update_self]
      have hreach := hok.reach
      exact ⟨hok.counted, hok.le, by simp only [Progress.load]; omega, hbound,
        by simp only [Progress.load]; omega⟩
    · rw [Function.update_of_ne hqp]
      exact h.ok q hq
  · rw [hcache]
    exact List.nodup_cons.2 ⟨hout, h.nodup⟩
  · rw [hcache, List.mem_cons] at hj
    rcases hj with heq | hj
    · obtain ⟨rfl, rfl⟩ := Prod.mk.inj heq
      rw [Function.update_self]
      exact ⟨hpid, Nat.lt_succ_self _⟩
    · obtain ⟨hq, hlt⟩ := h.known q j hj
      refine ⟨hq, ?_⟩
      by_cases hqp : q = pid
      · rw [hqp] at hlt ⊢
        rw [Function.update_self]
        exact Nat.lt_succ_of_lt hlt
      · rw [Function.update_of_ne hqp]
        exact hlt
  · rw [hlines]
    rw [hcache, List.mem_cons] at hj
    rcases hj with heq | hj
    · obtain ⟨rfl, rfl⟩ := Prod.mk.inj heq
      exact ⟨m, hroom, by rw [hnew]; exact hindex, by rw [hnew]; exact hvalid,
        by rw [hmemory]; exact hfilled.var, by rw [hmemory]; exact hfilled.value⟩
    · obtain ⟨n, hn, hin⟩ := h.frames q j hj
      have hnm := hslots _ hj n (hin.index 0)
      have hkeep : ∀ x, 3 * n ≤ x → x < 3 * n + 3 → mem' x = k.shellmemory x := fun x h₁ h₂ =>
        hfilled.other x (by omega)
      refine ⟨n, hn, ?_, ?_, fun x hx => ?_, fun x hx hlt => ?_⟩
      · rw [hsame q j (hne q j hj)]
        exact hin.index
      · rw [hsame q j (hne q j hj)]
        exact hin.valid
      · rw [hmemory, hkeep _ (by omega) (by omega)]
        exact hin.var x hx
      · rw [hmemory, hkeep _ (by omega) (by omega)]
        exact hin.value x hx hlt
  · rw [hcache, List.mem_cons] at hpm hqm
    rcases hpm with rfl | hpm
    · rcases hqm with rfl | hqm
      · rfl
      · rw [hnew, hindex, hsame _ _ (hne _ _ hqm)] at heq
        exact absurd rfl (hslots q hqm m heq.symm)
    · rcases hqm with rfl | hqm
      · rw [hnew, hindex, hsame _ _ (hne _ _ hpm)] at heq
        exact absurd rfl (hslots p hpm m heq)
      · rw [hsame _ _ (hne _ _ hpm), hsame _ _ (hne _ _ hqm)] at heq
        exact h.apart p hpm q hqm heq
  · rw [hcache]
    by_cases hin : 3 * m ≤ x ∧ x < 3 * m + 3
    · exact ⟨_, List.mem_cons_self, by rw [hnew, hindex]; omega, by rw [hnew, hindex]; omega⟩
    · rw [hmemory, hfilled.other x (by omega)] at hvar
      obtain ⟨p, hpm, hle, hlt⟩ := h.used x hx hvar
      exact ⟨p, List.mem_cons_of_mem _ hpm, by rw [hsame _ _ (hne _ _ hpm)]; exact hle,
        by rw [hsame _ _ (hne _ _ hpm)]; exact hlt⟩
  · rw [hcache, List.mem_cons, not_or] at hj
    rw [hsame q j hj.1]
    exact h.absent q hq j hj.2
  · rw [hcache, List.mem_cons, not_or] at hj
    by_cases hqp : q = pid
    · rw [hqp] at hlt hj ⊢
      rw [Function.update_self] at hlt ⊢
      refine h.gone pid hpid j ?_ hj.2
      have hjl : j ≠ (g pid).loaded := fun heq => hj.1 (by rw [heq])
      have hlt' : j < (g pid).loaded + 1 := hlt
      omega
    · rw [Function.update_of_ne hqp] at hlt ⊢
      exact h.gone q hq j hlt hj.2
  · rw [hcache, List.mem_cons, not_or] at hj
    rw [hsame q j hj.1]
    refine h.zero q hq j ?_ hj.2
    by_cases hqp : q = pid
    · rw [hqp, Function.update_self] at hlt
      rw [hqp] at hj ⊢
      have hjl : j ≠ (g pid).loaded := fun heq => hj.1 (by rw [heq])
      have hlt' : j < (g pid).loaded + 1 := hlt
      omega
    · rwa [Function.update_of_ne hqp] at hlt
  · rw [hcache, List.mem_cons] at hpm
    rcases hpm with rfl | hpm
    · rw [hnew, hindex]
      omega
    · rw [hsame _ _ (hne _ _ hpm)]
      have hlow : (k.page (p.1, p.2)).index 0 < 3 * pagesLoaded g procs := h.low p hpm
      omega

/-! ## Making room -/

/-- A page all of whose lines were run leaves, and leaves frames behind. -/
theorem Paged.evict (h : Paged c procs g k) {v : Nat × Nat} (hv : k.lruCache.getLast? = some v)
    (hall : v.1 ∈ k.allPcb) (hcomplete : (g v.1).Complete v.2) :
    Paged c procs g (evictTail k) ∧ (evictTail k).lruCache = k.lruCache.dropLast ∧
      (evictTail k).queue = k.queue ∧ (evictTail k).allPcb = k.allPcb ∧
      (evictTail k).executed = k.executed ∧
      (∀ x, c.FRAME_STORE_SIZE ≤ x → (evictTail k).shellmemory x = k.shellmemory x) ∧
      ∀ pidText, ∃ start mem, frameAlloc c (evictTail k).shellmemory pidText = some (start, mem) := by
  obtain ⟨q₀, j₀⟩ := v
  have hmem : (q₀, j₀) ∈ k.lruCache := List.mem_of_getLast? hv
  obtain ⟨hq₀, hj₀⟩ := h.known q₀ j₀ hmem
  obtain ⟨m, hroom, hin⟩ := h.frames q₀ j₀ hmem
  obtain ⟨hpagePid, hpageIndex⟩ := (h.process q₀ hq₀).page j₀
  have hdrop : ∀ p, p ∈ k.lruCache.dropLast ↔ p ∈ k.lruCache ∧ p ≠ (q₀, j₀) := fun p =>
    MoveToFront.mem_dropLast h.nodup hv
  obtain ⟨k', hk'⟩ : ∃ k' : Kernel σ, k' = pageEvict q₀ j₀ { k with lruCache := k.lruCache.dropLast } :=
    ⟨_, rfl⟩
  have heq : evictTail k = k' := by
    unfold evictTail
    rw [hv]
    dsimp only
    rw [hpagePid, hpageIndex, if_pos hall, hk']
  have hmemory : ∀ x, k'.shellmemory x =
      if 3 * m ≤ x ∧ x < 3 * m + 3 then ⟨noneText, noneText⟩ else k.shellmemory x := by
    intro x
    rw [hk']
    show ([0, 1, 2].foldl (fun mem j => memFreeAt mem ((k.page (q₀, j₀)).index j)) k.shellmemory) x = _
    simp only [List.foldl_cons, List.foldl_nil, hin.index, memFreeAt, Function.update_apply]
    split_ifs <;> first | rfl | omega
  have hcache : k'.lruCache = k.lruCache.dropLast := by rw [hk']; rfl
  have hpcb : k'.pcbs q₀ = (k.pcbs q₀).setPage j₀
      { k.page (q₀, j₀) with index := fun _ => 0, validBit := fun _ => false } := by
    rw [hk']
    exact Function.update_self ..
  have hother : ∀ q, q ≠ q₀ → k'.pcbs q = k.pcbs q := fun q hq => by
    rw [hk']
    exact Function.update_of_ne hq ..
  have hgone : k'.page (q₀, j₀) =
      { k.page (q₀, j₀) with index := fun _ => 0, validBit := fun _ => false } := by
    unfold Kernel.page
    dsimp only
    rw [hpcb]
    exact Function.update_self ..
  have hsame : ∀ q j, (q, j) ≠ (q₀, j₀) → k'.page (q, j) = k.page (q, j) := by
    intro q j hne
    unfold Kernel.page
    by_cases hq : q = q₀
    · rw [hq] at hne ⊢
      dsimp only
      rw [hpcb]
      exact Function.update_of_ne (fun hj => hne (by rw [hj])) ..
    · dsimp only
      rw [hother q hq]
  have hslots : ∀ p ∈ k.lruCache, p ≠ (q₀, j₀) → ∀ n, (k.page p).index 0 = 3 * n → n ≠ m := by
    rintro p hpm hne n hn rfl
    exact hne (h.apart p hpm _ hmem (by rw [hn, hin.index]; rfl))
  rw [heq]
  refine ⟨⟨fun q hq => ?_, h.ok, ?_, fun q j hj => ?_, fun q j hj => ?_, fun p hpm q hqm hpq => ?_,
    fun x hx hvar => ?_, fun q hq j hj => ?_, fun q hq j hlt hj => ?_, fun q hq j hlt hj => ?_,
    fun p hpm => ?_, by rw [hk']; exact h.stopped⟩, hcache, by rw [hk']; rfl, by rw [hk']; rfl,
    by rw [hk']; rfl, fun x hx => by rw [hmemory, if_neg (by omega)], fun pidText => ?_⟩
  · have hp := h.process q hq
    by_cases hqp : q = q₀
    · rw [hqp] at hp ⊢
      refine ⟨by rw [hpcb]; exact hp.size, by rw [hpcb]; exact hp.counter,
        by rw [hpcb]; exact hp.pages, by rw [hpcb]; exact hp.file, fun j => ?_⟩
      by_cases hj : j = j₀
      · rw [hj, hgone]
        exact ⟨hpagePid, hpageIndex⟩
      · rw [hsame q₀ j fun heq => hj (congrArg Prod.snd heq)]
        exact hp.page j
    · have hpages : ∀ j, k'.page (q, j) = k.page (q, j) := fun j =>
        hsame q j fun heq => hqp (congrArg Prod.fst heq)
      exact ⟨by rw [hother q hqp]; exact hp.size, by rw [hother q hqp]; exact hp.counter,
        by rw [hother q hqp]; exact hp.pages, by rw [hother q hqp]; exact hp.file,
        fun j => by rw [hpages]; exact hp.page j⟩
  · rw [hcache]
    exact h.nodup.sublist (List.dropLast_sublist _)
  · rw [hcache, hdrop] at hj
    exact h.known q j hj.1
  · rw [hcache, hdrop] at hj
    obtain ⟨n, hn, hin'⟩ := h.frames q j hj.1
    have hnm := hslots _ hj.1 hj.2 n (hin'.index 0)
    refine ⟨n, hn, by rw [hsame q j hj.2]; exact hin'.index, by rw [hsame q j hj.2]; exact hin'.valid,
      fun x hx => ?_, fun x hx hlt => ?_⟩
    · rw [hmemory, if_neg (by omega)]
      exact hin'.var x hx
    · rw [hmemory, if_neg (by omega)]
      exact hin'.value x hx hlt
  · rw [hcache, hdrop] at hpm hqm
    rw [hsame p.1 p.2 hpm.2, hsame q.1 q.2 hqm.2] at hpq
    exact h.apart p hpm.1 q hqm.1 hpq
  · rw [hmemory] at hvar
    split at hvar
    · exact absurd rfl hvar
    · next hout =>
        obtain ⟨p, hpm, hle, hlt⟩ := h.used x hx hvar
        have hne : p ≠ (q₀, j₀) := by
          rintro rfl
          rw [hin.index] at hle hlt
          omega
        exact ⟨p, by rw [hcache, hdrop]; exact ⟨hpm, hne⟩, by rw [hsame p.1 p.2 hne]; exact hle,
          by rw [hsame p.1 p.2 hne]; exact hlt⟩
  · by_cases hne : (q, j) = (q₀, j₀)
    · rw [hne, hgone]
      exact fun _ => rfl
    · rw [hsame q j hne]
      rw [hcache, hdrop] at hj
      exact h.absent q hq j (fun hmem => hj ⟨hmem, hne⟩)
  · by_cases hne : (q, j) = (q₀, j₀)
    · obtain ⟨rfl, rfl⟩ := Prod.mk.inj hne
      exact hcomplete
    · rw [hcache, hdrop] at hj
      exact h.gone q hq j hlt fun hmem => hj ⟨hmem, hne⟩
  · by_cases hne : (q, j) = (q₀, j₀)
    · rw [hne, hgone]
      exact fun _ => rfl
    · rw [hsame q j hne]
      rw [hcache, hdrop] at hj
      exact h.zero q hq j hlt fun hmem => hj ⟨hmem, hne⟩
  · rw [hcache, hdrop] at hpm
    rw [hsame p.1 p.2 hpm.2]
    exact h.low p hpm.1
  · cases halloc : frameAlloc c k'.shellmemory pidText with
    | some r => exact ⟨r.1, r.2, rfl⟩
    | none =>
        unfold frameAlloc at halloc
        rw [Option.map_eq_none_iff, List.find?_eq_none] at halloc
        refine absurd ?_ (halloc (3 * m) (by rw [List.mem_range, FRAME_VAR_BORDER_eq]; omega))
        rw [Bool.and_eq_true, decide_eq_true_iff, FRAME_VAR_BORDER_eq, List.all_eq_true]
        refine ⟨hroom, fun x hx => ?_⟩
        rw [List.mem_range'_1] at hx
        rw [decide_eq_true_iff, hmemory, if_pos hx]

/-! ## A line -/

variable {parseInput : CString → Kernel σ → Int × Kernel σ}

/-- The line that `run_proc_RR` comes to. -/
theorem Process.next (h : Process k pid (g pid)) (hlt : (g pid).done < (g pid).size) :
    nextPage (k.pcbs pid) = (g pid).done / 3 ∧
      (k.pcbs pid).programCounter ((g pid).done / 3) = (g pid).done % 3 := by
  obtain ⟨hsize, -⟩ := pageTableSize_spec (g pid).size
  have hfind : (List.range (k.pcbs pid).pageTableSize).find?
      (fun i => decide ((k.pcbs pid).programCounter i ≠ 3)) = some ((g pid).done / 3) := by
    rw [List.find?_range_eq_some]
    refine ⟨decide_eq_true ?_, ?_, fun x hx => ?_⟩
    · rw [h.counter]
      omega
    · rw [List.mem_range, h.pages, Progress.pages]
      omega
    · rw [Bool.not_eq_true', decide_eq_false_iff_not, h.counter]
      omega
  refine ⟨?_, ?_⟩
  · unfold nextPage
    rw [hfind]
    rfl
  · rw [h.counter]
    omega

/-- The page that the process is on is in memory if it was loaded. -/
theorem Paged.current (h : Paged c procs g k) (hpid : pid ∈ procs)
    (hlt : (g pid).done < (g pid).size) (hin : (g pid).done / 3 < (g pid).loaded) :
    (pid, (g pid).done / 3) ∈ k.lruCache := by
  by_contra hout
  have := h.gone pid hpid _ hin hout
  unfold Progress.Complete at this
  omega

theorem Paged.find (h : Paged c procs g k) {p : Nat × Nat} (hp : p ∈ k.lruCache) :
    k.lruCache.find? (pageEqual k p) = some p ∧
      p :: k.lruCache.eraseP (pageEqual k p) = MoveToFront.use k.lruCache p := by
  have hequal : ∀ q ∈ k.lruCache, (pageEqual k p q = true ↔ q = p) := by
    intro q hq
    unfold pageEqual
    rw [decide_eq_true_iff]
    exact ⟨fun heq => (h.apart p hp q hq heq).symm, fun heq => by rw [heq]⟩
  refine ⟨?_, ?_⟩
  · cases hfind : k.lruCache.find? (pageEqual k p) with
    | none => exact absurd ((hequal p hp).2 rfl) (List.find?_eq_none.1 hfind p hp)
    | some q =>
        rw [(hequal q (List.mem_of_find?_eq_some hfind)).1 (List.find?_some hfind)]
  · exact (MoveToFront.use_eq_eraseP hequal).symm

theorem Progress.next_ok {p : Progress} (h : p.Ok) (hlt : p.done < p.size)
    (hin : p.done / 3 < p.loaded) : p.next.Ok := by
  have hnear := h.near
  exact ⟨h.counted, hlt, by simp only [Progress.next]; omega, h.bound,
    by simp only [Progress.next]; omega⟩

theorem Progress.Complete.next {p : Progress} (h : p.Complete i) : p.next.Complete i :=
  Nat.le_succ_of_le h

/-- The commands leave the variables alone. -/
def KeepsVars (lines : CString → Prop) (c : Sizes)
    (parseInput : CString → Kernel σ → Int × Kernel σ) : Prop :=
  ∀ line, lines line → ∀ k x, c.FRAME_STORE_SIZE ≤ x →
    (parseInput line k).2.shellmemory x = k.shellmemory x

/-- The commands make no process. -/
def KeepsCounter (lines : CString → Prop) (parseInput : CString → Kernel σ → Int × Kernel σ) :
    Prop :=
  ∀ line, lines line → ∀ k, (parseInput line k).2.pidCounter = k.pidCounter

/-- These lines run no scripts: they touch neither frames nor processes. -/
structure LeavesKernel (lines : CString → Prop) (c : Sizes)
    (parseInput : CString → Kernel σ → Int × Kernel σ) : Prop where
  pcbs : ∀ line, lines line → ∀ k, (parseInput line k).2.pcbs = k.pcbs
  queue : ∀ line, lines line → ∀ k, (parseInput line k).2.queue = k.queue
  lruCache : ∀ line, lines line → ∀ k, (parseInput line k).2.lruCache = k.lruCache
  allPcb : ∀ line, lines line → ∀ k, (parseInput line k).2.allPcb = k.allPcb
  executed : ∀ line, lines line → ∀ k, (parseInput line k).2.executed = k.executed
  frames : ∀ line, lines line → ∀ k i, i < c.FRAME_STORE_SIZE →
    (parseInput line k).2.shellmemory i = k.shellmemory i

theorem Ordinary.leavesKernel {lines : CString → Prop} (h : Ordinary lines c parseInput) :
    LeavesKernel lines c parseInput :=
  ⟨h.pcbs, h.queue, h.lruCache, h.allPcb, h.executed, h.frames⟩

/-- The line that the process comes to, if it is in memory, returns, with another value than 1. -/
def Returns (parseInput : CString → Kernel σ → Int × Kernel σ) (pid : Nat) (k : Kernel σ) : Prop :=
  let i := nextPage (k.pcbs pid)
  let j := (k.pcbs pid).programCounter i
  (k.page (pid, i)).validBit j = true →
    (cpuRun parseInput pid i j k).1 ≠ 1 ∧ (cpuRun parseInput pid i j k).2.stopped = false

/-- The line that the process comes to, if it is in memory, does not answer 1. -/
def Answers (parseInput : CString → Kernel σ → Int × Kernel σ) (pid : Nat) (k : Kernel σ) : Prop :=
  let i := nextPage (k.pcbs pid)
  let j := (k.pcbs pid).programCounter i
  (k.page (pid, i)).validBit j = true → (cpuRun parseInput pid i j k).1 ≠ 1

theorem Returns.answers (h : Returns parseInput pid k) : Answers parseInput pid k :=
  fun hvalid => (h hvalid).1

/-- What stands in the frame of the line that the process is at. -/
theorem Paged.fetch (h : Paged c procs g k) (hpid : pid ∈ procs)
    (hlt : (g pid).done < (g pid).size) (hin : (g pid).done / 3 < (g pid).loaded) :
    (k.page (pid, (g pid).done / 3)).validBit ((g pid).done % 3) = true ∧
      memGetValueAt k.shellmemory ((k.page (pid, (g pid).done / 3)).index ((g pid).done % 3)) =
        (g pid).lines.getD (g pid).done [] ∧
      (g pid).lines.getD (g pid).done [] ∈ (g pid).lines := by
  have hcounted := (h.ok pid hpid).counted
  obtain ⟨m, -, hframes⟩ := h.frames _ _ (h.current hpid hlt hin)
  have hat : 3 * ((g pid).done / 3) + (g pid).done % 3 = (g pid).done := by omega
  have hmod : (g pid).done % 3 < 3 := Nat.mod_lt _ (by decide)
  have hdone : (g pid).done < (g pid).lines.length := by omega
  refine ⟨?_, ?_, ?_⟩
  · rw [hframes.valid _ hmod, hat, decide_eq_true hdone]
  · rw [hframes.index]
    have := hframes.value _ hmod (by rw [hat]; exact hdone)
    rwa [hat] at this
  · rw [List.getD_eq_getElem?_getD, List.getElem?_eq_getElem hdone, Option.getD_some]
    exact List.getElem_mem hdone

/-- Ordinary lines return, and with another value than 1. -/
theorem Paged.returns {lines : CString → Prop} (h : Paged c procs g k) (hpid : pid ∈ procs)
    (ho : Ordinary lines c parseInput) (hall : ∀ l ∈ (g pid).lines, lines l)
    (hlt : (g pid).done < (g pid).size) : Returns parseInput pid k := by
  obtain ⟨hnext, hplace⟩ := (h.process pid hpid).next hlt
  unfold Returns
  dsimp only
  rw [hnext, hplace]
  intro hvalid
  have hin : (g pid).done / 3 < (g pid).loaded := by
    by_contra hout
    rw [h.absent pid hpid _ fun hmem => hout (h.known _ _ hmem).2] at hvalid
    cases hvalid
  obtain ⟨-, hvalue, hmem⟩ := h.fetch hpid hlt hin
  unfold cpuRun
  rw [if_neg (by rw [hvalid]; exact Bool.noConfusion), hvalue]
  exact ⟨ho.answer _ (hall _ hmem) _, (ho.stopped _ (hall _ hmem) _).trans h.stopped⟩

/-- A line that is in memory is run, and its page is the one used last. -/
theorem Paged.line {lines : CString → Prop} (h : Paged c procs g k) (hpid : pid ∈ procs)
    (ho : LeavesKernel lines c parseInput) (hall : ∀ l ∈ (g pid).lines, lines l)
    (hret : Returns parseInput pid k)
    (hlt : (g pid).done < (g pid).size) (hin : (g pid).done / 3 < (g pid).loaded) :
    ∃ k', runNext parseInput c pid k = (0, k') ∧ k'.queue = k.queue ∧
      k'.lruCache = MoveToFront.use k.lruCache (pid, (g pid).done / 3) ∧ k'.allPcb = k.allPcb ∧
      k'.executed = k.executed ++ [(pid, (g pid).lines.getD (g pid).done [])] ∧
      ((KeepsVars lines c parseInput →
          ∀ x, c.FRAME_STORE_SIZE ≤ x → k'.shellmemory x = k.shellmemory x) ∧
        (KeepsCounter lines parseInput → k'.pidCounter = k.pidCounter)) ∧
      Paged c procs (Function.update g pid (g pid).next) k' := by
  have hp := h.process pid hpid
  have hok := h.ok pid hpid
  have hcached := h.current hpid hlt hin
  obtain ⟨hnext, hplace⟩ := hp.next hlt
  obtain ⟨hvalid, hvalue, hmember⟩ := h.fetch hpid hlt hin
  obtain ⟨line, hline⟩ : ∃ line, (g pid).lines.getD (g pid).done [] = line := ⟨_, rfl⟩
  rw [hline] at hvalue hmember ⊢
  have hkind : lines line := hall _ hmember
  obtain ⟨r, hr⟩ : ∃ r, parseInput line
    { k with executed := k.executed ++ [(pid, line)] } = r := ⟨_, rfl⟩
  unfold Returns at hret
  dsimp only at hret
  rw [hnext, hplace] at hret
  obtain ⟨hne, hgoes⟩ := hret hvalid
  have hpcbs : r.2.pcbs = k.pcbs := by rw [← hr, ho.pcbs _ hkind]
  have hframe : ∀ x, x < c.FRAME_STORE_SIZE → r.2.shellmemory x = k.shellmemory x := by
    intro x hx
    rw [← hr, ho.frames _ hkind _ _ hx]
  -- The state behind the line, before the list of used pages is seen to.
  obtain ⟨k₂, hk₂⟩ : ∃ k₂ : Kernel σ, k₂ = r.2.setPcb pid { r.2.pcbs pid with
      programCounter := Function.update (r.2.pcbs pid).programCounter ((g pid).done / 3)
        ((r.2.pcbs pid).programCounter ((g pid).done / 3) + 1)
      size := (r.2.pcbs pid).size - 1 } := ⟨_, rfl⟩
  have hcpu : cpuRun parseInput pid ((g pid).done / 3) ((g pid).done % 3) k = (r.1, k₂) := by
    unfold cpuRun
    rw [if_neg (by rw [hvalid]; exact Bool.noConfusion), hvalue]
    dsimp only
    rw [hr, ← hk₂]
  rw [hcpu] at hne hgoes
  have hpcb : k₂.pcbs pid = { k.pcbs pid with
      programCounter := Function.update (k.pcbs pid).programCounter ((g pid).done / 3)
        ((k.pcbs pid).programCounter ((g pid).done / 3) + 1)
      size := (k.pcbs pid).size - 1 } := by
    rw [hk₂, ← hpcbs]
    exact Function.update_self ..
  have hother : ∀ q, q ≠ pid → k₂.pcbs q = k.pcbs q := fun q hq => by
    rw [hk₂, ← hpcbs]
    exact Function.update_of_ne hq ..
  have hpage : ∀ q, k₂.page q = k.page q := by
    rintro ⟨q, j⟩
    unfold Kernel.page
    dsimp only
    by_cases hq : q = pid
    · rw [hq, hpcb]
    · rw [hother q hq]
  have hmemory : ∀ x, x < c.FRAME_STORE_SIZE → k₂.shellmemory x = k.shellmemory x := by
    rw [hk₂]
    exact hframe
  have hlru : k₂.lruCache = k.lruCache := by
    rw [hk₂]
    show r.2.lruCache = _
    rw [← hr, ho.lruCache _ hkind]
  have hequal : pageEqual k₂ = pageEqual k := by
    funext p q
    unfold pageEqual
    rw [hpage, hpage]
  obtain ⟨hfind, herase⟩ := h.find hcached
  have hrun : runNext parseInput c pid k = (0, { k₂ with
      lruCache := MoveToFront.use k.lruCache (pid, (g pid).done / 3) }) := by
    unfold runNext
    dsimp only
    rw [hnext, hplace]
    unfold runProc
    rw [hcpu]
    dsimp only
    rw [if_neg hne]
    unfold touchPage
    rw [hlru, hequal, hfind, ← herase]
  have hmem : ∀ p, p ∈ MoveToFront.use k.lruCache (pid, (g pid).done / 3) ↔ p ∈ k.lruCache :=
    fun p => MoveToFront.mem_use hcached
  have hlines : ∀ q, (Function.update g pid (g pid).next q).lines = (g q).lines ∧
      (Function.update g pid (g pid).next q).loaded = (g q).loaded := by
    intro q
    by_cases hq : q = pid
    · rw [hq, Function.update_self]
      exact ⟨rfl, rfl⟩
    · rw [Function.update_of_ne hq]
      exact ⟨rfl, rfl⟩
  refine ⟨_, hrun, ?_, rfl, ?_, ?_, ⟨fun hkeep x hx => ?_, fun hcounter => ?_⟩, ?_⟩
  · show k₂.queue = _
    rw [hk₂]
    show r.2.queue = _
    rw [← hr, ho.queue _ hkind]
  · show k₂.allPcb = _
    rw [hk₂]
    show r.2.allPcb = _
    rw [← hr, ho.allPcb _ hkind]
  · show k₂.executed = _
    rw [hk₂]
    show r.2.executed = _
    rw [← hr, ho.executed _ hkind]
  · show k₂.shellmemory x = _
    rw [hk₂]
    show r.2.shellmemory x = _
    rw [← hr, hkeep _ hkind _ x hx]
  · show k₂.pidCounter = _
    rw [hk₂]
    show r.2.pidCounter = _
    rw [← hr, hcounter _ hkind]
  · obtain ⟨k₃, hk₃⟩ : ∃ k₃ : Kernel σ, k₃ = { k₂ with
        lruCache := MoveToFront.use k.lruCache (pid, (g pid).done / 3) } := ⟨_, rfl⟩
    have hcache : k₃.lruCache = MoveToFront.use k.lruCache (pid, (g pid).done / 3) := by rw [hk₃]
    have hpage₃ : ∀ q, k₃.page q = k.page q := fun q => by rw [hk₃]; exact hpage q
    have hmemory₃ : ∀ x, x < c.FRAME_STORE_SIZE → k₃.shellmemory x = k.shellmemory x := by
      rw [hk₃]
      exact hmemory
    have hpcbs₃ : k₃.pcbs = k₂.pcbs := by rw [hk₃]
    rw [← hk₃]
    refine ⟨fun q hq => ?_, fun q hq => ?_, ?_, fun q j hj => ?_, fun q j hj => ?_,
      fun p hpm q hqm heq => ?_, fun x hx hvar => ?_, fun q hq j hj => ?_,
      fun q hq j hlt hj => ?_, fun q hq j hlt hj => ?_, fun p hpm => ?_, ?_⟩
    · by_cases hqp : q = pid
      · rw [hqp, Function.update_self]
        refine ⟨?_, fun j => ?_, ?_, ?_, fun j => by rw [hpage₃]; exact hp.page j⟩
        · rw [hpcbs₃, hpcb]
          dsimp only [Progress.next]
          rw [hp.size]
          omega
        · rw [hpcbs₃, hpcb]
          dsimp only [Progress.next]
          rw [Function.update_apply]
          split
          · next heq =>
              rw [heq, hp.counter]
              omega
          · next hne =>
              rw [hp.counter]
              omega
        · rw [hpcbs₃, hpcb]
          exact hp.pages
        · rw [hpcbs₃, hpcb]
          exact hp.file
      · have hq' := h.process q hq
        rw [Function.update_of_ne hqp]
        exact ⟨by rw [hpcbs₃, hother q hqp]; exact hq'.size,
          by rw [hpcbs₃, hother q hqp]; exact hq'.counter,
          by rw [hpcbs₃, hother q hqp]; exact hq'.pages,
          by rw [hpcbs₃, hother q hqp]; exact hq'.file,
          fun j => by rw [hpage₃]; exact hq'.page j⟩
    · by_cases hqp : q = pid
      · rw [hqp, Function.update_self]
        exact Progress.next_ok hok hlt hin
      · rw [Function.update_of_ne hqp]
        exact h.ok q hq
    · rw [hcache]
      exact MoveToFront.nodup_use h.nodup
    · rw [hcache, hmem] at hj
      rw [(hlines q).2]
      exact h.known q j hj
    · rw [hcache, hmem] at hj
      obtain ⟨n, hn, hin'⟩ := h.frames q j hj
      rw [(hlines q).1]
      refine ⟨n, hn, by rw [hpage₃]; exact hin'.index, by rw [hpage₃]; exact hin'.valid,
        fun x hx => ?_, fun x hx hlt => ?_⟩
      · rw [hmemory₃ _ (by omega)]
        exact hin'.var x hx
      · rw [hmemory₃ _ (by omega)]
        exact hin'.value x hx hlt
    · rw [hcache, hmem] at hpm hqm
      rw [hpage₃, hpage₃] at heq
      exact h.apart p hpm q hqm heq
    · rw [hmemory₃ x hx] at hvar
      obtain ⟨p, hpm, hle, hlt⟩ := h.used x hx hvar
      exact ⟨p, by rw [hcache, hmem]; exact hpm, by rw [hpage₃]; exact hle,
        by rw [hpage₃]; exact hlt⟩
    · rw [hcache, hmem] at hj
      rw [hpage₃]
      exact h.absent q hq j hj
    · rw [hcache, hmem] at hj
      rw [(hlines q).2] at hlt
      have hdone := h.gone q hq j hlt hj
      by_cases hqp : q = pid
      · rw [hqp] at hdone ⊢
        rw [Function.update_self]
        exact hdone.next
      · rw [Function.update_of_ne hqp]
        exact hdone
    · rw [hcache, hmem] at hj
      rw [(hlines q).2] at hlt
      rw [hpage₃]
      exact h.zero q hq j hlt hj
    · rw [hcache, hmem] at hpm
      rw [hpage₃, pagesLoaded, List.map_congr_left fun q _ => (hlines q).2]
      exact h.low p hpm
    · rw [hk₃]
      exact hgoes

/-- The list of used pages, with the last one gone where there was no room. -/
def madeRoom (c : Sizes) (pid : Nat) (k : Kernel σ) : List (Nat × Nat) :=
  if (frameAlloc c k.shellmemory (pidString pid)).isSome then k.lruCache else k.lruCache.dropLast

theorem evictTail_pidCounter : (evictTail k).pidCounter = k.pidCounter := by
  unfold evictTail
  split
  · rfl
  · dsimp only
    split
    · rfl
    · rfl

/-- The first line of a page that was not loaded yet: the page is loaded, where there is no room
over the page used longest ago. -/
theorem Paged.miss (h : Paged c procs g k) (hpid : pid ∈ procs)
    (hlt : (g pid).done < (g pid).size) (hout : (g pid).done / 3 = (g pid).loaded)
    (hvictim : frameAlloc c k.shellmemory (pidString pid) = none →
      ∃ v, k.lruCache.getLast? = some v ∧ v.1 ∈ k.allPcb ∧ (g v.1).Complete v.2) :
    ∃ k', runNext parseInput c pid k = (1, k') ∧ k'.queue = k.queue ++ [pid] ∧
      k'.lruCache = (pid, (g pid).loaded) :: madeRoom c pid k ∧ k'.allPcb = k.allPcb ∧
      k'.executed = k.executed ∧
      ((∀ x, c.FRAME_STORE_SIZE ≤ x → k'.shellmemory x = k.shellmemory x) ∧
        k'.pidCounter = k.pidCounter) ∧
      Paged c procs (Function.update g pid (g pid).load) k' := by
  have hp := h.process pid hpid
  have hok := h.ok pid hpid
  obtain ⟨hnext, hplace⟩ := hp.next hlt
  obtain ⟨hsize, -⟩ := pageTableSize_spec (g pid).size
  have hbound : (g pid).loaded < (g pid).pages := by
    unfold Progress.pages
    omega
  have hnear : (g pid).loaded + 1 ≤ 2 ∨ 3 * (g pid).loaded ≤ (g pid).done := .inr (by omega)
  have habsent := h.absent pid hpid (g pid).loaded
    (fun hmem => absurd (h.known _ _ hmem).2 (Nat.lt_irrefl _))
  have hrun : runNext parseInput c pid k = (1, pageFault c pid (g pid).loaded k) := by
    unfold runNext
    dsimp only
    rw [hnext, hplace, hout]
    unfold runProc cpuRun
    rw [if_pos (habsent _)]
    dsimp only
    rw [if_pos rfl]
  rw [hrun]
  unfold pageFault madeRoom
  dsimp only
  cases halloc : frameAlloc c k.shellmemory (pidString pid) with
  | some r =>
      obtain ⟨k', hload, hqueue, hlru, hall, hexec, hcounter, hvars, hpaged⟩ :=
        h.load hpid halloc hbound hnear
      rw [hload, if_neg (show ¬(0 : Int) = 1 by decide)]
      refine ⟨_, rfl, by rw [hqueue], ?_, hall, hexec, ⟨hvars, hcounter⟩, ?_⟩
      · rw [hlru]
        rfl
      · exact hpaged.setQueue _
  | none =>
      obtain ⟨v, hv, hvall, hcomplete⟩ := hvictim halloc
      obtain ⟨hpaged₁, hlru₁, hqueue₁, hall₁, hexec₁, hvars₁, halloc₁⟩ := h.evict hv hvall hcomplete
      obtain ⟨start, mem, halloc₁⟩ := halloc₁ (pidString pid)
      obtain ⟨k', hload, hqueue, hlru, hall, hexec, hcounter, hvars, hpaged⟩ :=
        hpaged₁.load hpid halloc₁ hbound hnear
      have hfail : loadPage c pid (g pid).loaded k = (1, k) := by
        unfold loadPage
        rw [halloc]
      rw [hfail, if_pos rfl, hload]
      refine ⟨_, rfl, by rw [hqueue, hqueue₁], ?_, hall.trans hall₁, hexec.trans hexec₁,
        ⟨fun x hx => (hvars x hx).trans (hvars₁ x hx), hcounter.trans evictTail_pidCounter⟩, ?_⟩
      · rw [hlru, hlru₁]
        rfl
      · exact hpaged.setQueue _

end Paged

end SimpleShell.A3
