import SimpleShell.A3.ScriptText

/-!
# Demand paging

Scripts that are started together are run as if each had the memory to itself: whatever pages
are loaded and evicted meanwhile, each process runs the lines of its script, once and in order,
and a page leaves only after all its lines were run.
-/

namespace SimpleShell.A3

open SimpleShell.Shell SimpleShell.Lib

/-- The commands of the line start no process. -/
def RunsNoScript (line : CString) : Prop :=
  ∀ segment ∈ segments line, ¬StartsProcess (words segment)

section Lines

variable {c : Sizes} {u : World → Unwritten} {fuel : Nat} {lines : CString → Prop}

theorem parseInput_leavesKernel (h : ∀ line, lines line → RunsNoScript line) :
    LeavesKernel lines c (parseInput c u fuel) := by
  have huntouched : ∀ line, lines line → ∀ k, Untouched c k (parseInput c u fuel line k).2 :=
    fun line hl _ => parseInput_untouched (h line hl)
  exact ⟨fun line hl k => (huntouched line hl k).pcbs, fun line hl k => (huntouched line hl k).queue,
    fun line hl k => (huntouched line hl k).lruCache, fun line hl k => (huntouched line hl k).allPcb,
    fun line hl k => (huntouched line hl k).executed, fun line hl k => (huntouched line hl k).frames⟩

theorem CalmLine.runsNoScript {line : CString} (h : CalmLine line) : RunsNoScript line := by
  rintro segment hsegment ⟨p, hp, hstarts⟩
  exact Verb.Calm.starts ((h segment hsegment).2 p hp) hstarts

end Lines

variable {σ : Type}

/-- `run_proc` is called in state `s`, for process `pid`, in a run from `k`. -/
def Called (parseInput : CString → Kernel σ → Int × Kernel σ) (c : Sizes) (k : Kernel σ) (pid : Nat)
    (s : Kernel σ) : Prop :=
  ∃ k₁, Relation.ReflTransGen (Turn parseInput c) k k₁ ∧ Calls parseInput c k₁ pid s

/-- The page that `run_proc` evicts when it is called for the process. -/
def evicted (parseInput : CString → Kernel σ → Int × Kernel σ) (c : Sizes) (pid : Nat)
    (k : Kernel σ) : Option (Nat × Nat) :=
  let i := nextPage (k.pcbs pid)
  let r := cpuRun parseInput pid i ((k.pcbs pid).programCounter i) k
  let r' := loadPage c pid i r.2
  if r.1 = 1 ∧ r'.1 = 1 then
    r'.2.lruCache.getLast?.map fun v => ((r'.2.page v).pagePid, (r'.2.page v).pageIndex)
  else none

/-- Every line in the frames of the page is one of the lines that were run for its process, which
had run `ran` before. -/
def Spent (ran lines : List CString) (k : Kernel σ) (v : Nat × Nat) : Prop :=
  ∃ n ≤ lines.length, linesOf v.1 k.executed = ran ++ lines.take n ∧
    ∀ j < 3, (k.page v).validBit j = true → 3 * v.2 + j < n ∧
      memGetValueAt k.shellmemory ((k.page v).index j) = lines.getD (3 * v.2 + j) []

section Evicted

variable {c : Sizes} {procs queue : List Nat} {ran : Nat → List CString} {g g₁ : Nat → Progress}
  {k s : Kernel σ} {pid t : Nat} {v : Nat × Nat}
  {parseInput : CString → Kernel σ → Int × Kernel σ}

theorem Midturn.unchanged (h : Midturn c procs queue ran g k pid t g₁ s) (q : Nat) :
    (g₁ q).lines = (g q).lines ∧ (g₁ q).size = (g q).size := by
  by_cases hq : q = pid
  · rw [hq]
    exact ⟨h.lines, h.size⟩
  · rw [h.ne hq]
    exact ⟨rfl, rfl⟩

/-- The page that is evicted is the one used longest ago, and all its lines were run. -/
theorem Rounds.evicted (h : Rounds c procs ran g k) (hqueue : k.queue = pid :: queue)
    (hun₀ : (g pid).Unfinished) (hmid : Midturn c procs queue ran g k pid t g₁ s) (ht : t ≤ 1)
    (hun : (g₁ pid).Unfinished) (hanswer : Answers parseInput pid s)
    (hv : A3.evicted parseInput c pid s = some v) :
    s.lruCache.getLast? = some v ∧ (g₁ v.1).Complete v.2 := by
  have hpid : pid ∈ procs := h.queued pid (by rw [hqueue]; exact List.mem_cons_self)
  obtain ⟨hnext, hplace⟩ := (hmid.paged.process pid hpid).next hun
  unfold A3.evicted at hv
  unfold Answers at hanswer
  dsimp only at hv hanswer
  rw [hnext, hplace] at hv hanswer
  by_cases hin : (g₁ pid).done / 3 < (g₁ pid).loaded
  · -- The line is in memory and does not answer 1.
    obtain ⟨hvalid, -, -⟩ := hmid.paged.fetch hpid hun hin
    rw [if_neg fun h => hanswer hvalid h.1] at hv
    cases hv
  · have hreach := (hmid.paged.ok pid hpid).reach
    have habsent := hmid.paged.absent pid hpid ((g₁ pid).done / 3)
      (fun hmem => hin (hmid.paged.known _ _ hmem).2) ((g₁ pid).done % 3)
    have hrun : cpuRun parseInput pid ((g₁ pid).done / 3) ((g₁ pid).done % 3) s = (1, s) :=
      if_pos habsent
    rw [hrun] at hv
    split at hv
    · next hfails =>
        cases halloc : frameAlloc c s.shellmemory (A2.pidString pid) with
        | some r =>
            have hloads : (loadPage c pid ((g₁ pid).done / 3) s).1 = 0 := by
              unfold loadPage
              rw [halloc]
            rw [hloads] at hfails
            exact absurd hfails.2 (by decide)
        | none =>
            obtain ⟨gap, hgap, hle⟩ := h.recent
            rw [hqueue] at hgap hle
            obtain ⟨-, w, hw, -, hcomplete⟩ := (h.victim hqueue hun₀ hmid ht hun (by
              have := hmid.paged.ok pid hpid
              omega)).2 gap hgap.tail hle halloc
            have hload : loadPage c pid ((g₁ pid).done / 3) s = (1, s) := by
              unfold loadPage
              rw [halloc]
            obtain ⟨hin, -⟩ := hmid.paged.known w.1 w.2 (List.mem_of_getLast? hw)
            obtain ⟨hpagePid, hpageIndex⟩ := (hmid.paged.process w.1 hin).page w.2
            rw [hload, hw, Option.map_some, hpagePid, hpageIndex] at hv
            obtain rfl := Option.some.inj hv
            exact ⟨hw, hcomplete⟩
    · cases hv

/-- The lines of a page of which every line was run. -/
theorem Paged.spent (h : Paged c procs g s) (htraced : Traced ran g s.executed)
    (hv : v ∈ s.lruCache) (hcomplete : (g v.1).Complete v.2)
    (hwhole : (g v.1).size = (g v.1).lines.length) : Spent (ran v.1) (g v.1).lines s v := by
  obtain ⟨hpid, -⟩ := h.known v.1 v.2 hv
  obtain ⟨m, -, hin⟩ := h.frames v.1 v.2 hv
  have hle := (h.ok v.1 hpid).le
  refine ⟨(g v.1).done, by omega, htraced v.1, fun j hj hvalid => ?_⟩
  rw [hin.valid j hj, decide_eq_true_iff] at hvalid
  unfold Progress.Complete at hcomplete
  refine ⟨by omega, ?_⟩
  rw [hin.index]
  exact hin.value j hj hvalid

end Evicted

/-! ## Scripts that are started together -/

section Started

variable {c : Sizes} {procs : List Nat} {ran : Nat → List CString} {g : Nat → Progress}
  {k k₁ s : Kernel σ} {pid first : Nat} {v : Nat × Nat} {texts : List CString}
  {parseInput : CString → Kernel σ → Int × Kernel σ} {kind : CString → Prop}

/-- Where `run_proc` is called, the pages are as they should be. -/
theorem Rounds.called (h : Rounds c procs ran g k) (ho : LeavesKernel kind c parseInput)
    (hkind : ∀ q, ∀ l ∈ (g q).lines, kind l) (hret : RunReturns parseInput c k)
    (hcalled : Called parseInput c k pid s) (hv : A3.evicted parseInput c pid s = some v) :
    ∃ g₁, (∀ q, (g₁ q).lines = (g q).lines ∧ (g₁ q).size = (g q).size) ∧ Paged c procs g₁ s ∧
      Traced ran g₁ s.executed ∧ s.lruCache.getLast? = some v ∧ (g₁ v.1).Complete v.2 := by
  obtain ⟨k₁, hturns, hcalls⟩ := hcalled
  have hreturns := hret k₁ hturns
  obtain ⟨g', hlines', h'⟩ := h.steps ho hkind hret hturns
  have hkind' : ∀ q, ∀ l ∈ (g' q).lines, kind l := fun q l hl => hkind q l ((hlines' q).1 ▸ hl)
  obtain ⟨hstopped, hdone, queue, hqueue, hs⟩ := hcalls
  have hcall := fun s hs => hreturns pid s ⟨hstopped, hdone, queue, hqueue, hs⟩
  obtain ⟨hun₀, t, ht, g₁, hmid, hun⟩ := h'.callStates hqueue ho (hkind' pid)
    (fun hun => hcall _ (h'.mem_callStates hqueue hun)) hs
  obtain ⟨hlast, hcomplete⟩ := h'.evicted hqueue hun₀ hmid ht hun (hcall s hs).answers hv
  exact ⟨g₁, fun q => ⟨(hmid.unchanged q).1.trans (hlines' q).1,
    (hmid.unchanged q).2.trans (hlines' q).2⟩, hmid.paged, hmid.traced, hlast, hcomplete⟩

/-- The run of well counted scripts: it ends, every line was run, and pages were evicted only when
all their lines had been. -/
theorem Idle.demandPaging (hi : Idle c k) (ho : LeavesKernel (LineOf texts) c parseInput)
    (hok : ∀ text ∈ texts, WellCounted text) (halloc : (newProcs c texts k).stopped = false)
    (hret : RunReturns parseInput c (newProcs c texts k)) :
    (∃ n k', runProcRR parseInput c n (newProcs c texts k) = some k' ∧ k'.stopped = false ∧
      ∀ i < texts.length, linesOf (k.pidCounter + i) k'.executed =
        linesOf (k.pidCounter + i) k.executed ++ delivered (texts.getD i [])) ∧
    ∀ pid s, Called parseInput c (newProcs c texts k) pid s →
      ∀ v, evicted parseInput c pid s = some v → ∃ i < texts.length, v.1 = k.pidCounter + i ∧
        Spent (linesOf v.1 k.executed) (delivered (texts.getD i [])) s v := by
  have hsupplied := fun text htext => (hok text htext).supplied
  obtain ⟨g, hg, -, -, hlines, hsizes⟩ := hi.rounds hsupplied (hi.room hsupplied halloc)
  have hkind := lineOf_scriptOf hlines
  have hscript : ∀ i, scriptOf k.pidCounter texts (k.pidCounter + i) =
      delivered (texts.getD i []) := fun i => by
    rw [scriptOf, if_neg (Nat.not_lt.2 (Nat.le_add_right ..)), Nat.add_sub_cancel_left]
  refine ⟨?_, fun pid s hcalled v hv => ?_⟩
  · obtain ⟨n, k₁, hturns, hdone, hrun⟩ := hg.run ho _ hkind hret (Nat.le_refl _)
    obtain ⟨g₁, hlines₁, h₁⟩ := hg.steps ho hkind hret hturns
    refine ⟨n, rrEnd k₁, hrun, h₁.paged.stopped, fun i hlt => (h₁.traced _).trans ?_⟩
    have hmem : k.pidCounter + i ∈ List.range' k.pidCounter texts.length :=
      List.mem_range'_1.2 ⟨Nat.le_add_right .., Nat.add_lt_add_left hlt _⟩
    have hwhole := wellCounted_size hok hlines hsizes hmem
    rw [h₁.finished hdone hmem, (hlines₁ _).2, hwhole, ← (hlines₁ _).1, List.take_length,
      (hlines₁ _).1, hlines, hscript]
  · obtain ⟨g₁, hsame, hpaged, htraced, hlast, hcomplete⟩ := hg.called ho hkind hret hcalled hv
    have hin := List.mem_of_getLast? hlast
    have hmem := (hpaged.known v.1 v.2 hin).1
    have hspent := hpaged.spent htraced hin hcomplete (by
      rw [(hsame _).1, (hsame _).2]
      exact wellCounted_size hok hlines hsizes hmem)
    rw [List.mem_range'_1] at hmem
    have hlt : v.1 - k.pidCounter < texts.length := by omega
    have hpid : v.1 = k.pidCounter + (v.1 - k.pidCounter) := by omega
    rw [(hsame _).1, hlines, hpid, hscript, ← hpid] at hspent
    exact ⟨_, hlt, hpid, hspent⟩

/-- Ordinary lines return in the whole run, and it starts. -/
theorem Idle.runReturns (hi : Idle c k) (ho : Ordinary (LineOf texts) c parseInput)
    (hok : ∀ text ∈ texts, Supplied text) (hroom : 3 * firstPages texts ≤ c.FRAME_STORE_SIZE) :
    (newProcs c texts k).stopped = false ∧ RunReturns parseInput c (newProcs c texts k) := by
  obtain ⟨g, hg, -, -, hlines, -⟩ := hi.rounds hok hroom
  exact ⟨hg.paged.stopped, hg.runReturns ho (lineOf_scriptOf hlines)⟩

end Started

section Transparent

variable {c : Sizes} {u : World → Unwritten} {fuel : Nat} {k : Kernel Machine}

theorem getD_texts {scripts : List (List CString)} {i : Nat} (hi : i < scripts.length) :
    (scripts.map scriptText).getD i [] = scriptText (scripts.getD i []) ∧
      scripts.getD i [] ∈ scripts := by
  rw [List.getD_eq_getElem?_getD, List.getD_eq_getElem?_getD, List.getElem?_map,
    List.getElem?_eq_getElem hi]
  exact ⟨rfl, List.getElem_mem hi⟩

/-- Demand paging is transparent to the scripts. Whatever pages are loaded and evicted, each
process runs the lines of its script, once and in order, and a page is evicted only after all
lines in it were run. -/
theorem demandPaging_transparent {scripts : List (List CString)} (hi : Idle c k)
    (hscripts : ∀ lines ∈ scripts, ScriptLines lines ∧ ∀ line ∈ lines, line.length < 998)
    (hplain : ∀ lines ∈ scripts, ∀ line ∈ fileLines lines, RunsNoScript line)
    (halloc : (newProcs c (scripts.map scriptText) k).stopped = false)
    (hret : RunReturns (A3.parseInput c u fuel) c (newProcs c (scripts.map scriptText) k)) :
    (∃ n k', runProcRR (A3.parseInput c u fuel) c n (newProcs c (scripts.map scriptText) k) =
        some k' ∧ k'.stopped = false ∧
      ∀ i < scripts.length, linesOf (k.pidCounter + i) k'.executed =
        linesOf (k.pidCounter + i) k.executed ++ fileLines (scripts.getD i [])) ∧
    ∀ pid s, Called (A3.parseInput c u fuel) c (newProcs c (scripts.map scriptText) k) pid s →
      ∀ v, evicted (A3.parseInput c u fuel) c pid s = some v →
        ∃ i < scripts.length, v.1 = k.pidCounter + i ∧
          Spent (linesOf v.1 k.executed) (fileLines (scripts.getD i [])) s v := by
  have hdelivered : ∀ lines ∈ scripts, delivered (scriptText lines) = fileLines lines :=
    fun lines hl => (hscripts lines hl).1.delivered (hscripts lines hl).2
  have hgetD : ∀ i, i < scripts.length →
      delivered ((scripts.map scriptText).getD i []) = fileLines (scripts.getD i []) := by
    intro i hlt
    obtain ⟨htext, hmem⟩ := getD_texts hlt
    rw [htext, hdelivered _ hmem]
  have hleaves : LeavesKernel (LineOf (scripts.map scriptText)) c (A3.parseInput c u fuel) := by
    refine parseInput_leavesKernel ?_
    rintro line ⟨text, htext, hline⟩
    obtain ⟨lines, hl, rfl⟩ := List.mem_map.1 htext
    rw [hdelivered lines hl] at hline
    exact hplain lines hl line hline
  have hcounted : ∀ text ∈ scripts.map scriptText, WellCounted text := by
    intro text htext
    obtain ⟨lines, hl, rfl⟩ := List.mem_map.1 htext
    exact (hscripts lines hl).1.wellCounted (hscripts lines hl).2
  obtain ⟨⟨n, k', hrun, hgoes, hlines⟩, hevicted⟩ := hi.demandPaging hleaves hcounted halloc hret
  rw [List.length_map] at hlines hevicted
  refine ⟨⟨n, k', hrun, hgoes, fun i hlt => ?_⟩, fun pid s hcalled v hv => ?_⟩
  · rw [hlines i hlt, hgetD i hlt]
  · obtain ⟨i, hlt, hpid, hspent⟩ := hevicted pid s hcalled v hv
    rw [hgetD i hlt] at hspent
    exact ⟨i, hlt, hpid, hspent⟩

end Transparent

/-! ## Two scripts of three pages in frames for four -/

def pagedLines : List CString :=
  ["set x 1", "print x", "echo a", "echo b", "set y 2", "print y", "echo c", "help"].map
    String.toList

theorem scriptLines_paged :
    ScriptLines pagedLines ∧ ∀ line ∈ pagedLines, line.length < 998 :=
  ⟨⟨by decide, by decide, by decide⟩, by decide⟩

theorem calm_paged : ∀ line ∈ fileLines pagedLines,
    CalmLine line ∧ (segments line).length < 3 := by decide

def pagedTexts : List CString := [pagedLines, pagedLines].map scriptText

/-- A shell that has formatted its disk. -/
def pagedStart : Kernel Machine :=
  kernelStart ⟨⟨(Fs.filesysInit true (Fs.blankDisk 4) fun _ => 0).2, fun _ => none, 1⟩, []⟩

def pagedUnwritten (_ : World) : Unwritten where
  junk := ⟨[], fun _ => [], fun _ => []⟩
  sectors _ := ⟨.zeros, []⟩
  leftover _ := ⟨List.replicate Fs.BLOCK_SECTOR_SIZE 120, by rw [List.length_replicate]⟩
  copied := []
  opens _ := true

def pagedParse : CString → Kernel Machine → Int × Kernel Machine :=
  parseInput ⟨12, 10⟩ pagedUnwritten 3

/-- Before the seventh turn process 1 has run its first two pages. -/
def afterSix : Kernel Machine :=
  afterTurns pagedParse ⟨12, 10⟩ 6 (newProcs ⟨12, 10⟩ pagedTexts pagedStart)

theorem turns_afterSix : Relation.ReflTransGen (Turn pagedParse ⟨12, 10⟩)
    (newProcs ⟨12, 10⟩ pagedTexts pagedStart) afterSix :=
  turns_afterTurns (by decide +kernel)

/-- In the seventh turn it comes to its third page, for which there are no frames. -/
theorem calls_afterSix : Called pagedParse ⟨12, 10⟩ (newProcs ⟨12, 10⟩ pagedTexts pagedStart) 1
      { afterSix with queue := [2] } ∧
    evicted pagedParse ⟨12, 10⟩ 1 { afterSix with queue := [2] } = some (1, 0) :=
  ⟨⟨afterSix, turns_afterSix, by decide +kernel, by decide +kernel, [2], by decide +kernel,
    mem_callStates_first (by decide +kernel)⟩, by decide +kernel⟩

/-- What is asked of the scripts and of the lines in the run. -/
theorem paged_runs :
    (∀ lines ∈ [pagedLines, pagedLines], ScriptLines lines ∧ ∀ line ∈ lines, line.length < 998) ∧
    (∀ lines ∈ [pagedLines, pagedLines], ∀ line ∈ fileLines lines, RunsNoScript line) ∧
    (newProcs ⟨12, 10⟩ pagedTexts pagedStart).stopped = false ∧
    RunReturns pagedParse ⟨12, 10⟩ (newProcs ⟨12, 10⟩ pagedTexts pagedStart) := by
  have hsame : ∀ lines ∈ [pagedLines, pagedLines], lines = pagedLines := fun lines hl =>
    (List.mem_pair.1 hl).elim id id
  have htext : ∀ text ∈ pagedTexts, text = scriptText pagedLines := fun text ht =>
    (List.mem_pair.1 ht).elim id id
  have hdelivered := scriptLines_paged.1.delivered scriptLines_paged.2
  refine ⟨fun lines hl => hsame lines hl ▸ scriptLines_paged, fun lines hl line hline => ?_,
    (idle_kernelStart _).runReturns (parseInput_ordinary ?_)
      (fun text ht => htext text ht ▸ scriptLines_paged.1.supplied) (by decide)⟩
  · rw [hsame lines hl] at hline
    exact (calm_paged line hline).1.runsNoScript
  · rintro line ⟨text, ht, hline⟩
    rw [htext text ht, hdelivered] at hline
    exact calm_paged line hline

theorem demandPaging_transparent_paged :
    (∃ n k', runProcRR pagedParse ⟨12, 10⟩ n (newProcs ⟨12, 10⟩ pagedTexts pagedStart) = some k' ∧
      linesOf 1 k'.executed = fileLines pagedLines ∧
      linesOf 2 k'.executed = fileLines pagedLines) ∧
    ∃ s, Called pagedParse ⟨12, 10⟩ (newProcs ⟨12, 10⟩ pagedTexts pagedStart) 1 s ∧
      evicted pagedParse ⟨12, 10⟩ 1 s = some (1, 0) ∧
      Spent [] (fileLines pagedLines) s (1, 0) := by
  obtain ⟨hscripts, hplain, halloc, hret⟩ := paged_runs
  obtain ⟨⟨n, k', hrun, -, hlines⟩, hevicted⟩ :=
    @demandPaging_transparent ⟨12, 10⟩ pagedUnwritten 3 pagedStart [pagedLines, pagedLines]
      (idle_kernelStart _) hscripts hplain halloc hret
  refine ⟨⟨n, k', hrun, hlines 0 (by decide), hlines 1 (by decide)⟩,
    _, calls_afterSix.1, calls_afterSix.2, ?_⟩
  obtain ⟨i, -, hpid, hspent⟩ := hevicted 1 _ calls_afterSix.1 _ calls_afterSix.2
  obtain rfl : i = 0 := by
    have hpid' : 1 = 1 + i := hpid
    omega
  exact hspent

end SimpleShell.A3
