import SimpleShell.A3.Exec

/-!
# What `free_PCB` clears

`free_PCB` calls `clear_frame`, which clears three frames, for each of the three frames of a page,
and so two slots beyond the page. Where the page has the last frames these are the first two
variables, or one of them if the last frame belongs to no page. Pages are loaded into the first
free frames and leave only when all are taken, so that this happens exactly when there are as many
pages as there is room for.
-/

namespace SimpleShell.A3

open SimpleShell.Shell SimpleShell.Lib

/-- The pages of all scripts. -/
def allPages (scripts : List CString) : Nat :=
  (scripts.map fun script => pageTableSize (countLines script)).sum

section Cleanup

variable {σ : Type} {c : Sizes} {procs : List Nat} {ran : Nat → List CString}
  {g : Nat → Progress} {k k' : Kernel σ} {parseInput : CString → Kernel σ → Int × Kernel σ}

/-- No turn changes a variable, unless a command does. -/
theorem Rounds.vars {kind : CString → Prop} (h : Rounds c procs ran g k)
    (ho : LeavesKernel kind c parseInput) (hkind : ∀ q, ∀ l ∈ (g q).lines, kind l)
    (hret : RunReturns parseInput c k) (hkeep : KeepsVars kind c parseInput)
    (hturns : Relation.ReflTransGen (Turn parseInput c) k k') {x : Nat}
    (hx : c.FRAME_STORE_SIZE ≤ x) : k'.shellmemory x = k.shellmemory x := by
  induction hturns with
  | refl => rfl
  | tail hturns hturn ih =>
      obtain ⟨g₁, hlines₁, h₁⟩ := h.steps ho hkind hret hturns
      cases hturn with
      | @head pid queue hstopped hdone hqueue =>
          obtain ⟨p', -, -, -, hvars, -⟩ := h₁.turn ho
            (fun q l hl => hkind q l ((hlines₁ q).1 ▸ hl)) (hret _ hturns) hdone hqueue
          rw [hvars hkeep x hx, ih]

/-- If no page has left there are as many in memory as were loaded. -/
theorem Paged.le_length (hprocs : procs.Nodup)
    (hall : ∀ pid ∈ procs, ∀ i, i < (g pid).loaded → (pid, i) ∈ k.lruCache) :
    pagesLoaded g procs ≤ k.lruCache.length := by
  have hnodup : (procs.flatMap fun pid =>
      (List.range (g pid).loaded).map fun i => (pid, i)).Nodup := by
    rw [List.nodup_flatMap]
    refine ⟨fun pid _ => List.nodup_range.map fun i j heq => congrArg Prod.snd heq,
      hprocs.imp fun {p q} hne => ?_⟩
    intro x hp hq
    obtain ⟨i, -, rfl⟩ := List.mem_map.1 hp
    obtain ⟨j, -, heq⟩ := List.mem_map.1 hq
    exact hne (congrArg Prod.fst heq).symm
  have hsub : (procs.flatMap fun pid => (List.range (g pid).loaded).map fun i => (pid, i)) ⊆
      k.lruCache := by
    intro p hp
    obtain ⟨pid, hpid, hp⟩ := List.mem_flatMap.1 hp
    obtain ⟨i, hi, rfl⟩ := List.mem_map.1 hp
    exact hall pid hpid i (List.mem_range.1 hi)
  have hlen := (List.subperm_of_subset hnodup hsub).length_le
  simpa [List.length_flatMap, pagesLoaded] using hlen

/-- When there is no room for another page, one has the last frames. -/
theorem Paged.last (h : Paged c procs g k) (hfull : c.FRAME_STORE_SIZE / 3 ≤ k.lruCache.length)
    (hsize : 3 ≤ c.FRAME_STORE_SIZE) :
    ∃ p ∈ k.lruCache, (k.page p).index 0 = 3 * (c.FRAME_STORE_SIZE / 3 - 1) := by
  by_contra hno
  have hinj : ∀ p ∈ k.lruCache, ∀ q ∈ k.lruCache,
      (k.page p).index 0 / 3 = (k.page q).index 0 / 3 → p = q := by
    intro p hp q hq heq
    obtain ⟨m, -, hm, -⟩ := h.slot hp
    obtain ⟨n, -, hn, -⟩ := h.slot hq
    exact h.apart p hp q hq (by omega)
  have hsub : (k.lruCache.map fun p => (k.page p).index 0 / 3) ⊆
      List.range (c.FRAME_STORE_SIZE / 3 - 1) := by
    intro n hn
    obtain ⟨p, hp, rfl⟩ := List.mem_map.1 hn
    obtain ⟨m, hroom, hm, -⟩ := h.slot hp
    have hne : (k.page p).index 0 ≠ 3 * (c.FRAME_STORE_SIZE / 3 - 1) := fun heq =>
      hno ⟨p, hp, heq⟩
    rw [List.mem_range]
    omega
  have hlen := (List.subperm_of_subset (h.nodup.map_on fun p hp q hq => hinj p hp q hq)
    hsub).length_le
  rw [List.length_map, List.length_range] at hlen
  omega

/-- The variables that are cleared when all processes are done. -/
theorem Rounds.cleared_iff (h : Rounds c procs ran g k) (hprocs : procs.Nodup)
    (hsize : 3 ≤ c.FRAME_STORE_SIZE)
    (hdone : ∀ pid ∈ procs, (g pid).done = (g pid).size) {x : Nat}
    (hx : c.FRAME_STORE_SIZE ≤ x) :
    x ∈ clearedSlots k ↔ c.FRAME_STORE_SIZE / 3 ≤ pagesLoaded g procs ∧
      x < 3 * (c.FRAME_STORE_SIZE / 3) + 2 := by
  rw [mem_clearedSlots, h.allPcb]
  constructor
  · rintro ⟨pid, hpid, i, hi, j, hj, hle, hlt⟩
    have hok := h.paged.ok pid hpid
    have hreach := hok.reach
    obtain ⟨-, hpages⟩ := pageTableSize_spec (g pid).size
    have hall := hdone pid hpid
    rw [(h.paged.process pid hpid).pages, Progress.pages] at hi
    -- A page that has left has frame 0 in its table.
    have hmem : (pid, i) ∈ k.lruCache := by
      by_contra hout
      rw [h.paged.zero pid hpid i (by omega) hout] at hlt
      omega
    obtain ⟨m, hroom, hin⟩ := h.paged.frames pid i hmem
    have hlow := h.paged.low _ hmem
    rw [hin.index] at hle hlt hlow
    omega
  · rintro ⟨hmany, hlt⟩
    have hfull : c.FRAME_STORE_SIZE / 3 ≤ k.lruCache.length := by
      rcases h.spill with hfull | hall
      · exact hfull
      · exact hmany.trans (Paged.le_length hprocs hall)
    obtain ⟨p, hp, hindex⟩ := h.paged.last hfull hsize
    obtain ⟨hpid, hloaded⟩ := h.paged.known p.1 p.2 hp
    obtain ⟨m, -, hin⟩ := h.paged.frames p.1 p.2 hp
    have hbound := (h.paged.ok p.1 hpid).bound
    have hm := hin.index 0
    have htwo := hin.index 2
    rw [hindex] at hm
    refine ⟨p.1, hpid, p.2, ?_, 2, by decide, ?_, ?_⟩
    · rw [(h.paged.process p.1 hpid).pages]
      omega
    · rw [htwo]
      omega
    · rw [htwo]
      omega

theorem pagesLoaded_allPages {first : Nat} {scripts : List CString}
    (hloaded : ∀ i, i < scripts.length →
      (g (first + i)).loaded = pageTableSize (countLines (scripts.getD i []))) :
    pagesLoaded g (List.range' first scripts.length) = allPages scripts := by
  unfold pagesLoaded allPages
  congr 1
  refine List.ext_getElem (by simp) fun i hi hi' => ?_
  have hlt : i < scripts.length := by simpa using hi
  have hget : scripts.getD i [] = scripts[i] := by
    rw [List.getD_eq_getElem?_getD, List.getElem?_eq_getElem hlt, Option.getD_some]
  rw [List.getElem_map, List.getElem_map, List.getElem_range', Nat.one_mul, hloaded i hlt, hget]

/-- `exec` of scripts whose commands set no variables clears the variables in the two slots after
the last page of frames if the scripts have as many pages as there is room for, and leaves the
others alone. -/
theorem exec_clears {scripts : List CString} (hi : Idle c k)
    (ho : Ordinary (LineOf scripts) c parseInput) (hkeep : KeepsVars (LineOf scripts) c parseInput)
    (hne : scripts ≠ []) (hlen : scripts.length ≤ 3)
    (hok : ∀ script ∈ scripts, WellCounted script)
    (hroom : 3 * firstPages scripts ≤ c.FRAME_STORE_SIZE) :
    ∃ fuel k', exec parseInput c fuel scripts k = some (0, k') ∧
      ∀ x, c.FRAME_STORE_SIZE ≤ x → k'.shellmemory x =
        if c.FRAME_STORE_SIZE / 3 ≤ allPages scripts ∧ x < 3 * (c.FRAME_STORE_SIZE / 3) + 2 then
          ⟨noneText, noneText⟩ else k.shellmemory x := by
  obtain ⟨g, hg, -, hvars, hlines, hsizes⟩ :=
    hi.rounds (fun script hs => (hok script hs).supplied) hroom
  have hkind := lineOf_scriptOf hlines
  have hret := hg.runReturns ho hkind
  obtain ⟨fuel, k₁, hturns, hdone, hrun⟩ := hg.run ho.leavesKernel _ hkind hret (Nat.le_refl _)
  obtain ⟨g₁, hlines₁, h₁⟩ := hg.steps ho.leavesKernel hkind hret hturns
  have hprocs : (List.range' k.pidCounter scripts.length).Nodup := List.nodup_range'
  have hall := fun pid hpid => @Rounds.finished σ c _ _ g₁ k₁ pid h₁ hdone hpid
  have hsize : 3 ≤ c.FRAME_STORE_SIZE := by
    obtain ⟨script, hscript⟩ := List.exists_mem_of_ne_nil scripts hne
    have hone : 1 ≤ firstPages scripts := by
      unfold firstPages
      refine le_trans ?_ (List.single_le_sum (fun _ _ => Nat.zero_le _) _
        (List.mem_map_of_mem hscript))
      obtain ⟨hpages, -⟩ := pageTableSize_spec (countLines script)
      have hpos : 1 ≤ countLines script := Nat.le_add_left 1 _
      omega
    omega
  have htotal : pagesLoaded g₁ (List.range' k.pidCounter scripts.length) = allPages scripts := by
    refine pagesLoaded_allPages fun i hlt => ?_
    have hpid : k.pidCounter + i ∈ List.range' k.pidCounter scripts.length :=
      List.mem_range'_1.2 ⟨Nat.le_add_right .., Nat.add_lt_add_left hlt _⟩
    have hfinished := hall _ hpid
    have hloaded := h₁.paged.ok _ hpid
    have hreach := hloaded.reach
    have hbound := hloaded.bound
    obtain ⟨-, hpages⟩ := pageTableSize_spec (g₁ (k.pidCounter + i)).size
    rw [← hsizes i hlt, ← (hlines₁ _).2]
    unfold Progress.pages at hbound
    omega
  refine ⟨fuel, rrEnd k₁, ?_, fun x hx => ?_⟩
  · unfold A3.exec
    rw [if_neg (by omega), hrun]
    rfl
  · have hcleared := h₁.cleared_iff hprocs hsize hall hx
    rw [htotal] at hcleared
    rw [rrEnd_memory, hg.vars ho.leavesKernel hkind hret hkeep hturns hx, hvars x hx]
    simp only [hcleared]

/-- Every slot after the 18 frames holds the variable `x`. -/
def variablesStart : Kernel Unit :=
  { kernelStart () with
    shellmemory := fun i => if i < 18 then ⟨noneText, noneText⟩ else ⟨"x".toList, "1".toList⟩ }

/-- Two scripts of three pages in 18 frames: the first variable is lost, the third is not. -/
theorem exec_clears_eight : ∃ fuel k',
    exec doNothing ⟨18, 10⟩ fuel [eightLines, eightLines] variablesStart = some (0, k') ∧
    k'.shellmemory 18 = ⟨noneText, noneText⟩ ∧ k'.shellmemory 20 = ⟨"x".toList, "1".toList⟩ := by
  have hidle : Idle ⟨18, 10⟩ variablesStart := ⟨rfl, rfl, rfl, rfl, fun i hi => by
    show (if i < 18 then _ else _ : MemoryStruct).var = _
    rw [if_pos hi]⟩
  obtain ⟨fuel, k', hexec, hslot⟩ := @exec_clears Unit ⟨18, 10⟩ variablesStart doNothing [eightLines, eightLines] hidle
    ordinary_doNothing (fun _ _ _ _ _ => rfl) (List.cons_ne_nil _ _)
    (by decide) (fun script hscript => by
      simp only [List.mem_cons, List.not_mem_nil, or_false, or_self] at hscript
      rw [hscript]
      exact wellCounted_eight) (by decide)
  exact ⟨fuel, k', hexec, (hslot 18 (by decide)).trans (if_pos (by decide)),
    (hslot 20 (by decide)).trans (if_neg (by decide))⟩

end Cleanup

end SimpleShell.A3
