import SimpleShell.A3.Exec

/-!
# Scripts as lists of lines

The text of a script that has no blank line and no newline after its last line: `count_lines`
counts its lines, and `fgets` delivers them, each of them whole where it is shorter than 998
characters. The processes of such scripts get their first pages, or `PCB_init` ends the shell.
-/

namespace SimpleShell.A3

open SimpleShell.Shell SimpleShell.Lib
open SimpleShell.A2 (pidString textLines textLines_eq_nil)

/-- The text of a script: its lines with newlines between them. -/
def scriptText (lines : List CString) : CString := ['\n'].intercalate lines

/-- The lines with the newlines that end them. -/
def fileLines : List CString → List CString
  | [] => []
  | [line] => [line]
  | line :: next :: lines => (line ++ ['\n']) :: fileLines (next :: lines)

structure ScriptLines (lines : List CString) : Prop where
  some_line : lines ≠ []
  nonblank : ∀ line ∈ lines, line ≠ []
  newline : ∀ line ∈ lines, '\n' ∉ line

section Text

variable {line : CString} {lines : List CString}

theorem textLines_front (hline : '\n' ∉ line) (rest : CString) :
    textLines (line ++ '\n' :: rest) = (line ++ ['\n']) :: textLines rest := by
  induction line with
  | nil => rfl
  | cons letter line ih =>
      rw [List.mem_cons, not_or] at hline
      rw [List.cons_append, textLines, if_neg fun h => hline.1 h.symm, ih hline.2]
      rfl

theorem textLines_last (hline : '\n' ∉ line) (hne : line ≠ []) : textLines line = [line] := by
  induction line with
  | nil => exact absurd rfl hne
  | cons letter line ih =>
      rw [List.mem_cons, not_or] at hline
      rw [textLines, if_neg fun h => hline.1 h.symm]
      cases line with
      | nil => rfl
      | cons second line => rw [ih hline.2 (List.cons_ne_nil _ _)]

theorem scriptText_cons (line next : CString) (lines : List CString) :
    scriptText (line :: next :: lines) = line ++ '\n' :: scriptText (next :: lines) := by
  unfold scriptText List.intercalate
  rw [List.intersperse_cons_cons, List.flatten_cons, List.flatten_cons]
  rfl

theorem scriptText_singleton (line : CString) : scriptText [line] = line := List.append_nil line

@[simp] theorem length_fileLines (lines : List CString) :
    (fileLines lines).length = lines.length := by
  induction lines using fileLines.induct with
  | case1 => rfl
  | case2 line => rfl
  | case3 line next lines ih =>
      rw [fileLines, List.length_cons, ih]
      rfl

theorem ScriptLines.tail {next : CString} (h : ScriptLines (line :: next :: lines)) :
    ScriptLines (next :: lines) :=
  ⟨List.cons_ne_nil _ _, fun l hl => h.nonblank l (List.mem_cons_of_mem _ hl),
    fun l hl => h.newline l (List.mem_cons_of_mem _ hl)⟩

theorem textLines_scriptText (h : ScriptLines lines) :
    textLines (scriptText lines) = fileLines lines := by
  induction lines using fileLines.induct with
  | case1 => exact absurd rfl h.some_line
  | case2 line =>
      rw [scriptText_singleton, fileLines]
      exact textLines_last (h.newline line List.mem_cons_self) (h.nonblank line List.mem_cons_self)
  | case3 line next lines ih =>
      rw [scriptText_cons, textLines_front (h.newline line List.mem_cons_self), ih h.tail, fileLines]

theorem openEnd_scriptText (h : ScriptLines lines) : openEnd (scriptText lines) = 1 := by
  induction lines using fileLines.induct with
  | case1 => exact absurd rfl h.some_line
  | case2 line =>
      rw [scriptText_singleton]
      exact openEnd_line (h.newline line List.mem_cons_self) (h.nonblank line List.mem_cons_self)
  | case3 line next lines ih =>
      rw [scriptText_cons, ← List.singleton_append, ← List.append_assoc, openEnd_append, ih h.tail]

theorem blankLines_scriptText (h : ScriptLines lines) : blankLines (scriptText lines) = 0 := by
  unfold blankLines
  rw [textLines_scriptText h, List.count_eq_zero]
  induction lines using fileLines.induct with
  | case1 => exact absurd rfl h.some_line
  | case2 line =>
      intro hmem
      have hnl := h.newline line List.mem_cons_self
      rw [← List.mem_singleton.1 hmem] at hnl
      exact hnl List.mem_cons_self
  | case3 line next lines ih =>
      rw [fileLines, List.mem_cons, not_or]
      refine ⟨fun heq => h.nonblank line List.mem_cons_self ?_, ih h.tail⟩
      simpa using heq.symm

theorem countLines_scriptText (h : ScriptLines lines) :
    countLines (scriptText lines) = lines.length := by
  have hadd := countLines_add (scriptText lines)
  rw [blankLines_scriptText h, openEnd_scriptText h, textLines_scriptText h, length_fileLines] at hadd
  omega

theorem ScriptLines.supplied (h : ScriptLines lines) : Supplied (scriptText lines) := by
  unfold Supplied
  rw [countLines_scriptText h, ← length_fileLines, ← textLines_scriptText h]
  exact length_le_delivered _

theorem shortLine (hshort : line.length < 998) :
    ShortLine line ∧ ShortLine (line ++ ['\n']) := by
  have hle := (List.takeWhile_sublist (l := line) (· ≠ '\n')).length_le
  refine ⟨Nat.lt_of_le_of_lt hle hshort, ?_⟩
  unfold ShortLine
  rw [List.takeWhile_append]
  split
  · rw [List.length_append]
    exact hshort
  · exact Nat.lt_of_le_of_lt hle hshort

theorem fileLines_short (hshort : ∀ line ∈ lines, line.length < 998) :
    ∀ line ∈ fileLines lines, ShortLine line := by
  induction lines using fileLines.induct with
  | case1 => exact nofun
  | case2 line => exact fun l hl => (List.mem_singleton.1 hl) ▸ (shortLine (hshort line List.mem_cons_self)).1
  | case3 line next lines ih =>
      rw [fileLines, List.forall_mem_cons]
      exact ⟨(shortLine (hshort line List.mem_cons_self)).2,
        ih fun l hl => hshort l (List.mem_cons_of_mem _ hl)⟩

theorem ScriptLines.delivered (h : ScriptLines lines) (hshort : ∀ line ∈ lines, line.length < 998) :
    A3.delivered (scriptText lines) = fileLines lines := by
  rw [delivered_eq, textLines_scriptText h]
  rw [textLines_scriptText h]
  exact fileLines_short hshort

theorem ScriptLines.wellCounted (h : ScriptLines lines)
    (hshort : ∀ line ∈ lines, line.length < 998) : WellCounted (scriptText lines) := by
  refine ⟨?_, ?_⟩
  · rw [textLines_scriptText h]
    exact fileLines_short hshort
  · rw [h.delivered hshort, countLines_scriptText h, length_fileLines]

end Text

/-! ## The first pages -/

section Start

variable {σ : Type} {c : Sizes} {procs : List Nat} {ran : Nat → List CString}
  {g : Nat → Progress} {k : Kernel σ} {pid : Nat}

/-- Nothing but frames and tables changes when a page is loaded. -/
theorem loadPage_kept (pid i : Nat) (k : Kernel σ) :
    (loadPage c pid i k).2.stopped = k.stopped ∧ (loadPage c pid i k).2.lruCache = k.lruCache ∧
      (loadPage c pid i k).2.pidCounter = k.pidCounter := by
  unfold loadPage
  split
  · exact ⟨rfl, rfl, rfl⟩
  · exact ⟨rfl, rfl, rfl⟩

theorem initPage_kept (pid i : Nat) (k : Kernel σ) :
    (k.stopped = true → (initPage c pid k i).stopped = true) ∧
      (initPage c pid k i).lruCache = k.lruCache ∧
      (initPage c pid k i).pidCounter = k.pidCounter := by
  obtain ⟨hstopped, hlru, hcounter⟩ := loadPage_kept (c := c) pid i k
  unfold initPage
  dsimp only
  split
  · exact ⟨fun _ => rfl, hlru, hcounter⟩
  · exact ⟨hstopped.trans, hlru, hcounter⟩

theorem initPages_kept (pid : Nat) (pages : List Nat) (k : Kernel σ) :
    (k.stopped = true → (pages.foldl (initPage c pid) k).stopped = true) ∧
      (pages.foldl (initPage c pid) k).lruCache = k.lruCache ∧
      (pages.foldl (initPage c pid) k).pidCounter = k.pidCounter := by
  induction pages generalizing k with
  | nil => exact ⟨id, rfl, rfl⟩
  | cons i pages ih =>
      obtain ⟨hstopped, hlru, hcounter⟩ := initPage_kept (c := c) pid i k
      obtain ⟨hstopped', hlru', hcounter'⟩ := ih (initPage c pid k i)
      exact ⟨fun h => hstopped' (hstopped h), hlru'.trans hlru, hcounter'.trans hcounter⟩

/-- Once the shell has ended it adds no process. -/
theorem newProcs_stopped (scripts : List CString) (hstopped : k.stopped = true) :
    (newProcs c scripts k).stopped = true := by
  induction scripts generalizing k with
  | nil => exact hstopped
  | cons script scripts ih => exact ih ((initPages_kept _ _ _).1 hstopped)

/-- No more pages are in memory than there are frames for. -/
theorem Paged.room (h : Paged c procs g k) : 3 * k.lruCache.length ≤ c.FRAME_STORE_SIZE := by
  have hslot : ∀ p ∈ k.lruCache, ∃ m, 3 * m + 3 ≤ c.FRAME_STORE_SIZE ∧ (k.page p).index 0 = 3 * m :=
    fun p hp => let ⟨m, hm, hindex, _⟩ := h.slot hp; ⟨m, hm, hindex⟩
  have hnodup : (k.lruCache.map fun p => (k.page p).index 0 / 3).Nodup := by
    refine h.nodup.map_on fun p hp q hq heq => h.apart p hp q hq ?_
    obtain ⟨m, -, hm⟩ := hslot p hp
    obtain ⟨n, -, hn⟩ := hslot q hq
    omega
  have hsub : (k.lruCache.map fun p => (k.page p).index 0 / 3) ⊆
      List.range (c.FRAME_STORE_SIZE / 3) := by
    intro x hx
    obtain ⟨p, hp, rfl⟩ := List.mem_map.1 hx
    obtain ⟨m, hroom, hm⟩ := hslot p hp
    rw [List.mem_range]
    omega
  have hlen := (List.subperm_of_subset hnodup hsub).length_le
  rw [List.length_map, List.length_range] at hlen
  omega

/-- `PCB_init` loads its pages only where there are frames for them. -/
theorem Paged.initPages_room {lines : List CString} {size : Nat}
    (h : Paged c procs (Function.update g pid ⟨lines, size, 0, 0⟩) k) (hpid : pid ∈ procs) (m : Nat)
    (hm : m ≤ min 2 (pageTableSize size))
    (hgoes : ((List.range m).foldl (initPage c pid) k).stopped = false) :
    3 * (k.lruCache.length + m) ≤ c.FRAME_STORE_SIZE := by
  induction m with
  | zero => exact h.room
  | succ m ih =>
      rw [List.range_succ, List.foldl_append, List.foldl_cons, List.foldl_nil] at hgoes
      have hbefore : ((List.range m).foldl (initPage c pid) k).stopped = false := by
        by_contra hstopped
        rw [Bool.not_eq_false] at hstopped
        rw [(initPage_kept _ _ _).1 hstopped] at hgoes
        cases hgoes
      obtain ⟨k₁, hk₁, hlru₁, -, -, -, -, -, h₁⟩ := h.initPages hpid m (by omega)
        (ih (by omega) hbefore)
      rw [hk₁] at hgoes
      have hself : Function.update g pid ⟨lines, size, 0, m⟩ pid = ⟨lines, size, 0, m⟩ :=
        Function.update_self ..
      cases halloc : frameAlloc c k₁.shellmemory (pidString pid) with
      | none =>
          unfold initPage loadPage at hgoes
          rw [halloc] at hgoes
          cases hgoes
      | some r =>
          obtain ⟨k₂, -, -, hlru₂, -, -, -, -, h₂⟩ := h₁.load hpid halloc
            (by rw [hself]; show m < pageTableSize size; omega)
            (by rw [hself]; exact .inl (by show m + 1 ≤ 2; omega))
          have hroom := h₂.room
          rw [List.length_cons, hlru₂, length_pushPages] at hroom
          exact hroom

theorem Started.room (h : Started c procs ran g k) {scripts : List CString}
    (hok : ∀ script ∈ scripts, Supplied script)
    (hgoes : (newProcs c scripts k).stopped = false) :
    3 * (k.lruCache.length + firstPages scripts) ≤ c.FRAME_STORE_SIZE := by
  induction scripts generalizing procs g k with
  | nil => exact h.paged.room
  | cons script scripts ih =>
      have hsupplied := hok script List.mem_cons_self
      have hfirst : (newProc c script k).stopped = false := by
        by_contra hstopped
        rw [Bool.not_eq_false] at hstopped
        have := newProcs_stopped (c := c) scripts hstopped
        rw [show newProcs c scripts (newProc c script k) = newProcs c (script :: scripts) k from rfl,
          hgoes] at this
        cases this
      have hpid : k.pidCounter ∉ procs := fun hmem => Nat.lt_irrefl _ (h.below _ hmem)
      have hroom := (h.paged.addPcb hpid hsupplied (k.pidCounter + 1)).initPages_room
        (List.mem_append_right _ (List.mem_singleton_self _)) _ (Nat.le_refl _) hfirst
      obtain ⟨hadd, -, hcache, -⟩ := h.add hsupplied hroom
      have hrest := ih hadd (fun s hs => hok s (List.mem_cons_of_mem _ hs)) hgoes
      rw [hcache] at hrest
      show 3 * (_ + (min 2 (pageTableSize (countLines script)) + firstPages scripts)) ≤ _
      omega

/-- When the first pages of all scripts were loaded there was room for them. -/
theorem Idle.room (hi : Idle c k) {scripts : List CString}
    (hok : ∀ script ∈ scripts, Supplied script)
    (hgoes : (newProcs c scripts k).stopped = false) :
    3 * firstPages scripts ≤ c.FRAME_STORE_SIZE := by
  have hroom := (Started.start hi).room hok hgoes
  rwa [hi.lruCache, List.length_nil, Nat.zero_add] at hroom

end Start

end SimpleShell.A3
