import SimpleShell.A2.Eviction

/-!
# No process is lost

Over a whole run of `schedule_by_policy` every process that has not executed its
last line is in the queue, or it is the one running. What can go wrong lies in
the single steps: `SJF` does not put a process back that came back from a page
fault, a load may not get its frames, and a page that was evicted while its
process was at it hands the process the lines of another.
-/

namespace SimpleShell.A2

open SimpleShell.Shell (CString MemoryStruct noneText)

variable {w : World} {k k' k0 : Kernel} {pcb : PCB} {policy : Policy}

/-! ## The lines of a script -/

/-- What the loader reads from here on, in at most `n` reads. -/
def readsFrom : Nat → CString → Stream → List CString
  | 0, _, _ => []
  | n + 1, command, fp =>
      if fp.eof then []
      else (fgets command fp).1 :: readsFrom n (fgets command fp).1 (fgets command fp).2

/-- The lines that a process of this script executes. -/
def scriptLines (w : World) (filename : CString) : List CString :=
  let content := (w.files filename).getD []
  readsFrom (content.length + 1) [] ⟨content, false⟩

theorem Feeds.readsFrom {n : Nat} {command : CString} {fp : Stream} {lines : List CString}
    (h : Feeds command fp lines) (hn : lines.length ≤ n) : readsFrom n command fp = lines := by
  induction n generalizing command fp lines with
  | zero =>
      rw [A2.readsFrom]
      exact (List.length_eq_zero_iff.1 (Nat.le_zero.1 hn)).symm
  | succ n ih =>
      cases lines with
      | nil =>
          have heof : fp.eof = true := h
          rw [A2.readsFrom, heof, if_pos rfl]
      | cons line lines =>
          rw [List.length_cons] at hn
          rw [A2.readsFrom, h.1, if_neg Bool.false_ne_true, h.2.1, ih h.2.2 (by omega)]

/-- Every read but the last takes a letter. -/
theorem Feeds.length_le {command : CString} {fp : Stream} {lines : List CString}
    (h : Feeds command fp lines) : lines.length ≤ fp.rest.length + 1 := by
  induction lines generalizing command fp with
  | nil => exact Nat.zero_le _
  | cons line lines ih =>
      cases lines with
      | nil => exact Nat.le_add_left ..
      | cons next rest =>
          have hless : (fgets command fp).2.rest.length < fp.rest.length :=
            (readLine_rest 99 fp.rest).2 h.2.2.1 (by decide)
          have hle := ih h.2.2
          rw [List.length_cons]
          omega

theorem Proc.lines_eq {lines : List CString} (h : Proc w lines pcb) :
    scriptLines w pcb.filename = lines :=
  h.feeds.readsFrom h.feeds.length_le

/-- The process has executed the last line of its script. -/
def ExecutedLast (w : World) (k : Kernel) (t : Nat × CString) : Prop :=
  ∃ line, (scriptLines w t.2).getLast? = some line ∧
    ⟨t.1, (scriptLines w t.2).length - 1, line⟩ ∈ k.trace.executed

theorem ExecutedLast.mono {t : Nat × CString} (h : ExecutedLast w k t)
    (hpre : k.trace.executed <+: k'.trace.executed) : ExecutedLast w k' t := by
  obtain ⟨line, hline, hmem⟩ := h
  exact ⟨line, hline, hpre.subset hmem⟩

/-! ## A turn line by line -/

/-- Every load that a line asks for gets its frames. -/
def LoadsOk (w : World) : List CString → Kernel → Prop
  | [], _ => True
  | filename :: rest, k =>
      (∀ content ∈ w.files filename, CanLoad w k.pidCounter (pagesLoaded content) k) ∧
        LoadsOk w rest (processInitialize w filename k)

/-- The text that `execute_process` finds for the line it comes to. -/
def lineFound (page : Page) (pcb : PCB) (k : Kernel) : CString :=
  (k.shellmemory (page.index pcb.PC.2)).value

/-- A missing page gets its frames; a line's loads do, and the process finds the
last line of its script where its last line is. -/
def LineOk (w : World) (pcb : PCB) (k : Kernel) : Prop :=
  match pcb.page pcb.PC.1 with
  | none => CanLoad w pcb.pid 1 k
  | some page =>
      LoadsOk w (w.loadedBy (lineFound page pcb k)) (noteExecuted
        ⟨pcb.pid, pcb.at, lineFound page pcb k⟩ (lineStart page pcb k)) ∧
      (page.index pcb.PC.2 = pcb.lastLineNumber →
        (scriptLines w pcb.filename).getLast? = some (lineFound page pcb k))

instance decidableLoadsOk (w : World) :
    (filenames : List CString) → (k : Kernel) → Decidable (LoadsOk w filenames k)
  | [], _ => isTrue trivial
  | filename :: rest, k =>
      have := decidableLoadsOk w rest (processInitialize w filename k)
      inferInstanceAs (Decidable ((∀ content ∈ w.files filename,
        (k.pidCounter < 10 ∧ CanEvict w (snapshot k) (3 * pagesLoaded content))) ∧ _))

instance (w : World) (pcb : PCB) (k : Kernel) : Decidable (LineOk w pcb k) := by
  unfold LineOk CanLoad
  cases pcb.page pcb.PC.1 <;> infer_instance

/-- The process and the kernel where the lines of a turn begin. -/
def linesOf (w : World) : Nat → PCB → Kernel → List (PCB × Kernel)
  | 0, _, _ => []
  | n + 1, pcb, k =>
      (pcb, k) ::
        match pcb.page pcb.PC.1 with
        | none => []
        | some page =>
            if (lineRun w page pcb k).stopped then []
            else if page.index pcb.PC.2 = pcb.lastLineNumber then []
            else linesOf w n (updatePC { pcb with priority := false }) (lineRun w page pcb k)

/-- The lines of the next turn. -/
def turnLines (w : World) (policy : Policy) (k : Kernel) : List (PCB × Kernel) :=
  match taken policy k with
  | none => []
  | some (cur, k) => linesOf w (quantaOf policy) cur k

/-- The turn is no turn of `AGING` that follows a null pointer, its lines are in
order, and no page is missing in one of `SJF`. -/
structure TurnOk (w : World) (policy : Policy) (k : Kernel) : Prop where
  notNull : ¬ NullDereference policy k
  lines : ∀ s ∈ turnLines w policy k, LineOk w s.1 s.2
  finishes : policy = .SJF → ∀ cur k', taken policy k = some (cur, k') →
    Finishes (quantaOf policy) cur

/-! ## What is not lost -/

/-- The loop goes no further. -/
def Ends (policy : Policy) (k : Kernel) : Prop :=
  k.stopped = true ∨ k.readyQueue = [] ∨ NullDereference policy k

/-- Loads that get their frames come to their ends. -/
theorem Alive.loads {s : Multiset Cell}
    (hfits : ∀ filename content, w.files filename = some content → TableFits content)
    {filenames : List CString} {k : Kernel} (h : Alive w s k.readyQueue k)
    (hrun : k.stopped = false) (hok : LoadsOk w filenames k) :
    (filenames.foldl (fun k filename => processInitialize w filename k) k).stopped = false := by
  induction filenames generalizing k with
  | nil => exact hrun
  | cons filename rest ih =>
      refine ih (h.begin hfits) ?_ hok.2
      show (A2.processInitialize w filename k).stopped = false
      cases hfile : w.files filename with
      | none =>
          rw [processInitialize, hrun, if_neg Bool.false_ne_true, hfile]
          exact hrun
      | some content =>
          exact (h.begin_file (hfits filename content hfile) hfile hrun).2.2
            (hok.1 content hfile)

theorem lineRun_eq (page : Page) (pcb : PCB) (k : Kernel) :
    lineRun w page pcb k = parseInput w (lineFound page pcb k)
      (noteExecuted ⟨pcb.pid, pcb.at, lineFound page pcb k⟩ (lineStart page pcb k)) := by
  unfold lineRun lineFound lineStart
  split <;> rfl

/-- A line that is in order does not stop the program. -/
theorem Alive.lineRun_running {k : Kernel} {page : Page}
    (hfits : ∀ filename content, w.files filename = some content → TableFits content)
    (h : Alive w pcb.cells k.readyQueue k) (hrun : k.stopped = false)
    (hpage : pcb.page pcb.PC.1 = some page) (hok : LineOk w pcb k) :
    (A2.lineRun w page pcb k).stopped = false := by
  rw [LineOk, hpage] at hok
  have hsame : (A2.lineStart page pcb k).readyQueue = k.readyQueue ∧
      (A2.lineStart page pcb k).stopped = k.stopped := by
    rw [A2.lineStart]
    split <;> exact ⟨rfl, rfl⟩
  have hstart := h.lineStart hpage
  rw [← hsame.1] at hstart
  have hnote : Alive w (updatePC { pcb with priority := false }).cells
      (noteExecuted ⟨pcb.pid, pcb.at, lineFound page pcb k⟩ (A2.lineStart page pcb k)).readyQueue
      (noteExecuted ⟨pcb.pid, pcb.at, lineFound page pcb k⟩ (A2.lineStart page pcb k)) :=
    hstart.of_eq rfl rfl rfl rfl rfl
  rw [lineRun_eq, A2.parseInput]
  exact hnote.loads hfits (hsame.2.trans hrun) hok.1

theorem lineRun_executed (page : Page) (pcb : PCB) (k : Kernel) :
    (lineRun w page pcb k).trace.executed =
      k.trace.executed ++ [⟨pcb.pid, pcb.at, lineFound page pcb k⟩] := by
  have hstart : (lineStart page pcb k).trace = k.trace := by
    rw [lineStart]
    split <;> rfl
  rw [lineRun_eq, (parseInput_adds _ _).executed]
  show (lineStart page pcb k).trace.executed ++ _ = _
  rw [hstart]

/-- The last line, found where it should be. -/
theorem Proc.executedLast {lines : List CString} {page : Page} (h : Proc w lines pcb)
    (hpage : pcb.page pcb.PC.1 = some page) (hlast : page.index pcb.PC.2 = pcb.lastLineNumber)
    (hok : LineOk w pcb k) : ExecutedLast w (lineRun w page pcb k) pcb.tag := by
  rw [LineOk, hpage] at hok
  have hat := (h.last_iff hpage).1 hlast
  refine ⟨lineFound page pcb k, hok.2 hlast, ?_⟩
  rw [lineRun_executed, PCB.tag, h.lines_eq]
  have hplace : lines.length - 1 = pcb.at := by omega
  dsimp only
  rw [hplace]
  exact List.mem_append_right _ (List.mem_singleton_self _)

/-- A turn whose lines are in order comes to its end, and the process terminates
only with its last line. -/
theorem Alive.execute_ok {k : Kernel}
    (hfits : ∀ filename content, w.files filename = some content → TableFits content)
    (n : Nat) {pcb : PCB} (hrun : k.stopped = false) (hknown : Known w pcb)
    (h : Alive w pcb.cells k.readyQueue k)
    (hok : ∀ s ∈ linesOf w n pcb k, LineOk w s.1 s.2) :
    (executeProcess w n pcb k).2.2.stopped = false ∧
      ((executeProcess w n pcb k).1 = true →
        ExecutedLast w (executeProcess w n pcb k).2.2 pcb.tag) := by
  induction n generalizing pcb k with
  | zero => exact ⟨hrun, nofun⟩
  | succ n ih =>
      obtain ⟨lines, hproc⟩ := hknown
      rw [linesOf, List.forall_mem_cons] at hok
      obtain ⟨hline, hrest⟩ := hok
      cases hpage : pcb.page pcb.PC.1 with
      | none =>
          rw [executeProcess_fault hpage]
          rw [← add_zero pcb.cells] at h
          dsimp only at hline
          rw [LineOk, hpage] at hline
          exact ⟨(h.fault hrun hproc hpage).comes.2 hline, nofun⟩
      | some page =>
          obtain ⟨-, -, hreal⟩ := hproc.line hpage
          have hgo := h.lineRun_running hfits hrun hpage hline
          rw [executeProcess_line hpage hreal, hgo, if_neg Bool.false_ne_true]
          simp only [hpage, hgo, Bool.false_eq_true, if_false] at hrest
          split
          · next hlast => exact ⟨hgo, fun _ => hproc.executedLast hpage hlast hline⟩
          · next hlast =>
              rw [if_neg hlast] at hrest
              have hhere := hproc.here
              have hmore : pcb.at + 1 < lines.length := by
                have hne : ¬ pcb.at + 1 = lines.length := fun heq =>
                  hlast ((hproc.last_iff hpage).2 heq)
                omega
              have hlater := ih hgo ⟨lines, hproc.next hpage hmore⟩ (h.lineRun hfits hpage) hrest
              rw [updatePC_tag] at hlater
              exact hlater

/-- A turn takes no process, or it runs the one it took. -/
theorem scheduler_cases (hrun : k.stopped = false) (hnull : ¬ NullDereference policy k) :
    (taken policy k = none ∧ scheduler w policy k = k) ∨
      ∃ cur k', taken policy k = some (cur, k') ∧ k'.stopped = false ∧
        (scheduler w policy k).stopped =
          (executeProcess w (quantaOf policy) cur k').2.2.stopped ∧
        (scheduler w policy k).trace =
          (executeProcess w (quantaOf policy) cur k').2.2.trace := by
  rw [scheduler_eq, schedulerTurn, hrun, if_neg Bool.false_ne_true]
  cases ht : taken policy k with
  | none => exact .inl ⟨rfl, rfl⟩
  | some pair =>
      obtain ⟨cur, k1⟩ := pair
      obtain ⟨rest, stop, -, hk1, hstop⟩ := taken_queue hrun ht
      have hgo : k1.stopped = false := by
        rw [hk1]
        exact Bool.eq_false_iff.2 fun hs => hnull (hstop.1 hs)
      refine .inr ⟨cur, k1, rfl, hgo, ?_⟩
      dsimp only
      rw [hgo, if_neg Bool.false_ne_true]
      split <;> exact ⟨rfl, rfl⟩

/-- What holds after every turn. -/
structure Ongoing (w : World) (k0 k : Kernel) : Prop where
  alive : Alive w 0 k.readyQueue k
  running : k.stopped = false
  balanced : Balanced k0 k
  last : ∀ t ∈ finished k0 k, ExecutedLast w k t

theorem Ongoing.start (h0 : Alive w 0 k0.readyQueue k0) (hrun : k0.stopped = false)
    (policy : Policy) : Ongoing w k0 (schedulerStart policy k0) := by
  have hsame : (schedulerStart policy k0).stopped = k0.stopped ∧
      (schedulerStart policy k0).trace = k0.trace := by
    cases policy <;> exact ⟨rfl, rfl⟩
  refine ⟨h0.schedulerStart, hsame.1.trans hrun, .start k0 policy, fun t ht => ?_⟩
  rw [finished, hsame.2, List.drop_length] at ht
  cases ht

/-- A turn that is in order. -/
theorem Ongoing.turn
    (hfits : ∀ filename content, w.files filename = some content → TableFits content)
    (h : Ongoing w k0 k) (hok : TurnOk w policy k) : Ongoing w k0 (scheduler w policy k) := by
  rcases scheduler_cases (w := w) h.running hok.notNull with ⟨-, hsame⟩ |
    ⟨cur, k1, ht, hgo, hstop, htrace⟩
  · rw [hsame]
    exact h
  · obtain ⟨halive, hknown⟩ := h.alive.taken h.running ht
    have hlines := hok.lines
    rw [turnLines, ht] at hlines
    obtain ⟨hend, hlast⟩ := halive.execute_ok hfits (quantaOf policy) hgo hknown hlines
    have hspec := executeProcess_spec (w := w) (quantaOf policy) cur k1
    have hterm := hspec.terminated
    have hexec := hspec.executed
    rw [← htrace, (taken_spec h.running ht).trace] at hterm hexec
    refine ⟨h.alive.turn hfits, hstop.trans hend,
      h.balanced.turn (hstop.trans hend) fun hp => hok.finishes hp, fun t ht => ?_⟩
    rw [finished, (drop_prefix_append h.balanced.done hterm).2] at ht
    rcases List.mem_append.1 ht with hbefore | hnow
    · exact (h.last t hbefore).mono hexec
    · split at hnow
      · next hdone =>
          rw [List.mem_singleton.1 hnow]
          refine (hlast hdone).mono ?_
          rw [htrace]
      · cases hnow

/-- The run. -/
theorem Ongoing.run
    (hfits : ∀ filename content, w.files filename = some content → TableFits content)
    (h0 : Alive w 0 k0.readyQueue k0) (hrun : k0.stopped = false) (n : Nat)
    (hok : ∀ i < n, TurnOk w policy (scheduleByPolicy w policy i k0)) :
    Ongoing w k0 (scheduleByPolicy w policy n k0) := by
  induction n with
  | zero => exact .start h0 hrun policy
  | succ n ih =>
      rw [scheduleByPolicy_succ]
      exact (ih fun i hi => hok i (by omega)).turn hfits (hok n (by omega))

/-! ## Nothing is lost -/

theorem Initialized.of_subperm (h : Initialized k) (hcounter : k.pidCounter ≤ k'.pidCounter)
    (hsub : (pids k'.readyQueue).Subperm (pids k.readyQueue)) : Initialized k' := by
  refine ⟨?_, fun pid hpid => (h.below pid (hsub.subset hpid)).trans_le hcounter⟩
  obtain ⟨ids, hperm, hids⟩ := hsub
  exact hperm.nodup_iff.1 (h.nodup.sublist hids)

/-- Processes loaded meanwhile get ids of their own. -/
theorem Initialized.grow (h : Initialized k) (hgrew : Grew k k') : Initialized k' := by
  obtain ⟨new, hnew, -, hpids⟩ := hgrew.queue
  have hcounter := hgrew.counter
  have hids : pids k'.readyQueue = pids k.readyQueue ++ pids new := by
    rw [hnew, pids, List.map_append]
    rfl
  constructor
  · rw [hids]
    refine List.Nodup.append h.nodup (hpids.nodup List.nodup_range') fun pid hq hn => ?_
    have hlt := h.below pid hq
    have hge := hpids.subset hn
    rw [List.mem_range'_1] at hge
    omega
  · intro pid hpid
    rw [hids, List.mem_append] at hpid
    rcases hpid with hq | hn
    · exact (h.below pid hq).trans_le hcounter
    · have hge := hpids.subset hn
      rw [List.mem_range'_1] at hge
      omega

theorem Initialized.turn (h : Initialized k) : Initialized (scheduler w policy k) := by
  rw [scheduler_eq, schedulerTurn]
  split
  · exact h
  · next hrun =>
      cases ht : taken policy k with
      | none => exact h
      | some pair =>
          obtain ⟨cur, k1⟩ := pair
          obtain ⟨hqueue, hcounter, -⟩ := taken_spec (by simpa using hrun) ht
          -- the process that is out of the queue keeps its id
          have hout : Initialized { k1 with readyQueue := cur :: k1.readyQueue } := by
            refine h.of_subperm hcounter.ge ?_
            have hids := (hqueue.map Prod.fst).subperm
            rw [← pids_eq] at hids
            rw [pids_eq]
            exact hids
          dsimp only
          split
          · exact hout.of_subperm (Nat.le_refl _) (List.sublist_cons_self _ _).subperm
          · have hspec := executeProcess_spec (w := w) (quantaOf policy) cur k1
            generalize executeProcess w (quantaOf policy) cur k1 = r at hspec ⊢
            obtain ⟨new, hnew, hmade, hpids⟩ := hspec.grew.queue
            have hpid : r.2.1.pid = cur.pid := congrArg Prod.fst hspec.tag
            have hgrown : Initialized { r.2.2 with readyQueue := cur :: r.2.2.readyQueue } :=
              hout.grow ⟨hspec.grew.counter, new, congrArg (cur :: ·) hnew, hmade, hpids⟩
            split
            · exact hgrown.of_subperm (Nat.le_refl _) (List.sublist_cons_self _ _).subperm
            · refine hgrown.of_subperm (Nat.le_refl _) ?_
              by_cases hp : policy = .SJF
              · subst hp
                exact (List.sublist_cons_self _ _).subperm
              · have hput := (putBackOf_perm hp r.2.2.readyQueue r.2.1).map PCB.pid
                rw [List.map_cons, hpid] at hput
                exact hput.subperm

end SimpleShell.A2
