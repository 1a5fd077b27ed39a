import SimpleShell.A2.Holding
import SimpleShell.A2.LoadedLines

/-!
# Frames while there are free ones

As long as `allocate_frame` finds a free frame, a frame that is taken keeps what
it has, whoever asks for another one. So the lines of a process stay where its
page table says, in frames of their own.
-/

namespace SimpleShell.A2

open SimpleShell.Shell (CString MemoryStruct noneText)

variable {w : World} {k k' k'' : Kernel} {pcb : PCB} {lines texts : List CString} {pid q : Nat}

/-- Frames that are taken keep what they have. -/
def Extends (mem mem' : Memory) : Prop := ∀ i, (mem i).var ≠ noneText → mem' i = mem i

theorem Extends.refl (mem : Memory) : Extends mem mem := fun _ _ => rfl

theorem Extends.trans {mem mem' mem'' : Memory} (h : Extends mem mem') (h' : Extends mem' mem'') :
    Extends mem mem'' := fun i hi =>
  (h' i (by rw [h i hi]; exact hi)).trans (h i hi)

/-- No allocation so far has found the store full. -/
def NeverFull (k : Kernel) : Prop := k.trace.full = []

theorem allocateFrame_full (valueIn : CString) (pid : Nat) (k : Kernel)
    (h : NeverFull (allocateFrame w valueIn pid k).2) : NeverFull k := by
  rw [NeverFull, allocateFrame_trace] at h
  exact (List.append_eq_nil_iff.1 h).1

/-- An allocation that does not find the store full. -/
theorem allocateFrame_free {valueIn : CString} (hrun : k.stopped = false)
    (h : NeverFull (allocateFrame w valueIn pid k).2) :
    ∃ i : Nat, i < w.FRAME_STORE_SIZE ∧ (k.shellmemory i).var = noneText ∧
      allocateFrame w valueIn pid k = ((i : Int),
        frameReturn pid { k with shellmemory := storeLine k.shellmemory i pid valueIn }) := by
  rw [NeverFull, allocateFrame_trace] at h
  cases hfree : freeFrame w k.shellmemory with
  | some i =>
      obtain ⟨hlt, hvar⟩ := freeFrame_spec hfree
      refine ⟨i, hlt, hvar, ?_⟩
      rw [allocateFrame, hrun, if_neg Bool.false_ne_true, hfree]
  | none => simp [hrun, hfree] at h

/-- What a row of allocations leaves as it was, and where the texts are. -/
structure Allocated (w : World) (pid : Nat) (texts : List CString) (k : Kernel)
    (r : List Int × Kernel) : Prop where
  extend : Extends k.shellmemory r.2.shellmemory
  rest : r.2 = { k with shellmemory := r.2.shellmemory }
  frame : ∀ j (hj : j < texts.length), ∃ f : Nat, r.1[j]? = some (f : Int) ∧
    f < w.FRAME_STORE_SIZE ∧ r.2.shellmemory f = ⟨pidString pid, texts[j]⟩ ∧
    (k.shellmemory f).var = noneText
  distinct : r.1.Nodup

theorem allocateFrames_full (pid : Nat) (texts : List CString) (k : Kernel)
    (h : NeverFull (allocateFrames w pid texts k).2) : NeverFull k := by
  induction texts generalizing k with
  | nil => exact h
  | cons text texts ih => exact allocateFrame_full text pid k (ih _ h)

theorem allocateFrames_free {texts : List CString} (hpid : pid < 10) (hrun : k.stopped = false)
    (h : NeverFull (allocateFrames w pid texts k).2) :
    Allocated w pid texts k (allocateFrames w pid texts k) := by
  induction texts generalizing k with
  | nil =>
      exact ⟨Extends.refl _, rfl, fun j hj => absurd hj (Nat.not_lt_zero j), List.nodup_nil⟩
  | cons text texts ih =>
      obtain ⟨i, hlt, hvar, heq⟩ := allocateFrame_free hrun (allocateFrames_full pid texts _ h)
      have hreturn : frameReturn pid { k with shellmemory := storeLine k.shellmemory i pid text } =
          { k with shellmemory := storeLine k.shellmemory i pid text } := by
        rw [frameReturn, decide_eq_false (Nat.not_le_of_lt hpid), ← hrun]
      rw [hreturn] at heq
      rw [allocateFrames, heq] at h
      have hrest := ih (k := { k with shellmemory := storeLine k.shellmemory i pid text }) hrun h
      rw [allocateFrames, heq]
      dsimp only at hrest ⊢
      have hstored : storeLine k.shellmemory i pid text i = ⟨pidString pid, text⟩ :=
        Function.update_self ..
      have htaken : (storeLine k.shellmemory i pid text i).var ≠ noneText := by
        rw [hstored]
        exact pidString_ne pid
      have hone : Extends k.shellmemory (storeLine k.shellmemory i pid text) := by
        intro j hj
        refine Function.update_of_ne (fun heq => hj ?_) ..
        rw [heq, hvar]
      generalize hr : allocateFrames w pid texts
        { k with shellmemory := storeLine k.shellmemory i pid text } = r at hrest ⊢
      have hother : ∀ f : Nat, (storeLine k.shellmemory i pid text f).var = noneText →
          (k.shellmemory f).var = noneText ∧ f ≠ i := by
        intro f hf
        have hne : (f : Int) ≠ i := fun heq => htaken (heq ▸ hf)
        rw [storeLine, Function.update_of_ne hne] at hf
        exact ⟨hf, fun heq => hne (by rw [heq])⟩
      refine ⟨hone.trans hrest.extend, ?_, fun j hj => ?_, List.nodup_cons.2 ⟨?_, hrest.distinct⟩⟩
      · rw [hrest.rest]
      · cases j with
        | zero =>
            refine ⟨i, rfl, hlt, ?_, hvar⟩
            exact (hrest.extend i htaken).trans hstored
        | succ j =>
            obtain ⟨f, hf, hflt, hmem, hfree⟩ := hrest.frame j (by simpa using hj)
            exact ⟨f, by simpa using hf, hflt, by simpa using hmem, (hother f hfree).1⟩
      · intro hmem
        obtain ⟨j, hj⟩ := List.mem_iff_getElem?.1 hmem
        have hlen : j < texts.length := by
          have hjlt := (List.getElem?_eq_some_iff.1 hj).1
          rw [← hr, allocateFrames_length] at hjlt
          exact hjlt
        obtain ⟨f, hf, -, -, hfree⟩ := hrest.frame j hlen
        rw [hj, Option.some.injEq] at hf
        exact (hother f hfree).2 (by exact_mod_cast hf.symm)

/-! ## Lines in their frames -/

/-- The frame of a line. -/
def PCB.frame (pcb : PCB) (i : Nat) : Int :=
  match pcb.page (i / 3) with
  | some page => page.index (i % 3)
  | none => -1

/-- The loaded lines are in frames of their own. -/
structure Placed (w : World) (mem : Memory) (lines : List CString) (pcb : PCB) : Prop where
  stored : ∀ i < pcb.lineLoaded, ∃ f : Nat, pcb.frame i = f ∧ f < w.FRAME_STORE_SIZE ∧
    (mem f).var = pidString pcb.pid ∧ lines[i]? = some (mem f).value
  distinct : ∀ i < pcb.lineLoaded, ∀ j < pcb.lineLoaded, pcb.frame i = pcb.frame j → i = j

theorem Placed.mono {mem mem' : Memory} (h : Placed w mem lines pcb) (he : Extends mem mem') :
    Placed w mem' lines pcb := by
  refine ⟨fun i hi => ?_, h.distinct⟩
  obtain ⟨f, hf, hlt, hvar, hline⟩ := h.stored i hi
  have hsame := he f (by rw [hvar]; exact pidString_ne _)
  exact ⟨f, hf, hlt, by rw [hsame, hvar], by rw [hsame, hline]⟩

/-- A load puts the lines of one more page in frames of their own. -/
theorem Placed.load (h : Placed w k.shellmemory lines pcb) (hlines : HasLines lines pcb)
    (hq : pcb.lineLoaded = 3 * q) (keep : Bool) (fill : CString)
    (htexts : texts = (lines.drop (3 * q)).take 3) (finished : Bool)
    (hpid : pcb.pid < 10) (hrun : k.stopped = false)
    (hfull : NeverFull (allocateFrames w pcb.pid (padded texts fill) k).2)
    (hlt : 3 * q < lines.length) :
    Placed w (allocateFrames w pcb.pid (padded texts fill) k).2.shellmemory lines
      (pageLoaded w q keep fill texts finished (3 * q) pcb k) := by
  have hall := allocateFrames_free hpid hrun hfull
  have hlen : texts.length = min 3 (lines.length - 3 * q) := by
    rw [htexts, List.length_take, List.length_drop]
  obtain ⟨pcb', hpcb'⟩ : ∃ pcb', pcb' = pageLoaded w q keep fill texts finished (3 * q) pcb k :=
    ⟨_, rfl⟩
  have hloaded : pcb'.lineLoaded = 3 * q + texts.length := by rw [hpcb', pageLoaded]
  have hsame : pcb'.pid = pcb.pid := by rw [hpcb', pageLoaded]
  have hold : ∀ i < 3 * q, pcb'.frame i = pcb.frame i := by
    intro i hi
    have hne : q ≠ i / 3 := by omega
    rw [PCB.frame, PCB.frame, hpcb', PCB.page, PCB.page, pageLoaded, List.getElem?_set_ne hne]
  have hnew : ∀ j (hj : j < texts.length), ∃ f : Nat, pcb'.frame (3 * q + j) = f ∧
      f < w.FRAME_STORE_SIZE ∧
      (allocateFrames w pcb.pid (padded texts fill) k).1[j]? = some (f : Int) ∧
      (allocateFrames w pcb.pid (padded texts fill) k).2.shellmemory f =
        ⟨pidString pcb.pid, texts[j]⟩ ∧ (k.shellmemory f).var = noneText := by
    intro j hj
    have hjp : j < (padded texts fill).length := by
      rw [padded_length (by omega)]
      omega
    obtain ⟨f, hf, hflt, hmem, hfree⟩ := hall.frame j hjp
    have hsize := hlines.size
    have hdiv : (3 * q + j) / 3 = q := by omega
    have hmod : (3 * q + j) % 3 = j := by omega
    have hpage : pcb'.page q = some (loadedPage w pcb.pid keep fill texts k) := by
      rw [hpcb', PCB.page, pageLoaded, List.getElem?_set_self (by omega)]
      rfl
    refine ⟨f, ?_, hflt, hf, ?_, hfree⟩
    · rw [PCB.frame, hdiv, hpage]
      dsimp only
      rw [hmod, loadedPage_index _ _ _ _ hj, List.getD_eq_getElem?_getD]
      rw [padded, allocateFrames_append, List.getElem?_append_left (by
        rw [allocateFrames_length]
        exact hj)] at hf
      rw [hf, Option.getD_some]
    · rw [hmem]
      simp [padded, List.getElem_append_left hj]
  rw [← hpcb']
  refine ⟨fun i hi => ?_, fun i hi j hj heq => ?_⟩
  · by_cases hiq : i < 3 * q
    · obtain ⟨f, hf, hflt, hvar, hline⟩ := (h.mono hall.extend).stored i (by omega)
      exact ⟨f, by rw [hold i hiq, hf], hflt, by rw [hsame, hvar], hline⟩
    · obtain ⟨j, rfl⟩ : ∃ j, i = 3 * q + j := ⟨i - 3 * q, by omega⟩
      have hj : j < texts.length := by omega
      obtain ⟨f, hf, hflt, -, hmem, -⟩ := hnew j hj
      refine ⟨f, hf, hflt, by rw [hmem, hsame], ?_⟩
      rw [hmem]
      show lines[3 * q + j]? = some texts[j]
      rw [← List.getElem?_eq_getElem hj, htexts, List.getElem?_take_of_lt (by omega),
        List.getElem?_drop]
  · by_cases hiq : i < 3 * q
    · by_cases hjq : j < 3 * q
      · exact h.distinct i (by omega) j (by omega) (by rw [← hold i hiq, ← hold j hjq, heq])
      · obtain ⟨m, rfl⟩ : ∃ m, j = 3 * q + m := ⟨j - 3 * q, by omega⟩
        obtain ⟨f, hf, -, hvar, -⟩ := h.stored i (by omega)
        obtain ⟨f', hf', -, -, -, hfree⟩ := hnew m (by omega)
        rw [hold i hiq, hf, hf'] at heq
        have hff : f = f' := by exact_mod_cast heq
        rw [hff, hfree] at hvar
        exact absurd hvar.symm (pidString_ne _)
    · obtain ⟨a, rfl⟩ : ∃ m, i = 3 * q + m := ⟨i - 3 * q, by omega⟩
      by_cases hjq : j < 3 * q
      · obtain ⟨f, hf, -, hvar, -⟩ := h.stored j (by omega)
        obtain ⟨f', hf', -, -, -, hfree⟩ := hnew a (by omega)
        rw [hold j hjq, hf, hf'] at heq
        have hff : f' = f := by exact_mod_cast heq
        rw [← hff, hfree] at hvar
        exact absurd hvar.symm (pidString_ne _)
      · obtain ⟨b, rfl⟩ : ∃ m, j = 3 * q + m := ⟨j - 3 * q, by omega⟩
        obtain ⟨f, hf, -, hfa, -, -⟩ := hnew a (by omega)
        obtain ⟨f', hf', -, hfb, -, -⟩ := hnew b (by omega)
        rw [hf, hf'] at heq
        rw [← heq] at hfb
        have hab := (List.getElem?_inj (List.getElem?_eq_some_iff.1 hfa).1 hall.distinct).1
          (hfa.trans hfb.symm)
        omega

end SimpleShell.A2
