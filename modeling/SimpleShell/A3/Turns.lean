import SimpleShell.A3.Paging

/-!
# Taking turns

The processes of the queue run two lines each in turn. No page that is still needed makes room
for another: the first two pages of every process are done before any process needs a third,
and from then on a process needs the one page that it used last. It was used since the process
had its turn, and since then the processes behind it in the queue have used two pages each at
most, which is fewer than there are in memory.
-/

namespace SimpleShell.A3

open SimpleShell.Shell SimpleShell.Lib
open SimpleShell.A2 (pidString)

namespace Progress

def Unfinished (p : Progress) : Prop := p.done < p.size

/-- How far a process is with its first two pages. -/
def first (p : Progress) : Nat := min p.done 6

/-- What holds of a process that waits for its turn. -/
structure Settled (p : Progress) : Prop where
  two : min 2 p.pages ≤ p.loaded
  even : p.done < 6 → p.Unfinished → p.done % 2 = 0

/-- The lines and the pages that are left. -/
def left (p : Progress) : Nat := (p.size - p.done) + (p.pages - p.loaded)

end Progress

/-- Two pages for each process, or one where it has no more. -/
def room (g : Nat → Progress) (l : List Nat) : Nat := (l.map fun pid => min 2 (g pid).pages).sum

/-- The page that a waiting process needs is among those that the processes from it to the tail
of the queue have used, and `gap` more. -/
def Recent (g : Nat → Progress) (queue : List Nat) (cache : List (Nat × Nat)) (gap : Nat) : Prop :=
  ∀ q rest, (q :: rest) <:+ queue → (g q).Unfinished → 6 ≤ (g q).done →
    ∀ i, i < (g q).loaded → ¬(g q).Complete i → (q, i) ∈ cache.take (room g (q :: rest) + gap)

/-- The lines that were run for a process. -/
def linesOf (pid : Nat) (executed : List (Nat × CString)) : List CString :=
  (executed.filter fun e => e.1 = pid).map Prod.snd

/-- What was run for each process so far; `ran` was run before. -/
def Traced (ran : Nat → List CString) (g : Nat → Progress)
    (executed : List (Nat × CString)) : Prop :=
  ∀ q, linesOf q executed = ran q ++ (g q).lines.take (g q).done

variable {σ : Type}

/-- A page leaves only when all frames are taken, and then they stay so. -/
def Spill (c : Sizes) (procs : List Nat) (g : Nat → Progress) (k : Kernel σ) : Prop :=
  c.FRAME_STORE_SIZE / 3 ≤ k.lruCache.length ∨
    ∀ pid ∈ procs, ∀ i, i < (g pid).loaded → (pid, i) ∈ k.lruCache

/-- What holds between two turns. -/
structure Rounds (c : Sizes) (procs : List Nat) (ran : Nat → List CString) (g : Nat → Progress)
    (k : Kernel σ) : Prop where
  paged : Paged c procs g k
  settled : ∀ pid ∈ procs, (g pid).Settled
  nodup : k.queue.Nodup
  queued : ∀ pid ∈ k.queue, pid ∈ procs
  waiting : ∀ pid ∈ procs, (g pid).Unfinished → pid ∈ k.queue
  ahead : k.queue.Pairwise fun p q =>
    (g p).Unfinished → (g q).Unfinished → (g p).first ≤ (g q).first
  close : ∀ p ∈ k.queue, ∀ q ∈ k.queue, (g p).Unfinished → (g q).Unfinished →
    (g q).first ≤ (g p).first + 2
  recent : ∃ gap, Recent g k.queue k.lruCache gap ∧ gap + room g k.queue ≤ room g procs
  allPcb : k.allPcb = procs
  frames : 3 * room g procs ≤ c.FRAME_STORE_SIZE
  traced : Traced ran g k.executed
  spill : Spill c procs g k

section Recent

variable {c : Sizes} {procs queue : List Nat} {ran : Nat → List CString} {g : Nat → Progress}
  {k k' : Kernel σ} {pid gap t : Nat} {cache : List (Nat × Nat)} {x : Nat × Nat} {p' : Progress}

/-! ## Room -/

@[simp] theorem room_nil : room g [] = 0 := rfl

@[simp] theorem room_cons : room g (pid :: queue) = min 2 (g pid).pages + room g queue := rfl

theorem room_append (l l' : List Nat) : room g (l ++ l') = room g l + room g l' := by
  unfold room
  rw [List.map_append, List.sum_append]

theorem room_suffix {l : List Nat} (h : l <:+ queue) : room g l ≤ room g queue := by
  obtain ⟨front, rfl⟩ := h
  rw [room_append]
  exact Nat.le_add_left ..

/-- The number of its pages never changes. -/
theorem room_update (hsize : p'.size = (g pid).size) (l : List Nat) :
    room (Function.update g pid p') l = room g l := by
  unfold room
  congr 1
  refine List.map_congr_left fun q _ => ?_
  by_cases hq : q = pid
  · rw [hq, Function.update_self, Progress.pages, hsize, Progress.pages]
  · rw [Function.update_of_ne hq]

/-! ## What a turn does to the pages that are needed -/

theorem Recent.use (h : Recent g queue cache gap) (x : Nat × Nat) :
    Recent g queue (MoveToFront.use cache x) (gap + 1) := fun q rest hq hun h6 i hi hno =>
  MoveToFront.mem_take_use (h q rest hq hun h6 i hi hno) x

theorem Recent.cons (h : Recent g queue cache gap) (x : Nat × Nat) :
    Recent g queue (x :: cache) (gap + 1) := fun q rest hq hun h6 i hi hno =>
  MoveToFront.mem_take_cons (h q rest hq hun h6 i hi hno) x

theorem Recent.mono (h : Recent g queue cache gap) {gap' : Nat} (hle : gap ≤ gap') :
    Recent g queue cache gap' := fun q rest hq hun h6 i hi hno =>
  MoveToFront.mem_take_mono (h q rest hq hun h6 i hi hno) (by omega)

theorem Recent.dropLast (h : Recent g queue cache gap) (hlt : room g queue + gap < cache.length) :
    Recent g queue cache.dropLast gap := fun q rest hq hun h6 i hi hno =>
  MoveToFront.mem_take_dropLast (h q rest hq hun h6 i hi hno) (by
    have := @room_suffix queue g _ hq
    omega)

theorem Recent.tail (h : Recent g (pid :: queue) cache gap) : Recent g queue cache gap :=
  fun q rest hq => h q rest (hq.trans (List.suffix_cons pid queue))

theorem Recent.update (h : Recent g queue cache gap) (hpid : pid ∉ queue)
    (hsize : p'.size = (g pid).size) : Recent (Function.update g pid p') queue cache gap := by
  intro q rest hq
  have hne : q ≠ pid := fun heq => hpid (hq.subset (heq ▸ List.mem_cons_self))
  rw [room_update hsize, Function.update_of_ne hne]
  exact h q rest hq

/-- The process goes to the tail of the queue. -/
theorem Recent.append (h : Recent g queue cache (gap + t)) (ht : t ≤ min 2 (g pid).pages)
    (hown : (g pid).Unfinished → 6 ≤ (g pid).done → ∀ i, i < (g pid).loaded →
      ¬(g pid).Complete i → (pid, i) ∈ cache.take (min 2 (g pid).pages)) :
    Recent g (queue ++ [pid]) cache gap := by
  intro q rest hq hun h6 i hi hno
  rw [List.suffix_concat_iff] at hq
  rcases hq with hq | ⟨front, heq, hfront⟩
  · cases hq
  · cases front with
    | nil =>
        obtain ⟨rfl, rfl⟩ := List.cons.inj heq
        refine MoveToFront.mem_take_mono (hown hun h6 i hi hno) ?_
        rw [room_cons, room_nil]
        omega
    | cons q' rest' =>
        obtain ⟨rfl, rfl⟩ := List.cons.inj heq
        refine MoveToFront.mem_take_mono (h q rest' hfront hun h6 i hi hno) ?_
        rw [room_cons, room_cons, show rest'.append [pid] = rest' ++ [pid] from rfl, room_append,
          room_cons, room_nil]
        omega

/-! ## Pages that leave -/

theorem Spill.use (h : Spill c procs g k) (hx : x ∈ k.lruCache)
    (hlru : k'.lruCache = MoveToFront.use k.lruCache x) (hloaded : p'.loaded = (g pid).loaded) :
    Spill c procs (Function.update g pid p') k' := by
  rcases h with hfull | hall
  · left
    rwa [hlru, MoveToFront.length_use hx]
  · right
    intro q hq i hi
    rw [hlru, MoveToFront.mem_use hx]
    refine hall q hq i ?_
    by_cases hqp : q = pid
    · rw [hqp, Function.update_self, hloaded] at hi
      rwa [hqp]
    · rwa [Function.update_of_ne hqp] at hi

theorem Spill.load (h : Spill c procs g k) (hpaged : Paged c procs g k)
    (hlru : k'.lruCache = (pid, (g pid).loaded) :: madeRoom c pid k) :
    Spill c procs (Function.update g pid (g pid).load) k' := by
  unfold madeRoom at hlru
  cases halloc : frameAlloc c k.shellmemory (pidString pid) with
  | none =>
      rw [halloc, if_neg (by simp)] at hlru
      have hfull := hpaged.frameAlloc_none halloc
      left
      rw [hlru, List.length_cons, List.length_dropLast]
      omega
  | some r =>
      rw [halloc, if_pos (show (some r).isSome = true from rfl)] at hlru
      rcases h with hfull | hall
      · left
        rw [hlru, List.length_cons]
        omega
      · right
        intro q hq i hi
        rw [hlru, List.mem_cons]
        by_cases hqp : q = pid
        · rw [hqp, Function.update_self] at hi
          rw [hqp] at hq ⊢
          by_cases hi' : i = (g pid).loaded
          · exact .inl (by rw [hi'])
          · have hlt : i < (g pid).loaded + 1 := hi
            exact .inr (hall pid hq i (by omega))
        · rw [Function.update_of_ne hqp] at hi
          exact .inr (hall q hq i hi)

theorem linesOf_append (q : Nat) (executed more : List (Nat × CString)) :
    linesOf q (executed ++ more) = linesOf q executed ++ linesOf q more := by
  unfold linesOf
  rw [List.filter_append, List.map_append]

/-! ## Who makes room -/

variable {parseInput : CString → Kernel σ → Int × Kernel σ}

/-- The page used longest ago has no line left to run when a process needs its third page or a
later one. -/
theorem Paged.victim (h : Paged c procs g k)
    (hout : (g pid).done = 3 * (g pid).loaded) (htwo : 2 ≤ (g pid).loaded)
    (hbound : (g pid).loaded < (g pid).pages)
    (hwaiting : ∀ q ∈ procs, q ≠ pid → (g q).Unfinished → q ∈ queue ∧ 6 ≤ (g q).done)
    (hrecent : Recent g queue k.lruCache (gap + t)) (ht : t ≤ 1)
    (hgap : gap + room g (pid :: queue) ≤ room g procs)
    (hframes : 3 * room g procs ≤ c.FRAME_STORE_SIZE) (hall : ∀ q ∈ procs, q ∈ k.allPcb)
    {pidText : CString} (halloc : frameAlloc c k.shellmemory pidText = none) :
    room g queue + (gap + t) < k.lruCache.length ∧
      ∃ v, k.lruCache.getLast? = some v ∧ v.1 ∈ k.allPcb ∧ (g v.1).Complete v.2 := by
  have hfull := h.frameAlloc_none halloc
  rw [room_cons] at hgap
  have hlt : room g queue + (gap + t) < k.lruCache.length := by omega
  refine ⟨hlt, ?_⟩
  cases hlast : k.lruCache.getLast? with
  | none =>
      rw [List.getLast?_eq_none_iff] at hlast
      rw [hlast] at hlt
      exact absurd hlt (Nat.not_lt_zero _)
  | some v =>
      obtain ⟨hv, hloaded⟩ := h.known v.1 v.2 (List.mem_of_getLast? hlast)
      refine ⟨v, rfl, hall _ hv, ?_⟩
      by_contra hno
      have hun : (g v.1).Unfinished := by
        unfold Progress.Complete at hno
        unfold Progress.Unfinished
        omega
      by_cases hvp : v.1 = pid
      · rw [hvp] at hno hloaded
        unfold Progress.Complete at hno
        omega
      · obtain ⟨hmem, h6⟩ := hwaiting v.1 hv hvp hun
        obtain ⟨front, rest, heq⟩ := List.append_of_mem hmem
        have hsuffix : (v.1 :: rest) <:+ queue := ⟨front, heq.symm⟩
        have htake := hrecent v.1 rest hsuffix hun h6 v.2 hloaded hno
        have hroom := @room_suffix queue g _ hsuffix
        exact MoveToFront.ne_getLast_of_mem_take h.nodup htake (by omega) hlast rfl

/-! ## The trace -/

theorem Traced.next {executed : List (Nat × CString)} (h : Traced ran g executed)
    (hlt : (g pid).done < (g pid).lines.length) :
    Traced ran (Function.update g pid (g pid).next)
      (executed ++ [(pid, (g pid).lines.getD (g pid).done [])]) := by
  intro q
  rw [linesOf_append, h q]
  by_cases hq : q = pid
  · rw [hq, Function.update_self]
    show _ = ran pid ++ (g pid).lines.take ((g pid).done + 1)
    rw [List.take_add_one, List.getElem?_eq_getElem hlt, List.getD_eq_getElem?_getD,
      List.getElem?_eq_getElem hlt, List.append_assoc]
    simp [linesOf]
  · rw [Function.update_of_ne hq]
    simp [linesOf, Ne.symm hq]

theorem Traced.load {executed : List (Nat × CString)} (h : Traced ran g executed) :
    Traced ran (Function.update g pid (g pid).load) executed := by
  intro q
  rw [h q]
  by_cases hq : q = pid
  · rw [hq, Function.update_self]
    rfl
  · rw [Function.update_of_ne hq]

/-! ## The end of a turn -/

/-- What a turn of `pid` may do to it. -/
structure Advance (p p' : Progress) : Prop where
  lines : p'.lines = p.lines
  size : p'.size = p.size
  done : p.done ≤ p'.done
  loaded : p.loaded ≤ p'.loaded
  first : min (p.first + 2) 6 ≤ p'.first ∨ ¬p'.Unfinished
  slow : p'.done ≤ p.done + 2
  even : p'.done < 6 → p'.Unfinished → p'.done % 2 = 0

theorem Advance.first_le {p : Progress} (h : Advance p p') : p'.first ≤ p.first + 2 := by
  have := h.slow
  unfold Progress.first
  omega

theorem Advance.settled {p : Progress} (h : Advance p p') (hp : p.Settled) : p'.Settled := by
  have htwo := hp.two
  have hloaded := h.loaded
  refine ⟨?_, h.even⟩
  rw [Progress.pages, h.size, ← Progress.pages]
  omega

/-- The process leaves the queue, its script is done. -/
theorem Rounds.leave (h : Rounds c procs ran g k) (hqueue : k.queue = pid :: queue)
    (hpaged : Paged c procs (Function.update g pid p') k') (hq : k'.queue = queue)
    (hall : k'.allPcb = k.allPcb) (hadvance : Advance (g pid) p') (hdone : ¬p'.Unfinished)
    (ht : t ≤ min 2 (g pid).pages)
    (hrecent : ∀ gap, Recent g queue k.lruCache gap → Recent g queue k'.lruCache (gap + t))
    (htraced : Traced ran (Function.update g pid p') k'.executed)
    (hspill : Spill c procs (Function.update g pid p') k') :
    Rounds c procs ran (Function.update g pid p') k' := by
  have hnodup := h.nodup
  have hqueued := h.queued
  have hahead := h.ahead
  have hclose := h.close
  obtain ⟨gap, hgap, hle⟩ := h.recent
  rw [hqueue] at hnodup hqueued hahead hclose hgap hle
  have hpid : pid ∉ queue := (List.nodup_cons.1 hnodup).1
  have hsame : ∀ q ∈ queue, Function.update g pid p' q = g q := fun q hmem =>
    Function.update_of_ne (fun heq : q = pid => hpid (by rw [← heq]; exact hmem)) ..
  refine ⟨hpaged, fun q hmem => ?_, by rw [hq]; exact (List.nodup_cons.1 hnodup).2,
    fun q hmem => ?_, fun q hmem hun => ?_, ?_, fun p hp q hmem hpun hqun => ?_, ?_, ?_, ?_, htraced,
    hspill⟩
  · by_cases hqp : q = pid
    · rw [hqp, Function.update_self]
      exact hadvance.settled (h.settled pid (hqueued pid List.mem_cons_self))
    · rw [Function.update_of_ne hqp]
      exact h.settled q hmem
  · rw [hq] at hmem
    exact hqueued q (List.mem_cons_of_mem _ hmem)
  · rw [hq]
    by_cases hqp : q = pid
    · rw [hqp, Function.update_self] at hun
      exact absurd hun hdone
    · rw [Function.update_of_ne hqp] at hun
      have := h.waiting q hmem hun
      rw [hqueue, List.mem_cons] at this
      exact this.resolve_left hqp
  · rw [hq]
    refine (List.pairwise_cons.1 hahead).2.imp_of_mem fun hp hq' hpq => ?_
    rw [hsame _ hp, hsame _ hq']
    exact hpq
  · rw [hq] at hp hmem
    rw [hsame p hp] at hpun ⊢
    rw [hsame q hmem] at hqun ⊢
    exact hclose p (List.mem_cons_of_mem _ hp) q (List.mem_cons_of_mem _ hmem) hpun hqun
  · refine ⟨gap + t, ?_, ?_⟩
    · rw [hq]
      exact (hrecent gap hgap.tail).update hpid hadvance.size
    · rw [hq, room_update hadvance.size, room_update hadvance.size]
      rw [room_cons] at hle
      omega
  · rw [hall]
    exact h.allPcb
  · rw [room_update hadvance.size]
    exact h.frames

/-- The process goes to the tail of the queue, with the page that it needs used last. -/
theorem Rounds.requeue (h : Rounds c procs ran g k) (hqueue : k.queue = pid :: queue)
    (hun₀ : (g pid).Unfinished)
    (hpaged : Paged c procs (Function.update g pid p') k') (hq : k'.queue = queue ++ [pid])
    (hall : k'.allPcb = k.allPcb) (hadvance : Advance (g pid) p')
    (ht : t ≤ min 2 (g pid).pages) (hpages : 1 ≤ (g pid).pages)
    (hrecent : ∀ gap, Recent g queue k.lruCache gap → gap + room g (pid :: queue) ≤ room g procs →
      Recent g queue k'.lruCache (gap + t))
    (hown : p'.Unfinished → 6 ≤ p'.done → ∀ i, i < p'.loaded → ¬p'.Complete i →
      k'.lruCache.head? = some (pid, i))
    (htraced : Traced ran (Function.update g pid p') k'.executed)
    (hspill : Spill c procs (Function.update g pid p') k') :
    Rounds c procs ran (Function.update g pid p') k' := by
  have hnodup := h.nodup
  have hqueued := h.queued
  have hahead := h.ahead
  have hclose := h.close
  obtain ⟨gap, hgap, hle⟩ := h.recent
  rw [hqueue] at hnodup hqueued hahead hclose hgap hle
  have hpid : pid ∉ queue := (List.nodup_cons.1 hnodup).1
  have hself : Function.update g pid p' pid = p' := Function.update_self ..
  have hsame : ∀ q ∈ queue, Function.update g pid p' q = g q := fun q hmem =>
    Function.update_of_ne (fun heq : q = pid => hpid (by rw [← heq]; exact hmem)) ..
  -- Of the others none is ahead by more than a turn.
  have hothers : ∀ q ∈ queue, (g q).Unfinished →
      (g pid).first ≤ (g q).first ∧ (g q).first ≤ (g pid).first + 2 := fun q hmem hun =>
    ⟨(List.pairwise_cons.1 hahead).1 q hmem hun₀ hun,
      hclose pid List.mem_cons_self q (List.mem_cons_of_mem _ hmem) hun₀ hun⟩
  have hsix : ∀ q, (g q).first ≤ 6 := fun q => Nat.min_le_right ..
  have hfirst := hadvance.first_le
  refine ⟨hpaged, fun q hmem => ?_, ?_, fun q hmem => ?_, fun q hmem hun => ?_, ?_,
    fun p hp q hmem hpun hqun => ?_, ⟨gap, ?_, ?_⟩, ?_, ?_, htraced, hspill⟩
  · by_cases hqp : q = pid
    · rw [hqp, hself]
      exact hadvance.settled (h.settled pid (hqueued pid List.mem_cons_self))
    · rw [Function.update_of_ne hqp]
      exact h.settled q hmem
  · rw [hq, List.nodup_append]
    exact ⟨(List.nodup_cons.1 hnodup).2, List.nodup_singleton pid, fun a ha b hb heq =>
      hpid (List.mem_singleton.1 hb ▸ heq ▸ ha)⟩
  · rw [hq, List.mem_append, List.mem_singleton] at hmem
    rcases hmem with hmem | rfl
    · exact hqueued q (List.mem_cons_of_mem _ hmem)
    · exact hqueued q List.mem_cons_self
  · rw [hq, List.mem_append, List.mem_singleton]
    by_cases hqp : q = pid
    · exact .inr hqp
    · rw [Function.update_of_ne hqp] at hun
      have := h.waiting q hmem hun
      rw [hqueue, List.mem_cons] at this
      exact .inl (this.resolve_left hqp)
  · rw [hq, List.pairwise_append]
    refine ⟨(List.pairwise_cons.1 hahead).2.imp_of_mem fun hp hq' hpq => ?_,
      List.pairwise_singleton _ _, fun q hmem r hr hqun hrun => ?_⟩
    · rw [hsame _ hp, hsame _ hq']
      exact hpq
    · rw [List.mem_singleton.1 hr, hself] at hrun ⊢
      rw [hsame q hmem] at hqun ⊢
      have := hothers q hmem hqun
      have := hsix q
      have := hadvance.first.resolve_right (not_not.2 hrun)
      omega
  · rw [hq, List.mem_append, List.mem_singleton] at hp hmem
    rcases hp with hp | rfl
    · rw [hsame p hp] at hpun ⊢
      rcases hmem with hmem | rfl
      · rw [hsame q hmem] at hqun ⊢
        exact hclose p (List.mem_cons_of_mem _ hp) q (List.mem_cons_of_mem _ hmem) hpun hqun
      · rw [hself]
        have := hothers p hp hpun
        omega
    · rw [hself] at hpun ⊢
      rcases hmem with hmem | rfl
      · rw [hsame q hmem] at hqun ⊢
        have := hothers q hmem hqun
        have := hsix q
        have := hadvance.first.resolve_right (not_not.2 hpun)
        omega
      · rw [hself]
        omega
  · rw [hq]
    refine ((hrecent gap hgap.tail hle).update hpid hadvance.size).append ?_ ?_
    · rw [hself, Progress.pages, hadvance.size, ← Progress.pages]
      exact ht
    · rw [hself, Progress.pages, hadvance.size, ← Progress.pages]
      intro hun h6 i hi hno
      have hhead := hown hun h6 i hi hno
      cases hcache : k'.lruCache with
      | nil =>
          rw [hcache] at hhead
          cases hhead
      | cons y cache =>
          rw [hcache] at hhead
          obtain rfl := Option.some.inj hhead
          obtain ⟨n, hn⟩ : ∃ n, min 2 (g pid).pages = n + 1 := ⟨min 2 (g pid).pages - 1, by omega⟩
          rw [hn, List.take_succ_cons]
          exact List.mem_cons_self
  · rw [hq, room_update hadvance.size, room_update hadvance.size, room_append, room_cons, room_nil]
    rw [room_cons] at hle
    omega
  · rw [hall]
    exact h.allPcb
  · rw [room_update hadvance.size]
    exact h.frames

/-! ## A turn -/

/-- The states in which `run_proc` is called in a turn of the process. -/
def callStates (parseInput : CString → Kernel σ → Int × Kernel σ) (c : Sizes) (pid : Nat)
    (k : Kernel σ) : List (Kernel σ) :=
  if 1 < (k.pcbs pid).size then
    let r := runNext parseInput c pid k
    if r.1 = 1 then [k] else [k, r.2]
  else if (k.pcbs pid).size = 1 then [k]
  else []

/-- `run_proc` is called for `pid` in state `s` in the turn that is next. -/
def Calls (parseInput : CString → Kernel σ → Int × Kernel σ) (c : Sizes) (k : Kernel σ) (pid : Nat)
    (s : Kernel σ) : Prop :=
  k.stopped = false ∧ queueDone k = false ∧ ∃ queue, k.queue = pid :: queue ∧
    s ∈ callStates parseInput c pid { k with queue := queue }

theorem callStates_head (hsize : 1 ≤ (k.pcbs pid).size) :
    (callStates parseInput c pid k)[0]? = some k := by
  unfold callStates
  dsimp only
  split
  · split
    · rfl
    · rfl
  · rw [if_pos (by omega)]
    rfl

theorem mem_callStates_first (hsize : 1 ≤ (k.pcbs pid).size) :
    k ∈ callStates parseInput c pid k :=
  List.mem_of_getElem? (callStates_head hsize)

theorem mem_callStates_second (hsize : 1 < (k.pcbs pid).size)
    (hrun : runNext parseInput c pid k = (0, k')) : k' ∈ callStates parseInput c pid k := by
  unfold callStates
  rw [if_pos hsize, hrun]
  dsimp only
  rw [if_neg (by decide)]
  exact List.mem_cons_of_mem _ (List.mem_singleton_self k')

/-- In the turn that is next, the lines that are run return, and with another value than 1. -/
def TurnReturns (parseInput : CString → Kernel σ → Int × Kernel σ) (c : Sizes) (k : Kernel σ) :
    Prop :=
  ∀ pid s, Calls parseInput c k pid s → Returns parseInput pid s

/-- In the turn of `pid`, after `t` lines. -/
structure Midturn (c : Sizes) (procs queue : List Nat) (ran : Nat → List CString)
    (g : Nat → Progress) (k : Kernel σ) (pid t : Nat) (g₁ : Nat → Progress) (k₁ : Kernel σ) :
    Prop where
  paged : Paged c procs g₁ k₁
  popped : k₁.queue = queue
  allPcb : k₁.allPcb = k.allPcb
  other : ∀ p₁, Function.update g₁ pid p₁ = Function.update g pid p₁
  lines : (g₁ pid).lines = (g pid).lines
  size : (g₁ pid).size = (g pid).size
  loaded : (g₁ pid).loaded = (g pid).loaded
  done : (g₁ pid).done = (g pid).done + t
  recent : ∀ gap, Recent g queue k.lruCache gap → Recent g₁ queue k₁.lruCache (gap + t)
  traced : Traced ran g₁ k₁.executed
  spill : Spill c procs g₁ k₁

section Midturn

variable {g₁ : Nat → Progress} {k₁ : Kernel σ} {kind : CString → Prop}

theorem Midturn.ne (h : Midturn c procs queue ran g k pid t g₁ k₁) {q : Nat} (hq : q ≠ pid) :
    g₁ q = g q := by
  have heq := congrFun (h.other (g pid)) q
  rwa [Function.update_of_ne hq, Function.update_of_ne hq] at heq

theorem Midturn.pages (h : Midturn c procs queue ran g k pid t g₁ k₁) (q : Nat) :
    (g₁ q).pages = (g q).pages := by
  by_cases hq : q = pid
  · unfold Progress.pages
    rw [hq, h.size]
  · rw [h.ne hq]

theorem Midturn.room (h : Midturn c procs queue ran g k pid t g₁ k₁) (l : List Nat) :
    room g₁ l = SimpleShell.A3.room g l := by
  unfold SimpleShell.A3.room
  congr 1
  exact List.map_congr_left fun q _ => by rw [h.pages q]

/-- The turn begins. -/
theorem Rounds.midturn (h : Rounds c procs ran g k) :
    Midturn c procs queue ran g k pid 0 g { k with queue := queue } :=
  ⟨h.paged.setQueue queue, rfl, rfl, fun _ => rfl, rfl, rfl, rfl, rfl, fun _ hgap => hgap, h.traced,
    h.spill⟩

/-- Its first line is run, where it is in memory. -/
theorem Rounds.midturn_line (h : Rounds c procs ran g k) (hqueue : k.queue = pid :: queue)
    (ho : LeavesKernel kind c parseInput) (hkind : ∀ l ∈ (g pid).lines, kind l)
    (hret : Returns parseInput pid { k with queue := queue }) (hun : (g pid).Unfinished)
    (hin : (g pid).done / 3 < (g pid).loaded) :
    ∃ k₁, runNext parseInput c pid { k with queue := queue } = (0, k₁) ∧
      k₁.lruCache = MoveToFront.use k.lruCache (pid, (g pid).done / 3) ∧
      ((KeepsVars kind c parseInput →
          ∀ x, c.FRAME_STORE_SIZE ≤ x → k₁.shellmemory x = k.shellmemory x) ∧
        (KeepsCounter kind parseInput → k₁.pidCounter = k.pidCounter)) ∧
      Midturn c procs queue ran g k pid 1 (Function.update g pid (g pid).next) k₁ := by
  have hnodup := h.nodup
  rw [hqueue] at hnodup
  have hpid : pid ∈ procs := h.queued pid (by rw [hqueue]; exact List.mem_cons_self)
  have hcounted := (h.paged.ok pid hpid).counted
  have hupdate : Function.update g pid (g pid).next pid = (g pid).next := Function.update_self ..
  obtain ⟨k₁, hrun, hq, hlru, hall, hexec, hvars, hpaged⟩ :=
    (h.paged.setQueue queue).line hpid ho hkind hret hun hin
  refine ⟨k₁, hrun, hlru, hvars, hpaged, hq, hall, fun p₁ => Function.update_idem .., ?_, ?_, ?_, ?_,
    fun gap hgap => ?_, ?_, h.spill.use (h.paged.current hpid hun hin) hlru rfl⟩
  · rw [hupdate]
    rfl
  · rw [hupdate]
    rfl
  · rw [hupdate]
    rfl
  · rw [hupdate]
    rfl
  · rw [hlru]
    exact (hgap.use _).update (List.nodup_cons.1 hnodup).1 rfl
  · rw [hexec]
    exact Traced.next h.traced (Nat.lt_of_lt_of_le hun hcounted)

theorem Paged.runNext_missing (h : Paged c procs g k) (hpid : pid ∈ procs)
    (hun : (g pid).Unfinished) (hout : ¬(g pid).done / 3 < (g pid).loaded) :
    (runNext parseInput c pid k).1 = 1 := by
  obtain ⟨hnext, hplace⟩ := (h.process pid hpid).next hun
  have habsent := h.absent pid hpid _ (fun hmem => hout (h.known _ _ hmem).2) ((g pid).done % 3)
  unfold runNext
  dsimp only
  rw [hnext, hplace]
  unfold runProc cpuRun
  rw [if_pos habsent]
  rfl

/-- `run_proc` is only called for a process with lines left. -/
theorem Rounds.unfinished (h : Rounds c procs ran g k) (hqueue : k.queue = pid :: queue)
    {s : Kernel σ} (hs : s ∈ A3.callStates parseInput c pid { k with queue := queue }) :
    (g pid).Unfinished := by
  have hpid : pid ∈ procs := h.queued pid (by rw [hqueue]; exact List.mem_cons_self)
  have hsize : (k.pcbs pid).size = ((g pid).size : Int) - (g pid).done :=
    (h.paged.process pid hpid).size
  unfold Progress.Unfinished
  unfold A3.callStates at hs
  dsimp only at hs
  split at hs
  · omega
  · split at hs
    · omega
    · cases hs

/-- In the states in which `run_proc` is called, the process is in its turn. -/
theorem Rounds.callStates (h : Rounds c procs ran g k) (hqueue : k.queue = pid :: queue)
    (ho : LeavesKernel kind c parseInput) (hkind : ∀ l ∈ (g pid).lines, kind l)
    (hret : (g pid).Unfinished → Returns parseInput pid { k with queue := queue }) {s : Kernel σ}
    (hs : s ∈ A3.callStates parseInput c pid { k with queue := queue }) :
    (g pid).Unfinished ∧ ∃ t ≤ 1, ∃ g₁, Midturn c procs queue ran g k pid t g₁ s ∧
      (g₁ pid).Unfinished := by
  have hpid : pid ∈ procs := h.queued pid (by rw [hqueue]; exact List.mem_cons_self)
  have hsize : (k.pcbs pid).size = ((g pid).size : Int) - (g pid).done :=
    (h.paged.process pid hpid).size
  have hun := h.unfinished hqueue hs
  have hfirst : ∃ t ≤ 1, ∃ g₁,
      Midturn c procs queue ran g k pid t g₁ { k with queue := queue } ∧ (g₁ pid).Unfinished :=
    ⟨0, Nat.zero_le 1, g, h.midturn, hun⟩
  refine ⟨hun, ?_⟩
  unfold A3.callStates at hs
  dsimp only at hs
  split at hs
  · next htwo =>
      split at hs
      · rw [List.mem_singleton.1 hs]
        exact hfirst
      · next hgoes =>
          rcases List.mem_pair.1 hs with rfl | rfl
          · exact hfirst
          · have hin : (g pid).done / 3 < (g pid).loaded := by
              by_contra hout
              exact hgoes ((h.paged.setQueue queue).runNext_missing hpid hun hout)
            obtain ⟨k₁, hrun, -, -, hmid⟩ := h.midturn_line hqueue ho hkind (hret hun) hun hin
            rw [hrun]
            refine ⟨1, Nat.le_refl 1, _, hmid, ?_⟩
            rw [Function.update_self]
            show (g pid).done + 1 < (g pid).size
            omega
  · split at hs
    · rw [List.mem_singleton.1 hs]
      exact hfirst
    · cases hs

/-- A process with lines left is run in its turn. -/
theorem Rounds.mem_callStates (h : Rounds c procs ran g k) (hqueue : k.queue = pid :: queue)
    (hun : (g pid).Unfinished) :
    { k with queue := queue } ∈ A3.callStates parseInput c pid { k with queue := queue } := by
  have hpid : pid ∈ procs := h.queued pid (by rw [hqueue]; exact List.mem_cons_self)
  have hsize := (h.paged.process pid hpid).size
  unfold Progress.Unfinished at hun
  exact mem_callStates_first (show 1 ≤ (k.pcbs pid).size by omega)

/-- When the process comes to a page that is not loaded and there are no frames, the page used
longest ago is done. -/
theorem Rounds.victim (h : Rounds c procs ran g k) (hqueue : k.queue = pid :: queue)
    (hun₀ : (g pid).Unfinished) (hmid : Midturn c procs queue ran g k pid t g₁ k₁) (ht : t ≤ 1)
    (hun : (g₁ pid).Unfinished) (hout : (g₁ pid).done / 3 = (g₁ pid).loaded) :
    (2 ≤ (g pid).loaded ∧ (g pid).loaded < (g pid).pages ∧ 6 ≤ (g pid).done) ∧
      ∀ gap, Recent g queue k.lruCache gap → gap + room g (pid :: queue) ≤ room g procs →
        ∀ {pidText : CString}, frameAlloc c k₁.shellmemory pidText = none →
          room g queue + (gap + t) < k₁.lruCache.length ∧
            ∃ v, k₁.lruCache.getLast? = some v ∧ v.1 ∈ k₁.allPcb ∧ (g₁ v.1).Complete v.2 := by
  have hqueued := h.queued
  have hahead := h.ahead
  rw [hqueue] at hqueued hahead
  have hpid := hqueued pid List.mem_cons_self
  have hset := h.settled pid hpid
  have hreach := (hmid.paged.ok pid hpid).reach
  obtain ⟨hsize, -⟩ := pageTableSize_spec (g pid).size
  have hdone := hmid.done
  have hloaded := hmid.loaded
  have htwo := hset.two
  have heven := hset.even
  have hbound : (g pid).loaded < (g pid).pages := by
    unfold Progress.Unfinished at hun
    rw [hmid.size] at hun
    unfold Progress.pages
    omega
  have hsix : 6 ≤ (g pid).done := by
    have := fun hlt => heven hlt hun₀
    omega
  have hwaiting : ∀ q ∈ procs, q ≠ pid → (g₁ q).Unfinished → q ∈ queue ∧ 6 ≤ (g₁ q).done := by
    intro q hmem hqp hqun
    rw [hmid.ne hqp] at hqun ⊢
    have hin := h.waiting q hmem hqun
    rw [hqueue, List.mem_cons] at hin
    have hin := hin.resolve_left hqp
    have hfirst := (List.pairwise_cons.1 hahead).1 q hin hun₀ hqun
    unfold Progress.first at hfirst
    exact ⟨hin, by omega⟩
  refine ⟨⟨by omega, hbound, hsix⟩, fun gap hgap hle pidText halloc => ?_⟩
  have hvictim := @Paged.victim σ c procs queue g₁ k₁ pid gap t hmid.paged (by omega) (by omega)
    (by rw [hmid.pages]; omega) hwaiting (hmid.recent gap hgap) ht
    (by rw [hmid.room, hmid.room]; exact hle) (by rw [hmid.room]; exact h.frames)
    (fun q hq => by rw [hmid.allPcb, h.allPcb]; exact hq) pidText halloc
  rwa [hmid.room] at hvictim

/-- The process that has its turn has run the lines of all pages it has loaded: the next page is
loaded, and the process goes to the tail of the queue. -/
theorem Rounds.fault (h : Rounds c procs ran g k) (hqueue : k.queue = pid :: queue)
    (hun₀ : (g pid).Unfinished) (hmid : Midturn c procs queue ran g k pid t g₁ k₁) (ht : t ≤ 1)
    (hun : (g₁ pid).Unfinished) (hout : (g₁ pid).done / 3 = (g₁ pid).loaded) :
    ∃ k', runNext parseInput c pid k₁ = (1, k') ∧
      Advance (g pid) (g₁ pid).load ∧
      Rounds c procs ran (Function.update g pid (g₁ pid).load) k' ∧
      k'.queue = queue ++ [pid] ∧
      k'.lruCache = (pid, (g₁ pid).loaded) :: madeRoom c pid k₁ ∧
      (∀ x, c.FRAME_STORE_SIZE ≤ x → k'.shellmemory x = k₁.shellmemory x) ∧
      k'.pidCounter = k₁.pidCounter := by
  obtain ⟨gap, hgap, hle⟩ := h.recent
  have hnodup := h.nodup
  rw [hqueue] at hgap hle hnodup
  have hpid : pid ∈ procs := h.queued pid (by rw [hqueue]; exact List.mem_cons_self)
  have hreach := (hmid.paged.ok pid hpid).reach
  have hdone := hmid.done
  have hloaded := hmid.loaded
  obtain ⟨⟨htwo, hbound, hsix⟩, hvictim⟩ := h.victim hqueue hun₀ hmid ht hun hout
  obtain ⟨k', hrun, hqueue', hlru', hall', hexec', hvars', hpaged'⟩ := @Paged.miss σ c procs g₁ k₁ pid
    parseInput hmid.paged hpid hun hout fun halloc => (hvictim gap hgap.tail hle halloc).2
  rw [hmid.other] at hpaged'
  have hadvance : Advance (g pid) (g₁ pid).load := by
    refine ⟨hmid.lines, hmid.size, ?_, ?_, .inl ?_, ?_, ?_⟩
    · show (g pid).done ≤ (g₁ pid).done
      omega
    · show (g pid).loaded ≤ (g₁ pid).loaded + 1
      omega
    · show min (min (g pid).done 6 + 2) 6 ≤ min (g₁ pid).done 6
      omega
    · show (g₁ pid).done ≤ (g pid).done + 2
      omega
    · intro hlt
      have hlt' : (g₁ pid).done < 6 := hlt
      omega
  refine ⟨k', hrun, hadvance, @Rounds.requeue σ c procs queue ran g k k' pid (t + 1)
    (g₁ pid).load h hqueue hun₀ hpaged' (by rw [hqueue', hmid.popped])
    (hall'.trans hmid.allPcb) hadvance
    (by omega) (by omega) (fun gap hgap hle => ?_) (fun _ _ i hi hno => ?_) ?_ ?_,
    by rw [hqueue', hmid.popped], hlru', hvars'⟩
  · have hgap₁ := hmid.recent gap hgap
    rw [hlru', ← Nat.add_assoc]
    have hback : ∀ {cache : List (Nat × Nat)} {n : Nat}, Recent g₁ queue cache n →
        Recent g queue cache n := by
      intro cache n hn q rest hsuffix hqun h6 i hi hno
      have hqp : q ≠ pid := fun heq => (List.nodup_cons.1 hnodup).1
        (by rw [← heq]; exact hsuffix.subset List.mem_cons_self)
      have := hn q rest hsuffix
      rw [hmid.room, hmid.ne hqp] at this
      exact this hqun h6 i hi hno
    refine Recent.cons (hback ?_) _
    unfold madeRoom
    split
    · exact hgap₁
    · next halloc =>
        have hnone : frameAlloc c k₁.shellmemory (pidString pid) = none := by
          rw [← Option.not_isSome_iff_eq_none]
          exact halloc
        refine hgap₁.dropLast ?_
        rw [hmid.room]
        exact (hvictim gap hgap hle hnone).1
  · rw [hlru']
    show some _ = some _
    have hi' : i < (g₁ pid).loaded + 1 := hi
    unfold Progress.Complete at hno
    have hno' : ¬min (3 * (i + 1)) (g₁ pid).size ≤ (g₁ pid).done := hno
    have heq : i = (g₁ pid).loaded := by omega
    rw [heq]
  · have htr := @Traced.load ran g₁ pid k₁.executed hmid.traced
    rw [hexec', ← hmid.other]
    exact htr
  · rw [← hmid.other]
    exact hmid.spill.load hmid.paged hlru'

end Midturn

theorem rrTurn_one (hsize : (k.pcbs pid).size = 1) :
    rrTurn parseInput c pid k = (runNext parseInput c pid k).2 := by
  unfold rrTurn
  rw [if_neg (by omega), if_pos hsize]

theorem rrTurn_fault (hsize : 1 ≤ (k.pcbs pid).size) (hret : (runNext parseInput c pid k).1 = 1) :
    rrTurn parseInput c pid k = (runNext parseInput c pid k).2 := by
  unfold rrTurn
  dsimp only
  rw [hret, if_pos rfl]
  split
  · rfl
  · rw [if_pos (by omega)]

theorem rrTurn_two (hsize : 1 < (k.pcbs pid).size) (hret : (runNext parseInput c pid k).1 = 0) :
    rrTurn parseInput c pid k =
      if (runNext parseInput c pid (runNext parseInput c pid k).2).1 = 1 then
        (runNext parseInput c pid (runNext parseInput c pid k).2).2
      else { (runNext parseInput c pid (runNext parseInput c pid k).2).2 with
        queue := (runNext parseInput c pid (runNext parseInput c pid k).2).2.queue ++ [pid] } := by
  unfold rrTurn
  dsimp only
  rw [if_pos hsize, hret, if_neg (show ¬(0 : Int) = 1 by decide)]

/-- A turn of the process at the head of the queue. -/
theorem Rounds.turn {lines : CString → Prop} (h : Rounds c procs ran g k)
    (ho : LeavesKernel lines c parseInput) (hkind : ∀ q, ∀ l ∈ (g q).lines, lines l)
    (hret : TurnReturns parseInput c k) (hdone : queueDone k = false)
    (hqueue : k.queue = pid :: queue) :
    ∃ p', Advance (g pid) p' ∧
      Rounds c procs ran (Function.update g pid p')
        (rrTurn parseInput c pid { k with queue := queue }) ∧
      p'.left + (rrTurn parseInput c pid { k with queue := queue }).queue.length <
        (g pid).left + k.queue.length ∧
      (KeepsVars lines c parseInput → ∀ x, c.FRAME_STORE_SIZE ≤ x →
        (rrTurn parseInput c pid { k with queue := queue }).shellmemory x = k.shellmemory x) ∧
      (KeepsCounter lines parseInput →
        (rrTurn parseInput c pid { k with queue := queue }).pidCounter = k.pidCounter) := by
  have hpid : pid ∈ procs := h.queued pid (by rw [hqueue]; exact List.mem_cons_self)
  have hp := h.paged.setQueue queue
  have hset := h.settled pid hpid
  have hok := h.paged.ok pid hpid
  have hcalls := fun s hs => hret pid s ⟨h.paged.stopped, hdone, queue, hqueue, hs⟩
  have hsize : (k.pcbs pid).size = ((g pid).size : Int) - (g pid).done :=
    (h.paged.process pid hpid).size
  have hle := hok.le
  have hreach := hok.reach
  have hcounted := hok.counted
  obtain ⟨hpages, -⟩ := pageTableSize_spec (g pid).size
  have hlen : k.queue.length = queue.length + 1 := by rw [hqueue, List.length_cons]
  by_cases hun : (g pid).Unfinished
  · have hlt : (g pid).done < (g pid).size := hun
    have hone : 1 ≤ (g pid).pages := by
      unfold Progress.pages
      omega
    by_cases hin : (g pid).done / 3 < (g pid).loaded
    · obtain ⟨k₁, hrun₁, hlru₁, hvars₁, hmid₁⟩ := h.midturn_line hqueue ho (hkind pid)
        (hcalls _ (mem_callStates_first (show 1 ≤ (k.pcbs pid).size by omega))) hun hin
      by_cases hlast : (g pid).done + 1 = (g pid).size
      · -- The last line of the script.
        have hturn : rrTurn parseInput c pid { k with queue := queue } = k₁ := by
          rw [@rrTurn_one σ c { k with queue := queue } pid parseInput
            (show (k.pcbs pid).size = 1 by omega), hrun₁]
        have hfinished : ¬(g pid).next.Unfinished := by
          unfold Progress.Unfinished Progress.next
          dsimp only
          omega
        have hadvance : Advance (g pid) (g pid).next :=
          ⟨rfl, rfl, Nat.le_succ _, Nat.le_refl _, .inr hfinished,
            Nat.add_le_add_left (by decide) _, fun _ hno => absurd hno hfinished⟩
        rw [hturn]
        refine ⟨_, hadvance, @Rounds.leave σ c procs queue ran g k k₁ pid 1 (g pid).next h hqueue
          hmid₁.paged hmid₁.popped hmid₁.allPcb hadvance hfinished (by omega) (fun gap hgap => ?_)
          hmid₁.traced hmid₁.spill, ?_, hvars₁⟩
        · rw [hlru₁]
          exact hgap.use _
        · rw [hmid₁.popped, hlen]
          show (g pid).size - ((g pid).done + 1) + _ + _ < _
          unfold Progress.left
          show _ - _ + ((g pid).pages - (g pid).loaded) + queue.length < _
          omega
      · have hupdate : Function.update g pid (g pid).next pid = (g pid).next :=
          Function.update_self ..
        have hdone₁ : (g pid).next.done = (g pid).done + 1 := rfl
        have hun₁ : (g pid).next.Unfinished := by
          show (g pid).done + 1 < (g pid).size
          omega
        by_cases hin₂ : ((g pid).done + 1) / 3 < (g pid).loaded
        · -- A second line.
          obtain ⟨k₂, hrun₂, hq₂, hlru₂, hall₂, hexec₂, hvars₂, hpaged₂⟩ := @Paged.line σ c procs
            (Function.update g pid (g pid).next) k₁ pid parseInput lines hmid₁.paged hpid ho
            (by rw [hupdate]; exact hkind pid)
            (hcalls _ (mem_callStates_second (show 1 < (k.pcbs pid).size by omega) hrun₁))
            (by rw [hupdate]; exact hun₁) (by rw [hupdate]; exact hin₂)
          have htraced₂ := @Traced.next ran (Function.update g pid (g pid).next) pid k₁.executed
            hmid₁.traced (by rw [hupdate]; exact Nat.lt_of_lt_of_le hun₁ hcounted)
          rw [← hexec₂] at htraced₂
          have hspill₂ := @Spill.use σ c procs (Function.update g pid (g pid).next) k₁ k₂ pid _
            (g pid).next.next hmid₁.spill (hmid₁.paged.current hpid
              (by rw [hupdate]; exact hun₁) (by rw [hupdate]; exact hin₂)) hlru₂
            (by rw [hupdate]; rfl)
          rw [hupdate, Function.update_idem] at hpaged₂ htraced₂
          rw [Function.update_idem] at hspill₂
          rw [hupdate] at hlru₂
          have hturn : rrTurn parseInput c pid { k with queue := queue } =
              { k₂ with queue := k₂.queue ++ [pid] } := by
            rw [@rrTurn_two σ c { k with queue := queue } pid parseInput
              (show 1 < (k.pcbs pid).size by omega) (by rw [hrun₁]), hrun₁, hrun₂]
            exact if_neg (show ¬(0 : Int) = 1 by decide)
          have hdone₂ : (g pid).next.next.done = (g pid).done + 2 := rfl
          have hadvance : Advance (g pid) (g pid).next.next := by
            refine ⟨rfl, rfl, ?_, Nat.le_refl _, .inl ?_, Nat.le_refl _, fun hlt₂ hun₂ => ?_⟩
            · rw [hdone₂]
              omega
            · show min (min (g pid).done 6 + 2) 6 ≤ min ((g pid).done + 2) 6
              omega
            · have := hset.even (by omega) hun
              rw [hdone₂]
              omega
          have hbound := hok.bound
          have hnear := hok.near
          rw [hturn]
          refine ⟨_, hadvance, @Rounds.requeue σ c procs queue ran g k _ pid
            (if ((g pid).done + 1) / 3 = (g pid).done / 3 then 1 else 2) (g pid).next.next h hqueue
            hun (hpaged₂.setQueue _) (by rw [hq₂, hmid₁.popped]) (hall₂.trans hmid₁.allPcb) hadvance
            ?_ hone (fun gap hgap _ => ?_) (fun hun₂ h6 i hi hno => ?_) htraced₂ hspill₂, ?_,
            fun hkeep x hx => (hvars₂.1 hkeep x hx).trans (hvars₁.1 hkeep x hx),
            fun hcounter => (hvars₂.2 hcounter).trans (hvars₁.2 hcounter)⟩
          · split
            · omega
            · omega
          · show Recent g queue k₂.lruCache _
            rw [hlru₂, hlru₁]
            show Recent g queue (MoveToFront.use (MoveToFront.use k.lruCache
              (pid, (g pid).done / 3)) (pid, ((g pid).done + 1) / 3)) _
            split
            · next heq =>
                rw [heq, MoveToFront.use_use]
                exact hgap.use _
            · exact (hgap.use _).use _
          · show k₂.lruCache.head? = _
            rw [hlru₂]
            show some (pid, ((g pid).done + 1) / 3) = _
            have hi' : i < (g pid).loaded := hi
            have hno' : ¬min (3 * (i + 1)) (g pid).size ≤ (g pid).done + 2 := hno
            rw [hdone₂] at h6
            have heq : ((g pid).done + 1) / 3 = i := by omega
            rw [heq]
          · show _ - _ + _ + (k₂.queue ++ [pid]).length < _
            rw [hq₂, hmid₁.popped, List.length_append, List.length_singleton, hlen]
            unfold Progress.left
            show (g pid).size - ((g pid).done + 2) + ((g pid).pages - (g pid).loaded) +
              (queue.length + 1) < _
            omega
        · -- The second line is on a page that is loaded first.
          obtain ⟨k', hrun', hadvance, hrounds, hq', -, hvars'⟩ := h.fault
            hqueue hun hmid₁ (Nat.le_refl 1) (by rw [hupdate]; exact hun₁)
            (by rw [hupdate]; show ((g pid).done + 1) / 3 = (g pid).loaded; omega)
          rw [hupdate] at hadvance hrounds
          have hturn : rrTurn parseInput c pid { k with queue := queue } = k' := by
            rw [@rrTurn_two σ c { k with queue := queue } pid parseInput
              (show 1 < (k.pcbs pid).size by omega) (by rw [hrun₁]), hrun₁, hrun']
            exact if_pos rfl
          rw [hturn]
          refine ⟨_, hadvance, hrounds, ?_,
            fun hkeep x hx => (hvars'.1 x hx).trans (hvars₁.1 hkeep x hx),
            fun hcounter => hvars'.2.trans (hvars₁.2 hcounter)⟩
          rw [hq', List.length_append, List.length_singleton, hlen]
          unfold Progress.left
          show (g pid).size - ((g pid).done + 1) + ((g pid).pages - ((g pid).loaded + 1)) +
            (queue.length + 1) < _
          omega
    · -- The first line already.
      obtain ⟨k', hrun', hadvance, hrounds, hq', -, hvars'⟩ := h.fault
        hqueue hun h.midturn (Nat.zero_le 1) hun (by omega)
      have hturn : rrTurn parseInput c pid { k with queue := queue } = k' := by
        rw [@rrTurn_fault σ c { k with queue := queue } pid parseInput
          (show 1 ≤ (k.pcbs pid).size by omega) (by rw [hrun']), hrun']
      rw [hturn]
      refine ⟨_, hadvance, hrounds, ?_, fun _ => hvars'.1, fun _ => hvars'.2⟩
      rw [hq', List.length_append, List.length_singleton, hlen]
      unfold Progress.left
      have hmissing : (g pid).loaded < (g pid).pages := by
        unfold Progress.pages
        omega
      show (g pid).size - (g pid).done + ((g pid).pages - ((g pid).loaded + 1)) +
        (queue.length + 1) < _
      omega
  · -- A process that is done only leaves.
    have hnone : (k.pcbs pid).size = 0 := by
      unfold Progress.Unfinished at hun
      omega
    have hturn : rrTurn parseInput c pid { k with queue := queue } = { k with queue := queue } := by
      unfold rrTurn
      rw [if_neg (show ¬1 < (k.pcbs pid).size by omega),
        if_neg (show ¬(k.pcbs pid).size = 1 by omega)]
    have hadvance : Advance (g pid) (g pid) :=
      ⟨rfl, rfl, Nat.le_refl _, Nat.le_refl _, .inr hun, Nat.le_add_right _ 2,
        fun _ hno => absurd hno hun⟩
    rw [hturn]
    refine ⟨g pid, hadvance, @Rounds.leave σ c procs queue ran g k _ pid 0 (g pid) h hqueue
      (by rw [Function.update_eq_self]; exact hp) rfl rfl hadvance hun (Nat.zero_le _)
      (fun gap hgap => hgap) (by rw [Function.update_eq_self]; exact h.traced)
      (by rw [Function.update_eq_self]; exact h.spill), ?_, fun _ _ _ => rfl, fun _ => rfl⟩
    rw [hlen]
    exact Nat.lt_succ_self _

end Recent

end SimpleShell.A3
