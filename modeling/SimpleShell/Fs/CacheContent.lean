import SimpleShell.Fs.Cache

/-!
# What the cache holds

The rest of the file system never looks at a slot. It sees one function,
`content`: for each sector of the device, the bytes a read would return. Every
operation of `cache.c` is described here by what it does to `content` — a read
returns it and leaves it alone, a write updates it at one sector, a close moves
it to the device — provided the cache is `CacheOk`, which they all preserve.

An eviction is the only step that could lose data. It does not, because the
slot it frees is clean by then: either it was, and the device already held the
buffer, or the flush has just put it there.
-/

namespace SimpleShell.Fs

open SimpleShell.Lib

variable {v : Driver}

/-- No two occupied slots hold one sector, none holds a sector that the driver
finds over another one, and a clean slot agrees with the device. -/
structure CacheOk (c : CacheOf v) : Prop where
  distinct : ∀ i j, (c.cache i).occupied → (c.cache j).occupied →
    (c.cache i).diskSector = (c.cache j).diskSector → i = j
  straight : ∀ i, (c.cache i).occupied → c.fsDevice.Straight (c.cache i).diskSector
  clean : ∀ i x, (c.cache i).occupied → (c.cache i).dirty = false →
    c.fsDevice.Holds (c.cache i).diskSector →
    blockRead c.fsDevice (c.cache i).diskSector x = (c.cache i).buffer

/-- The bytes a read of sector `k` returns; past the device, and where the
driver's offset wraps, there are none. -/
def CacheOf.content (c : CacheOf v) (k : Nat) : Sector :=
  if c.fsDevice.Holds k then
    match bufferCacheLookup c k with
    | some i => (c.cache i).buffer
    | none => blockRead c.fsDevice k .zeros
  else .zeros

theorem bufferCacheLookup_some {c : CacheOf v} {k : Nat}
    {i : Fin BUFFER_CACHE_SIZE} (h : bufferCacheLookup c k = some i) :
    (c.cache i).occupied ∧ (c.cache i).diskSector = k := by
  have := List.find?_some h
  simpa using this

theorem bufferCacheLookup_none {c : CacheOf v} {k : Nat}
    (h : bufferCacheLookup c k = none) (i : Fin BUFFER_CACHE_SIZE)
    (hocc : (c.cache i).occupied) : (c.cache i).diskSector ≠ k := by
  have := List.find?_eq_none.1 h i (List.mem_finRange i)
  simpa [hocc] using this

theorem CacheOk.lookup_eq {c : CacheOf v} (hc : CacheOk c)
    {i : Fin BUFFER_CACHE_SIZE} (hocc : (c.cache i).occupied) :
    bufferCacheLookup c (c.cache i).diskSector = some i := by
  cases h : bufferCacheLookup c (c.cache i).diskSector with
  | none => exact absurd rfl (bufferCacheLookup_none h i hocc)
  | some j =>
      obtain ⟨hj, hs⟩ := bufferCacheLookup_some h
      rw [hc.distinct j i hj hocc hs]

theorem CacheOk.content_slot {c : CacheOf v} (hc : CacheOk c)
    {i : Fin BUFFER_CACHE_SIZE} (hocc : (c.cache i).occupied)
    (hlt : c.fsDevice.Holds (c.cache i).diskSector) :
    c.content (c.cache i).diskSector = (c.cache i).buffer := by
  simp only [CacheOf.content, if_pos hlt, hc.lookup_eq hocc]

theorem content_miss {c : CacheOf v} {k : Nat} (hlt : c.fsDevice.Holds k)
    (h : ∀ i, (c.cache i).occupied → (c.cache i).diskSector ≠ k) :
    c.content k = blockRead c.fsDevice k .zeros := by
  simp only [CacheOf.content, if_pos hlt]
  cases hl : bufferCacheLookup c k with
  | none => rfl
  | some i =>
      obtain ⟨hi, hs⟩ := bufferCacheLookup_some hl
      exact absurd hs (h i hi)

/-- One cache shows the same content as another when every slot of it is
found, with its buffer, in the other, and the sectors only the other holds are
on the device. This is the form every preservation proof below takes. -/
theorem content_eq_of {c c' : CacheOf v} (hc' : CacheOk c')
    (hsize : c'.fsDevice.size = c.fsDevice.size)
    (hslot : ∀ i, (c'.cache i).occupied →
      c.fsDevice.Holds (c'.cache i).diskSector →
      (c'.cache i).buffer = c.content (c'.cache i).diskSector)
    (hmiss : ∀ k, c.fsDevice.Holds k →
      (∀ i, (c'.cache i).occupied → (c'.cache i).diskSector ≠ k) →
      blockRead c'.fsDevice k .zeros = c.content k) :
    c'.content = c.content := by
  funext k
  by_cases hlt : c.fsDevice.Holds k
  · by_cases hex : ∃ i, (c'.cache i).occupied ∧ (c'.cache i).diskSector = k
    · obtain ⟨i, hi, rfl⟩ := hex
      rw [hc'.content_slot hi (hlt.of_size hsize), hslot i hi hlt]
    · have hnone : ∀ i, (c'.cache i).occupied → (c'.cache i).diskSector ≠ k :=
        fun i hi hs => hex ⟨i, hi, hs⟩
      rw [content_miss (hlt.of_size hsize) hnone, hmiss k hlt hnone]
  · rw [CacheOf.content, if_neg fun h => hlt (h.of_size hsize.symm), CacheOf.content, if_neg hlt]

/-! ## The clock loop only clears reference bits -/

/-- Two states that differ at most in reference bits and the clock hand. -/
structure SameSlots (c c' : CacheOf v) : Prop where
  device : c'.fsDevice = c.fsDevice
  occupied : ∀ i, (c'.cache i).occupied = (c.cache i).occupied
  diskSector : ∀ i, (c'.cache i).diskSector = (c.cache i).diskSector
  buffer : ∀ i, (c'.cache i).buffer = (c.cache i).buffer
  dirty : ∀ i, (c'.cache i).dirty = (c.cache i).dirty

theorem SameSlots.refl (c : CacheOf v) : SameSlots c c :=
  ⟨rfl, fun _ => rfl, fun _ => rfl, fun _ => rfl, fun _ => rfl⟩

theorem SameSlots.trans {a b c : CacheOf v} (h₁ : SameSlots a b)
    (h₂ : SameSlots b c) : SameSlots a c :=
  ⟨h₂.device.trans h₁.device, fun i => (h₂.occupied i).trans (h₁.occupied i),
    fun i => (h₂.diskSector i).trans (h₁.diskSector i),
    fun i => (h₂.buffer i).trans (h₁.buffer i),
    fun i => (h₂.dirty i).trans (h₁.dirty i)⟩

theorem SameSlots.setAccess (c : CacheOf v) (i : Fin BUFFER_CACHE_SIZE)
    (a : Bool) (clock : Fin BUFFER_CACHE_SIZE) :
    SameSlots c { (c.setEntry i { c.cache i with access := a }) with
      clock := clock } := by
  constructor
  · rfl
  all_goals
    intro j
    by_cases hj : j = i
    · subst hj; simp
    · simp [CacheOf.setEntry_of_ne hj]

theorem SameSlots.ok {c c' : CacheOf v} (h : SameSlots c c')
    (hc : CacheOk c) : CacheOk c' := by
  constructor
  · intro i j hi hj hs
    rw [h.occupied] at hi hj
    rw [h.diskSector, h.diskSector] at hs
    exact hc.distinct i j hi hj hs
  · intro i hi
    rw [h.occupied] at hi
    rw [h.device, h.diskSector]
    exact hc.straight i hi
  · intro i x hi hd hlt
    rw [h.occupied] at hi
    rw [h.dirty] at hd
    rw [h.diskSector, h.device] at hlt
    rw [h.device, h.diskSector, h.buffer]
    exact hc.clean i x hi hd hlt

theorem SameSlots.content {c c' : CacheOf v} (h : SameSlots c c')
    (hc : CacheOk c) : c'.content = c.content := by
  refine content_eq_of (h.ok hc) (by rw [h.device]) ?_ ?_
  · intro i hi hlt
    rw [h.diskSector] at hlt ⊢
    rw [h.occupied] at hi
    rw [h.buffer, hc.content_slot hi hlt]
  · intro k hk hnone
    rw [h.device, content_miss hk]
    intro i hi
    rw [← h.diskSector]
    exact hnone i (by rw [h.occupied]; exact hi)

theorem clockLoop_spec : ∀ {n : Nat} {c c' : CacheOf v},
    clockLoop n c = some c' → SameSlots c c' ∧
      ((c'.cache c'.clock).occupied = false ∨
        (c'.cache c'.clock).access = false) := by
  intro n
  induction n with
  | zero => intro c c' h; simp [clockLoop] at h
  | succ n ih =>
      intro c c' h
      simp only [clockLoop] at h
      split at h
      · next hocc =>
          obtain rfl := Option.some.inj h
          exact ⟨.refl _, .inl hocc⟩
      · split at h
        · obtain ⟨h₁, h₂⟩ := ih h
          exact ⟨(SameSlots.setAccess ..).trans h₁, h₂⟩
        · next hacc =>
            obtain rfl := Option.some.inj h
            exact ⟨.refl _, .inr (by simpa using hacc)⟩

theorem clockStop_sameSlots (c : CacheOf v) : SameSlots c (clockStop c) :=
  (clockLoop_spec (Option.some_get (clockLoop_terminates c)).symm).1

/-! ## Flush, evict, fill -/

theorem bufferCacheFlush_size (c : CacheOf v) (i : Fin BUFFER_CACHE_SIZE) :
    (bufferCacheFlush c i).fsDevice.size = c.fsDevice.size := by
  unfold bufferCacheFlush
  split <;> rfl

theorem bufferCacheFlush_entry (c : CacheOf v) (i j : Fin BUFFER_CACHE_SIZE) :
    (bufferCacheFlush c i).cache j =
      if j = i then { c.cache i with dirty := false } else c.cache j := by
  unfold bufferCacheFlush
  split
  · by_cases hj : j = i
    · subst hj; simp
    · simp [CacheOf.setEntry_of_ne hj, hj]
  · next hd =>
      split
      · next hj =>
          have hd : (c.cache i).dirty = false := by simpa using hd
          rw [hj, ← hd]
      · rfl

/-- What the device reads after a flush: the slot's buffer where the slot was
dirty, and what it read before everywhere else. -/
theorem bufferCacheFlush_read {c : CacheOf v} {i : Fin BUFFER_CACHE_SIZE}
    (hi : c.fsDevice.Straight (c.cache i).diskSector) {k : Nat}
    (hk : c.fsDevice.Holds k) (x : Sector) :
    blockRead (bufferCacheFlush c i).fsDevice k x =
      if (c.cache i).dirty ∧ k = (c.cache i).diskSector then (c.cache i).buffer
      else blockRead c.fsDevice k x := by
  unfold bufferCacheFlush
  split
  · next hd =>
      simp only [hd, true_and]
      exact blockRead_blockWrite hk hi
  · next hd => simp [hd]

theorem bufferCacheFlush_ok {c : CacheOf v} (hc : CacheOk c)
    {i : Fin BUFFER_CACHE_SIZE} (hocc : (c.cache i).occupied) :
    CacheOk (bufferCacheFlush c i) := by
  have hentry := bufferCacheFlush_entry c i
  constructor
  · intro a b ha hb hs
    rw [hentry] at ha hb
    rw [hentry, hentry] at hs
    refine hc.distinct a b ?_ ?_ ?_
    · split at ha <;> simp_all
    · split at hb <;> simp_all
    · split at hs <;> split at hs <;> simp_all
  · intro j hj
    rw [hentry] at hj ⊢
    refine BlockOf.Straight.of_size (bufferCacheFlush_size c i) ?_
    by_cases hji : j = i
    · rw [if_pos hji]
      exact hc.straight i hocc
    · rw [if_neg hji] at hj ⊢
      exact hc.straight j hj
  · intro j x hj hd hlt
    have hlt := hlt.of_size (bufferCacheFlush_size c i).symm
    rw [bufferCacheFlush_read (hc.straight i hocc) hlt]
    rw [hentry] at hj hd hlt ⊢
    by_cases hji : j = i
    · subst hji
      simp only [if_true, and_true] at hlt ⊢
      split
      · rfl
      · next hdirty => exact hc.clean j x hocc (by simpa using hdirty) hlt
    · simp only [if_neg hji] at hj hd hlt ⊢
      rw [if_neg]
      · exact hc.clean j x hj hd hlt
      · rintro ⟨-, hs⟩
        exact hji (hc.distinct j i hj hocc hs)

theorem bufferCacheFlush_content {c : CacheOf v} (hc : CacheOk c)
    {i : Fin BUFFER_CACHE_SIZE} (hocc : (c.cache i).occupied) :
    (bufferCacheFlush c i).content = c.content := by
  have hentry := bufferCacheFlush_entry c i
  refine content_eq_of (bufferCacheFlush_ok hc hocc)
    (bufferCacheFlush_size c i) ?_ ?_
  · intro j hj hlt
    rw [hentry] at hj hlt ⊢
    by_cases hji : j = i
    · subst hji
      simp only [if_true] at hlt ⊢
      rw [hc.content_slot hocc hlt]
    · simp only [if_neg hji] at hj hlt ⊢
      rw [hc.content_slot hj hlt]
  · intro k hk hnone
    rw [bufferCacheFlush_read (hc.straight i hocc) hk]
    have hki : k ≠ (c.cache i).diskSector := by
      have := hnone i (by rw [hentry]; simpa using hocc)
      rw [hentry] at this
      simpa using this.symm
    rw [if_neg (fun h => hki h.2), content_miss hk]
    intro j hj hs
    have := hnone j (by rw [hentry]; split <;> simp_all)
    rw [hentry] at this
    split at this <;> simp_all

theorem bufferCacheEvict_spec {c : CacheOf v} (hc : CacheOk c) :
    let r := bufferCacheEvict c
    CacheOk r.2 ∧ r.2.content = c.content ∧
      r.2.fsDevice.size = c.fsDevice.size ∧
      (r.2.cache r.1).occupied = false ∧
      ∀ i, (r.2.cache i).occupied → (c.cache i).occupied ∧
        (r.2.cache i).diskSector = (c.cache i).diskSector := by
  have hss := clockStop_sameSlots c
  have hok := hss.ok hc
  have hcont := hss.content hc
  simp only [bufferCacheEvict]
  split
  · next hfree =>
      refine ⟨hok, hcont, by rw [hss.device], hfree, fun i hi => ?_⟩
      exact ⟨by rw [← hss.occupied]; exact hi, hss.diskSector i⟩
  · next hocc =>
      -- The victim is flushed first, so its slot is clean when it is given up.
      generalize clockStop c = m at hss hok hcont hocc
      have hocc : (m.cache m.clock).occupied := by simpa using hocc
      have hfok := bufferCacheFlush_ok hok hocc
      have hfcont := bufferCacheFlush_content hok hocc
      have hentry := bufferCacheFlush_entry m m.clock
      have hfsize := bufferCacheFlush_size m m.clock
      have hclock : (bufferCacheFlush m m.clock).clock = m.clock := by
        unfold bufferCacheFlush; split <;> rfl
      generalize bufferCacheFlush m m.clock = g at hfok hfcont hentry hfsize hclock
      have hother : ∀ i, i ≠ m.clock →
          (g.setEntry m.clock { g.cache m.clock with occupied := false }).cache i =
            m.cache i := fun i hi => by
        rw [CacheOf.setEntry_of_ne hi, hentry, if_neg hi]
      have hself : ((g.setEntry m.clock
          { g.cache m.clock with occupied := false }).cache m.clock).occupied =
            false := by simp
      have hok' : CacheOk
          (g.setEntry m.clock { g.cache m.clock with occupied := false }) := by
        constructor
        · intro a b ha hb hs
          have ha' : a ≠ m.clock := by rintro rfl; simp at ha
          have hb' : b ≠ m.clock := by rintro rfl; simp at hb
          rw [CacheOf.setEntry_of_ne ha'] at ha hs
          rw [CacheOf.setEntry_of_ne hb'] at hb hs
          exact hfok.distinct a b ha hb hs
        · intro a ha
          have ha' : a ≠ m.clock := by rintro rfl; simp at ha
          rw [CacheOf.setEntry_of_ne ha'] at ha ⊢
          exact hfok.straight a ha
        · intro a x ha hd hlt
          have ha' : a ≠ m.clock := by rintro rfl; simp at ha
          rw [CacheOf.setEntry_of_ne ha'] at ha hd hlt ⊢
          exact hfok.clean a x ha hd hlt
      rw [hclock]
      refine ⟨hok', ?_, by simp [hfsize, hss.device], by simp, ?_⟩
      · rw [← hcont, ← hfcont]
        refine content_eq_of hok' rfl ?_ ?_
        · intro i hi hlt
          have hi' : i ≠ m.clock := by rintro rfl; simp at hi
          rw [CacheOf.setEntry_of_ne hi'] at hi hlt ⊢
          rw [hfok.content_slot hi hlt]
        · intro k hk hnone
          simp only [CacheOf.setEntry_fsDevice]
          by_cases hkm : (g.cache m.clock).diskSector = k
          · subst hkm
            have hgocc : (g.cache m.clock).occupied := by
              rw [hentry]; simpa using hocc
            rw [hfok.content_slot hgocc hk]
            exact hfok.clean _ _ hgocc (by rw [hentry]; simp) hk
          · rw [content_miss hk]
            intro i hi
            by_cases him : i = m.clock
            · subst him; exact hkm
            · have := hnone i
              rw [CacheOf.setEntry_of_ne him] at this
              exact this hi
      · intro i hi
        have hi' : i ≠ m.clock := by rintro rfl; simp at hi
        rw [hother i hi'] at hi ⊢
        exact ⟨by rw [← hss.occupied]; exact hi, hss.diskSector i⟩

theorem cacheFill_spec {c : CacheOf v} (hc : CacheOk c) {sector : Nat}
    (hstraight : c.fsDevice.Straight sector) :
    let r := cacheFill c sector
    CacheOk r.2 ∧ r.2.content = c.content ∧
      r.2.fsDevice.size = c.fsDevice.size ∧ (r.2.cache r.1).occupied ∧
      (r.2.cache r.1).diskSector = sector := by
  simp only [cacheFill]
  split
  · next i hi =>
      obtain ⟨hocc, hs⟩ := bufferCacheLookup_some hi
      exact ⟨hc, rfl, rfl, hocc, hs⟩
  · next hnone =>
      obtain ⟨hok, hcont, hsize, hfree, hsub⟩ := bufferCacheEvict_spec hc
      generalize bufferCacheEvict c = r at hok hcont hsize hfree hsub
      obtain ⟨v, m⟩ := r
      have habs : ∀ i, (m.cache i).occupied → (m.cache i).diskSector ≠ sector :=
        fun i hi => by
          obtain ⟨hi', hs⟩ := hsub i hi
          rw [hs]
          exact bufferCacheLookup_none hnone i hi'
      have hok' : CacheOk (m.setEntry v
          { m.cache v with
            occupied := true, diskSector := sector, dirty := false
            buffer := blockRead m.fsDevice sector (m.cache v).buffer }) := by
        constructor
        · intro a b ha hb hs
          by_cases hav : a = v <;> by_cases hbv : b = v
          · rw [hav, hbv]
          · subst hav
            rw [CacheOf.setEntry_of_ne hbv] at hb hs
            simp only [CacheOf.setEntry_same] at hs
            exact absurd hs.symm (habs b hb)
          · subst hbv
            rw [CacheOf.setEntry_of_ne hav] at ha hs
            simp only [CacheOf.setEntry_same] at hs
            exact absurd hs (habs a ha)
          · rw [CacheOf.setEntry_of_ne hav] at ha hs
            rw [CacheOf.setEntry_of_ne hbv] at hb hs
            exact hok.distinct a b ha hb hs
        · intro a ha
          by_cases hav : a = v
          · rw [hav, CacheOf.setEntry_same]
            exact hstraight.of_size hsize
          · rw [CacheOf.setEntry_of_ne hav] at ha ⊢
            exact hok.straight a ha
        · intro a x ha hd hlt
          by_cases hav : a = v
          · subst hav
            simp only [CacheOf.setEntry_same,
              CacheOf.setEntry_fsDevice] at hlt ⊢
            exact blockRead_indep hlt _ _
          · rw [CacheOf.setEntry_of_ne hav] at ha hd hlt ⊢
            exact hok.clean a x ha hd hlt
      refine ⟨hok', ?_, by simpa using hsize, by simp, by simp⟩
      rw [← hcont]
      refine content_eq_of hok' rfl ?_ ?_
      · intro i hi hlt
        by_cases hiv : i = v
        · subst hiv
          simp only [CacheOf.setEntry_same] at hlt ⊢
          rw [content_miss hlt habs]
          exact blockRead_indep hlt _ _
        · rw [CacheOf.setEntry_of_ne hiv] at hi hlt ⊢
          rw [hok.content_slot hi hlt]
      · intro k hk hmiss
        rw [content_miss hk]
        · rfl
        · intro i hi
          have hiv : i ≠ v := by rintro rfl; exact absurd hi (by simpa using hfree)
          have := hmiss i
          rw [CacheOf.setEntry_of_ne hiv] at this
          exact this hi

/-! ## Read and write -/

theorem bufferCacheRead_ok {c : CacheOf v} (hc : CacheOk c) {sector : Nat}
    (hs : c.fsDevice.Straight sector) : CacheOk (bufferCacheRead c sector).2 :=
  (SameSlots.setAccess ..).ok (cacheFill_spec hc hs).1

theorem bufferCacheRead_content {c : CacheOf v} (hc : CacheOk c)
    {sector : Nat} (hs : c.fsDevice.Straight sector) :
    (bufferCacheRead c sector).2.content = c.content := by
  obtain ⟨hok, hcont, -⟩ := cacheFill_spec hc hs
  rw [← hcont]
  exact (SameSlots.setAccess ..).content hok

theorem bufferCacheRead_size {c : CacheOf v} (hc : CacheOk c) {sector : Nat}
    (hs : c.fsDevice.Straight sector) :
    (bufferCacheRead c sector).2.fsDevice.size = c.fsDevice.size :=
  (cacheFill_spec hc hs).2.2.1

theorem bufferCacheRead_fst {c : CacheOf v} (hc : CacheOk c) {sector : Nat}
    (hlt : c.fsDevice.Holds sector) :
    (bufferCacheRead c sector).1 = c.content sector := by
  obtain ⟨hok, hcont, hsize, hocc, hs⟩ := cacheFill_spec hc hlt.straight
  rw [← hcont]
  have := hok.content_slot hocc (by rw [hs]; exact hlt.of_size hsize)
  rw [hs] at this
  exact this.symm

theorem bufferCacheWrite_size {c : CacheOf v} (hc : CacheOk c) {sector : Nat}
    (hs : c.fsDevice.Straight sector) (b : Sector) :
    (bufferCacheWrite c sector b).fsDevice.size = c.fsDevice.size :=
  (cacheFill_spec hc hs).2.2.1

theorem bufferCacheWrite_ok {c : CacheOf v} (hc : CacheOk c) {sector : Nat}
    (hstraight : c.fsDevice.Straight sector) (b : Sector) :
    CacheOk (bufferCacheWrite c sector b) := by
  obtain ⟨hok, hcont, hsize, hocc, hs⟩ := cacheFill_spec hc hstraight
  simp only [bufferCacheWrite]
  generalize cacheFill c sector = r at hok hcont hsize hocc hs
  obtain ⟨v, m⟩ := r
  constructor
  · intro i j hi hj hij
    refine hok.distinct i j ?_ ?_ ?_
    · by_cases h : i = v
      · rw [h]; exact hocc
      · rw [← CacheOf.setEntry_of_ne h]; exact hi
    · by_cases h : j = v
      · rw [h]; exact hocc
      · rw [← CacheOf.setEntry_of_ne h]; exact hj
    · by_cases h : i = v <;> by_cases h' : j = v
      · rw [h, h']
      · subst h; simpa [CacheOf.setEntry_of_ne h'] using hij
      · subst h'; simpa [CacheOf.setEntry_of_ne h] using hij
      · simpa [CacheOf.setEntry_of_ne h, CacheOf.setEntry_of_ne h'] using hij
  · intro i hi
    by_cases h : i = v
    · subst h
      rw [CacheOf.setEntry_same]
      exact hok.straight i hocc
    · rw [CacheOf.setEntry_of_ne h] at hi ⊢
      exact hok.straight i hi
  · intro i x hi hd hlt
    by_cases h : i = v
    · subst h; simp at hd
    · rw [CacheOf.setEntry_of_ne h] at hi hd hlt ⊢
      exact hok.clean i x hi hd hlt

theorem bufferCacheWrite_content {c : CacheOf v} (hc : CacheOk c)
    {sector : Nat} (hstraight : c.fsDevice.Straight sector) (b : Sector) :
    (bufferCacheWrite c sector b).content =
      if c.fsDevice.Holds sector then Function.update c.content sector b
      else c.content := by
  have hok' := bufferCacheWrite_ok hc hstraight b
  have hsize' := bufferCacheWrite_size hc hstraight b
  obtain ⟨hok, hcont, hsize, hocc, hs⟩ := cacheFill_spec hc hstraight
  simp only [bufferCacheWrite] at hok' hsize' ⊢
  generalize cacheFill c sector = r at hok hcont hsize hocc hs hok' hsize'
  obtain ⟨victim, m⟩ := r
  simp only at hocc hs hsize hcont hok hok' hsize' ⊢
  funext k
  by_cases hk : c.fsDevice.Holds k
  · by_cases hks : k = sector
    · subst hks
      rw [if_pos hk, Function.update_self]
      have := hok'.content_slot (i := victim) (by simpa using hocc)
        (by simpa [hs] using hk.of_size hsize)
      simpa [hs] using this
    · have hold : (if c.fsDevice.Holds sector
          then Function.update c.content sector b else c.content) k =
            m.content k := by
        rw [hcont]; split <;> simp [hks]
      rw [hold]
      by_cases hex : ∃ i, (m.cache i).occupied ∧ (m.cache i).diskSector = k
      · obtain ⟨i, hi, rfl⟩ := hex
        have hiv : i ≠ victim := by rintro rfl; exact hks hs
        rw [hok.content_slot hi (hk.of_size hsize)]
        have := hok'.content_slot (i := i)
          (by rw [CacheOf.setEntry_of_ne hiv]; exact hi)
          (by rw [CacheOf.setEntry_of_ne hiv]; exact hk.of_size hsize)
        simpa [CacheOf.setEntry_of_ne hiv] using this
      · rw [content_miss (hk.of_size hsize'), content_miss (hk.of_size hsize)]
        · rfl
        · exact fun i hi h => hex ⟨i, hi, h⟩
        · intro i hi
          by_cases hiv : i = victim
          · subst hiv; simpa [hs] using Ne.symm hks
          · rw [CacheOf.setEntry_of_ne hiv] at hi ⊢
            exact fun h => hex ⟨i, hi, h⟩
  · have hz : ∀ d : CacheOf v, d.fsDevice.size = c.fsDevice.size →
        d.content k = .zeros := fun d hd => by
      rw [CacheOf.content, if_neg fun h => hk (h.of_size hd.symm)]
    rw [hz _ (by simpa using hsize)]
    split
    · next hsector =>
        rw [Function.update_of_ne (by rintro rfl; exact hk hsector), hz c rfl]
    · rw [hz c rfl]

end SimpleShell.Fs
