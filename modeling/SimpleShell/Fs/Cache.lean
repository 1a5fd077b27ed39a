import SimpleShell.Fs.Block
import Mathlib.Data.Fintype.Card
import Mathlib.Data.List.FinRange

/-!
# The buffer cache

`cache.c`: 64 slots in front of the device, searched linearly and replaced by
the clock algorithm. `CacheOf` and the functions on it follow the source,
`buffer_cache_evict`'s `while (true)` included: the loop runs on fuel and
`clockLoop_isSome` shows that 65 rounds always end it, each round but the last
taking one reference bit away.

What every operation keeps is in `CacheContent`, and `BufferCache` in
`CacheRun` carries it: no two occupied slots hold the same sector, and a clean
slot agrees with the device.
-/

namespace SimpleShell.Fs

open SimpleShell.Lib

abbrev BUFFER_CACHE_SIZE : Nat := 64

/-- `struct buffer_cache_entry_t`. -/
structure CacheEntry where
  occupied : Bool
  diskSector : Nat
  buffer : Sector
  dirty : Bool
  access : Bool

/-- The slots, `buffer_cache_evict`'s static clock hand and `fs_device`. -/
structure CacheOf (v : Driver) where
  cache : Fin BUFFER_CACHE_SIZE → CacheEntry
  clock : Fin BUFFER_CACHE_SIZE
  fsDevice : BlockOf v

/-- The cache in front of an image below 4 GiB. -/
abbrev CacheState := CacheOf smallIde

variable {v : Driver}

namespace CacheOf

def setEntry (c : CacheOf v) (i : Fin BUFFER_CACHE_SIZE) (e : CacheEntry) :
    CacheOf v :=
  { c with cache := Function.update c.cache i e }

@[simp] theorem setEntry_same (c : CacheOf v) (i : Fin BUFFER_CACHE_SIZE)
    (e : CacheEntry) : (c.setEntry i e).cache i = e := by
  simp [setEntry]

theorem setEntry_of_ne {c : CacheOf v} {i j : Fin BUFFER_CACHE_SIZE}
    {e : CacheEntry} (h : j ≠ i) : (c.setEntry i e).cache j = c.cache j := by
  simp [setEntry, h]

@[simp] theorem setEntry_clock (c : CacheOf v) (i : Fin BUFFER_CACHE_SIZE)
    (e : CacheEntry) : (c.setEntry i e).clock = c.clock := rfl

@[simp] theorem setEntry_fsDevice (c : CacheOf v) (i : Fin BUFFER_CACHE_SIZE)
    (e : CacheEntry) : (c.setEntry i e).fsDevice = c.fsDevice := rfl

end CacheOf

/-- `buffer_cache_init`: the reference bits, the buffers and the clock hand
keep what they held. -/
def bufferCacheInit (c : CacheOf v) : CacheOf v :=
  { c with
    cache := fun i => { c.cache i with occupied := false, dirty := false } }

def bufferCacheFlush (c : CacheOf v) (i : Fin BUFFER_CACHE_SIZE) :
    CacheOf v :=
  if (c.cache i).dirty then
    { (c.setEntry i { c.cache i with dirty := false }) with
      fsDevice := blockWrite c.fsDevice (c.cache i).diskSector
        (c.cache i).buffer }
  else c

/-- The slots `buffer_cache_close` passes over, in order. -/
def bufferCacheCloseLoop (c : CacheOf v) :
    List (Fin BUFFER_CACHE_SIZE) → CacheOf v
  | [] => c
  | i :: rest =>
      if (c.cache i).occupied = false then bufferCacheCloseLoop c rest
      else bufferCacheCloseLoop (bufferCacheFlush c i) rest

def bufferCacheClose (c : CacheOf v) : CacheOf v :=
  bufferCacheCloseLoop c (List.finRange BUFFER_CACHE_SIZE)

def bufferCacheLookup (c : CacheOf v) (sector : Nat) :
    Option (Fin BUFFER_CACHE_SIZE) :=
  (List.finRange BUFFER_CACHE_SIZE).find? fun i =>
    (c.cache i).occupied && (c.cache i).diskSector == sector

/-- The `while (true)` of `buffer_cache_evict`, `none` when the rounds are used
up before it breaks. -/
def clockLoop : Nat → CacheOf v → Option (CacheOf v)
  | 0, _ => none
  | n + 1, c =>
      let e := c.cache c.clock
      if e.occupied = false then some c
      else if e.access then
        clockLoop n { (c.setEntry c.clock { e with access := false }) with
          clock := c.clock + 1 }
      else some c

/-- Where the hand is before the first eviction. -/
def clockStart : Fin BUFFER_CACHE_SIZE := 0

/-- The slots that still have their second chance. -/
def accessed (c : CacheOf v) : Finset (Fin BUFFER_CACHE_SIZE) :=
  Finset.univ.filter fun i => (c.cache i).access

theorem clockLoop_isSome : ∀ (n : Nat) (c : CacheOf v),
    (accessed c).card < n → (clockLoop n c).isSome := by
  intro n
  induction n with
  | zero => intro c h; exact absurd h (Nat.not_lt_zero _)
  | succ n ih =>
      intro c h
      simp only [clockLoop]
      split
      · rfl
      · split
        · next hacc =>
            refine ih _ (Nat.lt_of_lt_of_le ?_ (Nat.le_of_lt_succ h))
            refine Finset.card_lt_card ((Finset.ssubset_iff_of_subset ?_).2
              ⟨c.clock, by simpa [accessed] using hacc, ?_⟩)
            · intro i hi
              simp only [accessed, Finset.mem_filter, Finset.mem_univ, true_and]
                at hi ⊢
              by_cases hic : i = c.clock
              · subst hic; simp at hi
              · simpa [CacheOf.setEntry_of_ne hic] using hi
            · simp [accessed]
        · rfl

theorem clockLoop_terminates (c : CacheOf v) :
    (clockLoop (BUFFER_CACHE_SIZE + 1) c).isSome := by
  refine clockLoop_isSome _ c (Nat.lt_succ_of_le ?_)
  simpa using Finset.card_le_univ (accessed c)

/-- The state in which the clock loop breaks. -/
def clockStop (c : CacheOf v) : CacheOf v :=
  (clockLoop (BUFFER_CACHE_SIZE + 1) c).get (clockLoop_terminates c)

/-- `buffer_cache_evict`: the free slot and the state it is free in. -/
def bufferCacheEvict (c : CacheOf v) : Fin BUFFER_CACHE_SIZE × CacheOf v :=
  let c := clockStop c
  if (c.cache c.clock).occupied = false then (c.clock, c)
  else
    let c := bufferCacheFlush c c.clock
    (c.clock, c.setEntry c.clock { c.cache c.clock with occupied := false })

/-- The slot that holds `sector`, after a miss brought it in. -/
def cacheFill (c : CacheOf v) (sector : Nat) :
    Fin BUFFER_CACHE_SIZE × CacheOf v :=
  match bufferCacheLookup c sector with
  | some i => (i, c)
  | none =>
      let r := bufferCacheEvict c
      let e := r.2.cache r.1
      (r.1, r.2.setEntry r.1
        { e with
          occupied := true
          diskSector := sector
          dirty := false
          buffer := blockRead r.2.fsDevice sector e.buffer })

def bufferCacheRead (c : CacheOf v) (sector : Nat) : Sector × CacheOf v :=
  let r := cacheFill c sector
  let e := r.2.cache r.1
  (e.buffer, r.2.setEntry r.1 { e with access := true })

def bufferCacheWrite (c : CacheOf v) (sector : Nat) (source : Sector) :
    CacheOf v :=
  let r := cacheFill c sector
  let e := r.2.cache r.1
  r.2.setEntry r.1 { e with access := true, dirty := true, buffer := source }

end SimpleShell.Fs
