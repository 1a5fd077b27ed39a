import SimpleShell.Fs.BlockMap
import SimpleShell.Fs.Fsutil2

/-!
# The two block maps

`get_inode_data_sectors` flattens the levels of an inode one after another, and
`index_to_sector` finds one sector by quotient and remainder. They agree as long as the
index sectors lie on the device. A read past its end leaves what the cache slot held
before, which is not the same for the two.
-/

namespace SimpleShell.Fs

open SimpleShell.Lib

section Sectors

/-- The index sectors of an inode with `n` data sectors lie on a device of `size` sectors. -/
structure IndexOnDevice (f : Nat → Sector) (size : Nat) (d : Sector) (n : Nat) : Prop where
  indirect : DIRECT_BLOCKS_COUNT < n → indirectBlock d < size
  doubly : DIRECT_BLOCKS_COUNT + INDIRECT_BLOCKS_PER_SECTOR < n → doublyIndirectBlock d < size
  second : ∀ j, DIRECT_BLOCKS_COUNT + INDIRECT_BLOCKS_PER_SECTOR + j < n →
    blockEntry (f (doublyIndirectBlock d)) (j / INDIRECT_BLOCKS_PER_SECTOR) < size

/-- Data sector `i`, read off the contents of the index sectors. -/
def sectorAt (f : Nat → Sector) (d : Sector) (i : Nat) : Nat :=
  if i < DIRECT_BLOCKS_COUNT then directBlock d i
  else if i < DIRECT_BLOCKS_COUNT + INDIRECT_BLOCKS_PER_SECTOR then
    blockEntry (f (indirectBlock d)) (i - DIRECT_BLOCKS_COUNT)
  else
    let j := i - (DIRECT_BLOCKS_COUNT + INDIRECT_BLOCKS_PER_SECTOR)
    blockEntry (f (blockEntry (f (doublyIndirectBlock d)) (j / INDIRECT_BLOCKS_PER_SECTOR)))
      (j % INDIRECT_BLOCKS_PER_SECTOR)

variable {c : BufferCache} {d : Sector} {n : Nat}

theorem indexToSector_sectorAt {i : Nat} (h : IndexOnDevice c.content c.size d n) (hi : i < n)
    (hmax : i < MAX_SECTORS) : (indexToSector c d i).1 = sectorAt c.content d i := by
  rw [indexToSector, sectorAt]
  split
  · rfl
  · next hdirect =>
      split
      · next hindirect =>
          dsimp only
          rw [BufferCache.read_fst (h.indirect (by omega))]
      · next hindirect =>
          rw [if_pos (by simp only [MAX_SECTORS] at hmax; exact hmax)]
          dsimp only
          have hroot := h.doubly (by omega)
          have hsecond := h.second (i - (DIRECT_BLOCKS_COUNT + INDIRECT_BLOCKS_PER_SECTOR)) (by omega)
          rw [BufferCache.read_fst hroot, BufferCache.read_fst (by rwa [BufferCache.read_size]),
            BufferCache.read_content]

theorem doublyIndirectSectors_fst (blk : Sector) (cnt : Nat) :
    ∀ (i : Nat) (c : BufferCache) (num : Nat), num ≤ cnt * 128 →
      (∀ j < num, blockEntry blk (i + j / 128) < c.size) →
      (doublyIndirectSectors blk cnt i c num).1 = (List.range num).map fun j =>
        blockEntry (c.content (blockEntry blk (i + j / 128))) (j % 128) := by
  induction cnt with
  | zero =>
      intro i c num hnum _
      obtain rfl : num = 0 := by omega
      rfl
  | succ cnt ih =>
      intro i c num hnum hlt
      rw [doublyIndirectSectors]
      dsimp only
      have hsub : min num 128 + (num - min num 128) = num := by omega
      have hrest := ih (i + 1) (c.read (blockEntry blk i)).2 (num - min num 128) (by omega)
        fun j hj => by
          have hlt' := hlt (128 + j) (by omega)
          rw [BufferCache.read_size]
          rwa [show i + (128 + j) / 128 = i + 1 + j / 128 by omega] at hlt'
      rw [hrest, BufferCache.read_content]
      conv => rhs; rw [← hsub, List.range_add, List.map_append, List.map_map]
      refine congrArg₂ HAppend.hAppend ?_ ?_
      · refine List.map_congr_left fun j hj => ?_
        have hj' : j < min num 128 := List.mem_range.1 hj
        have hread := hlt 0 (by omega)
        rw [Nat.zero_div, Nat.add_zero] at hread
        rw [BufferCache.read_fst hread, Nat.div_eq_of_lt (by omega), Nat.mod_eq_of_lt (by omega),
          Nat.add_zero]
      · refine List.map_congr_left fun j hj => ?_
        have hj' : j < num - min num 128 := List.mem_range.1 hj
        have hmin : min num 128 = 128 := by omega
        rw [Function.comp_apply, hmin, show i + (128 + j) / 128 = i + 1 + j / 128 by omega,
          show (128 + j) % 128 = j % 128 by omega]

/-- `get_inode_data_sectors` lists the sectors in their order. -/
theorem getInodeDataSectors_sectorAt (hnonneg : 0 ≤ inodeLength d)
    (h : IndexOnDevice c.content c.size d (bytesToSectors (inodeLength d)))
    (hmax : bytesToSectors (inodeLength d) ≤ MAX_SECTORS) :
    (getInodeDataSectors c d).1 =
      (List.range (bytesToSectors (inodeLength d))).map (sectorAt c.content d) := by
  rw [getInodeDataSectors, if_neg (Int.not_lt.2 hnonneg)]
  dsimp only
  generalize bytesToSectors (inodeLength d) = n at h hmax ⊢
  obtain ⟨l₁, hl₁⟩ : ∃ l, min n DIRECT_BLOCKS_COUNT = l := ⟨_, rfl⟩
  obtain ⟨l₂, hl₂⟩ : ∃ l, min (n - l₁) INDIRECT_BLOCKS_PER_SECTOR = l := ⟨_, rfl⟩
  obtain ⟨l₃, hl₃⟩ : ∃ l, min (n - l₁ - l₂)
      (INDIRECT_BLOCKS_PER_SECTOR * INDIRECT_BLOCKS_PER_SECTOR) = l := ⟨_, rfl⟩
  rw [hl₁, hl₂, hl₃]
  simp only [DIRECT_BLOCKS_COUNT, INDIRECT_BLOCKS_PER_SECTOR, MAX_SECTORS] at hl₁ hl₂ hl₃ hmax
  obtain ⟨r, hr⟩ : ∃ r : List Nat × BufferCache, r = if 0 < l₂ then
      ((List.range l₂).map (blockEntry (c.read (indirectBlock d)).1),
        (c.read (indirectBlock d)).2) else ([], c) := ⟨_, rfl⟩
  rw [← hr]
  have hrsize : r.2.size = c.size := by
    rw [hr]
    split
    · exact BufferCache.read_size ..
    · rfl
  have hrcont : r.2.content = c.content := by
    rw [hr]
    split
    · exact BufferCache.read_content ..
    · rfl
  have hdirect : (List.range l₁).map (directBlock d) =
      (List.range l₁).map (sectorAt c.content d) := by
    refine List.map_congr_left fun i hi => ?_
    have hi' := List.mem_range.1 hi
    rw [sectorAt, if_pos (by simp only [DIRECT_BLOCKS_COUNT]; omega)]
  have hindirect : r.1 = (List.range l₂).map fun i => sectorAt c.content d (l₁ + i) := by
    rw [hr]
    split
    · next hpos =>
        refine List.map_congr_left fun i hi => ?_
        have hi' := List.mem_range.1 hi
        obtain rfl : l₁ = 123 := by omega
        rw [sectorAt, if_neg (by simp only [DIRECT_BLOCKS_COUNT]; omega),
          if_pos (by simp only [DIRECT_BLOCKS_COUNT, INDIRECT_BLOCKS_PER_SECTOR]; omega),
          BufferCache.read_fst (h.indirect (by simp only [DIRECT_BLOCKS_COUNT]; omega)),
          show 123 + i - DIRECT_BLOCKS_COUNT = i from Nat.add_sub_cancel_left ..]
    · obtain rfl : l₂ = 0 := by omega
      rfl
  have hall : List.range n = List.range (l₁ + l₂ + l₃) := congrArg List.range (by omega)
  rw [hall, List.range_add, List.range_add, List.map_append, List.map_append, List.map_map,
    List.map_map, hdirect, hindirect]
  refine congrArg₂ HAppend.hAppend rfl ?_
  split
  · next hpos =>
      obtain rfl : l₁ = 123 := by omega
      obtain rfl : l₂ = 128 := by omega
      have hroot : doublyIndirectBlock d < c.size :=
        h.doubly (by simp only [DIRECT_BLOCKS_COUNT, INDIRECT_BLOCKS_PER_SECTOR]; omega)
      have hread : (r.2.read (doublyIndirectBlock d)).1 = c.content (doublyIndirectBlock d) := by
        rw [BufferCache.read_fst (by rw [hrsize]; exact hroot), hrcont]
      have hcnt : l₃ ≤ (l₃ + INDIRECT_BLOCKS_PER_SECTOR - 1) / INDIRECT_BLOCKS_PER_SECTOR * 128 := by
        simp only [INDIRECT_BLOCKS_PER_SECTOR]
        omega
      rw [hread, doublyIndirectSectors_fst _ _ 0 _ l₃ hcnt fun j hj => by
        rw [BufferCache.read_size, hrsize, Nat.zero_add]
        exact h.second j (by simp only [DIRECT_BLOCKS_COUNT, INDIRECT_BLOCKS_PER_SECTOR]; omega)]
      refine List.map_congr_left fun j hj => ?_
      rw [BufferCache.read_content, hrcont, Nat.zero_add, Function.comp_apply, sectorAt,
        if_neg (by simp only [DIRECT_BLOCKS_COUNT]; omega),
        if_neg (by simp only [DIRECT_BLOCKS_COUNT, INDIRECT_BLOCKS_PER_SECTOR]; omega)]
      dsimp only
      rw [show 123 + 128 + j - (DIRECT_BLOCKS_COUNT + INDIRECT_BLOCKS_PER_SECTOR) = j from
        Nat.add_sub_cancel_left ..]
  · obtain rfl : l₃ = 0 := by omega
    rfl

/-- The array has one entry for every started sector of the file, the sector that
`index_to_sector` finds, whatever the cache has read in between. -/
theorem getInodeDataSectors_indexToSector {c' : BufferCache} (hnonneg : 0 ≤ inodeLength d)
    (hmax : inodeLength d ≤ MAX_LENGTH)
    (h : IndexOnDevice c.content c.size d (bytesToSectors (inodeLength d)))
    (hsize : c'.size = c.size) (hcont : c'.content = c.content) :
    (getInodeDataSectors c d).1 = (List.range (bytesToSectors (inodeLength d))).map
      fun i => (indexToSector c' d i).1 := by
  have hmax' : bytesToSectors (inodeLength d) ≤ MAX_SECTORS := by
    simp only [bytesToSectors, MAX_LENGTH, MAX_SECTORS, BLOCK_SECTOR_SIZE] at *
    omega
  rw [getInodeDataSectors_sectorAt hnonneg h hmax']
  refine List.map_congr_left fun i hi => ?_
  have hi' := List.mem_range.1 hi
  rw [indexToSector_sectorAt (n := bytesToSectors (inodeLength d)) (by rwa [hsize, hcont]) hi'
    (by omega), hcont]

/-- An inode of 252 sectors. -/
def longInode : Sector :=
  (((ByteBlock.zeros : Sector).setU32 504 129024).setU32 492 1).setU32 496 2

theorem longInode_fields : inodeLength longInode = 129024 ∧ indirectBlock longInode = 1 ∧
    doublyIndirectBlock longInode = 2 := by
  refine ⟨?_, ?_, ?_⟩
  · rw [inodeLength, longInode, ByteBlock.u32_setU32_of_ne (by decide),
      ByteBlock.u32_setU32_of_ne (by decide), ByteBlock.u32_setU32_same (by decide) (by decide)]
    rfl
  · rw [indirectBlock, longInode, ByteBlock.u32_setU32_of_ne (by decide),
      ByteBlock.u32_setU32_same (by decide) (by decide)]
  · rw [doublyIndirectBlock, longInode, ByteBlock.u32_setU32_same (by decide) (by decide)]

/-- A cache in front of four blank sectors. -/
def blankCache : BufferCache :=
  .init ⟨fun _ => ⟨false, 0, .zeros, false, false⟩, clockStart, .blank 4⟩

theorem getInodeDataSectors_long : inodeLength longInode = 129024 ∧
    (getInodeDataSectors blankCache longInode).1 =
      (List.range (bytesToSectors (inodeLength longInode))).map
        fun i => (indexToSector blankCache longInode i).1 := by
  obtain ⟨hlength, hindirect, hdoubly⟩ := longInode_fields
  have hsize : 2 < (BlockOf.blank 4 : BlockOf smallIde).size := by decide
  have hcontent : blankCache.content 2 = .zeros := (bufferCacheInit_content ⟨hsize, rfl⟩).trans rfl
  refine ⟨hlength, getInodeDataSectors_indexToSector ?_ ?_ ⟨?_, ?_, ?_⟩ rfl rfl⟩
  · rw [hlength]; decide
  · rw [hlength]; decide
  · intro _; rw [hindirect]; decide
  · intro _; rw [hdoubly]; decide
  · intro j _
    rw [hdoubly, hcontent, blockEntry, ByteBlock.u32_zeros]
    decide

end Sectors

/-! ## Past the end of the device -/

section Filling

variable {b : Fin BUFFER_CACHE_SIZE → Sector} {ks : List Nat} {c : CacheState} {k : Nat}

/-- A cache that was filled with the sectors `ks`, the last one first, from the first slot
on; the buffers of the other slots are still `b`. -/
structure Filling (b : Fin BUFFER_CACHE_SIZE → Sector) (ks : List Nat) (c : CacheState) :
    Prop where
  free : ∀ i, ks.length ≤ i.val → (c.cache i).occupied = false ∧ (c.cache i).buffer = b i
  used : ∀ i, i.val < ks.length → (c.cache i).diskSector ∈ ks
  clock : c.clock.val = ks.length - 1
  access : ks ≠ [] → (c.cache c.clock).occupied = true ∧ (c.cache c.clock).access = true

theorem Filling.lookup (h : Filling b ks c) (hk : k ∉ ks) : bufferCacheLookup c k = none := by
  rw [bufferCacheLookup, List.find?_eq_none]
  intro i _
  by_cases hi : i.val < ks.length
  · have hne : (c.cache i).diskSector ≠ k := fun heq => hk (heq ▸ h.used i hi)
    simp [hne]
  · simp [(h.free i (Nat.not_lt.1 hi)).1]

/-- The hand takes the access bit of its slot and goes on to `m`, the next one. -/
def passSlot (c : CacheState) (m : Fin BUFFER_CACHE_SIZE) : CacheState :=
  { (c.setEntry c.clock { c.cache c.clock with access := false }) with clock := m }

theorem passSlot_of_ne {i m : Fin BUFFER_CACHE_SIZE} (hi : i ≠ c.clock) :
    (passSlot c m).cache i = c.cache i :=
  CacheOf.setEntry_of_ne hi

theorem passSlot_same {m : Fin BUFFER_CACHE_SIZE} :
    (passSlot c m).cache c.clock = { c.cache c.clock with access := false } :=
  CacheOf.setEntry_same ..

theorem passSlot_kept (m i : Fin BUFFER_CACHE_SIZE) :
    ((passSlot c m).cache i).occupied = (c.cache i).occupied ∧
      ((passSlot c m).cache i).buffer = (c.cache i).buffer ∧
      ((passSlot c m).cache i).diskSector = (c.cache i).diskSector ∧
      ((passSlot c m).cache i).dirty = (c.cache i).dirty := by
  by_cases hi : i = c.clock
  · rw [hi, passSlot_same]
    exact ⟨rfl, rfl, rfl, rfl⟩
  · rw [passSlot_of_ne hi]
    exact ⟨rfl, rfl, rfl, rfl⟩

theorem clockStop_stay (hfree : (c.cache c.clock).occupied = false) : clockStop c = c := by
  have hloop : clockLoop (BUFFER_CACHE_SIZE + 1) c = some c := by
    rw [clockLoop]
    exact if_pos hfree
  exact Option.get_of_eq_some _ hloop

theorem clockStop_pass {m : Fin BUFFER_CACHE_SIZE} (hm : c.clock + 1 = m)
    (hocc : (c.cache c.clock).occupied = true) (hacc : (c.cache c.clock).access = true)
    (hnext : ((passSlot c m).cache m).occupied = false ∨
      ((passSlot c m).cache m).access = false) : clockStop c = passSlot c m := by
  have hround : clockLoop BUFFER_CACHE_SIZE (passSlot c m) = some (passSlot c m) := by
    rw [BUFFER_CACHE_SIZE, clockLoop]
    rcases hnext with hfree | hspent
    · exact if_pos hfree
    · refine ite_eq_left_iff.2 fun _ => if_neg ?_
      exact fun h => Bool.false_ne_true (hspent.symm.trans h)
  have hloop : clockLoop (BUFFER_CACHE_SIZE + 1) c = some (passSlot c m) := by
    rw [clockLoop, if_neg (by rw [hocc]; simp), if_pos hacc, hm]
    exact hround
  exact Option.get_of_eq_some _ hloop

/-- The clock goes on to the next slot, which is free. -/
theorem Filling.evict (h : Filling b ks c) (hm : ks.length < BUFFER_CACHE_SIZE) :
    ∃ c', bufferCacheEvict c = (⟨ks.length, hm⟩, c') ∧ c'.fsDevice = c.fsDevice ∧
      c'.clock = ⟨ks.length, hm⟩ ∧ (c' = c ∧ ks = [] ∨ c' = passSlot c ⟨ks.length, hm⟩) := by
  by_cases hks : ks = []
  · subst hks
    have hclock : c.clock = ⟨([] : List Nat).length, hm⟩ := Fin.ext h.clock
    have hfree := (h.free c.clock (Nat.zero_le _)).1
    refine ⟨c, ?_, rfl, hclock, .inl ⟨rfl, rfl⟩⟩
    rw [bufferCacheEvict, clockStop_stay hfree, ← hclock]
    exact if_pos hfree
  · obtain ⟨hocc, hacc⟩ := h.access hks
    have hpos := List.length_pos_iff.2 hks
    have hnext : c.clock + 1 = ⟨ks.length, hm⟩ := by
      refine Fin.ext ?_
      rw [Fin.val_add, h.clock]
      change (ks.length - 1 + 1) % 64 = ks.length
      rw [Nat.sub_add_cancel hpos, Nat.mod_eq_of_lt hm]
    have hfree : ((passSlot c ⟨ks.length, hm⟩).cache ⟨ks.length, hm⟩).occupied = false := by
      rw [(passSlot_kept _ _).1]
      exact (h.free _ (Nat.le_refl _)).1
    refine ⟨passSlot c ⟨ks.length, hm⟩, ?_, rfl, rfl, .inr rfl⟩
    rw [bufferCacheEvict, clockStop_pass hnext hocc hacc (.inl hfree)]
    exact if_pos hfree

/-- Outside the slot that is filled, a read leaves the cache as the hand did. -/
theorem Filling.read_slots (h : Filling b ks c) (hk : k ∉ ks) (hm : ks.length < BUFFER_CACHE_SIZE) :
    ∃ c', (c' = c ∧ ks = [] ∨ c' = passSlot c ⟨ks.length, hm⟩) ∧
      (bufferCacheRead c k).1 = blockRead c.fsDevice k (b ⟨ks.length, hm⟩) ∧
      (bufferCacheRead c k).2.fsDevice = c.fsDevice ∧
      (bufferCacheRead c k).2.clock = ⟨ks.length, hm⟩ ∧
      (bufferCacheRead c k).2.cache ⟨ks.length, hm⟩ =
        ⟨true, k, blockRead c.fsDevice k (b ⟨ks.length, hm⟩), false, true⟩ ∧
      ∀ i, i ≠ ⟨ks.length, hm⟩ → (bufferCacheRead c k).2.cache i = c'.cache i := by
  obtain ⟨c', hevict, hdev, hclock, hpass⟩ := h.evict hm
  obtain ⟨m, hmeq⟩ : ∃ m : Fin BUFFER_CACHE_SIZE, m = ⟨ks.length, hm⟩ := ⟨_, rfl⟩
  have hbuffer : (c'.cache m).buffer = b m := by
    have hkept : (c'.cache m).buffer = (c.cache m).buffer := by
      rcases hpass with ⟨heq, -⟩ | heq
      · rw [heq]
      · rw [heq, (passSlot_kept _ m).2.1]
    rw [hkept, (h.free m (by rw [hmeq])).2]
  rw [← hmeq] at hevict hclock hpass ⊢
  refine ⟨c', hpass, ?_⟩
  rw [bufferCacheRead, cacheFill, h.lookup hk, hevict]
  dsimp only
  rw [CacheOf.setEntry_same, CacheOf.setEntry_same, hdev, hbuffer]
  refine ⟨rfl, hdev, hclock, rfl, fun i hi => ?_⟩
  rw [CacheOf.setEntry_of_ne hi, CacheOf.setEntry_of_ne hi]

theorem Filling.read (h : Filling b ks c) (hk : k ∉ ks) (hm : ks.length < BUFFER_CACHE_SIZE) :
    (bufferCacheRead c k).1 = blockRead c.fsDevice k (b ⟨ks.length, hm⟩) ∧
      Filling b (k :: ks) (bufferCacheRead c k).2 ∧
      (bufferCacheRead c k).2.fsDevice = c.fsDevice := by
  obtain ⟨c', hpass, hread, hdev, hclock, hfilled, hothers⟩ := h.read_slots hk hm
  have hsame : ∀ i, (c'.cache i).occupied = (c.cache i).occupied ∧
      (c'.cache i).buffer = (c.cache i).buffer ∧
      (c'.cache i).diskSector = (c.cache i).diskSector := by
    intro i
    rcases hpass with ⟨heq, -⟩ | heq
    · rw [heq]
      exact ⟨rfl, rfl, rfl⟩
    · rw [heq]
      exact ⟨(passSlot_kept _ i).1, (passSlot_kept _ i).2.1, (passSlot_kept _ i).2.2.1⟩
  refine ⟨hread, ⟨?_, ?_, ?_, ?_⟩, hdev⟩
  · intro i hi
    rw [List.length_cons] at hi
    have hne : i ≠ ⟨ks.length, hm⟩ := fun heq => by
      rw [heq] at hi
      exact absurd hi (Nat.not_succ_le_self _)
    rw [hothers i hne, (hsame i).1, (hsame i).2.1]
    exact h.free i (by omega)
  · intro i hi
    rw [List.length_cons] at hi
    by_cases heq : i = ⟨ks.length, hm⟩
    · rw [heq, hfilled]
      exact List.mem_cons_self
    · have hlt : i.val < ks.length := by
        have hval : i.val ≠ ks.length := fun hv => heq (Fin.ext hv)
        omega
      rw [hothers i heq, (hsame i).2.2]
      exact List.mem_cons_of_mem k (h.used i hlt)
  · rw [hclock]
    rfl
  · intro _
    rw [hclock, hfilled]
    exact ⟨rfl, rfl⟩

/-- The first slot holds `x`, clean, and has no second chance once the hand has left it. -/
structure FirstSlot (x : Sector) (c : CacheState) : Prop where
  occupied : (c.cache 0).occupied = true
  buffer : (c.cache 0).buffer = x
  dirty : (c.cache 0).dirty = false
  access : c.clock ≠ 0 → (c.cache 0).access = false

theorem Filling.firstSlot (h : Filling b [] c) :
    FirstSlot (blockRead c.fsDevice k (b 0)) (bufferCacheRead c k).2 := by
  obtain ⟨-, -, -, -, hclock, hfilled, -⟩ := h.read_slots (k := k) List.not_mem_nil (by decide)
  have hslot : (bufferCacheRead c k).2.cache 0 =
      ⟨true, k, blockRead c.fsDevice k (b 0), false, true⟩ := hfilled
  refine ⟨?_, ?_, ?_, fun hne => absurd hclock hne⟩ <;> rw [hslot]

theorem FirstSlot.pass {x : Sector} {m : Fin BUFFER_CACHE_SIZE} (hf : FirstSlot x c) :
    ((passSlot c m).cache 0).occupied = true ∧ ((passSlot c m).cache 0).buffer = x ∧
      ((passSlot c m).cache 0).dirty = false ∧ ((passSlot c m).cache 0).access = false := by
  obtain ⟨hocc, hbuffer, -, hdirty⟩ := passSlot_kept (c := c) m 0
  refine ⟨hocc.trans hf.occupied, hbuffer.trans hf.buffer, hdirty.trans hf.dirty, ?_⟩
  by_cases hclock : c.clock = 0
  · rw [← hclock, passSlot_same]
  · rw [passSlot_of_ne (Ne.symm hclock)]
    exact hf.access hclock

theorem FirstSlot.read {x : Sector} (hf : FirstSlot x c) (h : Filling b ks c) (hks : ks ≠ [])
    (hk : k ∉ ks) (hm : ks.length < BUFFER_CACHE_SIZE) :
    FirstSlot x (bufferCacheRead c k).2 := by
  obtain ⟨c', hpass, -, -, -, -, hothers⟩ := h.read_slots hk hm
  have hne : (0 : Fin BUFFER_CACHE_SIZE) ≠ ⟨ks.length, hm⟩ := fun heq =>
    hks (List.length_eq_zero_iff.1 (congrArg Fin.val heq).symm)
  have hslot : (bufferCacheRead c k).2.cache 0 = (passSlot c ⟨ks.length, hm⟩).cache 0 := by
    rcases hpass with ⟨-, hnil⟩ | heq
    · exact absurd hnil hks
    · rw [hothers 0 hne, heq]
  obtain ⟨hocc, hbuffer, hdirty, haccess⟩ := hf.pass (m := ⟨ks.length, hm⟩)
  refine ⟨?_, ?_, ?_, fun _ => ?_⟩ <;> rw [hslot] <;> assumption

/-- Once every slot is taken, the next miss evicts the first, and a read past the end of the
image finds its bytes. -/
theorem Filling.read_full {x : Sector} (h : Filling b ks c) (hf : FirstSlot x c) (hk : k ∉ ks)
    (hfull : ks.length = BUFFER_CACHE_SIZE) :
    (bufferCacheRead c k).1 = blockRead c.fsDevice k x := by
  have hks : ks ≠ [] := fun hnil => by rw [hnil] at hfull; cases hfull
  obtain ⟨hocc, hacc⟩ := h.access hks
  obtain ⟨hocc₀, hbuffer, hdirty, haccess⟩ := hf.pass (m := 0)
  have hnext : c.clock + 1 = 0 := by
    refine Fin.ext ?_
    rw [Fin.val_add, h.clock, hfull]
    rfl
  have hstop : clockStop c = passSlot c 0 := clockStop_pass hnext hocc hacc (.inr haccess)
  have hclock : (passSlot c 0).clock = 0 := rfl
  have hflush : bufferCacheFlush (passSlot c 0) 0 = passSlot c 0 :=
    if_neg (by rw [hdirty]; simp)
  have hevict : bufferCacheEvict c = (0, (passSlot c 0).setEntry 0
      { (passSlot c 0).cache 0 with occupied := false }) := by
    rw [bufferCacheEvict, hstop]
    dsimp only
    rw [hclock, if_neg (by rw [hocc₀]; simp), hflush, hclock]
  rw [bufferCacheRead, cacheFill, h.lookup hk, hevict]
  dsimp only
  rw [CacheOf.setEntry_same, CacheOf.setEntry_same]
  dsimp only
  rw [hbuffer]
  rfl

theorem BufferCache.read_filling {c : BufferCache} (h : Filling b ks c.state) (hk : k ∉ ks)
    (hm : ks.length < BUFFER_CACHE_SIZE) :
    (c.read k).1 = blockRead c.state.fsDevice k (b ⟨ks.length, hm⟩) ∧
      Filling b (k :: ks) (c.read k).2.state ∧
      (c.read k).2.state.fsDevice = c.state.fsDevice :=
  h.read hk hm

theorem BufferCache.read_full {c : BufferCache} {x : Sector} (h : Filling b ks c.state)
    (hf : FirstSlot x c.state) (hk : k ∉ ks) (hfull : ks.length = BUFFER_CACHE_SIZE) :
    (c.read k).1 = blockRead c.state.fsDevice k x :=
  h.read_full hf hk hfull

/-- The cache after the sectors were read in turn. -/
def BufferCache.reads (c : BufferCache) : List Nat → BufferCache
  | [] => c
  | k :: rest => (c.read k).2.reads rest

theorem BufferCache.reads_filling {x : Sector} : ∀ (l ks : List Nat) (c : BufferCache),
    Filling b ks c.state → FirstSlot x c.state → ks ≠ [] → (l.reverse ++ ks).Nodup →
    (l.reverse ++ ks).length ≤ BUFFER_CACHE_SIZE →
    Filling b (l.reverse ++ ks) (c.reads l).state ∧ FirstSlot x (c.reads l).state ∧
      (c.reads l).state.fsDevice = c.state.fsDevice
  | [], _, _, h, hf, _, _, _ => ⟨h, hf, rfl⟩
  | k :: l, ks, c, h, hf, hks, hnodup, hlength => by
      rw [List.reverse_cons, List.append_assoc] at hnodup hlength ⊢
      have hk : k ∉ ks := (List.nodup_cons.1 hnodup.of_append_right).1
      have hm : ks.length < BUFFER_CACHE_SIZE := by
        simp only [List.length_append, List.length_cons, List.length_nil] at hlength
        omega
      obtain ⟨-, hfill, hdev⟩ := BufferCache.read_filling h hk hm
      obtain ⟨hfill', hf', hdev'⟩ := BufferCache.reads_filling l (k :: ks) (c.read k).2 hfill
        (hf.read h hks hk hm) (List.cons_ne_nil k ks) hnodup hlength
      exact ⟨hfill', hf', hdev'.trans hdev⟩

end Filling

/-- A doubly indirect block whose first entry is not on the device. -/
def wildRoot : Sector := (ByteBlock.zeros : Sector).setU32 0 1000

/-- A sector whose first number is 1. -/
def wildSector : Sector := (ByteBlock.zeros : Sector).setU32 0 1

def wildDisk : BlockOf smallIde :=
  ⟨65, [.zeros, .zeros, wildRoot, wildSector] ++ List.replicate 61 .zeros, by decide, by decide⟩

/-- A cache with two free slots, after the sectors from 3 to 64 were read. -/
def wildCache : BufferCache :=
  (BufferCache.init ⟨fun _ => ⟨false, 0, .zeros, false, false⟩, clockStart, wildDisk⟩).reads
    (List.range' 3 62)

theorem notMem_wildReads {k : Nat} (hk : k < 3 ∨ 64 < k) : k ∉ (List.range' 3 62).reverse := by
  simp only [List.mem_reverse, List.mem_range'_1]
  omega

theorem wildCache_filling :
    Filling (fun _ => .zeros) (List.range' 3 62).reverse wildCache.state ∧
      FirstSlot wildSector wildCache.state ∧ wildCache.state.fsDevice = wildDisk := by
  obtain ⟨c, hc⟩ : ∃ c : BufferCache,
    c = .init ⟨fun _ => ⟨false, 0, .zeros, false, false⟩, clockStart, wildDisk⟩ := ⟨_, rfl⟩
  have hstart : Filling (fun _ => .zeros) [] c.state := by
    rw [hc]
    exact ⟨fun i _ => ⟨rfl, rfl⟩, fun i hi => absurd hi (Nat.not_lt_zero _), rfl,
      fun h => absurd rfl h⟩
  have hdisk : c.state.fsDevice = wildDisk := by rw [hc]; rfl
  obtain ⟨-, hfill, hdev⟩ :=
    BufferCache.read_filling (k := 3) hstart List.not_mem_nil (by decide)
  have hfirst : FirstSlot wildSector (c.read 3).2.state := by
    have hentry : ∀ x, blockRead wildDisk 3 x = wildSector := fun x => rfl
    have hslot := hstart.firstSlot (k := 3)
    rw [hdisk, hentry] at hslot
    exact hslot
  have hrange : List.range' 3 62 = 3 :: List.range' 4 61 := rfl
  have hreads : wildCache = (c.read 3).2.reads (List.range' 4 61) := by
    rw [wildCache, ← hc, hrange, BufferCache.reads]
  have hreverse : (List.range' 3 62).reverse = (List.range' 4 61).reverse ++ [3] := by
    rw [hrange, List.reverse_cons]
  have hnodup : (List.range' 3 62).reverse.Nodup := List.nodup_reverse.2 List.nodup_range'
  have hlength : (List.range' 3 62).reverse.length ≤ BUFFER_CACHE_SIZE := by
    simp [BUFFER_CACHE_SIZE]
  rw [hreverse] at hnodup hlength ⊢
  obtain ⟨hfill', hfirst', hdev'⟩ := BufferCache.reads_filling (List.range' 4 61) [3] (c.read 3).2
    hfill hfirst (List.cons_ne_nil 3 []) hnodup hlength
  rw [hreads]
  exact ⟨hfill', hfirst', hdev'.trans (hdev.trans hdisk)⟩

/-- The third read of the one evicts a slot and the second read of the other does not. -/
theorem getInodeDataSectors_wild : inodeLength longInode = 129024 ∧
    (getInodeDataSectors wildCache longInode).1 ≠
      (List.range (bytesToSectors (inodeLength longInode))).map
        fun i => (indexToSector wildCache longInode i).1 := by
  obtain ⟨hlength, hindirect, hdoubly⟩ := longInode_fields
  have hentry : blockEntry wildRoot 0 = 1000 :=
    ByteBlock.u32_setU32_same (by decide) (by decide)
  obtain ⟨hstart, hfirst, hdisk⟩ := wildCache_filling
  have hsome : (List.range' 3 62).reverse ≠ [] := by simp
  have hmem₁ : 1 ∉ (List.range' 3 62).reverse := notMem_wildReads (by decide)
  have hmem₂ : 2 ∉ (List.range' 3 62).reverse := notMem_wildReads (by decide)
  have hmem₁₀₀₀ : 1000 ∉ (List.range' 3 62).reverse := notMem_wildReads (by decide)
  have hmem₂₁ : 2 ∉ 1 :: (List.range' 3 62).reverse :=
    List.not_mem_cons_of_ne_of_not_mem (by decide) hmem₂
  obtain ⟨-, hfill₁, hdisk₁⟩ := BufferCache.read_filling hstart hmem₁ (by simp [BUFFER_CACHE_SIZE])
  have hfirst₁ : FirstSlot wildSector (wildCache.read 1).2.state :=
    hfirst.read hstart hsome hmem₁ (by simp [BUFFER_CACHE_SIZE])
  obtain ⟨hread₂, hfill₂, hdisk₂⟩ :=
    BufferCache.read_filling hfill₁ hmem₂₁ (by simp [BUFFER_CACHE_SIZE])
  have hfirst₂ : FirstSlot wildSector ((wildCache.read 1).2.read 2).2.state :=
    hfirst₁.read hfill₁ (List.cons_ne_nil _ _) hmem₂₁ (by simp [BUFFER_CACHE_SIZE])
  have hread₃ := BufferCache.read_full (k := 1000) hfill₂ hfirst₂
    (List.not_mem_cons_of_ne_of_not_mem (by decide)
      (List.not_mem_cons_of_ne_of_not_mem (by decide) hmem₁₀₀₀)) (by simp [BUFFER_CACHE_SIZE])
  obtain ⟨hread₂', hfill₂', hdisk₂'⟩ :=
    BufferCache.read_filling hstart hmem₂ (by simp [BUFFER_CACHE_SIZE])
  obtain ⟨hread₃', -, -⟩ :=
    BufferCache.read_filling (k := 1000) hfill₂'
      (List.not_mem_cons_of_ne_of_not_mem (by decide) hmem₁₀₀₀) (by simp [BUFFER_CACHE_SIZE])
  rw [hdisk₁, hdisk] at hread₂
  rw [hdisk₂, hdisk₁, hdisk] at hread₃
  rw [hdisk] at hread₂'
  rw [hdisk₂', hdisk] at hread₃'
  have hroot : ∀ x, blockRead wildDisk 2 x = wildRoot := fun x => rfl
  have hpast : ∀ x, blockRead wildDisk 1000 x = x := fun x => rfl
  rw [hroot] at hread₂ hread₂'
  rw [hpast] at hread₃ hread₃'
  have hsecond : (((wildCache.read 1).2.read 2).2.read 1000).1 =
      (ByteBlock.zeros : Sector).setU32 0 1 := hread₃
  have hfirst : ((wildCache.read 2).2.read 1000).1 = .zeros := hread₃'
  have hlist : ∃ xs, (getInodeDataSectors wildCache longInode).1 = xs ++ [1] := by
    refine ⟨(List.range 123).map (directBlock longInode) ++
      (List.range 128).map (blockEntry (wildCache.read 1).1), ?_⟩
    rw [getInodeDataSectors, if_neg (by rw [hlength]; decide), hlength, hindirect, hdoubly]
    have hnum : bytesToSectors 129024 = 252 := rfl
    have hdirect : min 252 DIRECT_BLOCKS_COUNT = 123 := rfl
    have hfull : min (252 - 123) INDIRECT_BLOCKS_PER_SECTOR = 128 := rfl
    have hrest : min (252 - 123 - 128) (INDIRECT_BLOCKS_PER_SECTOR * INDIRECT_BLOCKS_PER_SECTOR) =
        1 := rfl
    dsimp only
    rw [hnum, hdirect, hfull, hrest, if_pos (by decide), if_pos (by decide)]
    have hblock : blockEntry ((ByteBlock.zeros : Sector).setU32 0 1) 0 = 1 :=
      ByteBlock.u32_setU32_same (by decide) (by decide)
    dsimp only
    rw [hread₂]
    have hone : (1 + INDIRECT_BLOCKS_PER_SECTOR - 1) / INDIRECT_BLOCKS_PER_SECTOR = 1 := rfl
    have hmin : min 1 INDIRECT_BLOCKS_PER_SECTOR = 1 := rfl
    rw [hone, doublyIndirectSectors, hentry, hsecond]
    dsimp only
    rw [hmin, doublyIndirectSectors, List.range_one, List.map_singleton, hblock, List.append_nil]
  have hsector : (indexToSector wildCache longInode 251).1 = 0 := by
    rw [indexToSector, if_neg (by decide), if_neg (by decide), if_pos (by decide), hdoubly]
    have hdiv : (251 - (DIRECT_BLOCKS_COUNT + INDIRECT_BLOCKS_PER_SECTOR)) /
        INDIRECT_BLOCKS_PER_SECTOR = 0 := rfl
    have hmod : (251 - (DIRECT_BLOCKS_COUNT + INDIRECT_BLOCKS_PER_SECTOR)) %
        INDIRECT_BLOCKS_PER_SECTOR = 0 := rfl
    dsimp only
    rw [hdiv, hmod, hread₂', hentry, hfirst]
    exact ByteBlock.u32_zeros _
  obtain ⟨xs, hxs⟩ := hlist
  refine ⟨hlength, fun heq => ?_⟩
  rw [hlength, show bytesToSectors 129024 = 251 + 1 from rfl, List.range_succ, List.map_append,
    hxs] at heq
  have hlast := congrArg List.getLast? heq
  rw [List.map_singleton, List.getLast?_concat, List.getLast?_concat, hsector] at hlast
  cases hlast

end SimpleShell.Fs
