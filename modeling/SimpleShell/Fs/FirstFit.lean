import SimpleShell.Fs.Fresh

/-!
# The free map over a run of calls

Any sequence of `free_map_allocate` and `free_map_release` on the open free map. What the
file held before does not matter, since `free_map_open` reads it and `free_map_create`
writes it; from then on every call that changes the bitmap writes all of it, and within the
file, so that no call asks for sectors of its own.
-/

namespace SimpleShell.Fs

open SimpleShell.Lib

/-- The calls of `free-map.c` once the map is open. -/
inductive MapCall where
  | allocate (cnt : Nat)
  | release (sector cnt : Nat)

def MapCall.exec (s : FileSys) : MapCall → Option Nat × FileSys
  | .allocate cnt => freeMapAllocate (s.freeMap.bitCnt + 1) cnt s
  | .release sector cnt => (none, freeMapRelease s sector cnt)

/-- What the callers keep to: some sectors at least, and a release of a run that is
allocated, which `free_map_release` asserts. -/
def MapCall.Legal (s : FileSys) : MapCall → Prop
  | .allocate cnt => 1 ≤ cnt
  | .release sector cnt => 1 ≤ cnt ∧ sector + cnt ≤ s.freeMap.bitCnt ∧
      bitmapContains s.freeMap sector cnt false = false

/-- What `free_map_allocate` has to answer, and what it does to the bitmap. -/
structure FirstFit (b : Bitmap) (cnt : Nat) (r : Option Nat) (b' : Bitmap) : Prop where
  succeeds : r ≠ none ↔ ∃ k, FreeRun b cnt k
  lowest : ∀ k, r = some k → FreeRun b cnt k ∧ ∀ j, j < k → ¬FreeRun b cnt j
  marks : ∀ k, r = some k → ∀ i,
    bitmapTest b' i = true ↔ bitmapTest b i = true ∨ (k ≤ i ∧ i < k + cnt)
  refused : r = none → b' = b

def MapCall.Meets (b : Bitmap) (r : Option Nat) (b' : Bitmap) : MapCall → Prop
  | .allocate cnt => FirstFit b cnt r b'
  | .release sector cnt => ∀ i,
      bitmapTest b' i = true ↔ bitmapTest b i = true ∧ ¬(sector ≤ i ∧ i < sector + cnt)

/-- `f` is the free map's file, as long as the bitmap needs it. -/
structure FullMapFile (s : FileSys) (f : File) : Prop where
  file : s.mem.freeMapFile = some f
  writable : (s.inode f.inode).denyWriteCnt = 0
  length : inodeLength (s.inode f.inode).data = byteCnt s.freeMap.bitCnt
  mapped : FileOk s.content s.cache.size (s.inode f.inode).data
  words : s.freeMap.bits.length = elemCnt s.freeMap.bitCnt
  pos : 0 < s.freeMap.bitCnt

/-- `bitmap_read` of the file, into any bitmap of that size, gives the one in memory. -/
def Synced (s : FileSys) (f : File) : Prop :=
  ∀ b : Bitmap, b.bitCnt = s.freeMap.bitCnt → b.bits.length = s.freeMap.bits.length →
    ∃ c : BufferCache, bitmapRead { s with freeMap := b } f = (true, { s with cache := c }) ∧
      c.content = s.content

/-- The free map as `free_map_open` and `free_map_create` leave it. -/
inductive MapReady : FileSys → File → Prop where
  | opened {s : FileSys} {f : File} (h : FullMapFile s f) : MapReady (bitmapRead s f).2 f
  | created {s : FileSys} {f : File} (h : FullMapFile s f) (hwf : s.freeMap.Wf) :
      MapReady (bitmapWrite allocSector s f).2 f

/-- The states that calls lead to. -/
inductive MapRun (s : FileSys) : FileSys → Prop where
  | nil : MapRun s s
  | call {s' : FileSys} (call : MapCall) :
      MapRun s s' → call.Legal s' → MapRun s (call.exec s').2

section FirstFit

variable {s s' : FileSys} {f : File} {b : Bitmap}

/-! ## Reading and writing the file -/

/-- The bytes of the file, as many as the bitmap has. -/
def mapBytes (s : FileSys) (f : File) : List UInt8 :=
  fileBytes s.content (s.inode f.inode).data 0 (byteCnt s.freeMap.bitCnt)

theorem bitmapRead_full (h : FullMapFile s f) :
    ∃ c : BufferCache, bitmapRead s f =
        (true, { s with cache := c, freeMap := s.freeMap.ofBytes (mapBytes s f) }) ∧
      c.content = s.content ∧ c.size = s.cache.size := by
  obtain ⟨r, hr⟩ : ∃ r, r = inodeReadAt s.mem.stray s.cache (s.inode f.inode).data
      (byteCnt s.freeMap.bitCnt) 0 := ⟨_, rfl⟩
  have hbytes : r.1 = mapBytes s f := by
    rw [hr, ← Int.ofNat_zero, inodeReadAt_fst h.mapped, h.length, Int.ofNat_zero, Int.sub_zero,
      Int.min_self, Int.toNat_natCast]
    rfl
  have hlen : r.1.length = byteCnt s.freeMap.bitCnt := by
    rw [hbytes, mapBytes, length_fileBytes]
  refine ⟨r.2, ?_, by rw [hr, inodeReadAt_content]; rfl, by rw [hr, inodeReadAt_size]⟩
  unfold bitmapRead
  dsimp only
  rw [if_pos h.pos, ← hr, hbytes.symm, decide_eq_true hlen]

/-- Only the cache and the bitmap may differ, and the content only in the file's data. -/
theorem FullMapFile.congr (h : FullMapFile s f) {c : BufferCache} {n : Nat}
    (hcnt : b.bitCnt = s.freeMap.bitCnt) (hlen : b.bits.length = s.freeMap.bits.length)
    (hmapped : FileOk c.content c.size (s.inode f.inode).data) :
    FullMapFile { s with cache := c, freeMap := b, allocFailures := n } f where
  file := h.file
  writable := h.writable
  length := h.length.trans (by rw [← hcnt])
  mapped := hmapped
  words := by
    change b.bits.length = elemCnt b.bitCnt
    rw [hlen, h.words, hcnt]
  pos := by
    change 0 < b.bitCnt
    rw [hcnt]
    exact h.pos

/-- What is in the file decides what is read. -/
theorem FullMapFile.synced_iff (h : FullMapFile s f) :
    Synced s f ↔ s.freeMap.ofBytes (mapBytes s f) = s.freeMap := by
  have hread : ∀ b : Bitmap, b.bitCnt = s.freeMap.bitCnt →
      b.bits.length = s.freeMap.bits.length →
      ∃ c : BufferCache, bitmapRead { s with freeMap := b } f =
          (true, { s with cache := c, freeMap := s.freeMap.ofBytes (mapBytes s f) }) ∧
        c.content = s.content := by
    intro b hcnt hlen
    obtain ⟨c, heq, hcont, -⟩ := bitmapRead_full (h.congr (b := b) (n := s.allocFailures) hcnt
      hlen h.mapped)
    refine ⟨c, ?_, hcont⟩
    have hbytes : mapBytes { s with freeMap := b } f = mapBytes s f := by
      unfold mapBytes
      dsimp only
      rw [hcnt]
      rfl
    have hfull : 8 * s.freeMap.bits.length ≤ (mapBytes s f).length := by
      rw [mapBytes, length_fileBytes, byteCnt, h.words]
    rw [heq, hbytes, Bitmap.ofBytes_congr hcnt hlen hfull]
  constructor
  · intro hsync
    obtain ⟨c, heq, -⟩ := hsync s.freeMap rfl rfl
    obtain ⟨c', heq', -⟩ := hread s.freeMap rfl rfl
    exact congrArg (fun r : Bool × FileSys => r.2.freeMap) (heq'.symm.trans heq)
  · intro hof b hcnt hlen
    obtain ⟨c, heq, hcont⟩ := hread b hcnt hlen
    rw [hof] at heq
    exact ⟨c, heq, hcont⟩

theorem FullMapFile.write (h : FullMapFile s f) (alloc : Alloc) (hb : b.Wf)
    (hcnt : b.bitCnt = s.freeMap.bitCnt) :
    ∃ c : BufferCache, bitmapWrite alloc { s with freeMap := b } f =
        (true, { s with freeMap := b, cache := c }) ∧
      FullMapFile { s with freeMap := b, cache := c } f ∧
      Synced { s with freeMap := b, cache := c } f := by
  have hlen : b.bits.length = s.freeMap.bits.length := by rw [hb.length, h.words, hcnt]
  have h' := h.congr (b := b) (n := s.allocFailures) hcnt hlen h.mapped
  obtain ⟨c, heq, hsize, hframe, hbytes⟩ := bitmapWrite_within alloc h'.writable h'.mapped
    h'.length hb h'.pos
  have hfull : FullMapFile { s with freeMap := b, cache := c } f := by
    refine h.congr (n := s.allocFailures) hcnt hlen ?_
    rw [hsize]
    exact h.mapped.dataWrite hframe
  refine ⟨c, heq, hfull, hfull.synced_iff.2 ?_⟩
  have hmap : mapBytes { s with freeMap := b, cache := c } f = b.toBytes := hbytes
  rw [hmap]
  exact Bitmap.ofBytes_toBytes hb rfl rfl

/-! ## The map once it is open -/

/-- What every call keeps. -/
structure MapKept (s : FileSys) (f : File) : Prop where
  full : FullMapFile s f
  wf : s.freeMap.Wf
  synced : Synced s f

theorem MapReady.kept (h : MapReady s f) : MapKept s f := by
  cases h with
  | @opened s f h =>
      obtain ⟨c, heq, hcont, hsize⟩ := bitmapRead_full h
      have hwf := Bitmap.ofBytes_wf h.words (mapBytes s f)
      have hlen : (s.freeMap.ofBytes (mapBytes s f)).bits.length = s.freeMap.bits.length := by
        rw [hwf.length, h.words]
        rfl
      have hfull : FullMapFile
          { s with cache := c, freeMap := s.freeMap.ofBytes (mapBytes s f) } f :=
        h.congr (n := s.allocFailures) rfl hlen (by rw [hcont, hsize]; exact h.mapped)
      rw [heq]
      refine ⟨hfull, hwf, hfull.synced_iff.2 ?_⟩
      have hbytes : mapBytes
          { s with cache := c, freeMap := s.freeMap.ofBytes (mapBytes s f) } f =
          mapBytes s f := congrArg
        (fun g => fileBytes g (s.inode f.inode).data 0 (byteCnt s.freeMap.bitCnt)) hcont
      rw [hbytes]
      refine Bitmap.ofBytes_congr rfl hlen ?_
      rw [mapBytes, length_fileBytes, byteCnt, h.words]
  | @created s f h hwf =>
      obtain ⟨c, heq, hfull, hsync⟩ := h.write allocSector hwf rfl
      have heq : bitmapWrite allocSector s f = (true, { s with cache := c }) := heq
      rw [heq]
      exact ⟨hfull, hwf, hsync⟩

theorem MapKept.write (h : MapKept s f) (alloc : Alloc) {start cnt : Nat} (v : Bool)
    (hfits : start + cnt ≤ s.freeMap.bitCnt) :
    ∃ c : BufferCache,
      bitmapWrite alloc { s with freeMap := bitmapSetMultiple s.freeMap start cnt v } f =
        (true, { s with freeMap := bitmapSetMultiple s.freeMap start cnt v, cache := c }) ∧
      MapKept { s with freeMap := bitmapSetMultiple s.freeMap start cnt v, cache := c } f := by
  obtain ⟨hwf, hcnt, -⟩ := bitmapSetMultiple_spec h.wf v hfits
  obtain ⟨c, heq, hfull, hsync⟩ := h.full.write alloc hwf hcnt
  exact ⟨c, heq, hfull, hwf, hsync⟩

theorem allocate_spec (h : MapKept s f) (depth cnt : Nat) :
    FirstFit s.freeMap cnt (freeMapAllocate (depth + 1) cnt s).1
        (freeMapAllocate (depth + 1) cnt s).2.freeMap ∧
      MapKept (freeMapAllocate (depth + 1) cnt s).2 f := by
  rw [freeMapAllocate, bitmapScanAndFlip]
  cases hscan : bitmapScan s.freeMap 0 cnt false with
  | none =>
      have hnone := bitmapScan_run_none.1 hscan
      have hfull := h.full.congr (n := s.allocFailures + 1) rfl rfl h.full.mapped
      refine ⟨⟨⟨fun hne => absurd rfl hne, fun hrun => ?_⟩, fun k hk => ?_, fun k hk => ?_,
        fun _ => rfl⟩, hfull, h.wf, hfull.synced_iff.2 (h.full.synced_iff.1 h.synced)⟩
      · obtain ⟨k, hrun⟩ := hrun
        exact absurd hrun (hnone k)
      · cases hk
      · cases hk
  | some k =>
      obtain ⟨hrun, hfirst⟩ := bitmapScan_run_some.1 hscan
      obtain ⟨c, heq, hkept⟩ := h.write (freeMapAllocate depth 1) true hrun.fits
      obtain ⟨-, -, htest⟩ := bitmapSetMultiple_spec h.wf true hrun.fits
      simp only [Bool.not_false, h.full.file, heq, if_true]
      refine ⟨⟨⟨fun _ => ⟨k, hrun⟩, fun _ => Option.some_ne_none k⟩, fun j hj => ?_,
        fun j hj i => ?_, fun hk => ?_⟩, hkept⟩
      · obtain rfl := Option.some.inj hj
        exact ⟨hrun, hfirst⟩
      · obtain rfl := Option.some.inj hj
        rw [htest]
        split
        · next hin => exact iff_of_true rfl (.inr hin)
        · next hout => exact ⟨.inl, fun hor => hor.resolve_right hout⟩
      · cases hk

theorem release_spec (h : MapKept s f) {sector cnt : Nat}
    (hfits : sector + cnt ≤ s.freeMap.bitCnt) :
    (MapCall.release sector cnt).Meets s.freeMap none (freeMapRelease s sector cnt).freeMap ∧
      MapKept (freeMapRelease s sector cnt) f := by
  obtain ⟨c, heq, hkept⟩ := h.write allocSector false hfits
  obtain ⟨-, -, htest⟩ := bitmapSetMultiple_spec h.wf false hfits
  have hdo : freeMapRelease s sector cnt =
      { s with freeMap := bitmapSetMultiple s.freeMap sector cnt false, cache := c } := by
    rw [freeMapRelease]
    dsimp only
    rw [h.full.file]
    dsimp only
    rw [heq]
  rw [hdo]
  refine ⟨fun i => ?_, hkept⟩
  dsimp only
  rw [htest]
  split
  · next hin => exact iff_of_false Bool.false_ne_true fun hand => hand.2 hin
  · next hout => exact ⟨fun hset => ⟨hset, hout⟩, fun hand => hand.1⟩

/-- One call. -/
theorem MapKept.exec (h : MapKept s f) {call : MapCall} (hl : call.Legal s) :
    call.Meets s.freeMap (call.exec s).1 (call.exec s).2.freeMap ∧
      MapKept (call.exec s).2 f := by
  cases call with
  | allocate cnt => exact allocate_spec h s.freeMap.bitCnt cnt
  | release sector cnt => exact release_spec h hl.2.1

/-- And any number of them. -/
theorem MapRun.kept (hrun : MapRun s s') (h : MapKept s f) : MapKept s' f := by
  induction hrun with
  | nil => exact h
  | call call _ hl ih => exact (ih.exec hl).2

/-- Every call of every run finds the lowest run of free sectors if there is one, changes
the bits of its own run and no others, and leaves the bitmap in the file. -/
theorem freeMap_firstFit {call : MapCall} (h : MapReady s f) (hrun : MapRun s s')
    (hl : call.Legal s') :
    call.Meets s'.freeMap (call.exec s').1 (call.exec s').2.freeMap ∧
      Synced (call.exec s').2 f := by
  obtain ⟨hmeets, hkept⟩ := (hrun.kept h.kept).exec hl
  exact ⟨hmeets, hkept.synced⟩

/-- The free map of a mounted volume is such a file. -/
theorem FreeMapOk.full {D : Set Nat} (h : FreeMapOk D s) (hf : s.mem.freeMapFile = some f) :
    FullMapFile s f := by
  obtain ⟨i, hget, hi⟩ := h.opened f hf
  have hinode : s.inode f.inode = i := FileSys.inode_eq hget
  refine ⟨hf, ?_, ?_, ?_, h.wf.length, Nat.zero_lt_of_lt (h.lt_bitCnt h.mapSector)⟩
  · rw [hinode]
    exact hi.writable
  · rw [hinode]
    exact hi.length
  · rw [hinode]
    exact hi.file

/-- Two runs in a row on a disk that was just formatted. -/
theorem freeMap_firstFit_three : ∃ (s s' : FileSys) (f : File), MapReady s f ∧ MapRun s s' ∧
    FirstFit s'.freeMap 3 ((MapCall.allocate 3).exec s').1
      ((MapCall.allocate 3).exec s').2.freeMap ∧ Synced ((MapCall.allocate 3).exec s').2 f := by
  obtain ⟨s, hinit, -⟩ := blankDisk_create 1 (by decide) (by decide)
  obtain ⟨D, dat, hf⟩ := filesysInit_format hinit
  have hmap := hf.session.mounted.vol.map
  obtain ⟨f, hfile, -⟩ := hf.session.mounted.map_opened
  have hready : MapReady (bitmapRead s f).2 f := .opened (hmap.full hfile)
  have hlegal : ∀ u cnt, 1 ≤ cnt → (MapCall.allocate cnt).Legal u := fun _ _ h => h
  have hrun : MapRun (bitmapRead s f).2 ((MapCall.allocate 2).exec (bitmapRead s f).2).2 :=
    .call (.allocate 2) .nil (hlegal _ 2 (by decide))
  exact ⟨_, _, f, hready, hrun, freeMap_firstFit hready hrun (hlegal _ 3 (by decide))⟩

end FirstFit

end SimpleShell.Fs
