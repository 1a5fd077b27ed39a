import SimpleShell.Fs.Ownership

/-!
# Unmounting and mounting again

`filesys_done` writes back what the cache still holds and closes every file; `filesys_init`
without a format then starts from the device alone. Nothing is asked of the memory of the new
process: whatever its cache holds, no slot of it is in use.
-/

namespace SimpleShell.Fs

open SimpleShell.Lib

section Remount

variable {D K : Set Nat} {dat : Nat → Sector} {s : FileSys} {ps : List Nat} {p q : Nat}
  {i : Inode} {f : File}

/-! ## Closing files that are not removed -/

theorem FileSys.setInode_kept (hi : i.removed = false) (hq : (s.inode q).removed = false) :
    ((s.setInode p i).inode q).removed = false := by
  cases hget : s.mem.inodes.get? p with
  | none =>
      have hsame : s.setInode p i = s := by
        unfold FileSys.setInode
        rw [Heap.set_of_none hget]
      rw [hsame]
      exact hq
  | some j =>
      have hset : (s.setInode p i).mem.inodes.get? q =
          if q = p then some i else s.mem.inodes.get? q := Heap.get?_set hget i q
      unfold FileSys.inode at hq ⊢
      rw [hset]
      split
      · exact hi
      · exact hq

/-- Closing an inode that was not removed writes nothing. -/
theorem inodeClose_kept (h : ∀ q ∈ ps, (s.inode q).removed = false) (hp : p ∈ ps) :
    (inodeClose s p).cache = s.cache ∧
      ∀ q ∈ ps, ((inodeClose s p).inode q).removed = false := by
  unfold inodeClose
  cases hget : s.mem.inodes.get? p with
  | none => exact ⟨rfl, h⟩
  | some i =>
      have hi : i.removed = false := by
        have hkept := h p hp
        rwa [FileSys.inode_eq hget] at hkept
      dsimp only
      split
      · simp only [hi, Bool.false_eq_true, if_false]
        refine ⟨rfl, fun q hq => ?_⟩
        have hset := FileSys.setInode_kept (p := p) (i := { i with openCnt := i.openCnt - 1 })
          hi (h q hq)
        unfold FileSys.inode at hset ⊢
        simp only [hi] at hset
        dsimp only
        rw [Heap.get?_free]
        split
        · rfl
        · exact hset
      · exact ⟨rfl, fun q hq => FileSys.setInode_kept hi (h q hq)⟩

theorem fileClose_kept (h : ∀ q ∈ ps, (s.inode q).removed = false) (hf : f.inode ∈ ps) :
    (fileClose s f).cache = s.cache ∧
      ∀ q ∈ ps, ((fileClose s f).inode q).removed = false := by
  have hallow : (fileAllowWrite s f).cache = s.cache ∧
      ∀ q ∈ ps, ((fileAllowWrite s f).inode q).removed = false := by
    unfold fileAllowWrite
    split
    · exact ⟨rfl, fun q hq => FileSys.setInode_kept (h _ hf) (h q hq)⟩
    · exact ⟨rfl, h⟩
  obtain ⟨hcache, hkept⟩ := inodeClose_kept hallow.2 hf
  exact ⟨hcache.trans hallow.1, hkept⟩

theorem closeAll_kept (es : List (CString × File)) (h : ∀ q ∈ ps, (s.inode q).removed = false)
    (hes : ∀ e ∈ es, e.2.inode ∈ ps) :
    (es.foldl (fun s e => fileClose s e.2) s).cache = s.cache := by
  induction es generalizing s with
  | nil => rfl
  | cons e es ih =>
      obtain ⟨hcache, hkept⟩ := fileClose_kept h (hes e List.mem_cons_self)
      exact (ih hkept fun e he => hes e (List.mem_cons_of_mem _ he)).trans hcache

/-- The device after `filesys_done` is the one `buffer_cache_close` leaves. -/
theorem filesysDone_cache (hs : Session D K dat s 0) :
    (filesysDone s).cache = s.cache.close := by
  have hkept : ∀ q ∈ s.mem.openInodes, (s.inode q).removed = false :=
    fun q hq => (hs.mounted.opened q hq).1.kept
  obtain ⟨f, hf, ho⟩ := hs.mounted.map_opened
  have hclose : freeMapClose s = fileClose s f := by
    unfold freeMapClose
    rw [hf]
  obtain ⟨hcache, hkept₁⟩ := fileClose_kept hkept ho.mem
  have htable : (fileClose s f).mem.fileTable = s.mem.fileTable :=
    (fileClose_shut ho.isOpen.live ho.isOpen.openCnt ho.isOpen.kept).tables.fileTable
  unfold filesysDone freeFileTable
  dsimp only
  rw [hclose, htable, hcache]
  refine closeAll_kept (s := { fileClose s f with cache := s.cache.close }) _ hkept₁ ?_
  rintro ⟨n, g⟩ he
  exact ((hs.handle n g he).2.choose_spec).2.1

/-! ## The new process -/

/-- What a new process reads off the device. -/
theorem init_content {b : BufferCache} {c : CacheState}
    (hdev : c.fsDevice = b.close.state.fsDevice) :
    (BufferCache.init c).size = b.size ∧ (BufferCache.init c).content = b.content := by
  obtain ⟨hsize, hread⟩ := bufferCacheClose_spec b.ok
  have hdev : c.fsDevice = (bufferCacheClose b.state).fsDevice := hdev
  have hsize' : c.fsDevice.size = b.size := by rw [hdev, hsize]; rfl
  refine ⟨hsize', ?_⟩
  funext k
  rcases Nat.lt_or_ge k b.size with hk | hk
  · have hinit : (BufferCache.init c).content k = blockRead c.fsDevice k .zeros :=
      bufferCacheInit_content ⟨by omega, rfl⟩
    rw [hinit, hdev]
    exact hread k .zeros ⟨hk, rfl⟩
  · have hnew : (BufferCache.init c).content k = .zeros := if_neg fun h => by
      have hlt : k < c.fsDevice.size := h.1
      omega
    have hold : b.content k = .zeros := if_neg fun h => by
      have hlt : k < b.size := h.1
      omega
    rw [hnew, hold]

theorem filesysStart_freeMap (c : CacheState) (stray : Int → UInt8) :
    (filesysStart c stray).freeMap.bitCnt = (c.fsDevice.size + (2 ^ 32 - 1)) % 2 ^ 32 ∧
      (filesysStart c stray).freeMap.bits.length =
        elemCnt (filesysStart c stray).freeMap.bitCnt := by
  have hcnt : (filesysStart c stray).freeMap.bitCnt =
      (c.fsDevice.size + (2 ^ 32 - 1)) % 2 ^ 32 := by
    unfold filesysStart
    dsimp only
    rw [bitmapMark_bitCnt, bitmapMark_bitCnt, bitmapCreate_bitCnt]
  refine ⟨hcnt, ?_⟩
  rw [hcnt]
  unfold filesysStart
  dsimp only
  rw [bitmapMark_length, bitmapMark_length, (bitmapCreate_wf _).length, bitmapCreate_bitCnt]

/-- `block_size (fs_device) - 1` in 32 bits. -/
theorem device_bits {n m : Nat} (hm : m + 1 = n) (hfits : n < 2 ^ 32) :
    (n + (2 ^ 32 - 1)) % 2 ^ 32 = m := by
  omega

theorem filesysInit_false (c : CacheState) (stray : Int → UInt8) :
    filesysInit false c stray = (true && (freeMapOpen (filesysStart c stray)).1,
      (freeMapOpen (filesysStart c stray)).2) := by
  unfold filesysInit
  rw [if_neg Bool.false_ne_true]

theorem init_small (c : CacheState) : (BufferCache.init c).size < 2 ^ 32 := c.fsDevice.size_small

/-- What a new process has over the device of a sound state. -/
structure Fresh (s t : FileSys) : Prop where
  bits : t.freeMap.bitCnt = s.freeMap.bitCnt
  words : t.freeMap.bits.length = elemCnt t.freeMap.bitCnt
  size : t.cache.size = s.cache.size
  content : t.content = s.content
  openInodes : t.mem.openInodes = []

theorem filesysStart_fresh {c : CacheState} {stray : Int → UInt8} (hm : Mounted D K dat s)
    (hdev : c.fsDevice = s.cache.close.state.fsDevice) : Fresh s (filesysStart c stray) := by
  obtain ⟨hsize, hcont⟩ := init_content hdev
  obtain ⟨hcnt, hwords⟩ := filesysStart_freeMap c stray
  have hfits := init_small c
  rw [hsize] at hfits
  have hdevice : c.fsDevice.size = s.cache.size := hsize
  refine ⟨?_, hwords, hsize, hcont, rfl⟩
  rw [hcnt, hdevice]
  exact device_bits hm.vol.map.cnt hfits

/-- The answer is that all went well, and everything is where it was. -/
structure Remounted (s : FileSys) (r : Bool × FileSys) : Prop where
  done : r.1 = true
  freeMap : r.2.freeMap = s.freeMap
  entries : r.2.entries = s.entries
  bytes : ∀ n k, (n, k) ∈ s.entries → r.2.bytes k = s.bytes k

/-- `free_map_open` finds everything where it was. -/
theorem Fresh.remount {t : FileSys} (hf : Fresh s t) (hs : Sound D K dat s) :
    Remounted s (freeMapOpen t) := by
  have hm := hs.session.mounted
  obtain ⟨hdone, hfree, hm', hopened⟩ := freeMapOpen_spec hm hs.exact.sync hf.words hf.bits
    hf.size hf.content hf.openInodes
  have hcontent : (freeMapOpen t).2.content = s.content := hopened.content.trans hf.content
  refine ⟨hdone, hfree, ?_, fun n k hn => ?_⟩
  · rw [hm'.entries hs.session.root_mem, hs.session.entries, hcontent]
  · have hk := (hs.session.listed hn).1
    rw [hm'.bytes hk, hs.session.bytes hk, hcontent]

theorem Remounted.of_eq {r o : Bool × FileSys} (h : Remounted s o) (hr : r = (true && o.1, o.2)) :
    Remounted s r := by
  have hro : r = o := by rw [hr, Bool.true_and]
  rw [hro]
  exact h

/-- After a run on which nothing failed, unmounting and mounting again is the identity. -/
theorem remount_identity {c : CacheState} {stray : Int → UInt8} (h : Smooth s)
    (hdev : c.fsDevice = (filesysDone s).cache.state.fsDevice) :
    Remounted s (filesysInit false c stray) := by
  obtain ⟨D, K, dat, hs⟩ := h.sound
  rw [filesysDone_cache hs.session] at hdev
  have hfresh : Fresh s (filesysStart c stray) := filesysStart_fresh hs.session.mounted hdev
  exact (hfresh.remount hs).of_eq (filesysInit_false c stray)

/-- A disk with a file of one byte, mounted again by a process whose cache is empty. -/
theorem remount_identity_oneByte : ∃ s k c, Smooth s ∧ s.entries = [([97], k)] ∧
    c.fsDevice = (filesysDone s).cache.state.fsDevice ∧
    Remounted s (filesysInit false c fun _ => 0) := by
  obtain ⟨s, k, h, hentries, -⟩ := oneByte_smooth
  obtain ⟨c, hc⟩ : ∃ c : CacheState, c =
      { blankDisk 200 with fsDevice := (filesysDone s).cache.state.fsDevice } := ⟨_, rfl⟩
  have hdev : c.fsDevice = (filesysDone s).cache.state.fsDevice := by rw [hc]
  exact ⟨s, k, c, h, hentries, hdev, remount_identity h hdev⟩

end Remount

end SimpleShell.Fs
