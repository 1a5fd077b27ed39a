import SimpleShell.Fs.Dump
import SimpleShell.Fs.Fresh

/-!
# Bytes that only the cache holds

A write to a sector that is in the cache leaves the device as it is, so `recover (1)` writes
the same host files before it and after it.
-/

namespace SimpleShell.Fs

open SimpleShell.Lib

/-! ## Hits -/

namespace BufferCache

/-- Sector `k` is in a slot. -/
def Cached (c : BufferCache) (k : Nat) : Prop :=
  ∃ i, (c.state.cache i).occupied ∧ (c.state.cache i).diskSector = k

variable {c : BufferCache} {k : Nat}

theorem cacheFill_holds (c : CacheState) (k : Nat) :
    ((cacheFill c k).2.cache (cacheFill c k).1).occupied ∧
      ((cacheFill c k).2.cache (cacheFill c k).1).diskSector = k := by
  unfold cacheFill
  cases hl : bufferCacheLookup c k with
  | some i => exact bufferCacheLookup_some hl
  | none =>
      dsimp only
      rw [CacheOf.setEntry_same]
      exact ⟨rfl, rfl⟩

theorem Cached.fill (h : c.Cached k) : (cacheFill c.state k).2 = c.state := by
  obtain ⟨i, hocc, hk⟩ := h
  have hl := c.ok.lookup_eq hocc
  rw [hk] at hl
  unfold cacheFill
  rw [hl]

theorem cached_read (c : BufferCache) (k : Nat) : (c.read k).2.Cached k := by
  obtain ⟨hocc, hk⟩ := cacheFill_holds c.state k
  refine ⟨(cacheFill c.state k).1, ?_, ?_⟩
  · simp only [read, bufferCacheRead, CacheOf.setEntry_same]
    exact hocc
  · simp only [read, bufferCacheRead, CacheOf.setEntry_same]
    exact hk

theorem cached_write (c : BufferCache) (k : Nat) (b : Sector) : (c.write k b).Cached k := by
  obtain ⟨hocc, hk⟩ := cacheFill_holds c.state k
  refine ⟨(cacheFill c.state k).1, ?_, ?_⟩
  · simp only [write, bufferCacheWrite, CacheOf.setEntry_same]
    exact hocc
  · simp only [write, bufferCacheWrite, CacheOf.setEntry_same]
    exact hk

theorem Cached.read_device (h : c.Cached k) :
    (c.read k).2.state.fsDevice = c.state.fsDevice := by
  simp only [read, bufferCacheRead, CacheOf.setEntry_fsDevice, h.fill]

theorem Cached.write_device (h : c.Cached k) (b : Sector) :
    (c.write k b).state.fsDevice = c.state.fsDevice := by
  simp only [write, bufferCacheWrite, CacheOf.setEntry_fsDevice, h.fill]

end BufferCache

section Pieces

variable {c : BufferCache} {k : Nat}

theorem writePiece_cached (c : BufferCache) (k : Nat) (ofs chunk : Int) (piece : List UInt8) :
    (writePiece c k ofs chunk piece).Cached k := by
  obtain ⟨b, c', heq, -⟩ := writePiece_eq c k ofs chunk piece
  rw [heq]
  exact c'.cached_write k b

theorem writePiece_device (h : c.Cached k) (ofs chunk : Int) (piece : List UInt8) :
    (writePiece c k ofs chunk piece).state.fsDevice = c.state.fsDevice := by
  unfold writePiece
  split
  · exact h.write_device _
  · dsimp only
    split
    · exact ((c.cached_read k).write_device _).trans h.read_device
    · exact h.write_device _

/-! ## A write in one sector -/

variable {d : Sector} {v : List UInt8} {i ofs : Nat}

theorem byteToSector_direct {o : Nat} (ho : (o : Int) < inodeLength d) (hdiv : o / 512 = i)
    (hi : i < 123) : byteToSector c d o = (directBlock d i, c) := by
  have hindex : ((o : Int) / BLOCK_SECTOR_SIZE).toNat = i := by
    simp only [BLOCK_SECTOR_SIZE]
    omega
  rw [byteToSector, if_pos ⟨Int.natCast_nonneg o, ho⟩, hindex, indexToSector,
    if_pos (by simp only [DIRECT_BLOCKS_COUNT]; omega)]

theorem inodeWriteLoop_sector (hi : i < 123) (hpos : 0 < v.length) (hfit : ofs + v.length ≤ 512)
    (hin : ((512 * i + ofs + v.length : Nat) : Int) ≤ inodeLength d) :
    inodeWriteLoop d v.length c v (512 * i + ofs : Nat) =
      ((v.length : Int), writePiece c (directBlock d i) ofs v.length v) := by
  obtain ⟨n, hn⟩ : ∃ n, v.length = n + 1 := ⟨v.length - 1, by omega⟩
  have hlt : ((512 * i + ofs : Nat) : Int) < inodeLength d := by omega
  have hsector := @byteToSector_direct c d i (512 * i + ofs) hlt (by omega) hi
  obtain ⟨m, hchunk, -, hle, -, -, hor⟩ :=
    @chunkSize_spec d v.length (512 * i + ofs) (by omega) hlt
  have hm : m = v.length := by
    simp only [BLOCK_SECTOR_SIZE] at hor
    omega
  have hofs : ((512 * i + ofs : Nat) : Int).tmod BLOCK_SECTOR_SIZE = ofs := by
    rw [Int.tmod_eq_emod_of_nonneg (Int.natCast_nonneg _)]
    simp only [BLOCK_SECTOR_SIZE]
    omega
  have hnil : ∀ (k : Nat) (c : BufferCache) (o : Int), inodeWriteLoop d k c [] o = (0, c) := by
    intro k c o
    cases k with
    | zero => rfl
    | succ k => rfl
  rw [hn, inodeWriteLoop, if_pos (by omega)]
  dsimp only
  rw [hsector, hchunk, hm, if_neg (by omega), Int.toNat_natCast, List.take_length,
    List.drop_length, hnil, hofs, hn]
  dsimp only
  rw [Int.add_zero]

variable {s : FileSys} {f : File} {name : CString} {buffer : List UInt8}

/-- A write to an open file within one sector of what it has goes through the cache alone. -/
theorem fsutilWrite_sector (hget : getFileByFname s name = some f)
    (hat : f.pos = (512 * i + ofs : Nat)) (hdeny : (s.inode f.inode).denyWriteCnt = 0)
    (hsector : directBlock (s.inode f.inode).data i ≠ NO_SECTOR) (hi : i < 123)
    (hpos : 0 < buffer.length) (hfit : ofs + buffer.length ≤ 512)
    (hin : ((512 * i + ofs + buffer.length : Nat) : Int) ≤ inodeLength (s.inode f.inode).data) :
    ∃ pos, (fsutilWrite s name buffer).2 = setFile { s with
      cache := writePiece s.cache (directBlock (s.inode f.inode).data i) ofs buffer.length
        (buffer.set (buffer.length - 1) 0) } name { f with pos := pos } := by
  obtain ⟨v, hv⟩ : ∃ v, buffer.set (buffer.length - 1) 0 = v := ⟨_, rfl⟩
  have hlen : v.length = buffer.length := by rw [← hv, List.length_set]
  have hopen : openFile s name = (some f, s) := by
    unfold openFile
    rw [hget]
  have hmax : inodeLength (s.inode f.inode).data < 2 ^ 31 := BitVec.toInt_lt
  have hlast : int32 (((512 * i + ofs : Nat) : Int) + v.length - 1) =
      (512 * i + ofs + buffer.length - 1 : Nat) := by
    rw [int32_eq (by omega) (by omega), hlen]
    omega
  have hfound := @byteToSector_direct s.cache (s.inode f.inode).data i
    (512 * i + ofs + buffer.length - 1) (by omega) (by omega) hi
  have hwrite : inodeWriteAt allocSector s f.inode v (512 * i + ofs : Nat) =
      ((v.length : Int), { s with
        cache := writePiece s.cache (directBlock (s.inode f.inode).data i) ofs v.length v }) := by
    rw [inodeWriteAt_of_found hdeny (by rw [hlast, hfound]; exact hsector), hlast, hfound]
    dsimp only
    rw [inodeWriteLoop_sector hi (by omega) (by omega) (by rw [hlen]; exact hin)]
  unfold fsutilWrite
  rw [hopen]
  dsimp only
  unfold fileWrite
  rw [hv, hat, hwrite, hlen]
  exact ⟨_, rfl⟩

end Pieces

/-! ## Two states with one device -/

section Stale

variable {D K : Set Nat} {dat : Nat → Sector} {s s' : FileSys} {mem : Nat → Malloced} {k : Nat}

theorem recover1_congr (hmap : s'.freeMap = s.freeMap)
    (hdevice : s'.cache.state.fsDevice = s.cache.state.fsDevice) :
    recover1 mem s' = recover1 mem s := by
  have hloop : ∀ (sectors : List Nat) (n : Nat),
      recoverUsed s' mem sectors n = recoverUsed s mem sectors n := by
    intro sectors
    induction sectors with
    | nil => exact fun _ => rfl
    | cons i sectors ih =>
        intro n
        rw [recoverUsed, recoverUsed, hmap, hdevice]
        dsimp only
        rw [ih, ih]
  rw [recover1, recover1, hmap, hloop]

theorem leafAt_direct {f : Nat → Sector} {d : Sector} {i : Nat} (hi : i < 123) :
    leafAt f d i = directBlock d i := by
  rw [leafAt, leafSlot_direct hi, slotVal_nil (by omega)]
  rfl

/-- Four sectors of a file are different from each other and from 0. -/
theorem exists_directBlock_ge {f : Nat → Sector} {size : Nat} {d : Sector} (h : FileOk f size d)
    (hn : 4 ≤ numSectors d) : ∃ i < 4, 4 ≤ directBlock d i := by
  have hmem : ∀ i < 4, leafSlot i ∈ inodeSlots (numSectors d) := fun i hi =>
    leafSlot_mem (by omega) (by simp only [MAX_SECTORS]; omega)
  have hval : ∀ i < 4, slotVal f d (leafSlot i) = directBlock d i := fun i hi =>
    leafAt_direct (by omega)
  have hne : ∀ i < 4, directBlock d i ≠ 0 := by
    intro i hi
    rw [← hval i hi]
    exact h.mapped.ne _ (hmem i hi)
  have hinj : ∀ i < 4, ∀ j < 4, i ≠ j → directBlock d i ≠ directBlock d j := by
    intro i hi j hj hij heq
    rw [← hval i hi, ← hval j hj] at heq
    have hslot := h.mapped.inj _ (hmem i hi) _ (hmem j hj) heq
    rw [leafSlot_direct (by omega), leafSlot_direct (by omega)] at hslot
    exact hij (congrArg Prod.fst hslot)
  by_contra hnone
  have hlt : ∀ i < 4, directBlock d i < 4 := fun i hi =>
    Nat.lt_of_not_le fun hge => hnone ⟨i, hi, hge⟩
  have h₀ := hne 0 (by decide)
  have h₁ := hne 1 (by decide)
  have h₂ := hne 2 (by decide)
  have h₃ := hne 3 (by decide)
  have h₀₁ := hinj 0 (by decide) 1 (by decide) (by decide)
  have h₀₂ := hinj 0 (by decide) 2 (by decide) (by decide)
  have h₀₃ := hinj 0 (by decide) 3 (by decide) (by decide)
  have h₁₂ := hinj 1 (by decide) 2 (by decide) (by decide)
  have h₁₃ := hinj 1 (by decide) 3 (by decide) (by decide)
  have h₂₃ := hinj 2 (by decide) 3 (by decide) (by decide)
  have l₀ := hlt 0 (by decide)
  have l₁ := hlt 1 (by decide)
  have l₂ := hlt 2 (by decide)
  have l₃ := hlt 3 (by decide)
  omega

theorem toList_set {b b' : Sector} {i : Nat} {x : UInt8}
    (h : ∀ j < BLOCK_SECTOR_SIZE, b'.byte j = if j = i then x else b.byte j) :
    b'.toList = b.toList.set i x := by
  refine List.ext_getElem (by simp) fun j hj hj' => ?_
  rw [ByteBlock.length_toList] at hj
  rw [List.getElem_set]
  simp only [ByteBlock.toList, List.getElem_map, List.getElem_range, h j hj]
  split
  · next heq => rw [if_pos heq.symm]
  · next hne => rw [if_neg (Ne.symm hne)]

/-- A byte that becomes NUL is seen. -/
theorem nonNul_toList_ne {b b' : Sector} {i : Nat} (hi : i < BLOCK_SECTOR_SIZE)
    (h : ∀ j < BLOCK_SECTOR_SIZE, b'.byte j = if j = i then 0 else b.byte j)
    (hne : b.byte i ≠ 0) : nonNul b'.toList ≠ nonNul b.toList := by
  intro heq
  have hlen := nonNul_length b.toList
  have hlen' := nonNul_length b'.toList
  have hlt : i < b.toList.length := by rw [ByteBlock.length_toList]; exact hi
  have hget : b.toList[i] = b.byte i := by simp [ByteBlock.toList]
  have hcount : b'.toList.count 0 = b.toList.count 0 + 1 := by
    rw [toList_set h, List.count_set hlt, hget]
    simp [hne]
  rw [heq, hcount, ByteBlock.length_toList] at hlen'
  rw [ByteBlock.length_toList] at hlen
  omega

/-- An open file of four sectors, positioned at the start of one of them that `recover (1)`
reaches. -/
theorem fourSectors_file : ∃ s f i, Reachable s ∧ getFileByFname s [97] = some f ∧
    f.pos = (512 * i : Nat) ∧ i < 4 ∧ (s.inode f.inode).denyWriteCnt = 0 ∧
      inodeLength (s.inode f.inode).data = 2048 ∧
      4 ≤ directBlock (s.inode f.inode).data i ∧
      directBlock (s.inode f.inode).data i < s.freeMap.bitCnt ∧
      bitmapTest s.freeMap (directBlock (s.inode f.inode).data i) ∧
      directBlock (s.inode f.inode).data i < s.cache.size := by
  obtain ⟨s, hinit, hreach, -, -, -, hcreate⟩ := blankDisk_room 2048 (by decide) (by decide)
  obtain ⟨D, K, dat, hs⟩ := hreach.session
  obtain ⟨dat₁, -, -, hcase⟩ := fsutilCreate_spec hs plainName_a (2048 : Nat)
  have hreach₁ : Reachable (fsutilCreate s [97] (2048 : Nat)).2 :=
    .exec (.create [97] (2048 : Nat)) hreach plainName_a
  generalize fsutilCreate s [97] (2048 : Nat) = t at hcreate hcase hreach₁
  rcases hcase with ⟨-, k, hmade, hs₁⟩ | ⟨hfalse, -⟩
  · have hlisted : ([97], k) ∈ listing (rootBytes t.2.content dat₁) :=
      hmade.listing.symm.subset List.mem_cons_self
    have hk := hs₁.names.listed _ _ hlisted
    have hok := hs₁.mounted.vol.file k hk
    have hlength : inodeLength (dat₁ k) = 2048 := by
      have hlen := congrArg List.length hmade.content
      have hint : int32 (2048 : Nat) = 2048 := int32_eq (by decide) (by decide)
      have hnonneg := hok.nonneg
      rw [length_fileContent, List.length_replicate, hint] at hlen
      omega
    have hsectors : numSectors (dat₁ k) = 4 := by
      rw [numSectors, hlength]
      decide
    obtain ⟨i, hi, hge⟩ := exists_directBlock_ge hok (Nat.le_of_eq hsectors.symm)
    have hreach₂ : Reachable (fsutilSeek t.2 [97] (512 * i : Nat)).2 :=
      .exec (.seek [97] (512 * i : Nat)) hreach₁ plainName_a
    rcases fsutilSeek_spec hs₁ plainName_a (512 * i : Nat) with ⟨-, dat₂, hno⟩ |
      ⟨f, j, dat₂, hj, -, hpos, hf⟩
    · exact absurd hlisted (hno.absent k)
    · obtain rfl : j = k := hs₁.names.unique hj hlisted
      generalize (fsutilSeek t.2 [97] (512 * i : Nat)).2 = u at hreach₂ hf
      have hopen := hf.file.opened.isOpen
      have hm := hf.session.mounted
      have hlength₂ : inodeLength (dat₂ j) = 2048 := by
        have hsame := congrArg List.length (hf.content hs₁)
        have hnonneg := (hm.vol.file j hk).nonneg
        rw [length_fileContent, length_fileContent, hlength] at hsame
        omega
      have hin : i < numSectors (dat₂ j) := by
        rw [numSectors, hlength₂]
        exact hi
      have hleaf := hf.still.leafAt hs₁.mounted hm hk hin
      have hmem := leafSlot_mem hin (Nat.lt_of_lt_of_le hin (hm.vol.file j hk).sectors_le)
      have hne := (hm.vol.file j hk).mapped.ne _ hmem
      have hlt := (hm.vol.file j hk).mapped.lt _ hmem
      have hused := hm.vol.slot_used hk hne
      change u.used (leafAt u.content (dat₂ j) i) at hused
      change leafAt u.content (dat₂ j) i < _ at hlt
      rw [leafAt_direct (by omega), leafAt_direct (by omega)] at hleaf
      rw [leafAt_direct (by omega), hleaf] at hused hlt
      refine ⟨u, f, i, hreach₂, hf.file.get, hpos, hi, hopen.writable, ?_⟩
      rw [hopen.data, hleaf]
      exact ⟨hlength₂, hge, hm.vol.map.wf.lt_of_test hused, hused, hlt⟩
  · rw [hfalse] at hcreate
    cases hcreate

/-- A write at the start of sector `i` of an open file, and the seek back. -/
theorem write_then_seek {f : File} {i : Nat} {words : List CString} {v : List UInt8}
    (hreach : Reachable s) (hwords : words ≠ [])
    (hv : (writeBuffer words).set ((writeBuffer words).length - 1) 0 = v)
    (hfit : v.length ≤ 512) (hget : getFileByFname s [97] = some f)
    (hpos : f.pos = (512 * i : Nat)) (hi : i < 4) (hdeny : (s.inode f.inode).denyWriteCnt = 0)
    (hlength : inodeLength (s.inode f.inode).data = 2048)
    (hsector : directBlock (s.inode f.inode).data i < s.cache.size) :
    ∃ s' f', Reachable s' ∧ getFileByFname s' [97] = some f' ∧ f'.pos = (512 * i : Nat) ∧
      f'.inode = f.inode ∧ s'.inode f.inode = s.inode f.inode ∧ s'.freeMap = s.freeMap ∧
      s'.cache = writePiece s.cache (directBlock (s.inode f.inode).data i) 0 v.length v := by
  have hlen : v.length = (writeBuffer words).length := by rw [← hv, List.length_set]
  have htwo := length_writeBuffer words
  have hne : directBlock (s.inode f.inode).data i ≠ NO_SECTOR := by
    have := s.cache.size_le_noSector
    omega
  obtain ⟨pos, hwrite⟩ := @fsutilWrite_sector i 0 s f [97] (writeBuffer words) hget
    hpos hdeny hne (by omega) (by omega) (by omega) (by rw [hlength, ← hlen]; omega)
  have hwritten : Reachable (fsutilWrite s [97] (writeBuffer words)).2 := by
    have h := Reachable.exec (.write [97] words) hreach plainName_a
    rwa [exec_write hwords] at h
  rw [hv, ← hlen] at hwrite
  rw [hwrite] at hwritten
  obtain ⟨c, hc⟩ : ∃ c, writePiece s.cache (directBlock (s.inode f.inode).data i) (0 : Nat)
    v.length v = c := ⟨_, rfl⟩
  rw [hc] at hwritten
  obtain ⟨u, hu⟩ : ∃ u, setFile { s with cache := c } [97] { f with pos := pos } = u := ⟨_, rfl⟩
  have hget' : getFileByFname u [97] = some { f with pos := pos } := by
    rw [← hu, getFileByFname_setFile, if_pos rfl]
    change (getFileByFname s [97]).map _ = _
    rw [hget]
    rfl
  have hseek : (fsutilSeek u [97] (512 * i : Nat)).2 =
      setFile u [97] { f with pos := (512 * i : Nat) } := by
    unfold fsutilSeek openFile
    rw [hget']
    rfl
  rw [hu] at hwritten
  have hreach' : Reachable (fsutilSeek u [97] (512 * i : Nat)).2 :=
    .exec (.seek [97] (512 * i : Nat)) hwritten plainName_a
  rw [hseek] at hreach'
  refine ⟨_, { f with pos := (512 * i : Nat) }, hreach', ?_, rfl, rfl, ?_, ?_, ?_⟩
  · rw [getFileByFname_setFile, if_pos rfl, hget']
    rfl
  · rw [← hu]
    rfl
  · rw [← hu]
    rfl
  · rw [← hu]
    exact hc.symm

/-- The two writes `xy` and `x` at one place leave states that `recover (1)` does not tell
apart, and in one of them at least it is wrong about the sector. -/
theorem recover1_stale : ∃ s i, Reachable s ∧ 4 ≤ i ∧ i < s.freeMap.bitCnt ∧
    bitmapTest s.freeMap i ∧ ¬ ∀ text,
      (recovered1Name i, text) ∈ recover1 (fun _ => ⟨.zeros, []⟩) s ↔
        text = nonNul (s.content i).toList := by
  obtain ⟨s, f, i, hreach, hget, hpos, hi, hdeny, hlength, hge, hlt, hused, hsize⟩ :=
    fourSectors_file
  obtain ⟨k, hk⟩ : ∃ k, directBlock (s.inode f.inode).data i = k := ⟨_, rfl⟩
  obtain ⟨s₁, f₁, hreach₁, hget₁, hpos₁, hinode₁, hsame₁, hmap₁, hcache₁⟩ :=
    @write_then_seek s f i [[120, 121]] [120, 121, 0, 0] hreach (List.cons_ne_nil _ _) rfl
      (by decide) hget hpos hi hdeny hlength hsize
  rw [hk] at hge hlt hused hsize hcache₁
  obtain ⟨b₁, hcont₁, hbyte₁⟩ := @writePiece_byte s.cache k 0 4 [120, 121, 0, 0] hsize rfl
    (by decide)
  have hcached : s₁.cache.Cached k := by
    rw [hcache₁]
    exact writePiece_cached ..
  have hsize₁ : s₁.cache.size = s.cache.size := by
    obtain ⟨b, c, heq, hsame, -⟩ := writePiece_eq s.cache k 0 4 [120, 121, 0, 0]
    rw [hcache₁]
    exact (congrArg BufferCache.size heq).trans ((BufferCache.write_size ..).trans hsame)
  rw [← hinode₁] at hsame₁
  obtain ⟨s₂, f₂, hreach₂, -, -, -, -, hmap₂, hcache₂⟩ :=
    @write_then_seek s₁ f₁ i [[120]] [120, 0, 0] hreach₁ (List.cons_ne_nil _ _) rfl (by decide)
      hget₁ hpos₁ hi (by rw [hsame₁, hinode₁]; exact hdeny) (by rw [hsame₁, hinode₁]; exact hlength)
      (by rw [hsame₁, hinode₁, hk, hsize₁]; exact hsize)
  rw [hsame₁, hinode₁, hk] at hcache₂
  obtain ⟨b₂, hcont₂, hbyte₂⟩ := @writePiece_byte s₁.cache k 0 3 [120, 0, 0]
    (by rw [hsize₁]; exact hsize) rfl (by decide)
  have hcontent₁ : s₁.content k = b₁ := by
    change s₁.cache.content k = b₁
    rw [hcache₁]
    exact (congrFun hcont₁ k).trans (Function.update_self ..)
  have hcontent₂ : s₂.content k = b₂ := by
    change s₂.cache.content k = b₂
    rw [hcache₂]
    exact (congrFun hcont₂ k).trans (Function.update_self ..)
  have hdevice : s₂.cache.state.fsDevice = s₁.cache.state.fsDevice := by
    rw [hcache₂]
    exact writePiece_device hcached ..
  have hfirst : b₁.byte 0 = 120 ∧ b₁.byte 1 = 121 ∧ b₁.byte 2 = 0 :=
    ⟨hbyte₁ 0 (by decide), hbyte₁ 1 (by decide), hbyte₁ 2 (by decide)⟩
  have hbytes : ∀ j < BLOCK_SECTOR_SIZE, b₂.byte j = if j = 1 then 0 else b₁.byte j := by
    intro j hj
    change s₁.cache.content k = b₁ at hcontent₁
    rw [hbyte₂ j hj, hcontent₁]
    match j with
    | 0 => exact hfirst.1.symm
    | 1 => rfl
    | 2 => exact hfirst.2.2.symm
    | j + 3 => rw [if_neg (by omega), if_neg (by omega)]
  have hne := nonNul_toList_ne (i := 1) (by decide) hbytes (by rw [hfirst.2.1]; decide)
  by_contra hall
  have hexact : ∀ t : FileSys, Reachable t → t.freeMap = s.freeMap → ∀ text,
      (recovered1Name k, text) ∈ recover1 (fun _ => ⟨.zeros, []⟩) t ↔
        text = nonNul (t.content k).toList := by
    intro t ht hmap
    by_contra hwrong
    exact hall ⟨t, k, ht, hge, by rw [hmap]; exact hlt, by rw [hmap]; exact hused, hwrong⟩
  have htext₁ := hexact s₁ hreach₁ hmap₁
  have htext₂ := hexact s₂ hreach₂ (hmap₂.trans hmap₁)
  rw [recover1_congr hmap₂ hdevice, hcontent₂] at htext₂
  rw [hcontent₁] at htext₁
  exact hne ((htext₁ _).1 ((htext₂ _).2 rfl))

theorem recover1_exact_iff_written : ∃ s i, Reachable s ∧
    ((∀ text, (recovered1Name i, text) ∈ recover1 (fun _ => ⟨.zeros, []⟩) s ↔
        text = nonNul (s.content i).toList) ↔
      (nonNul (s.content i).toList = nonNul (deviceBytes s (fun _ => ⟨.zeros, []⟩) i) ∧
          TailClean (windowOf s (fun _ => ⟨.zeros, []⟩) i)
            (restOf s (fun _ => ⟨.zeros, []⟩) i) []) ∨
        (nonNul (s.content i).toList ≠ nonNul (deviceBytes s (fun _ => ⟨.zeros, []⟩) i) ∧
          nonNul (s.content i).toList = nonNul (windowOf s (fun _ => ⟨.zeros, []⟩) i) ++
            leftOver (windowOf s (fun _ => ⟨.zeros, []⟩) i)
              (restOf s (fun _ => ⟨.zeros, []⟩) i) [])) := by
  obtain ⟨s, f, i, hreach, -, -, -, -, -, hge, hlt, hused, -⟩ := fourSectors_file
  exact ⟨s, _, hreach, recover1_exact_iff s (fun _ => ⟨.zeros, []⟩) hge hlt hused⟩

end Stale

end SimpleShell.Fs
