import SimpleShell.Fs.ReadWrite

/-!
# The free map and its file

`FreeMapOk D s` is what `free_map_allocate` and `free_map_release` rely on and
keep: one bit for each sector but the last, the two system sectors taken, and,
once the free-map file is open, a file of the right size whose data sectors are
the set `D`, all of them taken, and whose bytes are the bitmap. An allocation
then takes the lowest free sector, and all it does to the disk is to write the
new bitmap to `D`: the nested calls of the recursion never come into play.
-/

namespace SimpleShell.Fs

open SimpleShell.Lib

/-- The open free-map file `i`, with data sectors `D`. -/
structure MapInode (D : Set Nat) (s : FileSys) (i : Inode) : Prop where
  writable : i.denyWriteCnt = 0
  length : inodeLength i.data = byteCnt s.freeMap.bitCnt
  file : FileOk s.content s.cache.size i.data
  used : ∀ a ∈ inodeSlots (numSectors i.data), s.used (slotVal s.content i.data a)
  data : ∀ k, k ∈ D ↔ ∃ j, j < numSectors i.data ∧ k = leafAt s.content i.data j

/-- And what it holds. -/
structure MapFile (D : Set Nat) (s : FileSys) (i : Inode) : Prop
    extends MapInode D s i where
  bytes : fileBytes s.content i.data 0 (byteCnt s.freeMap.bitCnt) =
    s.freeMap.toBytes

structure FreeMapOk (D : Set Nat) (s : FileSys) : Prop where
  wf : s.freeMap.Wf
  cnt : s.freeMap.bitCnt + 1 = s.cache.size
  mapSector : s.used FREE_MAP_SECTOR
  rootSector : s.used ROOT_DIR_SECTOR
  unopened : s.mem.freeMapFile = none → D = ∅
  opened : ∀ f, s.mem.freeMapFile = some f →
    ∃ i, s.mem.inodes.get? f.inode = some i ∧ MapFile D s i

section FreeMapOk

variable {D : Set Nat} {s s' : FileSys} {k : Nat}

theorem FreeMapOk.lt_bitCnt (h : FreeMapOk D s) (hk : s.used k) :
    k < s.freeMap.bitCnt :=
  h.wf.lt_of_test hk

theorem FreeMapOk.lt_size (h : FreeMapOk D s) (hk : s.used k) :
    k < s.cache.size := by
  have := h.lt_bitCnt hk
  have := h.cnt
  omega

theorem MapFile.index_not_mem {i : Inode} (h : MapFile D s i) {a : Slot}
    (ha : a ∈ inodeSlots (numSectors i.data)) (hidx : IsIndex a) :
    slotVal s.content i.data a ∉ D := by
  intro hmem
  obtain ⟨j, hj, heq⟩ := (h.data _).1 hmem
  exact h.file.mapped.index_ne_leaf ha hidx hj
    (Nat.lt_of_lt_of_le hj h.file.sectors_le) heq

theorem MapFile.used_of_mem {i : Inode} (h : MapFile D s i) (hk : k ∈ D) :
    s.used k := by
  obtain ⟨j, hj, rfl⟩ := (h.data k).1 hk
  exact h.used _ (leafSlot_mem hj (Nat.lt_of_lt_of_le hj h.file.sectors_le))

theorem FreeMapOk.used_of_mem (h : FreeMapOk D s) (hk : k ∈ D) : s.used k := by
  cases hf : s.mem.freeMapFile with
  | none => rw [h.unopened hf] at hk; exact absurd hk (Set.notMem_empty k)
  | some f =>
      obtain ⟨i, -, hi⟩ := h.opened f hf
      exact hi.used_of_mem hk

theorem FreeMapOk.ne_zero_of_mem (h : FreeMapOk D s) (hk : k ∈ D) : k ≠ 0 := by
  cases hf : s.mem.freeMapFile with
  | none => rw [h.unopened hf] at hk; exact absurd hk (Set.notMem_empty k)
  | some f =>
      obtain ⟨i, -, hi⟩ := h.opened f hf
      obtain ⟨j, hj, rfl⟩ := (hi.data k).1 hk
      exact hi.file.mapped.ne _
        (leafSlot_mem hj (Nat.lt_of_lt_of_le hj hi.file.sectors_le))

/-! ## Steps that leave the free map alone -/

/-- `k` is not one of the sectors of the open free-map file. -/
def OffMap (s : FileSys) (k : Nat) : Prop :=
  ∀ f i, s.mem.freeMapFile = some f → s.mem.inodes.get? f.inode = some i →
    ∀ a ∈ inodeSlots (numSectors i.data), slotVal s.content i.data a ≠ k

/-- The slots of the file stay where they are while its index blocks only gain
pointers. -/
theorem MapFile.slotVal_of_keeps {f : File} {i : Inode} (h : MapFile D s i)
    (hf : s.mem.freeMapFile = some f)
    (hget : s.mem.inodes.get? f.inode = some i) {f' : Nat → Sector}
    (hkeep : ∀ k, k ∉ D → OffMap s k ∨ Keeps (s.content k) (f' k)) {a : Slot}
    (ha : a ∈ inodeSlots (numSectors i.data)) :
    slotVal f' i.data a = slotVal s.content i.data a := by
  refine SimpleShell.Fs.slotVal_of_keeps (fun q j r hp hq _ => ?_)
    (h.file.mapped.ne a ha)
  have hmem : (a.1, q) ∈ inodeSlots (numSectors i.data) :=
    prefix_mem_inodeSlots (q := j :: r) (by rw [← hp]; exact ha)
  rcases hkeep _ (h.index_not_mem hmem hq) with hoff | hkeep
  · exact absurd rfl (hoff f i hf hget _ hmem)
  · exact hkeep

/-- The free map does not notice a step that leaves its file alone. -/
theorem FreeMapOk.frame (h : FreeMapOk D s) (hmap : s'.freeMap = s.freeMap)
    (hsize : s'.cache.size = s.cache.size)
    (hfile : s'.mem.freeMapFile = s.mem.freeMapFile)
    (hinode : ∀ f, s.mem.freeMapFile = some f →
      s'.mem.inodes.get? f.inode = s.mem.inodes.get? f.inode)
    (hkeep : ∀ k, k ∉ D → OffMap s k ∨ Keeps (s.content k) (s'.content k))
    (hdata : ∀ k, k ∈ D → s'.content k = s.content k) : FreeMapOk D s' where
  wf := by rw [hmap]; exact h.wf
  cnt := by rw [hmap, hsize]; exact h.cnt
  mapSector := by unfold FileSys.used; rw [hmap]; exact h.mapSector
  rootSector := by unfold FileSys.used; rw [hmap]; exact h.rootSector
  unopened hf := h.unopened (by rw [← hfile]; exact hf)
  opened f hf := by
    rw [hfile] at hf
    obtain ⟨i, hget, hi⟩ := h.opened f hf
    have hval : ∀ a ∈ inodeSlots (numSectors i.data),
        slotVal s'.content i.data a = slotVal s.content i.data a :=
      fun a ha => hi.slotVal_of_keeps hf hget hkeep ha
    have hleaf : ∀ j, j < numSectors i.data →
        leafAt s'.content i.data j = leafAt s.content i.data j := fun j hj =>
      hval _ (leafSlot_mem hj (Nat.lt_of_lt_of_le hj hi.file.sectors_le))
    refine ⟨i, by rw [hinode f hf]; exact hget,
      { writable := hi.writable
        length := by rw [hmap]; exact hi.length
        file := ⟨hi.file.nonneg, hi.file.max, ?_⟩
        used := fun a ha => ?_
        data := fun k => ?_
        bytes := ?_ }⟩
    · rw [hsize]; exact hi.file.mapped.congr hval
    · unfold FileSys.used
      rw [hval a ha, hmap]
      exact hi.used a ha
    · rw [hi.data k]
      refine exists_congr fun j => and_congr_right fun hj => ?_
      rw [hleaf j hj]
    · rw [hmap, ← hi.bytes]
      refine List.map_congr_left fun x hx => ?_
      have hlt : x / BLOCK_SECTOR_SIZE < numSectors i.data := by
        refine lt_sectors ?_
        rw [hi.length]
        exact_mod_cast List.mem_range.1 hx
      rw [Nat.zero_add, fileByte, fileByte, hleaf _ hlt,
        hdata _ ((hi.data _).2 ⟨_, hlt, rfl⟩)]

/-- A sector outside the free-map file may take anything, and one of its index
blocks any block that keeps the old pointers. -/
theorem FreeMapOk.writeSector (h : FreeMapOk D s) {b : Sector} (hD : k ∉ D)
    (hk : OffMap s k ∨ Keeps (s.content k) b) :
    FreeMapOk D (s.writeSector k b) := by
  have hcont : ∀ j, j ≠ k → (s.writeSector k b).content j = s.content j := by
    intro j hj
    rcases Nat.lt_or_ge k s.cache.size with hlt | hge
    · rw [FileSys.writeSector_content hlt, Function.update_of_ne hj]
    · exact congrFun (BufferCache.write_content_of_ge hge b) j
  refine h.frame rfl (by simp) rfl (fun _ _ => rfl) (fun j hj => ?_) fun j hj => ?_
  · rcases eq_or_ne j k with rfl | hjk
    · rcases hk with hk | hk
      · exact .inl hk
      · rcases Nat.lt_or_ge j s.cache.size with hlt | hge
        · rw [FileSys.writeSector_content hlt, Function.update_self]
          exact .inr hk
        · have heq : (s.writeSector j b).content j = s.content j :=
            congrFun (BufferCache.write_content_of_ge hge b) j
          rw [heq]
          exact .inr (.refl _)
    · rw [hcont j hjk]; exact .inr (.refl _)
  · exact hcont j fun hjk => hD (hjk ▸ hj)

theorem FreeMapOk.readSector (h : FreeMapOk D s) (k : Nat) :
    FreeMapOk D (s.readSector k).2 := by
  refine h.frame rfl (by simp) rfl (fun _ _ => rfl) (fun j _ => .inr ?_) fun j _ => ?_
  · rw [FileSys.readSector_content]; exact .refl _
  · rw [FileSys.readSector_content]

theorem FreeMapOk.allocFailures (h : FreeMapOk D s) (n : Nat) :
    FreeMapOk D { s with allocFailures := n } :=
  h.frame rfl rfl rfl (fun _ _ => rfl) (fun _ _ => .inr (.refl _)) fun _ _ => rfl

theorem FreeMapOk.offMap_zero (h : FreeMapOk D s) : OffMap s 0 := by
  intro f i hf hget a ha
  obtain ⟨j, hget', hj⟩ := h.opened f hf
  have hij : i = j := Option.some.inj (hget.symm.trans hget')
  subst hij
  exact hj.file.mapped.ne a ha

end FreeMapOk

/-! ## Writing the bitmap -/

/-- `bitmap_write` at the full size of the file writes the bitmap there and
nowhere else, without looking for more sectors. -/
theorem bitmapWrite_within {s : FileSys} {f : File} (alloc : Alloc)
    (hwritable : (s.inode f.inode).denyWriteCnt = 0)
    (hfile : FileOk s.content s.cache.size (s.inode f.inode).data)
    (hlength : inodeLength (s.inode f.inode).data = byteCnt s.freeMap.bitCnt)
    (hb : s.freeMap.Wf) (hpos : 0 < s.freeMap.bitCnt) :
    ∃ c : BufferCache, bitmapWrite alloc s f = (true, { s with cache := c }) ∧
      c.size = s.cache.size ∧ DataWrite s.content c.content (s.inode f.inode).data ∧
      fileBytes c.content (s.inode f.inode).data 0 (byteCnt s.freeMap.bitCnt) =
        s.freeMap.toBytes := by
  have hlen : s.freeMap.toBytes.length = byteCnt s.freeMap.bitCnt := hb.length_toBytes
  have hbpos : 0 < byteCnt s.freeMap.bitCnt := by
    simp only [byteCnt, elemCnt, ELEM_BITS]
    omega
  obtain ⟨c, heq, hsize, hframe, hbytes⟩ := inodeWriteAt_within (o := 0) (a := alloc)
    (b := s.freeMap.toBytes) hwritable hfile (by omega) (by rw [hlength, hlen]; omega)
  refine ⟨c, ?_, hsize, hframe, ?_⟩
  · unfold bitmapWrite
    rw [show (0 : Int) = ((0 : Nat) : Int) from rfl, heq, hlen]
    simp
  · refine List.ext_getElem (by rw [length_fileBytes, hlen]) fun x hx hx' => ?_
    have hxlt : x / BLOCK_SECTOR_SIZE < numSectors (s.inode f.inode).data := by
      refine lt_sectors ?_
      rw [hlength]
      exact_mod_cast (by simpa using hx : x < byteCnt s.freeMap.bitCnt)
    simp only [fileBytes, List.getElem_map, List.getElem_range, Nat.zero_add]
    rw [hbytes x hxlt, if_pos (by omega), Nat.sub_zero,
      List.getD_eq_getElem?_getD, List.getElem?_eq_getElem hx']
    rfl

/-- The same with another bitmap in place of the one there was. -/
theorem bitmapWrite_spec {D : Set Nat} {s : FileSys} {b : Bitmap} {f : File}
    {i : Inode} (alloc : Alloc) (hget : s.mem.inodes.get? f.inode = some i)
    (hi : MapInode D s i) (hb : b.Wf) (hcnt : b.bitCnt = s.freeMap.bitCnt)
    (hpos : 0 < b.bitCnt) :
    ∃ c : BufferCache, bitmapWrite alloc { s with freeMap := b } f =
        (true, { s with freeMap := b, cache := c }) ∧
      c.size = s.cache.size ∧ DataWrite s.content c.content i.data ∧
      fileBytes c.content i.data 0 (byteCnt b.bitCnt) = b.toBytes := by
  have hinode : ({ s with freeMap := b } : FileSys).inode f.inode = i := by
    simp [FileSys.inode, hget]
  have hwrite := bitmapWrite_within (s := { s with freeMap := b }) (f := f) alloc
    (by rw [hinode]; exact hi.writable) (by rw [hinode]; exact hi.file)
    (by rw [hinode, hi.length, ← hcnt]) hb hpos
  rw [hinode] at hwrite
  exact hwrite

section Written

variable {D : Set Nat} {s : FileSys} {b : Bitmap} {f : File} {i : Inode}

/-- A new bitmap, written to the file, in place of the old one. -/
theorem MapInode.written {c : BufferCache}
    (hi : MapInode D s i) (hf : s.mem.freeMapFile = some f)
    (hget : s.mem.inodes.get? f.inode = some i)
    (hsectors : s.freeMap.bitCnt + 1 = s.cache.size) (hb : b.Wf)
    (hcnt : b.bitCnt = s.freeMap.bitCnt) (hmapSector : bitmapTest b FREE_MAP_SECTOR)
    (hrootSector : bitmapTest b ROOT_DIR_SECTOR)
    (hused : ∀ a ∈ inodeSlots (numSectors i.data),
      bitmapTest b (slotVal s.content i.data a))
    (hsize : c.size = s.cache.size) (hframe : DataWrite s.content c.content i.data)
    (hbytes : fileBytes c.content i.data 0 (byteCnt b.bitCnt) = b.toBytes) :
    FreeMapOk D { s with freeMap := b, cache := c } where
  wf := hb
  cnt := by
    change b.bitCnt + 1 = c.size
    rw [hcnt, hsize]
    exact hsectors
  mapSector := hmapSector
  rootSector := hrootSector
  unopened hn := absurd (hf.symm.trans hn) (by simp)
  opened g hg := by
    have hfg : f = g := Option.some.inj (hf.symm.trans hg)
    subst hfg
    refine ⟨i, hget,
      { writable := hi.writable
        length := by rw [hi.length, ← hcnt]
        file := ?_
        used := fun a ha => ?_
        data := fun k => ?_
        bytes := hbytes }⟩
    · change FileOk c.content c.size i.data
      rw [hsize]
      exact hi.file.dataWrite hframe
    · change bitmapTest b (slotVal c.content i.data a) = true
      rw [hi.file.slotVal_dataWrite hframe ha]
      exact hused a ha
    · rw [hi.data k]
      refine exists_congr fun j => and_congr_right fun hj => ?_
      change _ ↔ k = leafAt c.content i.data j
      rw [hi.file.leafAt_dataWrite hframe hj]

end Written

/-! ## Allocating -/

/-- What a successful `free_map_allocate` did: `k` was free, and is taken. -/
structure Allocated (D : Set Nat) (s : FileSys) (k : Nat) (s' : FileSys) : Prop where
  lt : k < s.freeMap.bitCnt
  free : ¬ s.used k
  first : ∀ j, j < k → s.used j
  freeMap : s'.freeMap = bitmapMark s.freeMap k
  mem : s'.mem = s.mem
  allocFailures : s'.allocFailures = s.allocFailures
  size : s'.cache.size = s.cache.size
  content : ∀ j, j ∉ D → s'.content j = s.content j
  ok : FreeMapOk D s'
  off : OffMap s' k

theorem Allocated.used {D : Set Nat} {s s' : FileSys} {k : Nat}
    (h : Allocated D s k s') (hok : FreeMapOk D s) (j : Nat) :
    s'.used j ↔ j = k ∨ s.used j := by
  unfold FileSys.used
  rw [h.freeMap, bitmapTest_mark (hok.wf.word_lt h.lt)]
  simp

theorem Allocated.freeSectors {D : Set Nat} {s s' : FileSys} {k : Nat}
    (h : Allocated D s k s') (hok : FreeMapOk D s) :
    s'.freeSectors + 1 = s.freeSectors := by
  unfold FileSys.freeSectors
  rw [h.freeMap]
  exact numFree_mark hok.wf h.lt (Bool.eq_false_iff.2 h.free)

/-- With no sector left an allocation is refused, and refused without a trace. -/
theorem allocSector_full {s : FileSys} (h : s.freeSectors = 0) :
    allocSector s = (none, { s with allocFailures := s.allocFailures + 1 }) := by
  unfold allocSector freeMapAllocate bitmapScanAndFlip
  rw [bitmapScan_free_none.2 (numFree_eq_zero.1 h)]

theorem freeMapAllocate_free {D : Set Nat} {s : FileSys} (hok : FreeMapOk D s)
    (depth : Nat) (h : s.freeSectors ≠ 0) :
    ∃ k s', freeMapAllocate (depth + 1) 1 s = (some k, s') ∧ Allocated D s k s' := by
  cases hscan : bitmapScan s.freeMap 0 1 false with
  | none => exact absurd (numFree_eq_zero.2 (bitmapScan_free_none.1 hscan)) h
  | some k =>
      obtain ⟨hlt, hfree, hfirst⟩ := bitmapScan_free_some.1 hscan
      have hwf := hok.wf.mark hlt
      have htest : ∀ j, s.used j → bitmapTest (bitmapMark s.freeMap k) j := by
        intro j hj
        have hj : bitmapTest s.freeMap j = true := hj
        rw [bitmapTest_mark (hok.wf.word_lt hlt), hj, Bool.or_true]
      unfold freeMapAllocate bitmapScanAndFlip
      simp only [hscan, bitmapSetMultiple_one, bitmapSet, Bool.not_false, if_true]
      cases hf : s.mem.freeMapFile with
      | none =>
          have hD := hok.unopened hf
          refine ⟨k, _, rfl, hlt, Bool.eq_false_iff.1 hfree, hfirst, rfl, rfl, rfl,
            rfl, fun _ _ => rfl, ⟨hwf, hok.cnt, htest _ hok.mapSector,
            htest _ hok.rootSector, fun _ => hD, fun f hf' => ?_⟩,
            fun f i hf' => ?_⟩
          · exact absurd (hf.symm.trans hf') (by simp)
          · exact absurd (hf.symm.trans hf') (by simp)
      | some f =>
          obtain ⟨i, hget, hi⟩ := hok.opened f hf
          obtain ⟨c, heq, hsize, hframe, hbytes⟩ := bitmapWrite_spec
            (freeMapAllocate depth 1) hget hi.toMapInode hwf (bitmapMark_bitCnt ..)
            (by rw [bitmapMark_bitCnt]; omega)
          simp only [heq, if_true]
          refine ⟨k, _, rfl, hlt, Bool.eq_false_iff.1 hfree, hfirst, rfl, rfl, rfl,
            hsize, fun j hj => hframe j fun x hx hjx => hj ((hi.data j).2 ⟨x, hx, hjx⟩),
            hi.written hf hget hok.cnt hwf (bitmapMark_bitCnt ..)
              (htest _ hok.mapSector) (htest _ hok.rootSector)
              (fun a ha => htest _ (hi.used a ha)) hsize hframe hbytes,
            fun g i' hg hget' a ha heq => ?_⟩
          have hfg : f = g := Option.some.inj (hf.symm.trans hg)
          subst hfg
          have hii : i = i' := Option.some.inj (hget.symm.trans hget')
          subst hii
          change slotVal c.content i.data a = k at heq
          rw [hi.file.slotVal_dataWrite hframe ha] at heq
          have hused : bitmapTest s.freeMap (slotVal s.content i.data a) = true :=
            hi.used a ha
          rw [heq, hfree] at hused
          exact Bool.noConfusion hused

/-- With a sector left the lowest one is taken. -/
theorem allocSector_free {D : Set Nat} {s : FileSys} (hok : FreeMapOk D s)
    (h : s.freeSectors ≠ 0) :
    ∃ k s', allocSector s = (some k, s') ∧ Allocated D s k s' :=
  freeMapAllocate_free hok s.freeMap.bitCnt h

/-! ## Releasing -/

/-- What `free_map_release` does to a sector that is not the free map's own. -/
structure Released (D : Set Nat) (s : FileSys) (k : Nat) (s' : FileSys) : Prop where
  freeMap : s'.freeMap = bitmapReset s.freeMap k
  mem : s'.mem = s.mem
  allocFailures : s'.allocFailures = s.allocFailures
  size : s'.cache.size = s.cache.size
  content : ∀ j, j ∉ D → s'.content j = s.content j
  ok : FreeMapOk D s'

theorem Released.used {D : Set Nat} {s s' : FileSys} {k : Nat}
    (h : Released D s k s') (j : Nat) : s'.used j ↔ j ≠ k ∧ s.used j := by
  unfold FileSys.used
  rw [h.freeMap, bitmapTest_reset]
  simp

theorem freeMapRelease_spec {D : Set Nat} {s : FileSys} {k : Nat}
    (hok : FreeMapOk D s) (h₀ : k ≠ FREE_MAP_SECTOR) (h₁ : k ≠ ROOT_DIR_SECTOR)
    (hoff : OffMap s k) : Released D s k (freeMapRelease s k 1) := by
  have hwf := hok.wf.reset k
  have htest : ∀ j, j ≠ k → s.used j → bitmapTest (bitmapReset s.freeMap k) j := by
    intro j hjk hj
    have hj : bitmapTest s.freeMap j = true := hj
    rw [bitmapTest_reset, hj, Bool.and_true]
    exact bne_iff_ne.2 hjk
  unfold freeMapRelease
  simp only [bitmapSetMultiple_one, bitmapSet, Bool.false_eq_true, if_false]
  cases hf : s.mem.freeMapFile with
  | none =>
      have hD := hok.unopened hf
      refine ⟨rfl, rfl, rfl, rfl, fun _ _ => rfl, hwf, hok.cnt,
        htest _ h₀.symm hok.mapSector, htest _ h₁.symm hok.rootSector,
        fun _ => hD, fun f hf' => ?_⟩
      exact absurd (hf.symm.trans hf') (by simp)
  | some f =>
      obtain ⟨i, hget, hi⟩ := hok.opened f hf
      obtain ⟨c, heq, hsize, hframe, hbytes⟩ := bitmapWrite_spec allocSector hget
        hi.toMapInode hwf (bitmapReset_bitCnt ..) (by
          have := hok.lt_bitCnt hok.mapSector
          rw [bitmapReset_bitCnt]; omega)
      simp only [heq]
      refine ⟨rfl, rfl, rfl, hsize,
        fun j hj => hframe j fun x hx hjx => hj ((hi.data j).2 ⟨x, hx, hjx⟩),
        hi.written hf hget hok.cnt hwf (bitmapReset_bitCnt ..)
          (htest _ h₀.symm hok.mapSector) (htest _ h₁.symm hok.rootSector)
          (fun a ha => htest _ (hoff f i hf hget a ha) (hi.used a ha)) hsize
          hframe hbytes⟩

end SimpleShell.Fs
