import SimpleShell.Fs.PathSplit
import SimpleShell.Fs.ReserveWrites

/-!
# Creates that fail

`filesys_create` gives back the sector of the inode and nothing else: the data sectors of an
inode that was made, those that were found before the free sectors ran out, and those the
root directory was to grow by, stay taken. Files and names are not touched.
-/

namespace SimpleShell.Fs

open SimpleShell.Lib

/-- The free map, the names and the files are what they were, and so is every sector in use: that
of an inode, an index block or a file's data, and the file of the free map as far as the bitmap
reaches. -/
structure NothingMade (s s' : FileSys) : Prop where
  freeMap : s'.freeMap = s.freeMap
  entries : s'.entries = s.entries
  bytes : ∀ n k, (n, k) ∈ s.entries → s'.bytes k = s.bytes k
  sectors : ∀ v, s.used v → ¬s.MapData v → s'.content v = s.content v
  mapFile : fileBytes s'.content (s.inodeData FREE_MAP_SECTOR) 0 (byteCnt s.freeMap.bitCnt) =
    fileBytes s.content (s.inodeData FREE_MAP_SECTOR) 0 (byteCnt s.freeMap.bitCnt)

/-- The sectors that the root directory has to find for one more entry behind its last. -/
def rootSlots (s : FileSys) : List Slot :=
  missing (slotVal s.content (s.inodeData ROOT_DIR_SECTOR))
    (inodeSlots (bytesToSectors (nextEnd (s.bytes ROOT_DIR_SECTOR))))

/-- The name can be taken, and there is room for the file and its entry. -/
structure CanMake (s : FileSys) (name : CString) (size : Int) : Prop where
  valid : ValidName name
  absent : ∀ k, (name, k) ∉ s.entries
  nonneg : 0 ≤ int32 size
  max : int32 size ≤ MAX_LENGTH
  sectors : sectorsFor (int32 size) ≤ s.freeSectors
  slot : RootFits s (s.inodeData ROOT_DIR_SECTOR) (s.bytes ROOT_DIR_SECTOR)
    (sectorsFor (int32 size))

/-- When a failure has taken no sector for good. -/
def LosesNothing (s : FileSys) (name : CString) (size : Int) : Prop :=
  s.freeSectors ≤ 1 ∨ int32 size < 0 ∨
    (int32 size = 0 ∧ ((¬ValidName name ∨ ∃ k, (name, k) ∈ s.entries) ∨ rootSlots s = []))

/-- The last free sector is taken for the inode, the new entry goes behind the last, and the first
sector that the root directory then lacks is an index block: sector 0 is cleared. -/
def ClearsMapInode (s : FileSys) (name : CString) (size : Int) : Prop :=
  s.freeSectors = 1 ∧ int32 size = 0 ∧ ValidName name ∧ (∀ k, (name, k) ∉ s.entries) ∧
    FullDir (s.bytes ROOT_DIR_SECTOR) ∧ s.content 0 ≠ .zeros ∧
      ∃ a, IsIndex a ∧ (rootSlots s)[0]? = some a

section FailedCreate

variable {D K : Set Nat} {dat dat' : Nat → Sector} {s s' : FileSys} {c k : Nat}
  {name path : CString} {size : Int}

/-! ## Counting the free sectors -/

theorem Released.freeSectors (hr : Released D s k s') (hok : FreeMapOk D s) (hk : s.used k) :
    s'.freeSectors = s.freeSectors + 1 := by
  unfold FileSys.freeSectors
  rw [hr.freeMap]
  exact numFree_reset (hok.lt_bitCnt hk) hk

/-- If no bit was cleared and as many are clear as before, the bitmap is the same. -/
theorem freeMap_eq_of_freeSectors (hok : FreeMapOk D s) (hok' : FreeMapOk D s')
    (hsize : s'.cache.size = s.cache.size) (hmono : ∀ j, s.used j → s'.used j)
    (hfree : s'.freeSectors = s.freeSectors) : s'.freeMap = s.freeMap := by
  have hcnt : s'.freeMap.bitCnt = s.freeMap.bitCnt := by
    have hbits := hok.cnt
    have hbits' := hok'.cnt
    omega
  refine hok.wf.ext hok'.wf hcnt fun j => ?_
  unfold FileSys.freeSectors at hfree
  rw [numFree_eq, numFree_eq, hcnt] at hfree
  have hsub : ((Finset.range s.freeMap.bitCnt).filter fun i => bitmapTest s'.freeMap i = false) ⊆
      (Finset.range s.freeMap.bitCnt).filter fun i => bitmapTest s.freeMap i = false := by
    intro i hi
    rw [Finset.mem_filter] at hi ⊢
    refine ⟨hi.1, Bool.eq_false_iff.2 fun hset => ?_⟩
    have hset' : bitmapTest s'.freeMap i = true := hmono i hset
    rw [hi.2] at hset'
    cases hset'
  have hsame := Finset.eq_of_subset_of_card_le hsub (le_of_eq hfree.symm)
  cases hj : bitmapTest s.freeMap j with
  | true => exact hmono j hj
  | false =>
      rcases Nat.lt_or_ge j s.freeMap.bitCnt with hlt | hge
      · have hmem : j ∈ (Finset.range s.freeMap.bitCnt).filter
            fun i => bitmapTest s.freeMap i = false :=
          Finset.mem_filter.2 ⟨Finset.mem_range.2 hlt, hj⟩
        rw [← hsame] at hmem
        exact (Finset.mem_filter.1 hmem).2
      · exact hok'.wf.unused j (by omega)

theorem length_slots_eq_zero {n : Int} (h : 0 ≤ n) :
    (inodeSlots (bytesToSectors n)).length = 0 ↔ n = 0 := by
  constructor
  · intro hnone
    by_contra hne
    have hsectors : 0 < bytesToSectors n := by
      simp only [bytesToSectors, BLOCK_SECTOR_SIZE]
      omega
    have hmem := leafSlot_mem hsectors (by decide)
    rw [List.length_eq_zero_iff.1 hnone] at hmem
    exact absurd hmem List.not_mem_nil
  · rintro rfl
    decide

/-! ## The fault and its price -/

/-- The root directory as it is when the entry is to be added. -/
theorem Created.rootSlots {d₁ : Sector} {s₁ : FileSys} {i : Nat} (hm : Mounted D K dat s)
    (hroot : ROOT_DIR_SECTOR ∈ K) (hc : Created D K dat s k size false d₁ s₁)
    (hi : i + 1 = (rootBytes s.content dat).length / ENTRY_SIZE) :
    missing (slotVal s₁.content (Function.update dat k d₁ ROOT_DIR_SECTOR))
      (inodeSlots (bytesToSectors (((ENTRY_SIZE * (i + 1) : Nat) : Int) +
        ((newEntry name k).toList.length : Nat)))) = rootSlots s := by
  have hne : ROOT_DIR_SECTOR ≠ k := fun heq => hc.new (heq ▸ hroot)
  have hend : ((ENTRY_SIZE * (i + 1) : Nat) : Int) + ((newEntry name k).toList.length : Nat) =
      (nextEnd (rootBytes s.content dat) : Nat) := by
    rw [ByteBlock.length_toList, nextEnd, ← hi]
    simp only [ENTRY_SIZE]
    omega
  rw [hend, Function.update_of_ne hne,
    missing_congr fun a _ => hc.framed.slotVal hm.vol hroot a]
  unfold SimpleShell.Fs.rootSlots
  rw [hm.inodeData hroot, hm.bytes hroot]
  rfl

/-- A fault leaves as many free sectors as there were exactly when it has lost none. -/
theorem CreateFault.freeSectors_iff (hf : CreateFault D K dat s name size s')
    (hm : Mounted D K dat s) (hroot : ROOT_DIR_SECTOR ∈ K) :
    s'.freeSectors = s.freeSectors ↔ LosesNothing s name size := by
  unfold LosesNothing
  cases hf with
  | full hnone hs' =>
      rw [hs']
      exact iff_of_true rfl (.inl (by omega))
  | create k s₁ s₂ ha hno hn hr =>
      have hone := ha.freeSectors hm.vol.map
      have hback := hr.freeSectors hn.mounted.vol.map (hn.used k (ha.used_self hm))
      rcases Int.lt_or_le (int32 size) 0 with hneg | hnonneg
      · rw [hn.neg hneg] at hback
        exact iff_of_true (by omega) (.inr (.inl hneg))
      · -- Sectors were taken one by one, all that are missing or all there are.
        have hpos : int32 size ≠ 0 := by
          intro hzero
          refine hno ⟨hnonneg, by rw [hzero]; decide, ?_⟩
          rw [(length_slots_eq_zero hnonneg).2 hzero]
          exact Nat.zero_le _
        have hslots : (inodeSlots (bytesToSectors (int32 size))).length ≠ 0 :=
          fun hzero => hpos ((length_slots_eq_zero hnonneg).1 hzero)
        rcases Nat.lt_or_ge s₁.freeSectors (inodeSlots (bytesToSectors (int32 size))).length with
          hshort | henough
        · have hleft := hn.short hnonneg hshort
          constructor
          · exact fun heq => .inl (by omega)
          · rintro (hle | hneg | ⟨hzero, -⟩)
            · omega
            · omega
            · exact absurd hzero hpos
        · have hleft := hn.enough hnonneg henough
          constructor
          · exact fun heq => absurd heq (by omega)
          · rintro (hle | hneg | ⟨hzero, -⟩)
            · omega
            · omega
            · exact absurd hzero hpos
  | add k p d₁ d' s₁ s₂ s₃ ha hroom hc hp hw hn hr =>
      have hleft := hc.free
      have hback := hr.freeSectors hw.vol.map (hw.mono k (hc.mounted.vol.owned k (.inl rfl)))
      have hzero := length_slots_eq_zero hroom.1
      rcases hn.cause with ⟨hbad, -, hro⟩ | ⟨hvalid, habs, hfull, i, hi, hun⟩
      · have hsame : s₃.freeSectors = s₂.freeSectors := by
          unfold FileSys.freeSectors
          rw [hro.disk.freeMap]
        have hlisted : ¬ValidName name ∨ ∃ k, (name, k) ∈ s.entries := by
          rw [hm.entries hroot]
          exact hbad
        constructor
        · intro heq
          exact .inr (.inr ⟨hzero.1 (by omega), .inl hlisted⟩)
        · rintro (hle | hneg | ⟨heq, -⟩)
          · omega
          · exact absurd hroom.1 (by omega)
          · have := hzero.2 heq
            omega
      · have hgrow := hun.free
        rw [hc.rootSlots hm hroot hi] at hgrow
        have hfine : ¬(¬ValidName name ∨ ∃ k, (name, k) ∈ s.entries) := by
          rw [hm.entries hroot]
          rintro (hbad | ⟨j, hj⟩)
          · exact hbad hvalid
          · exact habs j hj
        constructor
        · intro heq
          by_cases hle : s.freeSectors ≤ 1
          · exact .inl hle
          · exact .inr (.inr ⟨hzero.1 (by omega), .inr (List.eq_nil_of_length_eq_zero (by omega))⟩)
        · rintro (hle | hneg | ⟨heq, hbad | hmiss⟩)
          · omega
          · exact absurd hroom.1 (by omega)
          · exact absurd hbad hfine
          · have := hzero.2 heq
            rw [hmiss, List.length_nil] at hgrow
            omega

theorem CreateFault.sameSize (hf : CreateFault D K dat s name size s') :
    s'.cache.size = s.cache.size := by
  cases hf with
  | full _ hs' => rw [hs']
  | create k s₁ s₂ _ _ hn hr => exact hr.size.trans hn.size
  | add k p d₁ d' s₁ s₂ s₃ _ _ hc _ hw _ hr => exact (hr.size.trans hw.size).trans hc.size

theorem CreateFault.ok (hf : CreateFault D K dat s name size s') (hm : Mounted D K dat s) :
    FreeMapOk D s' := by
  cases hf with
  | full _ hs' =>
      rw [hs']
      exact hm.vol.map.frame rfl rfl rfl (fun _ _ => rfl) (fun _ _ => .inr (.refl _)) fun _ _ => rfl
  | create k s₁ s₂ _ _ _ hr => exact hr.ok
  | add k p d₁ d' s₁ s₂ s₃ _ _ _ _ _ _ hr => exact hr.ok

/-- The file of the free map holds the bitmap after a fault too. -/
theorem CreateFault.mapFile (hf : CreateFault D K dat s name size s') (hm : Mounted D K dat s) :
    fileBytes s'.content (dat FREE_MAP_SECTOR) 0 (byteCnt s'.freeMap.bitCnt) =
      s'.freeMap.toBytes := by
  obtain ⟨f, i, hfile, hget, hzero, hdat⟩ := hm.vol.mapFile
  have hmap : s'.mem.freeMapFile = some f ∧ s'.mem.inodes.get? f.inode = some i := by
    cases hf with
    | full _ hs' =>
        rw [hs']
        exact ⟨hfile, hget⟩
    | create k s₁ s₂ _ _ hn hr =>
        rw [hr.mem, hn.mem]
        exact ⟨hfile, hget⟩
    | add k p d₁ d' s₁ s₂ s₃ _ _ hc hp hw _ hr =>
        rw [hr.mem, hw.mem]
        have hfile₂ : s₂.mem.freeMapFile = some f := by rw [hc.mem]; exact hfile
        refine ⟨hfile₂, ?_⟩
        rw [FileSys.get?_setData hp.isOpen.live, if_neg (hc.mounted.vol.ne_mapFile hp.isOpen.live
          hp.isOpen.sector (by decide) f hfile₂), hc.mem]
        exact hget
  obtain ⟨i', hget', hbytes⟩ := (hf.ok hm).opened f hmap.1
  have hi : i' = i := Option.some.inj (hget'.symm.trans hmap.2)
  rw [← hdat, ← hi]
  exact hbytes.bytes

/-! ## What a fault that loses nothing writes -/

/-- The root directory lacks a sector and there is none, or it lacks none. -/
theorem CreateFault.sectors (hf : CreateFault D K dat s name size s') (hm : Mounted D K dat s)
    (hroot : ROOT_DIR_SECTOR ∈ K) (hlose : LosesNothing s name size) {v : Nat} (hv : s.used v)
    (hD : v ∉ D) (hv₀ : v ≠ 0) : s'.content v = s.content v := by
  have hfree := (hf.freeSectors_iff hm hroot).2 hlose
  cases hf with
  | full _ hs' =>
      rw [hs']
      rfl
  | create k s₁ s₂ ha hno hn hr => rw [hr.content v hD, hn.framed v hv hD hv₀]
  | add k p d₁ d' s₁ s₂ s₃ ha hroom hc hp hw hn hr =>
      rw [hr.content v hD, ← hc.framed v hv hD hv₀]
      rcases hn.cause with ⟨-, -, hro⟩ | ⟨-, -, -, i, hi, hun⟩
      · rw [hro.disk.content]
      · have hleft := hc.free
        have hback := hr.freeSectors hw.vol.map (hw.mono k (hc.mounted.vol.owned k (.inl rfl)))
        have hgrow := hun.free
        exact (hun.sparing.untaken (by omega)).2.content v hv₀

theorem CreateFault.zero_iff (hf : CreateFault D K dat s name size s') (hm : Mounted D K dat s)
    (hroot : ROOT_DIR_SECTOR ∈ K) (hlose : LosesNothing s name size) :
    s'.content 0 = s.content 0 ↔ ¬ClearsMapInode s name size := by
  have hzero : (0 : Nat) ∉ D := hm.vol.offData 0 hm.vol.zero
  have hentries := hm.entries hroot
  have hbytes := hm.bytes hroot
  cases hf with
  | full hnone hs' =>
      rw [hs']
      refine iff_of_true rfl fun hclear => ?_
      have := hclear.1
      omega
  | create k s₁ s₂ ha hno hn hr =>
      have hone := ha.freeSectors hm.vol.map
      have hsize : int32 size ≠ 0 := by
        intro h₀
        refine hno ⟨Int.le_of_eq h₀.symm, by rw [h₀]; decide, ?_⟩
        rw [(length_slots_eq_zero (Int.le_of_eq h₀.symm)).2 h₀]
        exact Nat.zero_le _
      refine iff_of_true ?_ fun hclear => hsize hclear.2.1
      rw [hr.content 0 hzero]
      refine hn.zero ?_
      rcases hlose with hle | hneg | ⟨h₀, -⟩
      · exact .inr (by omega)
      · exact .inl hneg
      · exact absurd h₀ hsize
  | add k p d₁ d' s₁ s₂ s₃ ha hroom hc hp hw hn hr =>
      rw [hr.content 0 hzero, ← hc.zero]
      have hleft := hc.free
      have hslots := length_slots_eq_zero hroom.1
      rcases hn.cause with ⟨hbad, -, hro⟩ | ⟨hvalid, habs, hfull, i, hi, hun⟩
      · refine iff_of_true (by rw [hro.disk.content]) fun hclear => ?_
        rcases hbad with hbad | ⟨j, hj⟩
        · exact hbad hclear.2.2.1
        · exact hclear.2.2.2.1 j (hentries ▸ hj)
      · rw [hun.sparing.zero, not_iff_not]
        unfold ClearsZero ClearsMapInode
        rw [hc.rootSlots hm hroot hi, hc.zero, hentries, hbytes]
        constructor
        · rintro ⟨hne, -, a, hidx, hget⟩
          have hsome := (List.getElem?_eq_some_iff.1 hget).1
          -- Only the last sector can be gone, or none would be missing.
          have hlast : s.freeSectors = 1 := by
            rcases hlose with hle | hneg | ⟨-, (hbad | hex) | hnone⟩
            · omega
            · exact absurd hroom.1 (by omega)
            · exact absurd hvalid hbad
            · obtain ⟨j, hj⟩ := hex
              exact absurd (hentries ▸ hj) (habs j)
            · rw [hnone, List.length_nil] at hsome
              omega
          refine ⟨hlast, hslots.1 (by omega), hvalid, habs, hfull, hne, a, hidx, ?_⟩
          rwa [show s₂.freeSectors = 0 by omega] at hget
        · rintro ⟨hlast, -, -, -, -, hne, a, hidx, hget⟩
          refine ⟨hne, by omega, a, hidx, ?_⟩
          rwa [show s₂.freeSectors = 0 by omega]

/-! ## The call -/

theorem noNul_token (path : CString) (h : (0 : UInt8) ∉ path) :
    ∀ t ∈ tokens path, (0 : UInt8) ∉ t := by
  induction path using path_induct with
  | last a ha =>
      intro t ht
      rw [((mem_tokens_last ha).1 ht).1]
      exact h
  | step a b ha ih =>
      intro t ht
      rcases (mem_tokens_append ha).1 ht with ⟨rfl, -⟩ | ht
      · exact fun hmem => h (List.mem_append_left _ hmem)
      · exact ih (fun hmem => h (List.mem_append_right _ (List.mem_cons_of_mem _ hmem))) t ht

theorem noNul_filename (h : (0 : UInt8) ∉ path) : (0 : UInt8) ∉ (splitPathFilename path).2 := by
  by_cases hnil : (splitPathFilename path).2 = []
  · rw [hnil]
    exact List.not_mem_nil
  · exact noNul_token path h _ (filename_mem hnil)

/-- A create that fails has no effect exactly when it has taken no sector for good and not
cleared sector 0. -/
theorem filesysCreate_failed (hs : Session D K dat s c) (hpath : (0 : UInt8) ∉ path) (size : Int)
    (hfalse : (filesysCreate s path size false).1 = false) :
    (NothingMade s (filesysCreate s path size false).2 ↔
        LosesNothing s (splitPathFilename path).2 size ∧
          ¬ClearsMapInode s (splitPathFilename path).2 size) ∧
      ¬CanMake s (splitPathFilename path).2 size := by
  have hm := hs.mounted
  have hroot := hs.root_mem
  obtain ⟨dat', hheld, hrest, -, hcase⟩ := filesysCreate_spec (z := size) hs rfl
    (noNul_filename hpath)
  generalize filesysCreate s path size false = r at hfalse hheld hrest hcase ⊢
  rcases hcase with ⟨htrue, -⟩ | ⟨-, href, s₁, s₂, hd₁, hm₁, hfault, hd₂⟩
  · rw [htrue] at hfalse
    cases hfalse
  have hs' := href.session hs hheld hrest
  have hcont : s₁.content = s.content := hd₁.content
  have hfree₁ : s₁.freeSectors = s.freeSectors := by
    unfold FileSys.freeSectors
    rw [hd₁.freeMap]
  have hfree₂ : r.2.freeSectors = s₂.freeSectors := by
    unfold FileSys.freeSectors
    rw [hd₂.freeMap]
  have hdata : s₁.inodeData ROOT_DIR_SECTOR = s.inodeData ROOT_DIR_SECTOR := by
    rw [hm₁.inodeData hroot, hm.inodeData hroot]
  have hbytes : s₁.bytes ROOT_DIR_SECTOR = s.bytes ROOT_DIR_SECTOR := by
    rw [hm₁.bytes hroot, hm.bytes hroot, hcont]
  have hentries : s₁.entries = s.entries := by
    rw [hm₁.entries hroot, hm.entries hroot, hcont]
  constructor
  · -- The bits are what they were if and only if as many are clear.
    have hloses : LosesNothing s₁ (splitPathFilename path).2 size ↔
        LosesNothing s (splitPathFilename path).2 size := by
      unfold LosesNothing rootSlots
      rw [hfree₁, hentries, hcont, hdata, hbytes]
    have hclears : ClearsMapInode s₁ (splitPathFilename path).2 size ↔
        ClearsMapInode s (splitPathFilename path).2 size := by
      unfold ClearsMapInode rootSlots
      rw [hfree₁, hentries, hcont, hdata, hbytes]
    have hcount := hfault.freeSectors_iff hm₁ hroot
    have hzero := hfault.zero_iff hm₁ hroot
    rw [hloses, hcont, hclears, ← hd₂.content] at hzero
    rw [hfree₁, ← hfree₂, hloses] at hcount
    have hsize : r.2.cache.size = s.cache.size :=
      (hd₂.size.trans hfault.sameSize).trans hd₁.size
    constructor
    · intro hnothing
      have hlose : LosesNothing s (splitPathFilename path).2 size := by
        refine hcount.1 ?_
        unfold FileSys.freeSectors
        rw [hnothing.freeMap]
      refine ⟨hlose, (hzero hlose).1 (hnothing.sectors 0 hm.vol.map.mapSector ?_)⟩
      rintro ⟨j, hj, heq⟩
      rw [hm.inodeData hm.vol.zero] at hj heq
      exact hm.vol.offData 0 hm.vol.zero (hm.vol.mem_data.2 ⟨j, hj, heq⟩)
    · rintro ⟨hlose, hclear⟩
      have hmap : r.2.freeMap = s.freeMap := freeMap_eq_of_freeSectors hm.vol.map
        hs'.mounted.vol.map hsize href.used (hcount.2 hlose)
      refine ⟨hmap, ?_, fun n j hn => ?_, fun v hv hno => ?_, ?_⟩
      · show r.2.entries = s.entries
        rw [hs'.entries, hs.entries, href.root]
      · show r.2.bytes j = s.bytes j
        obtain ⟨hj, hj₀, hj₁⟩ := hs.listed hn
        rw [hs'.bytes hj, hs.bytes hj, (href.same j hj hj₀ hj₁).content]
      · show r.2.content v = s.content v
        rcases eq_or_ne v 0 with rfl | hv₀
        · exact (hzero hlose).2 hclear
        · have hused : s₁.used v := by
            unfold FileSys.used
            rw [hd₁.freeMap]
            exact hv
          rw [hd₂.content, hfault.sectors hm₁ hroot (hloses.2 hlose) hused (fun hD => hno ?_) hv₀,
            hcont]
          obtain ⟨j, hj, heq⟩ := hm.vol.mem_data.1 hD
          refine ⟨j, ?_⟩
          rw [hm.inodeData hm.vol.zero]
          exact ⟨hj, heq⟩
      · show fileBytes r.2.content _ _ _ = _
        obtain ⟨f, i, hfile, hget, -, hdat⟩ := hm.vol.mapFile
        obtain ⟨i', hget', hold⟩ := hm.vol.map.opened f hfile
        have hi : i' = i := Option.some.inj (hget'.symm.trans hget)
        have hnew := hfault.mapFile hm₁
        rw [← hd₂.freeMap, ← hd₂.content, hmap] at hnew
        rw [hm.inodeData hm.vol.zero, hnew, ← hdat, ← hi]
        exact hold.bytes.symm
  · intro hcan
    have habs := hcan.absent
    have hslot := hcan.slot
    rw [← hentries, hm₁.entries hroot] at habs
    rw [← hdata, ← hbytes, hm₁.inodeData hroot, hm₁.bytes hroot] at hslot
    refine hfault.false_of_room hm₁ hroot hcan.valid habs hcan.nonneg hcan.max
      (by rw [hfree₁]; exact hcan.sectors) fun hfull => ?_
    rw [hcont, hfree₁]
    rw [hcont] at hslot
    exact hslot (by rw [← hcont]; exact hfull)

/-- One that succeeds could. -/
theorem filesysCreate_canMake (hs : Session D K dat s c) (hpath : (0 : UInt8) ∉ path) (size : Int)
    (htrue : (filesysCreate s path size false).1 = true) :
    CanMake s (splitPathFilename path).2 size := by
  have hm := hs.mounted
  have hroot := hs.root_mem
  obtain ⟨dat', -, -, -, hcase⟩ := filesysCreate_spec (z := size) hs rfl (noNul_filename hpath)
  rcases hcase with ⟨-, k, hmade⟩ | ⟨hfalse, -⟩
  · refine ⟨hmade.valid, ?_, hmade.room.1, hmade.room.2, hmade.sectors, ?_⟩
    · rw [hs.entries]
      exact hmade.absent
    · rw [hm.inodeData hroot, hs.bytes hroot]
      exact hmade.slot
  · rw [hfalse] at htrue
    cases htrue

/-- Whatever the path and the size, a create that fails has no effect if and only if there was
no sector to lose, or the size was negative, or it was 0 and the name was refused or the root
directory had no sector to look for; and the root directory did not come for an index block when
the inode had taken the last sector. -/
theorem filesysCreate_noEffect_iff (h : Reachable s) (hpath : (0 : UInt8) ∉ path) (size : Int) :
    ((filesysCreate s path size false).1 = false →
        NothingMade s (filesysCreate s path size false).2) ↔
      (LosesNothing s (splitPathFilename path).2 size ∧
          ¬ClearsMapInode s (splitPathFilename path).2 size) ∨
        CanMake s (splitPathFilename path).2 size := by
  obtain ⟨D, K, dat, hs⟩ := h.session
  cases hret : (filesysCreate s path size false).1 with
  | true =>
      exact iff_of_true (fun hfalse => Bool.noConfusion hfalse)
        (.inr (filesysCreate_canMake hs hpath size hret))
  | false =>
      obtain ⟨hiff, hno⟩ := filesysCreate_failed hs hpath size hret
      constructor
      · exact fun hnothing => .inl (hiff.1 (hnothing rfl))
      · rintro (hlose | hcan) _
        · exact hiff.2 hlose
        · exact absurd hcan hno

end FailedCreate

/-! ## A size beyond the maximum -/

/-- A length no file can have is refused. -/
theorem filesysCreate_range (h : Reachable s) (hpath : (0 : UInt8) ∉ path) {size : Int}
    (hsize : int32 size < 0 ∨ MAX_LENGTH < int32 size) :
    (filesysCreate s path size false).1 = false := by
  obtain ⟨D, K, dat, hs⟩ := h.session
  cases hret : (filesysCreate s path size false).1 with
  | true =>
      have hcan := filesysCreate_canMake hs hpath size hret
      have := hcan.nonneg
      have := hcan.max
      omega
  | false => rfl

/-- On a formatted disk with 125 free sectors, a create that asks for a byte more than a file
can have fails, and takes sectors. -/
theorem filesysCreate_leaks : ∃ s, Reachable s ∧ (0 : UInt8) ∉ [97] ∧
    (filesysCreate s [97] (MAX_LENGTH + 1) false).1 = false ∧
    ¬NothingMade s (filesysCreate s [97] (MAX_LENGTH + 1) false).2 := by
  obtain ⟨s, -, hreach, hfree, -⟩ := blankDisk_create 1 (by decide) (by decide)
  obtain ⟨D, K, dat, hs⟩ := hreach.session
  have hpath : (0 : UInt8) ∉ [97] := by decide
  have hint : int32 (MAX_LENGTH + 1) = MAX_LENGTH + 1 := by decide
  have hret : (filesysCreate s [97] (MAX_LENGTH + 1) false).1 = false :=
    filesysCreate_range hreach hpath (.inr (by rw [hint]; decide))
  refine ⟨s, hreach, hpath, hret, fun hnothing => ?_⟩
  rcases ((filesysCreate_failed hs hpath _ hret).1.1 hnothing).1 with hle | hneg | ⟨hzero, -⟩
  · omega
  · rw [hint] at hneg
    exact absurd hneg (by decide)
  · rw [hint] at hzero
    exact absurd hzero (by decide)

/-- A negative size is refused before any sector is looked for. -/
theorem filesysCreate_negative : ∃ s, Reachable s ∧ (0 : UInt8) ∉ [97] ∧
    (filesysCreate s [97] (-1) false).1 = false ∧
    NothingMade s (filesysCreate s [97] (-1) false).2 := by
  obtain ⟨s, -, hreach, -⟩ := blankDisk_create 1 (by decide) (by decide)
  have hpath : (0 : UInt8) ∉ [97] := by decide
  have hret := @filesysCreate_range s [97] hreach hpath (-1) (.inl (by decide))
  exact ⟨s, hreach, hpath, hret,
    (filesysCreate_noEffect_iff hreach hpath (-1)).2 (.inl ⟨.inr (.inl (by decide)),
      fun hclear => absurd hclear.2.1 (by decide)⟩) hret⟩

end SimpleShell.Fs
