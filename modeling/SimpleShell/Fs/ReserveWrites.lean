import SimpleShell.Fs.Ownership

/-!
# What a reservation writes

`inode_reserve` asks for sectors, clears them and writes the index blocks that lead to them.
It does not look whether it was given a sector for an index block: when the free sectors run
out there, the number of the block stays 0, and sector 0, the inode of the free map, is cleared.
-/

namespace SimpleShell.Fs

open SimpleShell.Lib

/-- The calls of `inode_reserve`, on the inode `d` of sector `k`: that of a file, or that of a
file that is being made, for which a sector was just found. `sectors` are those of all inodes
there are. -/
inductive ReserveCall : FileSys → List Nat → Nat → Sector → Prop where
  | grow {s : FileSys} {k : Nat} (h : Reachable s) (hk : k ∈ s.inodeSectors) :
      ReserveCall s s.inodeSectors k (s.inodeData k)
  | make {s₀ s : FileSys} {k : Nat} (h : Reachable s₀) (ha : allocSector s₀ = (some k, s))
      (len : Int) (isDir : Bool) : ReserveCall s s₀.inodeSectors k (newInodeDisk len isDir)

/-- The data sectors of the free map's file. -/
def FileSys.MapData (s : FileSys) (v : Nat) : Prop :=
  ∃ j, j < numSectors (s.inodeData FREE_MAP_SECTOR) ∧
    v = leafAt s.content (s.inodeData FREE_MAP_SECTOR) j

/-- Only free sectors, index blocks of `d` and the free map's data change, and the free map's
file holds the new bitmap; the inodes on the disk and what the other files own do not. -/
structure OwnWrites (s : FileSys) (sectors : List Nat) (k : Nat) (d : Sector)
    (s' : FileSys) : Prop where
  changed : ∀ v, s'.content v ≠ s.content v →
    ¬s.used v ∨ (v ≠ 0 ∧ ∃ a, IsIndex a ∧ slotVal s.content d a = v) ∨ s.MapData v
  bitmap : fileBytes s'.content (s.inodeData FREE_MAP_SECTOR) 0 (byteCnt s'.freeMap.bitCnt) =
    s'.freeMap.toBytes
  inodes : ∀ j ∈ sectors, s'.content j = s.content j
  others : ∀ j ∈ sectors, j ≠ k → ∀ a, slotVal s.content (s.inodeData j) a ≠ 0 →
    IsIndex a ∨ j ≠ FREE_MAP_SECTOR →
      s'.content (slotVal s.content (s.inodeData j) a) =
        s.content (slotVal s.content (s.inodeData j) a)

section ReserveWrites

variable {D K : Set Nat} {dat : Nat → Sector} {s s' : FileSys} {sectors : List Nat} {k : Nat}
  {d : Sector}

/-- Nothing that hangs on `d` is an inode or hangs on another. -/
structure OwnTree (D K : Set Nat) (dat : Nat → Sector) (s : FileSys) (k : Nat)
    (d : Sector) : Prop where
  roots : Roots D s IsIndex (slotVal s.content d)
  inode : ∀ j ∈ K, j ≠ 0 → ∀ a, slotVal s.content d a ≠ j
  other : ∀ j ∈ K, j ≠ k → ∀ a b, slotVal s.content d a ≠ 0 →
    slotVal s.content d a ≠ slotVal s.content (dat j) b

theorem ReserveCall.ownTree (h : ReserveCall s sectors k d) :
    ∃ D K dat, Mounted D K dat s ∧ (∀ j, j ∈ sectors ↔ j ∈ K) ∧ OwnTree D K dat s k d := by
  cases h with
  | grow h hk =>
      obtain ⟨D, K, dat, hs⟩ := h.session
      have hvol := hs.mounted.vol
      rw [hs.mem_inodeSectors] at hk
      refine ⟨D, K, dat, hs.mounted, fun j => hs.mem_inodeSectors, ?_⟩
      rw [hs.mounted.inodeData hk]
      exact ⟨hvol.inodeRoots hk, fun j hj hj₀ a => hvol.slot_apart hj hj₀ hk,
        fun j hj hjk a b hne heq => hjk (hvol.slot_inj hk hj hne heq).1.symm⟩
  | make h ha len isDir =>
      obtain ⟨D, K, dat, hs⟩ := h.session
      have hfree : (FileSys.freeSectors _) ≠ 0 := fun h₀ => by
        rw [allocSector_full h₀] at ha
        cases ha
      obtain ⟨k', s', heq, hk⟩ := allocSector_free hs.mounted.vol.map hfree
      rw [ha] at heq
      obtain ⟨rfl, rfl⟩ : k = k' ∧ s = s' := by
        injection heq with h₁ h₂
        injection h₁ with h₁
        exact ⟨h₁, h₂⟩
      have hnull := newInodeDisk_null s.content len isDir
      refine ⟨D, K, dat, hk.mounted hs.mounted, fun j => hs.mem_inodeSectors, ?_, ?_, ?_⟩
      · rw [show slotVal s.content (newInodeDisk len isDir) = fun _ => 0 from funext hnull]
        exact roots_null _
      · intro j _ hj₀ a
        rw [hnull]
        exact hj₀.symm
      · intro j _ _ a b hne
        exact absurd (hnull a) hne

theorem Grow.ownWrites (hm : Mounted D K dat s) (hd : OwnTree D K dat s k d)
    (hsec : ∀ j, j ∈ sectors ↔ j ∈ K) {V' : Slot → Nat}
    (hg : Grow D s s' IsIndex (slotVal s.content d) V') (hzero : s'.content 0 = s.content 0) :
    OwnWrites s sectors k d s' := by
  have hvol := hm.vol
  have hmap : s.inodeData FREE_MAP_SECTOR = dat FREE_MAP_SECTOR := hm.inodeData hvol.zero
  refine ⟨fun v hv => ?_, ?_, fun j hj => ?_, fun j hj hjk a hne hside => ?_⟩
  · by_contra hno
    rw [not_or, not_or, not_not] at hno
    obtain ⟨hused, hidx, hdata⟩ := hno
    rcases eq_or_ne v 0 with rfl | hv₀
    · exact hv hzero
    · refine hv (hg.frame v hused (fun hD => hdata ?_) hv₀ fun a ha heq => hidx ⟨hv₀, a, ha, heq⟩)
      unfold FileSys.MapData
      rw [hmap]
      exact hvol.mem_data.1 hD
  · obtain ⟨f, i, hf, hget, -, hdat⟩ := hvol.mapFile
    obtain ⟨i', hget', hfile⟩ := hg.ok.opened f (by rw [hg.mem]; exact hf)
    rw [hg.mem, hget] at hget'
    have hi : i = i' := Option.some.inj hget'
    rw [hmap, ← hdat, hi]
    exact hfile.bytes
  · rcases eq_or_ne j 0 with rfl | hj₀
    · exact hzero
    · have hjK := (hsec j).1 hj
      exact hg.frame j (hvol.owned j hjK) (hvol.offData j hjK) hj₀ fun a _ =>
        hd.inode j hjK hj₀ a
  · have hjK := (hsec j).1 hj
    rw [hm.inodeData hjK] at hne ⊢
    exact hg.frame _ (hvol.slot_used hjK hne) (hvol.slot_not_mem hjK hside hne) hne
      fun b _ heq => hd.other j hjK hjk b a (heq ▸ hne) heq

/-- A reservation keeps to its own sectors, whether it succeeds or not, unless the free sectors
run out at an index block. -/
theorem inodeReserve_ownWrites_iff (h : ReserveCall s sectors k d) (length : Int) :
    OwnWrites s sectors k d (inodeReserve allocSector s d length).2 ↔
      ¬ClearsZero s d length := by
  obtain ⟨D, K, dat, hm, hsec, hd⟩ := h.ownTree
  obtain ⟨hgrow, hzero⟩ := inodeReserve_grow hm.vol.map hd.roots length
  rw [← hzero]
  constructor
  · exact fun hown => hown.inodes 0 ((hsec 0).2 hm.vol.zero)
  · exact hgrow.ownWrites hm hd hsec

end ReserveWrites

/-! ## Files on a small disk -/

/-- The state in which a new file's data is reserved, on a disk that was just formatted. -/
theorem filesysInit_make {c : CacheState} (hmin : 77 ≤ c.fsDevice.size)
    (hmax : c.fsDevice.size ≤ 4097) :
    ∃ s sectors k, (∀ len, ReserveCall s sectors k (newInodeDisk len false)) ∧
      s.freeSectors + 76 = c.fsDevice.size ∧ s.content 0 ≠ .zeros := by
  obtain ⟨s, hinit, ⟨D, dat, hf⟩, hfree⟩ :=
    @filesysInit_small c (fun _ => 0) (by omega) hmax
  have hm := hf.session.mounted
  obtain ⟨k, s₁, heq, ha⟩ := allocSector_free hm.vol.map (by omega)
  have hleft := ha.freeSectors hm.vol.map
  refine ⟨s₁, _, k, fun len => .make (.format hinit) heq len false, by omega, fun hzero => ?_⟩
  -- The free map's inode has a length.
  have hsync := hf.exact.sync FREE_MAP_SECTOR (Set.mem_insert_of_mem _ rfl)
  rw [ha.content 0 (hm.vol.offData 0 hm.vol.zero)] at hzero
  obtain ⟨f, i, hfile, hget, -, hdat⟩ := hm.vol.mapFile
  obtain ⟨i', hget', hmap⟩ := hm.vol.map.opened f hfile
  have hi : i' = i := Option.some.inj (hget'.symm.trans hget)
  have hlen := hmap.length
  rw [hi, hdat, ← hsync, show s.content FREE_MAP_SECTOR = .zeros from hzero,
    inodeLength_zeros] at hlen
  have hpos := hm.vol.map.lt_bitCnt hm.vol.map.rootSector
  simp only [byteCnt, elemCnt, ELEM_BITS] at hlen
  omega

/-- A file one sector longer than the direct pointers reach, on a disk of 199 sectors: no
sector is left for its index block. -/
theorem inodeReserve_clearsZero : ∃ s sectors k,
    ReserveCall s sectors k (newInodeDisk 62977 false) ∧
      ¬OwnWrites s sectors k (newInodeDisk 62977 false)
        (inodeReserve allocSector s (newInodeDisk 62977 false) 62977).2 := by
  have hsize : (blankDisk 199).fsDevice.size = 199 := rfl
  obtain ⟨s, sectors, k, hcall, hfree, hzero⟩ :=
    @filesysInit_make (blankDisk 199) (by decide) (by decide)
  refine ⟨s, sectors, k, hcall _, fun hown => ?_⟩
  obtain ⟨D, K, dat, hm, hsec, hd⟩ := (hcall 62977).ownTree
  refine (inodeReserve_grow hm.vol.map hd.roots 62977).2.1
    (hown.inodes 0 ((hsec 0).2 hm.vol.zero)) ⟨hzero, by decide, (123, []), by decide, ?_⟩
  have hfree : s.freeSectors = 123 := by omega
  have hnull : missing (slotVal s.content (newInodeDisk 62977 false))
      (inodeSlots (bytesToSectors 62977)) = inodeSlots (bytesToSectors 62977) :=
    List.filter_eq_self.2 fun a _ => decide_eq_true (newInodeDisk_null _ _ _ a)
  rw [hnull, hfree]
  decide

/-- One of a single sector does not come that far. -/
theorem inodeReserve_ownWrites_one : ∃ s sectors k,
    ReserveCall s sectors k (newInodeDisk 1 false) ∧
      OwnWrites s sectors k (newInodeDisk 1 false)
        (inodeReserve allocSector s (newInodeDisk 1 false) 1).2 := by
  have hsize : (blankDisk 200).fsDevice.size = 200 := rfl
  obtain ⟨s, sectors, k, hcall, hfree, -⟩ :=
    @filesysInit_make (blankDisk 200) (by decide) (by decide)
  refine ⟨s, sectors, k, hcall 1, (inodeReserve_ownWrites_iff (hcall 1) 1).2 ?_⟩
  rintro ⟨-, -, a, -, heq⟩
  have hlt := (List.getElem?_eq_some_iff.1 heq).1
  have hlen : (missing (slotVal s.content (newInodeDisk 1 false))
      (inodeSlots (bytesToSectors 1))).length ≤ (inodeSlots (bytesToSectors 1)).length :=
    List.length_filter_le _ _
  rw [show (inodeSlots (bytesToSectors 1)).length = 1 by decide] at hlen
  omega

end SimpleShell.Fs
