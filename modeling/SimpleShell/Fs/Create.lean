import SimpleShell.Fs.Content

/-!
# Making and removing inodes

`inode_create` on a sector that was just allocated, and the last close of an
inode that was removed. The first adds an inode to the volume, or fails and
leaves the inodes that were there alone, though not the free map. The second
takes one away and gives back every sector that its length accounts for.
-/

namespace SimpleShell.Fs

open SimpleShell.Lib

/-! ## A new inode -/

theorem newInodeDisk_byte {len : Int} {isDir : Bool} {i : Nat} (hi : i ≠ 500) :
    (newInodeDisk len isDir).byte i =
      ((setLength .zeros len).setU32 508 INODE_MAGIC).byte i := by
  unfold newInodeDisk
  rcases Nat.lt_or_ge i BLOCK_SECTOR_SIZE with hlt | hge
  · rw [ByteBlock.byte_splice hlt, if_neg]
    simp only [List.length_singleton]
    omega
  · rw [ByteBlock.byte_of_ge hge, ByteBlock.byte_of_ge hge]

theorem newInodeDisk_length (len : Int) (isDir : Bool) :
    inodeLength (newInodeDisk len isDir) = int32 len := by
  unfold inodeLength
  rw [ByteBlock.u32_congr fun i h _ => newInodeDisk_byte (by omega),
    ByteBlock.u32_setU32_of_ne (by omega), setLength,
    ByteBlock.u32_setU32_same (by decide) (by omega)]
  rw [int32_bmod, int32_bmod, Int.toNat_of_nonneg (Int.emod_nonneg _ (by decide))]
  exact_mod_cast Int.emod_bmod len (2 ^ 32)

theorem newInodeDisk_null (f : Nat → Sector) (len : Int) (isDir : Bool) (a : Slot) :
    slotVal f (newInodeDisk len isDir) a = 0 := by
  unfold slotVal
  split
  · next hr =>
      have hentry : blockEntry (newInodeDisk len isDir) a.1 = 0 := by
        unfold blockEntry
        rw [ByteBlock.u32_congr fun i _ h => newInodeDisk_byte (by omega),
          ByteBlock.u32_setU32_of_ne (by omega), u32_setLength (by omega),
          ByteBlock.u32_zeros]
      rw [hentry, nodeAt_null]
  · rfl

theorem newInodeDisk_isDir (len : Int) (isDir : Bool) :
    inodeIsDir (newInodeDisk len isDir) = isDir := by
  unfold inodeIsDir newInodeDisk
  rw [ByteBlock.byte_splice (by decide), if_pos (by simp)]
  cases isDir <;> rfl

theorem missing_null {V : Slot → Nat} (h : ∀ a, V a = 0) (need : List Slot) :
    missing V need = need :=
  List.filter_eq_self.2 fun a _ => by simp [h a]

section Create

variable {D K : Set Nat} {dat : Nat → Sector} {s₀ s s' : FileSys} {k : Nat}
  {d' : Sector} {len : Int} {isDir : Bool}

/-- One more inode, whose sector holds it. -/
theorem Mounted.addInode (h : Mounted D K dat s)
    (hvol : Vol D (insert k K) (Function.update dat k d') s) (hk : k ∉ K)
    (hcont : s.content k = d') :
    Mounted D (insert k K) (Function.update dat k d') s := by
  have hne : ∀ j ∈ K, j ≠ k := fun j hj hjk => hk (hjk ▸ hj)
  refine ⟨hvol, fun p hp => ?_, h.inj, h.nodup, h.mapOpen, fun j hj hno => ?_,
    fun j hj hj₀ => ?_⟩
  · obtain ⟨ho, hmem⟩ := h.opened p hp
    refine ⟨⟨ho.live, ho.sector, ?_, ho.openCnt, ho.kept, ho.writable⟩, .inr hmem⟩
    rw [Function.update_of_ne (hne _ hmem)]
    exact ho.data
  · rcases hj with rfl | hj
    · rw [Function.update_self]
      exact hcont
    · rw [Function.update_of_ne (hne j hj)]
      exact h.closed j hj hno
  · rcases hj with rfl | hj
    · rw [Function.update_self, hcont]
      have := hvol.file j (.inl rfl)
      rw [Function.update_self] at this
      exact ⟨this, .refl _⟩
    · rw [Function.update_of_ne (hne j hj)]
      exact h.disk j hj hj₀

/-- What a successful `inode_create` leaves, the sector having been allocated
in state `s₀`. -/
structure Created (D K : Set Nat) (dat : Nat → Sector) (s₀ : FileSys) (k : Nat)
    (len : Int) (isDir : Bool) (d' : Sector) (s' : FileSys) : Prop where
  mounted : Mounted D (insert k K) (Function.update dat k d') s'
  mem : s'.mem = s₀.mem
  new : k ∉ K
  framed : Framed D s₀ s'
  length : inodeLength d' = int32 len
  isDir : inodeIsDir d' = isDir
  content : fileContent s'.content d' = List.replicate (int32 len).toNat 0
  tidy : Tidy s'.content d'
  exact : Exact K dat s₀ → Exact (insert k K) (Function.update dat k d') s'
  allocFailures : s'.allocFailures = s₀.allocFailures
  disk : s'.content k = d'
  free : s'.freeSectors + (inodeSlots (bytesToSectors (int32 len))).length + 1 =
    s₀.freeSectors
  used : ∀ j, s₀.used j → s'.used j
  size : s'.cache.size = s₀.cache.size
  zero : s'.content 0 = s₀.content 0

/-- What a failed one leaves. -/
structure NotCreated (D K : Set Nat) (dat : Nat → Sector) (s₀ s : FileSys)
    (len : Int) (s' : FileSys) : Prop where
  mounted : Mounted D K dat s'
  mem : s'.mem = s₀.mem
  framed : Framed D s₀ s'
  used : ∀ j, s.used j → s'.used j
  neg : int32 len < 0 → s' = s
  enough : 0 ≤ int32 len →
    (inodeSlots (bytesToSectors (int32 len))).length ≤ s.freeSectors →
      s'.freeSectors + (inodeSlots (bytesToSectors (int32 len))).length =
        s.freeSectors
  short : 0 ≤ int32 len →
    s.freeSectors < (inodeSlots (bytesToSectors (int32 len))).length →
      s'.freeSectors = 0
  allocFailures : s.allocFailures ≤ s'.allocFailures
  failed : 0 ≤ int32 len → int32 len ≤ MAX_LENGTH →
    s.allocFailures < s'.allocFailures
  size : s'.cache.size = s₀.cache.size
  zero : int32 len < 0 ∨ s.freeSectors = 0 → s'.content 0 = s₀.content 0

/-- When `inode_create` finds room for a file. -/
def CanCreate (s : FileSys) (len : Int) : Prop :=
  0 ≤ int32 len ∧ int32 len ≤ MAX_LENGTH ∧
    (inodeSlots (bytesToSectors (int32 len))).length ≤ s.freeSectors

theorem Allocated.framed (ha : Allocated D s₀ k s) : Framed D s₀ s :=
  fun v _ hD _ => ha.content v hD

theorem Allocated.mounted (ha : Allocated D s₀ k s) (h : Mounted D K dat s₀) :
    Mounted D K dat s :=
  ha.framed.mounted h ha.ok ha.mem ha.size fun v _ hv => (ha.used h.vol.map v).2 (.inr hv)

theorem Allocated.not_mem (ha : Allocated D s₀ k s) (h : Mounted D K dat s₀) : k ∉ K :=
  fun hk => ha.free (h.vol.owned k hk)

theorem Allocated.ne_zero (ha : Allocated D s₀ k s) (h : Mounted D K dat s₀) : k ≠ 0 :=
  fun hk => ha.not_mem h (hk ▸ h.vol.zero)

theorem Allocated.used_self (ha : Allocated D s₀ k s) (h : Mounted D K dat s₀) :
    s.used k := (ha.used h.vol.map k).2 (.inl rfl)

theorem Allocated.spare (ha : Allocated D s₀ k s) (h : Mounted D K dat s₀) :
    Spare D K dat s k := by
  refine ⟨ha.used_self h, ha.not_mem h, ha.ne_zero h,
    fun hD => ha.free (h.vol.map.used_of_mem hD), fun j hj a heq => ?_⟩
  rw [slotVal_of_index (fun b hb hne =>
    ha.content _ (h.vol.slot_not_mem hj (.inl hb) hne))] at heq
  have hu := h.vol.slot_used hj (a := a) (by rw [heq]; exact ha.ne_zero h)
  rw [heq] at hu
  exact ha.free hu

/-- What a successful `inode_create` in a spare sector leaves. -/
structure Made (D K : Set Nat) (dat : Nat → Sector) (s : FileSys) (k : Nat)
    (len : Int) (isDir : Bool) (d' : Sector) (s' : FileSys) : Prop where
  mounted : Mounted D (insert k K) (Function.update dat k d') s'
  mem : s'.mem = s.mem
  frame : ∀ v, s.used v → v ≠ k → v ∉ D → v ≠ 0 → s'.content v = s.content v
  length : inodeLength d' = int32 len
  isDir : inodeIsDir d' = isDir
  content : fileContent s'.content d' = List.replicate (int32 len).toNat 0
  tidy : Tidy s'.content d'
  exact : (∀ j ∈ K, s.content j = dat j) →
    (∀ j ∈ K, ∀ a, a ∉ inodeSlots (numSectors (dat j)) →
      slotVal s.content (dat j) a = 0) →
    (∀ j, s.used j → j = k ∨ j ∈ K ∨ ∃ x, own s.content dat K x = j) →
      Exact (insert k K) (Function.update dat k d') s'
  allocFailures : s'.allocFailures = s.allocFailures
  disk : s'.content k = d'
  free : s'.freeSectors + (inodeSlots (bytesToSectors (int32 len))).length =
    s.freeSectors
  used : ∀ j, s.used j → s'.used j
  size : s'.cache.size = s.cache.size
  zero : s'.content 0 = s.content 0

/-- The sectors of a new inode are found, then written to the inode's sector. -/
theorem Outcome.made {d₀ : Sector} (h : Mounted D K dat s) (hs : Spare D K dat s k)
    (hnull : ∀ f a, slotVal f d₀ a = 0) (hlen : inodeLength d₀ = int32 len)
    (hdir : inodeIsDir d₀ = isDir) (hmax : int32 len ≤ MAX_LENGTH)
    (hnonneg : 0 ≤ int32 len) (hhead : SameHeader d₀ d')
    (ho : Outcome D s s' IsIndex (inodeSlots (bytesToSectors (int32 len))) true
      (slotVal s.content d₀) (slotVal s'.content d')) :
    Made D K dat s k len isDir d' (s'.writeSector k d') := by
  have hk := hs.new
  have hk₀ := hs.ne_zero
  have hne : ∀ j ∈ K, j ≠ k := fun j hj hjk => hk (hjk ▸ hj)
  have hmem : k ∈ insert k K := .inl rfl
  obtain ⟨-, hfill⟩ := ho.enough (ho.le_of_true rfl)
  have hmiss := missing_null (hnull s.content) (inodeSlots (bytesToSectors (int32 len)))
  have hV : Roots D s IsIndex (slotVal s.content d₀) :=
    ⟨fun a hne => absurd (hnull _ a) hne, fun a _ hne => absurd (hnull _ a) hne,
      fun a _ hne => absurd (hnull _ a) hne⟩
  have hlen' : inodeLength d' = int32 len := hhead.length.trans hlen
  have hfile : FileOk s'.content s'.cache.size d' := by
    refine ⟨by rw [hlen']; exact hnonneg, by rw [hlen']; exact hmax, ?_⟩
    rw [numSectors, hlen']
    exact ho.grow.mapped hV hfill.ne
  -- Until its sectors are there the new inode counts as one of no length.
  have hvol : Vol D (insert k K) (Function.update dat k d') s' := by
    have hblank := h.vol.addInode hs (fun f a => newInodeDisk_null f 0 isDir a)
      (by rw [newInodeDisk_length]; rfl)
    have := hblank.grow hmem hk₀ (d := d₀) (funext fun a => ?_) ho rfl hfile
    · rwa [Function.update_idem] at this
    · rw [Function.update_self, hnull, newInodeDisk_null]
  have hself : Function.update dat k d' k = d' := Function.update_self ..
  have hval : ∀ a, slotVal (s'.writeSector k d').content d' a =
      slotVal s'.content d' a := by
    intro a
    have := hvol.slotVal_writeInode hmem hk₀ d' hmem a
    rwa [hself] at this
  have hleaf : ∀ a, ¬ IsIndex a → slotVal s'.content d' a ≠ 0 →
      (s'.writeSector k d').content (slotVal s'.content d' a) = .zeros := by
    intro a hidx hne
    have hak := hvol.slot_apart hmem hk₀ hmem (a := a)
    rw [hself] at hak
    rw [writeSector_content_of_ne hak]
    exact ho.grow.zeroed a hidx (hnull _ a) hne
  have hbyte : ∀ x, x / BLOCK_SECTOR_SIZE < numSectors d' →
      fileByte (s'.writeSector k d').content d' x = 0 := by
    intro x hx
    have hne := hfile.mapped.ne _
      (leafSlot_mem hx (Nat.lt_of_lt_of_le hx hfile.sectors_le))
    unfold fileByte leafAt
    rw [hval, hleaf _ (not_isIndex_leafSlot _) hne, ByteBlock.byte_zeros]
  have hframe : ∀ v, s.used v → v ≠ k → v ∉ D → v ≠ 0 →
      (s'.writeSector k d').content v = s.content v := by
    intro v hv hvk hD hv₀
    rw [writeSector_content_of_ne hvk]
    exact ho.grow.frame v hv hD hv₀ fun a _ heq => hv₀ (heq.symm.trans (hnull _ a))
  -- None of the old pointers is to the new inode.
  have hslot : ∀ j ∈ K, ∀ a, slotVal s.content (dat j) a ≠ 0 → (IsIndex a ∨ j ≠ 0) →
      (s'.writeSector k d').content (slotVal s.content (dat j) a) =
        s.content (slotVal s.content (dat j) a) := fun j hj a hne ha =>
    hframe _ (h.vol.slot_used hj hne) (hs.alone j hj a) (h.vol.slot_not_mem hj ha hne) hne
  have hvals : ∀ j ∈ K, ∀ a, slotVal (s'.writeSector k d').content (dat j) a =
      slotVal s.content (dat j) a := fun j hj =>
    slotVal_of_index fun b hb hne => hslot j hj b hne (.inl hb)
  have hvol' := hvol.writeInode hmem hk₀ d'
  have hcont : (s'.writeSector k d').content k = d' := by
    rw [FileSys.writeSector_content (hvol.lt_size hmem), Function.update_self]
  have hmem' : (s'.writeSector k d').mem = s.mem := ho.grow.mem
  have hsize : (s'.writeSector k d').cache.size = s.cache.size :=
    (FileSys.writeSector_size ..).trans ho.grow.size
  have hinode : ∀ j ∈ K, j ≠ 0 → (s'.writeSector k d').content j = s.content j :=
    fun j hj hj₀ => hframe j (h.vol.owned j hj) (hne j hj) (h.vol.offData j hj) hj₀
  have hmounted : Mounted D K dat (s'.writeSector k d') := by
    refine h.step (h.vol.congr hvol'.map (by rw [hmem']) (fun _ _ => by rw [hmem']) hsize
      (fun v _ hv => ho.grow.mono v hv) hvals) (by rw [hmem']) (by rw [hmem'])
      (by rw [hmem']) hsize hinode fun j hj _ b hb hb₀ => ?_
    rw [hslot j hj b hb₀ (.inl hb)]
    exact .refl _
  have hzero : (s'.writeSector k d').content 0 = s.content 0 := by
    rw [writeSector_content_of_ne hk₀.symm, hfill.zero]
  have htidy : Tidy (s'.writeSector k d').content d' := by
    refine ⟨fun x _ hx => hbyte x hx, fun a hno => ?_⟩
    rw [numSectors, hlen'] at hno
    rw [hval, ho.beyond a hno, hnull]
  refine ⟨hmounted.addInode hvol' hk hcont, hmem', hframe, hlen', hhead.isDir.trans hdir, ?_,
    htidy, fun hsync hnulls hall => ⟨fun j hj => ?_, fun j hj a ha' => ?_, fun j hj => ?_⟩,
    hfill.allocFailures, hcont, ?_, ho.grow.mono, hsize, hzero⟩
  · refine ext_getD (z := 0) (by simp [hlen']) fun x hx => ?_
    rw [length_fileContent, hlen'] at hx
    have hx' : (x : Int) < inodeLength d' := by rw [hlen']; omega
    rw [getD_fileContent hx', hbyte x (lt_sectors hx'), List.getD_eq_getElem?_getD]
    simp
  · rcases hj with rfl | hj
    · rw [hself]
      exact hcont
    · rw [Function.update_of_ne (hne j hj)]
      rcases eq_or_ne j 0 with rfl | hj₀
      · exact hzero.trans (hsync 0 hj)
      · exact (hinode j hj hj₀).trans (hsync j hj)
  · rcases hj with rfl | hj
    · rw [hself] at ha' ⊢
      exact htidy.null a ha'
    · rw [Function.update_of_ne (hne j hj)] at ha' ⊢
      rw [hvals j hj]
      exact hnulls j hj a ha'
  · rcases hfill.exact j hj with hj | ⟨a, -, hja⟩
    · rcases hall j hj with rfl | hjK | ⟨x, hxj⟩
      · exact .inl hmem
      · exact .inl (.inr hjK)
      · right
        refine ⟨(⟨x.1, .inr x.1.2⟩, x.2), ?_⟩
        unfold own at hxj ⊢
        rw [Function.update_of_ne (hne _ x.1.2), hvals _ x.1.2]
        exact hxj
    · right
      refine ⟨(⟨k, hmem⟩, a), ?_⟩
      unfold own
      rw [hself, hval]
      exact hja
  · have hfree := hfill.free
    rw [hmiss] at hfree
    exact hfree

/-- The sector was free before it was taken. -/
theorem Made.created (hm : Made D K dat s k len isDir d' s') (h : Mounted D K dat s₀)
    (ha : Allocated D s₀ k s) : Created D K dat s₀ k len isDir d' s' := by
  have hvals : ∀ j ∈ K, ∀ a, slotVal s.content (dat j) a = slotVal s₀.content (dat j) a :=
    fun j hj => slotVal_of_index fun b hb hne =>
      ha.content _ (h.vol.slot_not_mem hj (.inl hb) hne)
  refine ⟨hm.mounted, hm.mem.trans ha.mem, ha.not_mem h, fun v hv hD hv₀ => ?_, hm.length,
    hm.isDir, hm.content, hm.tidy, fun hx => hm.exact (fun j hj => ?_) (fun j hj a hno => ?_)
      fun j hj => ?_, hm.allocFailures.trans ha.allocFailures, hm.disk, ?_,
    fun j hj => hm.used j ((ha.used h.vol.map j).2 (.inr hj)), hm.size.trans ha.size,
    hm.zero.trans (ha.content 0 (h.vol.offData 0 h.vol.zero))⟩
  · rw [hm.frame v ((ha.used h.vol.map v).2 (.inr hv)) (fun hvk => ha.free (hvk ▸ hv)) hD hv₀]
    exact ha.content v hD
  · rw [ha.content j (h.vol.offData j hj)]
    exact hx.sync j hj
  · rw [hvals j hj]
    exact hx.null j hj a hno
  · rcases (ha.used h.vol.map j).1 hj with hjk | hj
    · exact .inl hjk
    · rcases hx.used j hj with hjK | ⟨x, hxj⟩
      · exact .inr (.inl hjK)
      · exact .inr (.inr ⟨x, (hvals _ x.1.2 _).trans hxj⟩)
  · have := hm.free
    have := ha.freeSectors h.vol.map
    omega

/-- The first sector of a file is a data sector. -/
theorem inodeSlots_head {n : Nat} {a : Slot} (h : (inodeSlots n)[0]? = some a) : ¬IsIndex a := by
  unfold inodeSlots at h
  rcases Nat.eq_zero_or_pos n with rfl | hpos
  · cases h
  · have hlen : 0 < ((List.range (min n 123)).map fun i => ((i, []) : Slot)).length := by
      rw [List.length_map, List.length_range]
      omega
    rw [List.getElem?_append_left hlen, List.getElem?_map, List.getElem?_range (by omega)] at h
    obtain rfl : ((0, []) : Slot) = a := Option.some.inj h
    simp [IsIndex, rootLevel]

theorem inodeCreate_spec {b : Bool} {l : Int} (h : Mounted D K dat s₀) (ha : Allocated D s₀ k s) :
    let r := inodeCreate s k l b
    (r.1 = true → CanCreate s l ∧
      ∃ d', Created D K dat s₀ k l b d' r.2) ∧
    (r.1 = false → ¬ CanCreate s l ∧ NotCreated D K dat s₀ s l r.2) := by
  intro r
  have hr : r = inodeCreate s k l b := rfl
  clear_value r
  unfold inodeCreate at hr
  have hlen := newInodeDisk_length l b
  have hnull := fun f => newInodeDisk_null f l b
  have hdir := newInodeDisk_isDir l b
  generalize newInodeDisk l b = d₀ at hlen hnull hdir hr
  dsimp only at hr
  rw [hlen] at hr
  rcases Int.lt_or_le (int32 l) 0 with hneg | hnonneg
  · have hres : inodeReserve allocSector s d₀ (int32 l) = ((false, d₀), s) := by
      rw [inodeReserve, if_pos hneg]
    simp only [hres, Bool.false_eq_true, if_false] at hr
    subst hr
    refine ⟨fun hf => absurd hf (by simp), fun _ => ⟨fun hc => absurd hc.1 (by omega),
      ha.mounted h, ha.mem, ha.framed, fun _ hj => hj, fun _ => rfl,
      fun hn => absurd hn (by omega), fun hn => absurd hn (by omega), Nat.le_refl _,
      fun hn => absurd hn (by omega), ha.size,
      fun _ => ha.content 0 (h.vol.offData 0 h.vol.zero)⟩⟩
  · have hV : Roots D s IsIndex (slotVal s.content d₀) :=
      ⟨fun a hne => absurd (hnull _ a) hne, fun a _ hne => absurd (hnull _ a) hne,
        fun a _ hne => absurd (hnull _ a) hne⟩
    obtain ⟨hhead, ok, hret, ho⟩ := inodeReserve_spec hnonneg ha.ok hV
    have hmiss := missing_null (hnull s.content)
      (inodeSlots (bytesToSectors (int32 l)))
    have hsparing := inodeReserve_sparing ha.ok hV (int32 l)
    generalize inodeReserve allocSector s d₀ (int32 l) = t at hhead hret ho hsparing hr
    split at hr
    · next hdone =>
        subst hr
        obtain ⟨rfl, hmax⟩ : ok = true ∧ bytesToSectors (int32 l) ≤ MAX_SECTORS := by
          rw [hdone] at hret
          simpa using hret.symm
        have hfree := ho.le_of_true rfl
        rw [hmiss] at hfree
        exact ⟨fun _ => ⟨⟨hnonneg, bytesToSectors_le.1 hmax, hfree⟩, t.1.2,
          (ho.made (ha.mounted h) (ha.spare h) hnull hlen hdir (bytesToSectors_le.1 hmax)
            hnonneg hhead).created h ha⟩,
          fun hf => absurd hf (by simp)⟩
    · next hfail =>
        subst hr
        have hfail : t.1.1 = false := by simpa using hfail
        have hframed : Framed D s₀ t.2 := by
          intro v hv hD hv₀
          rw [ho.grow.frame v ((ha.used h.vol.map v).2 (.inr hv)) hD hv₀ fun a _ heq =>
            hv₀ (heq.symm.trans (hnull _ a))]
          exact ha.framed v hv hD hv₀
        have hused : ∀ v, s₀.used v → t.2.used v := fun v hv =>
          ho.grow.mono v ((ha.used h.vol.map v).2 (.inr hv))
        refine ⟨fun hf => absurd hf (by simp), fun _ => ⟨?_, ?_⟩⟩
        · rintro ⟨-, hmax, hfree⟩
          rw [hret, (ho.enough (by rw [hmiss]; exact hfree)).1] at hfail
          exact absurd (bytesToSectors_le.2 hmax) (by simpa using hfail)
        · refine ⟨hframed.mounted h ho.grow.ok (ho.grow.mem.trans ha.mem)
            (ho.grow.size.trans ha.size) fun v _ hv => hused v hv,
            ho.grow.mem.trans ha.mem, hframed, ho.grow.mono,
            fun hn => absurd hn (by omega), fun _ hle => ?_, fun _ hlt => ?_, ?_,
            fun _ hmax => ?_, ho.grow.size.trans ha.size, fun hnone => ?_⟩
          · have := (ho.enough (by rw [hmiss]; exact hle)).2.free
            rwa [hmiss] at this
          · exact (ho.short (by rw [hmiss]; exact hlt)).2.free
          · exact ho.allocFailures_le
          · rw [hret, decide_eq_true (bytesToSectors_le.2 hmax), Bool.and_true] at hfail
            exact (ho.short (ho.lt_of_false hfail)).2.allocFailures
          · refine (hsparing.zero.2 ?_).trans (ha.content 0 (h.vol.offData 0 h.vol.zero))
            rintro ⟨-, -, a, hidx, hget⟩
            rw [hmiss, hnone.resolve_left (by omega)] at hget
            exact inodeSlots_head hget hidx

end Create

/-! ## The end of an inode -/

section Remove

variable {D K : Set Nat} {dat : Nat → Sector} {s : FileSys} {p k : Nat}

/-- Closing an inode that was removed gives back its sector, its data and its
index blocks. -/
theorem inodeClose_removed (h : Mounted D K dat s) (hp : Opened dat s p k)
    (hk₀ : k ≠ 0) (hk₁ : k ≠ ROOT_DIR_SECTOR) (hroot : ROOT_DIR_SECTOR ∈ K) :
    let s' := inodeClose (inodeRemove s p) p
    Mounted D (K \ {k}) dat s' ∧ SameTables s s' ∧
      s'.mem.openInodes = s.mem.openInodes.erase p ∧
      (∀ q, q ≠ p → s'.inode q = s.inode q) ∧
      s'.allocFailures = s.allocFailures ∧ (∀ j, j ∉ D → s'.content j = s.content j) ∧
      (∀ j, s'.used j ↔ s.used j ∧ j ≠ k ∧
        j ∉ slotSectors s.content (dat k) (inodeSlots (numSectors (dat k)))) := by
  intro s'
  have hs' : s' = inodeClose (inodeRemove s p) p := rfl
  clear_value s'
  have hk := h.opened_mem hp
  have hlive := hp.isOpen.live
  -- The tables as they are when the sectors are released.
  obtain ⟨t, ht⟩ : ∃ t : FileSys, t = { s with mem := { s.mem with
      inodes := s.mem.inodes.set p ⟨k, 0, true, 0, dat k⟩
      openInodes := s.mem.openInodes.erase p } } := ⟨_, rfl⟩
  obtain ⟨u, hu⟩ : ∃ u, u = inodeDeallocate (freeMapRelease t k 1) (dat k) := ⟨_, rfl⟩
  have hend : s' = { u with mem := { u.mem with inodes := u.mem.inodes.free p } } := by
    have hget : (inodeRemove s p).mem.inodes.get? p = some ⟨k, 1, true, 0, dat k⟩ := by
      unfold inodeRemove
      rw [FileSys.get?_setInode hlive, if_pos rfl, hp.isOpen.inode_eq]
    unfold inodeClose at hs'
    rw [hget] at hs'
    simp only [Int.sub_self, if_true] at hs'
    unfold inodeRemove FileSys.setInode at hs'
    simp only [Heap.set_set] at hs'
    rw [hs', hu, ht]
  have hget : ∀ q, q ≠ p → t.mem.inodes.get? q = s.mem.inodes.get? q := by
    intro q hq
    rw [ht]
    exact (Heap.get?_set hlive ..).trans (if_neg hq)
  have hmem : ∀ q, q ∈ t.mem.openInodes ↔ q ≠ p ∧ q ∈ s.mem.openInodes := by
    intro q
    rw [ht]
    exact h.nodup.mem_erase_iff
  have hdisk : SameDisk s t := by rw [ht]; exact ⟨rfl, rfl, rfl, rfl⟩
  have hcont := hdisk.content
  have hmap : ∀ f, s.mem.freeMapFile = some f → f.inode ∈ t.mem.openInodes := fun f hf =>
    (hmem _).2 ⟨h.vol.ne_mapFile hlive hp.isOpen.sector hk₀ f hf, h.mapOpen f hf⟩
  have hmt : Mounted D (K \ {k}) dat t := by
    refine h.retable hdisk (h.vol.remove hk₀) (by rw [ht]) (fun q hq => ?_) ?_ hmap
      (fun j hj hno => ?_) fun j hj hj₀ => h.disk j hj.1 hj₀
    · obtain ⟨hqp, hq⟩ := (hmem q).1 hq
      exact ⟨hq, hget q hqp, ⟨(h.opened q hq).2, h.sector_ne hp hq hqp⟩, rfl⟩
    · rw [ht]
      exact h.nodup.erase p
    · refine h.closed j hj.1 fun q hq => ?_
      rcases eq_or_ne q p with rfl | hqp
      · rw [hp.isOpen.sector]
        exact Ne.symm hj.2
      · exact hno q ((hmem q).2 ⟨hqp, hq⟩)
  have hoff : ∀ v, (∀ a, slotVal s.content (dat 0) a ≠ v) → OffMap t v := fun v hv =>
    hmt.vol.offMap (by rw [hcont]; exact hv)
  have hfile := h.vol.file k hk
  have hindex : OffIndex D t.content (dat k) := by
    rw [hcont]
    exact fun a ha hne => h.vol.slot_not_mem hk (.inl ha) hne
  have hgood : Good t (dat k) (inodeSlots (numSectors (dat k))) := by
    intro a ha
    have hne := hfile.mapped.ne a ha
    rw [hcont, hdisk.size]
    exact ⟨hfile.mapped.lt a ha, hne, h.vol.slot_apart hroot (by decide) hk,
      hoff _ fun b heq => hk₀ (h.vol.slot_inj hk h.vol.zero hne heq.symm).1⟩
  have hself : Releasable t k :=
    ⟨hk₀, hk₁, hoff k fun _ => h.vol.slot_apart hk hk₀ h.vol.zero⟩
  have hfirst := hself.freed hmt.vol.map
  have hrest := inodeDeallocate_spec hfirst.ok hfile.nonneg (hfirst.offIndex hindex)
    (hfirst.good hmt.vol.map hindex hgood)
  have hall := hfirst.union hrest
  rw [← hu] at hall
  have hset : slotSectors (freeMapRelease t k 1).content (dat k)
      (inodeSlots (numSectors (dat k))) =
      slotSectors s.content (dat k) (inodeSlots (numSectors (dat k))) := by
    unfold slotSectors
    rw [hfirst.slotVal hindex, hcont]
  rw [hset] at hall
  have hkeep : ∀ v, v ∈ K \ {k} ∨ (∃ x, own t.content dat (K \ {k}) x = v) → t.used v →
      u.used v := by
    intro v hv hused
    refine (hall.used v).2 ⟨?_, hused⟩
    rintro (rfl | ⟨a, ha, hva⟩)
    · rcases hv with hv | ⟨x, hx⟩
      · exact hv.2 rfl
      · unfold own at hx
        rw [hcont] at hx
        exact h.vol.slot_apart hk hk₀ x.1.2.1 hx
    · have hne := hfile.mapped.ne a ha
      rcases hv with hv | ⟨x, hx⟩
      · rcases eq_or_ne v 0 with hv₀ | hv₀
        · exact hne (hva.trans hv₀)
        · exact h.vol.slot_apart hv.1 hv₀ hk hva
      · unfold own at hx
        rw [hcont] at hx
        exact x.1.2.2 (h.vol.slot_inj hk x.1.2.1 hne (hva.trans hx.symm)).1.symm
  have hframed : Framed D t u := fun v _ hD _ => hall.content v hD
  have hmu := hframed.mounted hmt hall.ok hall.mem hall.size hkeep
  have hopen : u.mem.openInodes = s.mem.openInodes.erase p := by rw [hall.mem, ht]
  have hgets' : ∀ q, q ≠ p → s'.mem.inodes.get? q = s.mem.inodes.get? q := by
    intro q hq
    rw [hend]
    refine (Heap.get?_free ..).trans ?_
    rw [if_neg hq, hall.mem]
    exact hget q hq
  have hdisk' : SameDisk u s' := by rw [hend]; exact ⟨rfl, rfl, rfl, rfl⟩
  refine ⟨hmu.retable hdisk' hmu.vol (by rw [hend]) (fun q hq => ?_) ?_ (fun f hf => ?_)
    (fun j hj hno => ?_) fun j hj hj₀ => hmu.disk j hj hj₀, ?_, ?_, fun q hq => ?_, ?_,
    fun j hj => ?_, fun j => ?_⟩
  · have hq : q ∈ u.mem.openInodes := by rw [hend] at hq; exact hq
    have hq' : q ∈ t.mem.openInodes := by rw [hall.mem] at hq; exact hq
    have hqp := ((hmem q).1 hq').1
    refine ⟨hq, ?_, (hmu.opened q hq).2, rfl⟩
    rw [hgets' q hqp, hall.mem]
    exact (hget q hqp).symm
  · rw [hend]
    exact hmu.nodup
  · rw [hend]
    exact hmu.mapOpen f hf
  · refine hmu.closed j hj fun q hq => hno q ?_
    rw [hend]
    exact hq
  · rw [hend]
    constructor <;> rw [hall.mem, ht]
  · rw [hend]
    exact hopen
  · unfold FileSys.inode
    rw [hgets' q hq]
  · rw [hdisk'.allocFailures, hall.allocFailures]
    exact hdisk.allocFailures
  · rw [hdisk'.content, hall.content j hj, hcont]
  · have hused : s'.used j ↔ u.used j := by
      unfold FileSys.used
      rw [hdisk'.freeMap]
    have hused' : t.used j ↔ s.used j := by
      unfold FileSys.used
      rw [hdisk.freeMap]
    rw [hused, hall.used, hused', Set.mem_union, Set.mem_singleton_iff, not_or]
    exact ⟨fun ⟨⟨h₁, h₂⟩, h₃⟩ => ⟨h₃, h₁, h₂⟩, fun ⟨h₁, h₂, h₃⟩ => ⟨⟨h₂, h₃⟩, h₁⟩⟩

/-- Nothing is lost when an inode goes. -/
theorem Exact.removed {s' : FileSys} (hx : Exact K dat s) (h : Vol D K dat s)
    (hk : k ∈ K) (hk₀ : k ≠ 0) (hcont : ∀ j, j ∉ D → s'.content j = s.content j)
    (hused : ∀ j, s'.used j → s.used j ∧ j ≠ k ∧
      j ∉ slotSectors s.content (dat k) (inodeSlots (numSectors (dat k)))) :
    Exact (K \ {k}) dat s' := by
  have hframed : Framed D s s' := fun v _ hD _ => hcont v hD
  refine ⟨fun j hj => ?_, fun j hj a ha => ?_, fun j hj => ?_⟩
  · rw [hcont j (h.offData j hj.1)]
    exact hx.sync j hj.1
  · rw [hframed.slotVal h hj.1]
    exact hx.null j hj.1 a ha
  · obtain ⟨hu, hjk, hno⟩ := hused j hj
    rcases hx.used j hu with hjK | ⟨x, rfl⟩
    · exact .inl ⟨hjK, hjk⟩
    · unfold own at hno ⊢
      by_cases hxk : x.1.1 = k
      · -- The inode's slots are released; the others are null.
        rw [hxk] at hno ⊢
        have hnull : slotVal s.content (dat k) x.2 = 0 := by
          refine hx.null k hk _ fun hmem => hno ⟨x.2, hmem, rfl⟩
        rw [hnull]
        exact .inl ⟨h.zero, hk₀.symm⟩
      · refine .inr ⟨(⟨x.1.1, x.1.2, hxk⟩, x.2), ?_⟩
        exact hframed.slotVal h x.1.2 _

end Remove

end SimpleShell.Fs
