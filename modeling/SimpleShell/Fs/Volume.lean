import SimpleShell.Fs.Untaken

/-!
# Who owns which sector

A volume is a set `K` of inode sectors, `dat k` being the inode in sector `k`
as the program sees it: the copy in memory of an open inode, the sector
otherwise. `Vol` says that no sector serves two purposes. It holds at every
point of a session, whatever has failed before. `Exact` is what failures cost:
as long as none happened, memory and disk agree on every inode, an inode holds
no pointer past its length, and every sector marked in the free map is owned.

The pointers of all inodes together are one family in the sense of
`Outcome.lift`, so a reservation for one inode is a walk over the family, and
that no two inodes share a sector comes with it.
-/

namespace SimpleShell.Fs

open SimpleShell.Lib

/-- The pointers of the inodes in `K`. -/
def own (f dat : Nat → Sector) (K : Set Nat) (x : K × Slot) : Nat :=
  slotVal f (dat x.1) x.2

structure Vol (D K : Set Nat) (dat : Nat → Sector) (s : FileSys) : Prop where
  map : FreeMapOk D s
  mapFile : ∃ f i, s.mem.freeMapFile = some f ∧
    s.mem.inodes.get? f.inode = some i ∧ i.sector = FREE_MAP_SECTOR ∧
    i.data = dat FREE_MAP_SECTOR
  zero : FREE_MAP_SECTOR ∈ K
  roots : Roots D s (fun x => IsIndex x.2) (own s.content dat K)
  owned : ∀ k ∈ K, s.used k
  offData : ∀ k ∈ K, k ∉ D
  apart : ∀ k ∈ K, k ≠ 0 → ∀ x, own s.content dat K x ≠ k
  file : ∀ k ∈ K, FileOk s.content s.cache.size (dat k)

/-- Nothing is lost and nothing is stale. -/
structure Exact (K : Set Nat) (dat : Nat → Sector) (s : FileSys) : Prop where
  sync : ∀ k ∈ K, s.content k = dat k
  null : ∀ k ∈ K, ∀ a, a ∉ inodeSlots (numSectors (dat k)) →
    slotVal s.content (dat k) a = 0
  used : ∀ j, s.used j → j ∈ K ∨ ∃ x, own s.content dat K x = j

section Vol

variable {D K : Set Nat} {dat : Nat → Sector} {s s' : FileSys} {j k : Nat}
  {a b : Slot} {d : Sector}

theorem Vol.slot_inj (h : Vol D K dat s) (hj : j ∈ K) (hk : k ∈ K)
    (hne : slotVal s.content (dat j) a ≠ 0)
    (heq : slotVal s.content (dat j) a = slotVal s.content (dat k) b) :
    j = k ∧ a = b := by
  have := h.roots.inj (⟨j, hj⟩, a) (⟨k, hk⟩, b) hne heq
  exact ⟨congrArg (fun x => x.1.1) this, congrArg (fun x => x.2) this⟩

theorem Vol.slot_used (h : Vol D K dat s) (hk : k ∈ K)
    (hne : slotVal s.content (dat k) a ≠ 0) : s.used (slotVal s.content (dat k) a) :=
  h.roots.used (⟨k, hk⟩, a) hne

theorem Vol.slot_apart (h : Vol D K dat s) (hj : j ∈ K) (hj₀ : j ≠ 0) (hk : k ∈ K) :
    slotVal s.content (dat k) a ≠ j :=
  h.apart j hj hj₀ (⟨k, hk⟩, a)

theorem Vol.lt_size (h : Vol D K dat s) (hk : k ∈ K) : k < s.cache.size :=
  h.map.lt_size (h.owned k hk)

theorem Vol.mem_data (h : Vol D K dat s) :
    k ∈ D ↔ ∃ i, i < numSectors (dat FREE_MAP_SECTOR) ∧
      k = leafAt s.content (dat FREE_MAP_SECTOR) i := by
  obtain ⟨f, i, hf, hget, -, hdat⟩ := h.mapFile
  obtain ⟨i', hget', hi⟩ := h.map.opened f hf
  have hii : i = i' := Option.some.inj (hget.symm.trans hget')
  subst hii
  rw [← hdat]
  exact hi.data k

/-- Of all sectors that inodes own only the data of the free-map file is `D`. -/
theorem Vol.slot_not_mem (h : Vol D K dat s) (hk : k ∈ K)
    (ha : IsIndex a ∨ k ≠ 0) (hne : slotVal s.content (dat k) a ≠ 0) :
    slotVal s.content (dat k) a ∉ D := by
  rcases ha with ha | hk₀
  · exact h.roots.offData (⟨k, hk⟩, a) ha hne
  · intro hmem
    obtain ⟨i, -, heq⟩ := h.mem_data.1 hmem
    exact hk₀ (h.slot_inj hk h.zero hne heq).1

theorem Vol.offMap (h : Vol D K dat s)
    (hno : ∀ a, slotVal s.content (dat FREE_MAP_SECTOR) a ≠ j) : OffMap s j := by
  intro f i hf hget a _
  obtain ⟨f', i', hf', hget', -, hdat⟩ := h.mapFile
  have hff : f' = f := Option.some.inj (hf'.symm.trans hf)
  subst hff
  have hii : i' = i := Option.some.inj (hget'.symm.trans hget)
  subst hii
  rw [hdat]
  exact hno a

theorem Vol.offMap_inode (h : Vol D K dat s) (hk : k ∈ K) (hk₀ : k ≠ 0) :
    OffMap s k :=
  h.offMap fun _ => h.slot_apart hk hk₀ h.zero

theorem Vol.offMap_slot (h : Vol D K dat s) (hk : k ∈ K) (hk₀ : k ≠ 0)
    (hne : slotVal s.content (dat k) a ≠ 0) :
    OffMap s (slotVal s.content (dat k) a) :=
  h.offMap fun _ heq => hk₀ (h.slot_inj hk h.zero hne heq.symm).1

/-! ## Changes that leave every pointer where it is -/

/-- The pointers stay while the index blocks do. -/
theorem slotVal_of_index {f f' : Nat → Sector}
    (h : ∀ b, IsIndex b → slotVal f d b ≠ 0 →
      f' (slotVal f d b) = f (slotVal f d b)) (a : Slot) :
    slotVal f' d a = slotVal f d a :=
  slotVal_congr fun _ _ _ _ hq hne => h _ hq hne

theorem FileOk.congr {f f' : Nat → Sector} {size : Nat} {d d' : Sector}
    (h : FileOk f size d) (hlen : inodeLength d' = inodeLength d)
    (hval : ∀ a, slotVal f' d' a = slotVal f d a) : FileOk f' size d' where
  nonneg := by rw [hlen]; exact h.nonneg
  max := by rw [hlen]; exact h.max
  mapped := by
    rw [numSectors, hlen]
    exact h.mapped.congr fun a _ => hval a

theorem Vol.congr (h : Vol D K dat s) (hmap : FreeMapOk D s')
    (hfile : s'.mem.freeMapFile = s.mem.freeMapFile)
    (hinode : ∀ f, s.mem.freeMapFile = some f →
      s'.mem.inodes.get? f.inode = s.mem.inodes.get? f.inode)
    (hsize : s'.cache.size = s.cache.size)
    (hused : ∀ k, k ∈ K ∨ (∃ x, own s.content dat K x = k) → s.used k → s'.used k)
    (hval : ∀ k ∈ K, ∀ a,
      slotVal s'.content (dat k) a = slotVal s.content (dat k) a) :
    Vol D K dat s' := by
  have hown : own s'.content dat K = own s.content dat K :=
    funext fun x => hval x.1 x.1.2 x.2
  refine ⟨hmap, ?_, h.zero, ⟨fun x hx => ?_, ?_, ?_⟩, fun k hk => ?_, h.offData, ?_,
    fun k hk => ?_⟩
  · obtain ⟨f, i, hf, hget, hdat⟩ := h.mapFile
    exact ⟨f, i, by rw [hfile]; exact hf, by rw [hinode f hf]; exact hget, hdat⟩
  · rw [hown] at hx ⊢
    exact hused _ (.inr ⟨x, rfl⟩) (h.roots.used x hx)
  · rw [hown]; exact h.roots.inj
  · rw [hown]; exact h.roots.offData
  · exact hused k (.inl hk) (h.owned k hk)
  · rw [hown]; exact h.apart
  · rw [hsize]
    exact (h.file k hk).congr rfl (hval k hk)

/-- Nothing that `Vol` speaks of has changed. -/
theorem Vol.frame (h : Vol D K dat s) (hfree : s'.freeMap = s.freeMap)
    (hsize : s'.cache.size = s.cache.size) (hcont : s'.content = s.content)
    (hfile : s'.mem.freeMapFile = s.mem.freeMapFile)
    (hinode : ∀ f, s.mem.freeMapFile = some f →
      s'.mem.inodes.get? f.inode = s.mem.inodes.get? f.inode) :
    Vol D K dat s' := by
  have hmap : FreeMapOk D s' := h.map.frame hfree hsize hfile hinode
    (fun k _ => .inr (by rw [hcont]; exact .refl _)) fun k _ => by rw [hcont]
  refine h.congr hmap hfile hinode hsize (fun k _ hk => ?_) fun k _ a => by rw [hcont]
  unfold FileSys.used at hk ⊢
  rw [hfree]
  exact hk

theorem Exact.frame (h : Exact K dat s) (hfree : s'.freeMap = s.freeMap)
    (hcont : s'.content = s.content) : Exact K dat s' := by
  refine ⟨by rw [hcont]; exact h.sync, by rw [hcont]; exact h.null, fun j hj => ?_⟩
  unfold FileSys.used at hj
  rw [hfree] at hj
  rw [hcont]
  exact h.used j hj

/-- Data written to one file moves no pointer of any. -/
theorem Vol.slotVal_dataWrite (h : Vol D K dat s) (hk : k ∈ K) (hj : j ∈ K)
    {f' : Nat → Sector} (hw : DataWrite s.content f' (dat k)) (a : Slot) :
    slotVal f' (dat j) a = slotVal s.content (dat j) a := by
  refine slotVal_of_index (fun b hb hne => hw _ fun i hi heq => ?_) a
  have := h.slot_inj hj hk hne heq
  rw [this.2] at hb
  exact not_isIndex_leafSlot i hb

theorem Vol.dataWrite (h : Vol D K dat s) (hk : k ∈ K) (hk₀ : k ≠ 0)
    {c : BufferCache} (hsize : c.size = s.cache.size)
    (hw : DataWrite s.content c.content (dat k)) :
    Vol D K dat { s with cache := c } := by
  have hne : ∀ i, i < numSectors (dat k) → leafAt s.content (dat k) i ≠ 0 :=
    fun i hi => (h.file k hk).mapped.ne _
      (leafSlot_mem hi (Nat.lt_of_lt_of_le hi (h.file k hk).sectors_le))
  have hmap : FreeMapOk D { s with cache := c } := by
    refine h.map.frame rfl hsize rfl (fun _ _ => rfl) (fun v _ => ?_) fun v hv => ?_
    · by_cases hex : ∃ i, i < numSectors (dat k) ∧ v = leafAt s.content (dat k) i
      · obtain ⟨i, hi, rfl⟩ := hex
        exact .inl (h.offMap_slot hk hk₀ (hne i hi))
      · right
        change Keeps _ (c.content v)
        rw [hw v fun i hi heq => hex ⟨i, hi, heq⟩]
        exact .refl _
    · exact hw v fun i hi heq => h.slot_not_mem hk (.inr hk₀) (hne i hi)
        (show leafAt s.content (dat k) i ∈ D from heq ▸ hv)
  exact h.congr hmap rfl (fun _ _ => rfl) hsize (fun _ _ hu => hu)
    fun j hj a => h.slotVal_dataWrite hk hj hw a

theorem writeSector_content_of_ne {b : Sector} (hjk : j ≠ k) :
    (s.writeSector k b).content j = s.content j := by
  rcases Nat.lt_or_ge k s.cache.size with hlt | hge
  · rw [FileSys.writeSector_content hlt, Function.update_of_ne hjk]
  · exact congrFun (BufferCache.write_content_of_ge hge b) j

/-- The sector of an inode holds no pointer. -/
theorem Vol.slotVal_writeInode (h : Vol D K dat s) (hk : k ∈ K) (hk₀ : k ≠ 0)
    (b : Sector) (hj : j ∈ K) (a : Slot) :
    slotVal (s.writeSector k b).content (dat j) a = slotVal s.content (dat j) a :=
  slotVal_of_index (fun _ _ _ =>
    writeSector_content_of_ne (h.slot_apart hk hk₀ hj)) a

/-- The sector of an inode may be written at will. -/
theorem Vol.writeInode (h : Vol D K dat s) (hk : k ∈ K) (hk₀ : k ≠ 0) (b : Sector) :
    Vol D K dat (s.writeSector k b) := by
  refine h.congr (h.map.writeSector (h.offData k hk) (.inl (h.offMap_inode hk hk₀)))
    rfl (fun _ _ => rfl) (by simp) (fun _ _ hu => hu) fun j hj a => ?_
  exact h.slotVal_writeInode hk hk₀ b hj a

/-! ## Changes of one inode -/

/-- An inode may be given any pointers it had, as long as it has enough. -/
theorem Vol.setDat (h : Vol D K dat s) (hk₀ : k ≠ 0)
    (hval : ∀ a, slotVal s.content d a ≠ 0 →
      slotVal s.content d a = slotVal s.content (dat k) a)
    (hfile : FileOk s.content s.cache.size d) :
    Vol D K (Function.update dat k d) s := by
  have hown : ∀ x, own s.content (Function.update dat k d) K x ≠ 0 →
      own s.content (Function.update dat k d) K x = own s.content dat K x := by
    intro x hx
    unfold own at hx ⊢
    by_cases hxk : (x.1 : Nat) = k
    · rw [hxk, Function.update_self] at hx ⊢
      exact hval _ hx
    · rw [Function.update_of_ne hxk]
  refine ⟨h.map, ?_, h.zero, ⟨fun x hx => ?_, fun x y hx hxy => ?_, fun x hx hne => ?_⟩,
    h.owned, h.offData, fun j hj hj₀ x hx => ?_, fun j hj => ?_⟩
  · rw [Function.update_of_ne (Ne.symm hk₀)]
    exact h.mapFile
  · have heq := hown x hx
    rw [heq] at hx ⊢
    exact h.roots.used x hx
  · have hy := hown y (hxy ▸ hx)
    have heq := hown x hx
    rw [hy, heq] at hxy
    rw [heq] at hx
    exact h.roots.inj x y hx hxy
  · have heq := hown x hne
    rw [heq] at hne ⊢
    exact h.roots.offData x hx hne
  · rw [hown x (hx ▸ hj₀)] at hx
    exact h.apart j hj hj₀ x hx
  · by_cases hjk : j = k
    · rw [hjk, Function.update_self]
      exact hfile
    · rw [Function.update_of_ne hjk]
      exact h.file j hj

theorem Vol.remove (h : Vol D K dat s) (hk₀ : k ≠ 0) : Vol D (K \ {k}) dat s where
  map := h.map
  mapFile := h.mapFile
  zero := ⟨h.zero, Ne.symm hk₀⟩
  roots :=
    { used := fun x hx => h.slot_used x.1.2.1 hx
      inj := fun x y hx hxy => by
        obtain ⟨h₁, h₂⟩ := h.slot_inj x.1.2.1 y.1.2.1 hx hxy
        exact Prod.ext (Subtype.ext h₁) h₂
      offData := fun x hx hne => h.slot_not_mem x.1.2.1 (.inl hx) hne }
  owned j hj := h.owned j hj.1
  offData j hj := h.offData j hj.1
  apart j hj hj₀ x := h.slot_apart hj.1 hj₀ x.1.2.1
  file j hj := h.file j hj.1

/-- Sector `k` is taken and serves no purpose yet. -/
structure Spare (D K : Set Nat) (dat : Nat → Sector) (s : FileSys) (k : Nat) : Prop where
  used : s.used k
  new : k ∉ K
  ne_zero : k ≠ 0
  offData : k ∉ D
  alone : ∀ j ∈ K, ∀ a, slotVal s.content (dat j) a ≠ k

/-- An inode without pointers in a spare sector. -/
theorem Vol.addInode (h : Vol D K dat s) (hk : Spare D K dat s k)
    (hnull : ∀ f a, slotVal f d a = 0) (hlen : inodeLength d = 0) :
    Vol D (insert k K) (Function.update dat k d) s := by
  have hne : ∀ j ∈ K, j ≠ k := fun j hj hjk => hk.new (hjk ▸ hj)
  -- Every pointer is one of the old inodes.
  have hold : ∀ x : ↥(insert k K) × Slot,
      own s.content (Function.update dat k d) (insert k K) x ≠ 0 →
      (x.1 : Nat) ∈ K ∧
        own s.content (Function.update dat k d) (insert k K) x =
          slotVal s.content (dat x.1) x.2 := by
    intro x hx
    unfold own at hx ⊢
    rcases x.1.2 with hxk | hxK
    · rw [hxk, Function.update_self] at hx
      exact absurd (hnull _ _) hx
    · exact ⟨hxK, by rw [Function.update_of_ne (hne _ hxK)]⟩
  refine ⟨h.map, ?_, .inr h.zero, ⟨fun x hx => ?_, fun x y hx hxy => ?_,
    fun x hidx hx => ?_⟩, fun j hj => ?_, fun j hj => ?_, fun j hj hj₀ x hx => ?_,
    fun j hj => ?_⟩
  · rw [Function.update_of_ne hk.ne_zero.symm]
    exact h.mapFile
  · obtain ⟨hmem, heq⟩ := hold x hx
    rw [heq] at hx ⊢
    exact h.slot_used hmem hx
  · obtain ⟨hmem, heq⟩ := hold x hx
    obtain ⟨hmem', heq'⟩ := hold y (hxy ▸ hx)
    rw [heq, heq'] at hxy
    rw [heq] at hx
    obtain ⟨h₁, h₂⟩ := h.slot_inj hmem hmem' hx hxy
    exact Prod.ext (Subtype.ext h₁) h₂
  · obtain ⟨hmem, heq⟩ := hold x hx
    rw [heq] at hx ⊢
    exact h.slot_not_mem hmem (.inl hidx) hx
  · rcases hj with rfl | hj
    · exact hk.used
    · exact h.owned j hj
  · rcases hj with rfl | hj
    · exact hk.offData
    · exact h.offData j hj
  · obtain ⟨hmem, heq⟩ := hold x (hx ▸ hj₀)
    rw [heq] at hx
    rcases hj with rfl | hj
    · exact hk.alone _ hmem _ hx
    · exact h.slot_apart hj hj₀ hmem hx
  · rcases hj with rfl | hj
    · rw [Function.update_self]
      refine ⟨Int.le_of_eq hlen.symm, by rw [hlen]; decide, ?_⟩
      have hnone : ∀ a, a ∉ inodeSlots (numSectors d) := by
        intro a ha
        have := (mem_inodeSlots.1 ha).2
        rw [numSectors, hlen] at this
        exact absurd this (Nat.not_lt_zero _)
      exact ⟨fun a ha => absurd ha (hnone a), fun a ha => absurd ha (hnone a),
        fun a ha => absurd ha (hnone a)⟩
    · rw [Function.update_of_ne (hne j hj)]
      exact h.file j hj

/-- A sector that no inode owns may be released. -/
theorem Vol.release (h : Vol D K dat s) (hk : Released D s k s') (hkK : k ∉ K)
    (hno : ∀ x, own s.content dat K x ≠ k) : Vol D K dat s' := by
  refine h.congr hk.ok (by rw [hk.mem]) (fun _ _ => by rw [hk.mem]) hk.size
    (fun j hj hu => (hk.used j).2 ⟨fun hjk => ?_, hu⟩) fun j hj a =>
      slotVal_of_index (fun b hb hne =>
        hk.content _ (h.slot_not_mem hj (.inl hb) hne)) a
  rcases hj with hj | ⟨x, hx⟩
  · exact hkK (hjk ▸ hj)
  · exact hno x (hx.trans hjk)

end Vol

/-! ## Reserving for one inode of a volume -/

section Reserve

variable {D K : Set Nat} {dat : Nat → Sector} {s s' : FileSys} {k : Nat}
  {d d' : Sector} {need : List Slot} {ok : Bool}

/-- The index blocks of the other inodes are not touched. -/
theorem Vol.slotVal_grow (h : Vol D K dat s) (hk : k ∈ K)
    (hd : slotVal s.content d = slotVal s.content (dat k))
    (hg : Grow D s s' IsIndex (slotVal s.content d) (slotVal s'.content d')) {j : Nat}
    (hj : j ∈ K) (hjk : j ≠ k) (a : Slot) :
    slotVal s'.content (dat j) a = slotVal s.content (dat j) a := by
  refine slotVal_of_index (fun b hb hne => hg.frame _ (h.slot_used hj hne)
    (h.slot_not_mem hj (.inl hb) hne) hne fun c _ hc => ?_) a
  rw [hd] at hc
  exact hjk (h.slot_inj hj hk hne hc.symm).1

theorem Vol.outcome (h : Vol D K dat s) (hk : k ∈ K)
    (hd : slotVal s.content d = slotVal s.content (dat k))
    (ho : Outcome D s s' IsIndex need ok (slotVal s.content d) (slotVal s'.content d'))
    {d'' : Sector} (hd'' : slotVal s'.content d'' = slotVal s'.content d') :
    Outcome D s s' (fun x : K × Slot => IsIndex x.2) (need.map (⟨k, hk⟩, ·)) ok
      (own s.content dat K) (own s'.content (Function.update dat k d'') K) := by
  refine Outcome.lift (fun a => ((⟨k, hk⟩, a) : K × Slot)) (fun _ => Iff.rfl)
    (fun a => congrFun hd a) (fun a => ?_) (fun x hx => ?_) h.roots ho
  · unfold own
    rw [Function.update_self, hd'']
  · have hxk : (x.1 : Nat) ≠ k := fun hxk =>
      hx x.2 (Prod.ext (Subtype.ext hxk) rfl)
    unfold own
    rw [Function.update_of_ne hxk]
    exact h.slotVal_grow hk hd ho.grow x.1.2 hxk x.2

theorem Vol.grow (h : Vol D K dat s) (hk : k ∈ K) (hk₀ : k ≠ 0)
    (hd : slotVal s.content d = slotVal s.content (dat k))
    (ho : Outcome D s s' IsIndex need ok (slotVal s.content d) (slotVal s'.content d'))
    {d'' : Sector} (hd'' : slotVal s'.content d'' = slotVal s'.content d')
    (hfile : FileOk s'.content s'.cache.size d'') :
    Vol D K (Function.update dat k d'') s' := by
  have hg := (h.outcome hk hd ho hd'').grow
  refine ⟨hg.ok, ?_, h.zero, hg.roots h.map h.roots, fun j hj => hg.mono j (h.owned j hj),
    h.offData, fun j hj hj₀ x hx => ?_, fun j hj => ?_⟩
  · rw [Function.update_of_ne (Ne.symm hk₀), hg.mem]
    exact h.mapFile
  · refine h.apart j hj hj₀ x ?_
    rw [← hx]
    exact (hg.eq_of_used (hx ▸ hj₀) (hx ▸ h.owned j hj)).symm
  · by_cases hjk : j = k
    · rw [hjk, Function.update_self]
      exact hfile
    · rw [Function.update_of_ne hjk, hg.size]
      exact (h.file j hj).congr rfl (h.slotVal_grow hk hd ho.grow hj hjk)

end Reserve

end SimpleShell.Fs
