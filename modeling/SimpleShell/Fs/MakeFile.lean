import SimpleShell.Fs.Remove

/-!
# The command `create`

`filesys_create` of a regular file, for any path: the root is opened, a sector
is taken for the inode, the inode is made and its name is added. A failure after
the first of these gives back the inode's sector and nothing else; the files
that were there are the same either way.
-/

namespace SimpleShell.Fs

open SimpleShell.Lib

section MakeFile

variable {D K : Set Nat} {dat dat₁ dat' : Nat → Sector} {s s₀ s₁ s₂ s' : FileSys}
  {c : Nat} {k d p : Nat} {d₁ d' : Sector} {name path : CString} {size : Int}

/-! ## Sectors that no inode has -/

/-- A sector that belongs to no inode may be released. -/
theorem Released.mounted (hr : Released D s k s') (h : Mounted D K dat s) (hk : k ∉ K)
    (hno : ∀ x, own s.content dat K x ≠ k) : Mounted D K dat s' := by
  have hvol := h.vol.release hr hk hno
  have hframed : Framed D s s' := fun v _ hD _ => hr.content v hD
  refine hframed.mounted h hr.ok hr.mem hr.size fun v hv hu => (hr.used v).2 ⟨?_, hu⟩
  rintro rfl
  rcases hv with hv | ⟨x, hx⟩
  · exact hk hv
  · exact hno x hx

/-- An inode that nobody has open may be forgotten. -/
theorem Mounted.forget (h : Mounted D K dat s) (hk₀ : k ≠ 0)
    (hno : ∀ p ∈ s.mem.openInodes, (s.inode p).sector ≠ k) :
    Mounted D (K \ {k}) dat s :=
  h.retable (.refl s) (h.vol.remove hk₀) rfl
    (fun q hq => ⟨hq, rfl, ⟨(h.opened q hq).2, hno q hq⟩, rfl⟩) h.nodup h.mapOpen
    (fun j hj hclosed => h.closed j hj.1 hclosed) fun j hj hj₀ => h.disk j hj.1 hj₀

/-! ## Success -/

/-- An entry more goes into the root directory when `taken` sectors are gone. -/
def RootFits (s : FileSys) (d : Sector) (bytes : List UInt8) (taken : Nat) : Prop :=
  FullDir bytes → (nextEnd bytes : Int) ≤ MAX_LENGTH ∧
    (missing (slotVal s.content d) (inodeSlots (bytesToSectors (nextEnd bytes)))).length +
      taken ≤ s.freeSectors

/-- `name` is there now, in sector `k`. -/
structure FileCreated (D K : Set Nat) (dat : Nat → Sector) (s : FileSys)
    (name : CString) (size : Int) (k : Nat) (dat' : Nat → Sector) (s' : FileSys) :
    Prop where
  room : 0 ≤ int32 size ∧ int32 size ≤ MAX_LENGTH
  sectors : (inodeSlots (bytesToSectors (int32 size))).length + 1 ≤ s.freeSectors
  slot : RootFits s (dat ROOT_DIR_SECTOR) (rootBytes s.content dat)
    ((inodeSlots (bytesToSectors (int32 size))).length + 1)
  new : k ∉ K
  mounted : Mounted D (insert k K) dat' s'
  sameOpen : SameOpen ROOT_DIR_SECTOR s s'
  valid : ValidName name
  absent : ∀ j, (name, j) ∉ listing (rootBytes s.content dat)
  listing : (listing (rootBytes s'.content dat')).Perm
    ((name, k) :: SimpleShell.Fs.listing (rootBytes s.content dat))
  parent : HasParent ROOT_DIR_SECTOR (rootBytes s'.content dat')
  same : ∀ j ∈ K, j ≠ 0 → j ≠ ROOT_DIR_SECTOR →
    SameFile s.content s'.content (dat j) (dat' j)
  rootDir : inodeIsDir (dat' ROOT_DIR_SECTOR) = inodeIsDir (dat ROOT_DIR_SECTOR)
  isDir : inodeIsDir (dat' k) = false
  content : fileContent s'.content (dat' k) = List.replicate (int32 size).toNat 0
  tidyNew : Tidy s'.content (dat' k)
  tidy : Tidy s.content (dat ROOT_DIR_SECTOR) →
    Tidy s'.content (dat' ROOT_DIR_SECTOR)
  exact : Exact K dat s → Exact (insert k K) dat' s'
  allocFailures : s'.allocFailures = s.allocFailures

theorem FileCreated.still (h : FileCreated D K dat s name size k dat₁ s₁)
    (hroot : ROOT_DIR_SECTOR ∈ K) (hstill : Still s₁ dat₁ s' dat')
    (hm : Mounted D (insert k K) dat' s') (hopen : SameOpen ROOT_DIR_SECTOR s₁ s') :
    FileCreated D K dat s name size k dat' s' := by
  have hsame : ∀ j ∈ insert k K, SameFile s₁.content s'.content (dat₁ j) (dat' j) :=
    fun j hj => hstill.sameFile h.mounted hj
  have hbytes : rootBytes s'.content dat' = rootBytes s₁.content dat₁ :=
    (hsame _ (.inr hroot)).content
  have hself := hsame k (.inl rfl)
  exact ⟨h.room, h.sectors, h.slot, h.new, hm, h.sameOpen.trans hopen, h.valid, h.absent,
    by rw [hbytes]; exact h.listing, by rw [hbytes]; exact h.parent,
    fun j hj hj₀ hj₁ => (h.same j hj hj₀ hj₁).trans (hsame j (.inr hj)),
    (hsame _ (.inr hroot)).isDir.trans h.rootDir, hself.isDir.trans h.isDir, hself.content.trans h.content, hself.tidy h.tidyNew,
    fun ht => (hsame _ (.inr hroot)).tidy (h.tidy ht),
    fun hx => hstill.exact (h.exact hx),
    hstill.disk.allocFailures.trans h.allocFailures⟩

theorem Created.root (h : Created D K dat s k size false d₁ s₁) (hm : Mounted D K dat s)
    (hroot : ROOT_DIR_SECTOR ∈ K) (hk : k ≠ ROOT_DIR_SECTOR) :
    rootBytes s₁.content (Function.update dat k d₁) = rootBytes s.content dat := by
  unfold rootBytes
  rw [Function.update_of_ne hk.symm]
  exact h.framed.fileContent hm.vol hroot (by decide)

/-- A new inode gets its name. -/
theorem FileCreated.of_added (hm : Mounted D K dat s) (hroot : ROOT_DIR_SECTOR ∈ K)
    (hroom : CanCreate s₀ size) (hc : Created D K dat s k size false d₁ s₁)
    (hp : Opened (Function.update dat k d₁) s₁ p ROOT_DIR_SECTOR)
    (hw : Wrote D (insert k K) (Function.update dat k d₁) s₁ p ROOT_DIR_SECTOR d' s')
    (ha : Added (insert k K) (Function.update dat k d₁) s₁ name k (rootBytes s.content dat)
      d' s') :
    FileCreated D K dat s name size k
      (Function.update (Function.update dat k d₁) ROOT_DIR_SECTOR d') s' := by
  have hne : ∀ j ∈ K, j ≠ k := fun j hj hjk => hc.new (hjk ▸ hj)
  have hk₁ : k ≠ ROOT_DIR_SECTOR := (hne _ hroot).symm
  have hk₀ : k ≠ 0 := (hne 0 hm.vol.zero).symm
  have hself : Function.update dat k d₁ k = d₁ := Function.update_self ..
  have hbytes : rootBytes s'.content
      (Function.update (Function.update dat k d₁) ROOT_DIR_SECTOR d') =
      fileContent s'.content d' := by
    rw [rootBytes, Function.update_self]
  have hsame := fun j hj hj₁ hj₀ =>
    hw.sameFile hc.mounted.vol (.inr hroot) (by decide) (j := j) hj hj₁ hj₀
  have hnew := hsame k (.inl rfl) hk₁ hk₀
  rw [hself] at hnew
  have hfree := hc.free
  refine ⟨⟨hroom.1, hroom.2.1⟩, by omega, fun hfull => ?_, hc.new,
    hw.mounted hc.mounted hp (by decide), ?_, ha.valid,
    ha.absent, by rw [hbytes]; exact ha.listing, by rw [hbytes]; exact ha.parent,
    fun j hj hj₀ hj₁ => ?_, ?_, hnew.isDir.trans hc.isDir, hnew.content.trans hc.content,
    hnew.tidy hc.tidy, fun ht => ?_, fun hx => ha.exact (hc.exact hx),
    ha.allocFailures.trans hc.allocFailures⟩
  · obtain ⟨-, hmax, hmiss⟩ := ha.room hfull
    rw [Function.update_of_ne hk₁.symm,
      missing_congr fun a _ => hc.framed.slotVal hm.vol hroot a] at hmiss
    exact ⟨hmax, by omega⟩
  · exact (SameOpen.of_mem hc.mem _).trans (hw.sameOpen hp.isOpen _)
  · have := hsame j (.inr hj) hj₁ hj₀
    rw [Function.update_of_ne (hne j hj)] at this
    exact (hc.framed.sameFile hm.vol hj hj₀).trans this
  · rw [Function.update_self]
    exact hw.isDir.trans (congrArg inodeIsDir (Function.update_of_ne hk₁.symm ..))
  · rw [Function.update_self]
    refine ha.tidy ?_
    rw [Function.update_of_ne hk₁.symm]
    exact (hc.framed.sameFile hm.vol hroot (by decide)).tidy ht

/-! ## Failure -/

/-- The files are what they were, though sectors may have been lost. -/
structure FileRefused (D K : Set Nat) (dat : Nat → Sector) (s : FileSys)
    (dat' : Nat → Sector) (s' : FileSys) : Prop where
  mounted : Mounted D K dat' s'
  sameOpen : SameOpen ROOT_DIR_SECTOR s s'
  root : rootBytes s'.content dat' = rootBytes s.content dat
  same : ∀ j ∈ K, j ≠ 0 → j ≠ ROOT_DIR_SECTOR →
    SameFile s.content s'.content (dat j) (dat' j)
  rootDir : inodeIsDir (dat' ROOT_DIR_SECTOR) = inodeIsDir (dat ROOT_DIR_SECTOR)
  used : ∀ j, s.used j → s'.used j
  allocFailures : s.allocFailures ≤ s'.allocFailures

/-- Why `filesys_create` did not make `name`, the root being open in state `s`. -/
inductive CreateFault (D K : Set Nat) (dat : Nat → Sector) (s : FileSys)
    (name : CString) (size : Int) (s' : FileSys) : Prop where
  /-- There is no sector for the inode. -/
  | full (hfree : s.freeSectors = 0) (hs' : s' = { s with allocFailures := s.allocFailures + 1 })
  /-- There is none for its data. -/
  | create (k : Nat) (s₁ s₂ : FileSys) (ha : Allocated D s k s₁) (hno : ¬ CanCreate s₁ size)
      (hn : NotCreated D K dat s s₁ size s₂) (hr : Released D s₂ k s')
  /-- The name is refused. -/
  | add (k p : Nat) (d₁ d' : Sector) (s₁ s₂ s₃ : FileSys) (ha : Allocated D s k s₁)
      (hroom : CanCreate s₁ size) (hc : Created D K dat s k size false d₁ s₂)
      (hp : Opened (Function.update dat k d₁) s₂ p ROOT_DIR_SECTOR)
      (hw : Wrote D (insert k K) (Function.update dat k d₁) s₂ p ROOT_DIR_SECTOR d' s₃)
      (hn : NotAdded (Function.update dat k d₁) s₂ name k (rootBytes s.content dat) d' s₃)
      (hr : Released D s₃ k s')

theorem FileRefused.still (h : FileRefused D K dat s dat₁ s₁) (hroot : ROOT_DIR_SECTOR ∈ K)
    (hstill : Still s₁ dat₁ s' dat') (hm : Mounted D K dat' s')
    (hopen : SameOpen ROOT_DIR_SECTOR s₁ s') : FileRefused D K dat s dat' s' := by
  have hsame : ∀ j ∈ K, SameFile s₁.content s'.content (dat₁ j) (dat' j) :=
    fun j hj => hstill.sameFile h.mounted hj
  exact ⟨hm, h.sameOpen.trans hopen, (hsame _ hroot).content.trans h.root,
    fun j hj hj₀ hj₁ => (h.same j hj hj₀ hj₁).trans (hsame j hj),
    (hsame _ hroot).isDir.trans h.rootDir, fun j hj => (hstill.used_iff j).2 (h.used j hj),
    h.allocFailures.trans_eq hstill.disk.allocFailures.symm⟩

theorem FileRefused.of_full (hm : Mounted D K dat s) :
    FileRefused D K dat s dat { s with allocFailures := s.allocFailures + 1 } :=
  ⟨hm.frame rfl rfl rfl rfl rfl rfl, fun _ _ _ => Iff.rfl, rfl, fun _ _ _ _ => .refl _ _,
    rfl, fun _ hj => hj, Nat.le_succ _⟩

theorem FileRefused.of_notCreated (hm : Mounted D K dat s) (hroot : ROOT_DIR_SECTOR ∈ K)
    (ha : Allocated D s k s₁) (hn : NotCreated D K dat s s₁ size s₂)
    (hr : Released D s₂ k s') : FileRefused D K dat s dat s' := by
  have hk := ha.not_mem hm
  have hframed : Framed D s s' := fun v hv hD hv₀ =>
    (hr.content v hD).trans (hn.framed v hv hD hv₀)
  have hno : ∀ x, own s₂.content dat K x ≠ k := by
    intro x hx
    have hk₀ := ha.ne_zero hm
    unfold own at hx
    rw [hn.framed.slotVal hm.vol x.1.2] at hx
    have hu := hm.vol.slot_used x.1.2 (a := x.2) (by rw [hx]; exact hk₀)
    rw [hx] at hu
    exact ha.free hu
  refine ⟨hr.mounted hn.mounted hk hno, SameOpen.of_mem (hr.mem.trans hn.mem) _,
    hframed.fileContent hm.vol hroot (by decide),
    fun j hj hj₀ _ => hframed.sameFile hm.vol hj hj₀, rfl, fun j hj => ?_, ?_⟩
  · refine (hr.used j).2 ⟨fun hjk => ha.free (hjk ▸ hj), ?_⟩
    exact hn.used j ((ha.used hm.vol.map j).2 (.inr hj))
  · rw [hr.allocFailures, ← ha.allocFailures]
    exact hn.allocFailures

theorem FileRefused.of_notAdded (hm : Mounted D K dat s) (hroot : ROOT_DIR_SECTOR ∈ K)
    (ha : Allocated D s k s₀) (hc : Created D K dat s k size false d₁ s₁)
    (hp : Opened (Function.update dat k d₁) s₁ p ROOT_DIR_SECTOR)
    (hw : Wrote D (insert k K) (Function.update dat k d₁) s₁ p ROOT_DIR_SECTOR d' s₂)
    (hn : NotAdded (Function.update dat k d₁) s₁ name k (rootBytes s.content dat) d' s₂)
    (hr : Released D s₂ k s') :
    FileRefused D K dat s (Function.update (Function.update dat k d₁) ROOT_DIR_SECTOR d')
      s' := by
  have hne : ∀ j ∈ K, j ≠ k := fun j hj hjk => hc.new (hjk ▸ hj)
  have hk₁ : k ≠ ROOT_DIR_SECTOR := (hne _ hroot).symm
  have hk₀ : k ≠ 0 := (hne 0 hm.vol.zero).symm
  have hm₂ := hw.mounted hc.mounted hp (by decide)
  have hsub : insert k K \ {k} = K := Set.insert_sdiff_self_of_notMem hc.new
  have hclosed : ∀ q ∈ s₂.mem.openInodes, (s₂.inode q).sector ≠ k := by
    intro q hq
    rw [hw.sector hp.isOpen, FileSys.inode_congr hc.mem]
    rw [hw.openInodes, hc.mem] at hq
    exact hne _ (hm.opened q hq).2
  have hm₃ := hm₂.forget hk₀ hclosed
  rw [hsub] at hm₃
  have hframed : Framed D s₂ s' := fun v _ hD _ => hr.content v hD
  have hm' := hr.mounted hm₃ hc.new fun x =>
    hm₂.vol.slot_apart (.inl rfl) hk₀ (.inr x.1.2)
  have hopen : SameOpen ROOT_DIR_SECTOR s s' :=
    ((SameOpen.of_mem hc.mem _).trans (hw.sameOpen hp.isOpen _)).trans
      (SameOpen.of_mem hr.mem _)
  refine ⟨hm', hopen, ?_, fun j hj hj₀ hj₁ => ?_, ?_, fun j hj => ?_, ?_⟩
  · have := hframed.fileContent hm₃.vol hroot (by decide)
    rw [rootBytes, this, Function.update_self]
    exact hn.content
  · have := hw.sameFile hc.mounted.vol (.inr hroot) (by decide) (.inr hj) hj₁ hj₀
    rw [Function.update_of_ne (hne j hj)] at this
    exact ((hc.framed.sameFile hm.vol hj hj₀).trans this).trans
      (hframed.sameFile hm₃.vol hj hj₀)
  · rw [Function.update_self]
    exact hw.isDir.trans (congrArg inodeIsDir (Function.update_of_ne hk₁.symm ..))
  · exact (hr.used j).2 ⟨fun hjk => ha.free (hjk ▸ hj), hw.mono j (hc.used j hj)⟩
  · rw [hr.allocFailures, ← hc.allocFailures]
    exact hw.allocFailures

theorem CreateFault.refused (hf : CreateFault D K dat s name size s')
    (hm : Mounted D K dat s) (hroot : ROOT_DIR_SECTOR ∈ K) :
    ∃ dat', FileRefused D K dat s dat' s' := by
  cases hf with
  | full _ hs' =>
      rw [hs']
      exact ⟨dat, .of_full hm⟩
  | create k s₁ s₂ ha _ hn hr => exact ⟨dat, .of_notCreated hm hroot ha hn hr⟩
  | add k p d₁ d' s₁ s₂ s₃ ha _ hc hp hw hn hr =>
      exact ⟨_, .of_notAdded hm hroot ha hc hp hw hn hr⟩

/-- Within its limits a fault is an allocation that failed. -/
theorem CreateFault.failed (hf : CreateFault D K dat s name size s')
    (h₀ : 0 ≤ int32 size) (hmax : int32 size ≤ MAX_LENGTH) (hvalid : ValidName name)
    (habs : ∀ j, (name, j) ∉ listing (rootBytes s.content dat))
    (hroot : (rootBytes s.content dat).length + ENTRY_SIZE ≤ MAX_LENGTH) :
    s.allocFailures < s'.allocFailures := by
  cases hf with
  | full _ hs' =>
      rw [hs']
      exact Nat.lt_succ_self _
  | create k s₁ s₂ ha _ hn hr =>
      rw [hr.allocFailures, ← ha.allocFailures]
      exact hn.failed h₀ hmax
  | add k p d₁ d' s₁ s₂ s₃ ha _ hc hp hw hn hr =>
      rw [hr.allocFailures, ← hc.allocFailures]
      rcases hn.cause with ⟨hbad, -⟩ | ⟨-, -, -, i, hi, hs⟩
      · rcases hbad with hbad | ⟨j, hj⟩
        · exact absurd hvalid hbad
        · exact absurd hj (habs j)
      · refine hs.failed ?_
        rw [ByteBlock.length_toList]
        have := Nat.div_mul_le_self (rootBytes s.content dat).length ENTRY_SIZE
        simp only [ENTRY_SIZE] at hi hroot this ⊢
        omega

/-- A fault shows in no table. -/
theorem CreateFault.tables (hf : CreateFault D K dat s name size s') :
    SameTables s s' ∧ SameOpen 0 s s' := by
  cases hf with
  | full _ hs' =>
      rw [hs']
      exact ⟨.of_mem rfl, SameOpen.of_mem rfl 0⟩
  | create k s₁ s₂ _ _ hn hr =>
      have hmem := hr.mem.trans hn.mem
      exact ⟨.of_mem hmem, SameOpen.of_mem hmem 0⟩
  | add k p d₁ d' s₁ s₂ s₃ _ _ hc hp hw _ hr =>
      exact ⟨((SameTables.of_mem hc.mem).trans hw.tables).trans (.of_mem hr.mem),
        ((SameOpen.of_mem hc.mem 0).trans (hw.sameOpen hp.isOpen 0)).trans
          (SameOpen.of_mem hr.mem 0)⟩

/-! ## The function -/

/-- The new inode and its name. -/
def makeInode (s : FileSys) (d : Nat) (fileName : CString) (inodeSector : Nat)
    (initialSize : Int) : Bool × FileSys :=
  let c := inodeCreate s inodeSector initialSize false
  if c.1 then dirAdd c.2 d fileName inodeSector false else (false, c.2)

/-- Of a failure the inode's sector is given back. -/
def keepInode (r : Bool × FileSys) (inodeSector : Nat) : FileSys :=
  if r.1 = false ∧ inodeSector ≠ 0 then freeMapRelease r.2 inodeSector 1 else r.2

theorem makeInode_false {t : Bool × FileSys}
    (hc : inodeCreate s k size false = t) (ht : t.1 = false) :
    makeInode s d name k size = (false, t.2) := by
  unfold makeInode
  rw [hc]
  dsimp only
  rw [ht]
  rfl

theorem makeInode_true {n : CString} {t : Bool × FileSys} (hc : inodeCreate s k size false = t)
    (ht : t.1 = true) : makeInode s d n k size = dirAdd t.2 d n k false := by
  unfold makeInode
  rw [hc]
  dsimp only
  rw [ht]
  rfl

theorem filesysCreate_none {z : Int} {p : CString} {d : Nat × FileSys} (hd : dirOpenRoot s = d)
    (ha : allocSector d.2 = (none, s₁)) :
    filesysCreate s p z false = (false, dirClose s₁ d.1) := by
  unfold filesysCreate
  rw [hd]
  dsimp only
  rw [ha]

theorem filesysCreate_some {d : Nat × FileSys} {r : Bool × FileSys}
    (hd : dirOpenRoot s = d) (ha : allocSector d.2 = (some k, s₁))
    (hr : makeInode s₁ d.1 (splitPathFilename path).2 k size = r) :
    filesysCreate s path size false = (r.1, dirClose (keepInode r k) d.1) := by
  unfold makeInode at hr
  unfold filesysCreate
  rw [hd]
  dsimp only
  rw [ha]
  dsimp only at hr ⊢
  rw [hr]
  rfl

theorem Allocated.sector_lt (ha : Allocated D s k s') (hm : Mounted D K dat s) :
    k < 2 ^ 32 := by
  have := ha.lt
  have := hm.vol.map.cnt
  have := s.cache.size_le_noSector
  simp only [NO_SECTOR] at this
  omega

theorem makeInode_spec {z : Int} {c : Int} (hm : Mounted D K dat s) (hroot : ROOT_DIR_SECTOR ∈ K)
    (hparent : HasParent ROOT_DIR_SECTOR (rootBytes s.content dat)) (hd : Held dat s d p c)
    (h₀ : (0 : UInt8) ∉ name) (ha : Allocated D s k s₁) :
    ∃ r s', makeInode s₁ d name k z = r ∧ keepInode r k = s' ∧
      SameTables s s' ∧ SameOpen 0 s s' ∧
      ((r.1 = true ∧ ∃ dat', FileCreated D K dat s name z k dat' s') ∨
        (r.1 = false ∧ CreateFault D K dat s name z s')) := by
  have hk₀ := ha.ne_zero hm
  have hk₁ : k ≠ ROOT_DIR_SECTOR := fun hk => ha.not_mem hm (hk ▸ hroot)
  obtain ⟨htrue, hfalse⟩ := inodeCreate_spec (l := z) (b := false) hm ha
  generalize hcreate : inodeCreate s₁ k z false = t at *
  have hdrop : ∀ s₂, keepInode (false, s₂) k = freeMapRelease s₂ k 1 :=
    fun s₂ => if_pos ⟨rfl, hk₀⟩
  have hkeep : ∀ s₂, keepInode (true, s₂) k = s₂ := fun s₂ => if_neg (by simp)
  cases ht : t.1 with
  | false =>
      obtain ⟨hno, hn⟩ := hfalse ht
      have hoff : OffMap t.2 k := hn.mounted.vol.offMap fun a heq => by
        rw [hn.framed.slotVal hm.vol hm.vol.zero a] at heq
        have hu := hm.vol.slot_used hm.vol.zero (a := a) (by rw [heq]; exact hk₀)
        rw [heq] at hu
        exact ha.free hu
      have hrel := freeMapRelease_spec hn.mounted.vol.map hk₀ hk₁ hoff
      have hlast := hdrop t.2
      generalize freeMapRelease t.2 k 1 = s' at *
      have hf : CreateFault D K dat s name z s' := .create k s₁ t.2 ha hno hn hrel
      exact ⟨_, s', makeInode_false hcreate ht, hlast, hf.tables.1, hf.tables.2,
        .inr ⟨rfl, hf⟩⟩
  | true =>
      obtain ⟨hroom, d₁, hc⟩ := htrue ht
      have hd₁ : Held (Function.update dat k d₁) t.2 d p c :=
        hd.congr hc.mounted (by rw [hc.mem]) (by rw [hc.mem])
          (by rw [hc.mem, FileSys.inode_congr hc.mem]
              exact ⟨hd.opened.mem, hd.opened.isOpen.sector⟩)
      have hbytes := hc.root hm hroot hk₁
      obtain ⟨d', s₃, hw, hcase⟩ := dirAdd_spec (k := k) hc.mounted (.inr hroot) hd₁ hbytes
        hparent h₀ (ha.sector_lt hm)
      have hmake := makeInode_true (d := d) (n := name) hcreate ht
      rcases hcase with ⟨heq, hadded⟩ | ⟨heq, hno⟩
      · exact ⟨_, s₃, hmake.trans heq, hkeep s₃, (SameTables.of_mem hc.mem).trans hw.tables,
          (SameOpen.of_mem hc.mem 0).trans (hw.sameOpen hd₁.opened.isOpen 0),
          .inl ⟨rfl, _, .of_added hm hroot hroom hc hd₁.opened hw hadded⟩⟩
      · have hm' := hw.mounted hc.mounted hd₁.opened (by decide)
        have hrel := freeMapRelease_spec hm'.vol.map hk₀ hk₁
          (hm'.vol.offMap_inode (.inl rfl) hk₀)
        have hlast := hdrop s₃
        generalize freeMapRelease s₃ k 1 = s' at *
        have hf : CreateFault D K dat s name z s' :=
          .add k p d₁ d' s₁ t.2 s₃ ha hroom hc hd₁.opened hw hno hrel
        exact ⟨_, s', hmake.trans heq, hlast, hf.tables.1, hf.tables.2, .inr ⟨rfl, hf⟩⟩

/-- `filesys_create`: the root is opened, in state `s₁`, the file is made or not,
and the root is closed again. -/
theorem filesysCreate_spec {z : Int} {b : CString} (hs : Session D K dat s c)
    (hname : (splitPathFilename b).2 = name) (h₀ : (0 : UInt8) ∉ name) :
    let r := filesysCreate s b z false
    ∃ dat', RootHeld dat' r.2 c ∧ SameRest s r.2 ∧ SameHandle s r.2 ∧
      ((r.1 = true ∧ ∃ k, FileCreated D K dat s name z k dat' r.2) ∨
        (r.1 = false ∧ FileRefused D K dat s dat' r.2 ∧
          ∃ s₁ s₂, SameDisk s s₁ ∧ Mounted D K dat s₁ ∧
            CreateFault D K dat s₁ name z s₂ ∧ SameDisk s₂ r.2)) := by
  obtain ⟨hm, ⟨p, hd⟩, hdisk, hrest, hopen, -⟩ :=
    dirOpenRoot_spec hs.mounted hs.root_mem hs.held
  have hhandle := dirOpenRoot_sameHandle hs.held
  obtain ⟨o, ho⟩ : ∃ o, dirOpenRoot s = o := ⟨_, rfl⟩
  rw [ho] at hm hd hdisk hrest hopen hhandle
  have hstill : Still s dat o.2 dat := .of_disk hdisk dat
  have hroot := hstill.rootBytes hs
  have hparent := (hstill.names hs).parent
  -- The root is closed, whatever was done before.
  have hclose : ∀ (dat₁ : Nat → Sector) (K₁ : Set Nat) (s₂ : FileSys), Mounted D K₁ dat₁ s₂ →
      SameTables o.2 s₂ → SameOpen 0 o.2 s₂ →
      ∃ dat', Still s₂ dat₁ (dirClose s₂ o.1) dat' ∧ Mounted D K₁ dat' (dirClose s₂ o.1) ∧
        RootHeld dat' (dirClose s₂ o.1) c ∧ SameRest s (dirClose s₂ o.1) ∧
        SameHandle s (dirClose s₂ o.1) ∧ SameOpen ROOT_DIR_SECTOR s₂ (dirClose s₂ o.1) := by
    intro dat₁ K₁ s₂ hm₂ htab hsame
    have hd₂ : Held dat₁ s₂ o.1 p (c + 1) := hd.congr hm₂ htab.cwd htab.dirs
      ((hsame p _ (by decide)).2 ⟨hd.opened.mem, hd.opened.isOpen.sector⟩)
    obtain ⟨dat', hrev, hm', hheld, hdisk', hrest', hopen'⟩ := dirClose_spec hm₂ hd₂
    exact ⟨dat', ⟨hdisk', hrev⟩, hm', hheld, (hrest.trans htab.rest).trans hrest',
      hs.held.sameHandle (hhandle.trans (.of_dirs htab.cwd htab.dirs)) hd₂, hopen'⟩
  have hfault : ∀ s₂, CreateFault D K dat o.2 name z s₂ →
      ∃ dat', RootHeld dat' (dirClose s₂ o.1) c ∧ SameRest s (dirClose s₂ o.1) ∧
        SameHandle s (dirClose s₂ o.1) ∧ FileRefused D K dat s dat' (dirClose s₂ o.1) ∧
        SameDisk s₂ (dirClose s₂ o.1) := by
    intro s₂ hf
    obtain ⟨dat₁, hrefused⟩ := hf.refused hm hs.root_mem
    obtain ⟨dat', hstill', hm', hheld, hrest', hhandle', hopen'⟩ :=
      hclose dat₁ K s₂ hrefused.mounted hf.tables.1 hf.tables.2
    have href := hrefused.still hs.root_mem hstill' hm' hopen'
    refine ⟨dat', hheld, hrest', hhandle', ⟨hm', hopen.trans href.sameOpen,
      href.root.trans hroot, fun j hj hj₀ hj₁ => ?_, href.rootDir, fun j hj => ?_, ?_⟩,
      hstill'.disk⟩
    · have := href.same j hj hj₀ hj₁
      rwa [hdisk.content] at this
    · exact href.used j ((hstill.used_iff j).2 hj)
    · rw [← hdisk.allocFailures]
      exact href.allocFailures
  rcases Nat.eq_zero_or_pos o.2.freeSectors with hfull | hfree
  · have heq := filesysCreate_none (p := b) (z := z) ho (allocSector_full hfull)
    have hf : CreateFault D K dat o.2 name z _ := .full hfull rfl
    obtain ⟨dat', hheld, hrest', hhandle', href, hdisk'⟩ := hfault _ hf
    rw [heq]
    exact ⟨dat', hheld, hrest', hhandle', .inr ⟨rfl, href, _, _, hdisk, hm, hf, hdisk'⟩⟩
  · obtain ⟨k, s₁, halloc, ha⟩ := allocSector_free hm.vol.map (Nat.ne_of_gt hfree)
    obtain ⟨r, s₂, hr, hs₂, htab, hsame, hcase⟩ :=
      makeInode_spec (z := z) hm hs.root_mem hparent hd h₀ ha
    rw [← hname] at hr
    have heq := filesysCreate_some ho halloc hr
    rw [hs₂] at heq
    rw [heq]
    rcases hcase with ⟨hok, dat₁, hmade⟩ | ⟨hok, hf⟩
    · obtain ⟨dat', hstill', hm', hheld, hrest', hhandle', hopen'⟩ :=
        hclose dat₁ _ s₂ hmade.mounted htab hsame
      have hmade' := hmade.still hs.root_mem hstill' hm' hopen'
      refine ⟨dat', hheld, hrest', hhandle', .inl ⟨hok, k, ?_⟩⟩
      have hsectors : o.2.freeSectors = s.freeSectors := by
        unfold FileSys.freeSectors
        rw [hdisk.freeMap]
      obtain ⟨hroom, hfit, hslot, hnew, hm'', hopen'', hvalid, habs, hlist, hpar, hfiles,
        hrootDir, hdir, hcont, htidyNew, htidy, hexact, hfail⟩ := hmade'
      unfold RootFits at hslot
      rw [hsectors] at hfit hslot
      rw [hroot] at habs hlist hslot
      rw [hdisk.content] at hfiles htidy hslot
      exact ⟨hroom, hfit, hslot, hnew, hm'', hopen.trans hopen'', hvalid, habs, hlist, hpar,
        hfiles, hrootDir, hdir,
        hcont, htidyNew, htidy, fun hx => hexact (hstill.exact hx),
        hfail.trans hdisk.allocFailures⟩
    · obtain ⟨dat', hheld, hrest', hhandle', href, hdisk'⟩ := hfault _ hf
      exact ⟨dat', hheld, hrest', hhandle', .inr ⟨hok, href, _, _, hdisk, hm, hf, hdisk'⟩⟩

/-! ## In a session -/

/-- A new name joins those that are listed. -/
theorem Names.insert {f f' : Nat → Sector} (h : Names K f dat) (hk : k ∉ K) (hk₀ : k ≠ 0)
    (hname : PlainName name) (habs : ∀ j, (name, j) ∉ listing (rootBytes f dat))
    (hp : (listing (rootBytes f' dat')).Perm ((name, k) :: listing (rootBytes f dat)))
    (hparent : HasParent ROOT_DIR_SECTOR (rootBytes f' dat'))
    (hrootDir : inodeIsDir (dat' ROOT_DIR_SECTOR) = inodeIsDir (dat ROOT_DIR_SECTOR))
    (hnew : inodeIsDir (dat' k) = false)
    (hdir : ∀ j ∈ K, j ≠ 0 → j ≠ ROOT_DIR_SECTOR →
      inodeIsDir (dat' j) = inodeIsDir (dat j)) : Names (insert k K) f' dat' := by
  have hk₁ : k ≠ ROOT_DIR_SECTOR := fun heq => hk (heq ▸ h.root)
  have hmem : ∀ n j, (n, j) ∈ listing (rootBytes f' dat') →
      (n, j) = (name, k) ∨ (n, j) ∈ listing (rootBytes f dat) := fun n j hj =>
    List.mem_cons.1 (hp.subset hj)
  refine ⟨.inr h.root, fun j hj => ?_, fun n j hj => ?_, fun n j hj => ?_,
    fun n j hj => ?_, (SlotTable.keyed_cons.2 ⟨habs, h.keyed⟩).perm hp, ?_, hparent,
    hrootDir.trans h.rootDir⟩
  · rcases hj with rfl | hj
    · exact .inr (.inr ⟨name, hp.symm.subset List.mem_cons_self⟩)
    · rcases h.mem j hj with hj₀ | hj₁ | ⟨n, hn⟩
      · exact .inl hj₀
      · exact .inr (.inl hj₁)
      · exact .inr (.inr ⟨n, hp.symm.subset (List.mem_cons_of_mem _ hn)⟩)
  · rcases hmem n j hj with heq | hj
    · exact .inl (congrArg Prod.snd heq)
    · exact .inr (h.listed n j hj)
  · rcases hmem n j hj with heq | hj
    · obtain ⟨-, rfl⟩ := Prod.mk.inj heq
      exact ⟨hk₀, hk₁, hnew⟩
    · obtain ⟨hj₀, hj₁, hreg⟩ := h.file n j hj
      exact ⟨hj₀, hj₁, (hdir j (h.listed n j hj) hj₀ hj₁).trans hreg⟩
  · rcases hmem n j hj with heq | hj
    · obtain ⟨rfl, -⟩ := Prod.mk.inj heq
      exact hname
    · exact h.plain n j hj
  · rw [(hp.map Prod.snd).nodup_iff, List.map_cons, List.nodup_cons]
    refine ⟨fun hmem => ?_, h.sectors⟩
    obtain ⟨⟨n, j⟩, hj, heq⟩ := List.mem_map.1 hmem
    subst heq
    exact hk (h.listed n _ hj)

/-- The table and the open inodes stay as they are while the root changes. -/
theorem Session.relist {K' : Set Nat} (hs : Session D K dat s c) (hm : Mounted D K' dat' s')
    (hheld : RootHeld dat' s' c) (hrest : SameRest s s')
    (hopen : SameOpen ROOT_DIR_SECTOR s s') (hnames : Names K' s'.content dat')
    (hsub : ∀ n k, (n, k) ∈ listing (rootBytes s.content dat) →
      (n, k) ∈ listing (rootBytes s'.content dat')) : Session D K' dat' s' c := by
  refine ⟨hm, hheld, hnames, by rw [hrest.fileTable]; exact hs.keyed, fun n g hg => ?_,
    fun q hq hq₀ hq₁ => ?_, hrest.badCloses.trans hs.closes⟩
  · rw [hrest.fileTable] at hg
    obtain ⟨hdeny, j, hj, ho⟩ := hs.handle n g hg
    exact ⟨hdeny, j, hsub n j hj, (hopen _ _ (hs.names.file _ _ hj).2.1).2 ho⟩
  · obtain ⟨hq', hsec⟩ := (hopen q _ hq₁).1 ⟨hq, rfl⟩
    obtain ⟨n, g, hg, hgq⟩ := hs.covered q hq' (hsec ▸ hq₀) (hsec ▸ hq₁)
    exact ⟨n, g, by rw [hrest.fileTable]; exact hg, hgq⟩

theorem FileCreated.session (h : FileCreated D K dat s name size k dat' s')
    (hs : Session D K dat s c) (hname : PlainName name) (hheld : RootHeld dat' s' c)
    (hrest : SameRest s s') : Session D (insert k K) dat' s' c := by
  have hk₀ : k ≠ 0 := fun heq => h.new (heq ▸ hs.mounted.vol.zero)
  exact hs.relist h.mounted hheld hrest h.sameOpen
    (hs.names.insert h.new hk₀ hname h.absent h.listing h.parent h.rootDir h.isDir
      fun j hj hj₀ hj₁ => (h.same j hj hj₀ hj₁).isDir)
    fun n j hj => h.listing.symm.subset (List.mem_cons_of_mem _ hj)

theorem FileRefused.session (h : FileRefused D K dat s dat' s') (hs : Session D K dat s c)
    (hheld : RootHeld dat' s' c) (hrest : SameRest s s') : Session D K dat' s' c :=
  hs.relist h.mounted hheld hrest h.sameOpen
    (hs.names.congr h.root fun j hj hj₀ => by
      by_cases hj₁ : j = ROOT_DIR_SECTOR
      · rw [hj₁]
        exact h.rootDir
      · exact (h.same j hj hj₀ hj₁).isDir)
    fun n j hj => by rw [h.root]; exact hj

theorem fsutilCreate_spec (hs : Session D K dat s c) (hname : PlainName name) (size : Int) :
    let r := fsutilCreate s name size
    ∃ dat', r.2.mem.fileTable = s.mem.fileTable ∧ SameHandle s r.2 ∧
      ((r.1 = true ∧ ∃ k, FileCreated D K dat s name size k dat' r.2 ∧
          Session D (insert k K) dat' r.2 c) ∨
        (r.1 = false ∧ FileRefused D K dat s dat' r.2 ∧ Session D K dat' r.2 c ∧
          ∃ s₁ s₂, SameDisk s s₁ ∧ Mounted D K dat s₁ ∧
            CreateFault D K dat s₁ name size s₂ ∧ SameDisk s₂ r.2)) := by
  have hlen : ¬ (name.length = 0 ∨ 255 ≤ name.length) := by
    have hne : name.length ≠ 0 := fun h => hname.nonempty (List.length_eq_zero_iff.1 h)
    have := hname.length
    simp only [NAME_MAX] at this
    omega
  unfold fsutilCreate
  rw [if_neg hlen]
  obtain ⟨dat', hheld, hrest, hhandle, hcase⟩ := filesysCreate_spec (b := name)
    (z := size) hs (by rw [hname.splitPathFilename]) hname.noNul
  refine ⟨dat', hrest.fileTable, hhandle, ?_⟩
  rcases hcase with ⟨hret, k, hmade⟩ | ⟨hret, href, hfault⟩
  · exact .inl ⟨hret, k, hmade, hmade.session hs hname hheld hrest⟩
  · exact .inr ⟨hret, href, href.session hs hheld hrest, hfault⟩

end MakeFile

end SimpleShell.Fs
