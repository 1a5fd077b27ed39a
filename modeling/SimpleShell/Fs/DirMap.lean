import SimpleShell.Fs.Readdir
import SimpleShell.Fs.Reachable

/-!
# A directory as a map

`dir_add`, `dir_remove`, `lookup` and `dir_readdir` on any directory that
`dir_create` has made, seen as a map from names to sectors. `OnDir` is a handle on
such a directory. A successful call writes one entry, that of its name; the first
entry, the parent's, is in use from the start, and no call takes its slot.
-/

namespace SimpleShell.Fs

open SimpleShell.Lib

/-- A handle `d` on the directory in sector `r`, whose inode is open at `p`. -/
structure OnDir (D K : Set Nat) (dat : Nat → Sector) (s : FileSys) (r d p : Nat) : Prop where
  mounted : Mounted D K dat s
  root : ROOT_DIR_SECTOR ∈ K
  mem : r ∈ K
  ne : r ≠ 0
  live : s.mem.dirs.get? d = some (s.dir d)
  inode : (s.dir d).inode = p
  opened : Opened dat s p r

section OnDir

variable {D K : Set Nat} {dat dat' : Nat → Sector} {s s₁ s' : FileSys} {r d p j k : Nat}
  {name : CString}

theorem OnDir.bytes (h : OnDir D K dat s r d p) :
    s.bytes r = fileContent s.content (dat r) := h.mounted.bytes h.mem

theorem OnDir.data (h : OnDir D K dat s r d p) : (s.inode p).data = dat r :=
  h.opened.isOpen.data

theorem OnDir.ok (h : OnDir D K dat s r d p) :
    FileOk s.content s.cache.size (s.inode p).data := by
  rw [h.data]
  exact h.mounted.vol.file r h.mem

theorem OnDir.content (h : OnDir D K dat s r d p) :
    fileContent s.content (s.inode p).data = s.bytes r := by
  rw [h.data, h.bytes]

theorem OnDir.reads (h : OnDir D K dat s r d p) : Reads s d p (s.bytes r) :=
  ⟨h.live, h.inode, h.ok, h.content⟩

theorem OnDir.length (h : OnDir D K dat s r d p) :
    (s.bytes r).length = (inodeLength (dat r)).toNat := by
  rw [h.bytes, length_fileContent]

/-- The handle after a step that leaves the handles and the open inode of the
directory alone. -/
theorem OnDir.step {K' : Set Nat} (h : OnDir D K dat s r d p) (hm : Mounted D K' dat' s')
    (hroot : ROOT_DIR_SECTOR ∈ K') (hdirs : s'.mem.dirs = s.mem.dirs)
    (hopen : Opened dat' s' p r) : OnDir D K' dat' s' r d p := by
  have hdir := FileSys.dir_congr hdirs d
  refine ⟨hm, hroot, hm.opened_mem hopen, h.ne, ?_, ?_, hopen⟩
  · rw [hdirs, hdir]
    exact h.live
  · rw [hdir]
    exact h.inode

theorem OnDir.readOnly (h : OnDir D K dat s r d p) (hro : ReadOnly s s₁) :
    OnDir D K dat s₁ r d p :=
  h.step (hro.mounted h.mounted) h.root (by rw [hro.mem]) (hro.opened h.opened)

theorem OnDir.readOnly_bytes (h : OnDir D K dat s r d p) (hro : ReadOnly s s₁) :
    s₁.bytes r = s.bytes r := by
  rw [h.bytes, (h.readOnly hro).bytes, hro.disk.content]

theorem OnDir.wrote {d' : Sector} (h : OnDir D K dat s r d p)
    (hw : Wrote D K dat s p r d' s') : OnDir D K (Function.update dat r d') s' r d p := by
  have hm := hw.mounted h.mounted h.opened h.ne
  exact h.step hm h.root hw.tables.dirs
    ((hw.sameOpen h.opened.isOpen 0).opened hm h.opened h.ne)

/-- `dir_remove` opens the inode it removes. -/
theorem OnDir.openInode (h : OnDir D K dat s r d p) (hk : k ∈ K) (hkr : k ≠ r) :
    OnDir D K dat (inodeOpen s k).2 r d p := by
  obtain ⟨hm, -, -, htab, -, -⟩ := inodeOpen_spec h.mounted hk
  exact h.step hm h.root htab.dirs
    ((inodeOpen_sameOpen h.mounted hk).opened hm h.opened hkr.symm)

/-! ## Adding an entry -/

/-- There is a free entry, or the file can be made longer by one. -/
def RoomToAdd (s : FileSys) (r : Nat) : Prop :=
  FullDir (s.bytes r) → CanExtend s (s.inodeData r) (nextEnd (s.bytes r))

theorem addEntry_at (h : OnDir D K dat s r d p) (hroom : RoomToAdd s r)
    (hparent : HasParent j (s.bytes r)) (name : CString) (k : Nat) :
    ∃ i d' s', Wrote D K dat s p r d' s' ∧ addEntry s d name k false = (true, s') ∧
      (i + 1 = (s.bytes r).length / ENTRY_SIZE ∨
        ∃ x, (dirEntries (s.bytes r))[i + 1]? = some x ∧ x.inUse = false) ∧
      fileContent s'.content d' =
        overwrite 0 (s.bytes r) (ENTRY_SIZE * (i + 1)) (newEntry name k).toList := by
  rw [addEntry_eq, h.inode]
  have hro := readOnly_freeSlot s p
  obtain ⟨j, hj, hfree, hfull⟩ := freeSlot_fst h.ok h.content
  generalize freeSlot s p = f at hro hj
  have h₁ := h.readOnly hro
  -- Slot 0 is the parent's.
  obtain ⟨x, hx, huse, -⟩ := hparent
  have hpos := (getElem?_dirEntries.1 hx).1
  obtain ⟨i, rfl⟩ : ∃ i, j = i + 1 := by
    rcases Nat.eq_zero_or_pos j with rfl | hj₀
    · rcases hfree with heq | ⟨y, hy, hno⟩
      · omega
      · rw [hx] at hy
        rw [← Option.some.inj hy, huse] at hno
        exact Bool.noConfusion hno
    · exact ⟨j - 1, by omega⟩
  have hle : i + 1 ≤ (s.bytes r).length / ENTRY_SIZE := by
    rcases hfree with heq | ⟨y, hy, -⟩
    · omega
    · exact Nat.le_of_lt (getElem?_dirEntries.1 hy).1
  have hlen := h.length
  have hnonneg := (h.mounted.vol.file r h.mem).nonneg
  have ho : ((ENTRY_SIZE * (i + 1) : Nat) : Int) ≤ inodeLength (dat r) := by
    simp only [ENTRY_SIZE] at hle ⊢
    omega
  obtain ⟨d', s', hw, hcase⟩ := writeEntry_spec (e := newEntry name k)
    h₁.mounted.vol h₁.opened.isOpen h.mem h.ne ho
  dsimp only
  rw [h₁.inode, hj]
  rcases hcase with ⟨heq, hs⟩ | ⟨-, hs⟩
  · refine ⟨i, d', s', hro.wrote hw, heq, hfree, ?_⟩
    rw [hs.content, hro.disk.content, h.bytes]
  · -- A write that fails would have to extend the file, and it can.
    exfalso
    have hs := hro.unstored hs
    have hpast := hs.past
    rw [ByteBlock.length_toList] at hpast
    have hend : i + 1 = (s.bytes r).length / ENTRY_SIZE := by
      rcases hfree with heq | ⟨y, hy, -⟩
      · exact heq
      · have hlt := (getElem?_dirEntries.1 hy).1
        simp only [ENTRY_SIZE] at hlt hpast ⊢
        omega
    have hcan := hroom (hfull.1 hend)
    rw [h.mounted.inodeData h.mem, nextEnd, ← hend, Nat.mul_succ] at hcan
    refine hs.full ?_
    rw [ByteBlock.length_toList]
    exact hcan

/-- `dir_add` of a name that is not there. -/
theorem dirAdd_absent (h : OnDir D K dat s r d p) (hroom : RoomToAdd s r)
    (hparent : HasParent j (s.bytes r)) (hvalid : ValidName name) (k : Nat)
    (habs : ∀ j, (name, j) ∉ listing (s.bytes r)) :
    ∃ i d' s', Wrote D K dat s p r d' s' ∧ dirAdd s d name k false = (true, s') ∧
      (i + 1 = (s.bytes r).length / ENTRY_SIZE ∨
        ∃ x, (dirEntries (s.bytes r))[i + 1]? = some x ∧ x.inUse = false) ∧
      fileContent s'.content d' =
        overwrite 0 (s.bytes r) (ENTRY_SIZE * (i + 1)) (newEntry name k).toList := by
  have hro := readOnly_lookup s d name
  have hnone := (lookup_none (d := d) (n := name) h.inode h.ok h.content).2 habs
  unfold dirAdd
  rw [if_neg (by rintro (hnil | hlen); exacts [hvalid.1 hnil, Nat.not_lt.2 hvalid.2 hlen])]
  generalize lookup s d name = t at hro hnone
  have h₁ := h.readOnly hro
  have hbytes := h.readOnly_bytes hro
  have hroom₁ : RoomToAdd t.2 r := by
    unfold RoomToAdd at hroom ⊢
    rw [hbytes, h₁.mounted.inodeData h.mem, hro.canExtend_iff]
    rw [h.mounted.inodeData h.mem] at hroom
    exact hroom
  obtain ⟨i, d', s', hw, heq, hfree, hcont⟩ :=
    addEntry_at h₁ hroom₁ (by rw [hbytes]; exact hparent) name k
  rw [hbytes] at hfree hcont
  refine ⟨i, d', s', hro.wrote hw, ?_, hfree, hcont⟩
  dsimp only
  rw [hnone]
  exact heq

/-- And of one that is. -/
theorem dirAdd_present (h : OnDir D K dat s r d p) (hvalid : ValidName name) (k : Nat) {j : Nat}
    (hmem : (name, j) ∈ listing (s.bytes r)) :
    ∃ s', ReadOnly s s' ∧ dirAdd s d name k false = (false, s') := by
  have hro := readOnly_lookup s d name
  have hnone := lookup_none (d := d) (n := name) h.inode h.ok h.content
  unfold dirAdd
  rw [if_neg (by rintro (hnil | hlen); exacts [hvalid.1 hnil, Nat.not_lt.2 hvalid.2 hlen])]
  generalize lookup s d name = t at hro hnone
  refine ⟨t.2, hro, ?_⟩
  cases ht : t.1 with
  | none => exact absurd hmem (hnone.1 ht j)
  | some e =>
      dsimp only
      rw [ht]
      rfl

/-! ## Removing one -/

theorem dirRemove_absent_at (h : OnDir D K dat s r d p)
    (habs : ∀ j, (name, j) ∉ listing (s.bytes r)) :
    ∃ s', ReadOnly s s' ∧ dirRemove s d name = (false, s') := by
  have hro := readOnly_lookup s d name
  have hnone := (lookup_none (d := d) (n := name) h.inode h.ok h.content).2 habs
  unfold dirRemove
  generalize lookup s d name = t at hro hnone
  refine ⟨t.2, hro, ?_⟩
  dsimp only
  rw [hnone]
  rfl

/-- The inode of a regular file, other than those of the system and of `r`. -/
structure RegularFile (K : Set Nat) (s : FileSys) (r k : Nat) : Prop where
  mem : k ∈ K
  ne_zero : k ≠ 0
  ne_root : k ≠ ROOT_DIR_SECTOR
  ne_dir : k ≠ r
  regular : inodeIsDir (s.inodeData k) = false

theorem dirRemove_present (h : OnDir D K dat s r d p) {j : Nat}
    (hmem : (name, j) ∈ listing (s.bytes r))
    (hfile : ∀ k, (name, k) ∈ listing (s.bytes r) → RegularFile K s r k) :
    ∃ i e dat' s', (dirEntries (s.bytes r))[i + 1]? = some e ∧ e.inUse = true ∧
      e.name = name ∧ dirRemove s d name = (true, s') ∧
      OnDir D (K \ {e.inodeSector}) dat' s' r d p ∧
      s'.bytes r = overwrite 0 (s.bytes r) (ENTRY_SIZE * (i + 1)) (e.setInUse false).toList := by
  have hro := readOnly_lookup s d name
  have hnone := lookup_none (d := d) (n := name) h.inode h.ok h.content
  have hsome := fun e o => lookup_some (d := d) (n := name) (e := e) (o := o)
    h.inode h.ok h.content
  unfold dirRemove
  generalize lookup s d name = t at hro hnone hsome
  cases ht : t.1 with
  | none => exact absurd hmem (hnone.1 ht j)
  | some eo =>
      obtain ⟨e, o⟩ := eo
      obtain ⟨i, rfl, he, huse, hname, hmem'⟩ := hsome e o ht
      obtain ⟨hk, hk₀, hk₁, hkr, hdir⟩ := hfile _ hmem'
      generalize hke : e.inodeSector = k at hk hk₀ hk₁ hkr hdir hmem'
      rw [h.mounted.inodeData hk] at hdir
      have h₁ := h.readOnly hro
      have h₂ := h₁.openInode hk hkr
      obtain ⟨-, hq, hdisk, -, -, -⟩ := inodeOpen_spec h₁.mounted hk
      generalize hi : inodeOpen t.2 k = u at h₂ hq hdisk
      have hdisk := hro.disk.trans hdisk
      have hlt := (getElem?_dirEntries.1 he).1
      have hlen := h.length
      have hnonneg := (h.mounted.vol.file r h.mem).nonneg
      have hin : ((ENTRY_SIZE * (i + 1) : Nat) : Int) + ENTRY_SIZE ≤ inodeLength (dat r) := by
        simp only [ENTRY_SIZE] at hlt ⊢
        omega
      obtain ⟨d', s₃, hw, hcase⟩ := writeEntry_spec (e := e.setInUse false)
        (o := ENTRY_SIZE * (i + 1)) h₂.mounted.vol h₂.opened.isOpen h.mem h.ne (by omega)
      rcases hcase with ⟨heq, hs⟩ | ⟨-, hs⟩
      · rw [← h₂.inode] at heq
        have h₃ := h₂.wrote hw
        have hq₃ : Opened (Function.update dat r d') s₃ u.1 k :=
          (hw.sameOpen h₂.opened.isOpen 0).opened h₃.mounted hq hk₀
        have hrem := removeEntry_eq (d := d) (by rw [hke]; exact hi)
          (by rw [hq.isOpen.data]; exact hdir) heq
        obtain ⟨hm₄, htab₄, herase, hother, -, hcont, -⟩ :=
          inodeClose_removed h₃.mounted hq₃ hk₀ hk₁ h.root
        have hopen₄ := sameOpen_of_erase h₃.mounted hq₃ herase hother
        generalize inodeClose (inodeRemove s₃ u.1) u.1 = s₄ at *
        have h₄ : OnDir D (K \ {k}) (Function.update dat r d') s₄ r d p :=
          h₃.step hm₄ ⟨h.root, fun heq => hk₁ heq.symm⟩ htab₄.dirs
            (hopen₄.opened hm₄ h₃.opened hkr.symm)
        have hframed : Framed D s₃ s₄ := fun v _ hD _ => hcont v hD
        dsimp only
        rw [ht]
        refine ⟨i, e, _, s₄, he, huse, hname, hrem, by rw [hke]; exact h₄, ?_⟩
        rw [h₄.bytes, hframed.fileContent h₃.mounted.vol h.mem h.ne, Function.update_self,
          hs.content, hdisk.content, h.bytes]
      · have hpast := hs.past
        rw [ByteBlock.length_toList] at hpast
        simp only [ENTRY_SIZE] at hpast hin
        omega

end OnDir

/-! ## The map -/

abbrev NameMap := CString → Option Nat

/-- The directory file lists exactly the names of `m`, each once, and its first
entry is `parent`. -/
structure Shows (parent : DirEntry) (bytes : List UInt8) (m : NameMap) : Prop where
  first : (dirEntries bytes)[0]? = some parent
  inUse : parent.inUse = true
  names : ∀ n k, (n, k) ∈ listing bytes ↔ m n = some k
  once : SlotTable.Keyed (listing bytes)

section Shows

variable {parent : DirEntry} {bytes : List UInt8} {m : NameMap} {name : CString} {k i : Nat}

theorem Shows.hasParent (h : Shows parent bytes m) : HasParent parent.inodeSector bytes :=
  ⟨parent, h.first, h.inUse, rfl⟩

theorem Shows.absent (h : Shows parent bytes m) (hm : m name = none) :
    ∀ j, (name, j) ∉ listing bytes := fun j hj => by
  rw [h.names, hm] at hj
  cases hj

/-- No entry is changed but those that `name` has, or had. -/
def OthersKept (name : CString) (bytes bytes' : List UInt8) : Prop :=
  ∀ (i : Nat) (e : DirEntry), (dirEntries bytes)[i]? = some e →
    i = 0 ∨ (e.inUse = true ∧ e.name ≠ name) → (dirEntries bytes')[i]? = some e

theorem OthersKept.refl (name : CString) (bytes : List UInt8) : OthersKept name bytes bytes :=
  fun _ _ he _ => he

/-- An entry is written over one that is free, over one of `name`, or at the end. -/
theorem othersKept_overwrite {e : DirEntry}
    (h : i + 1 = bytes.length / ENTRY_SIZE ∨ ∃ x, (dirEntries bytes)[i + 1]? = some x ∧
      (x.inUse = true → x.name = name)) :
    OthersKept name bytes (overwrite 0 bytes (ENTRY_SIZE * (i + 1)) e.toList) := by
  intro j y hy hkept
  have hj := (getElem?_dirEntries.1 hy).1
  rcases h with hend | ⟨x, hx, hname⟩
  · rw [dirEntries_append hend, List.getElem?_append_left (by rw [length_dirEntries]; exact hj)]
    exact hy
  · rw [dirEntries_set (getElem?_dirEntries.1 hx).1, List.getElem?_set_ne]
    · exact hy
    · rintro rfl
      rw [hx] at hy
      obtain rfl := Option.some.inj hy
      rcases hkept with h₀ | ⟨huse, hne⟩
      · exact absurd h₀ (Nat.succ_ne_zero i)
      · exact hne (hname huse)

theorem first_overwrite {e : DirEntry} (h : Shows parent bytes m)
    (hi : i + 1 ≤ bytes.length / ENTRY_SIZE) :
    (dirEntries (overwrite 0 bytes (ENTRY_SIZE * (i + 1)) e.toList))[0]? = some parent := by
  have hfirst := h.first
  rcases Nat.lt_or_eq_of_le hi with hlt | heq
  · rw [dirEntries_set hlt, List.getElem?_set_ne (Nat.succ_ne_zero i)]
    exact hfirst
  · rw [dirEntries_append heq, List.getElem?_append_left]
    · exact hfirst
    · rw [length_dirEntries]
      exact (getElem?_dirEntries.1 hfirst).1

theorem Shows.insert (h : Shows parent bytes m) (hm : m name = none)
    (hlen : name.length ≤ NAME_MAX) (h₀ : (0 : UInt8) ∉ name) (hk : k < 2 ^ 32)
    (hi : i + 1 = bytes.length / ENTRY_SIZE ∨
      ∃ x, (dirEntries bytes)[i + 1]? = some x ∧ x.inUse = false) :
    Shows parent (overwrite 0 bytes (ENTRY_SIZE * (i + 1)) (newEntry name k).toList)
      (Function.update m name (some k)) := by
  have hperm := listing_add (e := newEntry name k) newEntry_inUse hi
  rw [newEntry_name hlen h₀, newEntry_inodeSector hk] at hperm
  have hle : i + 1 ≤ bytes.length / ENTRY_SIZE := by
    rcases hi with heq | ⟨x, hx, -⟩
    · omega
    · exact Nat.le_of_lt (getElem?_dirEntries.1 hx).1
  refine ⟨first_overwrite h hle, h.inUse, fun n j => ?_, ?_⟩
  · rw [hperm.mem_iff, List.mem_cons, Prod.mk.injEq, h.names]
    by_cases hn : n = name
    · subst hn
      rw [Function.update_self, hm]
      simp [eq_comm]
    · rw [Function.update_of_ne hn]
      simp [hn]
  · exact SlotTable.Keyed.perm (SlotTable.keyed_cons.2 ⟨h.absent hm, h.once⟩) hperm

theorem Shows.erase {e : DirEntry} (h : Shows parent bytes m)
    (he : (dirEntries bytes)[i + 1]? = some e) (huse : e.inUse = true) (hname : e.name = name) :
    Shows parent (overwrite 0 bytes (ENTRY_SIZE * (i + 1)) (e.setInUse false).toList)
      (Function.update m name none) := by
  have hperm := listing_remove (DirEntry.setInUse_false e) he huse
  have honce := SlotTable.keyed_cons.1 (SlotTable.Keyed.perm h.once hperm.symm)
  rw [hname] at hperm honce
  refine ⟨first_overwrite h (Nat.le_of_lt (getElem?_dirEntries.1 he).1), h.inUse,
    fun n j => ?_, honce.2⟩
  have hmem : (n, j) ∈ listing bytes ↔ _ := hperm.mem_iff
  rw [h.names, List.mem_cons, Prod.mk.injEq] at hmem
  by_cases hn : n = name
  · subst hn
    rw [Function.update_self]
    exact iff_of_false (honce.1 j) (by simp)
  · rw [Function.update_of_ne hn, hmem]
    simp [hn]

end Shows

/-! ## Histories -/

/-- A name that `dir_add` takes: 1 to 30 characters. -/
structure DirName (name : CString) : Prop where
  valid : ValidName name
  noNul : (0 : UInt8) ∉ name

/-- What `dir_add` and `dir_remove` answered makes the map: the sector of the last
successful `dir_add` of each name that has not been removed since. -/
def NameMap.added (m : NameMap) (name : CString) (k : Nat) (success : Bool) : NameMap :=
  if success then Function.update m name (some k) else m

def NameMap.removed (m : NameMap) (name : CString) (success : Bool) : NameMap :=
  if success then Function.update m name none else m

/-- The entry that `dir_create` writes. -/
def selfEntry (sector : Nat) : DirEntry :=
  DirEntry.setInUse (DirEntry.setInodeSector .zeros sector) true

/-- Calls on one handle of a directory made by `dir_create`, with the inodes in use
and the map so far. Other parts of the program may run in between, if they leave
the directory alone. -/
inductive DirHistory (D : Set Nat) (r d p : Nat) : Set Nat → FileSys → NameMap → Prop where
  | create {K : Set Nat} {dat : Nat → Sector} {s s₁ : FileSys} {entryCnt : Nat} :
      Mounted D K dat s → Spare D K dat s r → ROOT_DIR_SECTOR ∈ insert r K →
      dirCreate s r entryCnt = (true, s₁) → (inodeOpen s₁ r).1 = p →
      (dirOpen (inodeOpen s₁ r).2 p).1 = d →
      DirHistory D r d p (insert r K) (dirOpen (inodeOpen s₁ r).2 p).2 fun _ => none
  | add {K : Set Nat} {s s' : FileSys} {m : NameMap} {name : CString} {k : Nat} {b : Bool} :
      DirHistory D r d p K s m → DirName name → k < 2 ^ 32 → RoomToAdd s r →
      dirAdd s d name k false = (b, s') → DirHistory D r d p K s' (m.added name k b)
  | remove {K : Set Nat} {s s' : FileSys} {m : NameMap} {name : CString} {b : Bool} :
      DirHistory D r d p K s m → DirName name →
      (∀ k, m name = some k → RegularFile K s r k) →
      dirRemove s d name = (b, s') →
      DirHistory D r d p (K \ {k | m name = some k}) s' (m.removed name b)
  | elsewhere {K K' : Set Nat} {dat : Nat → Sector} {s s' : FileSys} {m : NameMap} :
      DirHistory D r d p K s m → OnDir D K' dat s' r d p → s'.bytes r = s.bytes r →
      DirHistory D r d p K' s' m

/-- The names that `dir_readdir` yields, one call after another. -/
def dirNames (s : FileSys) (d : Nat) : List CString :=
  (readdirLoop (fun names name s => (names ++ [name], s)) d
    (entryRounds s (s.dir d).inode) [] s).1

section History

variable {D K : Set Nat} {dat : Nat → Sector} {s s' : FileSys} {r d p k : Nat} {m : NameMap}
  {name : CString} {parent : DirEntry}

/-- What `dir_add` does to the map. -/
theorem dirAdd_map (h : OnDir D K dat s r d p) (hm : Shows parent (s.bytes r) m)
    (hname : DirName name) (hk : k < 2 ^ 32) (hroom : RoomToAdd s r) :
    ∃ dat' s', dirAdd s d name k false = (decide (m name = none), s') ∧
      OnDir D K dat' s' r d p ∧
      Shows parent (s'.bytes r) (m.added name k (decide (m name = none))) ∧
      OthersKept name (s.bytes r) (s'.bytes r) := by
  cases hn : m name with
  | none =>
      obtain ⟨i, d', s', hw, heq, hfree, hcont⟩ :=
        dirAdd_absent h hroom hm.hasParent hname.valid k (hm.absent hn)
      have h' := h.wrote hw
      have hbytes : s'.bytes r =
          overwrite 0 (s.bytes r) (ENTRY_SIZE * (i + 1)) (newEntry name k).toList := by
        rw [h'.bytes, Function.update_self, hcont]
      refine ⟨_, s', by rw [heq]; simp, h', ?_, ?_⟩
      · rw [hbytes]
        exact hm.insert hn hname.valid.2 hname.noNul hk hfree
      · rw [hbytes]
        refine othersKept_overwrite (hfree.imp_right fun ⟨x, hx, hno⟩ => ⟨x, hx, fun huse => ?_⟩)
        rw [hno] at huse
        cases huse
  | some j =>
      obtain ⟨s', hro, heq⟩ := dirAdd_present h hname.valid k ((hm.names name j).2 hn)
      have hbytes := h.readOnly_bytes hro
      refine ⟨dat, s', by rw [heq]; simp, h.readOnly hro, ?_, ?_⟩
      · rw [hbytes]
        exact hm
      · rw [hbytes]
        exact .refl _ _

/-- And `dir_remove`. -/
theorem dirRemove_map (h : OnDir D K dat s r d p) (hm : Shows parent (s.bytes r) m)
    (hfile : ∀ k, m name = some k → RegularFile K s r k) :
    ∃ dat' s', dirRemove s d name = ((m name).isSome, s') ∧
      OnDir D (K \ {k | m name = some k}) dat' s' r d p ∧
      Shows parent (s'.bytes r) (m.removed name (m name).isSome) ∧
      OthersKept name (s.bytes r) (s'.bytes r) := by
  cases hn : m name with
  | none =>
      obtain ⟨s', hro, heq⟩ := dirRemove_absent_at h (hm.absent hn)
      have hbytes := h.readOnly_bytes hro
      refine ⟨dat, s', by rw [heq]; rfl, ?_, ?_, ?_⟩
      · have hset : K \ {k | (none : Option Nat) = some k} = K := by simp
        rw [hset]
        exact h.readOnly hro
      · rw [hbytes]
        exact hm
      · rw [hbytes]
        exact .refl _ _
  | some j =>
      obtain ⟨i, e, dat', s', he, huse, hname, heq, h', hbytes⟩ :=
        dirRemove_present h ((hm.names name j).2 hn)
          fun k hk => hfile k ((hm.names name k).1 hk)
      have hsector : e.inodeSector = j := by
        have := (hm.names name e.inodeSector).1 (mem_listing.2 ⟨i, e, he, huse, hname, rfl⟩)
        rw [hn] at this
        exact (Option.some.inj this).symm
      refine ⟨dat', s', by rw [heq]; rfl, ?_, ?_, ?_⟩
      · have hset : {k | some j = some k} = ({e.inodeSector} : Set Nat) := by
          ext x
          simp [hsector, eq_comm]
        rw [hset]
        exact h'
      · rw [hbytes]
        exact hm.erase he huse hname
      · rw [hbytes]
        exact othersKept_overwrite (.inr ⟨e, he, fun _ => hname⟩)

theorem lookup_map (h : OnDir D K dat s r d p) (hm : Shows parent (s.bytes r) m) :
    (lookup s d name).1.map (fun e => e.1.inodeSector) = m name := by
  cases hl : (lookup s d name).1 with
  | none =>
      have habs := (lookup_none h.inode h.ok h.content).1 hl
      cases hn : m name with
      | none => rfl
      | some j => exact absurd ((hm.names name j).2 hn) (habs j)
  | some e =>
      obtain ⟨-, -, -, -, -, hmem⟩ := lookup_some (e := e.1) (o := e.2) h.inode h.ok h.content hl
      exact ((hm.names name _).1 hmem).symm

/-- A handle from `dir_reopen` begins behind the parent's entry. -/
theorem dirReopen_reads (h : OnDir D K dat s r d p) :
    Reads (dirReopen s d).2 (dirReopen s d).1 p (s.bytes r) ∧
      ((dirReopen s d).2.dir (dirReopen s d).1).pos = (ENTRY_SIZE * 1 : Nat) := by
  obtain ⟨t, ht⟩ : ∃ t, t = dirReopen s d := ⟨_, rfl⟩
  have hlive : t.2.mem.dirs.get? t.1 = some ⟨p, ENTRY_SIZE, 1⟩ := by
    rw [ht, ← h.inode]
    exact (Heap.get?_alloc ..).trans (if_pos rfl)
  have hdir := FileSys.dir_eq hlive
  have hsame : t.2.inode p = s.inode p ∧ t.2.content = s.content ∧
      t.2.cache.size = s.cache.size := by
    rw [ht]
    exact ⟨rfl, rfl, rfl⟩
  rw [← ht]
  refine ⟨⟨?_, ?_, ?_, ?_⟩, ?_⟩
  · rw [hdir]
    exact hlive
  · rw [hdir]
  · rw [hsame.1, hsame.2.1, hsame.2.2]
    exact h.ok
  · rw [hsame.1, hsame.2.1]
    exact h.content
  · rw [hdir]
    rfl

theorem dirNames_eq {bytes : List UInt8} (h : Reads s d p bytes)
    (hpos : (s.dir d).pos = (ENTRY_SIZE * 1 : Nat)) :
    dirNames s d = (listing bytes).map Prod.fst := by
  have hrule := @readdirLoop_names _ d bytes (fun names name s => (names ++ [name], s))
    (fun names a s => Reads s d p bytes ∧ a ++ names = namesFrom bytes 1)
    (fun _ _ _ h => ⟨p, h.1⟩) (fun _ _ _ _ _ h hro hx _ => ⟨h.1.move hro hx, h.2⟩)
    (fun name names a s h => ⟨⟨h.1, by rw [List.append_assoc]; exact h.2⟩, rfl⟩)
    (entryRounds s p) 1 [] s (by
      rw [entryRounds_eq h.bytes]
      have := length_namesFrom bytes 1
      generalize bytes.length / ENTRY_SIZE = n at this ⊢
      omega) hpos ⟨h, rfl⟩
  rw [dirNames, h.inode, ← namesFrom_one, ← hrule.2, List.append_nil]

end History

/-! ## The start of a history -/

section Create

variable {D K : Set Nat} {dat : Nat → Sector} {s s₁ : FileSys} {r d p entryCnt : Nat} {i : Int}

/-- `dir_close` by the one opener of a handle on an inode that stays. -/
theorem dirClose_last (h : Mounted D K dat s) (hp : Opened dat s p r) (hr₀ : r ≠ 0)
    (hd : s.dir d = ⟨p, i, 1⟩) :
    Mounted D K (Function.update dat r (s.content r)) (dirClose s d) ∧
      SameDisk s (dirClose s d) := by
  obtain ⟨s₁, hs₁⟩ : ∃ s₁, s₁ = s.setDir d ⟨p, i, 0⟩ := ⟨_, rfl⟩
  have hm : Mounted D K dat s₁ := by rw [hs₁]; exact h.setDir d _
  have hopened : Opened dat s₁ p r := hm.opened_iff.2 (by
    rw [hs₁]
    exact ⟨hp.mem, hp.isOpen.sector⟩)
  obtain ⟨hm', hdisk, -, -, -⟩ := inodeClose_spec hm hopened hr₀
  have hcont : s₁.content r = s.content r := by rw [hs₁]; rfl
  have hdisk₁ : SameDisk s s₁ := by rw [hs₁]; exact ⟨rfl, rfl, rfl, rfl⟩
  rw [hcont] at hm'
  have hclose : dirClose s d =
      let t := inodeClose s₁ p
      { t with mem := { t.mem with dirs := t.mem.dirs.free d, cwd := none } } := by
    rw [hs₁]
    unfold dirClose
    rw [hd]
    rfl
  rw [hclose]
  generalize inodeClose s₁ p = t at hm' hdisk ⊢
  exact ⟨hm'.setDirs _ _,
    hdisk₁.trans ⟨hdisk.freeMap, hdisk.allocFailures, hdisk.size, hdisk.content⟩⟩

/-- A directory that `dir_create` has made holds the parent's entry and free ones. -/
theorem dirCreate_made (hm : Mounted D K dat s) (hs : Spare D K dat s r)
    (h : dirCreate s r entryCnt = (true, s₁)) :
    Mounted D (insert r K) (Function.update dat r (s₁.content r)) s₁ ∧
      ∃ n, fileContent s₁.content (s₁.content r) =
        overwrite 0 (List.replicate n 0) 0 (selfEntry r).toList := by
  obtain ⟨c, hc⟩ : ∃ c, c = inodeCreate s r (entryCnt * ENTRY_SIZE) true := ⟨_, rfl⟩
  have hdo : dirCreate s r entryCnt =
      if c.1 = false then (false, c.2)
      else
        let i := inodeOpen c.2 r
        let d := dirOpen i.2 i.1
        let w := writeEntry d.2 i.1 (selfEntry r) 0
        (w.1, dirClose w.2 d.1) := by
    rw [hc]
    rfl
  rw [hdo] at h
  clear hdo
  cases hdone : c.1 with
  | false =>
      rw [hdone] at h
      cases h
  | true =>
      rw [hdone, if_neg (by simp)] at h
      obtain ⟨d₀, d', s₂, hcreate, hnull, hlen, hdir, hnonneg, hmax, hhead, ho⟩ :=
        inodeCreate_reserved hm.vol.map (by rw [← hc]; exact hdone)
      have hmade := ho.made hm hs hnull hlen hdir hmax hnonneg hhead
      have hc₂ : c.2 = s₂.writeSector r d' := by rw [hc, hcreate]
      rw [← hc₂] at hmade
      clear hcreate hc hc₂ ho hnull hlen hdir hhead
      have hm₁ := hmade.mounted
      obtain ⟨hm₂, hop, hdisk, -, -, -⟩ := inodeOpen_spec hm₁ (.inl rfl)
      dsimp only at h
      generalize inodeOpen c.2 r = i at hm₂ hop hdisk h
      obtain ⟨p, s₃⟩ := i
      dsimp only at hm₂ hop hdisk h
      obtain ⟨t, ht⟩ : ∃ t, t = dirOpen s₃ p := ⟨_, rfl⟩
      have hm₃ : Mounted D (insert r K) (Function.update dat r d') t.2 := by
        rw [ht]
        exact hm₂.setDirs _ _
      have hop₃ : Opened (Function.update dat r d') t.2 p r := hm₃.opened_iff.2 (by
        rw [ht]
        exact ⟨hop.mem, hop.isOpen.sector⟩)
      have hcont₃ : t.2.content = c.2.content := by
        rw [ht]
        exact hdisk.content
      have hdir₃ : t.2.mem.dirs.get? t.1 = some ⟨p, ENTRY_SIZE, 1⟩ := by
        rw [ht]
        exact (Heap.get?_alloc ..).trans (if_pos rfl)
      rw [← ht] at h
      clear ht
      have hself : Function.update dat r d' r = d' := Function.update_self ..
      obtain ⟨d'', s₄, hw, hcase⟩ := writeEntry_spec (e := selfEntry r) (o := 0) hm₃.vol
        hop₃.isOpen (.inl rfl) hs.ne_zero (by
          rw [hself, hmade.length]
          exact hnonneg)
      rw [Int.natCast_zero] at hcase
      rcases hcase with ⟨heq, hst⟩ | ⟨heq, -⟩
      · rw [heq] at h
        have hm₄ := hw.mounted hm₃ hop₃ hs.ne_zero
        have hop₄ := (hw.sameOpen hop₃.isOpen 0).opened hm₄ hop₃ hs.ne_zero
        have hdir₄ : s₄.dir t.1 = ⟨p, ENTRY_SIZE, 1⟩ :=
          FileSys.dir_eq (by rw [hw.tables.dirs]; exact hdir₃)
        obtain ⟨hm₅, hdisk₅⟩ := dirClose_last hm₄ hop₄ hs.ne_zero hdir₄
        have hs₁ : dirClose s₄ t.1 = s₁ := congrArg Prod.snd h
        rw [hs₁] at hm₅ hdisk₅
        rw [Function.update_idem, Function.update_idem] at hm₅
        rw [hdisk₅.content]
        refine ⟨hm₅, (int32 (entryCnt * ENTRY_SIZE)).toNat, ?_⟩
        obtain ⟨hok, hold⟩ := hm₄.disk r (.inl rfl) hs.ne_zero
        rw [hold.fileContent hok, Function.update_self]
        have hbytes := hst.content
        rw [hself, hcont₃, hmade.content] at hbytes
        exact hbytes
      · rw [heq] at h
        cases h

theorem shows_created {n : Nat} (r : Nat) :
    Shows (selfEntry r) (overwrite 0 (List.replicate n 0) 0 (selfEntry r).toList)
      fun _ => none := by
  have huse : (selfEntry r).inUse = true := by
    unfold selfEntry DirEntry.inUse DirEntry.setInUse
    rw [ByteBlock.byte_splice (by decide), if_pos (by decide)]
    rfl
  have hwritten : ∀ j, entryAt (overwrite 0 (List.replicate n 0) 0 (selfEntry r).toList) j =
      if j = 0 then selfEntry r else entryAt (List.replicate n 0) j := by
    intro j
    have h := @entryAt_overwrite (List.replicate n 0) (selfEntry r) 0 j
    rw [Nat.mul_zero] at h
    exact h
  have hentry : ∀ (j : Nat) (e : DirEntry),
      (dirEntries (overwrite 0 (List.replicate n 0) 0 (selfEntry r).toList))[j]? = some e →
        e = if j = 0 then selfEntry r else entryAt (List.replicate n 0) j := by
    intro j e he
    obtain ⟨-, rfl⟩ := getElem?_dirEntries.1 he
    exact hwritten j
  have hempty : listing (overwrite 0 (List.replicate n 0) 0 (selfEntry r).toList) = [] := by
    refine List.eq_nil_iff_forall_not_mem.2 fun ⟨m, k⟩ hmem => ?_
    obtain ⟨i, x, hx, hxuse, -⟩ := mem_listing.1 hmem
    rw [hentry _ _ hx, if_neg (Nat.succ_ne_zero i), inUse_entryAt_replicate] at hxuse
    cases hxuse
  have hfirst : selfEntry r = entryAt (overwrite 0 (List.replicate n 0) 0
      (selfEntry r).toList) 0 := by
    rw [hwritten, if_pos rfl]
  refine ⟨getElem?_dirEntries.2 ⟨?_, hfirst⟩, huse, fun n k => ?_, ?_⟩
  · rw [length_overwrite, ByteBlock.length_toList]
    simp only [ENTRY_SIZE]
    omega
  · rw [hempty]
    simp
  · rw [hempty]
    exact List.nodup_nil

end Create

section History

variable {D K : Set Nat} {s : FileSys} {r d p : Nat} {m : NameMap}

theorem DirHistory.spec (h : DirHistory D r d p K s m) :
    ∃ dat, OnDir D K dat s r d p ∧ Shows (selfEntry r) (s.bytes r) m := by
  induction h with
  | @create K dat s s₁ entryCnt hm hs hroot hmade hp hd =>
      obtain ⟨hm₁, n, hbytes⟩ := dirCreate_made hm hs hmade
      obtain ⟨hm₂, hop, hdisk, -, -, -⟩ := inodeOpen_spec hm₁ (.inl rfl)
      generalize inodeOpen s₁ r = i at *
      subst hp
      have hlive : (dirOpen i.2 i.1).2.mem.dirs.get? d = some ⟨i.1, ENTRY_SIZE, 1⟩ := by
        rw [← hd]
        exact (Heap.get?_alloc ..).trans (if_pos rfl)
      have hm₃ : Mounted D (insert r K) (Function.update dat r (s₁.content r))
          (dirOpen i.2 i.1).2 := hm₂.setDirs _ _
      have hdir := FileSys.dir_eq hlive
      have hon : OnDir D (insert r K) (Function.update dat r (s₁.content r))
          (dirOpen i.2 i.1).2 r d i.1 := by
        refine ⟨hm₃, hroot, .inl rfl, hs.ne_zero, by rw [hdir]; exact hlive, by rw [hdir], ?_⟩
        exact hm₃.opened_iff.2 ⟨hop.mem, hop.isOpen.sector⟩
      refine ⟨_, hon, ?_⟩
      have hcont : (dirOpen i.2 i.1).2.content = s₁.content := hdisk.content
      rw [hon.bytes, hcont, Function.update_self, hbytes]
      exact shows_created r
  | @add K s s' m name k b _ hname hk hroom heq ih =>
      obtain ⟨dat, hon, hm⟩ := ih
      obtain ⟨dat', t, ht, hon', hm', -⟩ := dirAdd_map hon hm hname hk hroom
      rw [heq, Prod.mk.injEq] at ht
      obtain ⟨rfl, rfl⟩ := ht
      exact ⟨dat', hon', hm'⟩
  | @remove K s s' m name b _ hname hfile heq ih =>
      obtain ⟨dat, hon, hm⟩ := ih
      obtain ⟨dat', t, ht, hon', hm', -⟩ := dirRemove_map hon hm hfile
      rw [heq, Prod.mk.injEq] at ht
      obtain ⟨rfl, rfl⟩ := ht
      exact ⟨dat', hon', hm'⟩
  | @elsewhere K K' dat s s' m _ hon hbytes ih =>
      obtain ⟨-, -, hm⟩ := ih
      exact ⟨dat, hon, by rw [hbytes]; exact hm⟩

/-- In any history of a directory, `dir_add` succeeds on the names that are absent and
`dir_remove` on those that are present, neither touching the entry of another name or
of the parent; `lookup` finds what was added last; and `dir_readdir` on a new handle
yields the present names, each once. -/
theorem directory_is_map (h : DirHistory D r d p K s m) :
    (∀ name k, DirName name → k < 2 ^ 32 → RoomToAdd s r →
      ((dirAdd s d name k false).1 = true ↔ m name = none) ∧
        OthersKept name (s.bytes r) ((dirAdd s d name k false).2.bytes r)) ∧
      (∀ name, DirName name → (∀ k, m name = some k → RegularFile K s r k) →
        ((dirRemove s d name).1 = true ↔ m name ≠ none) ∧
          OthersKept name (s.bytes r) ((dirRemove s d name).2.bytes r)) ∧
      (∀ name, (lookup s d name).1.map (fun e => e.1.inodeSector) = m name) ∧
      (dirNames (dirReopen s d).2 (dirReopen s d).1).Nodup ∧
      (∀ name, name ∈ dirNames (dirReopen s d).2 (dirReopen s d).1 ↔ m name ≠ none) ∧
      (dirEntries (s.bytes r))[0]? = some (selfEntry r) := by
  obtain ⟨dat, hon, hm⟩ := h.spec
  obtain ⟨hreads, hpos⟩ := dirReopen_reads hon
  have hnames := dirNames_eq hreads hpos
  refine ⟨fun name k hname hk hroom => ?_, fun name _ hfile => ?_, fun name => lookup_map hon hm,
    ?_, fun name => ?_, hm.first⟩
  · obtain ⟨dat', t, ht, -, -, hkept⟩ := dirAdd_map hon hm hname hk hroom
    rw [ht]
    exact ⟨decide_eq_true_iff, hkept⟩
  · obtain ⟨dat', t, ht, -, -, hkept⟩ := dirRemove_map hon hm hfile
    rw [ht]
    exact ⟨Option.isSome_iff_ne_none, hkept⟩
  · rw [hnames]
    exact hm.once
  · rw [hnames, List.mem_map]
    constructor
    · rintro ⟨⟨n, k⟩, hmem, rfl⟩
      rw [(hm.names n k).1 hmem]
      exact Option.some_ne_none k
    · intro hne
      obtain ⟨k, hk⟩ := Option.ne_none_iff_exists'.1 hne
      exact ⟨(name, k), (hm.names name k).2 hk, rfl⟩

/-- The root directory of a new volume has a history, and room in it. -/
theorem dirHistory_root : ∃ D K s d p,
    DirHistory D ROOT_DIR_SECTOR d p K s (fun _ => none) ∧ RoomToAdd s ROOT_DIR_SECTOR := by
  have hmin : 75 ≤ (blankDisk 200).fsDevice.size := by decide
  have hmax : (blankDisk 200).fsDevice.size ≤ 4097 := by decide
  obtain ⟨hok, hused⟩ := filesysStart_used (y := fun _ => 0) (Nat.le_trans (by decide) hmin)
  have hcnt : (filesysStart (blankDisk 200) fun _ => 0).freeMap.bitCnt + 1 =
      (blankDisk 200).fsDevice.size := hok.cnt
  have hfree := @filesysStart_free (blankDisk 200) (fun _ => 0)
    (Nat.le_trans (by decide) hmin)
  have hopen : (filesysStart (blankDisk 200) fun _ => 0).mem.openInodes = [] := rfl
  generalize filesysStart (blankDisk 200) (fun _ => 0) = s₀ at hok hused hcnt hfree hopen
  obtain ⟨-, ⟨D, dat, hm⟩, hdir⟩ :=
    format_small hok hopen hused (by omega) (by omega) (by omega)
  obtain ⟨hdone, dat', hr⟩ := dirCreate_spec hm hdir
  generalize (freeMapCreate s₀).2 = s at hm hdone hr
  obtain ⟨⟨done, s₁⟩, hmade⟩ : ∃ t, dirCreate s ROOT_DIR_SECTOR MAX_FILES_IN_DIRECTORY = t :=
    ⟨_, rfl⟩
  rw [hmade] at hdone hr
  obtain rfl : done = true := hdone
  have hroot : ROOT_DIR_SECTOR ∈ ({ROOT_DIR_SECTOR, FREE_MAP_SECTOR} : Set Nat) := .inl rfl
  obtain ⟨hm₂, -, hdisk, -, -, -⟩ := inodeOpen_spec hr.mounted hroot
  obtain ⟨i, hi⟩ : ∃ i, inodeOpen s₁ ROOT_DIR_SECTOR = i := ⟨_, rfl⟩
  have hstart := @DirHistory.create D ROOT_DIR_SECTOR (dirOpen i.2 i.1).1 i.1 _ _ _ _ _
    hm.mounted hm.spare hroot hmade (by rw [hi]) (by rw [hi])
  rw [hi] at hm₂ hdisk hstart
  refine ⟨D, _, _, _, _, hstart, fun hfull => ?_⟩
  have hm₃ : Mounted D {ROOT_DIR_SECTOR, FREE_MAP_SECTOR} dat' (dirOpen i.2 i.1).2 :=
    hm₂.setDirs _ _
  have hcont : (dirOpen i.2 i.1).2.content = s₁.content := hdisk.content
  rw [hm₃.bytes hroot, hcont] at hfull
  exact absurd hfull hr.slack

theorem directory_is_map_root : ∃ D K s d p m, DirHistory D ROOT_DIR_SECTOR d p K s m ∧
    m [97] = some 5 ∧ (lookup s d [97]).1.map (fun e => e.1.inodeSector) = some 5 := by
  obtain ⟨D, K, s, d, p, h, hroom⟩ := dirHistory_root
  have hname : DirName [97] := ⟨⟨by decide, by decide⟩, by decide⟩
  have hk : 5 < 2 ^ 32 := by decide
  obtain ⟨hadd, -⟩ := (directory_is_map h).1 [97] 5 hname hk hroom
  obtain ⟨t, ht⟩ : ∃ t, dirAdd s d [97] 5 false = t := ⟨_, rfl⟩
  have hdone : t.1 = true := by rw [← ht]; exact hadd.2 rfl
  have h' := h.add hname hk hroom ht
  refine ⟨D, K, t.2, d, p, _, h', ?_, ?_⟩
  · rw [hdone]
    rfl
  · rw [(directory_is_map h').2.2.1 [97], hdone]
    rfl

end History

end SimpleShell.Fs
