import SimpleShell.Fs.RootDir
import SimpleShell.Fs.Shell

/-!
# A session

What holds between any two commands on plain names, and inside a command while
it holds the root directory: the inodes of the volume are the free map's, the
root's and those the root lists; a file of the table is the open inode of the
sector its name is listed with; and no other inode is open. `Session` says so,
with `c` openers of the root, and this module takes it through the functions
that open files and close them.
-/

namespace SimpleShell.Fs

open SimpleShell.Lib

/-! ## Plain names -/

section PlainName

variable {name : CString}

theorem PlainName.tokens (h : PlainName name) : tokens name = [name] := by
  have hsplit : name.splitOn SLASH = [name] :=
    List.splitOnP_eq_singleton fun x hx => beq_false_of_ne fun heq => h.noSlash (heq ▸ hx)
  unfold SimpleShell.Fs.tokens
  rw [hsplit]
  simp [h.nonempty]

theorem PlainName.splitPathFilename (h : PlainName name) :
    splitPathFilename name = ([], name) := by
  have hhead : name.head? ≠ some SLASH := fun heq =>
    h.noSlash (List.mem_of_head? heq)
  unfold SimpleShell.Fs.splitPathFilename
  rw [h.tokens, if_neg hhead]
  rfl

theorem PlainName.valid (h : PlainName name) : ValidName name := ⟨h.nonempty, h.length⟩

end PlainName

/-! ## Steps that change no file -/

/-- The disk is as it was, and every inode reads as it did. -/
structure Still (s : FileSys) (dat : Nat → Sector) (s' : FileSys)
    (dat' : Nat → Sector) : Prop where
  disk : SameDisk s s'
  reverts : Reverts s dat dat'

section Still

variable {D K : Set Nat} {dat dat₁ dat' : Nat → Sector} {s s₁ s' : FileSys} {k : Nat}

theorem Still.refl (s : FileSys) (dat : Nat → Sector) : Still s dat s dat :=
  ⟨.refl s, .refl s dat⟩

theorem Still.of_disk (h : SameDisk s s') (dat : Nat → Sector) : Still s dat s' dat :=
  ⟨h, .refl s dat⟩

theorem Still.trans (h₁ : Still s dat s₁ dat₁) (h₂ : Still s₁ dat₁ s' dat') :
    Still s dat s' dat' := by
  refine ⟨h₁.disk.trans h₂.disk, fun j => ?_⟩
  rcases h₂.reverts j with heq | ⟨hj₀, heq⟩
  · rw [heq]
    exact h₁.reverts j
  · rw [h₁.disk.content] at heq
    exact .inr ⟨hj₀, heq⟩

theorem Still.sameFile (h : Still s dat s' dat') (hm : Mounted D K dat s) (hk : k ∈ K) :
    SameFile s.content s'.content (dat k) (dat' k) := by
  rw [h.disk.content]
  exact h.reverts.sameFile hm hk

theorem Still.exact (h : Still s dat s' dat') (hx : Exact K dat s) : Exact K dat' s' :=
  (h.reverts.exact hx).sameDisk h.disk

theorem Still.used_iff (h : Still s dat s' dat') (j : Nat) : s'.used j ↔ s.used j := by
  unfold FileSys.used
  rw [h.disk.freeMap]

end Still

/-! ## The invariant -/

/-- The root directory lists the inodes of the volume. -/
structure Names (K : Set Nat) (f dat : Nat → Sector) : Prop where
  root : ROOT_DIR_SECTOR ∈ K
  mem : ∀ k ∈ K, k = 0 ∨ k = ROOT_DIR_SECTOR ∨
    ∃ n, (n, k) ∈ listing (rootBytes f dat)
  listed : ∀ n k, (n, k) ∈ listing (rootBytes f dat) → k ∈ K
  file : ∀ n k, (n, k) ∈ listing (rootBytes f dat) →
    k ≠ 0 ∧ k ≠ ROOT_DIR_SECTOR ∧ inodeIsDir (dat k) = false
  plain : ∀ n k, (n, k) ∈ listing (rootBytes f dat) → PlainName n
  keyed : SlotTable.Keyed (listing (rootBytes f dat))
  sectors : ((listing (rootBytes f dat)).map Prod.snd).Nodup
  parent : HasParent ROOT_DIR_SECTOR (rootBytes f dat)
  rootDir : inodeIsDir (dat ROOT_DIR_SECTOR) = true

structure Session (D K : Set Nat) (dat : Nat → Sector) (s : FileSys) (c : Nat) : Prop where
  mounted : Mounted D K dat s
  held : RootHeld dat s c
  names : Names K s.content dat
  keyed : SlotTable.Keyed s.mem.fileTable
  handle : ∀ n f, (n, f) ∈ s.mem.fileTable → f.denyWrite = false ∧
    ∃ k, (n, k) ∈ listing (rootBytes s.content dat) ∧ f.inode ∈ s.mem.openInodes ∧
      (s.inode f.inode).sector = k
  covered : ∀ p ∈ s.mem.openInodes, (s.inode p).sector ≠ 0 →
    (s.inode p).sector ≠ ROOT_DIR_SECTOR → ∃ n f, (n, f) ∈ s.mem.fileTable ∧ f.inode = p
  closes : s.mem.badCloses = 0

section Names

variable {D K : Set Nat} {f f' dat dat' : Nat → Sector} {n m : CString} {j k : Nat}

theorem Names.unique (h : Names K f dat) (hj : (n, j) ∈ listing (rootBytes f dat))
    (hk : (n, k) ∈ listing (rootBytes f dat)) : j = k := h.keyed.unique hj hk

theorem Names.sector_inj (h : Names K f dat) (hn : (n, k) ∈ listing (rootBytes f dat))
    (hm : (m, k) ∈ listing (rootBytes f dat)) : n = m :=
  congrArg Prod.fst (List.inj_on_of_nodup_map h.sectors hn hm rfl)

/-- The names stay while the root and the kinds of the files do. -/
theorem Names.congr (h : Names K f dat) (hroot : rootBytes f' dat' = rootBytes f dat)
    (hdir : ∀ k ∈ K, k ≠ 0 → inodeIsDir (dat' k) = inodeIsDir (dat k)) :
    Names K f' dat' := by
  obtain ⟨h₁, h₂, h₃, h₄, h₅, h₆, h₇, h₈, h₉⟩ := h
  rw [← hroot] at h₂ h₃ h₄ h₅ h₆ h₇ h₈
  refine ⟨h₁, h₂, h₃, fun n k hmem => ?_, h₅, h₆, h₇, h₈,
    (hdir _ h₁ (by decide)).trans h₉⟩
  obtain ⟨hk₀, hk₁, hreg⟩ := h₄ n k hmem
  exact ⟨hk₀, hk₁, (hdir k (h₃ n k hmem) hk₀).trans hreg⟩

end Names

section Session

variable {D K : Set Nat} {dat dat' : Nat → Sector} {s s' : FileSys} {c c' : Nat}
  {d p q k : Nat} {i : Int} {name : CString} {f : File}

theorem Still.rootBytes (h : Still s dat s' dat') (hs : Session D K dat s c) :
    rootBytes s'.content dat' = SimpleShell.Fs.rootBytes s.content dat :=
  (h.sameFile hs.mounted hs.names.root).content

theorem Still.names (h : Still s dat s' dat') (hs : Session D K dat s c) :
    Names K s'.content dat' :=
  hs.names.congr (h.rootBytes hs) fun _ hk _ => (h.sameFile hs.mounted hk).isDir

/-- A step that changes no file and whose only business is with the root. -/
theorem Session.still (hs : Session D K dat s c) (hm : Mounted D K dat' s')
    (hheld : RootHeld dat' s' c') (hstill : Still s dat s' dat')
    (hopen : SameOpen ROOT_DIR_SECTOR s s') (hrest : SameRest s s') :
    Session D K dat' s' c' := by
  have hroot := hstill.rootBytes hs
  refine ⟨hm, hheld, hstill.names hs, by rw [hrest.fileTable]; exact hs.keyed,
    fun n f hf => ?_, fun p hp hp₀ hp₁ => ?_, hrest.badCloses.trans hs.closes⟩
  · rw [hrest.fileTable] at hf
    obtain ⟨hdeny, k, hk, hmem, hsec⟩ := hs.handle n f hf
    refine ⟨hdeny, k, by rw [hroot]; exact hk, ?_⟩
    exact (hopen f.inode k (hs.names.file n k hk).2.1).2 ⟨hmem, hsec⟩
  · obtain ⟨hp', hsec⟩ := (hopen p _ hp₁).1 ⟨hp, rfl⟩
    obtain ⟨n, f, hf, hfp⟩ := hs.covered p hp' (hsec ▸ hp₀) (hsec ▸ hp₁)
    exact ⟨n, f, by rw [hrest.fileTable]; exact hf, hfp⟩

theorem ReadOnly.still (h : ReadOnly s s') (dat : Nat → Sector) : Still s dat s' dat :=
  .of_disk h.disk dat

theorem ReadOnly.rootHeld (h : ReadOnly s s') (hm : Mounted D K dat s)
    (hc : RootHeld dat s c) : RootHeld dat s' c :=
  hc.congr (h.mounted hm) (by rw [h.mem]) (by rw [h.mem]) (SameOpen.of_mem h.mem 0)
    (by decide)

theorem ReadOnly.session (h : ReadOnly s s') (hs : Session D K dat s c) :
    Session D K dat s' c :=
  hs.still (h.mounted hs.mounted) (h.rootHeld hs.mounted hs.held) (h.still dat)
    (SameOpen.of_mem h.mem _) h.tables.rest

/-- A file of the table is open. -/
theorem Session.opened (hs : Session D K dat s c) (hf : (name, f) ∈ s.mem.fileTable) :
    f.denyWrite = false ∧ ∃ k, (name, k) ∈ listing (rootBytes s.content dat) ∧
      Opened dat s f.inode k := by
  obtain ⟨hdeny, k, hk, hmem, hsec⟩ := hs.handle name f hf
  exact ⟨hdeny, k, hk, hs.mounted.opened_iff.2 ⟨hmem, hsec⟩⟩

/-- The names of the root and the sectors of their inodes. -/
theorem Session.root_mem (hs : Session D K dat s c) : ROOT_DIR_SECTOR ∈ K := hs.names.root

/-! ## Opening a file -/

/-- Next to the inodes that were open, the root's aside, `p` is now open at
sector `k`, where it may have been before. -/
def Opens (p k : Nat) (s s' : FileSys) : Prop :=
  ∀ q j, j ≠ ROOT_DIR_SECTOR → ((q ∈ s'.mem.openInodes ∧ (s'.inode q).sector = j) ↔
    (q = p ∧ j = k) ∨ (q ∈ s.mem.openInodes ∧ (s.inode q).sector = j))

theorem SameOpen.opens {s₁ : FileSys} (h₁ : SameOpen ROOT_DIR_SECTOR s s₁)
    (h₂ : Opens p k s₁ s') : Opens p k s s' := by
  intro q j hj
  rw [h₂ q j hj, h₁ q j hj]

theorem Opens.sameOpen {s₁ : FileSys} (h₁ : Opens p k s s₁)
    (h₂ : SameOpen ROOT_DIR_SECTOR s₁ s') : Opens p k s s' := by
  intro q j hj
  rw [h₂ q j hj, h₁ q j hj]

/-- An inode that was open already. -/
theorem Opens.same (h : Opens p k s s') (hp : p ∈ s.mem.openInodes)
    (hsec : (s.inode p).sector = k) : SameOpen ROOT_DIR_SECTOR s s' := by
  intro q j hj
  rw [h q j hj]
  constructor
  · rintro (⟨rfl, rfl⟩ | hq)
    · exact ⟨hp, hsec⟩
    · exact hq
  · exact .inr

theorem inodeOpen_opens (h : Mounted D K dat s) (hk : k ∈ K) :
    Opens (inodeOpen s k).1 k s (inodeOpen s k).2 := by
  obtain ⟨hm, ho, -, -, hkeep, hall⟩ := inodeOpen_spec h hk
  generalize inodeOpen s k = r at *
  intro q j _
  constructor
  · intro hq
    rcases hall q hq.1 with rfl | hq'
    · exact .inl ⟨rfl, hq.2.symm.trans ho.isOpen.sector⟩
    · exact .inr ⟨hq', by rw [← (hkeep q hq').2]; exact hq.2⟩
  · intro hq
    rcases hq with ⟨rfl, rfl⟩ | ⟨hq, hsec⟩
    · exact ⟨ho.mem, ho.isOpen.sector⟩
    · obtain ⟨hq', heq⟩ := hkeep q hq
      exact ⟨hq', by rw [heq]; exact hsec⟩

/-- What `dir_lookup` answers about a plain name, the root being open. -/
theorem dirLookup_spec (hm : Mounted D K dat s) (hnames : Names K s.content dat)
    (hd : Held dat s d p i) (hname : PlainName name) :
    let r := dirLookup s d name
    ((∀ k, (name, k) ∉ listing (rootBytes s.content dat)) ∧ r.1 = none ∧
        ReadOnly s r.2) ∨
      ∃ k q, (name, k) ∈ listing (rootBytes s.content dat) ∧ r.1 = some q ∧
        Mounted D K dat r.2 ∧ Opened dat r.2 q k ∧ SameDisk s r.2 ∧ SameTables s r.2 ∧
          Opens q k s r.2 ∧ SameOpen k s r.2 := by
  have hdata := hd.opened.isOpen.data
  have hok : FileOk s.content s.cache.size (s.inode p).data := by
    rw [hdata]
    exact hm.vol.file _ hnames.root
  have hb : fileContent s.content (s.inode p).data = rootBytes s.content dat := by
    rw [hdata]
    rfl
  unfold dirLookup
  rw [if_neg hname.notDot, if_neg hname.notDotDot]
  have hro := readOnly_lookup s d name
  have hnone := lookup_none (d := d) (n := name) hd.inode hok hb
  have hsome := fun e o => lookup_some (d := d) (n := name) (e := e) (o := o)
    hd.inode hok hb
  generalize lookup s d name = r at hro hnone hsome
  dsimp only
  cases hr : r.1 with
  | none => exact .inl ⟨hnone.1 hr, rfl, hro⟩
  | some eo =>
      obtain ⟨-, -, -, -, -, hmem⟩ := hsome eo.1 eo.2 hr
      have hk := hnames.listed _ _ hmem
      have hm₁ := hro.mounted hm
      have hopens := inodeOpen_opens hm₁ hk
      have hsame := inodeOpen_sameOpen hm₁ hk
      obtain ⟨hm₂, hq, hdisk, htab, -, -⟩ := inodeOpen_spec hm₁ hk
      refine .inr ⟨_, _, hmem, rfl, hm₂, hq, hro.disk.trans hdisk, hro.tables.trans htab,
        (SameOpen.of_mem hro.mem _).opens hopens, (SameOpen.of_mem hro.mem _).trans hsame⟩

/-- A command that opens the root and closes it again leaves the handle of the loop
it is called from. -/
theorem RootHeld.sameHandle {dat₁ : Nat → Sector} {s₁ : FileSys} (hc : RootHeld dat s c)
    (h : SameHandle s s₁) (hd : Held dat₁ s₁ d p (c + 1)) :
    SameHandle s (dirClose s₁ d) := by
  cases c with
  | zero => exact .of_closed hc _
  | succ c => exact h.trans (dirClose_sameHandle hd)

/-- What `filesys_open` does about a plain name, whatever the table of files holds. -/
theorem filesysOpen_rooted (hmount : Mounted D K dat s) (hheld₀ : RootHeld dat s c)
    (hnames : Names K s.content dat) (hname : PlainName name) :
    let r := filesysOpen s name
    ∃ dat', Still s dat r.2 dat' ∧ SameRest s r.2 ∧ Mounted D K dat' r.2 ∧
      RootHeld dat' r.2 c ∧ SameHandle s r.2 ∧
      (((∀ k, (name, k) ∉ listing (rootBytes s.content dat)) ∧ r.1 = none ∧
          SameOpen ROOT_DIR_SECTOR s r.2) ∨
        ∃ k q, (name, k) ∈ listing (rootBytes s.content dat) ∧
          r.1 = some (fileOpen q) ∧ Opened dat' r.2 q k ∧ Opens q k s r.2) := by
  have hne : name.length ≠ 0 := fun h => hname.nonempty (List.length_eq_zero_iff.1 h)
  unfold filesysOpen
  rw [if_neg hne, hname.splitPathFilename]
  dsimp only
  rw [if_pos (Nat.pos_of_ne_zero hne)]
  obtain ⟨hm, ⟨p, hd⟩, hdisk, hrest, hopen, -⟩ :=
    dirOpenRoot_spec hmount hnames.root hheld₀
  have hhandle := dirOpenRoot_sameHandle hheld₀
  generalize dirOpenRoot s = o at *
  have hstill : Still s dat o.2 dat := .of_disk hdisk dat
  have hroot := (hstill.sameFile hmount hnames.root).content
  have hlook := dirLookup_spec hm (hnames.congr hroot fun _ _ _ => rfl) hd hname
  generalize dirLookup o.2 o.1 name = l at hlook
  change rootBytes o.2.content dat = rootBytes s.content dat at hroot
  rw [hroot] at hlook
  rcases hlook with ⟨habs, hnone, hro⟩ | ⟨k, q, hmem, hsome, hm₁, hq, hdisk₁, htab, hopens, hsame⟩
  · have hd₁ := hro.held hd
    obtain ⟨dat', hrev, hm', hheld, hdisk', hrest', hopen'⟩ :=
      dirClose_spec (hro.mounted hm) hd₁
    rw [hnone]
    have hstill' : Still s dat (dirClose l.2 o.1) dat' :=
      (hstill.trans (hro.still dat)).trans ⟨hdisk', hrev⟩
    exact ⟨dat', hstill', (hrest.trans hro.tables.rest).trans hrest', hm', hheld,
      hheld₀.sameHandle (hhandle.trans (.of_dirs (by rw [hro.mem]) (by rw [hro.mem]))) hd₁,
      .inl ⟨habs, rfl, (hopen.trans (SameOpen.of_mem hro.mem _)).trans hopen'⟩⟩
  · obtain ⟨hk₀, hk₁, -⟩ := hnames.file _ _ hmem
    have hd₁ : Held dat l.2 o.1 p (c + 1) := hd.congr hm₁ htab.cwd htab.dirs
      ((hsame p _ hk₁.symm).2 ⟨hd.opened.mem, hd.opened.isOpen.sector⟩)
    obtain ⟨dat', hrev, hm', hheld, hdisk', hrest', hopen'⟩ := dirClose_spec hm₁ hd₁
    have hq' : Opened dat' (dirClose l.2 o.1) q k := hopen'.opened hm' hq hk₁
    have hstill' : Still s dat (dirClose l.2 o.1) dat' :=
      (hstill.trans (.of_disk hdisk₁ dat)).trans ⟨hdisk', hrev⟩
    rw [hsome]
    dsimp only
    rw [if_neg (by rw [hq'.isOpen.kept]; decide)]
    exact ⟨dat', hstill', (hrest.trans htab.rest).trans hrest', hm', hheld,
      hheld₀.sameHandle (hhandle.trans (.of_dirs htab.cwd htab.dirs)) hd₁,
      .inr ⟨k, q, hmem, rfl, hq', (hopen.opens hopens).sameOpen hopen'⟩⟩

theorem filesysOpen_spec (hs : Session D K dat s c) (hname : PlainName name) :
    let r := filesysOpen s name
    ∃ dat', Still s dat r.2 dat' ∧ SameRest s r.2 ∧ Mounted D K dat' r.2 ∧
      RootHeld dat' r.2 c ∧ SameHandle s r.2 ∧
      (((∀ k, (name, k) ∉ listing (rootBytes s.content dat)) ∧ r.1 = none ∧
          SameOpen ROOT_DIR_SECTOR s r.2) ∨
        ∃ k q, (name, k) ∈ listing (rootBytes s.content dat) ∧
          r.1 = some (fileOpen q) ∧ Opened dat' r.2 q k ∧ Opens q k s r.2) :=
  filesysOpen_rooted hs.mounted hs.held hs.names hname

/-! ## The table of open files -/

/-- Where the open file `name` stands. -/
def FileSys.position (s : FileSys) (name : CString) : Option Int :=
  (getFileByFname s name).map File.pos

theorem getFileByFname_congr (h : s'.mem.fileTable = s.mem.fileTable) (name : CString) :
    getFileByFname s' name = getFileByFname s name := by
  unfold getFileByFname
  rw [h]

theorem mem_fileTable_of_get (h : getFileByFname s name = some f) :
    (name, f) ∈ s.mem.fileTable := by
  obtain ⟨e, he, rfl⟩ := Option.map_eq_some_iff.1 h
  have hname : e.1 = name := by simpa using List.find?_some he
  rw [← hname]
  exact List.mem_of_find?_eq_some he

theorem getFileByFname_none :
    getFileByFname s name = none ↔ ∀ f, (name, f) ∉ s.mem.fileTable := by
  unfold getFileByFname
  rw [Option.map_eq_none_iff, List.find?_eq_none]
  constructor
  · intro h f hf
    exact h _ hf (beq_self_eq_true name)
  · intro h e he heq
    rw [← beq_iff_eq.1 heq] at h
    exact h e.2 he

theorem getFileByFname_of_mem (hkey : SlotTable.Keyed s.mem.fileTable)
    (hf : (name, f) ∈ s.mem.fileTable) : getFileByFname s name = some f := by
  cases hget : getFileByFname s name with
  | none => exact absurd hf (getFileByFname_none.1 hget f)
  | some g => rw [hkey.unique hf (mem_fileTable_of_get hget)]

theorem getFileByFname_append {e : CString × File}
    (htab : s'.mem.fileTable = s.mem.fileTable ++ [e]) (hne : e.1 ≠ name) :
    getFileByFname s' name = getFileByFname s name := by
  unfold getFileByFname
  rw [htab, List.find?_append, List.find?_singleton]
  simp [hne]

/-- A name of the table is listed. -/
theorem Session.listed_of_get (hs : Session D K dat s c)
    (hget : getFileByFname s name = some f) :
    f.denyWrite = false ∧ ∃ k, (name, k) ∈ listing (rootBytes s.content dat) ∧
      Opened dat s f.inode k := hs.opened (mem_fileTable_of_get hget)

/-- File `f` of the table stands for `name`, which is in sector `k`. -/
structure OpenFile (dat : Nat → Sector) (s : FileSys) (name : CString) (f : File)
    (k : Nat) : Prop where
  listed : (name, k) ∈ listing (rootBytes s.content dat)
  get : getFileByFname s name = some f
  opened : Opened dat s f.inode k
  allowed : f.denyWrite = false

/-- What a step comes to that wants a file there is not. -/
structure NoFile (D K : Set Nat) (dat : Nat → Sector) (s : FileSys) (c : Nat)
    (name : CString) (dat' : Nat → Sector) (s' : FileSys) : Prop where
  absent : ∀ k, (name, k) ∉ listing (rootBytes s.content dat)
  still : Still s dat s' dat'
  session : Session D K dat' s' c
  fileTable : s'.mem.fileTable = s.mem.fileTable
  handle : SameHandle s s'

/-- A step that changes no file and leaves `name` open as `f`. -/
structure FileUsed (D K : Set Nat) (dat : Nat → Sector) (s : FileSys) (c : Nat)
    (name : CString) (f : File) (k : Nat) (dat' : Nat → Sector) (s' : FileSys) :
    Prop where
  still : Still s dat s' dat'
  session : Session D K dat' s' c
  file : OpenFile dat' s' name f k
  other : ∀ n, n ≠ name → getFileByFname s' n = getFileByFname s n
  handle : SameHandle s s'

/-- `openFile`, when there is such a file. -/
structure FileOpened (D K : Set Nat) (dat : Nat → Sector) (s : FileSys) (c : Nat)
    (name : CString) (f : File) (k : Nat) (dat' : Nat → Sector) (s' : FileSys) : Prop
    extends FileUsed D K dat s c name f k dat' s' where
  position : f.pos = (s.position name).getD 0
  again : getFileByFname s name ≠ none → s' = s

/-- A file that was opened since goes into the table. -/
theorem addToFileTable_spec {r : FileSys} (hs : Session D K dat s c)
    (hget : getFileByFname s name = none) (hstill : Still s dat r dat') (hrest : SameRest s r)
    (hm : Mounted D K dat' r) (hheld : RootHeld dat' r c) (hhandle : SameHandle s r)
    (hk : (name, k) ∈ listing (rootBytes s.content dat)) (hq : Opened dat' r q k)
    (hopens : Opens q k s r) :
    FileOpened D K dat s c name (fileOpen q) k dat' (addToFileTable r (fileOpen q) name) := by
  have hroot := hstill.rootBytes hs
  have hget' : getFileByFname r name = none := by
    rw [getFileByFname_congr hrest.fileTable, hget]
  obtain ⟨t, ht⟩ : ∃ t, t = addToFileTable r (fileOpen q) name := ⟨_, rfl⟩
  rw [← ht]
  unfold addToFileTable at ht
  rw [hget'] at ht
  have htab : t.mem.fileTable = s.mem.fileTable ++ [(name, fileOpen q)] := by
    rw [ht, ← hrest.fileTable]
  have hcont : t.content = r.content := by rw [ht]; rfl
  have hinode : ∀ p, t.inode p = r.inode p := fun p => by rw [ht]; rfl
  have hopen : t.mem.openInodes = r.mem.openInodes := by rw [ht]
  have hmt : Mounted D K dat' t := by
    rw [ht]
    exact hm.frame rfl rfl rfl rfl rfl rfl
  have hheldt : RootHeld dat' t c := hheld.congr hmt (by rw [ht]) (by rw [ht])
    (SameOpen.of_sectors hopen (fun p => by rw [hinode]) 0) (by decide)
  have hstillt : Still s dat t dat' := hstill.trans
    (.of_disk (by rw [ht]; exact ⟨rfl, rfl, rfl, rfl⟩) dat')
  have hopenst : Opens q k s t :=
    hopens.sameOpen (SameOpen.of_sectors hopen (fun p => by rw [hinode]) _)
  have hnew : ∀ f, (name, f) ∉ s.mem.fileTable := getFileByFname_none.1 hget
  have hqt : Opened dat' t q k :=
    hmt.opened_iff.2 (by rw [hopen, hinode]; exact ⟨hq.mem, hq.isOpen.sector⟩)
  have hroott : rootBytes t.content dat' = rootBytes s.content dat := by
    rw [hcont, hroot]
  have hkeyed : SlotTable.Keyed t.mem.fileTable := by
    rw [htab]
    exact (SlotTable.keyed_cons.2 ⟨hnew, hs.keyed⟩).perm
      (List.perm_append_singleton ..)
  have hsession : Session D K dat' t c := by
    refine ⟨hmt, hheldt, hs.names.congr hroott fun j hj _ =>
      (hstillt.sameFile hs.mounted hj).isDir, hkeyed,
      fun n f hf => ?_, fun p hp hp₀ hp₁ => ?_, ?_⟩
    · rw [htab, List.mem_append, List.mem_singleton] at hf
      rw [hroott]
      rcases hf with hf | heq
      · obtain ⟨hdeny, j, hj, hmem, hsec⟩ := hs.handle n f hf
        exact ⟨hdeny, j, hj, (hopenst _ _ (hs.names.file _ _ hj).2.1).2
          (.inr ⟨hmem, hsec⟩)⟩
      · obtain ⟨rfl, rfl⟩ := Prod.mk.inj heq
        exact ⟨rfl, k, hk, hqt.mem, hqt.isOpen.sector⟩
    · rcases (hopenst p _ hp₁).1 ⟨hp, rfl⟩ with ⟨rfl, -⟩ | ⟨hp', hsec⟩
      · exact ⟨name, fileOpen p, by rw [htab]; simp, rfl⟩
      · obtain ⟨n, f, hf, hfp⟩ := hs.covered p hp' (hsec ▸ hp₀) (hsec ▸ hp₁)
        exact ⟨n, f, by rw [htab]; exact List.mem_append_left _ hf, hfp⟩
    · rw [ht]
      exact hrest.badCloses.trans hs.closes
  refine ⟨⟨hstillt, hsession,
    ⟨by rw [hroott]; exact hk, getFileByFname_of_mem hkeyed (by rw [htab]; simp), hqt, rfl⟩,
    fun n hn => getFileByFname_append htab (Ne.symm hn),
    hhandle.trans (.of_dirs (by rw [ht]) (by rw [ht]))⟩, ?_, fun h => absurd hget h⟩
  rw [FileSys.position, hget]
  rfl

theorem openFile_spec (hs : Session D K dat s c) (hname : PlainName name) :
    let r := openFile s name
    (r.1 = none ∧ ∃ dat', NoFile D K dat s c name dat' r.2) ∨
      ∃ f k dat', (name, k) ∈ listing (rootBytes s.content dat) ∧ r.1 = some f ∧
        FileOpened D K dat s c name f k dat' r.2 := by
  unfold openFile
  cases hget : getFileByFname s name with
  | some f =>
      obtain ⟨hdeny, k, hk, ho⟩ := hs.listed_of_get hget
      refine .inr ⟨f, k, dat, hk, rfl, ⟨.refl s dat, hs, ⟨hk, hget, ho, hdeny⟩,
        fun _ _ => rfl, .refl s⟩, ?_, fun _ => rfl⟩
      rw [FileSys.position, hget]
      rfl
  | none =>
      obtain ⟨dat', hstill, hrest, hm, hheld, hhandle, hcase⟩ := filesysOpen_spec hs hname
      generalize filesysOpen s name = r at *
      dsimp only
      rcases hcase with ⟨habs, hnone, hopen⟩ | ⟨k, q, hk, hsome, hq, hopens⟩
      · rw [hnone]
        exact .inl ⟨rfl, dat', habs, hstill, hs.still hm hheld hstill hopen hrest,
          hrest.fileTable, hhandle⟩
      · rw [hsome]
        exact .inr ⟨fileOpen q, k, dat', hk, rfl,
          addToFileTable_spec hs hget hstill hrest hm hheld hhandle hk hq hopens⟩

theorem openFile_new {f : File} (hget : getFileByFname s name = none)
    (hsome : (filesysOpen s name).1 = some f) :
    openFile s name = (some f, addToFileTable (filesysOpen s name).2 f name) := by
  unfold openFile
  rw [hget]
  dsimp only
  rw [hsome]

/-- `filesys_open` before the table is asked for the file: both come to one inode. -/
theorem openFile_again (hs : Session D K dat s c) (hname : PlainName name)
    (hlisted : (name, k) ∈ listing (rootBytes s.content dat)) :
    let o := filesysOpen s name
    let r := openFile o.2 name
    ∃ f dat', o.1 = some (fileOpen f.inode) ∧ r.1 = some f ∧
      FileUsed D K dat s c name f k dat' r.2 := by
  obtain ⟨dat₁, hstill, hrest, hm, hheld, hhandle, hcase⟩ := filesysOpen_spec hs hname
  generalize filesysOpen s name = o at *
  dsimp only
  rcases hcase with ⟨habs, -⟩ | ⟨j, q, hj, hsome, hq, hopens⟩
  · exact absurd hlisted (habs k)
  obtain rfl : j = k := hs.names.unique hj hlisted
  have hj₁ := (hs.names.file _ _ hj).2.1
  cases hget : getFileByFname s name with
  | some f =>
      obtain ⟨hdeny, i, hi, ho⟩ := hs.listed_of_get hget
      obtain rfl : i = j := hs.names.unique hi hj
      have hqf : q = f.inode := hm.opened_eq hq (hm.opened_iff.2
        ((hopens f.inode i hj₁).2 (.inr ⟨ho.mem, ho.isOpen.sector⟩)))
      have hsame := hopens.same (by rw [hqf]; exact ho.mem) (by rw [hqf]; exact ho.isOpen.sector)
      have hs' := hs.still hm hheld hstill hsame hrest
      have hget' : getFileByFname o.2 name = some f := by
        rw [getFileByFname_congr hrest.fileTable, hget]
      have hopenFile : openFile o.2 name = (some f, o.2) := by
        unfold openFile
        rw [hget']
      rw [hopenFile]
      refine ⟨f, dat₁, by rw [hsome, hqf], rfl, hstill, hs', ⟨?_, hget', ?_, hdeny⟩,
        fun n _ => getFileByFname_congr hrest.fileTable n, hhandle⟩
      · rw [hstill.rootBytes hs]
        exact hi
      · rw [← hqf]
        exact hq
  | none =>
      have hnames := hstill.names hs
      obtain ⟨dat₂, hstill₂, hrest₂, hm₂, hheld₂, hhandle₂, hcase₂⟩ :=
        filesysOpen_rooted hm hheld hnames hname
      have hget' : getFileByFname o.2 name = none := by
        rw [getFileByFname_congr hrest.fileTable, hget]
      rw [hstill.rootBytes hs] at hcase₂
      rcases hcase₂ with ⟨habs, -⟩ | ⟨i, q', hi, hsome', hq', hopens'⟩
      · exact absurd hj (habs j)
      rw [openFile_new hget' hsome']
      generalize filesysOpen o.2 name = r at *
      obtain rfl : i = j := hs.names.unique hi hj
      have hqq : q' = q := hm₂.opened_eq hq' (hm₂.opened_iff.2
        ((hopens' q i hj₁).2 (.inr ⟨hq.mem, hq.isOpen.sector⟩)))
      subst hqq
      have hopens₂ : Opens q' i s r.2 := hopens.sameOpen
        (hopens'.same hq.mem hq.isOpen.sector)
      exact ⟨fileOpen q', dat₂, hsome, rfl, (addToFileTable_spec hs hget
        (hstill.trans hstill₂) (hrest.trans hrest₂) hm₂ hheld₂ (hhandle.trans hhandle₂) hi hq'
        hopens₂).toFileUsed⟩

theorem setFile_fileTable (s : FileSys) (name : CString) (f : File) :
    (setFile s name f).mem.fileTable =
      s.mem.fileTable.map fun e => if e.1 = name then (e.1, f) else e := rfl

theorem getFileByFname_setFile (s : FileSys) (name n : CString) (f : File) :
    getFileByFname (setFile s name f) n =
      if n = name then (getFileByFname s n).map fun _ => f else getFileByFname s n := by
  unfold getFileByFname
  rw [setFile_fileTable, List.find?_map]
  have hkey : ((fun e : CString × File => e.1 == n) ∘
      fun e => if e.1 = name then (e.1, f) else e) = fun e => e.1 == n := by
    funext e
    rw [Function.comp_apply]
    split <;> rfl
  rw [hkey]
  cases hfind : s.mem.fileTable.find? fun e => e.1 == n with
  | none => simp
  | some e =>
      have hname : e.1 = n := by simpa using List.find?_some hfind
      rw [Option.map_some, Option.map_some, Option.map_some, Option.map_some, hname]
      split <;> rfl

theorem mem_setFile {n : CString} {g : File} :
    (n, g) ∈ (setFile s name f).mem.fileTable ↔
      (n = name ∧ g = f ∧ ∃ h, (name, h) ∈ s.mem.fileTable) ∨
        (n ≠ name ∧ (n, g) ∈ s.mem.fileTable) := by
  rw [setFile_fileTable, List.mem_map]
  constructor
  · rintro ⟨e, he, heq⟩
    split at heq
    · next hname =>
        obtain ⟨rfl, rfl⟩ := Prod.mk.inj heq
        exact .inl ⟨hname, rfl, e.2, by rw [← hname]; exact he⟩
    · next hname =>
        subst heq
        exact .inr ⟨hname, he⟩
  · rintro (⟨rfl, rfl, h, hh⟩ | ⟨hne, hg⟩)
    · exact ⟨_, hh, if_pos rfl⟩
    · exact ⟨_, hg, if_neg hne⟩

theorem keyed_setFile (h : SlotTable.Keyed s.mem.fileTable) :
    SlotTable.Keyed (setFile s name f).mem.fileTable := by
  have hkeys : (setFile s name f).mem.fileTable.map Prod.fst =
      s.mem.fileTable.map Prod.fst := by
    rw [setFile_fileTable, List.map_map]
    refine List.map_congr_left fun e _ => ?_
    rw [Function.comp_apply]
    split <;> rfl
  unfold SlotTable.Keyed
  rw [hkeys]
  exact h

/-- The position of an open file is its own business. -/
theorem Session.setFile {g : File} (hs : Session D K dat s c)
    (hf : OpenFile dat s name f k) (hinode : g.inode = f.inode)
    (hdeny : g.denyWrite = false) :
    Session D K dat (setFile s name g) c ∧
      OpenFile dat (setFile s name g) name g k := by
  have hm : Mounted D K dat (SimpleShell.Fs.setFile s name g) :=
    hs.mounted.frame rfl rfl rfl rfl rfl rfl
  have hget : getFileByFname (SimpleShell.Fs.setFile s name g) name = some g := by
    rw [getFileByFname_setFile, if_pos rfl, hf.get]
    rfl
  have ho := hm.opened_iff.2 ⟨hf.opened.mem, hf.opened.isOpen.sector⟩
  rw [← hinode] at ho
  refine ⟨⟨hm, hs.held.congr hm rfl rfl (SameOpen.of_sectors rfl (fun _ => rfl) 0)
    (by decide), hs.names, keyed_setFile hs.keyed, fun n h hh => ?_,
    fun p hp hp₀ hp₁ => ?_, hs.closes⟩, ⟨hf.listed, hget, ho, hdeny⟩⟩
  · rcases mem_setFile.1 hh with ⟨rfl, rfl, -⟩ | ⟨-, hmem⟩
    · exact ⟨hdeny, k, hf.listed, ho.mem, ho.isOpen.sector⟩
    · exact hs.handle n h hmem
  · obtain ⟨n, h, hh, hhp⟩ := hs.covered p hp hp₀ hp₁
    by_cases hn : n = name
    · subst hn
      have hfh : f = h := hs.keyed.unique (mem_fileTable_of_get hf.get) hh
      exact ⟨n, g, mem_setFile.2 (.inl ⟨rfl, rfl, h, hh⟩), by rw [hinode, hfh]; exact hhp⟩
    · exact ⟨n, h, mem_setFile.2 (.inr ⟨hn, hh⟩), hhp⟩

/-! ## Closing a file -/

theorem fileClose_eq {f : File} (h : f.denyWrite = false) :
    fileClose s f = inodeClose s f.inode := by
  unfold fileClose fileAllowWrite
  rw [h]
  rfl

/-- `remove_from_file_table`, whether the name is there or not. -/
theorem removeFromFileTable_spec (hs : Session D K dat s c) (name : CString) :
    let s' := removeFromFileTable s name
    ∃ dat', Still s dat s' dat' ∧ Session D K dat' s' c ∧
      getFileByFname s' name = none ∧
      ∀ n, n ≠ name → getFileByFname s' n = getFileByFname s n := by
  unfold removeFromFileTable
  cases hget : getFileByFname s name with
  | none => exact ⟨dat, .refl s dat, hs, hget, fun _ _ => rfl⟩
  | some f =>
      obtain ⟨hdeny, k, hk, ho⟩ := hs.listed_of_get hget
      obtain ⟨hk₀, hk₁, -⟩ := hs.names.file _ _ hk
      obtain ⟨hm, hdisk, htab, herase, hother⟩ := inodeClose_spec hs.mounted ho hk₀
      have hopen := sameOpen_of_erase hs.mounted ho herase hother
      have hgone := erase_sector_ne hs.mounted ho herase hother
      dsimp only
      rw [fileClose_eq hdeny]
      generalize inodeClose s f.inode = t at *
      obtain ⟨s', hs'⟩ : ∃ s', s' = { t with mem := { t.mem with
          fileTable := t.mem.fileTable.eraseP fun e => e.1 == name } } := ⟨_, rfl⟩
      rw [← hs']
      have hfiles : s'.mem.fileTable =
          s.mem.fileTable.eraseP fun e => e.1 == name := by rw [hs', ← htab.fileTable]
      have hmem : ∀ n g, (n, g) ∈ s'.mem.fileTable ↔
          n ≠ name ∧ (n, g) ∈ s.mem.fileTable := by
        intro n g
        rw [hfiles]
        exact SlotTable.mem_eraseP hs.keyed
      have hkeyed : SlotTable.Keyed s'.mem.fileTable := by
        rw [hfiles]
        exact hs.keyed.sublist ((List.eraseP_sublist ..).map _)
      have hms : Mounted D K (Function.update dat k (s.content k)) s' := by
        rw [hs']
        exact hm.frame rfl rfl rfl rfl rfl rfl
      have hstill : Still s dat s' (Function.update dat k (s.content k)) :=
        ⟨hdisk.trans (by rw [hs']; exact ⟨rfl, rfl, rfl, rfl⟩), .close hk₀⟩
      have hopens : SameOpen k s s' := hopen.trans
        (SameOpen.of_sectors (by rw [hs']) (fun q => by rw [hs']; rfl) _)
      have hroot := hstill.rootBytes hs
      refine ⟨_, hstill, ⟨hms, ?_, hstill.names hs, hkeyed, fun n g hg => ?_,
        fun p hp hp₀ hp₁ => ?_, ?_⟩, ?_, fun n hn => ?_⟩
      · exact hs.held.congr hms (by rw [hs']; exact htab.cwd) (by rw [hs']; exact htab.dirs)
          hopens hk₁
      · obtain ⟨hn, hg⟩ := (hmem n g).1 hg
        obtain ⟨hdeny', j, hj, hj'⟩ := hs.handle n g hg
        rw [hroot]
        refine ⟨hdeny', j, hj, (hopens _ _ fun hjk => hn ?_).2 hj'⟩
        subst hjk
        exact hs.names.sector_inj hj hk
      · have hpk : (s'.inode p).sector ≠ k := by
          rw [hs'] at hp ⊢
          exact hgone p hp
        obtain ⟨hp', hsec⟩ := (hopens p _ hpk).1 ⟨hp, rfl⟩
        obtain ⟨n, g, hg, hgp⟩ := hs.covered p hp' (hsec ▸ hp₀) (hsec ▸ hp₁)
        refine ⟨n, g, (hmem n g).2 ⟨fun hn => ?_, hg⟩, hgp⟩
        subst hn
        have hfg : f = g := hs.keyed.unique (mem_fileTable_of_get hget) hg
        rw [← hfg] at hgp
        exact hpk (hsec.symm.trans (by rw [← hgp]; exact ho.isOpen.sector))
      · rw [hs']
        exact htab.badCloses.trans hs.closes
      · exact getFileByFname_none.2 fun g hg => ((hmem name g).1 hg).1 rfl
      · cases hgn : getFileByFname s n with
        | none =>
            exact getFileByFname_none.2 fun g hg =>
              getFileByFname_none.1 hgn g ((hmem n g).1 hg).2
        | some g =>
            exact getFileByFname_of_mem hkeyed
              ((hmem n g).2 ⟨hn, mem_fileTable_of_get hgn⟩)

end Session

end SimpleShell.Fs
