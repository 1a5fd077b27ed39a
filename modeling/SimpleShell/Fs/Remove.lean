import SimpleShell.Fs.Commands

/-!
# The command `rm`

`fsutil_rm` over a session in which no directory is open: the file is closed if
it was in the table, its entry goes, and its inode's last close gives back its
sectors.
-/

namespace SimpleShell.Fs

open SimpleShell.Lib

section Remove

variable {D K : Set Nat} {dat dat₁ dat' : Nat → Sector} {s s₁ s' : FileSys}
  {f f' : Nat → Sector} {j k d p : Nat} {name : CString} {c : Int}

/-- The pointers an inode went back to are its own. -/
theorem Reverts.slotVal_eq (hr : Reverts s dat dat') (hm : Mounted D K dat s) (hk : k ∈ K)
    {a : Slot} (hne : slotVal s.content (dat' k) a ≠ 0) :
    slotVal s.content (dat' k) a = slotVal s.content (dat k) a := by
  rcases hr k with heq | ⟨hk₀, heq⟩
  · rw [heq]
  · rw [heq] at hne ⊢
    exact (hm.disk k hk hk₀).2.slotVal_eq hne

theorem Reverts.length (hr : Reverts s dat dat') (hm : Mounted D K dat s) (hk : k ∈ K) :
    inodeLength (dat' k) = inodeLength (dat k) := by
  rcases hr k with heq | ⟨hk₀, heq⟩
  · rw [heq]
  · rw [heq]
    exact (hm.disk k hk hk₀).2.length.symm

/-- The sectors that an inode's length accounts for. -/
abbrev fileSectors (f : Nat → Sector) (d : Sector) : Set Nat :=
  slotSectors f d (inodeSlots (numSectors d))

theorem Reverts.fileSectors {size : Nat} (hr : Reverts s dat dat')
    (hm : Mounted D K dat s) (hk : k ∈ K) (hok : FileOk s.content size (dat' k)) :
    fileSectors s.content (dat' k) = SimpleShell.Fs.fileSectors s.content (dat k) := by
  have hnum : numSectors (dat' k) = numSectors (dat k) := by
    rw [numSectors, numSectors, hr.length hm hk]
  have hval : ∀ a ∈ inodeSlots (numSectors (dat' k)),
      slotVal s.content (dat' k) a = slotVal s.content (dat k) a := fun a ha =>
    hr.slotVal_eq hm hk (hok.mapped.ne a ha)
  ext v
  constructor
  · rintro ⟨a, ha, rfl⟩
    exact ⟨a, by rw [← hnum]; exact ha, (hval a ha).symm⟩
  · rintro ⟨a, ha, rfl⟩
    rw [← hnum] at ha
    exact ⟨a, ha, hval a ha⟩

/-- The names that are left when one goes. -/
theorem Names.remove (h : Names K f dat)
    (hp : (listing (rootBytes f dat)).Perm ((name, k) :: listing (rootBytes f' dat')))
    (hparent : HasParent ROOT_DIR_SECTOR (rootBytes f' dat'))
    (hrootDir : inodeIsDir (dat' ROOT_DIR_SECTOR) = inodeIsDir (dat ROOT_DIR_SECTOR))
    (hdir : ∀ j ∈ K, j ≠ k → j ≠ 0 → j ≠ ROOT_DIR_SECTOR →
      inodeIsDir (dat' j) = inodeIsDir (dat j)) : Names (K \ {k}) f' dat' := by
  have hsub : ∀ n j, (n, j) ∈ listing (rootBytes f' dat') →
      (n, j) ∈ listing (rootBytes f dat) := fun n j hmem =>
    hp.symm.subset (List.mem_cons_of_mem _ hmem)
  have hsectors : (k :: (listing (rootBytes f' dat')).map Prod.snd).Nodup := by
    have := (hp.map Prod.snd).nodup_iff.1 h.sectors
    rwa [List.map_cons] at this
  have hne : ∀ n j, (n, j) ∈ listing (rootBytes f' dat') → j ≠ k := by
    intro n j hmem heq
    subst heq
    exact (List.nodup_cons.1 hsectors).1 (List.mem_map.2 ⟨_, hmem, rfl⟩)
  have hk : (name, k) ∈ listing (rootBytes f dat) := hp.symm.subset List.mem_cons_self
  obtain ⟨hk₀, hk₁, -⟩ := h.file _ _ hk
  refine ⟨⟨h.root, hk₁.symm⟩, fun j hj => ?_, fun n j hmem => ?_, fun n j hmem => ?_,
    fun n j hmem => h.plain n j (hsub n j hmem), ?_, (List.nodup_cons.1 hsectors).2,
    hparent, hrootDir.trans h.rootDir⟩
  · rcases h.mem j hj.1 with hj₀ | hj₁ | ⟨n, hmem⟩
    · exact .inl hj₀
    · exact .inr (.inl hj₁)
    · rcases List.mem_cons.1 (hp.subset hmem) with heq | hmem
      · exact absurd (congrArg Prod.snd heq) hj.2
      · exact .inr (.inr ⟨n, hmem⟩)
  · exact ⟨h.listed _ _ (hsub n j hmem), hne n j hmem⟩
  · obtain ⟨hj₀, hj₁, hreg⟩ := h.file _ _ (hsub n j hmem)
    exact ⟨hj₀, hj₁,
      (hdir j (h.listed _ _ (hsub n j hmem)) (hne n j hmem) hj₀ hj₁).trans hreg⟩
  · exact (SlotTable.keyed_cons.1 (h.keyed.perm hp.symm)).2

/-- `name`, which was in sector `k`, is gone. -/
structure FileRemoved (D K : Set Nat) (dat : Nat → Sector) (s : FileSys)
    (name : CString) (k : Nat) (dat' : Nat → Sector) (s' : FileSys) : Prop where
  session : Session D (K \ {k}) dat' s' 0
  listing : (listing (rootBytes s.content dat)).Perm
    ((name, k) :: SimpleShell.Fs.listing (rootBytes s'.content dat'))
  same : ∀ j ∈ K, j ≠ k → j ≠ 0 → j ≠ ROOT_DIR_SECTOR →
    SameFile s.content s'.content (dat j) (dat' j)
  tidy : Tidy s.content (dat ROOT_DIR_SECTOR) →
    Tidy s'.content (dat' ROOT_DIR_SECTOR)
  exact : Exact K dat s → Exact (K \ {k}) dat' s'
  used : ∀ j, s'.used j ↔ s.used j ∧ j ≠ k ∧ j ∉ fileSectors s.content (dat k)
  allocFailures : s'.allocFailures = s.allocFailures
  content : ∀ j, s.used j → j ∉ D → j ≠ 0 → j ≠ ROOT_DIR_SECTOR →
    (∀ a, slotVal s.content (dat ROOT_DIR_SECTOR) a ≠ j) → s'.content j = s.content j
  closed : getFileByFname s' name = none
  other : ∀ n, n ≠ name → getFileByFname s' n = getFileByFname s n

/-- `dir_remove` of a name that is not there. -/
theorem dirRemove_absent {n : CString} (hm : Mounted D K dat s) (hroot : ROOT_DIR_SECTOR ∈ K)
    (hd : Held dat s d p c)
    (habs : ∀ k, (n, k) ∉ listing (rootBytes s.content dat)) :
    ∃ s', dirRemove s d n = (false, s') ∧ ReadOnly s s' := by
  have hdata := hd.opened.isOpen.data
  have hok : FileOk s.content s.cache.size (s.inode p).data := by
    rw [hdata]
    exact hm.vol.file _ hroot
  have hb : fileContent s.content (s.inode p).data = rootBytes s.content dat := by
    rw [hdata]
    rfl
  have hnone := (lookup_none (d := d) (n := n) hd.inode hok hb).2 habs
  refine ⟨(lookup s d n).2, ?_, readOnly_lookup s d n⟩
  unfold dirRemove
  dsimp only
  rw [hnone]
  rfl

theorem dirOpenPath_nil (hcwd : s.mem.cwd = none)
    (hs₁ : s₁ = (dirOpenRoot s).2) (hd : Held dat s₁ (dirOpenRoot s).1 p c) :
    dirOpenPath s [] = (some (dirOpenRoot s).1, s₁) := by
  have hkept : ((dirOpenRoot s).2.inode ((dirOpenRoot s).2.dir (dirOpenRoot s).1).inode).removed =
      false := by
    rw [← hs₁, hd.inode]
    exact hd.opened.isOpen.kept
  unfold dirOpenPath
  simp only [List.head?_nil, reduceCtorEq, if_false, hcwd]
  rw [show tokens [] = [] from rfl]
  unfold dirWalk
  dsimp only
  rw [hkept, hs₁]
  rfl

/-- `filesys_remove` of a name that no file of the table has. -/
theorem filesysRemove_spec (hs : Session D K dat s 0) (hname : PlainName name)
    (hclosed : getFileByFname s name = none) :
    let r := filesysRemove s name
    ((∀ k, (name, k) ∉ listing (rootBytes s.content dat)) ∧ r.1 = false ∧
        ∃ dat', Still s dat r.2 dat' ∧ Session D K dat' r.2 0 ∧
          r.2.mem.fileTable = s.mem.fileTable) ∨
      ∃ k dat', (name, k) ∈ listing (rootBytes s.content dat) ∧ r.1 = true ∧
        FileRemoved D K dat s name k dat' r.2 := by
  have hcwd := hs.held.1
  obtain ⟨hm, ⟨p, hd⟩, hdisk, hrest, hopen, -⟩ :=
    dirOpenRoot_spec hs.mounted hs.root_mem hs.held
  have hpath := dirOpenPath_nil hcwd rfl hd
  unfold filesysRemove
  rw [hname.splitPathFilename]
  dsimp only
  rw [hpath]
  dsimp only
  generalize dirOpenRoot s = o at *
  have hstill : Still s dat o.2 dat := .of_disk hdisk dat
  have hroot := hstill.rootBytes hs
  have hnames := hstill.names hs
  by_cases hex : ∃ j, (name, j) ∈ listing (rootBytes s.content dat)
  · obtain ⟨j, hj⟩ := hex
    rw [← hroot] at hj
    obtain ⟨k, dat₁, s₁, hk, heq, hrem⟩ := dirRemove_spec hm hs.root_mem hd.opened hd.inode
      hnames.parent (fun i hi => ⟨hnames.listed _ _ hi, hnames.file _ _ hi⟩) hj
    rw [heq]
    obtain ⟨hk₀, hk₁, -⟩ := hnames.file _ _ hk
    have hroot₁ : ROOT_DIR_SECTOR ∈ K \ {k} := ⟨hs.root_mem, hk₁.symm⟩
    have hd₁ : Held dat₁ s₁ o.1 p ((0 : Nat) + 1) := hd.congr hrem.mounted hrem.tables.cwd hrem.tables.dirs
      ((hrem.sameOpen p _ hk₁.symm).2 ⟨hd.opened.mem, hd.opened.isOpen.sector⟩)
    obtain ⟨dat', hrev, hm', hheld, hdisk', hrest', hopen'⟩ :=
      dirClose_spec hrem.mounted hd₁
    have hstill' : Still s₁ dat₁ (dirClose s₁ o.1) dat' := ⟨hdisk', hrev⟩
    generalize dirClose s₁ o.1 = s' at *
    have hsame : ∀ j ∈ K \ {k}, SameFile s₁.content s'.content (dat₁ j) (dat' j) :=
      fun j hj => hstill'.sameFile hrem.mounted hj
    have hbytes : rootBytes s'.content dat' = rootBytes s₁.content dat₁ :=
      (hsame _ hroot₁).content
    have hperm : (listing (rootBytes s.content dat)).Perm
        ((name, k) :: listing (rootBytes s'.content dat')) := by
      rw [hbytes, ← hroot]
      exact hrem.listing
    have hfiles : ∀ j ∈ K, j ≠ k → j ≠ 0 → j ≠ ROOT_DIR_SECTOR →
        SameFile s.content s'.content (dat j) (dat' j) := by
      intro j hj hjk hj₀ hj₁
      have := (hrem.other j hj hjk hj₀ hj₁).trans (hsame j ⟨hj, hjk⟩)
      rwa [hdisk.content] at this
    have htab : s'.mem.fileTable = s.mem.fileTable :=
      (hrest'.fileTable.trans hrem.tables.fileTable).trans hrest.fileTable
    have hnotk : ∀ q ∈ s'.mem.openInodes, (s'.inode q).sector ≠ k := by
      intro q hq hsec
      obtain ⟨hq', hsec'⟩ := (hopen' q k hk₁).1 ⟨hq, hsec⟩
      exact hrem.gone q hq' hsec'
    have hopens : ∀ q j, j ≠ ROOT_DIR_SECTOR → j ≠ k →
        ((q ∈ s'.mem.openInodes ∧ (s'.inode q).sector = j) ↔
          (q ∈ s.mem.openInodes ∧ (s.inode q).sector = j)) := fun q j hj₁ hjk =>
      ((hopen' q j hj₁).trans (hrem.sameOpen q j hjk)).trans (hopen q j hj₁)
    rw [hroot] at hk
    have hnotin : ∀ g, (name, g) ∉ s.mem.fileTable := getFileByFname_none.1 hclosed
    refine .inr ⟨k, dat', hk, rfl, ⟨⟨hm', hheld, ?_, by rw [htab]; exact hs.keyed,
      fun n g hg => ?_, fun q hq hq₀ hq₁ => ?_, ?_⟩, hperm, hfiles, fun ht => ?_,
      fun hx => ?_, fun j => ?_, ?_, fun j hj hD hj₀ hj₁ hno => ?_, ?_, fun n _ => ?_⟩⟩
    · refine hs.names.remove hperm ?_ ((hsame _ hroot₁).isDir.trans hrem.rootDir)
        fun j hj hjk hj₀ hj₁ => (hfiles j hj hjk hj₀ hj₁).isDir
      rw [hbytes]
      exact hrem.parent
    · rw [htab] at hg
      obtain ⟨hdeny, j, hj, hopen⟩ := hs.handle n g hg
      have hne : (n, j) ≠ (name, k) := fun heq => by
        rw [(Prod.mk.inj heq).1] at hg
        exact hnotin g hg
      have hj' : (n, j) ∈ listing (rootBytes s'.content dat') :=
        (List.mem_cons.1 (hperm.subset hj)).resolve_left hne
      obtain ⟨-, hj₁, -⟩ := hs.names.file _ _ hj
      refine ⟨hdeny, j, hj', (hopens _ _ hj₁ fun hjk => hne ?_).2 hopen⟩
      rw [hjk] at hj ⊢
      rw [hs.names.sector_inj hj hk]
    · obtain ⟨hq', hsec⟩ := (hopens q _ hq₁ (hnotk q hq)).1 ⟨hq, rfl⟩
      obtain ⟨n, g, hg, hgq⟩ := hs.covered q hq' (hsec ▸ hq₀) (hsec ▸ hq₁)
      exact ⟨n, g, by rw [htab]; exact hg, hgq⟩
    · exact (hrest'.badCloses.trans hrem.tables.badCloses).trans
        (hrest.badCloses.trans hs.closes)
    · refine (hsame _ hroot₁).tidy (hrem.tidy ?_)
      rw [hdisk.content]
      exact ht
    · exact hstill'.exact (hrem.exact (hstill.exact hx))
    · rw [hstill'.used_iff, hrem.used, hstill.used_iff, hdisk.content]
    · exact (hdisk'.allocFailures.trans hrem.allocFailures).trans hdisk.allocFailures
    · rw [hdisk'.content, ← hdisk.content]
      refine hrem.content j ((hstill.used_iff j).2 hj) hD hj₀ hj₁ fun a => ?_
      rw [hdisk.content]
      exact hno a
    · rw [getFileByFname_congr htab]
      exact hclosed
    · exact getFileByFname_congr htab n
  · have habs : ∀ k, (name, k) ∉ listing (rootBytes s.content dat) :=
      fun k hk => hex ⟨k, hk⟩
    obtain ⟨s₁, heq, hro⟩ := dirRemove_absent (n := name) hm hs.root_mem hd
      (by rw [hroot]; exact habs)
    rw [heq]
    have hd₁ := hro.held hd
    obtain ⟨dat', hrev, hm', hheld, hdisk', hrest', hopen'⟩ :=
      dirClose_spec (c := 0) (hro.mounted hm) hd₁
    have hstill' : Still s dat (dirClose s₁ o.1) dat' :=
      (hstill.trans (hro.still dat)).trans ⟨hdisk', hrev⟩
    have hrest'' := (hrest.trans hro.tables.rest).trans hrest'
    exact .inl ⟨habs, rfl, dat', hstill', hs.still hm' hheld hstill'
      ((hopen.trans (SameOpen.of_mem hro.mem _)).trans hopen') hrest'', hrest''.fileTable⟩

theorem FileRemoved.of_still (hs : Session D K dat s 0) (hs₁ : Session D K dat₁ s₁ 0)
    (hstill : Still s dat s₁ dat₁) (h : FileRemoved D K dat₁ s₁ name k dat' s')
    (hother : ∀ n, n ≠ name → getFileByFname s₁ n = getFileByFname s n) :
    FileRemoved D K dat s name k dat' s' := by
  have hroot := hstill.rootBytes hs
  have hcont := hstill.disk.content
  have hlisted := h.listing.symm.subset List.mem_cons_self
  have hk := hs₁.names.listed _ _ hlisted
  have hok := hs₁.mounted.vol.file k hk
  rw [hcont] at hok
  refine ⟨h.session, by rw [← hroot]; exact h.listing, fun j hj hjk hj₀ hj₁ =>
    (hstill.sameFile hs.mounted hj).trans (h.same j hj hjk hj₀ hj₁), fun ht => h.tidy ?_,
    fun hx => h.exact (hstill.exact hx), fun j => ?_,
    h.allocFailures.trans hstill.disk.allocFailures, fun j hj hD hj₀ hj₁ hno => ?_,
    h.closed, fun n hn => (h.other n hn).trans (hother n hn)⟩
  · exact (hstill.sameFile hs.mounted hs.root_mem).tidy ht
  · rw [h.used, hstill.used_iff, hcont, hstill.reverts.fileSectors hs.mounted hk hok]
  · rw [← hcont]
    refine h.content j ((hstill.used_iff j).2 hj) hD hj₀ hj₁ fun a heq => ?_
    rw [hcont] at heq
    have hne : slotVal s.content (dat₁ ROOT_DIR_SECTOR) a ≠ 0 := by rw [heq]; exact hj₀
    rw [hstill.reverts.slotVal_eq hs.mounted hs.root_mem hne] at heq
    exact hno a heq

theorem fsutilRm_spec (hs : Session D K dat s 0) (hname : PlainName name) :
    let r := fsutilRm s name
    (r.1 = false ∧ ∃ dat', NoFile D K dat s 0 name dat' r.2) ∨
      ∃ k dat', (name, k) ∈ listing (rootBytes s.content dat) ∧ r.1 = true ∧
        FileRemoved D K dat s name k dat' r.2 := by
  obtain ⟨dat₁, hstill, hs₁, hclosed, hother⟩ := removeFromFileTable_spec hs name
  have hsame : getFileByFname s name = none → removeFromFileTable s name = s := by
    intro hnone
    unfold removeFromFileTable
    rw [hnone]
  unfold fsutilRm
  generalize removeFromFileTable s name = t at *
  have hroot := hstill.rootBytes hs
  rcases filesysRemove_spec hs₁ hname hclosed with
    ⟨habs, hret, dat', hstill', hs', htab⟩ | ⟨k, dat', hk, hret, hrem⟩
  · rw [hroot] at habs
    have hnone : getFileByFname s name = none := by
      cases hget : getFileByFname s name with
      | none => rfl
      | some f =>
          obtain ⟨-, k, hk, -⟩ := hs.listed_of_get hget
          exact absurd hk (habs k)
    exact .inl ⟨hret, dat', habs, hstill.trans hstill', hs',
      htab.trans (by rw [hsame hnone]), .of_closed hs.held _⟩
  · rw [hroot] at hk
    exact .inr ⟨k, dat', hk, hret, hrem.of_still hs hs₁ hstill hother⟩

end Remove

end SimpleShell.Fs
