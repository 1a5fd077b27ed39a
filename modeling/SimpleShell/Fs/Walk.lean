import SimpleShell.Fs.MakeFile

/-!
# The commands on every file

Loops over the names of the root directory, which stays open around them. A
body that changes no file and leaves the loop's handle alone makes a loop that
changes none. `ls`, `find_file` and `fragmentation_degree` are such loops; the
files they look at stay in the table.
-/

namespace SimpleShell.Fs

open SimpleShell.Lib

section Walk

variable {D K : Set Nat} {dat dat' : Nat → Sector} {s s₁ s' : FileSys} {c : Nat}
  {d p k i : Nat} {name : CString} {α : Type}

/-- A step that changes no file, inside a session. -/
structure Quiet (D K : Set Nat) (dat : Nat → Sector) (s : FileSys) (c : Nat)
    (dat' : Nat → Sector) (s' : FileSys) : Prop where
  still : Still s dat s' dat'
  session : Session D K dat' s' c
  handle : SameHandle s s'

theorem Quiet.refl (hs : Session D K dat s c) : Quiet D K dat s c dat s :=
  ⟨.refl s dat, hs, .refl s⟩

theorem Quiet.trans {dat₁ : Nat → Sector} (h₁ : Quiet D K dat s c dat₁ s₁)
    (h₂ : Quiet D K dat₁ s₁ c dat' s') : Quiet D K dat s c dat' s' :=
  ⟨h₁.still.trans h₂.still, h₂.session, h₁.handle.trans h₂.handle⟩

theorem FileUsed.quiet {f : File} (h : FileUsed D K dat s c name f k dat' s') :
    Quiet D K dat s c dat' s' := ⟨h.still, h.session, h.handle⟩

theorem NoFile.quiet (h : NoFile D K dat s c name dat' s') : Quiet D K dat s c dat' s' :=
  ⟨h.still, h.session, h.handle⟩

theorem fsutilSize_quiet (hs : Session D K dat s c) (hname : PlainName name) :
    ∃ dat', Quiet D K dat s c dat' (fsutilSize s name).2 := by
  rcases fsutilSize_spec hs hname with ⟨-, dat', h⟩ | ⟨f, k, dat', -, -, -, h⟩
  · exact ⟨dat', h.quiet⟩
  · exact ⟨dat', h.quiet⟩

theorem fsutilSeek_quiet (hs : Session D K dat s c) (hname : PlainName name)
    (offset : Int) : ∃ dat', Quiet D K dat s c dat' (fsutilSeek s name offset).2 := by
  rcases fsutilSeek_spec hs hname offset with ⟨-, dat', h⟩ | ⟨f, k, dat', -, -, -, h⟩
  · exact ⟨dat', h.quiet⟩
  · exact ⟨dat', h.quiet⟩

theorem fsutilRead_quiet (hs : Session D K dat s c) (hname : PlainName name) (size : Int) :
    ∃ dat', Quiet D K dat s c dat' (fsutilRead s name size).2 := by
  rcases fsutilRead_spec hs hname size with ⟨-, dat', h⟩ | ⟨f, k, dat', -, -, -, -, h⟩
  · exact ⟨dat', h.quiet⟩
  · exact ⟨dat', h.quiet⟩

/-! ## The loop over the names -/

theorem Held.setPos (hd : Held dat s d p c) {x : Dir} (hx : x.inode = (s.dir d).inode)
    (hc : x.openCnt = (s.dir d).openCnt) : Held dat (s.setDir d x) d p c := by
  have hdir := FileSys.dir_setDir hd.live x
  refine ⟨hd.cwd, ?_, ?_, ?_, ⟨hd.opened.mem, hd.opened.isOpen.congr rfl⟩⟩
  · rw [hdir]
    exact (Heap.get?_set hd.live x d).trans (if_pos rfl)
  · rw [hdir, hx]
    exact hd.inode
  · rw [hdir, hc]
    exact hd.openCnt

theorem Session.handle_of_cwd (hs : Session D K dat s (c + 1)) (hcwd : s.mem.cwd = some d) :
    ∃ p, Held dat s d p (c + 1) := by
  obtain ⟨e, p, he⟩ := hs.held
  have hde : d = e := Option.some.inj (hcwd.symm.trans he.cwd)
  exact ⟨p, by rw [hde]; exact he⟩

/-- `dir_readdir` yields a name that is listed and moves on. -/
theorem dirReaddir_spec (hs : Session D K dat s (c + 1)) (hcwd : s.mem.cwd = some d)
    (hpos : (s.dir d).pos = (ENTRY_SIZE * (i + 1) : Nat)) :
    let r := dirReaddir s d
    Still s dat r.2 dat ∧ Session D K dat r.2 (c + 1) ∧ r.2.mem.cwd = some d ∧
      r.2.mem.fileTable = s.mem.fileTable ∧
      (∃ j, (r.2.dir d).pos = (ENTRY_SIZE * (j + 1) : Nat)) ∧
      ∀ n, r.1 = some n → ∃ k, (n, k) ∈ listing (rootBytes s.content dat) := by
  obtain ⟨p, hd⟩ := hs.handle_of_cwd hcwd
  have hdata := hd.opened.isOpen.data
  have hok : FileOk s.content s.cache.size (s.inode p).data := by
    rw [hdata]
    exact hs.mounted.vol.file _ hs.root_mem
  have hb : fileContent s.content (s.inode p).data = rootBytes s.content dat := by
    rw [hdata]
    rfl
  have hn : (rootBytes s.content dat).length / ENTRY_SIZE - (i + 1) < entryRounds s p := by
    rw [entryRounds_eq hb]
    exact Nat.lt_succ_of_le (Nat.sub_le ..)
  have hscan := scanEntries_fst (i := i + 1) (fun e => e.inUse) hok hb hn
  have hro := readOnly_scanEntries (fun e => e.inUse) p (entryRounds s p) s
    (ENTRY_SIZE * (i + 1))
  have hnat : (s.dir d).pos.toNat = ENTRY_SIZE * (i + 1) := by
    rw [hpos]
    exact Int.toNat_natCast _
  unfold dirReaddir
  dsimp only
  rw [hd.inode, hnat]
  generalize scanEntries (fun e => e.inUse) p (entryRounds s p) s (ENTRY_SIZE * (i + 1)) =
    r at *
  have hs₁ := hro.session hs
  have hd₁ := hro.held hd
  have hdir : r.2.dir d = s.dir d := FileSys.dir_congr (by rw [hro.mem]) d
  obtain ⟨x, hx⟩ : ∃ x : Dir, x =
      ⟨p, readdirPos (inodeLength (s.inode p).data).toNat (ENTRY_SIZE * (i + 1)) r.1,
        (s.dir d).openCnt⟩ := ⟨_, rfl⟩
  rw [← hx]
  have hd₂ : Held dat (r.2.setDir d x) d p (c + 1) :=
    hd₁.setPos (by rw [hx, hdir, hd.inode]) (by rw [hx, hdir])
  have hdisk : SameDisk r.2 (r.2.setDir d x) := ⟨rfl, rfl, rfl, rfl⟩
  have hstill : Still r.2 dat (r.2.setDir d x) dat := .of_disk hdisk dat
  refine ⟨(hro.still dat).trans hstill, hs₁.still (hs₁.mounted.setDir d x) ⟨d, p, hd₂⟩ hstill
    (SameOpen.of_sectors rfl (fun _ => rfl) _) ⟨rfl, rfl, rfl, rfl⟩, hd₂.cwd,
    show r.2.mem.fileTable = s.mem.fileTable by rw [hro.mem], ?_, fun n hname => ?_⟩
  · rw [FileSys.dir_setDir hd₁.live x, hx]
    cases hr : r.1 with
    | none =>
        refine ⟨i + ((inodeLength (s.inode p).data).toNat - ENTRY_SIZE * (i + 1)) / ENTRY_SIZE,
          ?_⟩
        unfold readdirPos
        dsimp only
        generalize ((inodeLength (s.inode p).data).toNat - ENTRY_SIZE * (i + 1)) /
          ENTRY_SIZE = m
        simp only [ENTRY_SIZE]
        omega
    | some e =>
        rw [hr] at hscan
        obtain ⟨j, hj, -⟩ := findEntry_some (e := e.1) (o := e.2) hscan.symm
        refine ⟨j, ?_⟩
        unfold readdirPos
        dsimp only
        rw [hj]
        simp only [ENTRY_SIZE]
        omega
  · obtain ⟨e, he, rfl⟩ := Option.map_eq_some_iff.1 hname
    rw [he] at hscan
    obtain ⟨j, -, hij, hmem, huse⟩ := findEntry_some (e := e.1) (o := e.2) hscan.symm
    obtain ⟨m, rfl⟩ : ∃ m, j = m + 1 := ⟨j - 1, by omega⟩
    exact ⟨e.1.inodeSector, mem_listing.2 ⟨m, e.1, hmem, huse, rfl, rfl⟩⟩

theorem readdirLoop_spec {body : α → CString → FileSys → α × FileSys}
    (hbody : ∀ a name dat s, Session D K dat s (c + 1) → PlainName name →
      (∃ k, (name, k) ∈ listing (rootBytes s.content dat)) →
      ∃ dat', Quiet D K dat s (c + 1) dat' (body a name s).2) (n : Nat) :
    ∀ (a : α) (dat : Nat → Sector) (s : FileSys) (i : Nat), Session D K dat s (c + 1) →
      s.mem.cwd = some d → (s.dir d).pos = (ENTRY_SIZE * (i + 1) : Nat) →
      ∃ dat', Still s dat (readdirLoop body d n a s).2 dat' ∧
        Session D K dat' (readdirLoop body d n a s).2 (c + 1) ∧
        (readdirLoop body d n a s).2.mem.cwd = some d := by
  induction n with
  | zero => exact fun a dat s i hs hcwd _ => ⟨dat, .refl s dat, hs, hcwd⟩
  | succ n ih =>
      intro a dat s i hs hcwd hpos
      obtain ⟨hstill, hs₁, hcwd₁, -, ⟨j, hj⟩, hlisted⟩ := dirReaddir_spec hs hcwd hpos
      unfold readdirLoop
      dsimp only
      generalize dirReaddir s d = r at *
      cases hr : r.1 with
      | none => exact ⟨dat, hstill, hs₁, hcwd₁⟩
      | some name =>
          obtain ⟨k, hk⟩ := hlisted name hr
          have hk₁ := hk
          rw [← hstill.rootBytes hs] at hk₁
          obtain ⟨dat₁, hq⟩ := hbody a name dat r.2 hs₁ (hs.names.plain _ _ hk) ⟨k, hk₁⟩
          dsimp only
          generalize body a name r.2 = b at *
          obtain ⟨hcwd₂, hpos₂⟩ := hq.handle d hcwd₁
          obtain ⟨dat', hstill', hs', hcwd'⟩ :=
            ih b.1 dat₁ b.2 j hq.session hcwd₂ (hpos₂.trans hj)
          exact ⟨dat', (hstill.trans hq.still).trans hstill', hs', hcwd'⟩

theorem withRootNames_spec {body : α → CString → FileSys → α × FileSys}
    (hbody : ∀ a name dat s, Session D K dat s 1 → PlainName name →
      (∃ k, (name, k) ∈ listing (rootBytes s.content dat)) →
      ∃ dat', Quiet D K dat s 1 dat' (body a name s).2)
    (a : α) (hs : Session D K dat s 0) :
    ∃ dat', Quiet D K dat s 0 dat' (withRootNames body a s).2 := by
  obtain ⟨hm, ⟨p, hd⟩, hdisk, hrest, hopen, hpos⟩ :=
    dirOpenRoot_spec hs.mounted hs.root_mem hs.held
  unfold withRootNames
  dsimp only
  generalize dirOpenRoot s = o at *
  have hstill : Still s dat o.2 dat := .of_disk hdisk dat
  have hs₁ : Session D K dat o.2 (0 + 1) := hs.still hm ⟨o.1, p, hd⟩ hstill hopen hrest
  obtain ⟨dat₁, hstill₁, hs₂, hcwd⟩ := readdirLoop_spec (d := o.1) hbody
    (entryRounds o.2 (o.2.dir o.1).inode) a dat o.2 0 hs₁ hd.cwd (hpos rfl)
  generalize readdirLoop body o.1 (entryRounds o.2 (o.2.dir o.1).inode) a o.2 = r at *
  obtain ⟨p', hd'⟩ := hs₂.handle_of_cwd hcwd
  obtain ⟨dat', hrev, hm', hheld, hdisk', hrest', hopen'⟩ := dirClose_spec hs₂.mounted hd'
  have hstill' : Still r.2 dat₁ (dirClose r.2 o.1) dat' := ⟨hdisk', hrev⟩
  exact ⟨dat', (hstill.trans hstill₁).trans hstill',
    hs₂.still hm' hheld hstill' hopen' hrest', .of_closed hs.held _⟩

/-! ## The commands -/

theorem fsutilLs_quiet (hs : Session D K dat s 0) :
    ∃ dat', Quiet D K dat s 0 dat' (fsutilLs s).2 :=
  withRootNames_spec (fun _ _ dat _ hs _ _ => ⟨dat, .refl hs⟩) [] hs

theorem findFile_quiet (hs : Session D K dat s 0) :
    ∃ dat', Quiet D K dat s 0 dat' (findFile s).2 := by
  refine withRootNames_spec (fun found name dat s hs hname _ => ?_) [] hs
  obtain ⟨dat₁, h₁⟩ := fsutilSize_quiet hs hname
  obtain ⟨dat₂, h₂⟩ := fsutilSize_quiet h₁.session hname
  obtain ⟨dat₃, h₃⟩ := fsutilRead_quiet h₂.session hname
    (fsutilSize (fsutilSize s name).2 name).1
  exact ⟨dat₃, (h₁.trans h₂).trans h₃⟩

theorem readOnly_cache (s : FileSys) {c : BufferCache} (hsize : c.size = s.cache.size)
    (hcont : c.content = s.content) : ReadOnly s { s with cache := c } :=
  ⟨⟨rfl, rfl, hsize, hcont⟩, rfl⟩

theorem doublyIndirectSectors_reads (blk : Sector) (cnt : Nat) :
    ∀ (i : Nat) (c : BufferCache) (num : Nat),
      (doublyIndirectSectors blk cnt i c num).2.size = c.size ∧
        (doublyIndirectSectors blk cnt i c num).2.content = c.content := by
  induction cnt with
  | zero => exact fun _ _ _ => ⟨rfl, rfl⟩
  | succ cnt ih =>
      intro i c num
      unfold doublyIndirectSectors
      dsimp only
      obtain ⟨hsize, hcont⟩ := ih (i + 1) (c.read (blockEntry blk i)).2
        (num - min num INDIRECT_BLOCKS_PER_SECTOR)
      rw [hsize, hcont]
      exact ⟨BufferCache.read_size .., BufferCache.read_content ..⟩

theorem getInodeDataSectors_reads (c : BufferCache) (e : Sector) :
    (getInodeDataSectors c e).2.size = c.size ∧
      (getInodeDataSectors c e).2.content = c.content := by
  unfold getInodeDataSectors
  split
  · exact ⟨rfl, rfl⟩
  · dsimp only
    generalize bytesToSectors (inodeLength e) - min (bytesToSectors (inodeLength e))
      DIRECT_BLOCKS_COUNT = m
    obtain ⟨r, hr⟩ : ∃ r : List Nat × BufferCache, r = if 0 < min m INDIRECT_BLOCKS_PER_SECTOR then
        ((List.range (min m INDIRECT_BLOCKS_PER_SECTOR)).map
          (blockEntry (c.read (indirectBlock e)).1), (c.read (indirectBlock e)).2)
      else ([], c) := ⟨_, rfl⟩
    rw [← hr]
    have hread : r.2.size = c.size ∧ r.2.content = c.content := by
      rw [hr]
      split
      · exact ⟨BufferCache.read_size .., BufferCache.read_content ..⟩
      · exact ⟨rfl, rfl⟩
    split
    · obtain ⟨hsize, hcont⟩ := doublyIndirectSectors_reads
        (r.2.read (doublyIndirectBlock e)).1 _ 0 (r.2.read (doublyIndirectBlock e)).2 _
      rw [hsize, hcont, BufferCache.read_size, BufferCache.read_content]
      exact hread
    · exact hread

theorem fragmentationStep_quiet (hs : Session D K dat s c) (hname : PlainName name)
    (hlisted : ∃ k, (name, k) ∈ listing (rootBytes s.content dat)) (count : Nat × Nat) :
    ∃ dat', Quiet D K dat s c dat' (fragmentationStep count name s).2 := by
  obtain ⟨j, hj⟩ := hlisted
  rcases fsutilSize_spec hs hname with ⟨-, dat', h⟩ | ⟨f, k, dat₁, -, -, -, h⟩
  · exact absurd hj (h.absent j)
  · unfold fragmentationStep
    generalize fsutilSize s name = z at *
    dsimp only at h ⊢
    split
    · obtain ⟨dat', hstill, hrest, hm, hheld, hhandle, hcase⟩ :=
        filesysOpen_spec h.session hname
      generalize filesysOpen z.2 name = o at *
      rcases hcase with ⟨habs, -⟩ | ⟨k', q, hk', hsome, hq, hopens⟩
      · exact absurd h.file.listed (habs k)
      · have hkk : k' = k := h.session.names.unique hk' h.file.listed
        subst hkk
        have hqf : q = f.inode := by
          have := (hopens f.inode k' (h.session.names.file _ _ hk').2.1).2
            (.inr ⟨h.file.opened.mem, h.file.opened.isOpen.sector⟩)
          exact hm.opened_eq hq (hm.opened_iff.2 this)
        subst hqf
        have hsame := hopens.same h.file.opened.mem h.file.opened.isOpen.sector
        have hs' := h.session.still hm hheld hstill hsame hrest
        rw [hsome]
        dsimp only
        obtain ⟨hsize, hcont⟩ := getInodeDataSectors_reads o.2.cache
          (o.2.inode (fileOpen f.inode).inode).data
        have hro := readOnly_cache o.2 hsize hcont
        exact ⟨dat', (h.still.trans hstill).trans (hro.still dat'), hro.session hs',
          (h.handle.trans hhandle).trans (.of_dirs rfl rfl)⟩
    · exact ⟨dat₁, h.quiet⟩

theorem fragmentationDegree_quiet (hs : Session D K dat s 0) :
    ∃ dat', Quiet D K dat s 0 dat' (fragmentationDegree s).2 :=
  withRootNames_spec
    (fun count _ _ _ hs hname hlisted => fragmentationStep_quiet hs hname hlisted count)
    (0, 0) hs

theorem copyOut_quiet (hs : Session D K dat s c) (hname : PlainName name) :
    ∃ dat', Quiet D K dat s c dat' (copyOut s name).2 := by
  obtain ⟨dat₁, h₁⟩ := fsutilSize_quiet hs hname
  obtain ⟨dat₂, h₂⟩ := fsutilRead_quiet h₁.session hname (fsutilSize s name).1
  exact ⟨dat₂, h₁.trans h₂⟩

end Walk

end SimpleShell.Fs
