import SimpleShell.Fs.Listing

/-!
# The root directory's handle

Between two commands no directory is open and `cwd` is null. A command opens
the root, which makes the handle behind `cwd`, and a nested opener finds the
handle there and counts itself. `RootHeld` counts the openers; the two lemmas
say that opening and closing move the count by one and touch nothing but the
root's own inode.
-/

namespace SimpleShell.Fs

open SimpleShell.Lib

/-- The sectors other than `k` have the open inodes they had. -/
def SameOpen (k : Nat) (s s' : FileSys) : Prop :=
  ∀ q j, j ≠ k → ((q ∈ s'.mem.openInodes ∧ (s'.inode q).sector = j) ↔
    (q ∈ s.mem.openInodes ∧ (s.inode q).sector = j))

section SameOpen

variable {D K : Set Nat} {dat dat' : Nat → Sector} {s s₁ s' : FileSys} {p q k j : Nat}
  {d' : Sector}

theorem SameOpen.of_sectors (hopen : s'.mem.openInodes = s.mem.openInodes)
    (hsector : ∀ q, (s'.inode q).sector = (s.inode q).sector) (k : Nat) :
    SameOpen k s s' := by
  intro q j _
  rw [hopen, hsector]

theorem SameOpen.of_mem (h : s'.mem = s.mem) (k : Nat) : SameOpen k s s' :=
  .of_sectors (by rw [h]) (fun q => by rw [FileSys.inode_congr h]) k

theorem Wrote.sameOpen (hw : Wrote D K dat s p k d' s') (hp : IsOpen dat s p k)
    (i : Nat) : SameOpen i s s' := .of_sectors hw.openInodes (hw.sector hp) i

theorem SameOpen.trans (h₁ : SameOpen k s s₁) (h₂ : SameOpen k s₁ s') :
    SameOpen k s s' := fun q j hjk => (h₂ q j hjk).trans (h₁ q j hjk)

theorem SameOpen.opened (h : SameOpen k s s') (hm : Mounted D K dat' s')
    (hp : Opened dat s q j) (hjk : j ≠ k) : Opened dat' s' q j :=
  hm.opened_iff.2 ((h q j hjk).2 ⟨hp.mem, hp.isOpen.sector⟩)

/-- Opening an inode adds that one at most. -/
theorem inodeOpen_sameOpen (h : Mounted D K dat s) (hk : k ∈ K) :
    SameOpen k s (inodeOpen s k).2 := by
  obtain ⟨hm, ho, -, -, hkeep, hall⟩ := inodeOpen_spec h hk
  generalize inodeOpen s k = r at *
  intro q j hjk
  constructor
  · rintro ⟨hq, hsec⟩
    rcases hall q hq with rfl | hq'
    · exact absurd (hsec.symm.trans ho.isOpen.sector) hjk
    · exact ⟨hq', by rw [← (hkeep q hq').2]; exact hsec⟩
  · rintro ⟨hq, hsec⟩
    obtain ⟨hq', heq⟩ := hkeep q hq
    exact ⟨hq', by rw [heq]; exact hsec⟩

/-- Closing one takes that one away. -/
theorem sameOpen_of_erase (h : Mounted D K dat s) (hp : Opened dat s p k)
    (hopen : s'.mem.openInodes = s.mem.openInodes.erase p)
    (hother : ∀ q, q ≠ p → s'.inode q = s.inode q) : SameOpen k s s' := by
  intro q j hjk
  rw [hopen, h.nodup.mem_erase_iff]
  constructor
  · rintro ⟨⟨hqp, hq⟩, hsec⟩
    exact ⟨hq, by rw [← hother q hqp]; exact hsec⟩
  · rintro ⟨hq, hsec⟩
    have hqp : q ≠ p := fun hqp => hjk (by rw [← hsec, hqp, hp.isOpen.sector])
    exact ⟨⟨hqp, hq⟩, by rw [hother q hqp]; exact hsec⟩

/-- And no open inode is left in its sector. -/
theorem erase_sector_ne (h : Mounted D K dat s) (hp : Opened dat s p k)
    (hopen : s'.mem.openInodes = s.mem.openInodes.erase p)
    (hother : ∀ q, q ≠ p → s'.inode q = s.inode q) :
    ∀ q ∈ s'.mem.openInodes, (s'.inode q).sector ≠ k := by
  intro q hq
  rw [hopen, h.nodup.mem_erase_iff] at hq
  rw [hother q hq.1]
  exact h.sector_ne hp hq.2 hq.1

end SameOpen

/-! ## Going back to the disk -/

/-- Some of the inodes are back at what their sectors hold. -/
def Reverts (s : FileSys) (dat dat' : Nat → Sector) : Prop :=
  ∀ k, dat' k = dat k ∨ (k ≠ 0 ∧ dat' k = s.content k)

section Reverts

variable {D K : Set Nat} {dat dat' : Nat → Sector} {s s' : FileSys} {k : Nat}

theorem Reverts.refl (s : FileSys) (dat : Nat → Sector) : Reverts s dat dat :=
  fun _ => .inl rfl

theorem Reverts.close (hk : k ≠ 0) :
    Reverts s dat (Function.update dat k (s.content k)) := by
  intro j
  rcases eq_or_ne j k with rfl | hjk
  · exact .inr ⟨hk, Function.update_self ..⟩
  · exact .inl (Function.update_of_ne hjk ..)

/-- A file is the same before and after its inode went back. -/
theorem Reverts.fileContent (hr : Reverts s dat dat') (h : Mounted D K dat s)
    (hk : k ∈ K) :
    fileContent s.content (dat' k) = SimpleShell.Fs.fileContent s.content (dat k) := by
  rcases hr k with heq | ⟨hk₀, heq⟩
  · rw [heq]
  · rw [heq]
    obtain ⟨hok, hold⟩ := h.disk k hk hk₀
    exact hold.fileContent hok

theorem Reverts.isDir (hr : Reverts s dat dat') (h : Mounted D K dat s) (hk : k ∈ K) :
    inodeIsDir (dat' k) = inodeIsDir (dat k) := by
  rcases hr k with heq | ⟨hk₀, heq⟩
  · rw [heq]
  · rw [heq]
    exact (h.disk k hk hk₀).2.header.isDir.symm

theorem Exact.congr_dat (hx : Exact K dat s) (h : ∀ k ∈ K, dat' k = dat k) :
    Exact K dat' s := by
  refine ⟨fun k hk => (hx.sync k hk).trans (h k hk).symm, fun k hk a => ?_, fun j hj => ?_⟩
  · rw [h k hk]
    exact hx.null k hk a
  · rcases hx.used j hj with hjK | ⟨x, hxj⟩
    · exact .inl hjK
    · refine .inr ⟨x, ?_⟩
      unfold own at hxj ⊢
      rw [h _ x.1.2]
      exact hxj

/-- Nothing was stale, so nothing changed. -/
theorem Reverts.exact (hr : Reverts s dat dat') (hx : Exact K dat s) : Exact K dat' s := by
  refine hx.congr_dat fun k hk => ?_
  rcases hr k with heq | ⟨-, heq⟩
  · exact heq
  · exact heq.trans (hx.sync k hk)

end Reverts

/-! ## Holding the root -/

/-- The tables other than those of the inodes and of the directories. -/
structure SameRest (s s' : FileSys) : Prop where
  freeMapFile : s'.mem.freeMapFile = s.mem.freeMapFile
  fileTable : s'.mem.fileTable = s.mem.fileTable
  badCloses : s'.mem.badCloses = s.mem.badCloses
  stray : s'.mem.stray = s.mem.stray

theorem SameRest.refl (s : FileSys) : SameRest s s := ⟨rfl, rfl, rfl, rfl⟩

theorem SameRest.trans {s s₁ s' : FileSys} (h₁ : SameRest s s₁) (h₂ : SameRest s₁ s') :
    SameRest s s' :=
  ⟨h₂.freeMapFile.trans h₁.freeMapFile, h₂.fileTable.trans h₁.fileTable,
    h₂.badCloses.trans h₁.badCloses, h₂.stray.trans h₁.stray⟩

theorem SameTables.rest {s s' : FileSys} (h : SameTables s s') : SameRest s s' :=
  ⟨h.freeMapFile, h.fileTable, h.badCloses, h.stray⟩

/-- Handle `d` is the one behind `cwd`, with `c` openers, over the root's open
inode `p`. -/
structure Held (dat : Nat → Sector) (s : FileSys) (d p : Nat) (c : Int) : Prop where
  cwd : s.mem.cwd = some d
  live : s.mem.dirs.get? d = some (s.dir d)
  inode : (s.dir d).inode = p
  openCnt : (s.dir d).openCnt = c
  opened : Opened dat s p ROOT_DIR_SECTOR

/-- The root directory has `c` openers. -/
def RootHeld (dat : Nat → Sector) (s : FileSys) : Nat → Prop
  | 0 => s.mem.cwd = none ∧ ∀ p ∈ s.mem.openInodes, (s.inode p).sector ≠ ROOT_DIR_SECTOR
  | c + 1 => ∃ d p, Held dat s d p (c + 1)

section Root

variable {D K : Set Nat} {dat dat' : Nat → Sector} {s s' : FileSys} {d p q k : Nat}
  {c : Nat} {i : Int}

theorem FileSys.dir_eq {x : Dir} (h : s.mem.dirs.get? d = some x) : s.dir d = x := by
  unfold FileSys.dir
  rw [h]
  rfl

theorem FileSys.dir_congr (h : s'.mem.dirs = s.mem.dirs) (d : Nat) :
    s'.dir d = s.dir d := by
  unfold FileSys.dir
  rw [h]

theorem FileSys.dir_setDir {x : Dir} (h : s.mem.dirs.get? d = some x) (y : Dir) :
    (s.setDir d y).dir d = y :=
  FileSys.dir_eq ((Heap.get?_set h y d).trans (if_pos rfl))

theorem FileSys.pos_setDir {x : Dir} (h : s.mem.dirs.get? d = some (s.dir d))
    (hx : x.pos = (s.dir d).pos) : ((s.setDir d x).dir d).pos = (s.dir d).pos := by
  rw [FileSys.dir_setDir h, hx]

/-- A handle stays while the directories and the root's inode do. -/
theorem Held.congr (h : Held dat s d p i) (hm : Mounted D K dat' s')
    (hcwd : s'.mem.cwd = s.mem.cwd) (hdirs : s'.mem.dirs = s.mem.dirs)
    (hopen : p ∈ s'.mem.openInodes ∧ (s'.inode p).sector = ROOT_DIR_SECTOR) :
    Held dat' s' d p i := by
  have hdir := FileSys.dir_congr hdirs d
  exact ⟨hcwd.trans h.cwd, by rw [hdirs, hdir]; exact h.live, by rw [hdir]; exact h.inode,
    by rw [hdir]; exact h.openCnt, hm.opened_iff.2 hopen⟩

/-- What happens to other inodes is no matter. -/
theorem RootHeld.congr (h : RootHeld dat s c) (hm : Mounted D K dat' s')
    (hcwd : s'.mem.cwd = s.mem.cwd) (hdirs : s'.mem.dirs = s.mem.dirs)
    (hsame : SameOpen k s s') (hk : k ≠ ROOT_DIR_SECTOR) : RootHeld dat' s' c := by
  cases c with
  | zero =>
      refine ⟨hcwd.trans h.1, fun q hq hroot => ?_⟩
      obtain ⟨hq', hroot'⟩ := (hsame q _ hk.symm).1 ⟨hq, hroot⟩
      exact h.2 q hq' hroot'
  | succ c =>
      obtain ⟨d, p, hd⟩ := h
      exact ⟨d, p, hd.congr hm hcwd hdirs
        ((hsame p _ hk.symm).2 ⟨hd.opened.mem, hd.opened.isOpen.sector⟩)⟩

theorem Mounted.setDirs (h : Mounted D K dat s) (dirs : Heap Dir) (cwd : Option Nat) :
    Mounted D K dat { s with mem := { s.mem with dirs := dirs, cwd := cwd } } :=
  h.frame rfl rfl rfl rfl rfl rfl

theorem Mounted.setDir (h : Mounted D K dat s) (d : Nat) (x : Dir) :
    Mounted D K dat (s.setDir d x) :=
  h.frame rfl rfl rfl rfl rfl rfl

/-- `dir_open_root`. -/
theorem dirOpenRoot_spec (h : Mounted D K dat s) (hroot : ROOT_DIR_SECTOR ∈ K)
    (hc : RootHeld dat s c) :
    let r := dirOpenRoot s
    Mounted D K dat r.2 ∧ (∃ p, Held dat r.2 r.1 p (c + 1)) ∧ SameDisk s r.2 ∧
      SameRest s r.2 ∧ SameOpen ROOT_DIR_SECTOR s r.2 ∧
      (c = 0 → (r.2.dir r.1).pos = ENTRY_SIZE) := by
  unfold dirOpenRoot
  cases c with
  | zero =>
      have hopen := inodeOpen_sameOpen h hroot
      obtain ⟨hm, ho, hdisk, htab, -, -⟩ := inodeOpen_spec h hroot
      rw [hc.1]
      generalize inodeOpen s ROOT_DIR_SECTOR = i at *
      have hget : ∀ q, (i.2.mem.dirs.alloc ⟨i.1, ENTRY_SIZE, 1⟩).2.get? q = _ :=
        Heap.get?_alloc _ _
      have hdir : (dirOpen i.2 i.1).2.dir (dirOpen i.2 i.1).1 = ⟨i.1, ENTRY_SIZE, 1⟩ :=
        FileSys.dir_eq ((hget _).trans (if_pos rfl))
      refine ⟨hm.setDirs _ _, ⟨i.1, rfl, ?_, ?_, ?_, ?_⟩, ?_, ?_, ?_, fun _ => ?_⟩
      · exact ((hget _).trans (if_pos rfl)).trans (congrArg some hdir.symm)
      · exact congrArg Dir.inode hdir
      · exact congrArg Dir.openCnt hdir
      · exact ⟨ho.mem, ho.isOpen.congr rfl⟩
      · exact ⟨hdisk.freeMap, hdisk.allocFailures, hdisk.size, hdisk.content⟩
      · exact ⟨htab.freeMapFile, htab.fileTable, htab.badCloses, htab.stray⟩
      · exact hopen
      · exact congrArg Dir.pos hdir
  | succ c =>
      obtain ⟨d, p, hd⟩ := hc
      rw [hd.cwd]
      have hdir := FileSys.dir_setDir hd.live
        { s.dir d with openCnt := (s.dir d).openCnt + 1 }
      refine ⟨h.setDir _ _, ⟨p, hd.cwd, ?_, ?_, ?_, ?_⟩, ⟨rfl, rfl, rfl, rfl⟩, ⟨rfl, rfl, rfl, rfl⟩,
        fun _ _ _ => Iff.rfl, fun hc => absurd hc (Nat.succ_ne_zero c)⟩
      · exact ((Heap.get?_set hd.live _ d).trans (if_pos rfl)).trans
          (congrArg some hdir.symm)
      · exact (congrArg Dir.inode hdir).trans hd.inode
      · refine (congrArg Dir.openCnt hdir).trans ?_
        dsimp only
        rw [hd.openCnt, Int.natCast_succ]
      · exact ⟨hd.opened.mem, hd.opened.isOpen.congr rfl⟩

/-- `dir_close` of the root by one of its openers. The last one closes the inode,
whose data goes back to what the sector holds. -/
theorem dirClose_spec (h : Mounted D K dat s) (hd : Held dat s d p (c + 1)) :
    let s' := dirClose s d
    ∃ dat', Reverts s dat dat' ∧ Mounted D K dat' s' ∧ RootHeld dat' s' c ∧ SameDisk s s' ∧ SameRest s s' ∧
      SameOpen ROOT_DIR_SECTOR s s' := by
  obtain ⟨x, hx⟩ : ∃ x : Dir, x = { s.dir d with openCnt := (s.dir d).openCnt - 1 } :=
    ⟨_, rfl⟩
  have hxp : x.inode = p := by rw [hx]; exact hd.inode
  have hxc : x.openCnt = c := by
    rw [hx]
    dsimp only
    rw [hd.openCnt]
    omega
  obtain ⟨s₁, hs₁⟩ : ∃ s₁, s₁ = s.setDir d x := ⟨_, rfl⟩
  have hm : Mounted D K dat s₁ := by rw [hs₁]; exact h.setDir d x
  have hdir : s₁.dir d = x := by rw [hs₁]; exact FileSys.dir_setDir hd.live x
  have hlive : s₁.mem.dirs.get? d = some x := by
    rw [hs₁]
    exact (Heap.get?_set hd.live x d).trans (if_pos rfl)
  have hinode : ∀ q, s₁.inode q = s.inode q := fun q => by rw [hs₁]; rfl
  have hopen : s₁.mem.openInodes = s.mem.openInodes := by rw [hs₁]; rfl
  have hcont : s₁.content = s.content := by rw [hs₁]; rfl
  have hdisk : SameDisk s s₁ := by rw [hs₁]; exact ⟨rfl, rfl, rfl, rfl⟩
  have hrest : SameRest s s₁ := by rw [hs₁]; exact ⟨rfl, rfl, rfl, rfl⟩
  have hsame : SameOpen ROOT_DIR_SECTOR s s₁ :=
    .of_sectors hopen (fun q => by rw [hinode]) _
  have hopened : Opened dat s₁ p ROOT_DIR_SECTOR :=
    hm.opened_iff.2 (by rw [hopen, hinode]; exact ⟨hd.opened.mem, hd.opened.isOpen.sector⟩)
  have hcwd : s₁.mem.cwd = some d := by rw [hs₁]; exact hd.cwd
  intro s'
  have hs' : s' =
      if x.openCnt = 0 then
        { inodeClose s₁ x.inode with
          mem := { (inodeClose s₁ x.inode).mem with
            dirs := (inodeClose s₁ x.inode).mem.dirs.free d, cwd := none } }
      else s₁ := by
    rw [hs₁, hx]
    rfl
  clear_value s'
  rw [hxc, hxp] at hs'
  cases c with
  | zero =>
      obtain ⟨hm', hdisk', htab, herase, hother⟩ := inodeClose_spec hm hopened (by decide)
      have hsame' := sameOpen_of_erase hm hopened herase hother
      have hgone := erase_sector_ne hm hopened herase hother
      rw [hcont] at hm'
      rw [Int.natCast_zero, if_pos rfl] at hs'
      generalize inodeClose s₁ p = t at *
      subst hs'
      exact ⟨_, Reverts.close (by decide), hm'.setDirs _ _, ⟨rfl, hgone⟩,
        hdisk.trans ⟨hdisk'.freeMap, hdisk'.allocFailures, hdisk'.size, hdisk'.content⟩,
        hrest.trans ⟨htab.freeMapFile, htab.fileTable, htab.badCloses, htab.stray⟩,
        hsame.trans hsame'⟩
  | succ c =>
      rw [if_neg (by omega)] at hs'
      subst hs'
      exact ⟨dat, .refl s dat, hm,
        ⟨d, p, hcwd, hlive.trans (congrArg some hdir.symm),
          (congrArg Dir.inode hdir).trans hxp,
          (congrArg Dir.openCnt hdir).trans (hxc.trans (Int.natCast_succ c)), hopened⟩,
        hdisk, hrest, hsame⟩

/-! ## The handle of an outer loop -/

/-- The handle behind `cwd` is where it was in the directory. -/
def SameHandle (s s' : FileSys) : Prop :=
  ∀ d, s.mem.cwd = some d → s'.mem.cwd = some d ∧ (s'.dir d).pos = (s.dir d).pos

theorem SameHandle.refl (s : FileSys) : SameHandle s s := fun _ h => ⟨h, rfl⟩

theorem SameHandle.trans {s₁ : FileSys} (h₁ : SameHandle s s₁) (h₂ : SameHandle s₁ s') :
    SameHandle s s' := by
  intro d hd
  obtain ⟨hcwd, hpos⟩ := h₁ d hd
  obtain ⟨hcwd', hpos'⟩ := h₂ d hcwd
  exact ⟨hcwd', hpos'.trans hpos⟩

theorem SameHandle.of_dirs (hcwd : s'.mem.cwd = s.mem.cwd)
    (hdirs : s'.mem.dirs = s.mem.dirs) : SameHandle s s' :=
  fun d hd => ⟨hcwd.trans hd, congrArg Dir.pos (FileSys.dir_congr hdirs d)⟩

theorem SameHandle.of_closed (h : RootHeld dat s 0) (s' : FileSys) : SameHandle s s' := by
  intro d hd
  rw [h.1] at hd
  exact absurd hd.symm (Option.some_ne_none d)

theorem dirOpenRoot_sameHandle (hc : RootHeld dat s c) :
    SameHandle s (dirOpenRoot s).2 := by
  cases c with
  | zero => exact .of_closed hc _
  | succ c =>
      obtain ⟨d, p, hd⟩ := hc
      unfold dirOpenRoot
      rw [hd.cwd]
      intro e he
      rw [hd.cwd, Option.some_inj] at he
      subst he
      exact ⟨hd.cwd, FileSys.pos_setDir hd.live rfl⟩

theorem dirClose_sameHandle (hd : Held dat s d p (c + 1 + 1)) :
    SameHandle s (dirClose s d) := by
  have hcnt : (s.dir d).openCnt - 1 ≠ 0 := by
    rw [hd.openCnt]
    omega
  unfold dirClose
  dsimp only
  rw [if_neg hcnt]
  intro e he
  rw [hd.cwd, Option.some_inj] at he
  subst he
  exact ⟨hd.cwd, FileSys.pos_setDir hd.live rfl⟩

end Root

end SimpleShell.Fs
