import SimpleShell.Fs.Fresh

/-!
# Which paths lead through directories only

`dir_open` takes any inode, so nothing keeps `dir_open_path` from walking through
a regular file, and the two dots name the root's own inode, which goes with the
handle that is closed behind them. The path is safe exactly when the walk never
gets past the root.
-/

namespace SimpleShell.Fs

open SimpleShell.Lib

/-- Handle `d` is over a directory's inode that is still there. -/
def FileSys.OnDirectory (s : FileSys) (d : Nat) : Prop :=
  ∃ i, s.mem.inodes.get? (s.dir d).inode = some i ∧ inodeIsDir i.data = true

/-- The handles that the loop of `dir_open_path` looks a token up in, and last the one it
returns, each in the state it is used in. -/
def walkHandles : List CString → FileSys → Nat → List (FileSys × Nat)
  | [], s, curr => [(s, curr)]
  | token :: rest, s, curr =>
      let r := dirLookup s curr token
      match r.1 with
      | none => [(s, curr)]
      | some inode =>
          let next := dirOpen r.2 inode
          (s, curr) :: walkHandles rest (dirClose next.2 curr) next.1

/-- The handle that `dir_open_path` begins with. -/
def pathStart (s : FileSys) (path : CString) : Nat × FileSys :=
  if path.head? = some SLASH then dirOpenRoot s
  else
    match s.mem.cwd with
    | none => dirOpenRoot s
    | some d => dirReopen s d

/-- All handles that `dir_open_path` takes for a directory. -/
def pathHandles (s : FileSys) (path : CString) : List (FileSys × Nat) :=
  walkHandles (tokens path) (pathStart s path).2 (pathStart s path).1

section Walk

variable {s : FileSys} {d e : Nat} {path : CString}

theorem mem_walkHandles (l : List CString) (s : FileSys) (d : Nat) : (s, d) ∈ walkHandles l s d := by
  cases l with
  | nil => exact List.mem_singleton_self _
  | cons token rest =>
      rw [walkHandles]
      dsimp only
      split
      · exact List.mem_singleton_self _
      · exact List.mem_cons_self

/-- What the walk returns is one of the handles it used. -/
theorem dirWalk_handles (l : List CString) (h : (dirWalk l s d).1 = some e) :
    ((dirWalk l s d).2, e) ∈ walkHandles l s d := by
  induction l generalizing s d with
  | nil =>
      rw [dirWalk] at h ⊢
      rw [walkHandles, ← Option.some.inj h]
      exact List.mem_singleton_self _
  | cons t rest ih =>
      rw [dirWalk] at h ⊢
      rw [walkHandles]
      dsimp only at h ⊢
      cases hr : (dirLookup s d t).1 with
      | none =>
          rw [hr] at h
          cases h
      | some q =>
          rw [hr] at h
          exact List.mem_cons_of_mem _ (ih h)

theorem dirOpenPath_handles (h : (dirOpenPath s path).1 = some e) :
    ((dirOpenPath s path).2, e) ∈ pathHandles s path := by
  have heq : dirOpenPath s path =
      let r := dirWalk (tokens path) (pathStart s path).2 (pathStart s path).1
      match r.1 with
      | none => (none, r.2)
      | some curr =>
          if (r.2.inode (r.2.dir curr).inode).removed then (none, dirClose r.2 curr)
          else (some curr, r.2) := rfl
  have hwalk := dirWalk_handles (s := (pathStart s path).2) (d := (pathStart s path).1)
    (e := e) (tokens path)
  rw [heq] at h ⊢
  rw [pathHandles]
  generalize dirWalk (tokens path) (pathStart s path).2 (pathStart s path).1 = r at h hwalk ⊢
  dsimp only at h ⊢
  cases hr : r.1 with
  | none =>
      rw [hr] at h
      cases h
  | some curr =>
      rw [hr] at h hwalk
      dsimp only at h ⊢
      split at h
      · cases h
      · next hkept =>
          rw [if_neg hkept]
          exact hwalk h

end Walk

section Root

variable {D K : Set Nat} {dat : Nat → Sector} {s : FileSys} {d p q k : Nat} {name path : CString}

theorem Held.onDirectory {c : Int} (hd : Held dat s d p c)
    (hdir : inodeIsDir (dat ROOT_DIR_SECTOR) = true) : s.OnDirectory d := by
  refine ⟨s.inode p, ?_, ?_⟩
  · rw [hd.inode]
    exact hd.opened.isOpen.live
  · rw [hd.opened.isOpen.data]
    exact hdir

/-- One step of the walk away from the root, whose inode goes with its only handle. -/
theorem dirClose_past (hd : Held dat s d p 1) (q : Nat) :
    let n := dirOpen s q
    let s' := dirClose n.2 d
    (s'.dir n.1).inode = q ∧ s'.mem.inodes.get? p = none ∧
      (q ≠ p → s'.mem.inodes.get? q = s.mem.inodes.get? q) := by
  have hlt := Heap.lt_next_of_get? hd.live
  obtain ⟨n, hn⟩ : ∃ n, n = dirOpen s q := ⟨_, rfl⟩
  have hfresh : n.1 = s.mem.dirs.next := by rw [hn]; rfl
  have hget : ∀ e, n.2.mem.dirs.get? e =
      if e = s.mem.dirs.next then some ⟨q, ENTRY_SIZE, 1⟩ else s.mem.dirs.get? e := by
    rw [hn]
    exact Heap.get?_alloc _ _
  have hinodes : n.2.mem.inodes = s.mem.inodes := by rw [hn]; rfl
  have hdlive : n.2.mem.dirs.get? d = some (s.dir d) := by
    rw [hget, if_neg (Nat.ne_of_lt hlt)]
    exact hd.live
  have hdir : n.2.dir d = s.dir d := FileSys.dir_eq hdlive
  obtain ⟨pos, hpos⟩ : ∃ pos, s.dir d = ⟨p, pos, 1⟩ :=
    ⟨(s.dir d).pos, by rw [← hd.inode, ← hd.openCnt]⟩
  obtain ⟨t, ht⟩ : ∃ t, t = n.2.setDir d ⟨p, pos, 0⟩ := ⟨_, rfl⟩
  have hclose : dirClose n.2 d =
      let i := inodeClose t p
      { i with mem := { i.mem with dirs := i.mem.dirs.free d, cwd := none } } := by
    unfold dirClose
    rw [hdir, hpos, ht]
    rfl
  dsimp only
  rw [← hn, hclose]
  have htinodes : t.mem.inodes = s.mem.inodes := by rw [ht]; exact hinodes
  have htget : t.mem.dirs.get? n.1 = some ⟨q, ENTRY_SIZE, 1⟩ := by
    rw [ht, hfresh]
    refine (Heap.get?_set hdlive _ _).trans ?_
    rw [if_neg (Nat.ne_of_gt hlt), hget, if_pos rfl]
  have hp := hd.opened.isOpen
  rw [inodeClose_last (i := s.inode p) (by rw [htinodes]; exact hp.live) hp.openCnt hp.kept]
  clear hclose ht hn
  refine ⟨congrArg Dir.inode (FileSys.dir_eq (x := ⟨q, ENTRY_SIZE, 1⟩) ?_), ?_, fun hqp => ?_⟩
  · refine (Heap.get?_free ..).trans ?_
    rw [if_neg (by omega)]
    exact htget
  · exact (Heap.get?_free ..).trans (if_pos rfl)
  · refine (Heap.get?_free ..).trans ?_
    rw [if_neg hqp, htinodes]
    exact (Heap.get?_set hp.live _ q).trans (if_neg hqp)

/-- The handle after the root's is no good if it is over the same inode or over that of a
file. -/
theorem walkHandles_past {r : Option Nat × FileSys} {rest : List CString}
    (hr : dirLookup s d name = r) (hq : r.1 = some q) (hd : Held dat r.2 d p 1)
    (hbad : q = p ∨ inodeIsDir (r.2.inode q).data = false) :
    ∃ x ∈ walkHandles (name :: rest) s d, ¬ x.1.OnDirectory x.2 := by
  obtain ⟨hinode, hgone, hother⟩ := dirClose_past hd q
  have hnext := mem_walkHandles rest (dirClose (dirOpen r.2 q).2 d) (dirOpen r.2 q).1
  refine ⟨(dirClose (dirOpen r.2 q).2 d, (dirOpen r.2 q).1), ?_, fun ⟨i, hi, hdir⟩ => ?_⟩
  · rw [walkHandles]
    dsimp only
    rw [hr, hq]
    exact List.mem_cons_of_mem _ hnext
  · dsimp only at hi
    rw [hinode] at hi
    rcases Decidable.eq_or_ne q p with rfl | hqp
    · rw [hgone] at hi
      cases hi
    · rw [hother hqp] at hi
      rw [FileSys.inode_eq hi, hdir] at hbad
      exact hbad.elim hqp Bool.noConfusion

/-- The dots, and every name that is listed. -/
def LeadsOn (s : FileSys) (token : CString) : Prop :=
  token = [46] ∨ token = [46, 46] ∨ ∃ k, (token, k) ∈ s.entries

theorem dirLookup_stays (hm : Mounted D K dat s) (hnames : Names K s.content dat)
    (hd : Held dat s d p 1) (h : ¬ LeadsOn s name) : (dirLookup s d name).1 = none := by
  have hdata := hd.opened.isOpen.data
  have hok : FileOk s.content s.cache.size (s.inode p).data := by
    rw [hdata]
    exact hm.vol.file _ hnames.root
  have hb : fileContent s.content (s.inode p).data = rootBytes s.content dat := by
    rw [hdata]
    rfl
  have hnone := (lookup_none (n := name) hd.inode hok hb).2 fun k hk =>
    h (.inr (.inr ⟨k, by rw [hm.entries hnames.root]; exact hk⟩))
  unfold dirLookup
  rw [if_neg fun h₁ => h (.inl h₁), if_neg fun h₂ => h (.inr (.inl h₂))]
  dsimp only
  rw [hnone]
  rfl

theorem dirLookup_leads (hm : Mounted D K dat s) (hnames : Names K s.content dat)
    (hd : Held dat s d p 1) (h : LeadsOn s name) :
    ∃ q, (dirLookup s d name).1 = some q ∧ Held dat (dirLookup s d name).2 d p 1 ∧
      (q = p ∨ inodeIsDir ((dirLookup s d name).2.inode q).data = false) := by
  by_cases hdot : name = [46]
  · refine ⟨p, ?_, ?_, .inl rfl⟩
    · rw [dirLookup, if_pos hdot, hd.inode]
    · rw [dirLookup, if_pos hdot]
      exact hd
  by_cases hdots : name = [46, 46]
  · have hdata := hd.opened.isOpen.data
    have hok : FileOk s.content s.cache.size (s.inode p).data := by
      rw [hdata]
      exact hm.vol.file _ hnames.root
    have hb : fileContent s.content (s.inode p).data = rootBytes s.content dat := by
      rw [hdata]
      rfl
    obtain ⟨e, he, -, hsector⟩ := hnames.parent
    obtain ⟨hlt, rfl⟩ := getElem?_dirEntries.1 he
    have hread := readEntry_fst hok hb 0
    have hro := readOnly_readEntry s p (ENTRY_SIZE * 0 : Nat)
    rw [if_pos hlt] at hread
    have hlook : dirLookup s d name =
        let r := readEntry s p (ENTRY_SIZE * 0 : Nat)
        let i := inodeOpen r.2 (r.1.getD .zeros).inodeSector
        (some i.1, i.2) := by
      rw [dirLookup, if_neg hdot, if_pos hdots, hd.inode]
      rfl
    rw [hlook]
    dsimp only
    rw [hread]
    generalize readEntry s p (ENTRY_SIZE * 0 : Nat) = r at hro
    rw [Option.getD_some, hsector]
    have hm₁ := hro.mounted hm
    have hd₁ := hro.held hd
    obtain ⟨hm₂, hq, -, htab, hold, -⟩ := inodeOpen_spec hm₁ hnames.root
    generalize inodeOpen r.2 ROOT_DIR_SECTOR = i at *
    obtain ⟨hp, hinode⟩ := hold p hd₁.opened.mem
    have hd₂ : Held dat i.2 d p 1 :=
      hd₁.congr hm₂ htab.cwd htab.dirs ⟨hp, by rw [hinode]; exact hd₁.opened.isOpen.sector⟩
    exact ⟨i.1, rfl, hd₂, .inl (hm₂.opened_eq hq hd₂.opened)⟩
  · obtain ⟨k, hk⟩ := (h.resolve_left hdot).resolve_left hdots
    rw [hm.entries hnames.root] at hk
    have hlook := dirLookup_spec hm hnames hd (hnames.plain _ _ hk)
    generalize dirLookup s d name = r at hlook
    dsimp only at hlook
    rcases hlook with ⟨habs, -⟩ | ⟨j, q, hj, hsome, hm₁, hq, -, htab, -, hsame⟩
    · exact absurd hk (habs k)
    · obtain ⟨-, hj₁, hreg⟩ := hnames.file _ _ hj
      refine ⟨q, hsome, ?_, .inr (by rw [hq.isOpen.data]; exact hreg)⟩
      exact hd.congr hm₁ htab.cwd htab.dirs
        ((hsame p _ hj₁.symm).2 ⟨hd.opened.mem, hd.opened.isOpen.sector⟩)

/-- The walk begins at the root, of which it has the only handle. -/
theorem Session.pathHandles_eq (hs : Session D K dat s 0) (path : CString) :
    ∃ (o : Nat × FileSys) (p : Nat), pathHandles s path = walkHandles (tokens path) o.2 o.1 ∧ Mounted D K dat o.2 ∧
      Names K o.2.content dat ∧ Held dat o.2 o.1 p 1 ∧
      ∀ token, LeadsOn o.2 token ↔ LeadsOn s token := by
  have hstart : pathStart s path = dirOpenRoot s := by
    unfold pathStart
    rw [hs.held.1]
    split <;> rfl
  obtain ⟨hm, ⟨p, hd⟩, hdisk, -, -, -⟩ := dirOpenRoot_spec hs.mounted hs.root_mem hs.held
  rw [pathHandles, hstart]
  generalize dirOpenRoot s = o at *
  have hentries : o.2.entries = s.entries := by
    rw [hm.entries hs.root_mem, hs.entries, hdisk.content]
  refine ⟨o, p, rfl, hm, (Still.of_disk hdisk dat).names hs, hd, fun token => ?_⟩
  rw [LeadsOn, LeadsOn, hentries]

theorem Session.pathHandles_stay (hs : Session D K dat s 0)
    (h : ∀ token ∈ (tokens path).head?, ¬ LeadsOn s token) :
    ∀ x ∈ pathHandles s path, x.1.OnDirectory x.2 := by
  obtain ⟨o, p, heq, hm, hnames, hd, hleads⟩ := hs.pathHandles_eq path
  have hroot := hd.onDirectory hnames.rootDir
  have hone : walkHandles (tokens path) o.2 o.1 = [(o.2, o.1)] := by
    cases htokens : tokens path with
    | nil => rfl
    | cons token rest =>
        rw [htokens] at h
        have hstay : ¬ LeadsOn o.2 token := fun hlead => h token rfl ((hleads token).1 hlead)
        rw [walkHandles]
        dsimp only
        rw [dirLookup_stays hm hnames hd hstay]
  intro x hx
  rw [heq, hone] at hx
  rw [List.mem_singleton.1 hx]
  exact hroot

theorem Session.pathHandles_lead {token : CString} (hs : Session D K dat s 0)
    (ht : token ∈ (tokens path).head?) (hlead : LeadsOn s token) :
    ∃ x ∈ pathHandles s path, ¬ x.1.OnDirectory x.2 := by
  obtain ⟨o, p, heq, hm, hnames, hd, hleads⟩ := hs.pathHandles_eq path
  obtain ⟨rest, htokens⟩ : ∃ rest, tokens path = token :: rest := by
    cases htokens : tokens path with
    | nil =>
        rw [htokens] at ht
        cases ht
    | cons t rest =>
        rw [htokens] at ht
        exact ⟨rest, by rw [Option.some.inj ht]⟩
  obtain ⟨q, hq, hd', hcase⟩ := dirLookup_leads hm hnames hd ((hleads token).2 hlead)
  rw [heq, htokens]
  exact walkHandles_past rfl hq hd' hcase

/-- The handles of `dir_open_path`, and with them that of `filesys_remove`, are all over
directories exactly if the first component of the path leads nowhere. -/
theorem pathHandles_directories_iff (h : Reachable s) (path : CString) :
    (∀ x ∈ pathHandles s path, x.1.OnDirectory x.2) ↔
      ∀ token ∈ (tokens path).head?, ¬ LeadsOn s token := by
  obtain ⟨D, K, dat, hs⟩ := h.session
  refine ⟨fun hall token ht hlead => ?_, hs.pathHandles_stay⟩
  obtain ⟨x, hx, hbad⟩ := hs.pathHandles_lead ht hlead
  exact hbad (hall x hx)

/-- On a disk with the file `a`, the path `b/x`. -/
theorem pathHandles_directories_iff_absent : ∃ s k, Reachable s ∧ s.entries = [([97], k)] ∧
    ∀ x ∈ pathHandles s [98, 47, 120], x.1.OnDirectory x.2 := by
  obtain ⟨s, k, hreach, hentries, -⟩ := oneByte_entries
  have htokens : tokens [98, 47, 120] = [[98], [120]] := by decide
  refine ⟨s, k, hreach, hentries,
    (pathHandles_directories_iff hreach [98, 47, 120]).2 fun token ht hlead => ?_⟩
  rw [htokens] at ht
  rw [← Option.some.inj ht] at hlead
  rcases hlead with hdot | hdots | ⟨j, hj⟩
  · exact absurd hdot (by decide)
  · exact absurd hdots (by decide)
  · rw [hentries, List.mem_singleton, Prod.mk.injEq] at hj
    exact absurd hj.1 (by decide)

/-- With a file `a` on the disk, `rm a/x` takes the bytes of `a` for entries. -/
theorem pathHandles_file : ∃ s, Reachable s ∧ splitPathFilename [97, 47, 120] = ([97, 47], [120]) ∧
    ∃ x ∈ pathHandles s [97, 47], ¬ x.1.OnDirectory x.2 := by
  obtain ⟨s, k, hreach, hk, -⟩ := oneByte_file
  obtain ⟨D, K, dat, hs⟩ := hreach.session
  have ht : ([97] : CString) ∈ (tokens [97, 47]).head? := by decide
  exact ⟨s, hreach, by decide, hs.pathHandles_lead ht (.inr (.inr ⟨k, hk⟩))⟩

end Root

end SimpleShell.Fs
