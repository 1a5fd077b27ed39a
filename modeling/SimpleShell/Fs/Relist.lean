import SimpleShell.Fs.Recover

/-!
# Listing the root directory again and again

All openers of the root share one handle, and its position goes back to the first
entry only when the last of them has closed it. So `ls` is complete as long as no
command before it has kept the handle: those on plain names give it back, and
`recover (2)` does when the host opens every file it asks for.
-/

namespace SimpleShell.Fs

open SimpleShell.Lib

section Relist

variable {D K : Set Nat} {dat : Nat → Sector} {s s' : FileSys} {left : CString → Leftover}
  {host : CString → Bool}

/-! ## `ls` -/

theorem fsutilLs_spec (hs : Session D K dat s 0) :
    (fsutilLs s).1 = s.entries.map Prod.fst ∧ ∃ dat', Quiet D K dat s 0 dat' (fsutilLs s).2 := by
  obtain ⟨all, hall⟩ : ∃ all, (listing (rootBytes s.content dat)).map Prod.fst = all := ⟨_, rfl⟩
  have hrule := @withRootNames_each D K dat s _ (fun names name s => (names ++ [name], s))
    (fun rest names _ _ => names ++ rest.map Prod.fst = all) [] hs
    (fun name k rest names dat₁ s₁ hs₁ _ _ hP => by
      refine ⟨dat₁, .refl hs₁, ?_⟩
      rw [← hP, List.map_cons, List.append_assoc]
      rfl) hall
  obtain ⟨hout, hquiet⟩ := hrule
  rw [List.map_nil, List.append_nil] at hout
  rw [hs.entries, hall]
  exact ⟨hout, hquiet⟩

/-! ## `recover (2)` -/

theorem recoverSlack_append (out : List (CString × CString)) (name : CString) (s : FileSys) :
    recoverSlack left out name s =
      (out ++ (recoverSlack left [] name s).1, (recoverSlack left [] name s).2) := by
  unfold recoverSlack
  dsimp only
  split
  · rw [List.append_nil]
  · split
    · rw [List.append_nil]
    · rfl

/-- The files of a longer run begin with those of a shorter one. -/
theorem readdirLoop_recoverSlack_subset (left : CString → Leftover) (d : Nat) :
    ∀ (n : Nat) (out : List (CString × CString)) (s : FileSys),
      out ⊆ (readdirLoop (recoverSlack left) d n out s).1 := by
  intro n
  induction n with
  | zero => exact fun out _ => List.Subset.refl out
  | succ n ih =>
      intro out s
      unfold readdirLoop
      dsimp only
      generalize dirReaddir s d = r
      cases r.1 with
      | none => exact List.Subset.refl out
      | some name =>
          dsimp only
          rw [recoverSlack_append]
          exact List.Subset.trans (List.subset_append_left ..) (ih _ _)

theorem recoverSlackLoop_eq (host : CString → Bool) (d : Nat) :
    ∀ (n : Nat) (out : List (CString × CString)) (s : FileSys),
      (∀ f ∈ (readdirLoop (recoverSlack left) d n out s).1, host f.1 = true) →
      recoverSlackLoop left host d n out s =
        (((readdirLoop (recoverSlack left) d n out s).1, true),
          (readdirLoop (recoverSlack left) d n out s).2) := by
  intro n
  induction n with
  | zero => exact fun _ _ _ => rfl
  | succ n ih =>
      intro out s hhost
      unfold readdirLoop at hhost ⊢
      unfold recoverSlackLoop
      dsimp only at hhost ⊢
      generalize dirReaddir s d = r at hhost ⊢
      cases hname : r.1 with
      | none => rfl
      | some name =>
          rw [hname] at hhost
          dsimp only at hhost ⊢
          rw [recoverSlack_append out] at hhost ⊢
          generalize recoverSlack left [] name r.2 = b at hhost ⊢
          have hall : (b.1.all fun f => host f.1) = true := by
            refine List.all_eq_true.2 fun f hf => hhost f ?_
            exact readdirLoop_recoverSlack_subset left d n _ b.2 (List.mem_append_right _ hf)
          rw [if_pos hall]
          exact ih _ _ hhost

/-- Where the host opens every file, the loop runs to its end and the handle is closed. -/
theorem recover2Host_eq (h : ∀ f ∈ (recover2 left s).1, host f.1 = true) :
    recover2Host left host s = recover2 left s := by
  unfold recover2 withRootNames at h ⊢
  unfold recover2Host
  dsimp only at h ⊢
  rw [recoverSlackLoop_eq host _ _ _ _ h]
  rfl

/-! ## Runs -/

/-- The states between commands that have closed every directory they opened: from a
formatted disk, by ordinary commands and by `recover (2)` on a host that opens the file of
every name that needs one. -/
inductive Balanced : FileSys → Prop where
  | format {c : CacheState} {stray : Int → UInt8} {s : FileSys} :
      filesysInit true c stray = (true, s) → Balanced s
  | exec {s : FileSys} (command : Command) :
      Balanced s → command.Ordinary → Balanced (s.exec command)
  | recover2 {s : FileSys} (left : CString → Leftover) (host : CString → Bool) :
      Balanced s →
      (∀ name k, (name, k) ∈ s.entries → (s.bytes k).length % BLOCK_SECTOR_SIZE ≠ 0 →
        host (recovered2Name name) = true) →
      Balanced (recover2Host left host s).2

theorem recover2Host_session (hs : Session D K dat s 0) (left : CString → Leftover)
    (hhost : ∀ name k, (name, k) ∈ s.entries → (s.bytes k).length % BLOCK_SECTOR_SIZE ≠ 0 →
      host (recovered2Name name) = true) :
    ∃ dat', Session D K dat' (recover2Host left host s).2 0 := by
  obtain ⟨hfiles, dat', hq⟩ := @recover2_spec D K dat s left hs
  have hall : ∀ f ∈ (recover2 left s).1, host f.1 = true := by
    intro f hf
    rw [hfiles, List.mem_flatMap] at hf
    obtain ⟨⟨name, k⟩, hk, hf⟩ := hf
    unfold slackFile at hf
    split at hf
    · cases hf
    · next hlen =>
        rw [List.mem_singleton.1 hf]
        exact hhost name k hk hlen
  rw [recover2Host_eq hall]
  exact ⟨dat', hq.session⟩

theorem Balanced.session (h : Balanced s) : ∃ D K dat, Session D K dat s 0 := by
  induction h with
  | format h =>
      obtain ⟨D, dat, hf⟩ := filesysInit_format h
      exact ⟨D, _, dat, hf.session⟩
  | exec command _ hc ih =>
      obtain ⟨D, K, dat, hs⟩ := ih
      obtain ⟨K', dat', hs'⟩ := exec_session hs hc
      exact ⟨D, K', dat', hs'⟩
  | recover2 left host _ hhost ih =>
      obtain ⟨D, K, dat, hs⟩ := ih
      obtain ⟨dat', hs'⟩ := recover2Host_session hs left hhost
      exact ⟨D, K, dat', hs'⟩

/-- In every state of such a run `ls` prints the names of the root directory, each once, and
prints the same the next time. -/
theorem fsutilLs_complete (h : Balanced s) :
    (∀ name, name ∈ (fsutilLs s).1 ↔ ∃ k, (name, k) ∈ s.entries) ∧ (fsutilLs s).1.Nodup ∧
      (fsutilLs (fsutilLs s).2).1 = (fsutilLs s).1 := by
  obtain ⟨D, K, dat, hs⟩ := h.session
  obtain ⟨hls, dat', hq⟩ := fsutilLs_spec hs
  obtain ⟨hagain, -⟩ := fsutilLs_spec hq.session
  refine ⟨fun name => ?_, ?_, ?_⟩
  · rw [hls, List.mem_map]
    constructor
    · intro ⟨⟨n, k⟩, hk, hn⟩
      exact ⟨k, by rw [← hn]; exact hk⟩
    · intro ⟨k, hk⟩
      exact ⟨(name, k), hk, rfl⟩
  · rw [hls, hs.entries]
    exact hs.names.keyed
  · rw [hagain, hls, hq.entries hs]

/-! ## A host that opens no file -/

/-- One entry, and one file that the host does not open: the handle stays behind it. -/
theorem recover2Host_stuck (hs : Session D K dat s 0) {name : CString} {k : Nat}
    (hentries : s.entries = [(name, k)])
    (hlen : (s.bytes k).length % BLOCK_SECTOR_SIZE ≠ 0) (left : CString → Leftover) :
    ∃ d i dat', Session D K dat' (recover2Host left (fun _ => false) s).2 1 ∧
      Still s dat (recover2Host left (fun _ => false) s).2 dat' ∧
      (recover2Host left (fun _ => false) s).2.mem.cwd = some d ∧
      ((recover2Host left (fun _ => false) s).2.dir d).pos = (ENTRY_SIZE * i : Nat) ∧
      namesFrom (rootBytes s.content dat) i = [] := by
  have hlisting : listing (rootBytes s.content dat) = [(name, k)] := by
    rw [← hs.entries]
    exact hentries
  have hmem : (name, k) ∈ listing (rootBytes s.content dat) := by
    rw [hlisting]
    exact List.mem_cons_self
  obtain ⟨hm, ⟨p, hd⟩, hdisk, hrest, hopen, hpos⟩ :=
    dirOpenRoot_spec hs.mounted hs.root_mem hs.held
  unfold recover2Host
  dsimp only
  generalize dirOpenRoot s = o at *
  have hstill : Still s dat o.2 dat := .of_disk hdisk dat
  have hs₁ : Session D K dat o.2 (0 + 1) := hs.still hm ⟨o.1, p, hd⟩ hstill hopen hrest
  have hread := hs₁.reads hd
  rw [hstill.rootBytes hs] at hread
  obtain ⟨s₁, x, hro, hx, hcnt, hcase⟩ := dirReaddir_next hread (i := 1) (hpos rfl)
  have hrounds : entryRounds o.2 (o.2.dir o.1).inode =
      (rootBytes s.content dat).length / ENTRY_SIZE + 1 := by
    rw [hread.inode]
    exact entryRounds_eq hread.bytes
  have hone : namesFrom (rootBytes s.content dat) 1 = [name] := by
    rw [namesFrom_one, hlisting]
    rfl
  generalize hbytes : rootBytes s.content dat = bytes at hone hcase ⊢
  rw [hone] at hcase
  rcases hcase with ⟨hnil, heq⟩ | ⟨n, j, hcons, hposx, heq⟩
  · exact absurd hnil (List.cons_ne_nil _ _)
  · obtain ⟨hn, hrest'⟩ := List.cons.inj hcons
    have hd₁ := hro.held hd
    have hdir : s₁.dir o.1 = o.2.dir o.1 := FileSys.dir_congr (by rw [hro.mem]) _
    have hs₂ := (hro.session hs₁).moveHandle hd₁ (hx.trans (by rw [hdir]))
      (hcnt.trans (by rw [hdir]))
    have hdisk₂ : SameDisk s₁ (s₁.setDir o.1 x) := ⟨rfl, rfl, rfl, rfl⟩
    have hstill₂ : Still s dat (s₁.setDir o.1 x) dat :=
      (hstill.trans (hro.still dat)).trans (.of_disk hdisk₂ dat)
    have hk := hs.names.listed _ _ hmem
    have hmem₂ := hmem
    rw [← hstill₂.rootBytes hs] at hmem₂
    obtain ⟨hfiles, dat', hq⟩ := @recoverSlack_spec D K dat _ 1 k name left hs₂
      (hs.names.plain _ _ hmem) hmem₂ []
    have hfile : slackFile (fun n => resultText (left n).bytes) (s₁.setDir o.1 x) (name, k) =
        [(recovered2Name name, resultText (left name).bytes (slack s k))] := by
      rw [hstill₂.slackFile hs.mounted hs₂.mounted hk, slackFile, if_neg hlen]
    rw [hfile, List.nil_append] at hfiles
    have hloop : ∃ out, recoverSlackLoop left (fun _ => false) o.1
        (bytes.length / ENTRY_SIZE + 1) [] o.2 =
          ((out, false), (recoverSlack left [] name (s₁.setDir o.1 x)).2) := by
      unfold recoverSlackLoop
      dsimp only
      rw [heq, ← hn]
      dsimp only
      refine ⟨[], if_neg fun hall => ?_⟩
      have hfalse := List.all_eq_true.1 hall (recovered2Name name, resultText (left name).bytes
        (slack s k)) (by rw [hfiles]; exact List.mem_cons_self)
      exact absurd hfalse Bool.false_ne_true
    obtain ⟨out, hloop⟩ := hloop
    rw [hbytes] at hrounds
    rw [hrounds, hloop]
    dsimp only
    rw [if_neg Bool.false_ne_true]
    obtain ⟨hcwd, hsame⟩ := hq.handle _ hd₁.cwd
    refine ⟨o.1, j + 1, dat', hq.session, hstill₂.trans hq.still, hcwd, ?_, hrest'.symm⟩
    rw [hsame, FileSys.dir_setDir hd₁.live x, hposx]

/-- With the handle behind the last entry, `ls` has nothing to print. -/
theorem fsutilLs_stuck {d i : Nat} (hs : Session D K dat s 1) (hcwd : s.mem.cwd = some d)
    (hpos : (s.dir d).pos = (ENTRY_SIZE * i : Nat))
    (hnil : namesFrom (rootBytes s.content dat) i = []) : (fsutilLs s).1 = [] := by
  obtain ⟨p, hd⟩ := hs.handle_of_cwd hcwd
  obtain ⟨x, hx⟩ : ∃ x : Dir, x = { s.dir d with openCnt := (s.dir d).openCnt + 1 } := ⟨_, rfl⟩
  have hopened : dirOpenRoot s = (d, s.setDir d x) := by
    unfold dirOpenRoot
    rw [hcwd, hx]
  have hdir : (s.setDir d x).dir d = { s.dir d with openCnt := (s.dir d).openCnt + 1 } :=
    (FileSys.dir_setDir hd.live x).trans hx
  have hread : Reads (s.setDir d x) d p (rootBytes s.content dat) :=
    (hs.reads hd).move (.refl s) (by rw [hx])
  unfold fsutilLs withRootNames
  rw [hopened]
  dsimp only
  generalize s.setDir d x = s₁ at hdir hread ⊢
  generalize rootBytes s.content dat = bytes at hread hnil
  have hpos₁ : (s₁.dir d).pos = (ENTRY_SIZE * i : Nat) := by
    rw [hdir]
    exact hpos
  generalize entryRounds s₁ (s₁.dir d).inode = rounds
  cases rounds with
  | zero => rfl
  | succ rounds =>
      obtain ⟨s₂, x, -, -, -, hcase⟩ := dirReaddir_next hread hpos₁
      rcases hcase with ⟨hend, heq⟩ | ⟨n, j, hcons, hposx, heq⟩
      · unfold readdirLoop
        dsimp only
        rw [heq]
      · rw [hnil] at hcons
        exact absurd hcons.symm (List.cons_ne_nil _ _)

/-- A `recover (2)` that cannot write leaves an `ls` after it that does not print `a`. -/
theorem fsutilLs_kept : ∃ s, Reachable s ∧
    let s' := (recover2Host (fun _ => .startingWith 0) (fun _ => false) s).2
    (∃ k, ([97], k) ∈ s'.entries) ∧ [97] ∉ (fsutilLs s').1 := by
  obtain ⟨s, k, hreach, hentries, hlen⟩ := oneByte_entries
  obtain ⟨D, K, dat, hs⟩ := hreach.session
  have hmod : (s.bytes k).length % BLOCK_SECTOR_SIZE ≠ 0 := by
    rw [hlen]
    decide
  obtain ⟨d, i, dat', hs', hstill, hcwd, hpos, hnil⟩ :=
    recover2Host_stuck hs hentries hmod fun _ => .startingWith 0
  refine ⟨s, hreach, ⟨k, ?_⟩, ?_⟩
  · rw [hs'.entries, hstill.rootBytes hs, ← hs.entries, hentries]
    exact List.mem_cons_self
  · rw [fsutilLs_stuck hs' hcwd hpos (by rw [hstill.rootBytes hs]; exact hnil)]
    exact List.not_mem_nil

theorem Reachable.balanced (h : Reachable s) : Balanced s := by
  induction h with
  | format h => exact .format h
  | exec command _ hc ih => exact .exec command ih hc

/-- A file of one byte, after a `recover (2)` whose host opens everything. -/
theorem fsutilLs_complete_recovered : ∃ s k, Reachable s ∧ s.entries = [([97], k)] ∧
    let s' := (recover2Host (fun _ => .startingWith 0) (fun _ => true) s).2
    [97] ∈ (fsutilLs s').1 ∧ (fsutilLs s').1.Nodup ∧
      (fsutilLs (fsutilLs s').2).1 = (fsutilLs s').1 := by
  obtain ⟨s, k, hreach, hentries, -⟩ := oneByte_entries
  obtain ⟨D, K, dat, hs⟩ := hreach.session
  obtain ⟨-, dat', hq⟩ := @recover2_spec D K dat s (fun _ => .startingWith 0) hs
  have hsame : recover2Host (fun _ => .startingWith 0) (fun _ => true) s =
      recover2 (fun _ => .startingWith 0) s := recover2Host_eq fun _ _ => rfl
  obtain ⟨hnames, hnodup, hagain⟩ := fsutilLs_complete (.recover2 (fun _ => .startingWith 0)
    (fun _ => true) hreach.balanced fun _ _ _ _ => rfl)
  refine ⟨s, k, hreach, hentries, (hnames [97]).2 ⟨k, ?_⟩, hnodup, hagain⟩
  rw [hsame, hq.entries hs, hentries]
  exact List.mem_cons_self

end Relist

end SimpleShell.Fs
