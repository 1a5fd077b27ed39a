import SimpleShell.Fs.Walk

/-!
# Reading a directory to its end

`dir_readdir` on a handle that nothing else moves yields the names of a directory
in the order of their entries, each once. `readdirLoop_names` is the rule for the
loops over it: what holds of the names still to come and of the state is carried
from one round to the next.
-/

namespace SimpleShell.Fs

open SimpleShell.Lib

/-- The names in the entries from number `i` on. -/
def namesFrom (bytes : List UInt8) (i : Nat) : List CString :=
  (((dirEntries bytes).drop i).filter DirEntry.inUse).map DirEntry.name

section Names

variable {bytes : List UInt8} {i : Nat}

theorem namesFrom_one (bytes : List UInt8) :
    namesFrom bytes 1 = (listing bytes).map Prod.fst := by
  have hslots : ∀ l : List DirEntry, (l.filter DirEntry.inUse).map DirEntry.name =
      ((l.map DirEntry.slot).reduceOption).map Prod.fst := by
    intro l
    induction l with
    | nil => rfl
    | cons e l ih =>
        cases huse : e.inUse with
        | true =>
            have hslot : e.slot = some (e.name, e.inodeSector) := if_pos huse
            rw [List.filter_cons_of_pos huse, List.map_cons, ih, List.map_cons, hslot,
              List.reduceOption_cons_of_some, List.map_cons]
        | false =>
            have hslot : e.slot = none := by simp [DirEntry.slot, huse]
            rw [List.filter_cons_of_neg (by simp [huse]), ih, List.map_cons, hslot,
              List.reduceOption_cons_of_none]
  rw [namesFrom, List.drop_one, hslots]
  rfl

theorem namesFrom_of_ge (h : bytes.length / ENTRY_SIZE ≤ i) : namesFrom bytes i = [] := by
  rw [namesFrom, List.drop_eq_nil_of_le (by rw [length_dirEntries]; exact h)]
  rfl

theorem namesFrom_of_lt (h : i < bytes.length / ENTRY_SIZE) :
    namesFrom bytes i =
      if (entryAt bytes i).inUse then (entryAt bytes i).name :: namesFrom bytes (i + 1)
      else namesFrom bytes (i + 1) := by
  have hget : (dirEntries bytes)[i]? = some (entryAt bytes i) :=
    getElem?_dirEntries.2 ⟨h, rfl⟩
  obtain ⟨hi, heq⟩ := List.getElem?_eq_some_iff.1 hget
  rw [namesFrom, List.drop_eq_getElem_cons hi, heq]
  cases huse : (entryAt bytes i).inUse with
  | true => rw [List.filter_cons_of_pos huse, if_pos rfl, List.map_cons]; rfl
  | false => rw [List.filter_cons_of_neg (by simp [huse]), if_neg Bool.false_ne_true]; rfl

/-- The first name from entry `i` on is the one that the scan stops at. -/
theorem namesFrom_findEntry (bytes : List UInt8) (i : Nat) :
    (findEntry DirEntry.inUse bytes i = none ∧ namesFrom bytes i = []) ∨
      ∃ e j, findEntry DirEntry.inUse bytes i = some (e, ENTRY_SIZE * j) ∧
        namesFrom bytes i = e.name :: namesFrom bytes (j + 1) := by
  induction hm : bytes.length / ENTRY_SIZE - i generalizing i with
  | zero =>
      have hge : bytes.length / ENTRY_SIZE ≤ i := Nat.le_of_sub_eq_zero hm
      exact .inl ⟨findEntry_of_ge hge, namesFrom_of_ge hge⟩
  | succ m ih =>
      generalize hlen : bytes.length / ENTRY_SIZE = len at hm
      have hlt : i < bytes.length / ENTRY_SIZE := by omega
      rw [findEntry_of_lt hlt, namesFrom_of_lt hlt]
      split
      · exact .inr ⟨_, i, rfl, rfl⟩
      · exact ih (i + 1) (by omega)

theorem length_namesFrom (bytes : List UInt8) (i : Nat) :
    (namesFrom bytes i).length ≤ bytes.length / ENTRY_SIZE - i := by
  rw [namesFrom, List.length_map]
  refine (List.length_filter_le ..).trans ?_
  rw [List.length_drop, length_dirEntries]

end Names

/-! ## One call -/

/-- A handle on an open directory whose file has these bytes. -/
structure Reads (s : FileSys) (d p : Nat) (bytes : List UInt8) : Prop where
  live : s.mem.dirs.get? d = some (s.dir d)
  inode : (s.dir d).inode = p
  ok : FileOk s.content s.cache.size (s.inode p).data
  bytes : fileContent s.content (s.inode p).data = bytes

section Reads

variable {s s₁ s' : FileSys} {d p i : Nat} {bytes : List UInt8} {x : Dir}

theorem Reads.move (h : Reads s d p bytes) (hro : ReadOnly s s₁)
    (hx : x.inode = (s.dir d).inode) : Reads (s₁.setDir d x) d p bytes := by
  have hdir : s₁.dir d = s.dir d := FileSys.dir_congr (by rw [hro.mem]) d
  have hlive : s₁.mem.dirs.get? d = some (s₁.dir d) := by
    rw [hdir, hro.mem]
    exact h.live
  have hnew := FileSys.dir_setDir hlive x
  have hinode : (s₁.setDir d x).inode p = s.inode p := hro.inode p
  refine ⟨?_, ?_, ?_, ?_⟩
  · rw [hnew]
    exact (Heap.get?_set hlive x d).trans (if_pos rfl)
  · rw [hnew, hx]
    exact h.inode
  · rw [hinode]
    show FileOk s₁.content s₁.cache.size _
    rw [hro.disk.content, hro.disk.size]
    exact h.ok
  · rw [hinode]
    show fileContent s₁.content _ = bytes
    rw [hro.disk.content]
    exact h.bytes

/-- `dir_readdir` yields the next name and stops behind its entry. -/
theorem dirReaddir_next (h : Reads s d p bytes)
    (hpos : (s.dir d).pos = (ENTRY_SIZE * i : Nat)) :
    ∃ s₁ x, ReadOnly s s₁ ∧ x.inode = (s.dir d).inode ∧ x.openCnt = (s.dir d).openCnt ∧
      ((namesFrom bytes i = [] ∧ dirReaddir s d = (none, s₁.setDir d x)) ∨
        ∃ name j, namesFrom bytes i = name :: namesFrom bytes (j + 1) ∧
          x.pos = (ENTRY_SIZE * (j + 1) : Nat) ∧
          dirReaddir s d = (some name, s₁.setDir d x)) := by
  have hn : bytes.length / ENTRY_SIZE - i < entryRounds s p := by
    rw [entryRounds_eq h.bytes]
    exact Nat.lt_succ_of_le (Nat.sub_le ..)
  have hscan := scanEntries_fst DirEntry.inUse h.ok h.bytes hn
  have hro := readOnly_scanEntries DirEntry.inUse p (entryRounds s p) s (ENTRY_SIZE * i)
  have hnat : (s.dir d).pos.toNat = ENTRY_SIZE * i := by
    rw [hpos]
    exact Int.toNat_natCast _
  have heq : dirReaddir s d =
      let r := scanEntries DirEntry.inUse p (entryRounds s p) s (ENTRY_SIZE * i)
      (r.1.map (·.1.name), r.2.setDir d { s.dir d with
        pos := readdirPos (inodeLength (s.inode p).data).toNat (ENTRY_SIZE * i) r.1 }) := by
    rw [← h.inode, ← hnat]
    rfl
  rw [heq]
  generalize scanEntries DirEntry.inUse p (entryRounds s p) s (ENTRY_SIZE * i) = r at *
  refine ⟨r.2, { s.dir d with
    pos := readdirPos (inodeLength (s.inode p).data).toNat (ENTRY_SIZE * i) r.1 },
    hro, rfl, rfl, ?_⟩
  rcases namesFrom_findEntry bytes i with ⟨hnone, hnil⟩ | ⟨e, j, hsome, hcons⟩
  · rw [hnone] at hscan
    left
    dsimp only
    rw [hscan]
    exact ⟨hnil, rfl⟩
  · rw [hsome] at hscan
    right
    refine ⟨e.name, j, hcons, ?_, ?_⟩
    · dsimp only
      rw [hscan]
      rfl
    · dsimp only
      rw [hscan]
      rfl

end Reads

/-! ## The loop -/

section Loop

variable {α : Type} {d : Nat} {bytes : List UInt8}

/-- `Inv names a s` says what holds with `names` still to come. -/
theorem readdirLoop_names {body : α → CString → FileSys → α × FileSys}
    {Inv : List CString → α → FileSys → Prop}
    (hreads : ∀ names a s, Inv names a s → ∃ p, Reads s d p bytes)
    (hmove : ∀ names a s s₁ x, Inv names a s → ReadOnly s s₁ → x.inode = (s.dir d).inode →
      x.openCnt = (s.dir d).openCnt → Inv names a (s₁.setDir d x))
    (hbody : ∀ name names a s, Inv (name :: names) a s →
      Inv names (body a name s).1 (body a name s).2 ∧
        ((body a name s).2.dir d).pos = (s.dir d).pos) :
    ∀ (n i : Nat) (a : α) (s : FileSys), (namesFrom bytes i).length < n →
      (s.dir d).pos = (ENTRY_SIZE * i : Nat) → Inv (namesFrom bytes i) a s →
        Inv [] (readdirLoop body d n a s).1 (readdirLoop body d n a s).2 := by
  intro n
  induction n with
  | zero => exact fun i a s hn => absurd hn (Nat.not_lt_zero _)
  | succ n ih =>
      intro i a s hn hpos hinv
      obtain ⟨p, h⟩ := hreads _ _ _ hinv
      obtain ⟨s₁, x, hro, hx, hcnt, hcase⟩ := dirReaddir_next h hpos
      have hmoved := hmove _ _ _ s₁ x hinv hro hx hcnt
      have hlive := (h.move hro hx).live
      unfold readdirLoop
      rcases hcase with ⟨hnil, heq⟩ | ⟨name, j, hcons, hposx, heq⟩
      · rw [heq]
        rw [hnil] at hmoved
        exact hmoved
      · rw [heq]
        rw [hcons] at hmoved hn
        obtain ⟨hrest, hsame⟩ := hbody name _ a _ hmoved
        have hdir : s₁.dir d = s.dir d := FileSys.dir_congr (by rw [hro.mem]) d
        have hlive₁ : s₁.mem.dirs.get? d = some (s₁.dir d) := by
          rw [hdir, hro.mem]
          exact h.live
        refine ih (j + 1) _ _ (Nat.lt_of_succ_lt_succ hn) ?_ hrest
        rw [hsame, FileSys.dir_setDir hlive₁ x, hposx]

end Loop

section Root

variable {D K : Set Nat} {dat : Nat → Sector} {s : FileSys} {c d p : Nat} {x : Dir} {α : Type}

theorem Session.moveHandle (hs : Session D K dat s (c + 1)) (hd : Held dat s d p (c + 1))
    (hx : x.inode = (s.dir d).inode) (hc : x.openCnt = (s.dir d).openCnt) :
    Session D K dat (s.setDir d x) (c + 1) := by
  have hdisk : SameDisk s (s.setDir d x) := ⟨rfl, rfl, rfl, rfl⟩
  exact hs.still (hs.mounted.setDir d x) ⟨d, p, hd.setPos hx hc⟩ (.of_disk hdisk dat)
    (SameOpen.of_sectors rfl (fun _ => rfl) _) ⟨rfl, rfl, rfl, rfl⟩

theorem Session.reads (hs : Session D K dat s (c + 1)) (hd : Held dat s d p (c + 1)) :
    Reads s d p (rootBytes s.content dat) := by
  have hdata := hd.opened.isOpen.data
  refine ⟨hd.live, hd.inode, ?_, ?_⟩
  · rw [hdata]
    exact hs.mounted.vol.file _ hs.root_mem
  · rw [hdata]
    rfl

/-- The rule for a command that does something with every file of the root directory and
changes none. `P rest a files stray` says what holds of the table of open files, and of the
memory that is nobody's, while the entries `rest` are still to come. -/
theorem withRootNames_each {body : α → CString → FileSys → α × FileSys}
    {P : List (CString × Nat) → α → List (CString × File) → (Int → UInt8) → Prop} {a : α}
    (hs : Session D K dat s 0)
    (hbody : ∀ name k rest a dat₁ s₁, Session D K dat₁ s₁ 1 → Still s dat s₁ dat₁ →
      (name, k) ∈ listing (rootBytes s.content dat) →
      P ((name, k) :: rest) a s₁.mem.fileTable s₁.mem.stray →
        ∃ dat₂, Quiet D K dat₁ s₁ 1 dat₂ (body a name s₁).2 ∧
          P rest (body a name s₁).1 (body a name s₁).2.mem.fileTable
            (body a name s₁).2.mem.stray)
    (hstart : P (listing (rootBytes s.content dat)) a s.mem.fileTable s.mem.stray) :
    P [] (withRootNames body a s).1 (withRootNames body a s).2.mem.fileTable
        (withRootNames body a s).2.mem.stray ∧
      ∃ dat', Quiet D K dat s 0 dat' (withRootNames body a s).2 := by
  obtain ⟨hm, ⟨p, hd⟩, hdisk, hrest, hopen, hpos⟩ :=
    dirOpenRoot_spec hs.mounted hs.root_mem hs.held
  unfold withRootNames
  dsimp only
  generalize dirOpenRoot s = o at *
  have hstill : Still s dat o.2 dat := .of_disk hdisk dat
  have hs₁ : Session D K dat o.2 (0 + 1) := hs.still hm ⟨o.1, p, hd⟩ hstill hopen hrest
  obtain ⟨bytes, hbytes⟩ : ∃ bytes, rootBytes s.content dat = bytes := ⟨_, rfl⟩
  have hrule := @readdirLoop_names _ o.1 bytes body (fun names a s₁ => ∃ dat₁ entries,
    Session D K dat₁ s₁ (0 + 1) ∧ s₁.mem.cwd = some o.1 ∧ Still s dat s₁ dat₁ ∧
      entries.map Prod.fst = names ∧ (∀ e ∈ entries, e ∈ listing (rootBytes s.content dat)) ∧
      P entries a s₁.mem.fileTable s₁.mem.stray)
    (fun names a s₁ ⟨dat₁, entries, hs₁, hcwd, hstill₁, _⟩ => by
      obtain ⟨p₁, hd₁⟩ := hs₁.handle_of_cwd hcwd
      have h := hs₁.reads hd₁
      rw [hstill₁.rootBytes hs, hbytes] at h
      exact ⟨p₁, h⟩)
    (fun names a s₁ s₂ x ⟨dat₁, entries, hs₁, hcwd, hstill₁, hnames, hsub, hP⟩ hro hx hc => by
      obtain ⟨p₁, hd₁⟩ := hs₁.handle_of_cwd hcwd
      have hd₂ := hro.held hd₁
      have hdir : s₂.dir o.1 = s₁.dir o.1 := FileSys.dir_congr (by rw [hro.mem]) _
      have hs₂ := (hro.session hs₁).moveHandle hd₂ (hx.trans (by rw [hdir]))
        (hc.trans (by rw [hdir]))
      have hdisk₂ : SameDisk s₂ (s₂.setDir o.1 x) := ⟨rfl, rfl, rfl, rfl⟩
      have htable : (s₂.setDir o.1 x).mem.fileTable = s₁.mem.fileTable := by
        rw [← hro.mem]
        rfl
      have hstray : (s₂.setDir o.1 x).mem.stray = s₁.mem.stray := by
        rw [← hro.mem]
        rfl
      refine ⟨dat₁, entries, hs₂, hd₂.cwd, (hstill₁.trans (hro.still dat₁)).trans
        (.of_disk hdisk₂ dat₁), hnames, hsub, ?_⟩
      rw [htable, hstray]
      exact hP)
    (fun name names a s₁ ⟨dat₁, entries, hs₁, hcwd, hstill₁, hnames, hsub, hP⟩ => by
      cases entries with
      | nil => cases hnames
      | cons e entries =>
          obtain ⟨rfl, rfl⟩ := List.cons.inj hnames
          obtain ⟨dat₂, hq, hP₂⟩ := hbody e.1 e.2 entries a dat₁ s₁ hs₁ hstill₁
            (hsub e List.mem_cons_self) hP
          obtain ⟨hcwd₂, hpos₂⟩ := hq.handle _ hcwd
          exact ⟨⟨dat₂, entries, hq.session, hcwd₂, hstill₁.trans hq.still, rfl,
            fun e he => hsub e (List.mem_cons_of_mem _ he), hP₂⟩, hpos₂⟩)
    (entryRounds o.2 (o.2.dir o.1).inode) 1 a o.2 (by
      have hlen := length_namesFrom bytes 1
      have hread := hs₁.reads hd
      rw [hstill.rootBytes hs, hbytes] at hread
      rw [hread.inode, entryRounds_eq hread.bytes]
      generalize bytes.length / ENTRY_SIZE = n at hlen ⊢
      omega) (hpos rfl)
    ⟨dat, listing bytes, hs₁, hd.cwd, hstill, (namesFrom_one bytes).symm, by rw [hbytes]; exact
      fun _ he => he, by rw [hrest.fileTable, hrest.stray, ← hbytes]; exact hstart⟩
  generalize readdirLoop body o.1 (entryRounds o.2 (o.2.dir o.1).inode) a o.2 = r at hrule ⊢
  obtain ⟨dat₁, entries, hs₂, hcwd, hstill₁, hnil, -, hP⟩ := hrule
  obtain rfl : entries = [] := List.map_eq_nil_iff.1 hnil
  obtain ⟨p', hd'⟩ := hs₂.handle_of_cwd hcwd
  obtain ⟨dat', hrev, hm', hheld, hdisk', hrest', hopen'⟩ := dirClose_spec hs₂.mounted hd'
  have hstill' : Still r.2 dat₁ (dirClose r.2 o.1) dat' := ⟨hdisk', hrev⟩
  refine ⟨?_, dat', hstill₁.trans hstill', hs₂.still hm' hheld hstill' hopen' hrest',
    .of_closed hs.held _⟩
  rw [hrest'.fileTable, hrest'.stray]
  exact hP

end Root

end SimpleShell.Fs
