import SimpleShell.Fs.Readdir
import SimpleShell.Fs.Fresh
import SimpleShell.Fs.FileTable

/-!
# What `find_file` searches

Each file is read from where its entry in the table of open files stands, into a buffer
that is not cleared. What `strstr` sees is the rest of the file from there on, and behind
it whatever the memory held. Of a file that stands before its first byte, the read begins
with bytes that belong to nobody.
-/

namespace SimpleShell.Fs

open SimpleShell.Lib

/-- Where a file stands, by the table of open files; one that is not in it starts at 0. -/
def positionIn (table : List (CString × File)) (name : CString) : Int :=
  ((table.find? fun e => e.1 == name).map fun e => e.2.pos).getD 0

/-- The same state over other memory that nobody owns. -/
def FileSys.withStray (s : FileSys) (stray : Int → UInt8) : FileSys :=
  { s with mem := { s.mem with stray := stray } }

/-- `find_file` prints the files that contain the pattern, each once, whatever the pattern is
and whatever the memory holds that is not cleared: before the buffers (`stray`) and behind
what was read into them (`junk`). -/
def FindsExactly (s : FileSys) : Prop :=
  ∀ (stray : Int → UInt8) (junk : CString → List UInt8) (pattern : CString),
    (∀ name, name ∈ findNames junk pattern (s.withStray stray) ↔
      ∃ k, (name, k) ∈ s.entries ∧ pattern <:+: cString (s.bytes k)) ∧
    (findNames junk pattern (s.withStray stray)).Nodup

/-- From where the file stands on it has a NUL, and up to there it reads as from its start. -/
structure ReadsFromStart (s : FileSys) (name : CString) (k : Nat) : Prop where
  nonneg : 0 ≤ positionIn s.mem.fileTable name
  ended : 0 ∈ (s.bytes k).drop (positionIn s.mem.fileTable name).toNat
  same : cString ((s.bytes k).drop (positionIn s.mem.fileTable name).toNat) =
    cString (s.bytes k)

/-- What a read of the whole size of a file finds from position `o` on. -/
structure FoundText (stray : Int → UInt8) (bytes : List UInt8) (o : Int) (text : List UInt8) :
    Prop where
  inside : 0 ≤ o → text = bytes.drop o.toNat
  empty : o < 0 → bytes = [] → text = []
  before : o < 0 → ¬(BLOCK_SECTOR_SIZE : Int) ∣ o → bytes ≠ [] →
    text.head? = some (stray (o.tmod BLOCK_SECTOR_SIZE))

/-- What the round of an entry finds. -/
def FoundFile (s : FileSys) (e : CString × Nat) (found : CString × Int × List UInt8) : Prop :=
  found.1 = e.1 ∧
    FoundText s.mem.stray (s.bytes e.2) (positionIn s.mem.fileTable e.1) found.2.2

section FindFile

variable {D K : Set Nat} {dat : Nat → Sector} {s s' : FileSys} {c k : Nat} {o : Int}
  {name : CString} {junk : CString → List UInt8} {pattern : CString} {stray : Int → UInt8}

theorem position_getD (s : FileSys) (name : CString) :
    (s.position name).getD 0 = positionIn s.mem.fileTable name := by
  unfold FileSys.position getFileByFname positionIn
  rw [Option.map_map]
  rfl

theorem FileUsed.positionIn {dat' : Nat → Sector} {f : File}
    (h : FileUsed D K dat s c name f k dat' s') {n : CString} (hn : n ≠ name) :
    positionIn s'.mem.fileTable n = SimpleShell.Fs.positionIn s.mem.fileTable n := by
  rw [← position_getD, ← position_getD, h.position_other hn]

theorem Session.withStray (hs : Session D K dat s c) (stray : Int → UInt8) :
    Session D K dat (s.withStray stray) c := by
  have hm : Mounted D K dat (s.withStray stray) := hs.mounted.frame rfl rfl rfl rfl rfl rfl
  have hheld := hs.held.congr hm rfl rfl (.of_mem rfl 0) (by decide)
  exact ⟨hm, hheld, hs.names, hs.keyed, hs.handle, hs.covered, hs.closes⟩

/-! ## One round -/

theorem head?_load {n len : Nat} {b : ByteBlock n} (hlen : 0 < len) (ho : o < 0) :
    (b.load stray o len).head? = some (stray o) := by
  obtain ⟨m, rfl⟩ := Nat.exists_eq_add_one.2 hlen
  rw [ByteBlock.load, List.range_succ_eq_map, List.map_cons, List.head?_cons]
  dsimp only
  rw [if_neg (by omega)]
  exact congrArg (fun i => some (stray i)) (Int.add_zero o)

/-- Before the start of a file, and not at the start of a sector, a read begins with a byte
that is nobody's. -/
theorem inodeReadAt_head {b : BufferCache} {d : Sector} {n : Nat} (hn : 0 < n)
    (hlen : inodeLength d = n) (ho : o < 0) (hsector : ¬(BLOCK_SECTOR_SIZE : Int) ∣ o) :
    (inodeReadAt stray b d n o).1.head? = some (stray (o.tmod BLOCK_SECTOR_SIZE)) := by
  have hofs : o.tmod BLOCK_SECTOR_SIZE < 0 := by
    rw [Int.dvd_iff_tmod_eq_zero] at hsector
    have hneg := Int.tmod_nonneg (BLOCK_SECTOR_SIZE : Int) (show 0 ≤ -o by omega)
    rw [Int.neg_tmod] at hneg
    omega
  obtain ⟨chunk, hchunk⟩ : ∃ chunk, chunk = chunkSize d n o := ⟨_, rfl⟩
  have hpos : 0 < chunk := by
    rw [hchunk]
    unfold chunkSize
    rw [hlen]
    dsimp only
    split
    · omega
    · split
      · omega
      · simp only [BLOCK_SECTOR_SIZE] at hofs ⊢
        omega
  obtain ⟨m, rfl⟩ := Nat.exists_eq_add_one.2 hn
  unfold inodeReadAt
  rw [Int.toNat_natCast, inodeReadLoop, if_pos (by omega)]
  dsimp only
  rw [← hchunk, if_neg (by omega), if_neg (by omega), List.head?_append,
    head?_load (by omega) hofs]
  rfl

/-- What a read of the whole of an open file finds. -/
theorem fsutilRead_found {f : File} (hm : Mounted D K dat s) (hf : OpenFile dat s name f k) :
    FoundText s.mem.stray (fileContent s.content (dat k)) f.pos
      (fsutilRead s name (fileContent s.content (dat k)).length).1.2 := by
  obtain ⟨n, hn⟩ : ∃ n, (fileContent s.content (dat k)).length = n := ⟨_, rfl⟩
  have hlen : inodeLength (s.inode f.inode).data = n := by
    rw [← hn]
    exact fileLength_eq hm hf.opened
  have hread : (fsutilRead s name n).1.2 =
      (inodeReadAt s.mem.stray s.cache (s.inode f.inode).data n f.pos).1 := by
    unfold fsutilRead openFile
    rw [hf.get]
    rfl
  rw [hn, hread]
  refine ⟨fun ho => ?_, fun _ hnil => ?_, fun ho hsector hne => ?_⟩
  · obtain ⟨-, -, -, -, hbytes⟩ := fileRead_spec hm hf.opened n
    refine (hbytes f.pos.toNat (by omega)).trans ?_
    rw [Int.toNat_natCast, List.take_of_length_le (by rw [List.length_drop, hn]; omega)]
  · rw [hnil] at hn
    rw [← hn]
    rfl
  · have hlt : 0 < n := by
      rw [← hn]
      exact List.length_pos_of_ne_nil hne
    exact inodeReadAt_head hlt hlen ho hsector

/-- One round: the whole size, from where the file stands on. -/
theorem findStep_spec (hs : Session D K dat s c) (hname : PlainName name)
    (hlisted : (name, k) ∈ listing (rootBytes s.content dat)) :
    let a := fsutilSize s name
    let b := fsutilSize a.2 name
    let r := fsutilRead b.2 name b.1
    FoundText s.mem.stray (fileContent s.content (dat k)) (positionIn s.mem.fileTable name)
        r.1.2 ∧
      (∃ dat', Quiet D K dat s c dat' r.2) ∧ r.2.mem.stray = s.mem.stray ∧
      ∀ n, n ≠ name → positionIn r.2.mem.fileTable n = positionIn s.mem.fileTable n := by
  have hfirst := fsutilSize_spec hs hname
  have hstray₁ := fsutilSize_stray s name
  dsimp only
  generalize fsutilSize s name = a at hfirst hstray₁ ⊢
  rcases hfirst with ⟨-, dat₁, hno⟩ | ⟨f, j, dat₁, hj, hlen, hpos, hu⟩
  · exact absurd hlisted (hno.absent k)
  · obtain rfl : j = k := hs.names.unique hj hlisted
    have hsecond := fsutilSize_spec hu.session hname
    have hstray₂ := fsutilSize_stray a.2 name
    generalize fsutilSize a.2 name = b at hsecond hstray₂ ⊢
    rcases hsecond with ⟨-, dat₂, hno⟩ | ⟨g, i, dat₂, hi, hlen', hpos', hu'⟩
    · exact absurd hu.file.listed (hno.absent j)
    · obtain rfl : i = j := hu.session.names.unique hi hu.file.listed
      have hread := fsutilRead_spec hu'.session hname b.1
      have hfound := fsutilRead_found hu'.session.mounted hu'.file
      rw [hu'.content hu.session, ← hlen', hstray₂, hstray₁, hu.content hs, hpos', hu.position,
        Option.getD_some, hpos, position_getD] at hfound
      have hstray₃ := fsutilRead_stray b.2 name b.1
      generalize fsutilRead b.2 name b.1 = r at hread hfound hstray₃ ⊢
      rcases hread with ⟨-, dat₃, hno⟩ | ⟨e, l, dat₃, hl, -, -, -, hu₃⟩
      · exact absurd hu'.file.listed (hno.absent i)
      · obtain rfl : l = i := hu'.session.names.unique hl hu'.file.listed
        refine ⟨hfound, ⟨dat₃, (hu.quiet.trans hu'.quiet).trans hu₃.quiet⟩,
          (hstray₃.trans hstray₂).trans hstray₁, fun n hn => ?_⟩
        rw [hu₃.positionIn hn, hu'.positionIn hn, hu.positionIn hn]

/-! ## The scan -/

/-- `find_file` goes through the entries of the root directory as they stand. -/
theorem findFile_fst (hs : Session D K dat s 0) :
    List.Forall₂ (FoundFile s) s.entries (findFile s).1 := by
  have hrule := @withRootNames_each D K dat s _ (fun found name s =>
    let a := fsutilSize s name
    let b := fsutilSize a.2 name
    let r := fsutilRead b.2 name b.1
    (found ++ [(name, a.1, r.1.2)], r.2))
    (fun rest found table stray => (∃ done, done ++ rest = s.entries ∧
        List.Forall₂ (FoundFile s) done found) ∧ SlotTable.Keyed rest ∧
      (∀ e ∈ rest, positionIn table e.1 = positionIn s.mem.fileTable e.1) ∧
      stray = s.mem.stray) [] hs
    (fun name k rest found dat₁ s₁ hs₁ hstill hk hP => by
      obtain ⟨⟨done, hdone, hall⟩, hkeyed, hsame, hstray⟩ := hP
      have hplain := hs.names.plain _ _ hk
      have hmem := hs.names.listed _ _ hk
      have hk₁ := hk
      rw [← hstill.rootBytes hs] at hk₁
      obtain ⟨hfound, ⟨dat₂, hq⟩, hstray', hothers⟩ := findStep_spec hs₁ hplain hk₁
      have hcontent : fileContent s₁.content (dat₁ k) = s.bytes k := by
        rw [hs.bytes hmem]
        exact (hstill.sameFile hs.mounted hmem).content
      rw [hcontent, hstray, hsame _ List.mem_cons_self] at hfound
      obtain ⟨habsent, hkeyed'⟩ := SlotTable.keyed_cons.1 hkeyed
      refine ⟨dat₂, hq, ⟨done ++ [(name, k)], by rw [List.append_assoc]; exact hdone, ?_⟩,
        hkeyed', fun e he => ?_, hstray'.trans hstray⟩
      · exact List.rel_append hall (.cons ⟨rfl, hfound⟩ .nil)
      · have hne : e.1 ≠ name := fun heq => habsent e.2 (by rw [← heq]; exact he)
        rw [hothers _ hne, hsame e (List.mem_cons_of_mem _ he)])
    ⟨⟨[], by rw [hs.entries]; rfl, .nil⟩, hs.names.keyed, fun _ _ => rfl, rfl⟩
  obtain ⟨⟨⟨done, hdone, hall⟩, -⟩, -⟩ := hrule
  rw [List.append_nil] at hdone
  rw [← hdone]
  exact hall

theorem exists_found {R : CString × Nat → CString × Int × List UInt8 → Prop} {es fs}
    (h : List.Forall₂ R es fs) : (∀ e ∈ es, ∃ f ∈ fs, R e f) ∧ ∀ f ∈ fs, ∃ e ∈ es, R e f := by
  induction h with
  | nil => exact ⟨fun _ h => absurd h List.not_mem_nil, fun _ h => absurd h List.not_mem_nil⟩
  | @cons e f es fs hef _ ih =>
      constructor
      · intro a ha
        rcases List.mem_cons.1 ha with rfl | ha
        · exact ⟨f, List.mem_cons_self, hef⟩
        · obtain ⟨b, hb, hab⟩ := ih.1 a ha
          exact ⟨b, List.mem_cons_of_mem _ hb, hab⟩
      · intro b hb
        rcases List.mem_cons.1 hb with rfl | hb
        · exact ⟨e, List.mem_cons_self, hef⟩
        · obtain ⟨a, ha, hab⟩ := ih.2 b hb
          exact ⟨a, List.mem_cons_of_mem _ ha, hab⟩

theorem found_names {es fs} (h : List.Forall₂ (FoundFile s) es fs) :
    fs.map (fun f => f.1) = es.map Prod.fst := by
  induction h with
  | nil => rfl
  | cons hef _ ih => rw [List.map_cons, List.map_cons, hef.1, ih]

theorem nodup_findFile (hs : Session D K dat s 0) : ((findFile s).1.map fun f => f.1).Nodup := by
  rw [found_names (findFile_fst hs), hs.entries]
  exact hs.names.keyed

theorem nodup_findNames (hs : Session D K dat s 0) : (findNames junk pattern s).Nodup :=
  (nodup_findFile hs).sublist (List.filter_sublist.map _)

/-- A file is printed if and only if the pattern is in what is found of it. -/
theorem mem_findNames (hs : Session D K dat s 0) (hk : (name, k) ∈ s.entries) :
    ∃ text, FoundText s.mem.stray (s.bytes k) (positionIn s.mem.fileTable name) text ∧
      ∀ junk pattern, name ∈ findNames junk pattern s ↔
        pattern <:+: cString (text ++ junk name) := by
  obtain ⟨hforth, -⟩ := exists_found (findFile_fst hs)
  obtain ⟨found, hfound, hname, htext⟩ := hforth _ hk
  refine ⟨_, htext, fun junk pattern => ⟨fun h => ?_, fun h => ?_⟩⟩
  · obtain ⟨other, hother, heq⟩ := List.mem_map.1 h
    obtain ⟨hmem, hmatch⟩ := List.mem_filter.1 hother
    obtain rfl : other = found :=
      List.inj_on_of_nodup_map (nodup_findFile hs) hmem hfound (heq.trans hname.symm)
    rw [heq] at hmatch
    exact of_decide_eq_true hmatch
  · refine List.mem_map.2 ⟨found, List.mem_filter.2 ⟨hfound, decide_eq_true ?_⟩, hname⟩
    rw [hname]
    exact h

theorem entry_of_mem_findNames (hs : Session D K dat s 0) (h : name ∈ findNames junk pattern s) :
    ∃ k, (name, k) ∈ s.entries := by
  obtain ⟨-, hback⟩ := exists_found (findFile_fst hs)
  obtain ⟨found, hfound, rfl⟩ := List.mem_map.1 h
  obtain ⟨⟨n, k⟩, he, hname, -⟩ := hback _ (List.mem_filter.1 hfound).1
  exact ⟨k, hname ▸ he⟩

/-! ## Which text is searched -/

theorem cString_append_of_mem {text junk : List UInt8} (h : 0 ∈ text) :
    cString (text ++ junk) = cString text := by
  unfold cString
  rw [List.takeWhile_append, if_neg]
  intro hall
  have heq := (List.takeWhile_prefix _).eq_of_length hall
  rw [← heq] at h
  exact absurd (List.all_eq_true.1 List.all_takeWhile _ h) (by decide)

/-- What ends the same way whatever follows it has a NUL. -/
theorem mem_zero_of_same {text bytes : List UInt8}
    (h : ∀ junk, cString (text ++ junk) = bytes) : 0 ∈ text := by
  by_contra habs
  have hall : ∀ junk, cString (text ++ junk) = text ++ cString junk := by
    intro junk
    unfold cString
    rw [List.takeWhile_append_of_pos]
    exact fun x hx => decide_eq_true fun hzero => habs (hzero ▸ hx)
  have hone := (h [1]).trans (h []).symm
  rw [hall, hall] at hone
  have hlen := congrArg List.length (List.append_cancel_left hone)
  exact absurd hlen (by decide)

theorem eq_of_infix_iff {a b : List UInt8} (h : ∀ pattern, pattern <:+: a ↔ pattern <:+: b) :
    a = b := by
  have hab := (h a).1 List.infix_rfl
  have hba := (h b).2 List.infix_rfl
  exact hab.eq_of_length (Nat.le_antisymm hab.length_le hba.length_le)

/-- `find_file` prints exactly the files that contain the pattern when each of them, from where
it stands up to a NUL, reads as from its start; and when one does not, there is a pattern, and
memory that is not cleared, for which it does not, unless it stands a whole number of sectors
before its start. -/
theorem findNames_exact_iff (h : Reachable s) :
    ((∀ name k, (name, k) ∈ s.entries → ReadsFromStart s name k) → FindsExactly s) ∧
      (FindsExactly s → ∀ name k, (name, k) ∈ s.entries → ReadsFromStart s name k ∨
        (positionIn s.mem.fileTable name < 0 ∧
          (BLOCK_SECTOR_SIZE : Int) ∣ positionIn s.mem.fileTable name)) := by
  obtain ⟨D, K, dat, hs⟩ := h.session
  constructor
  · intro hall stray junk pattern
    have hs' := hs.withStray stray
    have hmatch : ∀ name k, (name, k) ∈ s.entries →
        (name ∈ findNames junk pattern (s.withStray stray) ↔
          pattern <:+: cString (s.bytes k)) := by
      intro name k hk
      obtain ⟨text, htext, hfind⟩ := mem_findNames hs' hk
      have hfile := hall name k hk
      have hinside : text = (s.bytes k).drop (positionIn s.mem.fileTable name).toNat :=
        htext.inside hfile.nonneg
      rw [hfind, hinside, cString_append_of_mem hfile.ended, hfile.same]
    refine ⟨fun name => ⟨fun hname => ?_, fun ⟨k, hk, hin⟩ => (hmatch name k hk).2 hin⟩,
      nodup_findNames hs'⟩
    obtain ⟨k, hk⟩ := entry_of_mem_findNames hs' hname
    exact ⟨k, hk, (hmatch name k hk).1 hname⟩
  · intro hexact name k hk
    have hunique : ∀ {j}, (name, j) ∈ s.entries → j = k := by
      intro j hj
      rw [hs.entries] at hj hk
      exact hs.names.unique hj hk
    -- What is found of the file is its content, whatever the memory holds.
    have hfound : ∀ stray, ∃ text, FoundText stray (s.bytes k)
        (positionIn s.mem.fileTable name) text ∧
          ∀ junk, cString (text ++ junk) = cString (s.bytes k) := by
      intro stray
      obtain ⟨text, htext, hfind⟩ := mem_findNames (hs.withStray stray) hk
      refine ⟨text, htext, fun junk => eq_of_infix_iff fun pattern => ?_⟩
      obtain ⟨hnames, -⟩ := hexact stray (fun _ => junk) pattern
      rw [← hfind (fun _ => junk) pattern, hnames name]
      constructor
      · intro ⟨j, hj, hin⟩
        rw [← hunique hj]
        exact hin
      · exact fun hin => ⟨k, hk, hin⟩
    rcases Int.lt_or_le (positionIn s.mem.fileTable name) 0 with hneg | hnonneg
    · refine .inr ⟨hneg, ?_⟩
      by_contra hsector
      obtain ⟨text₀, htext₀, hsame₀⟩ := hfound fun _ => 0
      obtain ⟨text₁, htext₁, hsame₁⟩ := hfound fun _ => 1
      have hzero := mem_zero_of_same hsame₀
      have hne : s.bytes k ≠ [] := by
        intro hnil
        rw [htext₀.empty hneg hnil] at hzero
        exact List.not_mem_nil hzero
      -- Of the bytes before the buffer, a NUL ends the text at once and a 1 does not.
      obtain ⟨rest₀, rfl⟩ := List.head?_eq_some_iff.1 (htext₀.before hneg hsector hne)
      obtain ⟨rest₁, rfl⟩ := List.head?_eq_some_iff.1 (htext₁.before hneg hsector hne)
      exact absurd ((hsame₀ []).trans (hsame₁ []).symm) (by simp [cString])
    · obtain ⟨text, htext, hsame⟩ := hfound s.mem.stray
      have hinside : text = (s.bytes k).drop (positionIn s.mem.fileTable name).toNat :=
        htext.inside hnonneg
      have hended := mem_zero_of_same hsame
      have hagree := hsame []
      rw [List.append_nil] at hagree
      rw [hinside] at hended hagree
      exact .inl ⟨hnonneg, hended, hagree⟩

end FindFile

/-! ## After a write -/

/-- A new file of three bytes after `write a x`: it is the only one, begins with `x` and
stands behind it. -/
theorem writtenFile : ∃ s k, Reachable s ∧ s.entries = [([97], k)] ∧ s.bytes k = [120, 0, 0] ∧
    positionIn s.mem.fileTable [97] = 1 := by
  obtain ⟨s, hinit, hreach, -, -, -, hcreate⟩ := blankDisk_create 3 (by decide) (by decide)
  obtain ⟨D, dat, hf⟩ := filesysInit_format hinit
  have hs := hf.session
  have habs : ∀ j, ([97], j) ∉ listing (rootBytes s.content dat) := by
    intro j hj
    rw [hf.empty] at hj
    exact List.not_mem_nil hj
  have hlen : (writeBuffer [[120]]).length = 3 := rfl
  have hset : (writeBuffer [[120]]).set (3 - 1) 0 = [120, 0, 0] := rfl
  obtain ⟨hpos, k, D', K', dat', hk, hs', hlisted, hcontent⟩ :=
    fsutilWrite_new hs plainName_a habs (by decide) hcreate (by rw [hlen]; decide) hlen
  obtain ⟨dat₁, htable₁, -, hcase⟩ := fsutilCreate_spec hs plainName_a (3 : Nat)
  have hcreated : Reachable (fsutilCreate s [97] (3 : Nat)).2 :=
    .exec (.create [97] (3 : Nat)) hreach plainName_a
  have hwritten := Reachable.exec (.write [97] [[120]]) hcreated plainName_a
  rw [exec_write (List.cons_ne_nil _ _)] at hwritten
  rcases hcase with ⟨-, j, hmade, hs₁⟩ | ⟨hfalse, -⟩
  · have hlisted₁ := hmade.listing.symm.subset List.mem_cons_self
    have hclosed : (fsutilCreate s [97] (3 : Nat)).2.position [97] = none := by
      rw [FileSys.position, getFileByFname_congr htable₁]
      exact hs.position_none habs
    obtain ⟨dat₂, hframe, -⟩ := fsutilWrite_at hs₁ plainName_a hlisted₁ (o := 0)
      (by rw [hlen]; decide) (by rw [hclosed]; rfl) (by rw [hlen]; decide) (.inl (Nat.zero_le _))
    have hperm := hmade.listing
    rw [hf.empty, ← hframe.root, ← hframe.session.entries] at hperm
    have hentries := List.perm_singleton.1 hperm
    refine ⟨_, k, hwritten, ?_, ?_, ?_⟩
    · rw [← hs'.entries, hentries] at hlisted
      rw [hentries, List.mem_singleton.1 hlisted]
    · rw [hs'.bytes hk, hcontent, hset]
    · rw [← position_getD, hpos]
      rfl
  · rw [hfalse] at hcreate
    cases hcreate

/-- That file, read again from its start. -/
theorem rewoundFile : ∃ s k, Reachable s ∧ s.entries = [([97], k)] ∧ s.bytes k = [120, 0, 0] ∧
    positionIn s.mem.fileTable [97] = 0 := by
  obtain ⟨s, k, hreach, hentries, hbytes, -⟩ := writtenFile
  obtain ⟨D, K, dat, hs⟩ := hreach.session
  have hlisted : ([97], k) ∈ listing (rootBytes s.content dat) := by
    rw [← hs.entries, hentries]
    exact List.mem_singleton_self _
  have hsought := Reachable.exec (.seek [97] 0) hreach plainName_a
  rcases fsutilSeek_spec hs plainName_a 0 with ⟨-, dat', hno⟩ | ⟨f, j, dat', -, -, hpos, hu⟩
  · exact absurd hlisted (hno.absent k)
  · refine ⟨_, k, hsought, (hu.quiet.entries hs).trans hentries,
      (hu.quiet.fileBytes hs (hs.names.listed _ _ hlisted)).trans hbytes, ?_⟩
    rw [← position_getD]
    exact (congrArg (Option.getD · 0) hu.position).trans hpos

/-- There, `find_file` finds every part of the text. -/
theorem findNames_exact_iff_rewound : ∃ s k, Reachable s ∧ s.entries = [([97], k)] ∧
    s.bytes k = [120, 0, 0] ∧ FindsExactly s := by
  obtain ⟨s, k, hreach, hentries, hbytes, hpos⟩ := rewoundFile
  refine ⟨s, k, hreach, hentries, hbytes, (findNames_exact_iff hreach).1 fun name j hj => ?_⟩
  rw [hentries] at hj
  obtain ⟨rfl, rfl⟩ := Prod.mk.inj (List.mem_singleton.1 hj)
  refine ⟨by rw [hpos], ?_, ?_⟩
  · rw [hpos, hbytes]
    decide
  · rw [hpos]
    rfl

/-- `find_file` does not print a file that begins with the pattern. -/
theorem findNames_missed : ∃ s, Reachable s ∧
    (∃ k, ([97], k) ∈ s.entries ∧ [120] <:+: cString (s.bytes k)) ∧
      [97] ∉ findNames (fun _ => []) [120] s := by
  obtain ⟨s, k, hreach, hentries, hbytes, hpos⟩ := writtenFile
  obtain ⟨D, K, dat, hs⟩ := hreach.session
  have hk : ([97], k) ∈ s.entries := by
    rw [hentries]
    exact List.mem_singleton_self _
  obtain ⟨text, htext, hfind⟩ := mem_findNames hs hk
  have hinside := htext.inside (by rw [hpos]; decide)
  refine ⟨s, hreach, ⟨k, hk, by rw [hbytes]; decide⟩, fun hmem => ?_⟩
  have hmatch := (hfind _ _).1 hmem
  rw [hinside, hpos, hbytes] at hmatch
  exact absurd hmatch (by decide)

end SimpleShell.Fs
