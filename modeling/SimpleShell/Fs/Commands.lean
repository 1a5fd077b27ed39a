import SimpleShell.Fs.Session

/-!
# The commands on one file

`fsutil_size`, `fsutil_seek`, `fsutil_read`, `fsutil_cat` and `fsutil_write`
over a session. All but the last change no file. Each leaves the file it is
about in the table, `fsutil_cat` only if it was there.
-/

namespace SimpleShell.Fs

open SimpleShell.Lib

section Commands

variable {D K : Set Nat} {dat dat' : Nat → Sector} {s s₁ s' : FileSys} {c : Nat}
  {k : Nat} {name : CString} {f g : File}

/-! ## Steps on an open file -/

/-- The bytes of a file are the same before and after. -/
theorem FileUsed.content (h : FileUsed D K dat s c name f k dat' s')
    (hs : Session D K dat s c) :
    fileContent s'.content (dat' k) = fileContent s.content (dat k) := by
  have hmem := h.file.listed
  rw [h.still.rootBytes hs] at hmem
  exact (h.still.sameFile hs.mounted (hs.names.listed _ _ hmem)).content

theorem FileUsed.setFile (h : FileUsed D K dat s c name f k dat' s')
    (hinode : g.inode = f.inode) (hdeny : g.denyWrite = false) :
    FileUsed D K dat s c name g k dat' (setFile s' name g) := by
  obtain ⟨hsession, hfile⟩ := h.session.setFile h.file hinode hdeny
  have hdisk : SameDisk s' (SimpleShell.Fs.setFile s' name g) := ⟨rfl, rfl, rfl, rfl⟩
  refine ⟨h.still.trans (.of_disk hdisk dat'), hsession, hfile,
    fun n hn => ?_, h.handle.trans (.of_dirs rfl rfl)⟩
  rw [getFileByFname_setFile, if_neg hn]
  exact h.other n hn

theorem OpenFile.readOnly (hf : OpenFile dat s name f k) (h : ReadOnly s s') :
    OpenFile dat s' name f k := by
  have htab : s'.mem.fileTable = s.mem.fileTable := by rw [h.mem]
  exact ⟨by rw [h.disk.content]; exact hf.listed, (getFileByFname_congr htab _).trans hf.get,
    h.opened hf.opened, hf.allowed⟩

theorem FileUsed.readOnly (h : FileUsed D K dat s c name f k dat' s₁)
    (hro : ReadOnly s₁ s') : FileUsed D K dat s c name f k dat' s' := by
  have htab : s'.mem.fileTable = s₁.mem.fileTable := by rw [hro.mem]
  exact ⟨h.still.trans (hro.still dat'), hro.session h.session, h.file.readOnly hro,
    fun n hn => (getFileByFname_congr htab n).trans (h.other n hn),
    h.handle.trans (.of_dirs (by rw [hro.mem]) (by rw [hro.mem]))⟩

theorem FileUsed.position (h : FileUsed D K dat s c name f k dat' s') :
    s'.position name = some f.pos := by
  unfold FileSys.position
  rw [h.file.get]
  rfl

theorem FileUsed.position_other (h : FileUsed D K dat s c name f k dat' s') {n : CString}
    (hn : n ≠ name) : s'.position n = s.position n := by
  unfold FileSys.position
  rw [h.other n hn]

/-- Every size is a file's length. -/
theorem fileLength_eq (hm : Mounted D K dat s) (hf : Opened dat s f.inode k) :
    fileLength s f = (fileContent s.content (dat k)).length := by
  have hnonneg := (hm.vol.file k (hm.opened_mem hf)).nonneg
  unfold fileLength
  rw [hf.isOpen.data, length_fileContent]
  omega

/-! ## Size and seek -/

theorem fsutilSize_spec (hs : Session D K dat s c) (hname : PlainName name) :
    let r := fsutilSize s name
    (r.1 = -1 ∧ ∃ dat', NoFile D K dat s c name dat' r.2) ∨
      ∃ f k dat', (name, k) ∈ listing (rootBytes s.content dat) ∧
        r.1 = (fileContent s.content (dat k)).length ∧
        f.pos = (s.position name).getD 0 ∧ FileUsed D K dat s c name f k dat' r.2 := by
  have hopen := openFile_spec hs hname
  unfold fsutilSize
  generalize openFile s name = o at hopen
  dsimp only at hopen ⊢
  rcases hopen with ⟨hnone, dat', hno⟩ | ⟨f, k, dat', hmem, hsome, hf⟩
  · rw [hnone]
    exact .inl ⟨rfl, dat', hno⟩
  · rw [hsome]
    have hlen := fileLength_eq hf.session.mounted hf.file.opened
    rw [hf.content hs] at hlen
    exact .inr ⟨fileSeek f f.pos, k, dat', hmem, hlen, hf.position,
      hf.setFile rfl hf.file.allowed⟩

theorem fsutilSeek_spec (hs : Session D K dat s c) (hname : PlainName name)
    (offset : Int) :
    let r := fsutilSeek s name offset
    (r.1 = -1 ∧ ∃ dat', NoFile D K dat s c name dat' r.2) ∨
      ∃ f k dat', (name, k) ∈ listing (rootBytes s.content dat) ∧ r.1 = 0 ∧
        f.pos = offset ∧ FileUsed D K dat s c name f k dat' r.2 := by
  have hopen := openFile_spec hs hname
  unfold fsutilSeek
  generalize openFile s name = o at hopen
  dsimp only at hopen ⊢
  rcases hopen with ⟨hnone, dat', hno⟩ | ⟨f, k, dat', hmem, hsome, hf⟩
  · rw [hnone]
    exact .inl ⟨rfl, dat', hno⟩
  · rw [hsome]
    exact .inr ⟨fileSeek f offset, k, dat', hmem, rfl, rfl,
      hf.setFile rfl hf.file.allowed⟩

/-! ## Reading -/

/-- `file_read` returns the bytes from the position on. -/
theorem fileRead_spec (hm : Mounted D K dat s) (hf : Opened dat s f.inode k)
    (size : Int) :
    let r := fileRead s f size
    ReadOnly s r.2 ∧ r.1.2.inode = f.inode ∧ r.1.2.denyWrite = f.denyWrite ∧
      r.1.2.pos = int32 (f.pos + r.1.1.length) ∧
      ∀ o : Nat, f.pos = o →
        r.1.1 = ((fileContent s.content (dat k)).drop o).take size.toNat := by
  refine ⟨readOnly_readAt .., rfl, rfl, rfl, fun o ho => ?_⟩
  have hok := hm.vol.file k (hm.opened_mem hf)
  rw [← hf.isOpen.data] at hok
  unfold fileRead
  dsimp only
  rw [ho, inodeReadAt_content_eq hok, hf.isOpen.data]
  rfl

theorem fsutilRead_spec (hs : Session D K dat s c) (hname : PlainName name)
    (size : Int) :
    let r := fsutilRead s name size
    (r.1 = (-1, []) ∧ ∃ dat', NoFile D K dat s c name dat' r.2) ∨
      ∃ f k dat', (name, k) ∈ listing (rootBytes s.content dat) ∧
        r.1.1 = r.1.2.length ∧
        f.pos = int32 ((s.position name).getD 0 + r.1.2.length) ∧
        (∀ o : Nat, (s.position name).getD 0 = o →
          r.1.2 = ((fileContent s.content (dat k)).drop o).take size.toNat) ∧
        FileUsed D K dat s c name f k dat' r.2 := by
  have hopen := openFile_spec hs hname
  unfold fsutilRead
  generalize openFile s name = o at hopen
  dsimp only at hopen ⊢
  rcases hopen with ⟨hnone, dat', hno⟩ | ⟨f, k, dat', hmem, hsome, hf⟩
  · rw [hnone]
    exact .inl ⟨rfl, dat', hno⟩
  · rw [hsome]
    obtain ⟨hro, hinode, hdeny, hpos, hbytes⟩ :=
      fileRead_spec hf.session.mounted hf.file.opened size
    rw [hf.content hs] at hbytes
    rw [hf.position] at hpos hbytes
    exact .inr ⟨_, k, dat', hmem, rfl, hpos, hbytes,
      (hf.readOnly hro).setFile hinode (hdeny.trans hf.file.allowed)⟩

theorem catLoop_spec (n : Nat) : ∀ {s : FileSys} {f : File}, ∀ size : Int,
    ReadOnly s (catLoop size n s f).2 ∧ (catLoop size n s f).1.2.inode = f.inode ∧
      (catLoop size n s f).1.2.denyWrite = f.denyWrite := by
  induction n with
  | zero => exact fun _ => ⟨.refl _, rfl, rfl⟩
  | succ n ih =>
      intro s f size
      have hro : ReadOnly s (fileRead s f size).2 := readOnly_readAt ..
      unfold catLoop
      dsimp only
      split
      · exact ⟨hro, rfl, rfl⟩
      · obtain ⟨hro', hinode, hdeny⟩ := ih (s := (fileRead s f size).2)
          (f := (fileRead s f size).1.2) size
        exact ⟨hro.trans hro', hinode, hdeny⟩

/-- `fsutil_cat` leaves everything as it was, the table included. -/
theorem fsutilCat_spec (hs : Session D K dat s c) (hname : PlainName name) :
    let r := fsutilCat s name
    ∃ dat', Still s dat r.2 dat' ∧ Session D K dat' r.2 c ∧
      ∀ n, getFileByFname r.2 n = getFileByFname s n := by
  have hopen := openFile_spec hs hname
  unfold fsutilCat
  generalize openFile s name = o at hopen
  dsimp only at hopen ⊢
  rcases hopen with ⟨hnone, dat', hno⟩ | ⟨f, k, dat', hmem, hsome, hf⟩
  · rw [hnone]
    exact ⟨dat', hno.still, hno.session, fun n => getFileByFname_congr hno.fileTable n⟩
  · rw [hsome]
    dsimp only
    obtain ⟨hro, hinode, hdeny⟩ := catLoop_spec ((fileLength o.2 f).toNat + 1) (s := o.2)
      (f := fileSeek f 0) (fileLength o.2 f)
    generalize catLoop (fileLength o.2 f) ((fileLength o.2 f).toNat + 1) o.2
      (fileSeek f 0) = t at *
    have hback : fileSeek t.1.2 f.pos = f := by
      have hi : t.1.2.inode = f.inode := hinode
      have hd : t.1.2.denyWrite = f.denyWrite := hdeny
      unfold fileSeek
      rw [hi, hd]
    rw [hback]
    have hused := (hf.readOnly hro).setFile rfl hf.file.allowed
    generalize setFile t.2 name f = u at *
    cases hget : getFileByFname s name with
    | none =>
        obtain ⟨dat'', hstill, hsession, hclosed, hother⟩ :=
          removeFromFileTable_spec hused.session name
        rw [Option.isNone_none, if_pos rfl]
        refine ⟨dat'', hused.still.trans hstill, hsession, fun n => ?_⟩
        by_cases hn : n = name
        · rw [hn, hclosed, hget]
        · rw [hother n hn, hused.other n hn]
    | some g =>
        rw [Option.isNone_some, if_neg Bool.false_ne_true]
        refine ⟨dat', hused.still, hused.session, fun n => ?_⟩
        by_cases hn : n = name
        · have hagain := hf.again (by rw [hget]; exact Option.some_ne_none g)
          have hfile := hf.file.get
          rw [hagain] at hfile
          rw [hn, hused.file.get, hfile]
        · exact hused.other n hn

/-! ## Writing -/

/-- A session goes on after a write to one of its open files. -/
theorem Session.wrote {d' : Sector} (hs : Session D K dat s c)
    (hf : OpenFile dat s name f k) (hw : Wrote D K dat s f.inode k d' s') :
    Session D K (Function.update dat k d') s' c ∧
      OpenFile (Function.update dat k d') s' name f k ∧
      ∀ j ∈ K, j ≠ k → j ≠ 0 →
        SameFile s.content s'.content (dat j) (Function.update dat k d' j) := by
  have hk := hs.names.listed _ _ hf.listed
  obtain ⟨hk₀, hk₁, hreg⟩ := hs.names.file _ _ hf.listed
  have hm := hw.mounted hs.mounted hf.opened hk₀
  have hsame : ∀ j ∈ K, j ≠ k → j ≠ 0 →
      SameFile s.content s'.content (dat j) (Function.update dat k d' j) :=
    fun j hj hjk hj₀ => hw.sameFile hs.mounted.vol hk hk₀ hj hjk hj₀
  have hroot : rootBytes s'.content (Function.update dat k d') =
      rootBytes s.content dat := (hsame _ hs.root_mem hk₁.symm (by decide)).content
  have htab := hw.tables
  have hopen := hw.openInodes
  have hsector := hw.sector hf.opened.isOpen
  have hget : ∀ n, getFileByFname s' n = getFileByFname s n :=
    getFileByFname_congr htab.fileTable
  have hsameOpen := hw.sameOpen hf.opened.isOpen 0
  refine ⟨⟨hm, hs.held.congr hm htab.cwd htab.dirs hsameOpen (by decide),
    hs.names.congr hroot fun j hj hj₀ => ?_, by rw [htab.fileTable]; exact hs.keyed,
    fun n g hg => ?_, fun p hp hp₀ hp₁ => ?_, htab.badCloses.trans hs.closes⟩,
    ⟨by rw [hroot]; exact hf.listed, (hget name).trans hf.get, ?_, hf.allowed⟩, hsame⟩
  · by_cases hjk : j = k
    · rw [hjk, Function.update_self]
      exact hw.isDir
    · rw [Function.update_of_ne hjk]
  · rw [htab.fileTable] at hg
    rw [hroot, hopen, hsector]
    exact hs.handle n g hg
  · rw [hopen] at hp
    rw [hsector] at hp₀ hp₁
    rw [htab.fileTable]
    exact hs.covered p hp hp₀ hp₁
  · exact hm.opened_iff.2
      (by rw [hopen, hsector]; exact ⟨hf.opened.mem, hf.opened.isOpen.sector⟩)

/-- What `fsutil_write` does to a file that is there: it is opened, in state
`s₁`, and written, which `s₂` is the state after; `w` is the answer. -/
structure FileWritten (D K : Set Nat) (dat : Nat → Sector) (s : FileSys) (c : Nat)
    (name : CString) (buffer : List UInt8) (f : File) (k : Nat) (dat₁ : Nat → Sector)
    (s₁ : FileSys) (d' : Sector) (s₂ : FileSys) (w : Int) (s' : FileSys) : Prop where
  opened : FileOpened D K dat s c name f k dat₁ s₁
  wrote : Wrote D K dat₁ s₁ f.inode k d' s₂
  disk : SameDisk s₂ s'
  session : Session D K (Function.update dat₁ k d') s' c
  file : OpenFile (Function.update dat₁ k d') s' name
    { f with pos := int32 (f.pos + (w - 2)) } k
  same : ∀ j ∈ K, j ≠ k → j ≠ 0 →
    SameFile s.content s'.content (dat j) (Function.update dat₁ k d' j)
  other : ∀ n, n ≠ name → getFileByFname s' n = getFileByFname s n
  handle : SameHandle s s'
  answer : ∀ o : Nat, f.pos = o → o + buffer.length < 2 ^ 31 →
    (o ≤ inodeLength (dat₁ k) ∨ Tidy s₁.content (dat₁ k)) →
    (w = buffer.length ∧ Stored K dat₁ s₁ k o buffer d' s₂) ∨
      (w = 0 ∧ Unstored dat₁ s₁ k o buffer d' s₂)

/-- Every write, and more about those that start inside the file or past a tidy
end. -/
theorem inodeWriteAt_answer {v : List UInt8} {p : Nat} (h : Vol D K dat s)
    (hp : IsOpen dat s p k) (hk : k ∈ K) (hk₀ : k ≠ 0) (hpos : 0 < v.length)
    (offset : Int) :
    ∃ d' s₂ w, inodeWriteAt allocSector s p v offset = (w, s₂) ∧
      Wrote D K dat s p k d' s₂ ∧
      ∀ o : Nat, offset = o → o + v.length < 2 ^ 31 →
        (o ≤ inodeLength (dat k) ∨ Tidy s.content (dat k)) →
        (w = v.length ∧ Stored K dat s k o v d' s₂) ∨
          (w = 0 ∧ Unstored dat s k o v d' s₂) := by
  by_cases hgood : ∃ o : Nat, offset = o ∧ o + v.length < 2 ^ 31 ∧
      (o ≤ inodeLength (dat k) ∨ Tidy s.content (dat k))
  · obtain ⟨o, rfl, hend, hgap⟩ := hgood
    obtain ⟨d', s₂, hw, hcase⟩ := inodeWriteAt_spec h hp hk hk₀ hpos hend hgap
    rcases hcase with ⟨heq, hstored⟩ | ⟨heq, hunstored⟩
    · refine ⟨d', s₂, _, heq, hw, fun o' ho' _ _ => .inl ⟨rfl, ?_⟩⟩
      rw [← Int.natCast_inj.1 ho']
      exact hstored
    · refine ⟨d', s₂, _, heq, hw, fun o' ho' _ _ => .inr ⟨rfl, ?_⟩⟩
      rw [← Int.natCast_inj.1 ho']
      exact hunstored
  · obtain ⟨d', hw⟩ := inodeWriteAt_wrote (b := v) h hp hk hk₀ offset
    exact ⟨d', _, _, rfl, hw, fun o ho hend hgap => absurd ⟨o, ho, hend, hgap⟩ hgood⟩

theorem fsutilWrite_spec (hs : Session D K dat s c) (hname : PlainName name)
    {b : List UInt8} (hpos : 0 < b.length) :
    let r := fsutilWrite s name b
    (r.1 = -1 ∧ ∃ dat', NoFile D K dat s c name dat' r.2) ∨
      ∃ f k dat₁ s₁ d' s₂, (name, k) ∈ listing (rootBytes s.content dat) ∧
        FileWritten D K dat s c name (b.set (b.length - 1) 0) f k dat₁ s₁ d' s₂
          r.1 r.2 := by
  have hopen := openFile_spec hs hname
  unfold fsutilWrite
  generalize openFile s name = o at hopen
  dsimp only at hopen ⊢
  rcases hopen with ⟨hnone, dat', hno⟩ | ⟨f, k, dat', hmem, hsome, hf⟩
  · rw [hnone]
    exact .inl ⟨rfl, dat', hno⟩
  · rw [hsome]
    have hk := hs.names.listed _ _ hmem
    obtain ⟨hk₀, -⟩ := hs.names.file _ _ hmem
    obtain ⟨d', s₂, w, heq, hw, hanswer⟩ := inodeWriteAt_answer
      (v := b.set (b.length - 1) 0) hf.session.mounted.vol
      hf.file.opened.isOpen hk hk₀ (by rw [List.length_set]; exact hpos) f.pos
    obtain ⟨hsession, hfile, hsame⟩ := hf.session.wrote hf.file hw
    unfold fileWrite
    dsimp only
    rw [heq]
    obtain ⟨hsession', hfile'⟩ := hsession.setFile hfile
      (g := { f with pos := int32 (f.pos + (w - 2)) }) rfl hf.file.allowed
    refine .inr ⟨f, k, dat', o.2, d', s₂, hmem, hf, hw, ⟨rfl, rfl, rfl, rfl⟩, hsession',
      hfile', fun j hj hjk hj₀ => ?_, fun n hn => ?_, ?_, hanswer⟩
    · exact (hf.still.sameFile hs.mounted hj).trans (hsame j hj hjk hj₀)
    · rw [getFileByFname_setFile, if_neg hn, getFileByFname_congr hw.tables.fileTable]
      exact hf.other n hn
    · exact (hf.handle.trans (.of_dirs hw.tables.cwd hw.tables.dirs)).trans
        (.of_dirs rfl rfl)

end Commands

end SimpleShell.Fs
