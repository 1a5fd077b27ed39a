import SimpleShell.Fs.Appending
import SimpleShell.Lib.Machine

/-!
# What the files are for

To its user the file system is a map from names to files, and a file is its bytes and the place
where the next read or write begins. `store` is that map as a machine, one cell a name; it knows
of no sector, no inode and no table. On every run in which no sector is missing the program
answers as the map does.
-/

namespace SimpleShell.Fs

open SimpleShell.Lib

/-! ## The program as a machine -/

inductive Answer where
  | nothing
  | done (success : Bool)
  | count (n : Int)
  | text (n : Int) (bytes : List UInt8)
  | dump (status : Int) (pieces : List (Int × List UInt8))
  | copied (content : Option CString)

/-- What the shell is given back for a command on one file. -/
def FileSys.answer (s : FileSys) : Command → Answer
  | .create name size => .done (fsutilCreate s name size).1
  | .write name words =>
      if words = [] then .nothing else .count (fsutilWrite s name (writeBuffer words)).1
  | .read name size => .text (fsutilRead s name size).1.1 (fsutilRead s name size).1.2
  | .seek name offset => .count (fsutilSeek s name offset).1
  | .size name => .count (fsutilSize s name).1
  | .cat name => .dump (fsutilCat s name).1.1 (fsutilCat s name).1.2
  | .rm name => .done (fsutilRm s name).1
  | .copyOut name => .copied (copyOut s name).1
  | _ => .nothing

def fileSystem : Machine FileSys Command Answer :=
  ⟨fun s command => (s.answer command, s.exec command)⟩

/-- The command is within the limits and finds every sector it asks for. -/
def Command.Served (s : FileSys) (command : Command) : Prop :=
  (command.Modest s ∨ ∃ name, command = .copyOut name ∧ PlainName name) ∧
    (s.exec command).allocFailures = s.allocFailures

/-! ## The map -/

structure StoredFile where
  bytes : List UInt8
  pos : Nat

abbrev Store := CString → Option StoredFile

/-- The file that a command is about. -/
def Command.file : Command → CString
  | .create name _ | .write name _ | .read name _ | .seek name _ | .size name
  | .cat name | .rm name | .copyIn name _ | .copyOut name => name
  | .ls | .findFile | .fragmentationDegree | .recover0 | .freespace | .defragment _ => []

/-- What a command does to its file. -/
def StoredFile.step : Command → Option StoredFile → Answer × Option StoredFile
  | .create _ size, none => (.done true, some ⟨List.replicate (int32 size).toNat 0, 0⟩)
  | .create _ _, some f => (.done false, some f)
  | .write _ words, none => (if words = [] then .nothing else .count (-1), none)
  | .write _ words, some f =>
      if words = [] then (.nothing, some f)
      else (.count ((joinWords words).length + 2),
        some ⟨overwrite 0 f.bytes f.pos (joinWords words ++ [0, 0]),
          f.pos + (joinWords words).length⟩)
  | .read _ _, none => (.text (-1) [], none)
  | .read _ size, some f =>
      let bytes := (f.bytes.drop f.pos).take size.toNat
      (.text bytes.length bytes, some { f with pos := f.pos + bytes.length })
  | .seek _ _, none => (.count (-1), none)
  | .seek _ offset, some f => (.count 0, some { f with pos := offset.toNat })
  | .size _, none => (.count (-1), none)
  | .size _, some f => (.count f.bytes.length, some f)
  | .cat _, none => (.dump (-1) [], none)
  | .cat _, some f => (.dump 0 (if f.bytes = [] then [] else [(0, f.bytes)]), some f)
  | .rm _, f => (.done f.isSome, none)
  | .copyOut _, none => (.copied none, none)
  | .copyOut _, some f =>
      (.copied (some (cString (f.bytes.drop f.pos ++ [0]))),
        some { f with pos := f.pos + (f.bytes.drop f.pos).length })
  | _, f => (.nothing, f)

def store : Machine Store Command Answer := Machine.cells Command.file StoredFile.step

/-- The program's state is the map `files`. -/
structure Stores (s : FileSys) (files : Store) : Prop where
  sound : ∃ D K dat, Sound D K dat s
  present : ∀ name k, (name, k) ∈ s.entries →
    files name = some ⟨s.bytes k, ((s.position name).getD 0).toNat⟩
  absent : ∀ name, (∀ k, (name, k) ∉ s.entries) → files name = none

section Store

variable {D K : Set Nat} {dat dat' : Nat → Sector} {s s' : FileSys} {files : Store}
  {name : CString} {k : Nat} {f : File} {words : List CString}

/-! ## One file at a time -/

@[simp] theorem StoredFile.step_seek (f : StoredFile) (name : CString) (o : Int) :
    StoredFile.step (.seek name o) (some f) = (.count 0, some { f with pos := o.toNat }) := rfl

@[simp] theorem StoredFile.step_read (f : StoredFile) (name : CString) (n : Int) :
    StoredFile.step (.read name n) (some f) =
      (.text ((f.bytes.drop f.pos).take n.toNat).length ((f.bytes.drop f.pos).take n.toNat),
        some { f with pos := f.pos + ((f.bytes.drop f.pos).take n.toNat).length }) := rfl

/-- A step that leaves the files of other names alone. -/
theorem Stores.update (h : Stores s files) (hsound : ∃ D K dat, Sound D K dat s')
    (hentries : ∀ n k, n ≠ name → ((n, k) ∈ s'.entries ↔ (n, k) ∈ s.entries))
    (hbytes : ∀ n k, n ≠ name → (n, k) ∈ s.entries → s'.bytes k = s.bytes k)
    (hposition : ∀ n, n ≠ name → s'.position n = s.position n) {v : Option StoredFile}
    (hpresent : ∀ k, (name, k) ∈ s'.entries →
      v = some ⟨s'.bytes k, ((s'.position name).getD 0).toNat⟩)
    (habsent : (∀ k, (name, k) ∉ s'.entries) → v = none) :
    Stores s' (Function.update files name v) := by
  refine ⟨hsound, fun n k hk => ?_, fun n hn => ?_⟩
  · by_cases hname : n = name
    · rw [hname] at hk ⊢
      rw [Function.update_self]
      exact hpresent k hk
    · have hk' := (hentries n k hname).1 hk
      rw [Function.update_of_ne hname, h.present n k hk', hbytes n k hname hk', hposition n hname]
  · by_cases hname : n = name
    · rw [hname] at hn ⊢
      rw [Function.update_self]
      exact habsent hn
    · rw [Function.update_of_ne hname]
      exact h.absent n fun k hk => hn k ((hentries n k hname).2 hk)

/-- A step that changes nothing and leaves `name` open at `f`. -/
theorem Stores.used (h : Stores s files) (hs : Session D K dat s 0)
    (hsound : ∃ D K dat, Sound D K dat s') (hk : (name, k) ∈ listing (rootBytes s.content dat))
    (hu : FileUsed D K dat s 0 name f k dat' s') :
    Stores s' (Function.update files name (some ⟨s.bytes k, f.pos.toNat⟩)) := by
  have hentries : s'.entries = s.entries := by
    rw [hu.session.entries, hs.entries, hu.still.rootBytes hs]
  have hbytes : ∀ j, j ∈ K → s'.bytes j = s.bytes j := by
    intro j hj
    rw [hu.session.bytes hj, hs.bytes hj]
    exact (hu.still.sameFile hs.mounted hj).content
  refine h.update hsound (fun n j _ => by rw [hentries])
    (fun n j _ hj => hbytes j (hs.listed hj).1) (fun n hn => ?_) (fun j hj => ?_) fun hno => ?_
  · unfold FileSys.position
    rw [hu.other n hn]
  · rw [hentries, hs.entries] at hj
    obtain rfl : j = k := hs.names.unique hj hk
    rw [hbytes j (hs.names.listed _ _ hk)]
    unfold FileSys.position
    rw [hu.file.get]
    rfl
  · rw [hentries, hs.entries] at hno
    exact absurd hk (hno k)

theorem Stores.eq_none (h : Stores s files) (hs : Session D K dat s 0)
    (habs : ∀ k, (name, k) ∉ listing (rootBytes s.content dat)) : files name = none :=
  h.absent name fun k hk => habs k (hs.entries ▸ hk)

theorem Stores.eq_some (h : Stores s files) (hs : Session D K dat s 0)
    (hk : (name, k) ∈ listing (rootBytes s.content dat)) :
    files name = some ⟨s.bytes k, ((s.position name).getD 0).toNat⟩ :=
  h.present name k (hs.entries ▸ hk)

/-- A step that did not find its file. -/
theorem Stores.noFile (h : Stores s files) (hs : Session D K dat s 0)
    (hsound : ∃ D K dat, Sound D K dat s') (hno : NoFile D K dat s 0 name dat' s') :
    Stores s' (Function.update files name none) := by
  have hentries : s'.entries = s.entries := by
    rw [hno.session.entries, hs.entries, hno.still.rootBytes hs]
  refine h.update hsound (fun n j _ => by rw [hentries]) (fun n j _ hj => ?_) (fun n _ => ?_)
    (fun j hj => ?_) fun _ => rfl
  · rw [hno.session.bytes (hs.listed hj).1, hs.bytes (hs.listed hj).1]
    exact (hno.still.sameFile hs.mounted (hs.listed hj).1).content
  · unfold FileSys.position
    rw [getFileByFname_congr hno.fileTable n]
  · rw [hentries, hs.entries] at hj
    exact absurd hj (hno.absent j)

/-! ## `cat` and `copy_out` -/

theorem length_bytes_lt (hs : Session D K dat s 0)
    (hk : (name, k) ∈ listing (rootBytes s.content dat)) : (s.bytes k).length < 2 ^ 31 := by
  have hok := hs.mounted.vol.file k (hs.names.listed _ _ hk)
  have h₀ := hok.nonneg
  have h₁ := hok.max
  simp only [MAX_LENGTH] at h₁
  rw [hs.bytes (hs.names.listed _ _ hk), length_fileContent]
  omega

/-- The first round of `fsutil_cat` reads the whole file, the second finds its end. -/
theorem catLoop_all (hm : Mounted D K dat s) (hf : Opened dat s f.inode k) (hpos : f.pos = 0)
    {b : List UInt8} (hb : fileContent s.content (dat k) = b) (hlt : b.length < 2 ^ 31) :
    (catLoop b.length (b.length + 1) s f).1.1 = if b = [] then [] else [(0, b)] := by
  obtain ⟨hro, hinode, -, hnext, hread⟩ := fileRead_spec hm hf b.length
  have hfirst := hread 0 hpos
  rw [hb, List.drop_zero, Int.toNat_natCast, List.take_length] at hfirst
  rw [catLoop]
  dsimp only
  rw [hfirst] at hnext
  rw [hfirst, hpos]
  cases hcases : b with
  | nil => rfl
  | cons x xs =>
      rw [← hcases]
      have hlen : b.length = xs.length + 1 := by rw [hcases]; rfl
      rw [if_neg (by omega), if_neg (by rw [hcases]; exact List.cons_ne_nil x xs), hlen, ← hlen,
        catLoop.eq_def]
      have hlast := (fileRead_spec (hro.mounted hm) (k := k)
        (by rw [hinode]; exact hro.opened hf) b.length).2.2.2.2 b.length
        (by rw [hnext, hpos, Int.zero_add, int32_eq (by omega) (by omega)])
      rw [hro.disk.content, hb, List.drop_length, List.take_nil] at hlast
      rw [hlen] at hlast ⊢
      dsimp only
      rw [hlast]
      rfl

theorem fsutilCat_answer (hs : Session D K dat s 0) (hname : PlainName name) :
    ((fsutilCat s name).1 = (-1, []) ∧ ∀ k, (name, k) ∉ s.entries) ∨
      ∃ k, (name, k) ∈ s.entries ∧
        (fsutilCat s name).1 = (0, if s.bytes k = [] then [] else [(0, s.bytes k)]) := by
  have hopen := openFile_spec hs hname
  unfold fsutilCat
  generalize openFile s name = o at hopen
  dsimp only at hopen ⊢
  rw [hs.entries]
  rcases hopen with ⟨hnone, dat', hno⟩ | ⟨f, k, dat', hmem, hsome, hf⟩
  · rw [hnone]
    exact .inl ⟨rfl, hno.absent⟩
  · rw [hsome]
    dsimp only
    have hm := hf.session.mounted
    have hcontent := hf.content hs
    have hlt := length_bytes_lt hs hmem
    rw [hs.bytes (hs.names.listed _ _ hmem)] at hlt
    have hall := catLoop_all (f := fileSeek f 0) hm hf.file.opened rfl hcontent hlt
    refine .inr ⟨k, hmem, ?_⟩
    rw [fileLength_eq hm hf.file.opened, hcontent, Int.toNat_natCast, hall,
      hs.bytes (hs.names.listed _ _ hmem)]

theorem copyOut_answer (hs : Session D K dat s 0) (hname : PlainName name) {o : Nat}
    (hpos : (s.position name).getD 0 = o) (hlt : o < 2 ^ 31) :
    ((copyOut s name).1 = none ∧ ∃ dat', NoFile D K dat s 0 name dat' (copyOut s name).2) ∨
      ∃ f k dat', (name, k) ∈ listing (rootBytes s.content dat) ∧
        (copyOut s name).1 = some (cString ((s.bytes k).drop o ++ [0])) ∧
        f.pos = ((o + ((s.bytes k).drop o).length : Nat) : Int) ∧
        FileUsed D K dat s 0 name f k dat' (copyOut s name).2 := by
  have hsize := fsutilSize_spec hs hname
  unfold copyOut
  generalize fsutilSize s name = z at hsize ⊢
  dsimp only at hsize ⊢
  rcases hsize with ⟨hret, dat', hno⟩ | ⟨g, k, dat', hk, hret, hgpos, hu⟩
  · rcases fsutilRead_spec hno.session hname z.1 with
      ⟨-, dat'', hno'⟩ | ⟨f, k, dat'', hk, -⟩
    · refine .inl ⟨by rw [hret]; rfl, dat'', hno.absent, hno.still.trans hno'.still,
        hno'.session, hno'.fileTable.trans hno.fileTable, hno.handle.trans hno'.handle⟩
    · rw [hno.still.rootBytes hs] at hk
      exact absurd hk (hno.absent k)
  · have hbytes := hs.bytes (hs.names.listed _ _ hk)
    have hread := fsutilRead_spec hu.session hname z.1
    generalize fsutilRead z.2 name z.1 = r at hread ⊢
    rcases hread with ⟨-, dat'', hno⟩ | ⟨f, j, dat'', hj, -, hpos', htext, hused⟩
    · exact absurd (hu.file.listed) (hno.absent k)
    · obtain rfl : j = k := by
        rw [hu.still.rootBytes hs] at hj
        exact hs.names.unique hj hk
      have hat : (z.2.position name).getD 0 = o := by
        unfold FileSys.position
        rw [hu.file.get]
        exact hgpos.trans hpos
      have hdrop := htext o hat
      rw [hu.content hs, ← hbytes, hret, Int.toNat_natCast, ← hbytes,
        List.take_of_length_le (by rw [List.length_drop]; omega)] at hdrop
      have hmax := length_bytes_lt hs hk
      refine .inr ⟨f, j, dat'', hk, ?_, ?_, ?_⟩
      · rw [if_neg (by rw [hret]; omega), hdrop]
      · rw [hpos', hat, hdrop, List.length_drop, int32_eq (by omega) (by omega), Int.natCast_add]
      · exact ⟨hu.still.trans hused.still, hused.session, hused.file, fun n hn =>
          (hused.other n hn).trans (hu.other n hn), hu.handle.trans hused.handle⟩

/-! ## The commands -/

theorem Sound.served {command : Command} (h : Sound D K dat s) (hc : command.Served s) :
    ∃ D K dat, Sound D K dat (s.exec command) := by
  rcases hc.1 with hmodest | ⟨name, rfl, hname⟩
  · obtain ⟨K', dat', h'⟩ := h.exec hmodest hc.2
    exact ⟨D, K', dat', h'⟩
  · -- The size of the file, and then as many bytes.
    obtain ⟨dat₁, hsize⟩ := fsutilSize_quiet h.session hname
    obtain ⟨K₁, dat₁, h₁⟩ := @Sound.exec D K dat s (.size name) h hname
      hsize.still.disk.allocFailures
    obtain ⟨dat₂, hread⟩ := fsutilRead_quiet h₁.session hname (fsutilSize s name).1
    obtain ⟨K₂, dat₂, h₂⟩ := @Sound.exec D K₁ dat₁ _ (.read name (fsutilSize s name).1) h₁ hname
      hread.still.disk.allocFailures
    exact ⟨D, K₂, dat₂, h₂⟩

theorem Sound.create_done {size : Int} (h : Sound D K dat s)
    (hc : (Command.create name size).Modest s)
    (hfail : (fsutilCreate s name size).2.allocFailures = s.allocFailures) :
    (fsutilCreate s name size).1 = true := by
  obtain ⟨k, dat', hmade, h'⟩ := h.create hc hfail
  obtain ⟨dat'', -, -, hcase⟩ := fsutilCreate_spec h.session hc.1 size
  rcases hcase with ⟨hdone, -⟩ | ⟨-, hrefused, hs', -⟩
  · exact hdone
  · -- The new name is not in the directory of a create that is refused.
    have hmem : (name, k) ∈ (fsutilCreate s name size).2.entries := by
      rw [h'.session.entries, hmade.listing.mem_iff]
      exact List.mem_cons_self
    rw [hs'.entries, hrefused.root] at hmem
    exact absurd hmem (hmade.absent k)

theorem Stores.create {size : Int} (h : Stores s files)
    (hc : (Command.create name size).Served s) :
    (fsutilCreate s name size).1 = true ∧ files name = none ∧
      Stores (fsutilCreate s name size).2
        (Function.update files name (some ⟨List.replicate (int32 size).toNat 0, 0⟩)) := by
  obtain ⟨D, K, dat, hsnd⟩ := h.sound
  have hs := hsnd.session
  rcases hc.1 with hmodest | ⟨n, hn, -⟩
  · obtain ⟨k, dat', hmade, hsnd'⟩ := hsnd.create hmodest hc.2
    have hentries : ∀ e, e ∈ (fsutilCreate s name size).2.entries ↔
        e = (name, k) ∨ e ∈ s.entries := by
      intro e
      rw [hsnd'.session.entries, hmade.listing.mem_iff, List.mem_cons, hs.entries]
    have habs : ∀ j, (name, j) ∉ s.entries := hmodest.2.1
    obtain ⟨-, htable, -⟩ := fsutilCreate_spec hs hmodest.1 size
    have hat : ∀ n, (fsutilCreate s name size).2.position n = s.position n := fun n =>
      congrArg (Option.map File.pos) (getFileByFname_congr htable n)
    have hnew : s.position name = none := by
      unfold FileSys.position
      cases hget : getFileByFname s name with
      | none => rfl
      | some f =>
          obtain ⟨-, j, hj, -⟩ := hs.listed_of_get hget
          exact absurd hj (hmade.absent j)
    refine ⟨hsnd.create_done hmodest hc.2, h.absent name habs, h.update ⟨D, _, dat', hsnd'⟩
      (fun n j hn => ?_) (fun n j hn hj => ?_) (fun n _ => hat n) (fun j hj => ?_) fun hno => ?_⟩
    · rw [hentries]
      exact or_iff_right fun heq => hn (congrArg Prod.fst heq)
    · obtain ⟨hjK, hj₀, hj₁⟩ := hs.listed hj
      rw [hsnd'.session.bytes (.inr hjK), hs.bytes hjK, (hmade.same j hjK hj₀ hj₁).content]
    · rcases (hentries _).1 hj with heq | hj
      · injection heq with _ hjk
        rw [hjk, hsnd'.session.bytes (.inl rfl), hmade.content, hat, hnew]
        rfl
      · exact absurd hj (habs j)
    · exact absurd ((hentries (name, k)).2 (.inl rfl)) (hno k)
  · cases hn

theorem Stores.write (h : Stores s files) (hwords : words ≠ [])
    (hc : (Command.write name words).Served s) :
    let r := fsutilWrite s name (writeBuffer words)
    let v := StoredFile.step (.write name words) (files name)
    .count r.1 = v.1 ∧ Stores r.2 (Function.update files name v.2) := by
  obtain ⟨D, K, dat, hsnd⟩ := h.sound
  have hs := hsnd.session
  obtain ⟨D', K', dat₁, hsnd'⟩ := hsnd.served hc
  obtain ⟨hmodest, hfail⟩ := hc
  rw [exec_write hwords] at hfail hsnd'
  have hlen := length_writeBuffer words
  rcases hmodest with ⟨hname, hmax⟩ | ⟨n, hn, -⟩
  · by_cases hfile : ∃ k, (name, k) ∈ s.entries
    · obtain ⟨k, hk⟩ := hfile
      obtain ⟨hkK, hk₀, -⟩ := hs.listed hk
      obtain ⟨hpos, -⟩ := hsnd.position name
      obtain ⟨o, ho⟩ := Int.eq_ofNat_of_zero_le hpos
      have hlimit := hmax hwords ⟨k, hk⟩
      rw [ho] at hlimit
      have hsmall := hlimit
      simp only [MAX_LENGTH] at hsmall
      have hbuf : (writeBuffer words).length = (joinWords words).length + 2 := List.length_append
      rw [h.present name k hk, ho]
      have hspec := @fsutilWrite_at D K dat s 0 k o name (writeBuffer words) hs hname
        (by rw [← hs.entries]; exact hk) (by omega) ho (by omega) (.inr (hsnd.tidy k hkK hk₀))
      generalize fsutilWrite s name (writeBuffer words) = r at hspec hfail hsnd' ⊢
      dsimp only at hspec ⊢
      obtain ⟨dat', hframe, hcase⟩ := hspec
      have hs' := hframe.session
      have hentries : r.2.entries = s.entries := by rw [hs'.entries, hs.entries, hframe.root]
      rcases hcase with ⟨hret, hdone⟩ | ⟨-, hun⟩
      · unfold StoredFile.step
        dsimp only
        rw [if_neg hwords, hret, hbuf]
        refine ⟨rfl, h.update ⟨D', K', dat₁, hsnd'⟩ (fun n j _ => by rw [hentries])
          (fun n j hn hj => ?_) (fun n hn => hframe.position n hn) (fun j hj => ?_) fun hno => ?_⟩
        · obtain ⟨hjK, hj₀, -⟩ := hs.listed hj
          have hjk : j ≠ k := fun heq => by
            rw [hs.entries] at hj hk
            rw [heq] at hj
            exact hn (hs.names.sector_inj hj hk)
          rw [hs'.bytes hjK, hs.bytes hjK, (hframe.same j hjK hjk hj₀).content]
        · obtain rfl : j = k := by
            rw [hentries] at hj
            rw [hs.entries] at hj hk
            exact hs.names.unique hj hk
          rw [hs'.bytes hkK, hdone.content, set_writeBuffer, ← hs.bytes hkK, hdone.position, hbuf,
            int32_eq (by omega) (by omega), Option.getD_some]
          have hend : ((o : Int) + (((joinWords words).length + 2 : Nat) - 2)).toNat =
              o + (joinWords words).length := by omega
          rw [hend]
          rfl
        · exact absurd hk (by rw [← hentries]; exact hno k)
      · have := hun.failed (by exact_mod_cast hlimit)
        omega
    · have habs : ∀ k, (name, k) ∉ s.entries := fun k hk => hfile ⟨k, hk⟩
      rw [h.absent name habs]
      rcases fsutilWrite_spec (b := writeBuffer words) hs hname (by omega) with
        ⟨hret, dat', hno⟩ | ⟨f, k, dat₁, s₁, d', s₂, hk, -⟩
      · unfold StoredFile.step
        dsimp only
        rw [if_neg hwords, hret]
        exact ⟨rfl, h.noFile hs ⟨D', K', _, hsnd'⟩ hno⟩
      · rw [← hs.entries] at hk
        exact absurd hk (habs k)
  · cases hn

theorem Stores.rm (h : Stores s files) (hc : (Command.rm name).Served s) :
    (fsutilRm s name).1 = (files name).isSome ∧
      Stores (fsutilRm s name).2 (Function.update files name none) := by
  obtain ⟨D, K, dat, hsnd⟩ := h.sound
  have hs := hsnd.session
  have hsnd' := hsnd.served hc
  rw [show s.exec (.rm name) = (fsutilRm s name).2 from rfl] at hsnd'
  rcases hc.1 with hname | ⟨n, hn, -⟩
  · have hspec := fsutilRm_spec hs hname
    generalize fsutilRm s name = r at hspec hsnd' ⊢
    rcases hspec with ⟨hret, dat', hno⟩ | ⟨k, dat', hk, hret, hr⟩
    · rw [hret, h.eq_none hs hno.absent]
      exact ⟨rfl, h.noFile hs hsnd' hno⟩
    · rw [hret, h.eq_some hs hk]
      have hentries : ∀ e, e ∈ s.entries ↔ e = (name, k) ∨ e ∈ r.2.entries := by
        intro e
        rw [hr.session.entries, hs.entries, hr.listing.mem_iff, List.mem_cons]
      have hgone : ∀ j, (name, j) ∉ r.2.entries := by
        intro j hj
        have hkeyed := hs.names.keyed.perm hr.listing.symm
        rw [hr.session.entries] at hj
        exact (SlotTable.keyed_cons.1 hkeyed).1 j hj
      refine ⟨rfl, h.update hsnd' (fun n j hn => ?_) (fun n j hn hj => ?_) (fun n hn => ?_)
        (fun j hj => absurd hj (hgone j)) fun _ => rfl⟩
      · rw [hentries]
        exact (or_iff_right fun heq => hn (congrArg Prod.fst heq)).symm
      · obtain ⟨hjK, hj₀, hj₁⟩ := hs.listed hj
        have hjk : j ≠ k := fun heq => by
          rw [hs.entries, heq] at hj
          exact hn (hs.names.sector_inj hj hk)
        rw [hr.session.bytes ⟨hjK, hjk⟩, hs.bytes hjK, (hr.same j hjK hjk hj₀ hj₁).content]
      · unfold FileSys.position
        rw [hr.other n hn]
  · cases hn

theorem Stores.cat (h : Stores s files) (hname : PlainName name) :
    Stores (fsutilCat s name).2 (Function.update files name (files name)) := by
  obtain ⟨D, K, dat, hsnd⟩ := h.sound
  have hs := hsnd.session
  obtain ⟨dat', hstill, hs', hget⟩ := fsutilCat_spec hs hname
  obtain ⟨K', dat₁, hsnd'⟩ := @Sound.exec D K dat s (.cat name) hsnd hname hstill.disk.allocFailures
  have hentries : (fsutilCat s name).2.entries = s.entries := by
    rw [hs'.entries, hs.entries, hstill.rootBytes hs]
  have hbytes : ∀ n k, (n, k) ∈ s.entries → (fsutilCat s name).2.bytes k = s.bytes k := by
    intro n k hk
    rw [hs'.bytes (hs.listed hk).1, hs.bytes (hs.listed hk).1]
    exact (hstill.sameFile hs.mounted (hs.listed hk).1).content
  have hat : ∀ n, (fsutilCat s name).2.position n = s.position n := fun n =>
    congrArg (Option.map File.pos) (hget n)
  rw [show s.exec (.cat name) = (fsutilCat s name).2 from rfl] at hsnd'
  refine h.update ⟨D, K', dat₁, hsnd'⟩ (fun n k _ => by rw [hentries]) (fun n k _ => hbytes n k)
    (fun n _ => hat n) (fun k hk => ?_) fun hno => ?_
  · rw [hentries] at hk
    rw [h.present name k hk, hbytes name k hk, hat]
  · exact h.absent name fun k hk => hno k (by rw [hentries]; exact hk)

/-! ## The run -/

/-- One command: the program answers as the map and stays the map. -/
theorem fileSystem_simulates :
    fileSystem.Simulates store (fun s command => command.Served s) Stores := by
  intro s files command h hc
  obtain ⟨D, K, dat, hsnd⟩ := h.sound
  have hs := hsnd.session
  have hsnd' := hsnd.served hc
  show s.answer command = (StoredFile.step command (files command.file)).1 ∧
    Stores (s.exec command) (Function.update files command.file
      (StoredFile.step command (files command.file)).2)
  cases command with
  | create name size =>
      obtain ⟨hret, hnone, hstores⟩ := h.create hc
      rw [show (Command.create name size).file = name from rfl, hnone]
      exact ⟨congrArg Answer.done hret, hstores⟩
  | write name words =>
      by_cases hwords : words = []
      · have hstep : StoredFile.step (.write name words) (files name) = (.nothing, files name) := by
          cases files name with
          | none => exact Prod.ext (if_pos hwords) rfl
          | some f => exact if_pos hwords
        rw [show (Command.write name words).file = name from rfl, hstep,
          Function.update_eq_self]
        rw [FileSys.exec, if_pos hwords]
        exact ⟨if_pos hwords, h⟩
      · obtain ⟨hret, hstores⟩ := h.write hwords hc
        rw [exec_write hwords]
        exact ⟨(if_neg hwords).trans hret, hstores⟩
  | read name size =>
      rcases hc.1 with hname | ⟨n, hn, -⟩
      · have hpos := hsnd.position name
        obtain ⟨o, ho⟩ := Int.eq_ofNat_of_zero_le hpos.1
        rw [show (Command.read name size).file = name from rfl]
        rw [show s.exec (.read name size) = (fsutilRead s name size).2 from rfl] at hsnd' ⊢
        have hspec := fsutilRead_spec hs hname size
        unfold FileSys.answer
        dsimp only
        generalize fsutilRead s name size = r at hspec hsnd' ⊢
        rcases hspec with ⟨hret, dat', hno⟩ | ⟨f, k, dat', hk, hret, hfpos, hbytes, hu⟩
        · rw [h.eq_none hs hno.absent, hret]
          exact ⟨rfl, h.noFile hs hsnd' hno⟩
        · have hstores := h.used hs hsnd' hk hu
          have hlt := length_bytes_lt hs hk
          rw [h.eq_some hs hk, ho]
          rw [hbytes o ho, ← hs.bytes (hs.names.listed _ _ hk)] at hret hfpos
          rw [hret, hbytes o ho, ← hs.bytes (hs.names.listed _ _ hk)]
          refine ⟨rfl, ?_⟩
          have hend : f.pos.toNat = o + (((s.bytes k).drop o).take size.toNat).length := by
            rw [hfpos, ho]
            rw [ho] at hpos
            have hle := List.length_take_le' size.toNat ((s.bytes k).drop o)
            rw [List.length_drop] at hle
            rw [int32_eq (by omega) (by omega)]
            omega
          rw [hend] at hstores
          exact hstores
      · cases hn
  | seek name offset =>
      rcases hc.1 with ⟨hname, hoffset⟩ | ⟨n, hn, -⟩
      · rw [show (Command.seek name offset).file = name from rfl]
        rw [show s.exec (.seek name offset) = (fsutilSeek s name offset).2 from rfl] at hsnd' ⊢
        have hspec := fsutilSeek_spec hs hname offset
        unfold FileSys.answer
        dsimp only
        generalize fsutilSeek s name offset = r at hspec hsnd' ⊢
        rcases hspec with ⟨hret, dat', hno⟩ | ⟨f, k, dat', hk, hret, hfpos, hu⟩
        · rw [h.eq_none hs hno.absent, hret]
          exact ⟨rfl, h.noFile hs hsnd' hno⟩
        · have hstores := h.used hs hsnd' hk hu
          rw [h.eq_some hs hk, hret]
          rw [hfpos] at hstores
          exact ⟨rfl, hstores⟩
      · cases hn
  | size name =>
      rcases hc.1 with hname | ⟨n, hn, -⟩
      · rw [show (Command.size name).file = name from rfl]
        rw [show s.exec (.size name) = (fsutilSize s name).2 from rfl] at hsnd' ⊢
        have hspec := fsutilSize_spec hs hname
        unfold FileSys.answer
        dsimp only
        generalize fsutilSize s name = r at hspec hsnd' ⊢
        rcases hspec with ⟨hret, dat', hno⟩ | ⟨f, k, dat', hk, hret, hfpos, hu⟩
        · rw [h.eq_none hs hno.absent, hret]
          exact ⟨rfl, h.noFile hs hsnd' hno⟩
        · have hstores := h.used hs hsnd' hk hu
          rw [h.eq_some hs hk, hret, ← hs.bytes (hs.names.listed _ _ hk)]
          rw [hfpos] at hstores
          exact ⟨rfl, hstores⟩
      · cases hn
  | cat name =>
      rcases hc.1 with hname | ⟨n, hn, -⟩
      · rw [show (Command.cat name).file = name from rfl]
        have hstores := h.cat hname
        rcases fsutilCat_answer hs hname with ⟨hret, habs⟩ | ⟨k, hk, hret⟩
        · rw [h.absent name habs] at hstores ⊢
          unfold FileSys.answer
          dsimp only
          rw [hret]
          exact ⟨rfl, hstores⟩
        · rw [h.present name k hk] at hstores ⊢
          unfold FileSys.answer
          dsimp only
          rw [hret]
          exact ⟨rfl, hstores⟩
      · cases hn
  | rm name =>
      obtain ⟨hret, hstores⟩ := h.rm hc
      exact ⟨congrArg Answer.done hret, hstores⟩
  | copyOut name =>
      rcases hc.1 with hname | ⟨n, hn, hname⟩
      · exact absurd hname id
      · obtain rfl : name = n := by
          injection hn
        have hpos := hsnd.position name
        obtain ⟨o, ho⟩ := Int.eq_ofNat_of_zero_le hpos.1
        rw [show (Command.copyOut name).file = name from rfl]
        rw [show s.exec (.copyOut name) = (copyOut s name).2 from rfl] at hsnd' ⊢
        have hspec := copyOut_answer hs hname ho (by omega)
        unfold FileSys.answer
        dsimp only
        generalize copyOut s name = r at hspec hsnd' ⊢
        rcases hspec with ⟨hret, dat', hno⟩ | ⟨f, k, dat', hk, hret, hfpos, hu⟩
        · rw [h.eq_none hs hno.absent, hret]
          exact ⟨rfl, h.noFile hs hsnd' hno⟩
        · have hstores := h.used hs hsnd' hk hu
          rw [h.eq_some hs hk, ho, hret]
          rw [hfpos, Int.toNat_natCast] at hstores
          exact ⟨rfl, hstores⟩
  | _ =>
      rcases hc.1 with hno | ⟨n, hn, -⟩
      · exact absurd hno id
      · cases hn

theorem Stores.format {c : CacheState} {stray : Int → UInt8}
    (h : filesysInit true c stray = (true, s)) : Stores s fun _ => none := by
  obtain ⟨D, dat, hf⟩ := filesysInit_format h
  refine ⟨⟨D, _, dat, hf.sound⟩, fun name k hk => ?_, fun _ _ => rfl⟩
  rw [hf.session.entries, hf.empty] at hk
  exact absurd hk List.not_mem_nil

/-- Every run in which no sector is missing is answered as the map answers it. -/
theorem fileSystem_stores {c : CacheState} {stray : Int → UInt8} {commands : List Command}
    (h : filesysInit true c stray = (true, s))
    (hok : fileSystem.Allowed (fun s command => command.Served s) s commands) :
    (fileSystem.run s commands).1 = (store.run (fun _ => none) commands).1 ∧
      Stores (fileSystem.run s commands).2 (store.run (fun _ => none) commands).2 :=
  fileSystem_simulates.run (.format h) hok

/-! ## Runs that are served -/

theorem served_seek (hname : PlainName name) {o : Int} (h₀ : 0 ≤ o) (h₁ : o < 2 ^ 31)
    (hsnd : ∃ D K dat, Sound D K dat s) : Command.Served s (.seek name o) := by
  obtain ⟨D, K, dat, hsnd⟩ := hsnd
  obtain ⟨dat', hq⟩ := fsutilSeek_quiet hsnd.session hname o
  exact ⟨.inl ⟨hname, h₀, h₁⟩, hq.still.disk.allocFailures⟩

theorem served_size (hname : PlainName name) (hsnd : ∃ D K dat, Sound D K dat s) :
    Command.Served s (.size name) := by
  obtain ⟨D, K, dat, hsnd⟩ := hsnd
  obtain ⟨dat', hq⟩ := fsutilSize_quiet hsnd.session hname
  exact ⟨.inl hname, hq.still.disk.allocFailures⟩

theorem served_read (hname : PlainName name) (n : Int) (hsnd : ∃ D K dat, Sound D K dat s) :
    Command.Served s (.read name n) := by
  obtain ⟨D, K, dat, hsnd⟩ := hsnd
  obtain ⟨dat', hq⟩ := fsutilRead_quiet hsnd.session hname n
  exact ⟨.inl hname, hq.still.disk.allocFailures⟩

theorem served_rm (hname : PlainName name) (hsnd : ∃ D K dat, Sound D K dat s) :
    Command.Served s (.rm name) := by
  obtain ⟨D, K, dat, hsnd⟩ := hsnd
  refine ⟨.inl hname, ?_⟩
  rcases fsutilRm_spec hsnd.session hname with ⟨-, dat', hno⟩ | ⟨j, dat', -, -, hr⟩
  · exact hno.still.disk.allocFailures
  · exact hr.allocFailures

/-- A write that ends inside its file. -/
theorem served_write (hname : PlainName name) (h : Stores s files) {f : StoredFile}
    (hfile : files name = some f) (hwords : words ≠ [])
    (hin : f.pos + (writeBuffer words).length ≤ f.bytes.length)
    (hmax : f.pos + (writeBuffer words).length ≤ 512) : Command.Served s (.write name words) := by
  obtain ⟨D, K, dat, hsnd⟩ := h.sound
  have hs := hsnd.session
  have hlen := length_writeBuffer words
  by_cases hk : ∃ k, (name, k) ∈ s.entries
  · obtain ⟨k, hk⟩ := hk
    obtain ⟨hkK, hk₀, -⟩ := hs.listed hk
    have hv := Option.some.inj ((h.present name k hk).symm.trans hfile)
    have hbytes : s.bytes k = f.bytes := congrArg StoredFile.bytes hv
    have hpos : ((s.position name).getD 0).toNat = f.pos := congrArg StoredFile.pos hv
    have hat : (s.position name).getD 0 = f.pos := by
      have := (hsnd.position name).1
      omega
    have hspec := @fsutilWrite_at D K dat s 0 k f.pos name (writeBuffer words) hs hname
      (by rw [← hs.entries]; exact hk) (by omega) hat (by omega) (.inr (hsnd.tidy k hkK hk₀))
    refine ⟨.inl ⟨hname, fun _ _ => by rw [hat, MAX_LENGTH]; omega⟩, ?_⟩
    rw [exec_write hwords]
    obtain ⟨dat', -, ⟨-, hdone⟩ | ⟨-, hun⟩⟩ := hspec
    · exact hdone.allocFailures
    · have hpast := hun.past
      rw [← hs.bytes hkK, hbytes] at hpast
      omega
  · rw [h.absent name fun k hno => hk ⟨k, hno⟩] at hfile
    cases hfile

theorem plainName_b : PlainName [98] :=
  ⟨by decide, by decide, by decide, by decide, by decide, by decide⟩

theorem served_create_size : ∃ s, filesysInit true (blankDisk 200) (fun _ => 0) = (true, s) ∧
    fileSystem.Allowed (fun s command => command.Served s) s
      [.create [97] (3 : Nat), .size [97]] ∧
    fileSystem.Allowed (fun s command => command.Served s) s
      [.create [97] (3 : Nat), .size [97], .rm [98]] := by
  obtain ⟨s, hinit, -, -, -, habs, hcreate⟩ := blankDisk_create 3 (by decide) (by decide)
  obtain ⟨D, dat, hf⟩ := filesysInit_format hinit
  have hs := hf.session
  obtain ⟨dat₁, -, -, hcase⟩ := fsutilCreate_spec hs plainName_a (3 : Nat)
  rcases hcase with ⟨-, k, hmade, -⟩ | ⟨hfalse, -⟩
  · have hint : int32 ((3 : Nat) : Int) = 3 := int32_eq (by decide) (by decide)
    have hcreated : Command.Served s (.create [97] (3 : Nat)) := by
      refine ⟨.inl ⟨plainName_a, habs, by rw [hint]; decide, by rw [hint]; decide,
        fun hfull => ?_⟩, hmade.allocFailures⟩
      rw [hs.bytes hs.root_mem] at hfull
      exact absurd hfull hf.slack
    obtain ⟨-, h₁⟩ := fileSystem_simulates s _ _ (.format hinit) hcreated
    have hsize := served_size plainName_a h₁.sound
    obtain ⟨-, h₂⟩ := fileSystem_simulates _ _ _ h₁ hsize
    exact ⟨s, hinit, ⟨hcreated, hsize, trivial⟩, hcreated, hsize,
      served_rm plainName_b h₂.sound, trivial⟩
  · rw [hcreate] at hfalse
    cases hfalse

/-- A file of three bytes is made and its size is asked for. -/
theorem fileSystem_stores_size : ∃ s, (fileSystem.run s [.create [97] (3 : Nat), .size [97]]).1 =
    [.done true, .count 3] := by
  obtain ⟨s, hinit, hok⟩ := served_create_size
  exact ⟨s, (fileSystem_stores hinit hok.1).1.trans rfl⟩

/-- A write at `o` and a read at `o'`, with any commands on other files between: the bytes that
are read are those of the file before, with the text and two NULs put over them. -/
theorem fileSystem_read_written {c : CacheState} {stray : Int → UInt8}
    {before between : List Command} {o o' n : Int} (h : filesysInit true c stray = (true, s)) (hwords : words ≠ [])
    (hbetween : ∀ command ∈ between, command.file ≠ name)
    (hok : fileSystem.Allowed (fun s command => command.Served s) s
      (before ++ ([.seek name o, .write name words] ++
        (between ++ [.seek name o', .read name n]))))
    (hk : (name, k) ∈ (fileSystem.run s before).2.entries) :
    let bytes := ((overwrite 0 ((fileSystem.run s before).2.bytes k) o.toNat
      (joinWords words ++ [0, 0])).drop o'.toNat).take n.toNat
    (fileSystem.run s (before ++ ([.seek name o, .write name words] ++
      (between ++ [.seek name o', .read name n])))).1.getLast? =
        some (.text bytes.length bytes) := by
  obtain ⟨hok₁, hok₂⟩ := Machine.allowed_append.1 hok
  obtain ⟨-, hstores⟩ := fileSystem_simulates.run (.format h) hok₁
  have hfile := hstores.present name k hk
  obtain ⟨hanswers, -⟩ := fileSystem_simulates.run hstores hok₂
  generalize (store.run (fun _ => none) before).2 = files at hfile hanswers
  have hseek : ∀ (file : Store) (a b : Command), a.file = name → b.file = name →
      (store.run file [a, b]).1 = ((Machine.one StoredFile.step).run (file name) [a, b]).1 ∧
      (store.run file [a, b]).2 name = ((Machine.one StoredFile.step).run (file name) [a, b]).2 :=
    fun file a b ha hb => Machine.cells_run_own (by simp [ha, hb])
  obtain ⟨-, hwritten⟩ := hseek files (.seek name o) (.write name words) rfl rfl
  rw [hfile] at hwritten
  have hwrite : StoredFile.step (.write name words)
      (some ⟨(fileSystem.run s before).2.bytes k, o.toNat⟩) =
        (.count ((joinWords words).length + 2),
          some ⟨overwrite 0 ((fileSystem.run s before).2.bytes k) o.toNat
            (joinWords words ++ [0, 0]), o.toNat + (joinWords words).length⟩) := if_neg hwords
  -- The commands between find the file written, and leave it so.
  have hstill : (store.run (store.run files [.seek name o, .write name words]).2 between).2 name =
      some ⟨overwrite 0 ((fileSystem.run s before).2.bytes k) o.toNat (joinWords words ++ [0, 0]),
        o.toNat + (joinWords words).length⟩ :=
    (Machine.cells_run_other hbetween).trans (hwritten.trans (congrArg Prod.snd hwrite))
  obtain ⟨hread, -⟩ := hseek
    (store.run (store.run files [.seek name o, .write name words]).2 between).2
    (.seek name o') (.read name n) rfl rfl
  rw [hstill] at hread
  dsimp only
  rw [Machine.run_append, hanswers, Machine.run_append, Machine.run_append, hread]
  rw [List.getLast?_append_of_ne_nil _ (by simp), List.getLast?_append_of_ne_nil _ (by simp),
    List.getLast?_append_of_ne_nil _ (by simp), Machine.run_cons, Machine.run_cons,
    Machine.run_nil, List.getLast?_cons_cons, List.getLast?_singleton]
  show some (StoredFile.step (.read name n) (StoredFile.step (.seek name o') _).2).1 = _
  rw [StoredFile.step_seek, StoredFile.step_read]

theorem served_write_read : ∃ s k, filesysInit true (blankDisk 200) (fun _ => 0) = (true, s) ∧
    fileSystem.Allowed (fun s command => command.Served s) s
      ([.create [97] (3 : Nat)] ++ ([.seek [97] 0, .write [97] [[120]]] ++
        ([.rm [98]] ++ [.seek [97] 0, .read [97] 1]))) ∧
    ([97], k) ∈ (fileSystem.run s [.create [97] (3 : Nat)]).2.entries ∧
    (fileSystem.run s [.create [97] (3 : Nat)]).2.bytes k = [0, 0, 0] := by
  obtain ⟨s, hinit, ⟨hcreated, -⟩, -⟩ := served_create_size
  have hstep := fun s files command h hc => fileSystem_simulates s files command h hc
  obtain ⟨-, h₁⟩ := hstep s _ _ (.format hinit) hcreated
  have hseek := served_seek (o := 0) plainName_a (by decide) (by decide) h₁.sound
  obtain ⟨-, h₂⟩ := hstep _ _ _ h₁ hseek
  have hint : List.replicate (int32 ((3 : Nat) : Int)).toNat (0 : UInt8) = [0, 0, 0] := by
    rw [int32_eq (by decide) (by decide)]
    rfl
  have hself : ∀ files command,
      (store.step files command).2 command.file = (StoredFile.step command (files command.file)).2 :=
    fun _ _ => Function.update_self ..
  have hcreate : (store.step (fun _ => none) (.create [97] (3 : Nat))).2 [97] =
      some ⟨[0, 0, 0], 0⟩ := by
    refine (hself (fun _ => none) (.create [97] (3 : Nat))).trans ?_
    rw [← hint]
    rfl
  have hplace : (store.step (store.step (fun _ => none) (.create [97] (3 : Nat))).2
      (.seek [97] 0)).2 [97] = some ⟨[0, 0, 0], 0⟩ := by
    refine (hself _ (.seek [97] 0)).trans ?_
    rw [show (Command.seek [97] 0).file = [97] from rfl, hcreate]
    rfl
  have hwrite : Command.Served _ (.write [97] [[120]]) :=
    served_write plainName_a h₂ hplace (List.cons_ne_nil _ _) (by decide) (by decide)
  obtain ⟨-, h₃⟩ := hstep _ _ _ h₂ hwrite
  have hrm := served_rm plainName_b h₃.sound
  obtain ⟨-, h₄⟩ := hstep _ _ _ h₃ hrm
  have hagain := served_seek (o := 0) plainName_a (by decide) (by decide) h₄.sound
  obtain ⟨-, h₅⟩ := hstep _ _ _ h₄ hagain
  have hread := served_read plainName_a 1 h₅.sound
  by_cases hk : ∃ k, ([97], k) ∈ (fileSystem.step s (.create [97] (3 : Nat))).2.entries
  · obtain ⟨k, hk⟩ := hk
    have hv := Option.some.inj ((h₁.present _ k hk).symm.trans hcreate)
    refine ⟨s, k, hinit, ⟨hcreated, hseek, hwrite, hrm, hagain, hread, trivial⟩, ?_, ?_⟩
    · rw [Machine.run_cons, Machine.run_nil]
      exact hk
    · rw [Machine.run_cons, Machine.run_nil]
      injection hv
  · rw [h₁.absent _ fun k hno => hk ⟨k, hno⟩] at hcreate
    cases hcreate

theorem fileSystem_read_written_letter : ∃ s, (fileSystem.run s
    ([.create [97] (3 : Nat)] ++ ([.seek [97] 0, .write [97] [[120]]] ++
      ([.rm [98]] ++ [.seek [97] 0, .read [97] 1])))).1.getLast? = some (.text 1 [120]) := by
  obtain ⟨s, k, hinit, hok, hk, hbytes⟩ := served_write_read
  have hread := fileSystem_read_written hinit (List.cons_ne_nil _ _) (by simp [Command.file]) hok hk
  rw [hbytes] at hread
  exact ⟨s, hread.trans rfl⟩

/-! ## Each file by itself -/

/-- What the commands on a file are answered, and what becomes of it, depends on these commands
alone: on two disks, in whatever company they are given. -/
theorem fileSystem_isolated {c₁ c₂ : CacheState} {stray₁ stray₂ : Int → UInt8}
    {s₁ s₂ : FileSys} {commands₁ commands₂ : List Command}
    (h₁ : filesysInit true c₁ stray₁ = (true, s₁)) (h₂ : filesysInit true c₂ stray₂ = (true, s₂))
    (hok₁ : fileSystem.Allowed (fun s command => command.Served s) s₁ commands₁)
    (hok₂ : fileSystem.Allowed (fun s command => command.Served s) s₂ commands₂)
    (hsame : (commands₁.filter fun command => command.file = name) =
      commands₂.filter fun command => command.file = name) :
    Machine.answersAt Command.file name commands₁ (fileSystem.run s₁ commands₁).1 =
        Machine.answersAt Command.file name commands₂ (fileSystem.run s₂ commands₂).1 ∧
      ∀ k₁, (name, k₁) ∈ (fileSystem.run s₁ commands₁).2.entries →
        ∃ k₂, (name, k₂) ∈ (fileSystem.run s₂ commands₂).2.entries ∧
          (fileSystem.run s₂ commands₂).2.bytes k₂ = (fileSystem.run s₁ commands₁).2.bytes k₁ := by
  obtain ⟨hanswers₁, hstores₁⟩ := fileSystem_simulates.run (.format h₁) hok₁
  obtain ⟨hanswers₂, hstores₂⟩ := fileSystem_simulates.run (.format h₂) hok₂
  obtain ⟨hanswers, hfile⟩ := @Machine.cells_isolated _ _ _ _ commands₁ commands₂ _ Command.file
    StoredFile.step (fun _ => none) (fun _ => none) name rfl hsame
  refine ⟨by rw [hanswers₁, hanswers₂]; exact hanswers, fun k₁ hk₁ => ?_⟩
  have hpresent := hstores₁.present name k₁ hk₁
  by_cases hfile₂ : ∃ k₂, (name, k₂) ∈ (fileSystem.run s₂ commands₂).2.entries
  · obtain ⟨k₂, hk₂⟩ := hfile₂
    have hboth := (hstores₂.present name k₂ hk₂).symm.trans (hfile.symm.trans hpresent)
    exact ⟨k₂, hk₂, congrArg StoredFile.bytes (Option.some.inj hboth)⟩
  · have hnone := hstores₂.absent name fun k₂ hk₂ => hfile₂ ⟨k₂, hk₂⟩
    have hboth := hnone.symm.trans (hfile.symm.trans hpresent)
    cases hboth

/-- The removal of another file is not seen. -/
theorem fileSystem_isolated_size : ∃ s, filesysInit true (blankDisk 200) (fun _ => 0) = (true, s) ∧
    Machine.answersAt Command.file [97] [.create [97] (3 : Nat), .size [97]]
        (fileSystem.run s [.create [97] (3 : Nat), .size [97]]).1 =
      Machine.answersAt Command.file [97] [.create [97] (3 : Nat), .size [97], .rm [98]]
        (fileSystem.run s [.create [97] (3 : Nat), .size [97], .rm [98]]).1 := by
  obtain ⟨s, hinit, hok, hok'⟩ := served_create_size
  exact ⟨s, hinit, (fileSystem_isolated hinit hinit hok hok' rfl).1⟩

end Store

end SimpleShell.Fs
