import SimpleShell.Fs.Relist
import SimpleShell.Fs.Smooth
import SimpleShell.Fs.WriteAt

/-!
# Writes one after the other

A `write` leaves the file two bytes short of the end of what it wrote, which is where its text
ends: the next one puts its text there, over the two NULs. As long as nothing moves the file
in between, its bytes are all the texts in a row, and NULs from there on.
-/

namespace SimpleShell.Fs

open SimpleShell.Lib

/-- The words of a `write`, with a space between each two. -/
def joinWords (words : List CString) : CString := [32].intercalate words

/-- What a command writes to `name`. -/
def textFor (name : CString) : Command → CString
  | .write n words => if n = name then joinWords words else []
  | _ => []

/-- All that was written to `name`, in order. -/
def written (name : CString) (commands : List Command) : CString := commands.flatMap (textFor name)

/-- The runs: files are created, written, sized and listed and nothing else, every sector that
is asked for is found, and no file is written past what an inode can hold. -/
inductive Appending : FileSys → List Command → Prop where
  | format {c : CacheState} {stray : Int → UInt8} {s : FileSys} :
      filesysInit true c stray = (true, s) → Appending s []
  | create {s : FileSys} {commands : List Command} {name : CString} {size : Int}
      (h : Appending s commands) (hname : PlainName name)
      (hdone : (fsutilCreate s name size).1 = true) :
      Appending (s.exec (.create name size)) (commands ++ [.create name size])
  | write {s : FileSys} {commands : List Command} {name : CString} {words : List CString}
      (h : Appending s commands) (hname : PlainName name) (hwords : words ≠ [])
      (hfile : ∃ z, .create name z ∈ commands)
      (hmax : ((written name commands ++ joinWords words).length : Int) + 2 ≤ MAX_LENGTH)
      (hfail : (s.exec (.write name words)).allocFailures = s.allocFailures) :
      Appending (s.exec (.write name words)) (commands ++ [.write name words])
  | size {s : FileSys} {commands : List Command} {name : CString}
      (h : Appending s commands) (hname : PlainName name) :
      Appending (s.exec (.size name)) (commands ++ [.size name])
  | cat {s : FileSys} {commands : List Command} {name : CString}
      (h : Appending s commands) (hname : PlainName name) :
      Appending (s.exec (.cat name)) (commands ++ [.cat name])
  | ls {s : FileSys} {commands : List Command} (h : Appending s commands) :
      Appending (s.exec .ls) (commands ++ [.ls])

/-- Something was written to `name`. -/
def WrittenTo (name : CString) (commands : List Command) : Prop :=
  ∃ words, .write name words ∈ commands

/-- File `name`, created with `z` bytes, is `t` and NULs, and stands behind `t`. -/
structure Appended (s : FileSys) (name : CString) (z : Int) (k : Nat) (t : CString) : Prop where
  listed : (name, k) ∈ s.entries
  length : (s.bytes k).length = max (int32 z).toNat (t.length + 2)
  bytes : s.bytes k =
    t ++ List.replicate (max (int32 z).toNat (t.length + 2) - t.length) 0
  position : s.position name = some (t.length : Int)

/-- The same of a file that may not have been written to yet. -/
structure HoldsText (s : FileSys) (commands : List Command) (name : CString) (z : Int)
    (k : Nat) : Prop where
  listed : (name, k) ∈ s.entries
  unwritten : ¬WrittenTo name commands → (s.bytes k).length = (int32 z).toNat
  length : WrittenTo name commands →
    (s.bytes k).length = max (int32 z).toNat ((written name commands).length + 2)
  bytes : ∀ x, (s.bytes k).getD x 0 = (written name commands).getD x 0
  position : (s.position name).getD 0 = ((written name commands).length : Int)
  isOpen : WrittenTo name commands → s.position name = some ((written name commands).length : Int)

structure AppendInv (s : FileSys) (commands : List Command) : Prop where
  sound : ∃ D K dat, Sound D K dat s
  files : ∀ n z, .create n z ∈ commands → ∃ k, HoldsText s commands n z k
  known : ∀ n, WrittenTo n commands → ∃ z, .create n z ∈ commands

section Appending

variable {D K : Set Nat} {dat dat' : Nat → Sector} {s s' : FileSys} {commands : List Command}
  {command : Command} {name n : CString} {words : List CString} {z : Int} {k : Nat}

/-! ## What was written -/

theorem written_append (name : CString) (commands : List Command) (command : Command) :
    written name (commands ++ [command]) = written name commands ++ textFor name command := by
  unfold written
  rw [List.flatMap_append, List.flatMap_singleton]

theorem textFor_of_ne (h : ∀ words, command ≠ .write n words) : textFor n command = [] := by
  unfold textFor
  split
  · next m words =>
      split
      · next hm => exact absurd rfl (hm ▸ h words)
      · rfl
  · rfl

theorem writtenTo_append (h : ∀ words, command ≠ .write n words) :
    WrittenTo n (commands ++ [command]) ↔ WrittenTo n commands := by
  constructor
  · rintro ⟨words, hw⟩
    rcases List.mem_append.1 hw with hw | hw
    · exact ⟨words, hw⟩
    · exact absurd (List.mem_singleton.1 hw).symm (h words)
  · rintro ⟨words, hw⟩
    exact ⟨words, List.mem_append_left _ hw⟩

theorem written_eq_nil (h : ¬WrittenTo n commands) : written n commands = [] := by
  unfold written
  rw [List.flatMap_eq_nil_iff]
  intro command hc
  exact textFor_of_ne fun words heq => h ⟨words, heq ▸ hc⟩

/-- A text and two NULs, over the NULs behind another. -/
theorem getD_overwrite_text {old t u : List UInt8} (hold : ∀ x, old.getD x 0 = t.getD x 0)
    (x : Nat) :
    (overwrite 0 old t.length (u ++ [0, 0])).getD x 0 = (t ++ u).getD x 0 := by
  rw [getD_overwrite, hold, List.length_append, List.length_cons, List.length_singleton]
  rcases Nat.lt_or_ge x t.length with hlt | hge
  · rw [if_neg (by omega), List.getD_append _ _ _ _ hlt]
  · rw [List.getD_append_right _ _ _ _ hge]
    split
    · rcases Nat.lt_or_ge (x - t.length) u.length with hu | hu
      · rw [List.getD_append _ _ _ _ hu]
      · rw [List.getD_append_right _ _ _ _ hu, List.getD_eq_default _ _ hu]
        have hx : x - t.length - u.length = 0 ∨ x - t.length - u.length = 1 := by omega
        rcases hx with hx | hx
        · rw [hx]
          rfl
        · rw [hx]
          rfl
    · next hout => rw [List.getD_eq_default _ _ hge, List.getD_eq_default _ _ (by omega)]

/-- The end of the buffer is NUL already. -/
theorem set_writeBuffer (words : List CString) :
    (writeBuffer words).set ((writeBuffer words).length - 1) 0 = joinWords words ++ [0, 0] := by
  show (joinWords words ++ [0, 0]).set ((joinWords words ++ [0, 0]).length - 1) 0 = _
  rw [List.length_append, List.length_cons, List.length_singleton,
    List.set_append_right _ _ (by omega)]
  have hlast : (joinWords words).length + (1 + 1) - 1 - (joinWords words).length = 1 := by omega
  rw [hlast]
  rfl

/-! ## Steps that leave a file alone -/

theorem HoldsText.step (h : HoldsText s commands n z k) (hlisted : (n, k) ∈ s'.entries)
    (hbytes : s'.bytes k = s.bytes k)
    (hpos : (s'.position n).getD 0 = (s.position n).getD 0)
    (hopen : ∀ p, s.position n = some p → s'.position n = some p)
    (hc : ∀ words, command ≠ .write n words) : HoldsText s' (commands ++ [command]) n z k := by
  have hw : WrittenTo n (commands ++ [command]) ↔ WrittenTo n commands := writtenTo_append hc
  have ht : written n (commands ++ [command]) = written n commands := by
    rw [written_append, textFor_of_ne hc, List.append_nil]
  refine ⟨hlisted, fun hno => ?_, fun hyes => ?_, fun x => ?_, ?_, fun hyes => ?_⟩
  · rw [hbytes]
    exact h.unwritten fun hyes => hno (hw.2 hyes)
  · rw [hbytes, ht]
    exact h.length (hw.1 hyes)
  · rw [hbytes, ht]
    exact h.bytes x
  · rw [hpos, ht]
    exact h.position
  · rw [ht]
    exact hopen _ (h.isOpen (hw.1 hyes))

/-- A command that only looks. -/
theorem AppendInv.look (h : AppendInv s commands) (hsound : ∃ D K dat, Sound D K dat s')
    (hentries : s'.entries = s.entries)
    (hbytes : ∀ n k, (n, k) ∈ s.entries → s'.bytes k = s.bytes k)
    (hpos : ∀ n, (s'.position n).getD 0 = (s.position n).getD 0)
    (hopen : ∀ n p, s.position n = some p → s'.position n = some p)
    (hwrite : ∀ n words, command ≠ .write n words) (hcreate : ∀ n z, command ≠ .create n z) :
    AppendInv s' (commands ++ [command]) := by
  refine ⟨hsound, fun n z hc => ?_, fun n hn => ?_⟩
  · rcases List.mem_append.1 hc with hc | hc
    · obtain ⟨k, hk⟩ := h.files n z hc
      exact ⟨k, hk.step (by rw [hentries]; exact hk.listed) (hbytes n k hk.listed) (hpos n)
        (hopen n) (hwrite n)⟩
    · exact absurd (List.mem_singleton.1 hc).symm (hcreate n z)
  · obtain ⟨z, hz⟩ := h.known n ((writtenTo_append (hwrite n)).1 hn)
    exact ⟨z, List.mem_append_left _ hz⟩

theorem fsutilLs_fileTable (hs : Session D K dat s 0) :
    (fsutilLs s).2.mem.fileTable = s.mem.fileTable :=
  (@withRootNames_each D K dat s _ (fun names name s => (names ++ [name], s))
    (fun _ _ table _ => table = s.mem.fileTable) [] hs
    (fun _ _ _ _ dat₁ _ hs₁ _ _ hP => ⟨dat₁, .refl hs₁, hP⟩) rfl).1

/-! ## The commands -/

theorem AppendInv.size (h : AppendInv s commands) (hname : PlainName name) :
    AppendInv (s.exec (.size name)) (commands ++ [.size name]) := by
  obtain ⟨D, K, dat, hsnd⟩ := h.sound
  have hs := hsnd.session
  obtain ⟨dat', hq⟩ := fsutilSize_quiet hs hname
  obtain ⟨K', dat₁, hsnd'⟩ := hsnd.exec (show (Command.size name).Modest s from hname) hq.still.disk.allocFailures
  have hat : ∀ n, (s.exec (.size name)).position n = s.position n ∨
      (s.exec (.size name)).position n = some ((s.position n).getD 0) := by
    intro n
    rcases fsutilSize_spec hs hname with ⟨-, dat', hno⟩ | ⟨f, k, dat', -, -, hpos, hf⟩
    · refine .inl ?_
      show ((fsutilSize s name).2).position n = _
      unfold FileSys.position
      rw [getFileByFname_congr hno.fileTable n]
    · by_cases hn : n = name
      · rw [hn, ← hpos]
        exact .inr hf.position
      · exact .inl (hf.position_other hn)
  refine h.look ⟨D, K', dat₁, hsnd'⟩ (hq.entries hs) (fun n k hk => hq.fileBytes hs (hs.listed hk).1)
    (fun n => ?_) (fun n p hp => ?_) (by simp) (by simp)
  · rcases hat n with heq | heq
    · rw [heq]
    · rw [heq]
      rfl
  · rcases hat n with heq | heq
    · rw [heq, hp]
    · rw [heq, hp]
      rfl

theorem AppendInv.cat (h : AppendInv s commands) (hname : PlainName name) :
    AppendInv (s.exec (.cat name)) (commands ++ [.cat name]) := by
  obtain ⟨D, K, dat, hsnd⟩ := h.sound
  have hs := hsnd.session
  obtain ⟨dat', hstill, hs', hget⟩ := fsutilCat_spec hs hname
  obtain ⟨K', dat₁, hsnd'⟩ := hsnd.exec (show (Command.cat name).Modest s from hname) hstill.disk.allocFailures
  have hat : ∀ n, (s.exec (.cat name)).position n = s.position n := fun n =>
    congrArg (Option.map File.pos) (hget n)
  refine h.look ⟨D, K', dat₁, hsnd'⟩ ?_ (fun n k hk => ?_) (fun n => by rw [hat])
    (fun n p hp => by rw [hat, hp]) (by simp) (by simp)
  · show (fsutilCat s name).2.entries = s.entries
    rw [hs'.entries, hs.entries, hstill.rootBytes hs]
  · show (fsutilCat s name).2.bytes k = s.bytes k
    rw [hs'.bytes (hs.listed hk).1, hs.bytes (hs.listed hk).1]
    exact (hstill.sameFile hs.mounted (hs.listed hk).1).content

theorem AppendInv.ls (h : AppendInv s commands) :
    AppendInv (s.exec .ls) (commands ++ [.ls]) := by
  obtain ⟨D, K, dat, hsnd⟩ := h.sound
  have hs := hsnd.session
  obtain ⟨-, dat', hq⟩ := fsutilLs_spec hs
  have htable : (s.exec .ls).mem.fileTable = s.mem.fileTable := fsutilLs_fileTable hs
  have hat : ∀ n, (s.exec .ls).position n = s.position n := fun n =>
    congrArg (Option.map File.pos) (getFileByFname_congr htable n)
  refine h.look ⟨D, K, dat', hsnd.still hq.still hq.session ?_ ?_⟩ (hq.entries hs)
    (fun n k hk => hq.fileBytes hs (hs.listed hk).1) (fun n => by rw [hat])
    (fun n p hp => by rw [hat, hp]) (by simp) (by simp)
  · exact fun e he => hsnd.valid e (htable ▸ he)
  · exact fun e he => hsnd.bounded e (htable ▸ he)

theorem AppendInv.create (h : AppendInv s commands) (hname : PlainName name) {size : Int}
    (hdone : (fsutilCreate s name size).1 = true) :
    AppendInv (s.exec (.create name size)) (commands ++ [.create name size]) := by
  obtain ⟨D, K, dat, hsnd⟩ := h.sound
  have hs := hsnd.session
  obtain ⟨dat', htable, -, hcase⟩ := fsutilCreate_spec hs hname size
  rcases hcase with ⟨-, k, hmade, hs'⟩ | ⟨hfalse, -⟩
  · have hsnd' := hsnd.made hmade hs'
    have hat : ∀ n, (s.exec (.create name size)).position n = s.position n := fun n =>
      congrArg (Option.map File.pos) (getFileByFname_congr htable n)
    have hwrite : ∀ n words, Command.create name size ≠ .write n words := by simp
    have habsent : ∀ j, (name, j) ∉ s.entries := by
      rw [hs.entries]
      exact hmade.absent
    have hentries : ∀ e, e ∈ (s.exec (.create name size)).entries ↔
        e = (name, k) ∨ e ∈ s.entries := by
      intro e
      show e ∈ (fsutilCreate s name size).2.entries ↔ _
      rw [hs'.entries, hmade.listing.mem_iff, List.mem_cons, hs.entries]
    have hnew : ¬WrittenTo name commands := fun hw => by
      obtain ⟨z, hz⟩ := h.known name hw
      obtain ⟨j, hj⟩ := h.files name z hz
      exact habsent j hj.listed
    refine ⟨⟨D, _, dat', hsnd'⟩, fun n z hc => ?_, fun n hn => ?_⟩
    · rcases List.mem_append.1 hc with hc | hc
      · -- The other files are as they were.
        obtain ⟨j, hj⟩ := h.files n z hc
        obtain ⟨hjK, hj₀, hj₁⟩ := hs.listed hj.listed
        refine ⟨j, hj.step ((hentries _).2 (.inr hj.listed)) ?_ (by rw [hat])
          (fun p hp => by rw [hat, hp]) (hwrite n)⟩
        show (fsutilCreate s name size).2.bytes j = s.bytes j
        rw [hs'.bytes (.inr hjK), hs.bytes hjK, (hmade.same j hjK hj₀ hj₁).content]
      · obtain ⟨rfl, rfl⟩ : n = name ∧ z = size := by
          injection List.mem_singleton.1 hc with h₁ h₂
          exact ⟨h₁, h₂⟩
        have hnew' : ¬WrittenTo n (commands ++ [.create n z]) := fun hw =>
          hnew ((writtenTo_append (hwrite n)).1 hw)
        have ht := written_eq_nil hnew'
        have hbytes : (s.exec (.create n z)).bytes k = List.replicate (int32 z).toNat 0 := by
          show (fsutilCreate s n z).2.bytes k = _
          rw [hs'.bytes (.inl rfl), hmade.content]
        have hpos : (s.exec (.create n z)).position n = none := by
          rw [hat]
          unfold FileSys.position
          cases hget : getFileByFname s n with
          | none => rfl
          | some f =>
              obtain ⟨-, j, hj, -⟩ := hs.listed_of_get hget
              exact absurd hj (hmade.absent j)
        refine ⟨k, (hentries _).2 (.inl rfl), fun _ => ?_, fun hw => absurd hw hnew',
          fun x => ?_, ?_, fun hw => absurd hw hnew'⟩
        · rw [hbytes, List.length_replicate]
        · rw [hbytes, ht]
          show (List.replicate (int32 z).toNat (0 : UInt8)).getD x 0 = 0
          rw [List.getD_eq_getElem?_getD, List.getElem?_replicate]
          split
          · rfl
          · rfl
        · rw [hpos, ht]
          rfl
    · obtain ⟨z, hz⟩ := h.known n ((writtenTo_append (hwrite n)).1 hn)
      exact ⟨z, List.mem_append_left _ hz⟩
  · rw [hdone] at hfalse
    cases hfalse

theorem AppendInv.write (h : AppendInv s commands) (hname : PlainName name) (hwords : words ≠ [])
    (hfile : ∃ z, .create name z ∈ commands)
    (hmax : ((written name commands ++ joinWords words).length : Int) + 2 ≤ MAX_LENGTH)
    (hfail : (s.exec (.write name words)).allocFailures = s.allocFailures) :
    AppendInv (s.exec (.write name words)) (commands ++ [.write name words]) := by
  obtain ⟨D, K, dat, hsnd⟩ := h.sound
  have hs := hsnd.session
  obtain ⟨z, hz⟩ := hfile
  obtain ⟨k, hk⟩ := h.files name z hz
  obtain ⟨hkK, hk₀, -⟩ := hs.listed hk.listed
  obtain ⟨t, ht⟩ : ∃ t, written name commands = t := ⟨_, rfl⟩
  have hat := hk.position
  have hbuf : (writeBuffer words).length = (joinWords words).length + 2 := List.length_append
  rw [ht] at hat hmax
  rw [List.length_append] at hmax
  obtain ⟨K', dat₁, hsnd'⟩ := hsnd.exec
    (show (Command.write name words).Modest s from ⟨hname, fun _ _ => by rw [hat, hbuf]; omega⟩)
    hfail
  rw [exec_write hwords] at hfail hsnd' ⊢
  have hspec := @fsutilWrite_at D K dat s 0 k t.length name (writeBuffer words) hs hname
    (by rw [← hs.entries]; exact hk.listed) (by omega) hat (by simp only [MAX_LENGTH] at hmax; omega)
    (.inr (hsnd.tidy k hkK hk₀))
  generalize (fsutilWrite s name (writeBuffer words)) = r at hspec hfail hsnd' ⊢
  obtain ⟨dat', hframe, hcase⟩ := hspec
  have hs' := hframe.session
  have hlisted : ∀ n j, (n, j) ∈ s.entries → (n, j) ∈ listing (rootBytes s.content dat) :=
    fun n j h => by rw [← hs.entries]; exact h
  have hentries : r.2.entries = s.entries := by rw [hs'.entries, hs.entries, hframe.root]
  have hwrote : ∀ n, WrittenTo n (commands ++ [.write name words]) ↔ n = name ∨ WrittenTo n commands := by
    intro n
    constructor
    · rintro ⟨ws, hw⟩
      rcases List.mem_append.1 hw with hw | hw
      · exact .inr ⟨ws, hw⟩
      · injection List.mem_singleton.1 hw with hn
        exact .inl hn
    · rintro (rfl | ⟨ws, hw⟩)
      · exact ⟨words, List.mem_append_right _ List.mem_cons_self⟩
      · exact ⟨ws, List.mem_append_left _ hw⟩
  refine ⟨⟨D, K', dat₁, hsnd'⟩, fun n y hc => ?_, fun n hn => ?_⟩
  · have hc : .create n y ∈ commands := by
      rcases List.mem_append.1 hc with hc | hc
      · exact hc
      · cases List.mem_singleton.1 hc
    obtain ⟨j, hj⟩ := h.files n y hc
    obtain ⟨hjK, hj₀, -⟩ := hs.listed hj.listed
    by_cases hn : n = name
    · rw [hn] at hj ⊢
      obtain rfl : j = k := hs.names.unique (hlisted _ _ hj.listed) (hlisted _ _ hk.listed)
      rcases hcase with ⟨-, hdone⟩ | ⟨-, hun⟩
      · have hbytes : r.2.bytes j = overwrite 0 (s.bytes j) t.length (joinWords words ++ [0, 0]) := by
          rw [hs'.bytes hjK, hs.bytes hjK, hdone.content, set_writeBuffer]
        have htext : written name (commands ++ [.write name words]) = t ++ joinWords words := by
          rw [written_append, ht]
          exact congrArg (t ++ ·) (if_pos rfl)
        have hlen : (s.bytes j).length = (int32 y).toNat ∧ t = [] ∨
            (s.bytes j).length = max (int32 y).toNat (t.length + 2) := by
          by_cases hw : WrittenTo name commands
          · exact .inr (ht ▸ hj.length hw)
          · exact .inl ⟨hj.unwritten hw, ht ▸ written_eq_nil hw⟩
        have hpos : r.2.position name = some ((t ++ joinWords words).length : Int) := by
          rw [hdone.position, hbuf, List.length_append]
          simp only [MAX_LENGTH] at hmax
          rw [int32_eq (by omega) (by omega)]
          congr 1
          omega
        refine ⟨j, by rw [hentries]; exact hj.listed,
          fun hno => absurd ((hwrote name).2 (.inl rfl)) hno, fun _ => ?_, fun x => ?_, ?_, fun _ => ?_⟩
        · rw [hbytes, htext, length_overwrite, List.length_append, List.length_append,
            List.length_cons, List.length_singleton]
          rcases hlen with ⟨hlen, hnil⟩ | hlen
          · rw [hlen, hnil, List.length_nil]
            omega
          · rw [hlen]
            omega
        · rw [hbytes, htext]
          exact getD_overwrite_text (fun x => ht ▸ hj.bytes x) x
        · rw [hpos, htext]
          rfl
        · rw [hpos, htext]
      · have := hun.failed (by rw [hbuf]; omega)
        omega
    · have hjk : j ≠ k := fun heq => by
        rw [heq] at hj
        exact hn (hs.names.sector_inj (hlisted _ _ hj.listed) (hlisted _ _ hk.listed))
      refine ⟨j, hj.step (by rw [hentries]; exact hj.listed) ?_ (by rw [hframe.position n hn])
        (fun p hp => by rw [hframe.position n hn, hp]) fun ws heq => ?_⟩
      · rw [hs'.bytes hjK, hs.bytes hjK, (hframe.same j hjK hjk hj₀).content]
      · injection heq with heq
        exact hn heq.symm
  · rcases (hwrote n).1 hn with rfl | hn
    · exact ⟨z, List.mem_append_left _ hz⟩
    · obtain ⟨y, hy⟩ := h.known n hn
      exact ⟨y, List.mem_append_left _ hy⟩


/-! ## The run -/

theorem Appending.inv (h : Appending s commands) : AppendInv s commands := by
  induction h with
  | format h =>
      obtain ⟨D, dat, hf⟩ := filesysInit_format h
      exact ⟨⟨D, _, dat, hf.sound⟩, fun n z hc => absurd hc List.not_mem_nil,
        fun n ⟨words, hw⟩ => absurd hw List.not_mem_nil⟩
  | create _ hname hdone ih => exact ih.create hname hdone
  | write _ hname hwords hfile hmax hfail ih => exact ih.write hname hwords hfile hmax hfail
  | size _ hname ih => exact ih.size hname
  | cat _ hname ih => exact ih.cat hname
  | ls _ ih => exact ih.ls

/-- In any such run a file that was created with `z` bytes and written to holds all that was
written to it, in order, and NULs, and stands behind its text. -/
theorem write_appends (h : Appending s commands) (hcreate : .create name z ∈ commands)
    (hwrite : .write name words ∈ commands) :
    ∃ k, Appended s name z k (written name commands) := by
  obtain ⟨k, hk⟩ := h.inv.files name z hcreate
  have hlen := hk.length ⟨words, hwrite⟩
  refine ⟨k, hk.listed, hlen, ext_getD (z := (0 : UInt8)) ?_ fun x _ => ?_, hk.isOpen ⟨words, hwrite⟩⟩
  · rw [hlen, List.length_append, List.length_replicate]
    omega
  · rw [hk.bytes]
    rcases Nat.lt_or_ge x (written name commands).length with hlt | hge
    · rw [List.getD_append _ _ _ _ hlt]
    · rw [List.getD_append_right _ _ _ _ hge, List.getD_eq_default _ _ hge,
        List.getD_eq_getElem?_getD, List.getElem?_replicate]
      split
      · rfl
      · rfl

/-- A write that ends inside the file as it was created needs no sector. -/
theorem Appending.write_inside (h : Appending s commands) (hname : PlainName name)
    (hwords : words ≠ []) (hcreate : .create name z ∈ commands)
    (hroom : (written name commands ++ joinWords words).length + 2 ≤ (int32 z).toNat) :
    (s.exec (.write name words)).allocFailures = s.allocFailures := by
  obtain ⟨D, K, dat, hsnd⟩ := h.inv.sound
  obtain ⟨k, hk⟩ := h.inv.files name z hcreate
  have hs := hsnd.session
  obtain ⟨hkK, -, -⟩ := hs.listed hk.listed
  have hlen : (int32 z).toNat ≤ (fileContent s.content (dat k)).length := by
    rw [← hs.bytes hkK]
    by_cases hw : WrittenTo name commands
    · rw [hk.length hw]
      exact Nat.le_max_left ..
    · rw [hk.unwritten hw]
  have hint : int32 z < 2 ^ 31 := BitVec.toInt_lt
  have hbuffer : (writeBuffer words).length = (joinWords words).length + 2 := List.length_append
  rw [List.length_append] at hroom
  have hpos : 0 < (writeBuffer words).length := by omega
  obtain ⟨dat', -, hcase⟩ := fsutilWrite_at hs hname (by rw [← hs.entries]; exact hk.listed) hpos
    hk.position (by omega) (.inl (by omega))
  rw [exec_write hwords]
  rcases hcase with ⟨-, hdone⟩ | ⟨-, hun⟩
  · exact hdone.allocFailures
  · have hpast := hun.past
    omega

end Appending

/-- A file of nine bytes that two letters are written to, and that is printed and sized in
between. -/
theorem write_appends_letters : ∃ s, Appending s [.create [97] (9 : Nat), .write [97] [[120]],
      .cat [97], .size [97], .write [97] [[121]]] ∧
    ∃ k, Appended s [97] (9 : Nat) k [120, 121] := by
  obtain ⟨s₀, hinit, -, -, -, -, hcreate⟩ := blankDisk_create 9 (by decide) (by decide)
  have hint : int32 ((9 : Nat) : Int) = 9 := int32_eq (by decide) (by decide)
  have hmade : Appending (s₀.exec (.create [97] (9 : Nat))) [.create [97] (9 : Nat)] :=
    .create (.format hinit) plainName_a hcreate
  have hfirst := hmade.write_inside plainName_a (List.cons_ne_nil [120] []) List.mem_cons_self
    (by rw [hint]; decide)
  have hbetween := ((hmade.write plainName_a (List.cons_ne_nil [120] []) ⟨_, List.mem_cons_self⟩
    (by decide) hfirst).cat plainName_a).size plainName_a
  have hsecond := hbetween.write_inside plainName_a (List.cons_ne_nil [121] []) List.mem_cons_self
    (by rw [hint]; decide)
  have hrun := hbetween.write plainName_a (List.cons_ne_nil [121] []) ⟨_, List.mem_cons_self⟩
    (by decide) hsecond
  exact ⟨_, hrun, write_appends hrun List.mem_cons_self
    (List.mem_cons_of_mem _ List.mem_cons_self)⟩

end SimpleShell.Fs
