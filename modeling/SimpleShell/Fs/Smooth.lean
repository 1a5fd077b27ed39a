import SimpleShell.Fs.Fresh
import SimpleShell.Fs.Positions

/-!
# Runs on which nothing fails

`Smooth` is every state that creates, writes, reads, seeks, sizes, cats and removals lead
to from a formatted disk while every sector that is asked for is found and no inode is asked
for more than it can hold. In such a state nothing is stale, nothing is lost, every file ends
in zeros and no file stands before its start: `Sound`, which each command keeps.
-/

namespace SimpleShell.Fs

open SimpleShell.Lib

/-- The command is on a plain name and asks no file to grow past what an inode can hold; a
new file has a name that is not there and no negative size, which `inode_create` asserts. The
root directory is one of the files. -/
def Command.Modest (s : FileSys) : Command → Prop
  | .create name length => PlainName name ∧ (∀ k, (name, k) ∉ s.entries) ∧
      0 ≤ int32 length ∧ int32 length ≤ MAX_LENGTH ∧
      (FullDir (s.bytes ROOT_DIR_SECTOR) → (nextEnd (s.bytes ROOT_DIR_SECTOR) : Int) ≤ MAX_LENGTH)
  | .write name words => PlainName name ∧ (words ≠ [] → (∃ k, (name, k) ∈ s.entries) →
      (s.position name).getD 0 + (writeBuffer words).length ≤ MAX_LENGTH)
  | .seek name offset => PlainName name ∧ 0 ≤ offset ∧ offset < 2 ^ 31
  | .read name _ | .size name | .cat name | .rm name => PlainName name
  | _ => False

inductive Smooth : FileSys → Prop where
  | format {c : CacheState} {stray : Int → UInt8} {s : FileSys} :
      filesysInit true c stray = (true, s) → Smooth s
  | exec {s : FileSys} (command : Command) : Smooth s → command.Modest s →
      (s.exec command).allocFailures = s.allocFailures → Smooth (s.exec command)

/-- What holds in every such state. -/
structure Sound (D K : Set Nat) (dat : Nat → Sector) (s : FileSys) : Prop where
  session : Session D K dat s 0
  exact : Exact K dat s
  tidy : ∀ k ∈ K, k ≠ 0 → Tidy s.content (dat k)
  valid : s.PositionsValid
  bounded : AllAt (· < 2 ^ 31) s

section Smooth

variable {D K : Set Nat} {dat dat' : Nat → Sector} {s s' : FileSys} {name : CString}
  {k : Nat}

/-! ## Steps that change no file -/

theorem Sound.still (h : Sound D K dat s) (hstill : Still s dat s' dat')
    (hs : Session D K dat' s' 0) (hvalid : s'.PositionsValid) (hbounded : AllAt (· < 2 ^ 31) s') :
    Sound D K dat' s' where
  session := hs
  exact := hstill.exact h.exact
  tidy k hk hk₀ := (hstill.sameFile h.session.mounted hk).tidy (h.tidy k hk hk₀)
  valid := hvalid
  bounded := hbounded

theorem Sound.position (h : Sound D K dat s) (name : CString) :
    0 ≤ (s.position name).getD 0 ∧ (s.position name).getD 0 < 2 ^ 31 := by
  unfold FileSys.position
  cases hget : getFileByFname s name with
  | none => exact ⟨le_refl 0, by decide⟩
  | some f => exact ⟨h.valid _ (mem_fileTable_of_get hget), h.bounded _ (mem_fileTable_of_get hget)⟩

/-! ## Creating -/

/-- Within its limits a create that fails has failed to find a sector. -/
theorem CreateFault.allocFailed {size : Int} (hf : CreateFault D K dat s name size s')
    (h₀ : 0 ≤ int32 size) (hmax : int32 size ≤ MAX_LENGTH) (hvalid : ValidName name)
    (habs : ∀ j, (name, j) ∉ listing (rootBytes s.content dat))
    (hroot : FullDir (rootBytes s.content dat) →
      (nextEnd (rootBytes s.content dat) : Int) ≤ MAX_LENGTH) :
    s.allocFailures < s'.allocFailures := by
  cases hf with
  | full _ hs' =>
      rw [hs']
      exact Nat.lt_succ_self _
  | create k s₁ s₂ ha _ hn hr =>
      rw [hr.allocFailures, ← ha.allocFailures]
      exact hn.failed h₀ hmax
  | add k p d₁ d' s₁ s₂ s₃ ha _ hc hp hw hn hr =>
      rw [hr.allocFailures, ← hc.allocFailures]
      rcases hn.cause with ⟨hbad, -⟩ | ⟨-, -, hfull, i, hi, hs⟩
      · rcases hbad with hbad | ⟨j, hj⟩
        · exact absurd hvalid hbad
        · exact absurd hj (habs j)
      · have hfits := hroot hfull
        refine hs.failed ?_
        rw [ByteBlock.length_toList]
        rw [nextEnd, ← hi] at hfits
        simp only [ENTRY_SIZE] at hfits ⊢
        omega

theorem Sound.made {size : Int} (h : Sound D K dat s)
    (hmade : FileCreated D K dat s name size k dat' (fsutilCreate s name size).2)
    (hs' : Session D (insert k K) dat' (fsutilCreate s name size).2 0) :
    Sound D (insert k K) dat' (fsutilCreate s name size).2 where
  session := hs'
  exact := hmade.exact h.exact
  tidy j hj hj₀ := by
    rcases hj with rfl | hj
    · exact hmade.tidyNew
    · by_cases hj₁ : j = ROOT_DIR_SECTOR
      · rw [hj₁]
        exact hmade.tidy (h.tidy _ h.session.root_mem (by decide))
      · exact (hmade.same j hj hj₀ hj₁).tidy (h.tidy j hj hj₀)
  valid := (fsutilCreate_sameFiles s name size).allAt h.valid
  bounded := (fsutilCreate_sameFiles s name size).allAt h.bounded

theorem Sound.create {size : Int} (h : Sound D K dat s) (hc : (Command.create name size).Modest s)
    (hfail : (fsutilCreate s name size).2.allocFailures = s.allocFailures) :
    ∃ k dat', FileCreated D K dat s name size k dat' (fsutilCreate s name size).2 ∧
      Sound D (insert k K) dat' (fsutilCreate s name size).2 := by
  obtain ⟨hname, habs, h₀, hmax, hroot⟩ := hc
  have hs := h.session
  rw [hs.bytes hs.root_mem] at hroot
  rw [hs.entries] at habs
  obtain ⟨dat', -, -, hcase⟩ := fsutilCreate_spec hs hname size
  rcases hcase with ⟨-, k, hmade, hs'⟩ | ⟨-, -, -, s₁, s₂, hd₁, hm₁, hfault, hd₂⟩
  · exact ⟨k, dat', hmade, h.made hmade hs'⟩
  · have hbytes : rootBytes s₁.content dat = rootBytes s.content dat := by
      rw [hd₁.content]
    have hlt := hfault.allocFailed h₀ hmax hname.valid (by rw [hbytes]; exact habs)
      (by rw [hbytes]; exact hroot)
    rw [hd₁.allocFailures, ← hfail, hd₂.allocFailures] at hlt
    exact absurd hlt (Nat.lt_irrefl _)

/-! ## Writing -/

/-- A write that stays within the limits and finds its sectors is done. -/
theorem FileWritten.stored {b : List UInt8} {f : File} {dat₁ : Nat → Sector} {s₁ s₂ : FileSys}
    {d' : Sector} {w : Int} (hw : FileWritten D K dat s 0 name b f k dat₁ s₁ d' s₂ w s')
    (h : Sound D K dat s) (hk : k ∈ K) (hk₀ : k ≠ 0)
    (hmax : (s.position name).getD 0 + b.length ≤ MAX_LENGTH)
    (hfail : s'.allocFailures = s.allocFailures) :
    ∃ o : Nat, f.pos = o ∧ w = b.length ∧ Stored K dat₁ s₁ k o b d' s₂ := by
  obtain ⟨hpos, -⟩ := h.position name
  rw [← hw.opened.position] at hpos hmax
  obtain ⟨o, ho⟩ := Int.eq_ofNat_of_zero_le hpos
  have htidy := (hw.opened.still.sameFile h.session.mounted hk).tidy (h.tidy k hk hk₀)
  have hmax' := hmax
  simp only [MAX_LENGTH] at hmax'
  rcases hw.answer o ho (by omega) (.inr htidy) with ⟨hlen, hstored⟩ | ⟨-, hun⟩
  · exact ⟨o, ho, hlen, hstored⟩
  · have hlt := hun.failed (by rw [← ho]; exact hmax)
    rw [← hw.disk.allocFailures, hfail, hw.opened.still.disk.allocFailures] at hlt
    exact absurd hlt (Nat.lt_irrefl _)

/-- What a write that is done leaves. -/
theorem Sound.wrote {b : List UInt8} {f : File} {dat₁ : Nat → Sector} {s₁ s₂ : FileSys}
    {d' : Sector} {w : Int} (h : Sound D K dat s) (hlisted : (name, k) ∈ s.entries)
    (hw : FileWritten D K dat s 0 name b f k dat₁ s₁ d' s₂ w s') (htwo : 2 ≤ b.length)
    (hmax : (s.position name).getD 0 + b.length ≤ MAX_LENGTH)
    (hfail : s'.allocFailures = s.allocFailures) :
    Sound D K (Function.update dat₁ k d') s' := by
  obtain ⟨hk, hk₀, -⟩ := h.session.listed hlisted
  obtain ⟨o, ho, hlen, hstored⟩ := hw.stored h hk hk₀ hmax hfail
  have htidy := (hw.opened.still.sameFile h.session.mounted hk).tidy (h.tidy k hk hk₀)
  rw [← hw.opened.position, ho] at hmax
  simp only [MAX_LENGTH] at hmax
  have hpos : int32 (f.pos + (w - 2)) = o + b.length - 2 := by
    rw [ho, hlen, int32_eq (by omega) (by omega)]
    omega
  -- The file stands behind its new bytes, the others where they did.
  have hat : ∀ e ∈ s'.mem.fileTable, 0 ≤ e.2.pos ∧ e.2.pos < 2 ^ 31 := by
    rintro ⟨n, g⟩ he
    have hget := getFileByFname_of_mem hw.session.keyed he
    by_cases hn : n = name
    · rw [hn, hw.file.get] at hget
      rw [← Option.some.inj hget]
      dsimp only
      rw [hpos]
      omega
    · rw [hw.other n hn] at hget
      exact ⟨h.valid _ (mem_fileTable_of_get hget), h.bounded _ (mem_fileTable_of_get hget)⟩
  refine ⟨hw.session, ?_, fun j hj hj₀ => ?_, fun e he => (hat e he).1, fun e he => (hat e he).2⟩
  · exact (hstored.exact (hw.opened.still.exact h.exact)).sameDisk hw.disk
  · by_cases hjk : j = k
    · rw [hjk, Function.update_self, hw.disk.content]
      exact hstored.tidy htidy
    · exact (hw.same j hj hjk hj₀).tidy (h.tidy j hj hj₀)

/-! ## The run -/

theorem Sound.removed (h : Sound D K dat s) (hr : FileRemoved D K dat s name k dat' s')
    (hvalid : s'.PositionsValid) (hbounded : AllAt (· < 2 ^ 31) s') :
    Sound D (K \ {k}) dat' s' where
  session := hr.session
  exact := hr.exact h.exact
  tidy j hj hj₀ := by
    by_cases hj₁ : j = ROOT_DIR_SECTOR
    · rw [hj₁]
      exact hr.tidy (h.tidy _ h.session.root_mem (by decide))
    · exact (hr.same j hj.1 hj.2 hj₀ hj₁).tidy (h.tidy j hj.1 hj₀)
  valid := hvalid
  bounded := hbounded

theorem Command.Modest.positioned {command : Command} (hc : command.Modest s)
    (hwrite : ∀ n words, command ≠ .write n words) : command.Positioned := by
  cases command with
  | write name words => exact absurd rfl (hwrite name words)
  | seek name offset => exact hc.2
  | create name size => trivial
  | read name size => trivial
  | size name => trivial
  | cat name => trivial
  | rm name => trivial
  | ls => exact absurd hc id
  | findFile => exact absurd hc id
  | fragmentationDegree => exact absurd hc id
  | recover0 => exact absurd hc id
  | copyIn name content => exact absurd hc id
  | copyOut name => exact absurd hc id
  | freespace => exact absurd hc id
  | defragment junk => exact absurd hc id

/-- A command keeps the state sound. -/
theorem Sound.exec {command : Command} (h : Sound D K dat s) (hc : command.Modest s)
    (hfail : (s.exec command).allocFailures = s.allocFailures) :
    ∃ K' dat', Sound D K' dat' (s.exec command) := by
  have hs := h.session
  have hat : (∀ n words, command ≠ .write n words) →
      (s.exec command).PositionsValid ∧ AllAt (· < 2 ^ 31) (s.exec command) := by
    intro hno
    have hpos := hc.positioned hno
    refine ⟨(exec_valid h.valid h.bounded hpos).2 ?_, exec_bounded h.bounded hpos⟩
    cases command with
    | write name words => exact absurd rfl (hno name words)
    | copyIn name content => exact absurd hc id
    | _ => trivial
  cases command with
  | create name size =>
      obtain ⟨k, dat', -, h'⟩ := h.create hc hfail
      exact ⟨_, dat', h'⟩
  | write name words =>
      by_cases hwords : words = []
      · exact ⟨K, dat, by rw [FileSys.exec, if_pos hwords]; exact h⟩
      · have hlen := length_writeBuffer words
        rw [exec_write hwords] at hfail ⊢
        rcases fsutilWrite_spec (b := writeBuffer words) hs hc.1 (by omega) with
          ⟨-, dat', hno⟩ | ⟨f, k, dat₁, s₁, d', s₂, hlisted, hw⟩
        · refine ⟨K, dat', h.still hno.still hno.session ?_ ?_⟩
          · exact fun e he => h.valid e (by rw [← hno.fileTable]; exact he)
          · exact fun e he => h.bounded e (by rw [← hno.fileTable]; exact he)
        · rw [← hs.entries] at hlisted
          have hset : ((writeBuffer words).set ((writeBuffer words).length - 1) 0).length =
              (writeBuffer words).length := List.length_set
          exact ⟨K, _, h.wrote hlisted hw (by omega)
            (by rw [hset]; exact hc.2 hwords ⟨k, hlisted⟩) hfail⟩
  | read name size =>
      obtain ⟨hvalid, hbounded⟩ := hat (by simp)
      obtain ⟨dat', hq⟩ := fsutilRead_quiet hs hc size
      exact ⟨K, dat', h.still hq.still hq.session hvalid hbounded⟩
  | seek name offset =>
      obtain ⟨hvalid, hbounded⟩ := hat (by simp)
      obtain ⟨dat', hq⟩ := fsutilSeek_quiet hs hc.1 offset
      exact ⟨K, dat', h.still hq.still hq.session hvalid hbounded⟩
  | size name =>
      obtain ⟨hvalid, hbounded⟩ := hat (by simp)
      obtain ⟨dat', hq⟩ := fsutilSize_quiet hs hc
      exact ⟨K, dat', h.still hq.still hq.session hvalid hbounded⟩
  | cat name =>
      obtain ⟨hvalid, hbounded⟩ := hat (by simp)
      obtain ⟨dat', hstill, hs', -⟩ := fsutilCat_spec hs hc
      exact ⟨K, dat', h.still hstill hs' hvalid hbounded⟩
  | rm name =>
      obtain ⟨hvalid, hbounded⟩ := hat (by simp)
      rcases fsutilRm_spec hs hc with ⟨-, dat', hno⟩ | ⟨k, dat', -, -, hr⟩
      · exact ⟨K, dat', h.still hno.still hno.session hvalid hbounded⟩
      · exact ⟨_, dat', h.removed hr hvalid hbounded⟩
  | ls => exact absurd hc id
  | findFile => exact absurd hc id
  | fragmentationDegree => exact absurd hc id
  | recover0 => exact absurd hc id
  | copyIn name content => exact absurd hc id
  | copyOut name => exact absurd hc id
  | freespace => exact absurd hc id
  | defragment junk => exact absurd hc id

theorem Formatted.sound (h : Formatted D dat s) :
    Sound D {ROOT_DIR_SECTOR, FREE_MAP_SECTOR} dat s where
  session := h.session
  exact := h.exact
  tidy k hk hk₀ := by
    rcases hk with rfl | rfl
    · exact h.tidy
    · exact absurd rfl hk₀
  valid e he := absurd (h.fileTable ▸ he) List.not_mem_nil
  bounded e he := absurd (h.fileTable ▸ he) List.not_mem_nil

/-- Every state such a run comes to is sound. -/
theorem Smooth.sound (h : Smooth s) : ∃ D K dat, Sound D K dat s := by
  induction h with
  | format h =>
      obtain ⟨D, dat, hf⟩ := filesysInit_format h
      exact ⟨D, _, dat, hf.sound⟩
  | exec command _ hc hfail ih =>
      obtain ⟨D, K, dat, hs⟩ := ih
      obtain ⟨K', dat', hs'⟩ := hs.exec hc hfail
      exact ⟨D, K', dat', hs'⟩

end Smooth

end SimpleShell.Fs
