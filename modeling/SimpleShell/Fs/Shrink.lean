import SimpleShell.Fs.Fresh

/-!
# Writes that shrink a file

`inode_write_at` extends a file when the last byte of the write is not mapped, and then
sets the length instead of raising it. For a write of no bytes at offset 0 the last byte
is at -1, which no file maps: the file is cut down to nothing.
-/

namespace SimpleShell.Fs

open SimpleShell.Lib

section Shrink

variable {D K : Set Nat} {dat : Nat → Sector} {s s' : FileSys} {p k o : Nat}
  {b : List UInt8} {d' : Sector}

/-- Nothing in memory changes, no sector is taken and none is written with something new: `d'`
is inode `k` afterwards. -/
structure NothingChanges (dat : Nat → Sector) (s : FileSys) (k : Nat) (d' : Sector)
    (s' : FileSys) : Prop where
  data : d' = dat k
  mem : s'.mem = s.mem
  freeMap : s'.freeMap = s.freeMap
  content : s'.content = s.content

/-- What a write to the open inode `p` of sector `k` has to do besides writing. -/
structure NeverShrinks (dat : Nat → Sector) (s : FileSys) (p k : Nat) (b : List UInt8)
    (s' : FileSys) : Prop where
  length : inodeLength (dat k) ≤ inodeLength (s'.inode p).data
  nothing : b = [] → NothingChanges dat s k (s'.inode p).data s'

/-- No sector is taken to make the file `length` bytes long, and sector 0 is not cleared. -/
def Refuses (dat : Nat → Sector) (s : FileSys) (k : Nat) (length : Int) : Prop :=
  ¬CanExtend s (dat k) length ∧
    (s.freeSectors = 0 ∨
      missing (slotVal s.content (dat k)) (inodeSlots (bytesToSectors length)) = []) ∧
    ¬ClearsZero s (dat k) length

/-- The writes that do. -/
def Harmless (dat : Nat → Sector) (s : FileSys) (p k : Nat) (b : List UInt8) (o : Nat) : Prop :=
  (s.inode p).denyWriteCnt ≠ 0 ∨ b ≠ [] ∨
    (o ≤ inodeLength (dat k) ∧ (o ≠ 0 ∨ (inodeLength (dat k) = 0 ∧ s.content k = dat k))) ∨
    (inodeLength (dat k) < o ∧ Refuses dat s k o)

theorem natCast_length_nil : ((([] : List UInt8).length : Nat) : Int) = 0 := rfl

/-- A write whose last byte is in the file leaves the inode alone. -/
theorem inodeWriteAt_mapped (h : Vol D K dat s) (hp : IsOpen dat s p k) (hk : k ∈ K)
    (hpos : 0 < o + b.length) (hin : (o + b.length : Int) ≤ inodeLength (dat k)) :
    ∃ c, (inodeWriteAt allocSector s p b o).2 = { s with cache := c } ∧
      (b = [] → c.content = s.content) := by
  have hmax := (h.file k hk).max
  simp only [MAX_LENGTH] at hmax
  have hlast : int32 ((o : Int) + b.length - 1) = ((o + b.length - 1 : Nat) : Int) := by
    rw [int32_eq (by omega) (by omega)]
    omega
  have hfound := byteToSector_ne_noSector (c := s.cache) (i := o + b.length - 1) (h.file k hk)
    (by omega)
  rw [← hp.data, ← hlast] at hfound
  rw [inodeWriteAt_of_found hp.writable hfound]
  refine ⟨_, rfl, ?_⟩
  rintro rfl
  rw [List.length_nil, inodeWriteLoop, byteToSector_content]
  rfl

/-- One that ends behind the end of the file makes it as long as it reaches, if it can. -/
theorem inodeWriteAt_unmapped (h : Vol D K dat s) (hp : IsOpen dat s p k) (hk : k ∈ K)
    (hk₀ : k ≠ 0) (hend : o + b.length < 2 ^ 31)
    (hpast : inodeLength (dat k) < o + b.length) (hcan : CanExtend s (dat k) (o + b.length)) :
    inodeLength ((inodeWriteAt allocSector s p b o).2.inode p).data = o + b.length := by
  have hlast : int32 ((o : Int) + b.length - 1) = o + b.length - 1 := int32_eq (by omega) (by omega)
  have hsum : int32 ((o : Int) + b.length) = o + b.length := int32_eq (by omega) (by omega)
  rw [inodeWriteAt_of_beyond hp.writable (by rw [hlast, hp.data]; omega), hsum]
  obtain ⟨d', -, hdata, htrue, hfalse⟩ := inodeExtend_spec (n := (o : Int) + b.length) h hp hk hk₀
  generalize inodeExtend allocSector s p ((o : Int) + b.length) = e at hdata htrue hfalse ⊢
  have hdone : e.1 = true := by
    cases he : e.1 with
    | true => rfl
    | false => exact absurd hcan (hfalse he).1
  dsimp only
  rw [if_neg (by simp [hdone])]
  show inodeLength (e.2.inode p).data = _
  rw [hdata]
  exact (htrue hdone).2.length

theorem setLength_zero {d : Sector} (h : inodeLength d = 0) : setLength d 0 = d := by
  have hlt := ByteBlock.u32_lt d 504
  unfold inodeLength at h
  have hzero : d.u32 504 = 0 := by
    rcases Nat.lt_or_ge (d.u32 504) (2 ^ 31) with hsmall | hlarge
    · rw [int32_eq (by omega) (by omega)] at h
      omega
    · rw [int32_bmod, Int.bmod_def] at h
      split at h
      · omega
      · omega
  unfold setLength
  have hsame : ((0 : Int) % 2 ^ 32).toNat = d.u32 504 := hzero.symm
  rw [hsame]
  exact ByteBlock.setU32_u32 d 504

/-- The write of no bytes at the start: a length of 0, and nothing else. -/
theorem inodeWriteAt_start (hp : IsOpen dat s p k) :
    (inodeWriteAt allocSector s p [] 0).2 =
      (s.setData p (setLength (dat k) 0)).writeSector k (setLength (dat k) 0) := by
  have hlast : int32 ((0 : Int) + ([] : List UInt8).length - 1) = -1 := by decide
  have hsum : int32 ((0 : Int) + ([] : List UInt8).length) = 0 := by decide
  have hres : inodeReserve allocSector s (dat k) 0 = ((true, dat k), s) := rfl
  have hself : s.setData p (dat k) = s := by
    rw [← hp.data]
    exact FileSys.setData_self hp.live
  rw [inodeWriteAt_of_beyond hp.writable (by rw [hlast]; omega), hsum]
  unfold inodeExtend
  rw [hp.data, hres]
  simp only [Bool.true_eq_false, if_false, hself]
  rw [FileSys.inode_setData hp.live]
  show (s.setData p (setLength (dat k) 0)).writeSector (s.inode p).sector _ = _
  rw [hp.sector]

theorem NothingChanges.of_cache {c : BufferCache} (hdata : (s.inode p).data = dat k)
    (hcont : c.content = s.content) :
    NothingChanges dat s k (s.inode p).data { s with cache := c } :=
  ⟨hdata, rfl, rfl, hcont⟩

/-- The write that reaches past the end of the file, by what `inode_reserve` says. -/
theorem inodeWriteAt_past (h : Vol D K dat s) (hp : IsOpen dat s p k) (hk : k ∈ K) (hk₀ : k ≠ 0)
    (hend : o + b.length < 2 ^ 31) (hpast : inodeLength (dat k) < o + b.length) :
    (CanExtend s (dat k) (o + b.length) →
      inodeLength ((inodeWriteAt allocSector s p b o).2.inode p).data = o + b.length) ∧
    (¬CanExtend s (dat k) (o + b.length) →
      inodeLength ((inodeWriteAt allocSector s p b o).2.inode p).data = inodeLength (dat k) ∧
      (b = [] → (NothingChanges dat s k ((inodeWriteAt allocSector s p b o).2.inode p).data
          (inodeWriteAt allocSector s p b o).2 ↔ Refuses dat s k o))) := by
  have hnonneg := (h.file k hk).nonneg
  refine ⟨inodeWriteAt_unmapped h hp hk hk₀ hend hpast, fun hcan => ?_⟩
  have hlast : int32 ((o : Int) + b.length - 1) = o + b.length - 1 :=
    int32_eq (by omega) (by omega)
  have hsum : int32 ((o : Int) + b.length) = o + b.length := int32_eq (by omega) (by omega)
  obtain ⟨d', s', heq, hw, hlen, -, -, hfree, hsparing⟩ :=
    inodeWriteAt_failing (b := b) (o := o) h hp hk hk₀ (by rw [hlast]; omega)
      (by rw [hsum]; exact hcan)
  rw [hsum] at hfree hsparing
  have hinode : (s'.inode p).data = d' := by rw [hw.inode_self hp]
  rw [heq, hinode]
  refine ⟨hlen, ?_⟩
  rintro rfl
  have hfree' := hfree (by omega)
  simp only [natCast_length_nil, Int.add_zero] at hfree' hsparing hcan
  unfold Refuses
  rw [← List.length_eq_zero_iff]
  constructor
  · intro hnothing
    have hsame : s'.freeSectors = s.freeSectors := by
      unfold FileSys.freeSectors
      rw [hnothing.freeMap]
    exact ⟨hcan, by omega, hsparing.zero.1 (congrFun hnothing.content 0)⟩
  · rintro ⟨-, hnone, hclear⟩
    obtain ⟨hd, hu⟩ := hsparing.untaken (by omega)
    refine ⟨hd, ?_, hu.freeMap, funext fun v => ?_⟩
    · show s'.mem = s.mem
      rw [hw.mem, hd, ← hp.data, FileSys.setData_self hp.live]
    · rcases eq_or_ne v 0 with rfl | hv
      · exact hsparing.zero.2 hclear
      · exact hu.content v hv

/-- The write of no bytes at the start of a file. -/
theorem inodeWriteAt_empty (h : Vol D K dat s) (hp : IsOpen dat s p k) (hk : k ∈ K) :
    NeverShrinks dat s p k [] (inodeWriteAt allocSector s p [] 0).2 ↔
      inodeLength (dat k) = 0 ∧ s.content k = dat k := by
  have hnonneg := (h.file k hk).nonneg
  have hlt : k < (s.setData p (setLength (dat k) 0)).cache.size := h.lt_size hk
  rw [inodeWriteAt_start hp]
  have hdata : (((s.setData p (setLength (dat k) 0)).writeSector k
      (setLength (dat k) 0)).inode p).data = setLength (dat k) 0 := by
    rw [FileSys.inode_congr (FileSys.writeSector_mem ..), FileSys.inode_setData hp.live]
  have hcont := FileSys.writeSector_content hlt (setLength (dat k) 0)
  constructor
  · intro hgood
    have hle := hgood.length
    rw [hdata, inodeLength_setLength (by decide) (by decide)] at hle
    have hzero : inodeLength (dat k) = 0 := by omega
    have hsame := congrFun (hgood.nothing rfl).content k
    rw [hcont, Function.update_self, setLength_zero hzero] at hsame
    exact ⟨hzero, hsame.symm⟩
  · rintro ⟨hzero, hsync⟩
    rw [setLength_zero hzero] at hdata hcont ⊢
    have hself : s.setData p (dat k) = s := by
      rw [← hp.data]
      exact FileSys.setData_self hp.live
    rw [hself] at hdata hcont ⊢
    refine ⟨by rw [hdata], fun _ => ⟨hdata, FileSys.writeSector_mem .., rfl, ?_⟩⟩
    rw [hcont, ← hsync, Function.update_eq_self]

/-- A write keeps the file at least as long as it was, and one of no bytes changes nothing,
if and only if it is not one of no bytes at the start of a file that has some, nor one behind
the end of a file for which sectors are taken or sector 0 is cleared. -/
theorem inodeWriteAt_neverShrinks_iff (h : Vol D K dat s)
    (hp : (s.inode p).denyWriteCnt ≠ 0 ∨ IsOpen dat s p k) (hdata : (s.inode p).data = dat k)
    (hk : k ∈ K) (hk₀ : k ≠ 0 ∨ (0 < o + b.length ∧ (o + b.length : Int) ≤ inodeLength (dat k)))
    (hend : o + b.length < 2 ^ 31) :
    NeverShrinks dat s p k b (inodeWriteAt allocSector s p b o).2 ↔ Harmless dat s p k b o := by
  by_cases hdeny : (s.inode p).denyWriteCnt ≠ 0
  · have hsame : (inodeWriteAt allocSector s p b o).2 = { s with cache := s.cache } := by
      rw [inodeWriteAt, if_pos hdeny]
    rw [hsame]
    refine iff_of_true ⟨le_of_eq (by rw [← hdata]), fun _ => ?_⟩ (.inl hdeny)
    exact NothingChanges.of_cache hdata rfl
  have hp' := hp.resolve_left hdeny
  have hnonneg := (h.file k hk).nonneg
  rcases Int.lt_or_le (inodeLength (dat k)) (o + b.length) with hpast | hin
  · -- Past the end the file gets longer, or nothing happens to it.
    have hk₀ : k ≠ 0 := hk₀.resolve_right (by omega)
    obtain ⟨hcan, hcannot⟩ := inodeWriteAt_past h hp' hk hk₀ hend hpast
    by_cases hext : CanExtend s (dat k) (o + b.length)
    · have hlen := hcan hext
      constructor
      · intro hgood
        by_contra hharm
        have hnil : b = [] := by
          by_contra hne
          exact hharm (.inr (.inl hne))
        have heq := congrArg inodeLength (hgood.nothing hnil).data
        omega
      · intro hharm
        refine ⟨by omega, ?_⟩
        rintro rfl
        exfalso
        simp only [natCast_length_nil, Int.add_zero] at hpast hext
        rcases hharm with hd | hne | ⟨hle, -⟩ | ⟨-, hno, -⟩
        · exact hdeny hd
        · exact hne rfl
        · omega
        · exact hno hext
    · obtain ⟨hlen, hnothing⟩ := hcannot hext
      constructor
      · intro hgood
        by_cases hnil : b = []
        · have hquiet := (hnothing hnil).1 (hgood.nothing hnil)
          subst hnil
          simp only [natCast_length_nil, Int.add_zero] at hpast
          exact .inr (.inr (.inr ⟨hpast, hquiet⟩))
        · exact .inr (.inl hnil)
      · intro hharm
        refine ⟨by omega, ?_⟩
        rintro rfl
        refine (hnothing rfl).2 ?_
        simp only [natCast_length_nil, Int.add_zero] at hpast
        rcases hharm with hd | hne | ⟨hle, -⟩ | ⟨-, hquiet⟩
        · exact absurd hd hdeny
        · exact absurd rfl hne
        · omega
        · exact hquiet
  · by_cases hzero : o + b.length = 0
    · -- No bytes at offset 0: the length becomes 0.
      obtain rfl : o = 0 := by omega
      obtain rfl : b = [] := List.eq_nil_of_length_eq_zero (by omega)
      rw [Int.natCast_zero, inodeWriteAt_empty h hp' hk]
      constructor
      · exact fun hempty => .inr (.inr (.inl ⟨by omega, .inr hempty⟩))
      · rintro (hd | hne | ⟨-, hne | hempty⟩ | ⟨hlt, -⟩)
        · exact absurd hd hdeny
        · exact absurd rfl hne
        · exact absurd rfl hne
        · exact hempty
        · omega
    · obtain ⟨c, heq, hcont⟩ := inodeWriteAt_mapped h hp' hk (by omega) hin
      have hsame : ({ s with cache := c } : FileSys).inode p = s.inode p := rfl
      rw [heq]
      refine iff_of_true ⟨le_of_eq (by rw [hsame, hdata]), fun hnil => ?_⟩ ?_
      · rw [hsame]
        exact NothingChanges.of_cache hdata (hcont hnil)
      · by_cases hnil : b = []
        · subst hnil
          simp only [natCast_length_nil, Int.add_zero] at hin hzero
          exact .inr (.inr (.inl ⟨hin, .inl (by omega)⟩))
        · exact .inr (.inl hnil)

/-- A file of one byte that is open. -/
theorem oneByte_open : ∃ (D K : Set Nat) (dat : Nat → Sector) (s : FileSys) (p k : Nat),
    Reachable s ∧ Vol D K dat s ∧ IsOpen dat s p k ∧ k ∈ K ∧ k ≠ 0 ∧
      inodeLength (dat k) = 1 := by
  obtain ⟨s, k, hreach, hlisted, hlen⟩ := oneByte_file
  obtain ⟨D, K, dat, hs⟩ := hreach.session
  have hreach' : Reachable (s.exec (.seek [97] 0)) := .exec _ hreach plainName_a
  have hname := hlisted
  rw [hs.entries] at hname
  rcases fsutilSeek_spec hs plainName_a 0 with ⟨-, dat', hno⟩ | ⟨f, j, dat', hj, -, -, hf⟩
  · exact absurd hname (hno.absent k)
  · have hm := hf.session.mounted
    have hmem := hm.opened_mem hf.file.opened
    obtain rfl : j = k := hs.names.unique hj hname
    refine ⟨D, K, dat', _, f.inode, j, hreach', hm.vol, hf.file.opened.isOpen, hmem,
      (hs.names.file _ _ hj).1, ?_⟩
    rw [hs.bytes (hs.names.listed _ _ hj), ← (hf.still.sameFile hs.mounted
      (hs.names.listed _ _ hj)).content, length_fileContent] at hlen
    have hnonneg := (hm.vol.file j hmem).nonneg
    omega

/-- A write of one byte over that of the file keeps its length. -/
theorem inodeWriteAt_neverShrinks_one : ∃ (dat : Nat → Sector) (s : FileSys) (p k : Nat),
    Reachable s ∧ Harmless dat s p k [120] 0 ∧
      NeverShrinks dat s p k [120] (inodeWriteAt allocSector s p [120] 0).2 := by
  obtain ⟨D, K, dat, s, p, k, hreach, hvol, hp, hk, hk₀, -⟩ := oneByte_open
  have hharm : Harmless dat s p k [120] 0 := .inr (.inl (by decide))
  exact ⟨dat, s, p, k, hreach, hharm, (inodeWriteAt_neverShrinks_iff hvol (.inr hp) hp.data
    hk (.inl hk₀) (by decide)).2 hharm⟩

/-- A write of nothing at its start makes the file empty. -/
theorem inodeWriteAt_empties : ∃ (D K : Set Nat) (dat : Nat → Sector) (s : FileSys)
    (p k : Nat), Reachable s ∧ Vol D K dat s ∧ IsOpen dat s p k ∧ k ∈ K ∧ k ≠ 0 ∧
      inodeLength (s.inode p).data = 1 ∧
      inodeLength ((inodeWriteAt allocSector s p [] 0).2.inode p).data = 0 ∧
      ¬NeverShrinks dat s p k [] (inodeWriteAt allocSector s p [] 0).2 := by
  obtain ⟨D, K, dat, s, p, k, hreach, hvol, hp, hk, hk₀, hone⟩ := oneByte_open
  have hzero : inodeLength ((inodeWriteAt allocSector s p [] 0).2.inode p).data = 0 := by
    rw [inodeWriteAt_start hp, FileSys.inode_congr (FileSys.writeSector_mem ..),
      FileSys.inode_setData hp.live]
    exact inodeLength_setLength (by decide) (by decide)
  refine ⟨D, K, dat, s, p, k, hreach, hvol, hp, hk, hk₀, by rw [hp.data, hone], hzero, ?_⟩
  intro hgood
  have hle := hgood.length
  omega

end Shrink

end SimpleShell.Fs
