import SimpleShell.Fs.Paths
import SimpleShell.Fs.Readdir
import SimpleShell.Fs.SectorList

/-!
# What `recover (2)` finds behind the files

The bytes between the end of a file and the end of its last sector. The round of
each file puts those that are not NUL at the end of a string whose start it never
wrote, so they come out alone exactly when the memory there happened to begin with
enough zeros.
-/

namespace SimpleShell.Fs

open SimpleShell.Lib

/-! ## The last sector -/

section Sectors

variable {c : BufferCache} {d : Sector}

/-- The doubly indirect block and the second-level one of data sector `251 + j`. -/
theorem leafAt_doubly {n j : Nat} (hmap : Mapped c.content c.size d n) (hj : 251 + j < n)
    (hmax : 251 + j < MAX_SECTORS) :
    doublyIndirectBlock d < c.size ∧
      blockEntry (c.content (doublyIndirectBlock d)) (j / 128) < c.size ∧
      leafAt c.content d (251 + j) =
        blockEntry (c.content (blockEntry (c.content (doublyIndirectBlock d)) (j / 128)))
          (j % 128) := by
  have hlt : 251 + j < 16635 := hmax
  have hmem := leafSlot_mem hj hmax
  have hslot : leafSlot (251 + j) = (124, [j / 128, j % 128]) := by
    rw [leafSlot_doubly (by omega), Nat.add_sub_cancel_left]
  rw [hslot] at hmem
  have hroot : (124, []) ∈ inodeSlots n := prefix_mem_inodeSlots (q := [j / 128, j % 128]) hmem
  have hmid : (124, [j / 128]) ∈ inodeSlots n := prefix_mem_inodeSlots (q := [j % 128]) hmem
  have hval : slotVal c.content d (124, []) = doublyIndirectBlock d := slotVal_nil (by omega)
  have hmid' := slotVal_snoc (j := j / 128) (by omega)
    (by simp [IsIndex, rootLevel]) (hmap.ne _ hroot) (by omega)
  have hlast := slotVal_snoc (j := j % 128) (by omega)
    (by simp [IsIndex, rootLevel]) (hmap.ne _ hmid) (by omega)
  rw [List.nil_append, hval] at hmid'
  rw [List.singleton_append, hmid'] at hlast
  have hroot' := hmap.lt _ hroot
  have hmidlt := hmap.lt _ hmid
  rw [hval] at hroot'
  rw [hmid'] at hmidlt
  exact ⟨hroot', hmidlt, by rw [leafAt, hslot, hlast]⟩

theorem FileOk.indexOnDevice (hok : FileOk c.content c.size d) :
    IndexOnDevice c.content c.size d (numSectors d) := by
  have hmax := hok.sectors_le
  have hmap := hok.mapped
  refine ⟨fun hn => ?_, fun hn => ?_, fun j hj => ?_⟩
  · have hlong : 123 < MAX_SECTORS := by decide
    have hpast : 123 < numSectors d := hn
    have hmem := leafSlot_mem hpast hlong
    rw [leafSlot_indirect (Nat.le_refl _) (by decide)] at hmem
    have hroot : (123, []) ∈ inodeSlots (numSectors d) :=
      prefix_mem_inodeSlots (q := [123 - 123]) hmem
    have hlt := hmap.lt _ hroot
    rwa [slotVal_nil (by omega)] at hlt
  · exact (leafAt_doubly (j := 0) hmap hn (Nat.lt_of_lt_of_le hn hmax)).1
  · exact (leafAt_doubly hmap hj (Nat.lt_of_lt_of_le hj hmax)).2.1

/-- `get_inode_data_sectors` lists the sectors that the bytes of the file are in. -/
theorem getInodeDataSectors_fst (hok : FileOk c.content c.size d) :
    (getInodeDataSectors c d).1 = (List.range (numSectors d)).map (leafAt c.content d) := by
  have hindex := hok.indexOnDevice
  rw [getInodeDataSectors_sectorAt hok.nonneg hindex hok.sectors_le]
  refine List.map_congr_left fun i hi => ?_
  have hi' := List.mem_range.1 hi
  have hmax := Nat.lt_of_lt_of_le hi' hok.sectors_le
  rw [← indexToSector_sectorAt hindex hi' hmax, indexToSector_fst hok.mapped hi' hmax]

end Sectors

/-! ## A string that was never started -/

section Text

variable {pre rest buffer data : List UInt8} {b : UInt8}

theorem cString_append (h : (0 : UInt8) ∉ pre) (rest : List UInt8) :
    cString (pre ++ rest) = pre ++ cString rest := by
  refine List.takeWhile_append_of_pos fun x hx => ?_
  exact decide_eq_true fun h₀ => h (h₀ ▸ hx)

theorem putAtEnd_append (h : (0 : UInt8) ∉ pre) (rest : List UInt8) (b : UInt8) :
    putAtEnd (pre ++ rest) b = pre ++ putAtEnd rest b := by
  rw [putAtEnd, cString_append h, List.length_append, List.set_append_right _ _ (by omega),
    Nat.add_sub_cancel_left]
  rfl

@[simp] theorem length_putAtEnd (buffer : List UInt8) (b : UInt8) :
    (putAtEnd buffer b).length = buffer.length := List.length_set ..

theorem putAtEnd_zero (buffer : List UInt8) : cString (putAtEnd buffer 0) = cString buffer := by
  induction buffer with
  | nil => rfl
  | cons x buffer ih =>
      by_cases hx : x = 0
      · rw [hx]
        rfl
      · have hpre : (0 : UInt8) ∉ [x] := by simpa using Ne.symm hx
        have hput := putAtEnd_append hpre buffer 0
        have hold := cString_append hpre buffer
        have hnew := cString_append hpre (putAtEnd buffer 0)
        rw [List.singleton_append] at hput hold
        rw [hput, hnew, hold, ih]

theorem not_mem_snoc (h : (0 : UInt8) ∉ pre) (hb : b ≠ 0) : (0 : UInt8) ∉ pre ++ [b] := by
  rw [List.mem_append, List.mem_singleton]
  exact fun hor => hor.elim h (Ne.symm hb)

/-- Every byte makes the string longer, until the memory ends. -/
theorem length_putAtEnd_foldl (data : List UInt8) :
    ∀ pre rest : List UInt8, (0 : UInt8) ∉ pre → (∀ b ∈ data, b ≠ 0) →
      data.length ≤ rest.length →
      pre.length + data.length ≤ (cString (data.foldl putAtEnd (pre ++ rest))).length := by
  induction data with
  | nil =>
      intro pre rest hpre _ _
      rw [List.foldl_nil, cString_append hpre, List.length_append]
      exact Nat.le_add_right ..
  | cons b data ih =>
      intro pre rest hpre hdata hlen
      have hb := hdata b List.mem_cons_self
      have hdata' := fun x hx => hdata x (List.mem_cons_of_mem _ hx)
      cases rest with
      | nil => exact absurd hlen (Nat.not_succ_le_zero _)
      | cons x rest =>
          rw [List.foldl_cons, List.length_cons]
          by_cases hx : x = 0
          · subst hx
            have hput : putAtEnd (pre ++ 0 :: rest) b = (pre ++ [b]) ++ rest := by
              rw [putAtEnd_append hpre, List.append_assoc]
              rfl
            have := ih (pre ++ [b]) rest (not_mem_snoc hpre hb) hdata'
              (Nat.le_of_succ_le_succ hlen)
            rw [List.length_append, List.length_singleton] at this
            rw [hput]
            omega
          · have hput : putAtEnd (pre ++ x :: rest) b = (pre ++ [x]) ++ putAtEnd rest b := by
              rw [← putAtEnd_append (not_mem_snoc hpre hx), List.append_assoc,
                List.singleton_append]
            have := ih (pre ++ [x]) (putAtEnd rest b) (not_mem_snoc hpre hx) hdata'
              (by rw [length_putAtEnd]; exact Nat.le_of_succ_le_succ hlen)
            rw [List.length_append, List.length_singleton] at this
            rw [hput]
            omega

theorem cString_foldl_zeros (data : List UInt8) :
    ∀ pre rest : List UInt8, (0 : UInt8) ∉ pre → (∀ b ∈ data, b ≠ 0) →
      cString (data.foldl putAtEnd (pre ++ (List.replicate (data.length + 1) 0 ++ rest))) =
        pre ++ data := by
  induction data with
  | nil =>
      intro pre rest hpre _
      rw [List.foldl_nil, cString_append hpre]
      rfl
  | cons b data ih =>
      intro pre rest hpre hdata
      have hput : putAtEnd (pre ++ (List.replicate ((b :: data).length + 1) 0 ++ rest)) b =
          (pre ++ [b]) ++ (List.replicate (data.length + 1) 0 ++ rest) := by
        rw [putAtEnd_append hpre, List.append_assoc]
        rfl
      rw [List.foldl_cons, hput, ih _ _ (not_mem_snoc hpre (hdata b List.mem_cons_self))
        fun x hx => hdata x (List.mem_cons_of_mem _ hx), List.append_assoc]
      rfl

/-- What comes out is no longer than what went in only if there was nothing before it. -/
theorem zeros_of_length (data : List UInt8) :
    ∀ pre rest : List UInt8, (0 : UInt8) ∉ pre → (∀ b ∈ data, b ≠ 0) →
      data.length < rest.length →
      (cString (data.foldl putAtEnd (pre ++ rest))).length ≤ pre.length + data.length →
      List.replicate (data.length + 1) 0 <+: rest := by
  induction data with
  | nil =>
      intro pre rest hpre _ hlen hout
      cases rest with
      | nil => exact absurd hlen (Nat.lt_irrefl _)
      | cons x rest =>
          by_cases hx : x = 0
          · rw [hx]
            exact ⟨rest, rfl⟩
          · have hcons : cString (x :: rest) = x :: cString rest :=
              List.takeWhile_cons_of_pos (decide_eq_true (p := x ≠ 0) hx)
            rw [List.foldl_nil, cString_append hpre, List.length_append, hcons, List.length_cons,
              List.length_nil] at hout
            omega
  | cons b data ih =>
      intro pre rest hpre hdata hlen hout
      have hb := hdata b List.mem_cons_self
      have hdata' := fun x hx => hdata x (List.mem_cons_of_mem _ hx)
      rw [List.length_cons] at hlen hout
      obtain ⟨x, rest, rfl⟩ : ∃ x rest', rest = x :: rest' :=
        List.exists_cons_of_length_pos (by omega)
      obtain ⟨y, rest, rfl⟩ : ∃ y rest', rest = y :: rest' :=
        List.exists_cons_of_length_pos (by rw [List.length_cons] at hlen; omega)
      rw [List.length_cons, List.length_cons] at hlen
      rw [List.foldl_cons] at hout
      by_cases hx : x = 0
      · subst hx
        have hput : putAtEnd (pre ++ 0 :: y :: rest) b = (pre ++ [b]) ++ y :: rest := by
          rw [putAtEnd_append hpre, List.append_assoc]
          rfl
        rw [hput] at hout
        have hzeros := ih (pre ++ [b]) (y :: rest) (not_mem_snoc hpre hb) hdata'
          (by rw [List.length_cons]; omega)
          (by rw [List.length_append, List.length_singleton]; omega)
        obtain ⟨t, ht⟩ := hzeros
        exact ⟨t, congrArg (List.cons 0) ht⟩
      · -- The byte that was there stays in front, and one more goes in behind it.
        have hpre' := not_mem_snoc hpre hx
        obtain ⟨z, rest', hz, hlen', hput⟩ : ∃ z rest', z ≠ 0 ∧ rest'.length = rest.length ∧
            putAtEnd (pre ++ x :: y :: rest) b = (pre ++ [x] ++ [z]) ++ rest' := by
          have hsplit : pre ++ x :: y :: rest = (pre ++ [x]) ++ y :: rest := by
            rw [List.append_assoc]
            rfl
          rw [hsplit, putAtEnd_append hpre']
          by_cases hy : y = 0
          · refine ⟨b, rest, hb, rfl, ?_⟩
            rw [hy, List.append_assoc (pre ++ [x])]
            rfl
          · refine ⟨y, putAtEnd rest b, hy, length_putAtEnd .., ?_⟩
            have hy' : (0 : UInt8) ∉ [y] := by simpa using Ne.symm hy
            rw [List.append_assoc (pre ++ [x]), ← putAtEnd_append hy']
            rfl
        have hgrow := length_putAtEnd_foldl data _ rest' (not_mem_snoc hpre' hz) hdata' (by omega)
        rw [← hput] at hgrow
        simp only [List.length_append, List.length_singleton] at hgrow
        omega

theorem foldl_nonNul (data : List UInt8) :
    ∀ buffer : List UInt8, data.foldl (fun r b => if b = 0 then r else putAtEnd r b) buffer =
      (data.filter (· ≠ 0)).foldl putAtEnd buffer := by
  induction data with
  | nil => exact fun _ => rfl
  | cons b data ih =>
      intro buffer
      rw [List.foldl_cons, ih]
      by_cases hb : b = 0
      · rw [if_pos hb, List.filter_cons_of_neg (by simpa using hb)]
      · rw [if_neg hb, List.filter_cons_of_pos (by simpa using hb), List.foldl_cons]

theorem resultText_eq_iff (hlen : (data.filter (· ≠ 0)).length < buffer.length) :
    resultText buffer data = data.filter (· ≠ 0) ↔
      List.replicate ((data.filter (· ≠ 0)).length + 1) 0 <+: buffer := by
  rw [resultText, putAtEnd_zero, foldl_nonNul]
  have hdata : ∀ b ∈ data.filter (· ≠ 0), b ≠ 0 := fun b hb => by
    simpa using (List.mem_filter.1 hb).2
  generalize data.filter (· ≠ 0) = data at hlen hdata
  have hnil : (0 : UInt8) ∉ ([] : List UInt8) := List.not_mem_nil
  constructor
  · intro hout
    refine zeros_of_length data [] buffer hnil hdata hlen ?_
    rw [List.nil_append, hout, List.length_nil, Nat.zero_add]
  · rintro ⟨rest, rfl⟩
    exact cString_foldl_zeros data [] rest hnil hdata

end Text

/-! ## The command -/

/-- The last sector of the file in sector `k`, from the end of the file on. -/
def slack (s : FileSys) (k : Nat) : List UInt8 :=
  let len := (s.bytes k).length
  (s.content (leafAt s.content (s.inodeData k) ((len - 1) / BLOCK_SECTOR_SIZE))).toList.drop
    (len % BLOCK_SECTOR_SIZE)

/-- The host file of one entry: `text` makes it of the bytes past the end. -/
def slackFile (text : CString → List UInt8 → CString) (s : FileSys) (e : CString × Nat) :
    List (CString × CString) :=
  if (s.bytes e.2).length % BLOCK_SECTOR_SIZE = 0 then []
  else [(recovered2Name e.1, text e.1 (slack s e.2))]

section Recover

variable {D K : Set Nat} {dat dat' : Nat → Sector} {s s' : FileSys} {c k i : Nat}
  {name : CString} {left : CString → Leftover}

theorem Still.leafAt (h : Still s dat s' dat') (hm : Mounted D K dat s)
    (hm' : Mounted D K dat' s') (hk : k ∈ K) (hi : i < numSectors (dat' k)) :
    leafAt s'.content (dat' k) i = SimpleShell.Fs.leafAt s.content (dat k) i := by
  have hok := hm'.vol.file k hk
  have hmem := leafSlot_mem hi (Nat.lt_of_lt_of_le hi hok.sectors_le)
  have hne := hok.mapped.ne _ hmem
  rw [h.disk.content] at hne
  rw [SimpleShell.Fs.leafAt, SimpleShell.Fs.leafAt, h.disk.content]
  exact h.reverts.slotVal_eq hm hk hne

/-- The index of the last sector. -/
theorem last_sector {d : Sector} {len : Nat} (hlen : (inodeLength d).toNat = len) (hpos : 0 < len) :
    numSectors d - 1 = (len - 1) / BLOCK_SECTOR_SIZE ∧ numSectors d - 1 < numSectors d := by
  simp only [numSectors, bytesToSectors, BLOCK_SECTOR_SIZE, hlen]
  omega

theorem Still.slackFile (h : Still s dat s' dat') (hm : Mounted D K dat s)
    (hm' : Mounted D K dat' s') (hk : k ∈ K) (text : CString → List UInt8 → CString) :
    slackFile text s' (name, k) = SimpleShell.Fs.slackFile text s (name, k) := by
  have hbytes : s'.bytes k = s.bytes k := by
    rw [hm'.bytes hk, hm.bytes hk]
    exact (h.sameFile hm hk).content
  unfold SimpleShell.Fs.slackFile
  rw [hbytes]
  split
  · rfl
  · next hlen =>
      have hpos : 0 < (s.bytes k).length := by
        rcases Nat.eq_zero_or_pos (s.bytes k).length with h₀ | hpos
        · rw [h₀] at hlen
          exact absurd (Nat.zero_mod _) hlen
        · exact hpos
      have hlen' : (inodeLength (dat' k)).toNat = (s.bytes k).length := by
        rw [← hbytes, hm'.bytes hk, length_fileContent]
      obtain ⟨hlast, hlt⟩ := last_sector hlen' hpos
      rw [hlast] at hlt
      have hleaf := h.leafAt hm hm' hk hlt
      rw [slack, slack, hbytes, hm'.inodeData hk, hm.inodeData hk, hleaf, h.disk.content]

theorem fsutilSize_again (hs : Session D K dat s c) (hname : PlainName name)
    (hlisted : (name, k) ∈ listing (rootBytes s.content dat)) :
    let o := filesysOpen s name
    let z := fsutilSize o.2 name
    ∃ f dat', o.1 = some (fileOpen f.inode) ∧
      z.1 = (fileContent s.content (dat k)).length ∧ FileUsed D K dat s c name f k dat' z.2 := by
  obtain ⟨f, dat', ho, hr, hf⟩ := openFile_again hs hname hlisted
  generalize filesysOpen s name = o at *
  dsimp only
  unfold fsutilSize
  generalize openFile o.2 name = r at *
  have hlen := fileLength_eq hf.session.mounted hf.file.opened
  rw [hf.content hs] at hlen
  dsimp only
  rw [hr]
  exact ⟨fileSeek f f.pos, dat', ho, hlen, hf.setFile rfl hf.file.allowed⟩

theorem recoverSlack_spec (hs : Session D K dat s c) (hname : PlainName name)
    (hlisted : (name, k) ∈ listing (rootBytes s.content dat)) (out : List (CString × CString)) :
    let r := recoverSlack left out name s
    r.1 = out ++ slackFile (fun n => resultText (left n).bytes) s (name, k) ∧
      ∃ dat', Quiet D K dat s c dat' r.2 := by
  have hk := hs.names.listed _ _ hlisted
  obtain ⟨f, dat', ho, hz, hf⟩ := fsutilSize_again hs hname hlisted
  unfold recoverSlack
  generalize filesysOpen s name = o at *
  dsimp only at hz hf ⊢
  generalize fsutilSize o.2 name = z at *
  have hlen : z.1 = (s.bytes k).length := by rw [hz, hs.bytes hk]
  unfold slackFile
  by_cases hmod : (s.bytes k).length % BLOCK_SECTOR_SIZE = 0
  · have hskip : z.1 ≤ 0 ∨ z.1 % (BLOCK_SECTOR_SIZE : Int) = 0 := by
      right
      rw [hlen]
      exact_mod_cast hmod
    rw [if_pos hskip, if_pos hmod, List.append_nil]
    exact ⟨rfl, dat', hf.quiet⟩
  · have hpos : 0 < (s.bytes k).length := by
      rcases Nat.eq_zero_or_pos (s.bytes k).length with h₀ | hpos
      · rw [h₀] at hmod
        exact absurd (Nat.zero_mod _) hmod
      · exact hpos
    have hkeep : ¬ (z.1 ≤ 0 ∨ z.1 % (BLOCK_SECTOR_SIZE : Int) = 0) := by
      rw [hlen]
      rintro (hle | hzero)
      · omega
      · exact hmod (by exact_mod_cast hzero)
    have htoNat : (z.1 % (BLOCK_SECTOR_SIZE : Int)).toNat =
        (s.bytes k).length % BLOCK_SECTOR_SIZE := by
      rw [hlen]
      simp only [BLOCK_SECTOR_SIZE]
      omega
    rw [if_neg hkeep, if_neg hmod, ho]
    dsimp only
    have hm := hs.mounted
    have hm' := hf.session.mounted
    have hdata : (z.2.inode (fileOpen f.inode).inode).data = dat' k := hf.file.opened.isOpen.data
    have hok := hm'.vol.file k hk
    have hlen' : (inodeLength (dat' k)).toNat = (s.bytes k).length := by
      rw [hs.bytes hk, ← (hf.still.sameFile hm hk).content, length_fileContent]
    obtain ⟨hlast, hlt⟩ := last_sector hlen' hpos
    rw [hdata]
    have hsectors := getInodeDataSectors_fst (c := z.2.cache) hok
    obtain ⟨hsize, hcont⟩ := getInodeDataSectors_reads z.2.cache (dat' k)
    generalize getInodeDataSectors z.2.cache (dat' k) = sectors at *
    have hget : sectors.1.getD (numSectors (dat' k) - 1) 0 =
        leafAt s.content (dat k) (((s.bytes k).length - 1) / BLOCK_SECTOR_SIZE) := by
      rw [hsectors, List.getD_eq_getElem _ _ (by
        rw [List.length_map, List.length_range]
        exact hlt), List.getElem_map, List.getElem_range]
      rw [hlast] at hlt ⊢
      exact hf.still.leafAt hm hm' hk hlt
    have hread : (sectors.2.read (leafAt s.content (dat k)
        (((s.bytes k).length - 1) / BLOCK_SECTOR_SIZE))).1 =
        s.content (leafAt s.content (dat k) (((s.bytes k).length - 1) / BLOCK_SECTOR_SIZE)) := by
      have hmem := leafSlot_mem hlt (Nat.lt_of_lt_of_le hlt hok.sectors_le)
      have hbound : leafAt z.2.content (dat' k) (numSectors (dat' k) - 1) < z.2.cache.size :=
        hok.mapped.lt _ hmem
      rw [hlast] at hbound hlt
      rw [hf.still.leafAt hm hm' hk hlt, ← hsize] at hbound
      rw [BufferCache.read_fst hbound, hcont]
      exact congrFun hf.still.disk.content _
    rw [hget]
    refine ⟨?_, dat', ?_⟩
    · rw [hread, htoNat, slack, hm.inodeData hk]
    · have hro := readOnly_cache z.2 (c := (sectors.2.read (leafAt s.content (dat k)
        (((s.bytes k).length - 1) / BLOCK_SECTOR_SIZE))).2)
        ((BufferCache.read_size ..).trans hsize) ((BufferCache.read_content ..).trans hcont)
      exact (hf.readOnly hro).quiet

theorem recover2_spec (hs : Session D K dat s 0) :
    (recover2 left s).1 = s.entries.flatMap (slackFile (fun n => resultText (left n).bytes) s) ∧
      ∃ dat', Quiet D K dat s 0 dat' (recover2 left s).2 := by
  obtain ⟨file, hfile⟩ : ∃ file, file = slackFile (fun n => resultText (left n).bytes) s := ⟨_, rfl⟩
  have hrule := @withRootNames_each D K dat s _ (recoverSlack left)
    (fun rest out _ _ => out ++ rest.flatMap file =
      (listing (rootBytes s.content dat)).flatMap file) [] hs
    (fun name k rest out dat₁ s₁ hs₁ hstill hk hP => by
      have hk₁ := hk
      rw [← hstill.rootBytes hs] at hk₁
      obtain ⟨hout, dat₂, hq⟩ :=
        recoverSlack_spec hs₁ (hs.names.plain _ _ hk) hk₁ out
      refine ⟨dat₂, hq, ?_⟩
      rw [hout, hstill.slackFile hs.mounted hs₁.mounted (hs.names.listed _ _ hk), ← hfile, ← hP,
        List.flatMap_cons, List.append_assoc]) rfl
  obtain ⟨hout, hquiet⟩ := hrule
  rw [List.flatMap_nil, List.append_nil] at hout
  rw [hs.entries, ← hfile]
  exact ⟨hout, hquiet⟩

theorem recovered2Name_inj {m n : CString} (h : recovered2Name m = recovered2Name n) : m = n :=
  List.append_cancel_left (List.append_cancel_right h)

/-- The one host file of a name. -/
theorem recover2_text (hs : Session D K dat s 0) (hk : (name, k) ∈ s.entries)
    (hlen : (s.bytes k).length % BLOCK_SECTOR_SIZE ≠ 0) (text : CString) :
    (recovered2Name name, text) ∈ (recover2 left s).1 ↔
      text = resultText (left name).bytes (slack s k) := by
  rw [(recover2_spec hs).1, List.mem_flatMap]
  constructor
  · intro ⟨⟨n, j⟩, hj, hmem⟩
    unfold slackFile at hmem
    split at hmem
    · cases hmem
    · obtain ⟨hname, htext⟩ := Prod.mk.inj (List.mem_singleton.1 hmem)
      obtain rfl := recovered2Name_inj hname
      rw [hs.entries] at hj hk
      obtain rfl := hs.names.unique hj hk
      exact htext
  · intro htext
    refine ⟨(name, k), hk, ?_⟩
    unfold slackFile
    rw [if_neg hlen, htext]
    exact List.mem_singleton_self _

theorem length_slack (s : FileSys) (k : Nat) :
    (slack s k).length = BLOCK_SECTOR_SIZE - (s.bytes k).length % BLOCK_SECTOR_SIZE := by
  rw [slack, List.length_drop, ByteBlock.length_toList]

/-- A file system between two commands. -/
def AtRest (s : FileSys) : Prop := ∃ D K dat, Session D K dat s 0

/-- For a file that does not fill its last sector, `recover (2)` writes exactly the bytes past
the end that are not NUL if and only if the buffer began with more NULs than there are such
bytes. -/
theorem recover2_exact_iff (h : AtRest s) (left : CString → Leftover) {name : CString} {k : Nat}
    (hk : (name, k) ∈ s.entries) (hlen : (s.bytes k).length % BLOCK_SECTOR_SIZE ≠ 0) :
    (∀ text, (recovered2Name name, text) ∈ (recover2 left s).1 ↔
        text = (slack s k).filter (· ≠ 0)) ↔
      List.replicate (((slack s k).filter (· ≠ 0)).length + 1) 0 <+: (left name).bytes := by
  obtain ⟨D, K, dat, hs⟩ := h
  have hshort : ((slack s k).filter (· ≠ 0)).length < (left name).bytes.length := by
    have hle := List.length_filter_le (· ≠ 0) (slack s k)
    have hwhole := (left name).whole
    rw [length_slack] at hle
    generalize (s.bytes k).length % BLOCK_SECTOR_SIZE = r at hlen hle
    simp only [BLOCK_SECTOR_SIZE] at hle hwhole
    omega
  rw [← resultText_eq_iff hshort]
  constructor
  · intro hall
    exact (recover2_text hs hk hlen _).1 ((hall _).2 rfl) |>.symm
  · intro heq text
    rw [recover2_text hs hk hlen, heq]

/-- A cleared buffer, but for its first byte. -/
def Leftover.startingWith (b : UInt8) : Leftover where
  bytes := b :: List.replicate 511 0
  whole := by
    rw [List.length_cons, List.length_replicate]

/-- A sector of zeros but for an `x` in its second byte. -/
def secondByte : Sector := .ofFn fun i => if i = 1 then 120 else 0

theorem secondByte_drop : (secondByte.toList.drop 1).filter (· ≠ 0) = [120] := by
  have htail : ((List.range' 2 510).map secondByte.byte).filter (· ≠ 0) = [] := by
    rw [List.filter_eq_nil_iff]
    intro b hb
    obtain ⟨i, hi, rfl⟩ := List.mem_map.1 hb
    have hlt := List.mem_range'_1.1 hi
    simp [secondByte, show i ≠ 1 by omega]
  have hdrop : ∀ n, ((List.range (n + 2)).map secondByte.byte).drop 1 =
      secondByte.byte 1 :: (List.range' 2 n).map secondByte.byte := fun n => by
    rw [List.range_eq_range', List.range'_succ, List.range'_succ, List.map_cons, List.map_cons]
    rfl
  have hlist : secondByte.toList.drop 1 =
      secondByte.byte 1 :: (List.range' 2 510).map secondByte.byte := hdrop 510
  have hone : secondByte.byte 1 = 120 := by simp [secondByte, BLOCK_SECTOR_SIZE]
  rw [hlist, hone, List.filter_cons_of_pos (by decide), htail]

/-- A disk on which something is hidden behind the one byte of the file `a`. -/
theorem hidden_file : ∃ s k, AtRest s ∧ ([97], k) ∈ s.entries ∧ (s.bytes k).length = 1 ∧
    slack s k = secondByte.toList.drop 1 := by
  obtain ⟨s, k, hreach, hentries, hlen⟩ := oneByte_entries
  obtain ⟨D, K, dat, hs⟩ := hreach.session
  have hk : ([97], k) ∈ listing (rootBytes s.content dat) := by
    rw [← hs.entries, hentries]
    exact List.mem_cons_self
  rcases openFile_spec hs plainName_a with ⟨-, dat', hno⟩ | ⟨f, k', dat', hk', -, hf⟩
  · exact absurd hk (hno.absent k)
  · obtain rfl := hs.names.unique hk' hk
    generalize (openFile s [97]).2 = s₁ at hf
    have hs₁ := hf.session
    have hkK := hs₁.names.listed _ _ hf.file.listed
    obtain ⟨hk₀, hk₁, -⟩ := hs₁.names.file _ _ hf.file.listed
    have hbytes₁ : (s₁.bytes k').length = 1 := by
      rw [hs₁.bytes hkK, (hf.still.sameFile hs.mounted hkK).content, ← hs.bytes hkK]
      exact hlen
    have hfile := hs₁.mounted.vol.file k' hkK
    have hone : (inodeLength (dat' k')).toNat = 1 := by
      rw [← length_fileContent s₁.content, ← hs₁.bytes hkK]
      exact hbytes₁
    have hnum : 0 < numSectors (dat' k') := lt_sectors (i := 0) (by omega)
    have hleaf := hfile.mapped.lt _ (leafSlot_mem hnum (Nat.lt_of_lt_of_le hnum hfile.sectors_le))
    let c := s₁.cache.write (leafAt s₁.content (dat' k') 0) secondByte
    have hcontent : c.content =
        Function.update s₁.content (leafAt s₁.content (dat' k') 0) secondByte :=
      BufferCache.write_content hleaf _
    have hdata : DataWrite s₁.content c.content (dat' k') := by
      rw [hcontent]
      exact dataWrite_update hnum _
    have hw : Wrote D K dat' s₁ f.inode k' (dat' k') { s₁ with cache := c } :=
      (Wrote.refl hs₁.mounted.vol hf.file.opened.isOpen).dataWrite hkK hk₀
        (BufferCache.write_size ..) hdata
    obtain ⟨hs₂, hfile₂, -⟩ := hs₁.wrote hf.file hw
    rw [Function.update_eq_self] at hs₂ hfile₂
    have hlen₂ : (({ s₁ with cache := c } : FileSys).bytes k').length = 1 := by
      rw [hs₂.bytes hkK, length_fileContent]
      exact hone
    refine ⟨_, k', ⟨D, K, dat', hs₂⟩, by rw [hs₂.entries]; exact hfile₂.listed, hlen₂, ?_⟩
    unfold slack
    rw [hlen₂, hs₂.mounted.inodeData hkK]
    show (c.content (leafAt c.content (dat' k') 0)).toList.drop 1 = _
    rw [hfile.leafAt_dataWrite hdata hnum, hcontent, Function.update_self]

/-- An `x` behind the end of `a`, and a buffer of zeros to begin with. -/
theorem recover2_exact_iff_hidden : ∃ s k, AtRest s ∧ ([97], k) ∈ s.entries ∧
    (slack s k).filter (· ≠ 0) = [120] ∧
    ∀ text, (recovered2Name [97], text) ∈ (recover2 (fun _ => .startingWith 0) s).1 ↔
      text = (slack s k).filter (· ≠ 0) := by
  obtain ⟨s, k, hrest, hk, hlen, hslack⟩ := hidden_file
  have hmod : (s.bytes k).length % BLOCK_SECTOR_SIZE ≠ 0 := by
    rw [hlen]
    decide
  have hx : (slack s k).filter (· ≠ 0) = [120] := by
    rw [hslack]
    exact secondByte_drop
  refine ⟨s, k, hrest, hk, hx, (recover2_exact_iff hrest _ hk hmod).2 ?_⟩
  rw [hx]
  exact ⟨List.replicate 510 0, rfl⟩

/-- Memory that begins with an `x` shows up in the host file. -/
theorem recover2_leftover : ∃ s k, Reachable s ∧ ([97], k) ∈ s.entries ∧
    (s.bytes k).length % BLOCK_SECTOR_SIZE ≠ 0 ∧
      ¬ ∀ text, (recovered2Name [97], text) ∈ (recover2 (fun _ => .startingWith 120) s).1 ↔
        text = (slack s k).filter (· ≠ 0) := by
  obtain ⟨s, k, hreach, hk, hlen⟩ := oneByte_file
  have hmod : (s.bytes k).length % BLOCK_SECTOR_SIZE ≠ 0 := by
    rw [hlen]
    decide
  refine ⟨s, k, hreach, hk, hmod, fun hall => ?_⟩
  obtain ⟨D, K, dat, hs⟩ := hreach.session
  have heq := (recover2_text hs hk hmod _).1 ((hall _).2 rfl)
  have hshort : ((slack s k).filter (· ≠ 0)).length <
      (Leftover.startingWith 120).bytes.length := by
    have hle := List.length_filter_le (· ≠ 0) (slack s k)
    rw [length_slack, hlen] at hle
    have hwhole := (Leftover.startingWith 120).whole
    simp only [BLOCK_SECTOR_SIZE] at hle hwhole
    omega
  obtain ⟨rest, hrest⟩ := (resultText_eq_iff hshort).1 heq.symm
  rw [List.replicate_succ, List.cons_append] at hrest
  have hhead : (0 : UInt8) = 120 := (List.cons.inj hrest).1
  exact absurd hhead (by decide)

end Recover

end SimpleShell.Fs
