import SimpleShell.Fs.BlockMap

/-!
# Reading and writing the bytes of an inode

What the loops of `inode_read_at` and `inode_write_at` do to a file whose
sectors are mapped. `fileByte` is byte `i` of the file, found through the index
blocks; the loops cut a request at sector ends and go through a bounce buffer
for the ragged ones, and the lemmas here say that none of it shows: a read
returns the bytes, and a write changes the bytes it covers and no others, the
ones past the end of the file included.
-/

namespace SimpleShell.Fs

open SimpleShell.Lib

def fileByte (f : Nat → Sector) (d : Sector) (i : Nat) : UInt8 :=
  (f (leafAt f d (i / BLOCK_SECTOR_SIZE))).byte (i % BLOCK_SECTOR_SIZE)

/-! ## Finding the sector -/

@[simp] theorem indexToSector_content (c : BufferCache) (d : Sector) (i : Nat) :
    (indexToSector c d i).2.content = c.content := by
  unfold indexToSector
  split
  · rfl
  · split
    · simp
    · split <;> simp

@[simp] theorem indexToSector_size (c : BufferCache) (d : Sector) (i : Nat) :
    (indexToSector c d i).2.size = c.size := by
  unfold indexToSector
  split
  · rfl
  · split
    · simp
    · split <;> simp

@[simp] theorem byteToSector_content (c : BufferCache) (d : Sector) (pos : Int) :
    (byteToSector c d pos).2.content = c.content := by
  unfold byteToSector
  split <;> simp

@[simp] theorem byteToSector_size (c : BufferCache) (d : Sector) (pos : Int) :
    (byteToSector c d pos).2.size = c.size := by
  unfold byteToSector
  split <;> simp

theorem leafSlot_direct {i : Nat} (h : i < 123) : leafSlot i = (i, []) :=
  if_pos h

theorem leafSlot_indirect {i : Nat} (h : 123 ≤ i) (h' : i < 251) :
    leafSlot i = (123, [i - 123]) := by
  rw [leafSlot, if_neg (by omega), if_pos h']
  simp [pathTo]

theorem leafSlot_doubly {i : Nat} (h : 251 ≤ i) :
    leafSlot i = (124, [(i - 251) / 128, (i - 251) % 128]) := by
  rw [leafSlot, if_neg (by omega), if_neg (by omega)]
  simp [pathTo]

theorem indexToSector_fst {c : BufferCache} {d : Sector} {n i : Nat}
    (hmap : Mapped c.content c.size d n) (hi : i < n) (hmax : i < MAX_SECTORS) :
    (indexToSector c d i).1 = leafAt c.content d i := by
  have hmem := leafSlot_mem hi hmax
  -- An index block that the path goes through is read from where it is mapped.
  have hread : ∀ {a : Slot} {c' : BufferCache}, a ∈ inodeSlots n →
      c'.size = c.size → c'.content = c.content →
        (c'.read (slotVal c.content d a)).1 =
          c.content (slotVal c.content d a) := by
    intro a c' ha hsize hcont
    have hlt := hmap.lt a ha
    rw [BufferCache.read_fst (by omega), hcont]
  unfold indexToSector leafAt
  simp only [DIRECT_BLOCKS_COUNT, INDIRECT_BLOCKS_PER_SECTOR]
  split
  · next h =>
      rw [leafSlot_direct h, slotVal_nil (by omega)]
      rfl
  · next h =>
      split
      · next h' =>
          rw [leafSlot_indirect (by omega) h'] at hmem ⊢
          have hroot : (123, []) ∈ inodeSlots n :=
            prefix_mem_inodeSlots (q := [i - 123]) hmem
          have hval : slotVal c.content d (123, []) = indirectBlock d :=
            slotVal_nil (by omega)
          have hlast := slotVal_snoc (j := i - 123) (by omega)
            (by simp [IsIndex, rootLevel]) (hmap.ne _ hroot) (by omega)
          rw [List.nil_append] at hlast
          rw [hlast, ← hread hroot rfl rfl, hval]
      · next h' =>
          have hlt : i < 16635 := hmax
          rw [leafSlot_doubly (by omega)] at hmem ⊢
          have hroot : (124, []) ∈ inodeSlots n :=
            prefix_mem_inodeSlots (q := [(i - 251) / 128, (i - 251) % 128]) hmem
          have hmid : (124, [(i - 251) / 128]) ∈ inodeSlots n :=
            prefix_mem_inodeSlots (q := [(i - 251) % 128]) hmem
          have hval : slotVal c.content d (124, []) = doublyIndirectBlock d :=
            slotVal_nil (by omega)
          have hmid' := slotVal_snoc (j := (i - 251) / 128) (by omega)
            (by simp [IsIndex, rootLevel]) (hmap.ne _ hroot) (by omega)
          have hlast := slotVal_snoc (j := (i - 251) % 128) (by omega)
            (by simp [IsIndex, rootLevel]) (hmap.ne _ hmid) (by omega)
          rw [List.nil_append] at hmid'
          rw [List.singleton_append] at hlast
          rw [hlast, ← hread hmid (c.read_size _) (c.read_content _), hmid',
            ← hread hroot rfl rfl, hval]

/-- How many data sectors the length of `d` calls for. -/
abbrev numSectors (d : Sector) : Nat := bytesToSectors (inodeLength d)

/-- A file that the loops can work on: its length is not negative and its
sectors are mapped. -/
structure FileOk (f : Nat → Sector) (size : Nat) (d : Sector) : Prop where
  nonneg : 0 ≤ inodeLength d
  max : inodeLength d ≤ MAX_LENGTH
  mapped : Mapped f size d (numSectors d)

theorem FileOk.sectors_le {f : Nat → Sector} {size : Nat} {d : Sector}
    (h : FileOk f size d) : numSectors d ≤ MAX_SECTORS := by
  have h₀ := h.nonneg
  have h₁ := h.max
  simp only [bytesToSectors, MAX_LENGTH, MAX_SECTORS, BLOCK_SECTOR_SIZE] at *
  omega

theorem lt_sectors {len : Int} {i : Nat} (h : (i : Int) < len) :
    i / BLOCK_SECTOR_SIZE < bytesToSectors len := by
  simp only [bytesToSectors, BLOCK_SECTOR_SIZE]
  omega

theorem byteToSector_fst {c : BufferCache} {d : Sector} {i : Nat}
    (h : FileOk c.content c.size d) (hi : (i : Int) < inodeLength d) :
    (byteToSector c d i).1 = leafAt c.content d (i / BLOCK_SECTOR_SIZE) := by
  have hlt := lt_sectors hi
  have hdiv : ((i : Int) / BLOCK_SECTOR_SIZE).toNat = i / BLOCK_SECTOR_SIZE := by
    simp only [BLOCK_SECTOR_SIZE]
    omega
  rw [byteToSector, if_pos ⟨Int.natCast_nonneg i, hi⟩, hdiv]
  exact indexToSector_fst h.mapped hlt (Nat.lt_of_lt_of_le hlt h.sectors_le)

/-! ## Chunks -/

/-- One round takes what is left of the request, of the file or of the sector,
whichever is least. -/
theorem chunkSize_spec {d : Sector} {size : Int} {o : Nat} (hsize : 0 < size)
    (ho : (o : Int) < inodeLength d) :
    ∃ n : Nat, chunkSize d size o = n ∧ 0 < n ∧ (n : Int) ≤ size ∧
      (o + n : Int) ≤ inodeLength d ∧ o % BLOCK_SECTOR_SIZE + n ≤ BLOCK_SECTOR_SIZE ∧
      ((n : Int) = size ∨ (o + n : Int) = inodeLength d ∨
        o % BLOCK_SECTOR_SIZE + n = BLOCK_SECTOR_SIZE) := by
  have hmod : (o : Int).tmod BLOCK_SECTOR_SIZE = (o % BLOCK_SECTOR_SIZE : Nat) := by
    rw [Int.tmod_eq_emod_of_nonneg (Int.natCast_nonneg o)]
    rfl
  have hlt : o % BLOCK_SECTOR_SIZE < BLOCK_SECTOR_SIZE := Nat.mod_lt _ (by decide)
  refine ⟨(chunkSize d size o).toNat, ?_⟩
  unfold chunkSize
  simp only [hmod]
  simp only [BLOCK_SECTOR_SIZE] at *
  split <;> split <;> omega

theorem chunkSize_nonpos {d : Sector} {size : Int} {o : Nat}
    (ho : inodeLength d ≤ o) : chunkSize d size o ≤ 0 := by
  have hmod : (o : Int).tmod BLOCK_SECTOR_SIZE = (o % BLOCK_SECTOR_SIZE : Nat) := by
    rw [Int.tmod_eq_emod_of_nonneg (Int.natCast_nonneg o)]
    rfl
  have hlt : o % BLOCK_SECTOR_SIZE < BLOCK_SECTOR_SIZE := Nat.mod_lt _ (by decide)
  unfold chunkSize
  simp only [hmod]
  simp only [BLOCK_SECTOR_SIZE] at *
  split <;> split <;> omega

/-! ## Reading -/

/-- `n` bytes of the file from `o` on. -/
def fileBytes (f : Nat → Sector) (d : Sector) (o n : Nat) : List UInt8 :=
  (List.range n).map fun k => fileByte f d (o + k)

@[simp] theorem length_fileBytes (f : Nat → Sector) (d : Sector) (o n : Nat) :
    (fileBytes f d o n).length = n := by simp [fileBytes]

theorem fileBytes_add (f : Nat → Sector) (d : Sector) (o m n : Nat) :
    fileBytes f d o (m + n) = fileBytes f d o m ++ fileBytes f d (o + m) n := by
  simp only [fileBytes, List.range_add, List.map_append, List.map_map]
  congr 2
  funext k
  simp [Nat.add_assoc]

/-- A piece that stays in one sector is a piece of that sector. -/
theorem fileBytes_chunk {f : Nat → Sector} {d : Sector} {o n : Nat}
    (h : o % BLOCK_SECTOR_SIZE + n ≤ BLOCK_SECTOR_SIZE) :
    fileBytes f d o n = (List.range n).map fun k =>
      (f (leafAt f d (o / BLOCK_SECTOR_SIZE))).byte (o % BLOCK_SECTOR_SIZE + k) := by
  refine List.map_congr_left fun k hk => ?_
  have hk := List.mem_range.1 hk
  have hdiv : (o + k) / BLOCK_SECTOR_SIZE = o / BLOCK_SECTOR_SIZE := by
    simp only [BLOCK_SECTOR_SIZE] at *; omega
  have hmod : (o + k) % BLOCK_SECTOR_SIZE = o % BLOCK_SECTOR_SIZE + k := by
    simp only [BLOCK_SECTOR_SIZE] at *; omega
  rw [fileByte, hdiv, hmod]

@[simp] theorem inodeReadLoop_content (stray : Int → UInt8) (d : Sector) (n : Nat)
    (c : BufferCache) (size offset : Int) :
    (inodeReadLoop stray d n c size offset).2.content = c.content := by
  induction n generalizing c size offset with
  | zero => rfl
  | succ n ih =>
      rw [inodeReadLoop]
      split
      · simp only []
        split
        · simp
        · simp [ih]
      · rfl

@[simp] theorem inodeReadLoop_size (stray : Int → UInt8) (d : Sector) (n : Nat)
    (c : BufferCache) (size offset : Int) :
    (inodeReadLoop stray d n c size offset).2.size = c.size := by
  induction n generalizing c size offset with
  | zero => rfl
  | succ n ih =>
      rw [inodeReadLoop]
      split
      · simp only []
        split
        · simp
        · simp [ih]
      · rfl

@[simp] theorem inodeReadAt_content (stray : Int → UInt8) (c : BufferCache)
    (d : Sector) (size offset : Int) :
    (inodeReadAt stray c d size offset).2.content = c.content :=
  inodeReadLoop_content ..

@[simp] theorem inodeReadAt_size (stray : Int → UInt8) (c : BufferCache)
    (d : Sector) (size offset : Int) :
    (inodeReadAt stray c d size offset).2.size = c.size :=
  inodeReadLoop_size ..

theorem toNat_min_sub {a b : Int} {m : Nat} (ha : m ≤ a) (hb : m ≤ b) :
    (min a b).toNat = m + (min (a - m) (b - m)).toNat := by
  omega

theorem inodeReadLoop_fst {stray : Int → UInt8} {d : Sector} {n : Nat} :
    ∀ {c : BufferCache} {size : Int} {o : Nat}, FileOk c.content c.size d →
      size.toNat ≤ n →
        (inodeReadLoop stray d n c size o).1 =
          fileBytes c.content d o (min size (inodeLength d - o)).toNat := by
  induction n with
  | zero =>
      intro c size o _ hn
      have hlen : (min size (inodeLength d - o)).toNat = 0 := by omega
      rw [hlen]
      rfl
  | succ n ih =>
      intro c size o hok hn
      rw [inodeReadLoop]
      split
      · next hsize =>
          rcases Int.lt_or_le o (inodeLength d) with ho | ho
          · obtain ⟨m, hm, hpos, hle, hlen, hsec, -⟩ := chunkSize_spec hsize ho
            simp only [hm]
            rw [if_neg (by omega)]
            -- The piece this round reads, by either path.
            have hb : ∀ c' : BufferCache, c'.size = c.size →
                c'.content = c.content →
                (c'.read (byteToSector c d o).1).1 =
                  c.content (leafAt c.content d (o / BLOCK_SECTOR_SIZE)) := by
              intro c' hs hc
              have hlt := lt_sectors ho
              have hmem := leafSlot_mem hlt
                (Nat.lt_of_lt_of_le hlt hok.sectors_le)
              rw [byteToSector_fst hok ho, BufferCache.read_fst
                (by rw [hs]; exact hok.mapped.lt _ hmem), hc]
            have hmod : (o : Int).tmod BLOCK_SECTOR_SIZE =
                (o % BLOCK_SECTOR_SIZE : Nat) := by
              rw [Int.tmod_eq_emod_of_nonneg (Int.natCast_nonneg o)]
              rfl
            have hnext : (o : Int) + m = ((o + m : Nat) : Int) := by omega
            rw [hb _ (by simp) (by simp), hmod, hnext,
              ih (by simpa using hok) (by omega)]
            have hsplit : (min size (inodeLength d - o)).toNat =
                m + (min (size - m) (inodeLength d - (o + m : Nat))).toNat := by
              rw [Int.natCast_add, ← Int.sub_sub]
              exact toNat_min_sub hle (by omega)
            rw [hsplit, fileBytes_add, fileBytes_chunk hsec]
            simp only [BufferCache.read_content, byteToSector_content,
              Int.toNat_natCast]
            rw [List.append_left_inj]
            split
            · next hfull =>
                have h0 : o % BLOCK_SECTOR_SIZE = 0 := by exact_mod_cast hfull.1
                have hm : m = BLOCK_SECTOR_SIZE := by exact_mod_cast hfull.2
                rw [h0, hm]
                simp [ByteBlock.toList]
            · rw [ByteBlock.load_eq hsec]
          · have hlen : (min size (inodeLength d - o)).toNat = 0 := by omega
            simp only []
            rw [if_pos (chunkSize_nonpos ho), hlen]
            rfl
      · next hsize =>
          have hlen : (min size (inodeLength d - o)).toNat = 0 := by omega
          rw [hlen]
          rfl

/-- A read returns the bytes of the file from `o` on, as many as there are. -/
theorem inodeReadAt_fst {stray : Int → UInt8} {c : BufferCache} {d : Sector}
    (hok : FileOk c.content c.size d) (size : Int) (o : Nat) :
    (inodeReadAt stray c d size o).1 =
      fileBytes c.content d o (min size (inodeLength d - o)).toNat :=
  inodeReadLoop_fst hok (Nat.le_refl _)

/-! ## Writing -/

section DataWrite

variable {f f' : Nat → Sector} {d : Sector} {size : Nat}

/-- Only data sectors of `d` differ. -/
def DataWrite (f f' : Nat → Sector) (d : Sector) : Prop :=
  ∀ k, (∀ i, i < numSectors d → k ≠ leafAt f d i) → f' k = f k

theorem DataWrite.refl (f : Nat → Sector) (d : Sector) : DataWrite f f d :=
  fun _ _ => rfl

theorem FileOk.slotVal_dataWrite (h : FileOk f size d) (hw : DataWrite f f' d)
    {a : Slot} (ha : a ∈ inodeSlots (numSectors d)) :
    slotVal f' d a = slotVal f d a :=
  h.mapped.slotVal_congr h.sectors_le hw ha

theorem FileOk.dataWrite (h : FileOk f size d) (hw : DataWrite f f' d) :
    FileOk f' size d where
  nonneg := h.nonneg
  max := h.max
  mapped := h.mapped.congr fun _ ha => h.slotVal_dataWrite hw ha

theorem FileOk.leafAt_dataWrite (h : FileOk f size d) (hw : DataWrite f f' d)
    {i : Nat} (hi : i < numSectors d) :
    leafAt f' d i = leafAt f d i :=
  h.slotVal_dataWrite hw (leafSlot_mem hi (Nat.lt_of_lt_of_le hi h.sectors_le))

theorem FileOk.dataWrite_trans {f'' : Nat → Sector} (h : FileOk f size d)
    (h₁ : DataWrite f f' d) (h₂ : DataWrite f' f'' d) : DataWrite f f'' d := by
  intro k hk
  rw [h₂ k fun i hi => ?_, h₁ k hk]
  rw [h.leafAt_dataWrite h₁ hi]
  exact hk i hi

theorem dataWrite_update {i : Nat} (hi : i < numSectors d)
    (b : Sector) : DataWrite f (Function.update f (leafAt f d i) b) d :=
  fun _ hk => Function.update_of_ne (hk i hi) ..

theorem FileOk.fileByte_update (h : FileOk f size d) {i x : Nat}
    (hi : i < numSectors d)
    (hx : x / BLOCK_SECTOR_SIZE < numSectors d) (b : Sector) :
    fileByte (Function.update f (leafAt f d i) b) d x =
      if x / BLOCK_SECTOR_SIZE = i then b.byte (x % BLOCK_SECTOR_SIZE)
      else fileByte f d x := by
  have hmax := h.sectors_le
  rw [fileByte, h.leafAt_dataWrite (dataWrite_update hi b) hx]
  split
  · next heq => rw [heq, Function.update_self]
  · next hne =>
      rw [Function.update_of_ne, fileByte]
      intro heq
      exact hne (h.mapped.leaf_inj hx hi (by omega) (by omega) heq)

end DataWrite

/-- One past every sector of the device. -/
theorem BufferCache.size_le_noSector (c : BufferCache) : c.size ≤ NO_SECTOR := by
  have := c.state.fsDevice.size_small
  change c.state.fsDevice.size ≤ NO_SECTOR
  simp only [NO_SECTOR]
  omega

/-- Where the loop writes when it is handed offset `offset`. -/
theorem write_byteToSector {c c' : BufferCache} {d : Sector} {n : Int}
    (h : FileOk c.content c.size d) (hsize : c'.size = c.size)
    (hcont : c'.content = c.content) (b : Sector) :
    DataWrite c.content (c'.write (byteToSector c d n).1 b).content d := by
  by_cases ho : 0 ≤ n ∧ n < inodeLength d
  · obtain ⟨o, rfl⟩ := Int.eq_ofNat_of_zero_le ho.1
    have hlt := lt_sectors ho.2
    have hmem := leafSlot_mem hlt (Nat.lt_of_lt_of_le hlt h.sectors_le)
    rw [byteToSector_fst h ho.2, BufferCache.write_content
      (by rw [hsize]; exact h.mapped.lt _ hmem), hcont]
    exact dataWrite_update hlt b
  · rw [byteToSector, if_neg ho, BufferCache.write_content_of_ge
      c'.size_le_noSector, hcont]
    exact .refl _ d

/-- The round writes once, over a cache that reads as before. -/
theorem writePiece_eq (c : BufferCache) (k : Nat) (ofs chunk : Int)
    (piece : List UInt8) :
    ∃ b c', writePiece c k ofs chunk piece = BufferCache.write c' k b ∧
      c'.size = c.size ∧ c'.content = c.content := by
  unfold writePiece
  split
  · exact ⟨_, c, rfl, rfl, rfl⟩
  · simp only []
    split
    · exact ⟨_, (c.read k).2, rfl, by simp, by simp⟩
    · exact ⟨_, c, rfl, rfl, rfl⟩

/-- The sector after the round has the piece over what it held. -/
theorem writePiece_byte {c : BufferCache} {k ofs m : Nat} {v : List UInt8}
    (hk : k < c.size) (hlen : v.length = m)
    (hfit : ofs + m ≤ BLOCK_SECTOR_SIZE) :
    ∃ b, (writePiece c k ofs m v).content = Function.update c.content k b ∧
      ∀ j, j < BLOCK_SECTOR_SIZE → b.byte j =
        if ofs ≤ j ∧ j < ofs + m then v.getD (j - ofs) 0
        else (c.content k).byte j := by
  unfold writePiece
  split
  · next hfull =>
      have hofs : ofs = 0 := by exact_mod_cast hfull.1
      have hm : m = BLOCK_SECTOR_SIZE := by exact_mod_cast hfull.2
      refine ⟨_, BufferCache.write_content hk _, fun j hj => ?_⟩
      rw [ByteBlock.byte_splice hj, hlen, hm, hofs, if_pos (by omega),
        if_pos (by omega)]
      rfl
  · next hpart =>
      have hread : 0 < (ofs : Int) ∨ (m : Int) < BLOCK_SECTOR_SIZE - ofs := by
        simp only [BLOCK_SECTOR_SIZE] at *; omega
      simp only [if_pos hread]
      refine ⟨_, (BufferCache.write_content (by simpa using hk) _).trans
        (by rw [BufferCache.read_content]), fun j hj => ?_⟩
      have hsub : ((j : Int) - ofs).toNat = j - ofs := by omega
      rw [ByteBlock.byte_splice hj, hlen, hsub, BufferCache.read_fst hk]
      split
      · rw [if_pos (by omega)]
      · rw [if_neg (by omega)]

@[simp] theorem inodeWriteLoop_size (d : Sector) (n : Nat) (c : BufferCache)
    (buffer : List UInt8) (offset : Int) :
    (inodeWriteLoop d n c buffer offset).2.size = c.size := by
  induction n generalizing c buffer offset with
  | zero => rfl
  | succ n ih =>
      rw [inodeWriteLoop]
      split
      · simp only []
        split
        · exact byteToSector_size c d offset
        · obtain ⟨b, c', heq, hsize, -⟩ := writePiece_eq
            (byteToSector c d offset).2 (byteToSector c d offset).1
            (offset.tmod BLOCK_SECTOR_SIZE)
            (chunkSize d buffer.length offset)
            (buffer.take (chunkSize d buffer.length offset).toNat)
          rw [ih, heq, BufferCache.write_size, hsize, byteToSector_size]
      · rfl

/-- A write at any offset, a negative one included, stays within the data. -/
theorem inodeWriteLoop_dataWrite {d : Sector} {n : Nat} :
    ∀ {c : BufferCache} {v : List UInt8} {o : Int},
      FileOk c.content c.size d →
        DataWrite c.content (inodeWriteLoop d n c v o).2.content d := by
  induction n with
  | zero => intro c v o _; exact .refl _ d
  | succ n ih =>
      intro c v o h
      rw [inodeWriteLoop]
      split
      · simp only []
        split
        · rw [byteToSector_content]; exact .refl _ d
        · obtain ⟨b, c', heq, hsize, hcont⟩ := writePiece_eq
            (byteToSector c d o).2 (byteToSector c d o).1
            (o.tmod BLOCK_SECTOR_SIZE)
            (chunkSize d v.length o)
            (v.take (chunkSize d v.length o).toNat)
          rw [byteToSector_size] at hsize
          rw [byteToSector_content] at hcont
          have hw := write_byteToSector (n := o) h hsize hcont b
          rw [heq]
          refine h.dataWrite_trans hw (ih ?_)
          rw [BufferCache.write_size, hsize]
          exact h.dataWrite hw
      · exact .refl _ d

/-- The first piece of a request and the rest of it make up the request. -/
theorem piece_then_rest {f : Nat → Sector} {d : Sector} {buffer : List UInt8}
    {o m x : Nat} (hm : m ≤ buffer.length)
    (hsec : o % BLOCK_SECTOR_SIZE + m ≤ BLOCK_SECTOR_SIZE) :
    (if o + m ≤ x ∧ x < o + m + (buffer.length - m) then
        (buffer.drop m).getD (x - (o + m)) 0
      else if x / BLOCK_SECTOR_SIZE = o / BLOCK_SECTOR_SIZE then
        if o % BLOCK_SECTOR_SIZE ≤ x % BLOCK_SECTOR_SIZE ∧
            x % BLOCK_SECTOR_SIZE < o % BLOCK_SECTOR_SIZE + m then
          (buffer.take m).getD (x % BLOCK_SECTOR_SIZE - o % BLOCK_SECTOR_SIZE) 0
        else (f (leafAt f d (o / BLOCK_SECTOR_SIZE))).byte (x % BLOCK_SECTOR_SIZE)
      else fileByte f d x) =
    if o ≤ x ∧ x < o + buffer.length then buffer.getD (x - o) 0
    else fileByte f d x := by
  simp only [List.getD_eq_getElem?_getD]
  rcases Nat.lt_or_ge x (o + m) with hxm | hxm
  · rw [if_neg (by omega)]
    rcases Nat.lt_or_ge x o with hxo | hxo
    · rw [if_neg (show ¬ (o ≤ x ∧ x < o + buffer.length) by omega)]
      split
      · next hdiv =>
          rw [if_neg, fileByte, hdiv]
          simp only [BLOCK_SECTOR_SIZE] at *; omega
      · rfl
    · have hdiv : x / BLOCK_SECTOR_SIZE = o / BLOCK_SECTOR_SIZE := by
        simp only [BLOCK_SECTOR_SIZE] at *; omega
      have hofs : x % BLOCK_SECTOR_SIZE - o % BLOCK_SECTOR_SIZE = x - o := by
        simp only [BLOCK_SECTOR_SIZE] at *; omega
      have hcover : o % BLOCK_SECTOR_SIZE ≤ x % BLOCK_SECTOR_SIZE ∧
          x % BLOCK_SECTOR_SIZE < o % BLOCK_SECTOR_SIZE + m := by
        simp only [BLOCK_SECTOR_SIZE] at *; omega
      rw [if_pos hdiv, if_pos hcover, hofs, if_pos (by omega),
        List.getElem?_take_of_lt (by omega)]
  · rcases Nat.lt_or_ge x (o + buffer.length) with hx | hx
    · have hsum : m + (x - (o + m)) = x - o := by omega
      rw [if_pos (by omega), if_pos (by omega), List.getElem?_drop, hsum]
    · rw [if_neg (by omega),
        if_neg (show ¬ (o ≤ x ∧ x < o + buffer.length) by omega)]
      split
      · next hdiv =>
          rw [if_neg, fileByte, hdiv]
          simp only [BLOCK_SECTOR_SIZE] at *; omega
      · rfl

theorem inodeWriteLoop_spec {d : Sector} {n : Nat} :
    ∀ {c : BufferCache} {v : List UInt8} {o : Nat},
      FileOk c.content c.size d → v.length ≤ n →
      (o + v.length : Int) ≤ inodeLength d →
        (inodeWriteLoop d n c v o).1 = v.length ∧
        ∀ x, x / BLOCK_SECTOR_SIZE < numSectors d →
          fileByte (inodeWriteLoop d n c v o).2.content d x =
            if o ≤ x ∧ x < o + v.length then v.getD (x - o) 0
            else fileByte c.content d x := by
  induction n with
  | zero =>
      intro c v o _ hn _
      have hnil : v = [] := List.length_eq_zero_iff.1 (Nat.le_zero.1 hn)
      subst hnil
      refine ⟨rfl, fun x _ => ?_⟩
      rw [if_neg (by simp)]
      rfl
  | succ n ih =>
      intro c v o h hn hfit
      rw [inodeWriteLoop]
      split
      · next hsize =>
          have ho : (o : Int) < inodeLength d := by omega
          obtain ⟨m, hm, hpos, hle, -, hsec, hmax⟩ := chunkSize_spec hsize ho
          have hmod : (o : Int).tmod BLOCK_SECTOR_SIZE =
              (o % BLOCK_SECTOR_SIZE : Nat) := by
            rw [Int.tmod_eq_emod_of_nonneg (Int.natCast_nonneg o)]
            rfl
          have hlt := lt_sectors ho
          have hmem := leafSlot_mem hlt (Nat.lt_of_lt_of_le hlt h.sectors_le)
          have hlen : (v.take m).length = m := by
            rw [List.length_take]; omega
          have hdrop : (v.drop m).length = v.length - m :=
            List.length_drop ..
          have hnext : (o : Int) + m = ((o + m : Nat) : Int) := by omega
          simp only [hm, hmod, hnext, Int.toNat_natCast]
          rw [if_neg (by omega), byteToSector_fst h ho]
          obtain ⟨b, hcont, hb⟩ := writePiece_byte
            (c := (byteToSector c d o).2) (v := v.take m)
            (by rw [byteToSector_size]; exact h.mapped.lt _ hmem) hlen hsec
          rw [byteToSector_content] at hcont hb
          change (writePiece (byteToSector c d o).2
            (leafAt c.content d (o / BLOCK_SECTOR_SIZE)) _ m _).content =
            Function.update c.content
              (leafAt c.content d (o / BLOCK_SECTOR_SIZE)) b at hcont
          generalize hc' : writePiece (byteToSector c d o).2
            (leafAt c.content d (o / BLOCK_SECTOR_SIZE))
            ((o % BLOCK_SECTOR_SIZE : Nat) : Int) m (v.take m) = c' at hcont ⊢
          have hsz : c'.size = c.size := by
            obtain ⟨b', c'', heq, hs, -⟩ := writePiece_eq (byteToSector c d o).2
              (leafAt c.content d (o / BLOCK_SECTOR_SIZE))
              ((o % BLOCK_SECTOR_SIZE : Nat) : Int) m (v.take m)
            rw [← hc', heq, BufferCache.write_size, hs, byteToSector_size]
          have hok : FileOk c'.content c'.size d := by
            rw [hsz, hcont]
            exact h.dataWrite (dataWrite_update hlt b)
          obtain ⟨hret, hbytes⟩ := ih (v := v.drop m) (o := o + m) hok
            (by omega) (by rw [hdrop]; omega)
          refine ⟨by rw [hret, hdrop]; omega, fun x hx => ?_⟩
          rw [hbytes x hx, hcont, h.fileByte_update hlt hx, hdrop]
          have hxm : x % BLOCK_SECTOR_SIZE < BLOCK_SECTOR_SIZE :=
            Nat.mod_lt _ (by decide)
          rw [hb _ hxm]
          exact piece_then_rest (by omega) hsec
      · next hsize =>
          have hnil : v = [] := List.length_eq_zero_iff.1 (by omega)
          subst hnil
          refine ⟨rfl, fun x _ => ?_⟩
          rw [if_neg (by simp)]

/-! ## A write that the file has room for -/

theorem byteToSector_ne_noSector {c : BufferCache} {d : Sector} {i : Nat}
    (h : FileOk c.content c.size d) (hi : (i : Int) < inodeLength d) :
    (byteToSector c d i).1 ≠ NO_SECTOR := by
  have hlt := lt_sectors hi
  have hmem := leafSlot_mem hlt (Nat.lt_of_lt_of_le hlt h.sectors_le)
  rw [byteToSector_fst h hi]
  exact Nat.ne_of_lt (Nat.lt_of_lt_of_le (h.mapped.lt _ hmem) c.size_le_noSector)

/-- When the last byte has a sector nothing is reserved. -/
theorem inodeWriteAt_of_found {alloc : Alloc} {s : FileSys} {p : Nat}
    {buffer : List UInt8} {offset : Int}
    (hdeny : (s.inode p).denyWriteCnt = 0)
    (hfound : (byteToSector s.cache (s.inode p).data
      (int32 (offset + buffer.length - 1))).1 ≠ NO_SECTOR) :
    inodeWriteAt alloc s p buffer offset =
      let w := inodeWriteLoop (s.inode p).data buffer.length
        (byteToSector s.cache (s.inode p).data
          (int32 (offset + buffer.length - 1))).2 buffer offset
      (w.1, { s with cache := w.2 }) := by
  unfold inodeWriteAt
  simp only [hdeny, ne_eq, not_true_eq_false, hfound, if_false,
    Bool.true_eq_false]
  rfl

/-- A write within the file writes its bytes and changes nothing else. -/
theorem inodeWriteAt_within {a : Alloc} {s : FileSys} {p o : Nat}
    {b : List UInt8} (hdeny : (s.inode p).denyWriteCnt = 0)
    (hok : FileOk s.content s.cache.size (s.inode p).data)
    (hpos : 0 < b.length)
    (hfit : (o + b.length : Int) ≤ inodeLength (s.inode p).data) :
    ∃ c : BufferCache, inodeWriteAt a s p b o =
        ((b.length : Int), { s with cache := c }) ∧
      c.size = s.cache.size ∧
      DataWrite s.content c.content (s.inode p).data ∧
      ∀ x, x / BLOCK_SECTOR_SIZE < numSectors (s.inode p).data →
        fileByte c.content (s.inode p).data x =
          if o ≤ x ∧ x < o + b.length then b.getD (x - o) 0
          else fileByte s.content (s.inode p).data x := by
  have hmax := hok.max
  have hlast : int32 ((o : Int) + b.length - 1) =
      ((o + b.length - 1 : Nat) : Int) := by
    simp only [MAX_LENGTH] at hmax
    rw [int32_eq (by omega) (by omega)]
    omega
  have hfound := byteToSector_ne_noSector (i := o + b.length - 1) hok (by omega)
  rw [← hlast] at hfound
  rw [inodeWriteAt_of_found hdeny hfound]
  have hok' : FileOk (byteToSector s.cache (s.inode p).data
        (int32 (o + b.length - 1))).2.content
      (byteToSector s.cache (s.inode p).data
        (int32 (o + b.length - 1))).2.size (s.inode p).data := by
    rw [byteToSector_content, byteToSector_size]
    exact hok
  obtain ⟨hret, hbytes⟩ := inodeWriteLoop_spec hok' (Nat.le_refl _) hfit
  refine ⟨_, Prod.ext hret rfl, ?_, ?_, fun x hx => ?_⟩
  · rw [inodeWriteLoop_size, byteToSector_size]
  · have := inodeWriteLoop_dataWrite (n := b.length) (v := b)
      (o := o) hok'
    rw [byteToSector_content] at this
    exact this
  · rw [hbytes x hx, byteToSector_content]
    rfl

end SimpleShell.Fs
