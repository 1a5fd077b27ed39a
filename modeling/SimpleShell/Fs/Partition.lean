import SimpleShell.Fs.Block

/-!
# Scanning for partitions

`partition.c`. `read_partition_table` follows the extended entries of a table, but reads
sector 0 whatever sector it is called for, so that every nested table is the first one
again. A scan ends only where the sectors of the nested tables run off the device.
-/

namespace SimpleShell.Fs

open SimpleShell.Lib

/-! ## The table -/

/-- `struct partition_table`: four entries of 16 bytes at 446, the signature at 510. -/
abbrev PartitionTable := Sector

namespace PartitionTable

def entryType (pt : PartitionTable) (i : Nat) : Nat := (pt.byte (446 + 16 * i + 4)).toNat

def entryOffset (pt : PartitionTable) (i : Nat) : Nat := pt.u32 (446 + 16 * i + 8)

def entrySize (pt : PartitionTable) (i : Nat) : Nat := pt.u32 (446 + 16 * i + 12)

def signature (pt : PartitionTable) : Nat := (pt.byte 510).toNat + 256 * (pt.byte 511).toNat

def IsEmpty (pt : PartitionTable) (i : Nat) : Prop := pt.entrySize i = 0 ∨ pt.entryType i = 0

instance (pt : PartitionTable) (i : Nat) : Decidable (pt.IsEmpty i) :=
  inferInstanceAs (Decidable (_ ∨ _))

/-- The four types of an extended partition. -/
def HasExtendedType (pt : PartitionTable) (i : Nat) : Prop :=
  pt.entryType i = 0x05 ∨ pt.entryType i = 0x0f ∨ pt.entryType i = 0x85 ∨ pt.entryType i = 0xc5

instance (pt : PartitionTable) (i : Nat) : Decidable (pt.HasExtendedType i) :=
  inferInstanceAs (Decidable (_ ∨ _))

/-- An entry that the scan follows. -/
def IsExtended (pt : PartitionTable) (i : Nat) : Prop := ¬pt.IsEmpty i ∧ pt.HasExtendedType i

end PartitionTable

/-! ## The scan -/

/-- What a scan does, in order: the messages that it prints, the tables that it reads, for
the sector it was called for, and the partitions that it registers. -/
inductive ScanEvent where
  | pastEnd (sector : Nat)
  | readTable (sector read : Nat)
  | invalidSignature
  | invalidExtended (sector : Nat)
  | extended (sector : Nat)
  | startPastEnd (partNr start : Nat)
  | endPastEnd (partNr stop : Nat)
  | registered (partNr start size : Nat)
  | noPartitions
deriving DecidableEq

/-- `found_partition`, on `uint32_t`. -/
def foundPartition (d : Block) (start size partNr : Nat) : ScanEvent :=
  if d.size ≤ start then .startPastEnd partNr start
  else if (start + size) % 2 ^ 32 < start ∨ d.size < (start + size) % 2 ^ 32 then
    .endPastEnd partNr ((start + size) % 2 ^ 32)
  else .registered partNr start size

/-- The sector and the primary extended sector that entry `i` of the table at `sector` is
followed with. -/
def nestedSector (pt : PartitionTable) (sector primary i : Nat) : Nat :=
  if sector = 0 then pt.entryOffset i else (pt.entryOffset i + primary) % 2 ^ 32

def nestedPrimary (pt : PartitionTable) (sector primary i : Nat) : Nat :=
  if sector = 0 then pt.entryOffset i else primary

/-- The loop over the entries `is`; `nested` is the call for an extended one. -/
def scanPartitions (nested : Nat → Nat → Nat → Option (Nat × List ScanEvent)) (d : Block)
    (pt : PartitionTable) (sector primary : Nat) :
    List Nat → Nat → Option (Nat × List ScanEvent)
  | [], partNr => some (partNr, [])
  | i :: is, partNr =>
      if pt.IsEmpty i then scanPartitions nested d pt sector primary is partNr
      else if pt.HasExtendedType i then do
        let (partNr, found) ←
          nested (nestedSector pt sector primary i) (nestedPrimary pt sector primary i) partNr
        let (partNr, events) ← scanPartitions nested d pt sector primary is partNr
        pure (partNr, .extended sector :: found ++ events)
      else do
        let event := foundPartition d ((pt.entryOffset i + sector) % 2 ^ 32) (pt.entrySize i)
          (partNr + 1)
        let (partNr, events) ← scanPartitions nested d pt sector primary is (partNr + 1)
        pure (partNr, event :: events)

/-- `read_partition_table`, with the new `*part_nr`; `none` where the calls are nested more
than `fuel` deep. `buffer` is what `malloc` gives for the table. -/
def readPartitionTable (d : Block) (buffer : Sector) :
    Nat → Nat → Nat → Nat → Option (Nat × List ScanEvent)
  | 0, _, _, _ => none
  | fuel + 1, sector, primary, partNr =>
      if d.size ≤ sector then some (partNr, [.pastEnd sector])
      else
        let pt := blockRead d 0 buffer
        if PartitionTable.signature pt ≠ 0xaa55 then
          some (partNr, [.readTable sector 0,
            if primary = 0 then .invalidSignature else .invalidExtended sector])
        else do
          let (partNr, events) ← scanPartitions (readPartitionTable d buffer fuel) d pt sector primary
            [0, 1, 2, 3] partNr
          pure (partNr, .readTable sector 0 :: events)

def partitionScan (d : Block) (buffer : Sector) (fuel : Nat) : Option (List ScanEvent) := do
  let (partNr, events) ← readPartitionTable d buffer fuel 0 0 0
  pure (if partNr = 0 then events ++ [.noPartitions] else events)

/-- The scan comes to its end. -/
def ScanEnds (d : Block) (buffer : Sector) : Prop := ∃ fuel, (partitionScan d buffer fuel).isSome

/-- Every table was read from the sector that it was wanted from. -/
def ReadsOwnSectors (d : Block) (buffer : Sector) : Prop :=
  ∃ fuel events, partitionScan d buffer fuel = some events ∧
    ∀ sector read, .readTable sector read ∈ events → read = sector

/-! ## When it ends -/

section Scan

variable {d : Block} {buffer : Sector} {sector primary partNr n i : Nat} {is : List Nat}
  {events : List ScanEvent} {nested : Nat → Nat → Nat → Option (Nat × List ScanEvent)}

/-- The table that every call reads. -/
abbrev firstTable (d : Block) (buffer : Sector) : PartitionTable := blockRead d 0 buffer

theorem scanPartitions_isSome {pt : PartitionTable}
    (hn : ∀ s p m m', (nested s p m).isSome = (nested s p m').isSome) (partNr : Nat) :
    (scanPartitions nested d pt sector primary is partNr).isSome ↔
      ∀ i ∈ is, pt.IsExtended i → (nested (nestedSector pt sector primary i)
        (nestedPrimary pt sector primary i) 0).isSome := by
  induction is generalizing partNr with
  | nil => simp [scanPartitions]
  | cons i is ih =>
      rw [scanPartitions, List.forall_mem_cons]
      by_cases hempty : pt.IsEmpty i
      · rw [if_pos hempty, ih]
        exact ⟨fun h => ⟨fun he => absurd hempty he.1, h⟩, fun h => h.2⟩
      · rw [if_neg hempty]
        by_cases hext : pt.HasExtendedType i
        · rw [if_pos hext, hn _ _ 0 partNr]
          have hiext : pt.IsExtended i := ⟨hempty, hext⟩
          cases nested (nestedSector pt sector primary i) (nestedPrimary pt sector primary i)
              partNr with
          | none => simp [hiext]
          | some r =>
              simp only [Option.bind_eq_bind, Option.bind_some, Option.isSome_some, implies_true,
                true_and]
              rw [← ih r.1]
              cases scanPartitions nested d pt sector primary is r.1 <;> rfl
        · rw [if_neg hext]
          simp only [Option.bind_eq_bind]
          have hiext : pt.IsExtended i → False := fun he => hext he.2
          rw [← ih (partNr + 1)]
          cases scanPartitions nested d pt sector primary is (partNr + 1) with
          | none => simp
          | some r => exact ⟨fun _ => ⟨fun he => (hiext he).elim, rfl⟩, fun _ => rfl⟩

/-- A call ends if it reads no table with a signature, or all that it makes end. -/
theorem readPartitionTable_succ_isSome (fuel : Nat)
    (hn : ∀ s p m m', (readPartitionTable d buffer fuel s p m).isSome =
      (readPartitionTable d buffer fuel s p m').isSome) (partNr : Nat) :
    (readPartitionTable d buffer (fuel + 1) sector primary partNr).isSome ↔
      d.size ≤ sector ∨ (firstTable d buffer).signature ≠ 0xaa55 ∨
        ∀ i ∈ [0, 1, 2, 3], (firstTable d buffer).IsExtended i →
          (readPartitionTable d buffer fuel (nestedSector (firstTable d buffer) sector primary i)
            (nestedPrimary (firstTable d buffer) sector primary i) 0).isSome := by
  rw [← scanPartitions_isSome hn partNr, readPartitionTable]
  by_cases hsize : d.size ≤ sector
  · simp [hsize]
  · by_cases hsig : (firstTable d buffer).signature ≠ 0xaa55
    · simp [hsize, hsig]
    · rw [if_neg hsize]
      dsimp only
      rw [if_neg hsig]
      simp only [hsize, hsig, false_or]
      cases scanPartitions (readPartitionTable d buffer fuel) d (firstTable d buffer) sector primary
        [0, 1, 2, 3] partNr <;> rfl

theorem readPartitionTable_partNr (fuel : Nat) : ∀ s p m m',
    (readPartitionTable d buffer fuel s p m).isSome =
      (readPartitionTable d buffer fuel s p m').isSome := by
  induction fuel with
  | zero =>
      intro s p m m'
      rfl
  | succ fuel ih =>
      intro s p m m'
      rw [Bool.eq_iff_iff, readPartitionTable_succ_isSome fuel ih, readPartitionTable_succ_isSome fuel ih]

/-- The call for `sector` ends, whatever was counted before it. -/
def Ends (d : Block) (buffer : Sector) (fuel sector primary : Nat) : Prop :=
  (readPartitionTable d buffer fuel sector primary 0).isSome

theorem ends_succ (fuel : Nat) : Ends d buffer (fuel + 1) sector primary ↔
    d.size ≤ sector ∨ (firstTable d buffer).signature ≠ 0xaa55 ∨
      ∀ i ∈ [0, 1, 2, 3], (firstTable d buffer).IsExtended i →
        Ends d buffer fuel (nestedSector (firstTable d buffer) sector primary i)
          (nestedPrimary (firstTable d buffer) sector primary i) :=
  readPartitionTable_succ_isSome fuel (readPartitionTable_partNr fuel) 0

theorem scanEnds_iff : ScanEnds d buffer ↔ ∃ fuel, Ends d buffer fuel 0 0 := by
  refine exists_congr fun fuel => ?_
  rw [partitionScan, Ends]
  cases readPartitionTable d buffer fuel 0 0 0 <;> rfl

/-- No chain of nested tables stays on the device: a table that an entry of the first one
gives is past its end, or is not the first one and gives only tables past its end. -/
def TablesRunOff (d : Block) (buffer : Sector) : Prop :=
  d.size = 0 ∨ (firstTable d buffer).signature ≠ 0xaa55 ∨
    ∀ i ∈ [0, 1, 2, 3], (firstTable d buffer).IsExtended i →
      d.size ≤ (firstTable d buffer).entryOffset i ∨
        (firstTable d buffer).entryOffset i ≠ 0 ∧
          ∀ j ∈ [0, 1, 2, 3], (firstTable d buffer).IsExtended j →
            d.size ≤ ((firstTable d buffer).entryOffset j +
              (firstTable d buffer).entryOffset i) % 2 ^ 32

theorem ends_of_tablesRunOff (h : TablesRunOff d buffer) : Ends d buffer 3 0 0 := by
  rw [ends_succ]
  rcases h with hsize | hsig | h
  · exact .inl (Nat.le_of_eq hsize)
  · exact .inr (.inl hsig)
  · refine .inr (.inr fun i hi hext => ?_)
    rw [nestedSector, nestedPrimary, if_pos rfl, if_pos rfl, ends_succ]
    rcases h i hi hext with hoff | ⟨hne, hoff⟩
    · exact .inl hoff
    · refine .inr (.inr fun j hj hext' => ?_)
      rw [nestedSector, nestedPrimary, if_neg hne, if_neg hne, ends_succ]
      exact .inl (hoff j hj hext')

/-- The calls that come back for ever: the first table, the table of entry `i`, and the one
that entry `j` gives below it. -/
def Circles (d : Block) (buffer : Sector) (i j sector primary : Nat) : Prop :=
  sector = 0 ∨ primary = (firstTable d buffer).entryOffset i ∧
    (sector = primary ∨
      primary ≠ 0 ∧ sector = ((firstTable d buffer).entryOffset j + primary) % 2 ^ 32)

theorem not_ends_of_circles {j : Nat} (hsig : (firstTable d buffer).signature = 0xaa55)
    (hi : i ∈ [0, 1, 2, 3]) (hexti : (firstTable d buffer).IsExtended i)
    (hoff : (firstTable d buffer).entryOffset i < d.size) (hj : j ∈ [0, 1, 2, 3])
    (hextj : (firstTable d buffer).IsExtended j)
    (hoffj : (firstTable d buffer).entryOffset i ≠ 0 →
      ((firstTable d buffer).entryOffset j + (firstTable d buffer).entryOffset i) % 2 ^ 32 < d.size)
    (fuel : Nat) (hc : Circles d buffer i j sector primary) :
    ¬Ends d buffer fuel sector primary := by
  induction fuel generalizing sector primary with
  | zero => exact Bool.false_ne_true
  | succ fuel ih =>
      rw [ends_succ]
      by_cases hzero : sector = 0
      · -- The first table calls for entry `i`.
        rintro (h | h | h)
        · omega
        · exact h hsig
        · have hnested := h i hi hexti
          rw [nestedSector, nestedPrimary, if_pos hzero, if_pos hzero] at hnested
          exact ih (.inr ⟨rfl, .inl rfl⟩) hnested
      · obtain ⟨rfl, hsector⟩ := hc.resolve_left hzero
        have hon : sector < d.size := by
          rcases hsector with rfl | ⟨hne, rfl⟩
          · exact hoff
          · exact hoffj hne
        have hprimary : (firstTable d buffer).entryOffset i ≠ 0 := by
          rcases hsector with rfl | ⟨hne, -⟩
          · exact hzero
          · exact hne
        -- Any other calls for entry `j`, with the same primary sector.
        rintro (h | h | h)
        · omega
        · exact h hsig
        · have hnested := h j hj hextj
          rw [nestedSector, nestedPrimary, if_neg hzero, if_neg hzero] at hnested
          exact ih (.inr ⟨rfl, .inr ⟨hprimary, rfl⟩⟩) hnested

theorem scanEnds_iff_tablesRunOff : ScanEnds d buffer ↔ TablesRunOff d buffer := by
  rw [scanEnds_iff]
  constructor
  · intro ⟨fuel, h⟩
    by_contra hoff
    unfold TablesRunOff at hoff
    push Not at hoff
    obtain ⟨-, hsig, i, hi, hexti, hin, hnested⟩ := hoff
    by_cases hzero : (firstTable d buffer).entryOffset i = 0
    · exact not_ends_of_circles hsig hi hexti hin hi hexti (fun hne => absurd hzero hne) fuel
        (.inl rfl) h
    · obtain ⟨j, hj, hextj, hinj⟩ := hnested hzero
      exact not_ends_of_circles hsig hi hexti hin hj hextj (fun _ => hinj) fuel (.inl rfl) h
  · exact fun h => ⟨3, ends_of_tablesRunOff h⟩

/-! ## The tables that are read -/

theorem readTable_of_scanPartitions {pt : PartitionTable} {s r : Nat}
    (h : scanPartitions nested d pt sector primary is partNr = some (n, events))
    (hread : .readTable s r ∈ events) : ∃ i ∈ is, pt.IsExtended i ∧ ∃ m m' found,
      nested (nestedSector pt sector primary i) (nestedPrimary pt sector primary i) m =
        some (m', found) ∧ .readTable s r ∈ found := by
  induction is generalizing partNr n events with
  | nil =>
      obtain ⟨-, rfl⟩ := Prod.mk.inj (Option.some.inj h)
      cases hread
  | cons i is ih =>
      have hrest : ∀ {m k : Nat} {rest : List ScanEvent},
          scanPartitions nested d pt sector primary is m = some (k, rest) →
          .readTable s r ∈ rest → ∃ j ∈ i :: is, pt.IsExtended j ∧ ∃ m m' found,
            nested (nestedSector pt sector primary j) (nestedPrimary pt sector primary j) m =
              some (m', found) ∧ .readTable s r ∈ found := by
        intro m k rest hscan hmem
        obtain ⟨j, hj, hfound⟩ := ih hscan hmem
        exact ⟨j, List.mem_cons_of_mem i hj, hfound⟩
      rw [scanPartitions] at h
      split at h
      · exact hrest h hread
      · next hempty =>
          split at h
          · next hext =>
              simp only [Option.bind_eq_bind, Option.bind_eq_some_iff] at h
              obtain ⟨⟨m, found⟩, hnested, ⟨k, rest⟩, hscan, heq⟩ := h
              obtain ⟨-, rfl⟩ := Prod.mk.inj (Option.some.inj heq)
              rcases List.mem_append.1 hread with hfound | hmem
              · rcases List.mem_cons.1 hfound with heq | hfound
                · cases heq
                · exact ⟨i, List.mem_cons_self, ⟨hempty, hext⟩, _, m, found, hnested, hfound⟩
              · exact hrest hscan hmem
          · simp only [Option.bind_eq_bind, Option.bind_eq_some_iff] at h
            obtain ⟨⟨k, rest⟩, hscan, heq⟩ := h
            obtain ⟨-, rfl⟩ := Prod.mk.inj (Option.some.inj heq)
            rcases List.mem_cons.1 hread with heq | hmem
            · unfold foundPartition at heq
              split at heq <;> [cases heq; split at heq <;> cases heq]
            · exact hrest hscan hmem

/-- What the call for an extended entry does is part of what the loop does. -/
theorem found_of_scanPartitions {pt : PartitionTable} (hi : i ∈ is) (hext : pt.IsExtended i)
    (h : scanPartitions nested d pt sector primary is partNr = some (n, events)) :
    ∃ m m' found, nested (nestedSector pt sector primary i) (nestedPrimary pt sector primary i) m =
      some (m', found) ∧ ∀ e ∈ found, e ∈ events := by
  induction is generalizing partNr n events with
  | nil => cases hi
  | cons j is ih =>
      rw [scanPartitions] at h
      rcases List.mem_cons.1 hi with rfl | hi
      · rw [if_neg hext.1, if_pos hext.2] at h
        simp only [Option.bind_eq_bind, Option.bind_eq_some_iff] at h
        obtain ⟨⟨m, found⟩, hnested, ⟨k, rest⟩, -, heq⟩ := h
        obtain ⟨-, rfl⟩ := Prod.mk.inj (Option.some.inj heq)
        exact ⟨partNr, m, found, hnested, fun e he => by simp [he]⟩
      · split at h
        · exact ih hi h
        · split at h
          · simp only [Option.bind_eq_bind, Option.bind_eq_some_iff] at h
            obtain ⟨⟨_, first⟩, -, ⟨k, rest⟩, hscan, heq⟩ := h
            obtain ⟨-, rfl⟩ := Prod.mk.inj (Option.some.inj heq)
            obtain ⟨m, m', found, hnested, hmem⟩ := ih hi hscan
            exact ⟨m, m', found, hnested, fun e he => by simp [hmem e he]⟩
          · simp only [Option.bind_eq_bind, Option.bind_eq_some_iff] at h
            obtain ⟨⟨k, rest⟩, hscan, heq⟩ := h
            obtain ⟨-, rfl⟩ := Prod.mk.inj (Option.some.inj heq)
            obtain ⟨m, m', found, hnested, hmem⟩ := ih hi hscan
            exact ⟨m, m', found, hnested, fun e he => List.mem_cons_of_mem _ (hmem e he)⟩

/-- What a call that ended has done. -/
theorem readPartitionTable_some {fuel : Nat}
    (h : readPartitionTable d buffer fuel sector primary partNr = some (n, events)) :
    (d.size ≤ sector ∧ events = [.pastEnd sector]) ∨
      (sector < d.size ∧ (firstTable d buffer).signature ≠ 0xaa55 ∧
        events = [.readTable sector 0,
          if primary = 0 then .invalidSignature else .invalidExtended sector]) ∨
      (sector < d.size ∧ (firstTable d buffer).signature = 0xaa55 ∧ ∃ fuel' m rest,
        scanPartitions (readPartitionTable d buffer fuel') d (firstTable d buffer) sector primary
          [0, 1, 2, 3] partNr = some (m, rest) ∧ events = .readTable sector 0 :: rest) := by
  cases fuel with
  | zero => cases h
  | succ fuel =>
      rw [readPartitionTable] at h
      split at h
      · next hsize =>
          obtain ⟨-, rfl⟩ := Prod.mk.inj (Option.some.inj h)
          exact .inl ⟨hsize, rfl⟩
      · next hsize =>
          rw [Nat.not_le] at hsize
          dsimp only at h
          split at h
          · next hsig =>
              obtain ⟨-, rfl⟩ := Prod.mk.inj (Option.some.inj h)
              exact .inr (.inl ⟨hsize, hsig, rfl⟩)
          · next hsig =>
              simp only [Option.bind_eq_bind, Option.bind_eq_some_iff] at h
              obtain ⟨⟨m, rest⟩, hscan, heq⟩ := h
              obtain ⟨-, rfl⟩ := Prod.mk.inj (Option.some.inj heq)
              exact .inr (.inr ⟨hsize, not_not.1 hsig, fuel, m, rest, hscan, rfl⟩)

theorem partitionScan_some {fuel : Nat} (h : partitionScan d buffer fuel = some events) :
    ∃ n found, readPartitionTable d buffer fuel 0 0 0 = some (n, found) ∧
      ∀ s r, .readTable s r ∈ events ↔ .readTable s r ∈ found := by
  simp only [partitionScan, Option.bind_eq_bind, Option.bind_eq_some_iff] at h
  obtain ⟨⟨n, found⟩, hread, heq⟩ := h
  obtain rfl := Option.some.inj heq
  refine ⟨n, found, hread, fun s r => ?_⟩
  split <;> simp

/-- No entry of the first table is followed to a sector of the device. -/
def NoNestedTable (d : Block) (buffer : Sector) : Prop :=
  d.size = 0 ∨ (firstTable d buffer).signature ≠ 0xaa55 ∨
    ∀ i ∈ [0, 1, 2, 3], (firstTable d buffer).IsExtended i →
      d.size ≤ (firstTable d buffer).entryOffset i

theorem NoNestedTable.runOff (h : NoNestedTable d buffer) : TablesRunOff d buffer :=
  h.imp_right fun h => h.imp_right fun h i hi hext => .inl (h i hi hext)

theorem readsOwnSectors_iff : ReadsOwnSectors d buffer ↔ NoNestedTable d buffer := by
  constructor
  · intro ⟨fuel, events, hscan, hown⟩
    have hends : ScanEnds d buffer := ⟨fuel, by rw [hscan]; rfl⟩
    obtain ⟨n, found, hread, hsame⟩ := partitionScan_some hscan
    rcases readPartitionTable_some hread with ⟨hsize, -⟩ | ⟨-, hsig, -⟩ |
      ⟨hsize, hsig, fuel', m, rest, hentries, rfl⟩
    · exact .inl (Nat.le_zero.1 hsize)
    · exact .inr (.inl hsig)
    · refine .inr (.inr fun i hi hext => ?_)
      by_contra hin
      rw [Nat.not_le] at hin
      obtain ⟨k, k', inner, hnested, hsub⟩ := found_of_scanPartitions hi hext hentries
      rw [nestedSector, nestedPrimary, if_pos rfl, if_pos rfl] at hnested
      have hmem : .readTable ((firstTable d buffer).entryOffset i) 0 ∈ inner := by
        rcases readPartitionTable_some hnested with ⟨hpast, -⟩ | ⟨-, -, rfl⟩ | ⟨-, -, _, _, _, -, rfl⟩
        · omega
        · exact List.mem_cons_self
        · exact List.mem_cons_self
      -- So the table of entry `i` is sector 0 again, and the scan never ends.
      have hzero := hown _ _ ((hsame _ _).2 (List.mem_cons_of_mem _ (hsub _ hmem)))
      rcases scanEnds_iff_tablesRunOff.1 hends with hempty | hbad | hoff
      · omega
      · exact hbad hsig
      · rcases hoff i hi hext with hpast | ⟨hne, -⟩
        · omega
        · exact hne hzero.symm
  · intro h
    obtain ⟨fuel, hends⟩ := scanEnds_iff_tablesRunOff.2 h.runOff
    obtain ⟨events, hscan⟩ := Option.isSome_iff_exists.1 hends
    refine ⟨fuel, events, hscan, fun s r hmem => ?_⟩
    obtain ⟨n, found, hread, hsame⟩ := partitionScan_some hscan
    rw [hsame] at hmem
    rcases readPartitionTable_some hread with ⟨-, rfl⟩ | ⟨-, -, rfl⟩ |
      ⟨hsize, hsig, fuel', m, rest, hentries, rfl⟩
    · simp at hmem
    · obtain ⟨rfl, rfl⟩ : s = 0 ∧ r = 0 := by simpa using hmem
      rfl
    · rcases List.mem_cons.1 hmem with heq | hmem
      · cases heq
        rfl
      · obtain ⟨i, hi, hext, k, k', inner, hnested, hinner⟩ := readTable_of_scanPartitions hentries hmem
        rw [nestedSector, nestedPrimary, if_pos rfl, if_pos rfl] at hnested
        have hpast : d.size ≤ (firstTable d buffer).entryOffset i := by
          rcases h with hempty | hbad | hoff
          · omega
          · exact absurd hsig hbad
          · exact hoff i hi hext
        rcases readPartitionTable_some hnested with ⟨-, rfl⟩ | ⟨hin, -⟩ | ⟨hin, -⟩
        · simp at hinner
        · omega
        · omega

/-- A scan ends if and only if the nested tables run off the device, and reads every table
from its own sector besides if and only if there is no nested table on it. -/
theorem partitionScan_ends_iff (d : Block) (buffer : Sector) :
    (ScanEnds d buffer ↔ TablesRunOff d buffer) ∧
      (ReadsOwnSectors d buffer ↔ NoNestedTable d buffer) :=
  ⟨scanEnds_iff_tablesRunOff, readsOwnSectors_iff⟩

end Scan

/-- The bytes of a table with one extended partition, from sector 100 on. -/
def extendedByte (i : Nat) : UInt8 :=
  if i = 450 then 5 else if i = 454 then 100 else if i = 458 then 200
  else if i = 510 then 0x55 else if i = 511 then 0xaa else 0

def extendedTable : PartitionTable := .ofFn extendedByte

theorem byte_extendedTable {i : Nat} (hi : i < BLOCK_SECTOR_SIZE) :
    extendedTable.byte i = extendedByte i := by
  rw [extendedTable, ByteBlock.byte_ofFn, if_pos hi]

theorem extendedTable_fields : extendedTable.signature = 0xaa55 ∧
    extendedTable.entryType 0 = 5 ∧ extendedTable.entryOffset 0 = 100 ∧
    extendedTable.entrySize 0 = 200 := by
  have hword : ∀ o, o + 4 ≤ BLOCK_SECTOR_SIZE → extendedTable.u32 o =
      (extendedByte o).toNat + 256 * (extendedByte (o + 1)).toNat +
        65536 * (extendedByte (o + 2)).toNat + 16777216 * (extendedByte (o + 3)).toNat := by
    intro o ho
    rw [ByteBlock.u32, byte_extendedTable (by omega), byte_extendedTable (by omega),
      byte_extendedTable (by omega), byte_extendedTable (by omega)]
  refine ⟨?_, ?_, ?_, ?_⟩
  · rw [PartitionTable.signature, byte_extendedTable (by decide), byte_extendedTable (by decide)]
    decide
  · rw [PartitionTable.entryType, byte_extendedTable (by decide)]
    decide
  · rw [PartitionTable.entryOffset, hword _ (by decide)]
    decide
  · rw [PartitionTable.entrySize, hword _ (by decide)]
    decide

/-- A disk of 1000 sectors that are blank but for that table. -/
def extendedDisk : Block :=
  ⟨1000, extendedTable :: List.replicate 999 .zeros, by
    rw [List.length_cons, List.length_replicate], by decide⟩

/-- Sector 100 has no table, but it is never read. -/
theorem partitionScan_extendedDisk : ¬ScanEnds extendedDisk .zeros ∧
    ¬∀ d buffer, ScanEnds d buffer := by
  have hends : ¬ScanEnds extendedDisk .zeros := by
    rw [scanEnds_iff_tablesRunOff]
    intro h
    have htable : firstTable extendedDisk .zeros = extendedTable := by
      rw [firstTable, blockRead, ide_imageSector, Nat.zero_mod, extendedDisk,
        List.getD_cons_zero]
    obtain ⟨hsig, htype, hoff, hcnt⟩ := extendedTable_fields
    have hext : extendedTable.IsExtended 0 := by
      refine ⟨?_, .inl htype⟩
      rw [PartitionTable.IsEmpty, hcnt, htype]
      decide
    have hsize : extendedDisk.size = 1000 := rfl
    rw [TablesRunOff, htable, hsize] at h
    rcases h with hempty | hbad | hrun
    · omega
    · exact hbad hsig
    · rcases hrun 0 (by simp) hext with hpast | ⟨-, hpast⟩
      · omega
      · have := hpast 0 (by simp) hext
        omega
  exact ⟨hends, fun h => hends (h _ _)⟩

end SimpleShell.Fs
