import SimpleShell.Fs.Format
import SimpleShell.Fs.Fsutil

/-!
# What leaves the table of open files alone

In every state, sound or not, the functions below the file commands leave the
table of open files as it is. So a file's position is moved by the commands that
read, write and seek, and by nothing else.
-/

namespace SimpleShell.Fs

open SimpleShell.Lib

/-- The table of open files is as it was, and so is the memory nobody owns. -/
def SameFiles (s s' : FileSys) : Prop :=
  s'.mem.fileTable = s.mem.fileTable ∧ s'.mem.stray = s.mem.stray

section SameFiles

variable {s s₁ s' : FileSys} {alloc : Alloc}

theorem SameFiles.refl (s : FileSys) : SameFiles s s := ⟨rfl, rfl⟩

theorem SameFiles.trans (h₁ : SameFiles s s₁) (h₂ : SameFiles s₁ s') : SameFiles s s' :=
  ⟨h₂.1.trans h₁.1, h₂.2.trans h₁.2⟩

/-! ## Inodes -/

theorem reserveLoop_sameFiles {f : FileSys → Nat → Nat → (Bool × Nat) × FileSys}
    (hf : ∀ s entry num, SameFiles s (f s entry num).2) (unit cnt : Nat) :
    ∀ (i : Nat) (s : FileSys) (blk : Sector) (num : Nat),
      SameFiles s (reserveLoop f unit cnt i s blk num).2 := by
  induction cnt with
  | zero => exact fun _ s _ _ => .refl s
  | succ cnt ih =>
      intro i s blk num
      unfold reserveLoop
      dsimp only
      split
      · exact (hf _ _ _).trans (ih _ _ _ _)
      · exact hf _ _ _

theorem reserveBlock_sameFiles {f : FileSys → Nat → Nat → (Bool × Nat) × FileSys}
    (hf : ∀ s entry num, SameFiles s (f s entry num).2) (level : Nat) (s : FileSys)
    (entry num : Nat) : SameFiles s (reserveBlock f level s entry num).2 := by
  have hloop := reserveLoop_sameFiles hf (INDIRECT_BLOCKS_PER_SECTOR ^ level)
    ((num + INDIRECT_BLOCKS_PER_SECTOR ^ level - 1) / INDIRECT_BLOCKS_PER_SECTOR ^ level) 0
    (s.readSector entry).2 (s.readSector entry).1 num
  unfold reserveBlock
  dsimp only
  split
  · exact hloop
  · exact hloop

theorem reserveIndirect_sameFiles (ha : ∀ s, SameFiles s (alloc s).2) (level : Nat) :
    ∀ (s : FileSys) (entry num : Nat),
      SameFiles s (reserveIndirect alloc level s entry num).2 := by
  induction level with
  | zero =>
      intro s entry num
      unfold reserveIndirect
      split
      · have hs := ha s
        dsimp only
        split
        · exact hs
        · exact hs
      · exact .refl s
  | succ level ih =>
      intro s entry num
      unfold reserveIndirect
      split
      · obtain ⟨t, ht⟩ : ∃ t, t = (alloc s).2.writeSector ((alloc s).1.getD entry) .zeros :=
          ⟨_, rfl⟩
        have hs : SameFiles s t := by
          rw [ht]
          exact ha s
        dsimp only
        rw [← ht]
        exact hs.trans (reserveBlock_sameFiles ih level t _ _)
      · exact reserveBlock_sameFiles ih level s _ _

theorem reserveDirect_sameFiles (ha : ∀ s, SameFiles s (alloc s).2) (cnt : Nat) :
    ∀ (i : Nat) (s : FileSys) (d : Sector), SameFiles s (reserveDirect alloc cnt i s d).2 := by
  induction cnt with
  | zero => exact fun _ s _ => .refl s
  | succ cnt ih =>
      intro i s d
      unfold reserveDirect
      split
      · have hs := ha s
        dsimp only
        split
        · exact hs
        · exact hs.trans (ih _ _ _)
      · exact ih _ _ _

theorem inodeReserve_sameFiles (ha : ∀ s, SameFiles s (alloc s).2) (s : FileSys) (d : Sector)
    (length : Int) : SameFiles s (inodeReserve alloc s d length).2 := by
  have hdouble : ∀ (s : FileSys) (d : Sector) (num : Nat),
      SameFiles s (reserveDoublyIndirect alloc s d num).2 := by
    intro s d num
    have htwo := reserveIndirect_sameFiles ha 2 s (doublyIndirectBlock d)
      (min num (INDIRECT_BLOCKS_PER_SECTOR * INDIRECT_BLOCKS_PER_SECTOR))
    unfold reserveDoublyIndirect
    dsimp only
    split
    · exact htwo
    · exact htwo
  have hrest : ∀ (s : FileSys) (d : Sector) (num : Nat),
      SameFiles s (reserveIndirectBlocks alloc s d num).2 := by
    intro s d num
    have hone := reserveIndirect_sameFiles ha 1 s (indirectBlock d)
      (min num INDIRECT_BLOCKS_PER_SECTOR)
    unfold reserveIndirectBlocks
    dsimp only
    split
    · exact hone
    · split
      · exact hone
      · exact hone.trans (hdouble _ _ _)
  have hdirect := reserveDirect_sameFiles ha
    (min (bytesToSectors length) DIRECT_BLOCKS_COUNT) 0 s d
  unfold inodeReserve
  dsimp only
  split
  · exact .refl s
  · split
    · exact hdirect
    · split
      · exact hdirect
      · exact hdirect.trans (hrest _ _ _)

theorem inodeExtend_sameFiles (ha : ∀ s, SameFiles s (alloc s).2) (s : FileSys) (p : Nat)
    (length : Int) : SameFiles s (inodeExtend alloc s p length).2 := by
  have hreserve := inodeReserve_sameFiles ha s (s.inode p).data length
  unfold inodeExtend
  dsimp only
  split
  · exact hreserve
  · exact hreserve

theorem inodeWriteAt_sameFiles (ha : ∀ s, SameFiles s (alloc s).2) (s : FileSys) (p : Nat)
    (buffer : List UInt8) (offset : Int) :
    SameFiles s (inodeWriteAt alloc s p buffer offset).2 := by
  unfold inodeWriteAt
  dsimp only
  split
  · exact .refl s
  · split
    · split
      · exact inodeExtend_sameFiles ha { s with cache := _ } p _
      · exact inodeExtend_sameFiles ha { s with cache := _ } p _
    · split
      · exact .refl s
      · exact .refl s

/-! ## The free map -/

theorem freeMapAllocate_sameFiles (depth : Nat) :
    ∀ (cnt : Nat) (s : FileSys), SameFiles s (freeMapAllocate depth cnt s).2 := by
  induction depth with
  | zero => exact fun _ s => .refl s
  | succ depth ih =>
      intro cnt s
      unfold freeMapAllocate
      dsimp only
      split
      · exact .refl s
      · split
        · exact .refl s
        · next sector hscan f hfile =>
            have hwrite := inodeWriteAt_sameFiles (ih 1)
              { s with freeMap := (bitmapScanAndFlip s.freeMap 0 cnt false).2 } f.inode
              (bitmapScanAndFlip s.freeMap 0 cnt false).2.toBytes 0
            split
            · exact hwrite
            · exact hwrite

theorem allocSector_sameFiles (s : FileSys) : SameFiles s (allocSector s).2 :=
  freeMapAllocate_sameFiles _ _ s

theorem freeMapRelease_sameFiles (s : FileSys) (sector cnt : Nat) :
    SameFiles s (freeMapRelease s sector cnt) := by
  unfold freeMapRelease
  dsimp only
  split
  · exact .refl s
  · exact inodeWriteAt_sameFiles allocSector_sameFiles { s with freeMap := _ } _ _ _

theorem deallocateLoop_sameFiles {f : FileSys → Nat → Nat → FileSys}
    (hf : ∀ s entry num, SameFiles s (f s entry num)) (unit : Nat) (blk : Sector) (cnt : Nat) :
    ∀ (i : Nat) (s : FileSys) (num : Nat),
      SameFiles s (deallocateLoop f unit blk cnt i s num) := by
  induction cnt with
  | zero => exact fun _ s _ => .refl s
  | succ cnt ih => exact fun i s num => (hf _ _ _).trans (ih _ _ _)

theorem deallocateIndirect_sameFiles (level : Nat) :
    ∀ (s : FileSys) (entry num : Nat), SameFiles s (deallocateIndirect level s entry num) := by
  induction level with
  | zero => exact fun s entry _ => freeMapRelease_sameFiles s entry 1
  | succ level ih =>
      intro s entry num
      unfold deallocateIndirect
      exact (deallocateLoop_sameFiles ih _ _ _ 0 (s.readSector entry).2 num).trans
        (freeMapRelease_sameFiles _ entry 1)

theorem deallocateDirect_sameFiles (d : Sector) (cnt : Nat) :
    ∀ (i : Nat) (s : FileSys), SameFiles s (deallocateDirect d cnt i s) := by
  induction cnt with
  | zero => exact fun _ s => .refl s
  | succ cnt ih => exact fun i s => (freeMapRelease_sameFiles s _ 1).trans (ih _ _)

theorem inodeDeallocate_sameFiles (s : FileSys) (d : Sector) :
    SameFiles s (inodeDeallocate s d) := by
  unfold inodeDeallocate
  split
  · exact .refl s
  · dsimp only
    have hdirect := deallocateDirect_sameFiles d
      (min (bytesToSectors (inodeLength d)) DIRECT_BLOCKS_COUNT) 0 s
    generalize deallocateDirect d (min (bytesToSectors (inodeLength d)) DIRECT_BLOCKS_COUNT) 0 s =
      t at hdirect
    generalize bytesToSectors (inodeLength d) - min (bytesToSectors (inodeLength d))
      DIRECT_BLOCKS_COUNT = num
    obtain ⟨u, hu⟩ : ∃ u, u = if 0 < min num INDIRECT_BLOCKS_PER_SECTOR then
      deallocateIndirect 1 t (indirectBlock d) (min num INDIRECT_BLOCKS_PER_SECTOR) else t :=
      ⟨_, rfl⟩
    have hone : SameFiles s u := by
      rw [hu]
      split
      · exact hdirect.trans (deallocateIndirect_sameFiles 1 t _ _)
      · exact hdirect
    rw [← hu]
    split
    · exact hone.trans (deallocateIndirect_sameFiles 2 u _ _)
    · exact hone

theorem inodeCreate_sameFiles (s : FileSys) (sector : Nat) (length : Int) (isDir : Bool) :
    SameFiles s (inodeCreate s sector length isDir).2 := by
  obtain ⟨t, ht⟩ : ∃ t, inodeReserve allocSector s (newInodeDisk length isDir) (int32 length) = t :=
    ⟨_, rfl⟩
  have hreserve := inodeReserve_sameFiles allocSector_sameFiles s (newInodeDisk length isDir)
    (int32 length)
  rw [ht] at hreserve
  rw [inodeCreate_eq ht]
  cases t.1.1 with
  | true => exact hreserve
  | false => exact hreserve

theorem inodeOpen_sameFiles (s : FileSys) (sector : Nat) : SameFiles s (inodeOpen s sector).2 := by
  unfold inodeOpen
  split
  · exact .refl s
  · exact .refl s

theorem inodeClose_sameFiles (s : FileSys) (p : Nat) : SameFiles s (inodeClose s p) := by
  unfold inodeClose
  split
  · exact .refl s
  · next i hi =>
      dsimp only
      split
      · obtain ⟨t, ht⟩ : ∃ t : FileSys, t = { s.setInode p { i with openCnt := i.openCnt - 1 } with
            mem := { (s.setInode p { i with openCnt := i.openCnt - 1 }).mem with
              openInodes :=
                (s.setInode p { i with openCnt := i.openCnt - 1 }).mem.openInodes.erase p } } :=
          ⟨_, rfl⟩
        have hsame : SameFiles s t := by
          rw [ht]
          exact .refl s
        dsimp only at ht
        rw [← ht]
        split
        · have hfreed := (hsame.trans (freeMapRelease_sameFiles t i.sector 1)).trans
            (inodeDeallocate_sameFiles (freeMapRelease t i.sector 1) i.data)
          exact hfreed
        · exact hsame
      · exact .refl s

/-! ## Directories -/

theorem dirOpenRoot_sameFiles (s : FileSys) : SameFiles s (dirOpenRoot s).2 := by
  unfold dirOpenRoot
  split
  · exact inodeOpen_sameFiles s ROOT_DIR_SECTOR
  · exact .refl s

theorem dirClose_sameFiles (s : FileSys) (d : Nat) : SameFiles s (dirClose s d) := by
  unfold dirClose
  dsimp only
  split
  · exact inodeClose_sameFiles (s.setDir d _) _
  · exact .refl s

theorem scanEntries_sameFiles (found : DirEntry → Bool) (inode n : Nat) :
    ∀ (s : FileSys) (ofs : Nat), SameFiles s (scanEntries found inode n s ofs).2 := by
  induction n with
  | zero => exact fun s _ => .refl s
  | succ n ih =>
      intro s ofs
      unfold scanEntries
      dsimp only
      have hread : SameFiles s (readEntry s inode ofs).2 := .refl _
      split
      · exact hread
      · split
        · exact hread
        · exact hread.trans (ih _ _)

theorem lookup_sameFiles (s : FileSys) (d : Nat) (name : CString) :
    SameFiles s (lookup s d name).2 := scanEntries_sameFiles ..

theorem openEntry_sameFiles (e : Option (DirEntry × Nat)) (s : FileSys) :
    SameFiles s (openEntry e s).2 := by
  cases e with
  | none => exact .refl s
  | some e => exact inodeOpen_sameFiles s _

theorem dirLookup_sameFiles (s : FileSys) (d : Nat) (name : CString) :
    SameFiles s (dirLookup s d name).2 := by
  unfold dirLookup
  split
  · exact .refl s
  · split
    · have hread : SameFiles s (readEntry s (s.dir d).inode 0).2 := .refl _
      exact hread.trans (inodeOpen_sameFiles _ _)
    · exact (lookup_sameFiles s d name).trans (openEntry_sameFiles _ _)

theorem dirWalk_sameFiles (path : List CString) :
    ∀ (s : FileSys) (curr : Nat), SameFiles s (dirWalk path s curr).2 := by
  induction path with
  | nil => exact fun s _ => .refl s
  | cons token rest ih =>
      intro s curr
      unfold dirWalk
      dsimp only
      have hlookup := dirLookup_sameFiles s curr token
      split
      · exact hlookup.trans (dirClose_sameFiles _ curr)
      · next inode hinode =>
          have hopen : SameFiles (dirLookup s curr token).2
              (dirOpen (dirLookup s curr token).2 inode).2 := .refl _
          exact ((hlookup.trans hopen).trans (dirClose_sameFiles _ curr)).trans (ih _ _)

theorem dirOpenPath_sameFiles (s : FileSys) (path : CString) :
    SameFiles s (dirOpenPath s path).2 := by
  unfold dirOpenPath
  extract_lets start r
  have hopened : SameFiles s start.2 := by
    unfold start
    split
    · exact dirOpenRoot_sameFiles s
    · split
      · exact dirOpenRoot_sameFiles s
      · exact .refl s
  have hwalk := hopened.trans (dirWalk_sameFiles (tokens path) start.2 start.1)
  split
  · exact hwalk
  · split
    · exact hwalk.trans (dirClose_sameFiles _ _)
    · exact hwalk

theorem writeEntry_sameFiles (s : FileSys) (inode : Nat) (e : DirEntry) (ofs : Int) :
    SameFiles s (writeEntry s inode e ofs).2 :=
  inodeWriteAt_sameFiles allocSector_sameFiles s inode e.toList ofs

theorem freeSlot_sameFiles (s : FileSys) (inode : Nat) : SameFiles s (freeSlot s inode).2 :=
  scanEntries_sameFiles ..

theorem addEntry_sameFiles (s : FileSys) (d : Nat) (name : CString) (inodeSector : Nat) :
    SameFiles s (addEntry s d name inodeSector false).2 :=
  (freeSlot_sameFiles s _).trans (writeEntry_sameFiles _ _ _ _)

theorem dirAdd_sameFiles (s : FileSys) (d : Nat) (name : CString) (inodeSector : Nat) :
    SameFiles s (dirAdd s d name inodeSector false).2 := by
  have hlookup := lookup_sameFiles s d name
  unfold dirAdd
  dsimp only
  split
  · exact .refl s
  · split
    · exact hlookup
    · exact hlookup.trans (addEntry_sameFiles _ d name inodeSector)

theorem removeEntry_sameFiles (d : Nat) (e : Option (DirEntry × Nat)) (s : FileSys) :
    SameFiles s (removeEntry d e s).2 := by
  cases e with
  | none => exact .refl s
  | some e =>
      obtain ⟨i, hi⟩ : ∃ i, i = inodeOpen s e.1.inodeSector := ⟨_, rfl⟩
      have hopen : SameFiles s i.2 := by
        rw [hi]
        exact inodeOpen_sameFiles s _
      obtain ⟨t, ht⟩ : ∃ t : Bool × FileSys, t = if inodeIsDir (i.2.inode i.1).data then
          ((dirIsEmpty (dirOpen i.2 i.1).2 (dirOpen i.2 i.1).1).1,
            dirClose (dirIsEmpty (dirOpen i.2 i.1).2 (dirOpen i.2 i.1).1).2 (dirOpen i.2 i.1).1)
        else (true, i.2) := ⟨_, rfl⟩
      have hkind : SameFiles s t.2 := by
        rw [ht]
        split
        · have hdir : SameFiles i.2 (dirOpen i.2 i.1).2 := .refl _
          exact ((hopen.trans hdir).trans (scanEntries_sameFiles ..)).trans
            (dirClose_sameFiles _ _)
        · exact hopen
      unfold removeEntry
      dsimp only
      rw [← hi, ← ht]
      have hwrite := writeEntry_sameFiles t.2 (t.2.dir d).inode (e.1.setInUse false) e.2
      split
      · exact hkind.trans (inodeClose_sameFiles _ _)
      · split
        · exact (hkind.trans hwrite).trans (inodeClose_sameFiles _ _)
        · exact (hkind.trans hwrite).trans (inodeClose_sameFiles (inodeRemove _ i.1) i.1)

theorem dirRemove_sameFiles (s : FileSys) (d : Nat) (name : CString) :
    SameFiles s (dirRemove s d name).2 := by
  have hlookup := lookup_sameFiles s d name
  unfold dirRemove
  generalize lookup s d name = r at hlookup
  exact hlookup.trans (removeEntry_sameFiles d r.1 r.2)

/-! ## Names -/

theorem makeInode_sameFiles (s : FileSys) (d : Nat) (name : CString) (k : Nat) (size : Int) :
    SameFiles s (makeInode s d name k size).2 := by
  obtain ⟨t, ht⟩ : ∃ t, inodeCreate s k size false = t := ⟨_, rfl⟩
  have hcreate := inodeCreate_sameFiles s k size false
  rw [ht] at hcreate
  cases hdone : t.1 with
  | true =>
      rw [makeInode_true ht hdone]
      exact hcreate.trans (dirAdd_sameFiles t.2 d name k)
  | false =>
      rw [makeInode_false ht hdone]
      exact hcreate

theorem filesysCreate_sameFiles (s : FileSys) (path : CString) (size : Int) :
    SameFiles s (filesysCreate s path size false).2 := by
  obtain ⟨d, hd⟩ : ∃ d, dirOpenRoot s = d := ⟨_, rfl⟩
  obtain ⟨o, t, ha⟩ : ∃ o t, allocSector d.2 = (o, t) := ⟨_, _, rfl⟩
  have hroot := dirOpenRoot_sameFiles s
  have halloc := allocSector_sameFiles d.2
  rw [hd] at hroot
  rw [ha] at halloc
  have hboth : SameFiles s t := hroot.trans halloc
  cases o with
  | none =>
      rw [filesysCreate_none hd ha]
      exact hboth.trans (dirClose_sameFiles t d.1)
  | some sector =>
      have hmake := hboth.trans (makeInode_sameFiles t d.1 (splitPathFilename path).2 sector size)
      rw [filesysCreate_some hd ha rfl]
      generalize makeInode t d.1 (splitPathFilename path).2 sector size = r at hmake
      have hkeep : SameFiles s (keepInode r sector) := by
        unfold keepInode
        split
        · exact hmake.trans (freeMapRelease_sameFiles r.2 sector 1)
        · exact hmake
      exact hkeep.trans (dirClose_sameFiles _ d.1)

theorem filesysOpen_sameFiles (s : FileSys) (name : CString) :
    SameFiles s (filesysOpen s name).2 := by
  unfold filesysOpen
  split
  · exact .refl s
  · dsimp only
    have hroot := dirOpenRoot_sameFiles s
    have hlook := (hroot.trans (dirLookup_sameFiles (dirOpenRoot s).2 (dirOpenRoot s).1
      (splitPathFilename name).2)).trans (dirClose_sameFiles _ (dirOpenRoot s).1)
    obtain ⟨r, hr⟩ : ∃ r : Option Nat × FileSys, r = if 0 < (splitPathFilename name).2.length then
        ((dirLookup (dirOpenRoot s).2 (dirOpenRoot s).1 (splitPathFilename name).2).1,
          dirClose (dirLookup (dirOpenRoot s).2 (dirOpenRoot s).1 (splitPathFilename name).2).2
            (dirOpenRoot s).1)
      else (some ((dirOpenRoot s).2.dir (dirOpenRoot s).1).inode, (dirOpenRoot s).2) := ⟨_, rfl⟩
    have hsame : SameFiles s r.2 := by
      rw [hr]
      split
      · exact hlook
      · exact hroot
    rw [← hr]
    split
    · exact hsame
    · split
      · exact hsame
      · exact hsame

theorem filesysRemove_sameFiles (s : FileSys) (name : CString) :
    SameFiles s (filesysRemove s name).2 := by
  have hopen := dirOpenPath_sameFiles s (splitPathFilename name).1
  unfold filesysRemove
  dsimp only
  generalize dirOpenPath s (splitPathFilename name).1 = o at hopen
  split
  · exact hopen
  · next dir hdir =>
      have hremove := hopen.trans (dirRemove_sameFiles o.2 dir (splitPathFilename name).2)
      generalize dirRemove o.2 dir (splitPathFilename name).2 = r at hremove
      exact hremove.trans (dirClose_sameFiles r.2 dir)

theorem fsutilCreate_sameFiles (s : FileSys) (name : CString) (size : Int) :
    SameFiles s (fsutilCreate s name size).2 := by
  unfold fsutilCreate
  split
  · exact .refl s
  · exact filesysCreate_sameFiles s name size

theorem fileWrite_sameFiles (s : FileSys) (f : File) (buffer : List UInt8) :
    SameFiles s (fileWrite s f buffer).2 :=
  inodeWriteAt_sameFiles allocSector_sameFiles s f.inode _ f.pos

theorem fileClose_sameFiles (s : FileSys) (f : File) : SameFiles s (fileClose s f) := by
  have hallow : SameFiles s (fileAllowWrite s f) := by
    unfold fileAllowWrite
    split
    · exact .refl s
    · exact .refl s
  exact hallow.trans (inodeClose_sameFiles _ _)

/-! ## Mounting -/

theorem freeMapCreate_sameFiles (s : FileSys) : SameFiles s (freeMapCreate s).2 := by
  obtain ⟨c, hc⟩ : ∃ c, inodeCreate s FREE_MAP_SECTOR (byteCnt s.freeMap.bitCnt) false = c :=
    ⟨_, rfl⟩
  obtain ⟨i, hi⟩ : ∃ i, inodeOpen c.2 FREE_MAP_SECTOR = i := ⟨_, rfl⟩
  have h₁ : SameFiles s c.2 := hc ▸ inodeCreate_sameFiles s FREE_MAP_SECTOR _ false
  have h₂ : SameFiles c.2 i.2 := hi ▸ inodeOpen_sameFiles c.2 FREE_MAP_SECTOR
  rw [freeMapCreate_eq hc hi rfl]
  exact (h₁.trans h₂).trans (inodeWriteAt_sameFiles allocSector_sameFiles _ _ _ _)

theorem dirCreate_eq {k n : Nat} {c w : Bool × FileSys} {i d : Nat × FileSys}
    (hc : inodeCreate s k (n * ENTRY_SIZE) true = c) (hi : inodeOpen c.2 k = i)
    (hd : dirOpen i.2 i.1 = d)
    (hw : writeEntry d.2 i.1 (DirEntry.setInUse (DirEntry.setInodeSector .zeros k) true) 0 = w) :
    dirCreate s k n = if c.1 = false then (false, c.2) else (w.1, dirClose w.2 d.1) := by
  subst hw hd hi hc
  rfl

theorem dirCreate_sameFiles (s : FileSys) (k n : Nat) : SameFiles s (dirCreate s k n).2 := by
  obtain ⟨c, hc⟩ : ∃ c, inodeCreate s k (n * ENTRY_SIZE) true = c := ⟨_, rfl⟩
  obtain ⟨i, hi⟩ : ∃ i, inodeOpen c.2 k = i := ⟨_, rfl⟩
  obtain ⟨d, hd⟩ : ∃ d, dirOpen i.2 i.1 = d := ⟨_, rfl⟩
  obtain ⟨w, hw⟩ : ∃ w, writeEntry d.2 i.1
    (DirEntry.setInUse (DirEntry.setInodeSector .zeros k) true) 0 = w := ⟨_, rfl⟩
  have h₁ : SameFiles s c.2 := hc ▸ inodeCreate_sameFiles s k _ true
  have h₂ : SameFiles c.2 i.2 := hi ▸ inodeOpen_sameFiles c.2 k
  have h₃ : SameFiles i.2 d.2 := by
    rw [← hd]
    exact .refl _
  have h₄ : SameFiles d.2 w.2 := hw ▸ writeEntry_sameFiles d.2 i.1 _ 0
  rw [dirCreate_eq hc hi hd hw]
  split
  · exact h₁
  · exact (((h₁.trans h₂).trans h₃).trans h₄).trans (dirClose_sameFiles w.2 d.1)

theorem freeMapClose_sameFiles (s : FileSys) : SameFiles s (freeMapClose s) := by
  unfold freeMapClose
  split
  · exact .refl s
  · exact fileClose_sameFiles s _

theorem freeMapOpen_sameFiles (s : FileSys) : SameFiles s (freeMapOpen s).2 := by
  have hopen := inodeOpen_sameFiles s FREE_MAP_SECTOR
  unfold freeMapOpen
  generalize inodeOpen s FREE_MAP_SECTOR = i at hopen ⊢
  dsimp only
  unfold bitmapRead
  split
  · exact hopen
  · exact hopen

theorem doFormat_sameFiles (s : FileSys) : SameFiles s (doFormat s).2 := by
  obtain ⟨m, hm⟩ : ∃ m, freeMapCreate s = m := ⟨_, rfl⟩
  obtain ⟨r, hr⟩ : ∃ r, dirCreate m.2 ROOT_DIR_SECTOR MAX_FILES_IN_DIRECTORY = r := ⟨_, rfl⟩
  have hdo : doFormat s = (m.1 && r.1, freeMapClose r.2) := by
    unfold doFormat
    rw [hm]
    dsimp only
    rw [hr]
  have h₁ : SameFiles s m.2 := hm ▸ freeMapCreate_sameFiles s
  have h₂ : SameFiles m.2 r.2 := hr ▸ dirCreate_sameFiles m.2 _ _
  rw [hdo]
  exact (h₁.trans h₂).trans (freeMapClose_sameFiles r.2)

theorem filesysInit_eq {format : Bool} {c : CacheState} {stray : Int → UInt8} {s₀ : FileSys}
    {f o : Bool × FileSys} (hs : filesysStart c stray = s₀)
    (hf : (if format then doFormat s₀ else (true, s₀)) = f) (ho : freeMapOpen f.2 = o) :
    filesysInit format c stray = (f.1 && o.1, o.2) := by
  unfold filesysInit
  rw [hs, hf]
  dsimp only
  rw [ho]

/-- A mounted disk has no file open. -/
theorem filesysInit_fileTable (format : Bool) (c : CacheState) (stray : Int → UInt8) :
    (filesysInit format c stray).2.mem.fileTable = [] := by
  obtain ⟨s₀, hs⟩ : ∃ s₀, filesysStart c stray = s₀ := ⟨_, rfl⟩
  obtain ⟨f, hf⟩ : ∃ f, (if format then doFormat s₀ else (true, s₀)) = f := ⟨_, rfl⟩
  obtain ⟨o, ho⟩ : ∃ o, freeMapOpen f.2 = o := ⟨_, rfl⟩
  have hstart : s₀.mem.fileTable = [] := by
    rw [← hs]
    rfl
  have hformat : SameFiles s₀ f.2 := by
    rw [← hf]
    split
    · exact doFormat_sameFiles s₀
    · exact .refl s₀
  have hopen : SameFiles f.2 o.2 := ho ▸ freeMapOpen_sameFiles f.2
  rw [filesysInit_eq hs hf ho]
  exact (hformat.trans hopen).1.trans hstart

/-! ## The memory nobody owns -/

theorem openFile_stray (s : FileSys) (name : CString) :
    (openFile s name).2.mem.stray = s.mem.stray := by
  unfold openFile
  split
  · rfl
  · have hopen := filesysOpen_sameFiles s name
    dsimp only
    split
    · exact hopen.2
    · unfold addToFileTable
      split
      · exact hopen.2
      · exact hopen.2

theorem fsutilSize_stray (s : FileSys) (name : CString) :
    (fsutilSize s name).2.mem.stray = s.mem.stray := by
  have hopen := openFile_stray s name
  unfold fsutilSize
  generalize openFile s name = o at hopen ⊢
  dsimp only
  split
  · exact hopen
  · exact hopen

theorem fsutilWrite_stray (s : FileSys) (name : CString) (buffer : List UInt8) :
    (fsutilWrite s name buffer).2.mem.stray = s.mem.stray := by
  have hopen := openFile_stray s name
  unfold fsutilWrite
  generalize openFile s name = o at hopen ⊢
  dsimp only
  split
  · exact hopen
  · next f hf => exact (fileWrite_sameFiles o.2 f buffer).2.trans hopen

theorem fsutilRead_stray (s : FileSys) (name : CString) (size : Int) :
    (fsutilRead s name size).2.mem.stray = s.mem.stray := by
  have hopen := openFile_stray s name
  unfold fsutilRead
  generalize openFile s name = o at hopen ⊢
  dsimp only
  split
  · exact hopen
  · exact hopen

end SameFiles

end SimpleShell.Fs
