import SimpleShell.Fs.DirMap
import SimpleShell.Fs.Fresh

/-!
# An inode is a growable array

From `inode_create` on, through any sequence of writes, an inode holds what the library's
growable array does: a write past the end makes it longer and fills the gap with zeros. The
free map's own inode is left out: `free_map_allocate` writes to it during the call.
-/

namespace SimpleShell.Fs

open SimpleShell.Lib

/-- One call after the other, each of at least a byte and within what an inode can hold, and
none of which is refused a sector. -/
inductive WriteRun (p : Nat) (s : FileSys) : List (Nat × List UInt8) → FileSys → Prop where
  | nil : WriteRun p s [] s
  | write {ws : List (Nat × List UInt8)} {s' : FileSys} (o : Nat) (b : List UInt8) :
      WriteRun p s ws s' → b ≠ [] → (o + b.length : Int) ≤ MAX_LENGTH →
      (inodeWriteAt allocSector s' p b o).2.allocFailures = s'.allocFailures →
      WriteRun p s (ws ++ [(o, b)]) (inodeWriteAt allocSector s' p b o).2

/-- The array after the writes `ws` on an inode that was made `n` bytes long. -/
def reference (n : Nat) (ws : List (Nat × List UInt8)) : List UInt8 :=
  ws.foldl (fun a w => overwrite 0 a w.1 w.2) (List.replicate n 0)

theorem reference_append (n : Nat) (ws : List (Nat × List UInt8)) (o : Nat) (b : List UInt8) :
    reference n (ws ++ [(o, b)]) = overwrite 0 (reference n ws) o b :=
  List.foldl_append ..

section Growable

variable {D K : Set Nat} {dat : Nat → Sector} {s s' : FileSys} {p k n o : Nat}
  {a b : List UInt8} {ws : List (Nat × List UInt8)} {isDir : Bool}

/-- `p` is the open inode of sector `k`, and `a` is what it holds. -/
structure Holds (D K : Set Nat) (dat : Nat → Sector) (s : FileSys) (p k : Nat)
    (a : List UInt8) : Prop where
  mounted : Mounted D K dat s
  opened : Opened dat s p k
  ne_zero : k ≠ 0
  tidy : Tidy s.content (dat k)
  content : fileContent s.content (dat k) = a

theorem Holds.write (h : Holds D K dat s p k a) (hb : b ≠ [])
    (hmax : (o + b.length : Int) ≤ MAX_LENGTH)
    (hfail : (inodeWriteAt allocSector s p b o).2.allocFailures = s.allocFailures) :
    (inodeWriteAt allocSector s p b o).1 = b.length ∧
      ∃ dat', Holds D K dat' (inodeWriteAt allocSector s p b o).2 p k (overwrite 0 a o b) := by
  have hk := h.mounted.opened_mem h.opened
  have hlimit := hmax
  simp only [MAX_LENGTH] at hlimit
  have hend : o + b.length < 2 ^ 31 := by omega
  obtain ⟨d', s', hw, hcase⟩ := inodeWriteAt_spec h.mounted.vol h.opened.isOpen hk h.ne_zero
    (List.length_pos_iff.2 hb) hend (.inr h.tidy)
  rcases hcase with ⟨heq, hstored⟩ | ⟨heq, hun⟩
  · have hm := hw.mounted h.mounted h.opened h.ne_zero
    have hopened : Opened (Function.update dat k d') s' p k := hm.opened_iff.2
      ⟨by rw [hw.openInodes]; exact h.opened.mem,
        (hw.sector h.opened.isOpen p).trans h.opened.isOpen.sector⟩
    have hself : Function.update dat k d' k = d' := Function.update_self ..
    rw [heq]
    refine ⟨rfl, _, hm, hopened, h.ne_zero, ?_, ?_⟩
    · rw [hself]
      exact hstored.tidy h.tidy
    · rw [hself, ← h.content]
      exact hstored.content
  · have hlt := hun.failed hmax
    rw [heq] at hfail
    exact absurd hlt (by rw [show s'.allocFailures = s.allocFailures from hfail]; omega)

/-- What `inode_create` and `inode_open` leave. -/
theorem holds_created (hm : Mounted D K dat s) (hs : Spare D K dat s k)
    (hcreate : (inodeCreate s k n isDir).1 = true) :
    let o := inodeOpen (inodeCreate s k n isDir).2 k
    ∃ K' dat', Holds D K' dat' o.2 o.1 k (List.replicate (int32 n).toNat 0) := by
  obtain ⟨d₀, d', s₁, heq, hnull, hlen, hdir, hnonneg, hmax, hhead, ho⟩ :=
    inodeCreate_reserved hm.vol.map hcreate
  have hmade := ho.made hm hs hnull hlen hdir hmax hnonneg hhead
  obtain ⟨hm', hopened, hdisk, -⟩ := inodeOpen_spec hmade.mounted (.inl rfl)
  rw [heq]
  dsimp only
  refine ⟨_, _, hm', hopened, hs.ne_zero, ?_, ?_⟩
  · rw [Function.update_self, hdisk.content]
    exact hmade.tidy
  · rw [Function.update_self, hdisk.content]
    exact hmade.content

theorem WriteRun.holds (hrun : WriteRun p s ws s')
    (h : Holds D K dat s p k (List.replicate n 0)) :
    ∃ dat', Holds D K dat' s' p k (reference n ws) := by
  induction hrun with
  | nil => exact ⟨dat, h⟩
  | write o b _ hb hmax hfail ih =>
      obtain ⟨dat₁, h₁⟩ := ih
      rw [reference_append]
      exact (h₁.write hb hmax hfail).2

/-- `inode_read_at` at any offset, for any number of bytes. -/
theorem Holds.read (h : Holds D K dat s p k a) (stray : Int → UInt8) (size o : Nat) :
    (inodeReadAt stray s.cache (s.inode p).data size o).1 = (a.drop o).take size := by
  have hfile := h.mounted.vol.file k (h.mounted.opened_mem h.opened)
  rw [h.opened.isOpen.data, inodeReadAt_content_eq hfile, ← h.content, Int.toNat_natCast]
  rfl

/-- Every write of every run stores all of its bytes, and what can be read afterwards is the
array that the run's writes make, the last one included. -/
theorem inode_growable (hm : Mounted D K dat s) (hs : Spare D K dat s k)
    (hcreate : (inodeCreate s k n isDir).1 = true)
    (hrun : WriteRun (inodeOpen (inodeCreate s k n isDir).2 k).1
      (inodeOpen (inodeCreate s k n isDir).2 k).2 ws s')
    (hb : b ≠ []) (hmax : (o + b.length : Int) ≤ MAX_LENGTH)
    (hfail : (inodeWriteAt allocSector s' (inodeOpen (inodeCreate s k n isDir).2 k).1 b
      o).2.allocFailures = s'.allocFailures) :
    let p := (inodeOpen (inodeCreate s k n isDir).2 k).1
    let w := inodeWriteAt allocSector s' p b o
    let old := reference (int32 n).toNat ws
    w.1 = b.length ∧ ∀ stray size' o',
      let r := (inodeReadAt stray w.2.cache (w.2.inode p).data (size' : Nat) (o' : Nat)).1
      r = ((overwrite 0 old o b).drop o').take size' ∧
        r.length = min size' (max old.length (o + b.length) - o') := by
  obtain ⟨K', dat', hcreated⟩ := holds_created hm hs hcreate
  obtain ⟨dat₁, h₁⟩ := hrun.holds hcreated
  obtain ⟨hall, dat₂, h₂⟩ := h₁.write hb hmax hfail
  refine ⟨hall, fun stray size' o' => ?_⟩
  have hread := h₂.read stray size' o'
  refine ⟨hread, ?_⟩
  rw [hread, List.length_take, List.length_drop, length_overwrite]

/-- A write that goes past the end, but not past the only sector, needs no further one. -/
theorem Holds.write_sector (h : Holds D K dat s p k a) (hpos : 0 < a.length) (hb : b ≠ [])
    (hpast : a.length < o + b.length) (hend : o + b.length ≤ BLOCK_SECTOR_SIZE) :
    (inodeWriteAt allocSector s p b o).2.allocFailures = s.allocFailures := by
  have hk := h.mounted.opened_mem h.opened
  have hfile := h.mounted.vol.file k hk
  have hlen : inodeLength (dat k) = a.length := by
    have hlength := congrArg List.length h.content
    rw [length_fileContent] at hlength
    have hnonneg := hfile.nonneg
    omega
  have hblen := List.length_pos_iff.2 hb
  have hone : ∀ n : Int, 0 < n → n ≤ BLOCK_SECTOR_SIZE → bytesToSectors n = 1 := by
    intro n h₀ h₁
    simp only [bytesToSectors, BLOCK_SECTOR_SIZE] at h₁ ⊢
    omega
  have hsize : (BLOCK_SECTOR_SIZE : Int) ≤ MAX_LENGTH := by decide
  have hcan : CanExtend s (dat k) (o + b.length) := by
    refine ⟨by omega, by omega, ?_⟩
    have hnone : missing (slotVal s.content (dat k))
        (inodeSlots (bytesToSectors (o + b.length))) = [] := by
      rw [hone _ (by omega) (by omega), ← hone (inodeLength (dat k)) (by omega) (by omega)]
      exact List.filter_eq_nil_iff.2 fun x hx => by simpa using hfile.mapped.ne x hx
    rw [hnone]
    exact Nat.zero_le _
  obtain ⟨d', s₁, c, hext, heq, -⟩ := inodeWriteAt_grown h.mounted.vol h.opened.isOpen hk h.ne_zero
    (by omega) hcan
  rw [heq]
  exact hext.allocFailures

/-- A file of one byte, on a disk that was just formatted: a write behind its end, and one
behind that. -/
theorem inode_growable_gap : ∃ (s : FileSys) (k : Nat), s.used k ∧
    (inodeCreate s k (1 : Nat) false).1 = true ∧
    let p := (inodeOpen (inodeCreate s k (1 : Nat) false).2 k).1
    let s₁ := (inodeWriteAt allocSector (inodeOpen (inodeCreate s k (1 : Nat) false).2 k).2 p [120]
      (3 : Nat)).2
    let w := inodeWriteAt allocSector s₁ p [121, 122] (5 : Nat)
    w.1 = 2 ∧ (inodeReadAt (fun _ => 0) w.2.cache (w.2.inode p).data (9 : Nat) (0 : Nat)).1 =
      [0, 0, 0, 120, 0, 121, 122] := by
  obtain ⟨s, hinit, -, hfree, -⟩ := blankDisk_create 1 (by decide) (by decide)
  obtain ⟨D, dat, hf⟩ := filesysInit_format hinit
  have hm := hf.session.mounted
  obtain ⟨k, s₁, -, ha⟩ := allocSector_free hm.vol.map (by rw [hfree]; decide)
  have hleft := ha.freeSectors hm.vol.map
  have hint : int32 ((1 : Nat) : Int) = 1 := int32_eq (by decide) (by decide)
  have hone : (inodeSlots (bytesToSectors 1)).length = 1 := by decide
  have hcreate : (inodeCreate s₁ k (1 : Nat) false).1 = true := by
    refine inodeCreate_enough (ha.mounted hm).vol.map ⟨?_, ?_, ?_⟩
    · rw [hint]
      decide
    · rw [hint]
      decide
    · rw [hint, hone]
      omega
  obtain ⟨K', dat', hholds⟩ := holds_created (ha.mounted hm) (ha.spare hm) hcreate
  rw [hint] at hholds
  have hfirst := hholds.write_sector (o := 3) (b := [120]) (by decide) (by decide) (by decide)
    (by decide)
  obtain ⟨dat₁, hgrown⟩ := (hholds.write (o := 3) (b := [120]) (by decide) (by decide) hfirst).2
  have hsecond := hgrown.write_sector (o := 5) (b := [121, 122]) (by decide) (by decide)
    (by decide) (by decide)
  obtain ⟨hall, hread⟩ := inode_growable (b := [121, 122]) (o := 5) (ha.mounted hm)
    (ha.spare hm) hcreate (.write 3 [120] .nil (by decide) (by decide) hfirst) (by decide)
    (by decide) hsecond
  refine ⟨s₁, k, ha.used_self hm, hcreate, hall, ?_⟩
  refine (hread (fun _ => 0) 9 0).1.trans ?_
  rw [hint]
  decide

end Growable

end SimpleShell.Fs
