import SimpleShell.Fs.Inverse
import SimpleShell.Fs.Smooth

/-!
# Every sector has one owner

The owners are read off the state: the two system inodes, and for every file in the root
directory its inode; an inode owns its own sector, its data sectors and its index blocks.
While nothing fails no sector has two owners, and the free map marks those that have one.
-/

namespace SimpleShell.Fs

open SimpleShell.Lib

/-- The sectors of the inodes: the free map's, the root directory's and the files'. -/
def FileSys.inodeSectors (s : FileSys) : List Nat :=
  FREE_MAP_SECTOR :: ROOT_DIR_SECTOR :: s.entries.map Prod.snd

/-- The data sectors and the index blocks that the inode `d` points to. -/
def pointers (f : Nat → Sector) (d : Sector) : List Nat :=
  (inodeSlots (numSectors d)).map (slotVal f d)

/-- All sectors that something is in, one entry for each purpose. -/
def FileSys.ownedSectors (s : FileSys) : List Nat :=
  s.inodeSectors.flatMap fun k => k :: pointers s.content (s.inodeData k)

section Ownership

variable {D K : Set Nat} {dat : Nat → Sector} {s : FileSys} {j k v : Nat}

theorem Session.mem_inodeSectors (hs : Session D K dat s 0) :
    k ∈ s.inodeSectors ↔ k ∈ K := by
  unfold FileSys.inodeSectors
  rw [List.mem_cons, List.mem_cons, List.mem_map, hs.entries]
  constructor
  · rintro (rfl | rfl | ⟨⟨n, i⟩, hn, rfl⟩)
    · exact hs.mounted.vol.zero
    · exact hs.root_mem
    · exact hs.names.listed n i hn
  · intro hk
    rcases hs.names.mem k hk with h₀ | h₁ | ⟨n, hn⟩
    · exact .inl h₀
    · exact .inr (.inl h₁)
    · exact .inr (.inr ⟨(n, k), hn, rfl⟩)

theorem Session.nodup_inodeSectors (hs : Session D K dat s 0) : s.inodeSectors.Nodup := by
  unfold FileSys.inodeSectors
  rw [hs.entries, List.nodup_cons, List.nodup_cons]
  refine ⟨?_, ?_, hs.names.sectors⟩
  · intro hmem
    rcases List.mem_cons.1 hmem with hne | hmem
    · exact absurd hne (by decide)
    · obtain ⟨⟨n, i⟩, hn, hi⟩ := List.mem_map.1 hmem
      exact (hs.names.file n i hn).1 hi
  · intro hmem
    obtain ⟨⟨n, i⟩, hn, hi⟩ := List.mem_map.1 hmem
    exact (hs.names.file n i hn).2.1 hi

theorem Vol.pointer_ne_zero (h : Vol D K dat s) (hk : k ∈ K)
    (hv : v ∈ pointers s.content (dat k)) : v ≠ 0 := by
  obtain ⟨a, ha, rfl⟩ := List.mem_map.1 hv
  exact (h.file k hk).mapped.ne a ha

/-- A pointer is to no inode, and no two pointers are the same. -/
theorem Vol.pointer_apart (h : Vol D K dat s) (hj : j ∈ K) (hk : k ∈ K)
    (hv : v ∈ pointers s.content (dat k)) : v ≠ j := by
  by_cases hj₀ : j = 0
  · rw [hj₀]
    exact h.pointer_ne_zero hk hv
  · obtain ⟨a, -, rfl⟩ := List.mem_map.1 hv
    exact h.slot_apart hj hj₀ hk

theorem Vol.nodup_pointers (h : Vol D K dat s) (hk : k ∈ K) :
    (pointers s.content (dat k)).Nodup :=
  (nodup_inodeSlots _).map_on fun a ha b hb heq => (h.file k hk).mapped.inj a ha b hb heq

theorem Vol.disjoint_pointers (h : Vol D K dat s) (hj : j ∈ K) (hk : k ∈ K) (hjk : j ≠ k) :
    List.Disjoint (pointers s.content (dat j)) (pointers s.content (dat k)) := by
  intro v hvj hvk
  obtain ⟨a, ha, rfl⟩ := List.mem_map.1 hvj
  obtain ⟨b, -, heq⟩ := List.mem_map.1 hvk
  exact hjk (h.slot_inj hj hk ((h.file j hj).mapped.ne a ha) heq.symm).1

theorem Session.mem_ownedSectors (hs : Session D K dat s 0) :
    v ∈ s.ownedSectors ↔ v ∈ K ∨ ∃ k ∈ K, v ∈ pointers s.content (dat k) := by
  unfold FileSys.ownedSectors
  rw [List.mem_flatMap]
  constructor
  · rintro ⟨k, hk, hv⟩
    rw [hs.mem_inodeSectors] at hk
    rw [hs.mounted.inodeData hk] at hv
    rcases List.mem_cons.1 hv with rfl | hv
    · exact .inl hk
    · exact .inr ⟨k, hk, hv⟩
  · rintro (hv | ⟨k, hk, hv⟩)
    · exact ⟨v, hs.mem_inodeSectors.2 hv, List.mem_cons_self⟩
    · refine ⟨k, hs.mem_inodeSectors.2 hk, List.mem_cons_of_mem _ ?_⟩
      rw [hs.mounted.inodeData hk]
      exact hv

/-- No sector is shared. -/
theorem Session.nodup_ownedSectors (hs : Session D K dat s 0) : s.ownedSectors.Nodup := by
  have hvol := hs.mounted.vol
  unfold FileSys.ownedSectors
  rw [List.nodup_flatMap]
  constructor
  · intro k hk
    rw [hs.mem_inodeSectors] at hk
    rw [hs.mounted.inodeData hk]
    exact List.nodup_cons.2 ⟨fun hmem => hvol.pointer_apart hk hk hmem rfl,
      hvol.nodup_pointers hk⟩
  · refine hs.nodup_inodeSectors.pairwise_of_forall_ne fun j hj k hk hjk => ?_
    rw [hs.mem_inodeSectors] at hj hk
    dsimp only [Function.onFun]
    rw [hs.mounted.inodeData hj, hs.mounted.inodeData hk]
    refine List.disjoint_cons_left.2 ⟨?_, List.disjoint_cons_right.2 ⟨?_, ?_⟩⟩
    · intro hmem
      rcases List.mem_cons.1 hmem with heq | hmem
      · exact hjk heq
      · exact hvol.pointer_apart hj hk hmem rfl
    · exact fun hmem => hvol.pointer_apart hk hj hmem rfl
    · exact hvol.disjoint_pointers hj hk hjk

/-- And none is lost. -/
theorem Sound.used_iff (h : Sound D K dat s) : s.used v ↔ v ∈ s.ownedSectors := by
  have hvol := h.session.mounted.vol
  rw [h.session.mem_ownedSectors]
  constructor
  · intro hv
    rcases h.exact.used v hv with hk | ⟨⟨⟨k, hk⟩, a⟩, hx⟩
    · exact .inl hk
    · by_cases ha : a ∈ inodeSlots (numSectors (dat k))
      · exact .inr ⟨k, hk, List.mem_map.2 ⟨a, ha, hx⟩⟩
      · -- A pointer past the length is null, and sector 0 is an inode's.
        obtain rfl : v = 0 := hx.symm.trans (h.exact.null k hk a ha)
        exact .inl hvol.zero
  · rintro (hv | ⟨k, hk, hv⟩)
    · exact hvol.owned v hv
    · have hne := hvol.pointer_ne_zero hk hv
      obtain ⟨a, -, rfl⟩ := List.mem_map.1 hv
      exact hvol.slot_used hk hne

/-- While nothing fails every sector that is marked has one owner, and those that are not
marked have none. -/
theorem smooth_ownership (h : Smooth s) :
    s.ownedSectors.Nodup ∧ ∀ v, bitmapTest s.freeMap v = true ↔ v ∈ s.ownedSectors := by
  obtain ⟨D, K, dat, hs⟩ := h.sound
  exact ⟨hs.session.nodup_ownedSectors, fun v => hs.used_iff⟩

/-- A disk that was just formatted, with a file of one byte made on it. -/
theorem oneByte_smooth : ∃ s k, Smooth s ∧ s.entries = [([97], k)] ∧
    (s.bytes k).length = 1 := by
  obtain ⟨s, hinit, -, -, -, habsent, hcreate⟩ := blankDisk_create 1 (by decide) (by decide)
  obtain ⟨D, dat, hf⟩ := filesysInit_format hinit
  have hint : int32 ((1 : Nat) : Int) = 1 := int32_eq (by decide) (by decide)
  have hmodest : (Command.create [97] (1 : Nat)).Modest s := by
    refine ⟨plainName_a, habsent, by rw [hint]; decide, by rw [hint]; decide, fun hfull => ?_⟩
    rw [hf.session.bytes hf.session.root_mem] at hfull
    exact absurd hfull hf.slack
  obtain ⟨dat', -, -, hcase⟩ := fsutilCreate_spec hf.session plainName_a ((1 : Nat) : Int)
  rcases hcase with ⟨-, k, hmade, hs'⟩ | ⟨hfalse, -⟩
  · refine ⟨_, k, .exec _ (.format hinit) hmodest hmade.allocFailures, ?_, ?_⟩
    · change (fsutilCreate s [97] (1 : Nat)).2.entries = _
      rw [hs'.entries]
      have hperm := hmade.listing
      rw [hf.empty] at hperm
      exact List.perm_singleton.1 hperm
    · change ((fsutilCreate s [97] (1 : Nat)).2.bytes k).length = 1
      rw [hs'.bytes (.inl rfl), hmade.content, hint]
      rfl
  · rw [hfalse] at hcreate
    cases hcreate

/-- It has six owners at least: two inodes of the system, one of the file, and their data. -/
theorem smooth_ownership_oneByte : ∃ s k, Smooth s ∧ s.entries = [([97], k)] ∧
    s.ownedSectors.Nodup ∧ ∀ v, bitmapTest s.freeMap v = true ↔ v ∈ s.ownedSectors := by
  obtain ⟨s, k, h, hentries, -⟩ := oneByte_smooth
  exact ⟨s, k, h, hentries, smooth_ownership h⟩

end Ownership

end SimpleShell.Fs
