import SimpleShell.Fs.Format

/-!
# Reachable states and what can be seen of them

`Reachable` is every state that ordinary commands lead to from a formatted
disk, whether their allocations succeed or not. What a state says of a file is
read off the state alone: the inode of a sector is the open one, or else what
the sector holds, and its bytes are those that `inode_read_at` would find.
-/

namespace SimpleShell.Fs

open SimpleShell.Lib

namespace FileSys

/-- The open inode of sector `k`. -/
def openInode (s : FileSys) (k : Nat) : Option Nat :=
  s.mem.openInodes.find? fun p => (s.inode p).sector == k

/-- The inode of sector `k` as the program sees it. -/
def inodeData (s : FileSys) (k : Nat) : Sector :=
  match s.openInode k with
  | some p => (s.inode p).data
  | none => s.content k

/-- The bytes of the file whose inode is in sector `k`. -/
def bytes (s : FileSys) (k : Nat) : List UInt8 := fileContent s.content (s.inodeData k)

/-- The names in the root directory, with the sectors of their inodes. -/
def entries (s : FileSys) : List (CString × Nat) := listing (s.bytes ROOT_DIR_SECTOR)

end FileSys

inductive Reachable : FileSys → Prop where
  | format {c : CacheState} {stray : Int → UInt8} {s : FileSys} :
      filesysInit true c stray = (true, s) → Reachable s
  | exec {s : FileSys} (command : Command) :
      Reachable s → command.Ordinary → Reachable (s.exec command)

section View

variable {D K : Set Nat} {dat : Nat → Sector} {s s' : FileSys} {c k : Nat} {n : CString}

theorem Mounted.inodeData (h : Mounted D K dat s) (hk : k ∈ K) : s.inodeData k = dat k := by
  unfold FileSys.inodeData FileSys.openInode
  cases hfind : s.mem.openInodes.find? fun p => (s.inode p).sector == k with
  | some p =>
      have hmem := List.mem_of_find?_eq_some hfind
      have hsec : (s.inode p).sector = k := by simpa using List.find?_some hfind
      rw [← hsec]
      exact (h.opened p hmem).1.data
  | none =>
      refine h.closed k hk fun p hp => ?_
      simpa using List.find?_eq_none.1 hfind p hp

theorem Mounted.bytes (h : Mounted D K dat s) (hk : k ∈ K) :
    s.bytes k = fileContent s.content (dat k) := by
  unfold FileSys.bytes
  rw [h.inodeData hk]

theorem Mounted.entries (h : Mounted D K dat s) (hroot : ROOT_DIR_SECTOR ∈ K) :
    s.entries = listing (rootBytes s.content dat) := by
  unfold FileSys.entries
  rw [h.bytes hroot]
  rfl

theorem Session.bytes (hs : Session D K dat s c) (hk : k ∈ K) :
    s.bytes k = fileContent s.content (dat k) := hs.mounted.bytes hk

theorem Session.entries (hs : Session D K dat s c) :
    s.entries = listing (rootBytes s.content dat) := hs.mounted.entries hs.root_mem

theorem Session.listed (hs : Session D K dat s c) (hn : (n, k) ∈ s.entries) :
    k ∈ K ∧ k ≠ 0 ∧ k ≠ ROOT_DIR_SECTOR := by
  rw [hs.entries] at hn
  have hfile := hs.names.file n k hn
  exact ⟨hs.names.listed n k hn, hfile.1, hfile.2.1⟩

theorem Quiet.entries {dat' : Nat → Sector} (h : Quiet D K dat s 0 dat' s')
    (hs : Session D K dat s 0) : s'.entries = s.entries := by
  rw [h.session.entries, hs.entries, h.still.rootBytes hs]

theorem Quiet.fileBytes {dat' : Nat → Sector} (h : Quiet D K dat s 0 dat' s') (hs : Session D K dat s 0)
    (hk : k ∈ K) : s'.bytes k = s.bytes k := by
  rw [h.session.bytes hk, hs.bytes hk]
  exact (h.still.sameFile hs.mounted hk).content

/-- Every reachable state is a session between two commands. -/
theorem Reachable.session (h : Reachable s) : ∃ D K dat, Session D K dat s 0 := by
  induction h with
  | format h =>
      obtain ⟨D, dat, hf⟩ := filesysInit_format h
      exact ⟨D, _, dat, hf.session⟩
  | exec command _ hc ih =>
      obtain ⟨D, K, dat, hs⟩ := ih
      obtain ⟨K', dat', hs'⟩ := exec_session hs hc
      exact ⟨D, K', dat', hs'⟩

theorem Reachable.run {commands : List Command} (h : Reachable s)
    (hc : ∀ command ∈ commands, command.Ordinary) : Reachable (s.run commands) := by
  induction commands generalizing s with
  | nil => exact h
  | cons command commands ih =>
      exact ih (.exec command h (hc command List.mem_cons_self))
        fun x hx => hc x (List.mem_cons_of_mem _ hx)

/-- A disk of `n` zeroed sectors, before the cache has read anything. -/
def blankDisk (n : Nat) (h : n < 2 ^ 23 := by decide) : CacheState where
  cache := fun _ => ⟨false, 0, .zeros, false, false⟩
  clock := clockStart
  fsDevice := .blank n h

end View

end SimpleShell.Fs
