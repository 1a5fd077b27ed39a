import SimpleShell.Lib.ByteBlock

/-!
# The block device

`block.c` and the driver under it: a disk image of 512-byte sectors behind
`block_read` and `block_write`. Three things about it are easy to miss.
`debug_panic` prints and returns, so `check_sector` stops nothing and an access
past the registered size still reaches the driver. There, a read past the end
of the image transfers nothing and leaves the caller's buffer as it was, and a
write past the end makes the image longer. And the driver's offset is a product
of 32 bits, so that it finds sector `2 ^ 23` where sector 0 is.

A `Driver` is what is left of `ide.c` above its `lseek`. `ide` is the source's;
`smallIde` is `ide` as long as no offset wraps, which is the driver that the
file system is modelled over: its images are below 4 GiB, and the sectors it
names are on them.
-/

namespace SimpleShell.Fs

open SimpleShell.Lib

abbrev BLOCK_SECTOR_SIZE : Nat := 512

abbrev Sector := ByteBlock BLOCK_SECTOR_SIZE

/-- Where in the image a driver looks for a sector, counted in sectors, and
what the sizes it registers are below. -/
structure Driver where
  imageSector : Nat → Nat
  sizes : Nat

/-- `ide_read` and `ide_write`: `sec_no * BLOCK_SECTOR_SIZE` is an `unsigned`
product, and so is what `lseek` is given. -/
def ide : Driver where
  imageSector := fun secNo => secNo * BLOCK_SECTOR_SIZE % 2 ^ 32 / BLOCK_SECTOR_SIZE
  sizes := 2 ^ 32

/-- The driver on images below 4 GiB, for the sector numbers that its offset
is exact for. -/
abbrev smallIde : Driver where
  imageSector := fun secNo => secNo
  sizes := 2 ^ 23

theorem ide_imageSector (k : Nat) : ide.imageSector k = k % 2 ^ 23 := by
  simp only [ide, BLOCK_SECTOR_SIZE]
  omega

/-- `struct block`: the size it was registered with, a `uint32_t`, and the
image, which covers that many sectors. -/
structure BlockOf (v : Driver) where
  size : Nat
  image : List Sector
  covers : size ≤ image.length
  fits : size < v.sizes

abbrev Block := BlockOf ide

variable {v : Driver}

namespace BlockOf

/-- A device of `n` zeroed sectors. -/
def blank (n : Nat) (h : n < v.sizes := by decide) : BlockOf v :=
  ⟨n, List.replicate n .zeros, by simp, h⟩

/-- Sector `k` of the device is where the driver looks for it. -/
abbrev Holds (d : BlockOf v) (k : Nat) : Prop := k < d.size ∧ v.imageSector k = k

/-- An access of `sector` reaches no other sector of the device. -/
def Straight (d : BlockOf v) (sector : Nat) : Prop :=
  ∀ k, d.Holds k → v.imageSector sector = k → sector = k

theorem size_small (d : BlockOf smallIde) : d.size < 2 ^ 32 :=
  Nat.lt_trans d.fits (by decide)

theorem straight_small {d : BlockOf smallIde} {sector : Nat} : d.Straight sector :=
  fun _ _ h => h

theorem Holds.of_size {d d' : BlockOf v} {k : Nat} (hsize : d'.size = d.size) (h : d.Holds k) :
    d'.Holds k :=
  ⟨hsize ▸ h.1, h.2⟩

theorem Straight.of_size {d d' : BlockOf v} {k : Nat} (hsize : d'.size = d.size)
    (h : d.Straight k) : d'.Straight k :=
  fun j hj => h j (hj.of_size hsize.symm)

theorem Holds.straight {d : BlockOf v} {k : Nat} (h : d.Holds k) : d.Straight k :=
  fun _ _ heq => h.2.symm.trans heq

end BlockOf

/-- `block_read`: `buffer` is what the caller's memory held before. -/
def blockRead (d : BlockOf v) (sector : Nat) (buffer : Sector) : Sector :=
  d.image.getD (v.imageSector sector) buffer

/-- The image after the driver wrote `buffer` at `sector`. -/
def writeImage (image : List Sector) (sector : Nat) (buffer : Sector) :
    List Sector :=
  if sector < image.length then image.set sector buffer
  else image ++ List.replicate (sector - image.length) .zeros ++ [buffer]

theorem length_writeImage_ge (image : List Sector) (sector : Nat)
    (buffer : Sector) : image.length ≤ (writeImage image sector buffer).length := by
  unfold writeImage
  split <;> simp

theorem writeImage_of_ne {image : List Sector} {sector k : Nat} {buffer x : Sector}
    (hk : k < image.length) (hne : k ≠ sector) :
    (writeImage image sector buffer).getD k x = image.getD k x := by
  unfold writeImage
  split
  · rw [List.getD_eq_getElem?_getD, List.getElem?_set_ne (Ne.symm hne),
      List.getD_eq_getElem?_getD]
  · rw [List.append_assoc, List.getD_eq_getElem?_getD,
      List.getElem?_append_left hk, List.getD_eq_getElem?_getD]

theorem writeImage_self {image : List Sector} {k : Nat} {buffer x : Sector}
    (hk : k < image.length) : (writeImage image k buffer).getD k x = buffer := by
  rw [writeImage, if_pos hk, List.getD_eq_getElem?_getD, List.getElem?_set_self hk]
  rfl

def blockWrite (d : BlockOf v) (sector : Nat) (buffer : Sector) : BlockOf v :=
  { d with
    image := writeImage d.image (v.imageSector sector) buffer
    covers := Nat.le_trans d.covers (length_writeImage_ge ..) }

@[simp] theorem blockWrite_size (d : BlockOf v) (s : Nat) (b : Sector) :
    (blockWrite d s b).size = d.size := rfl

/-- A sector of the device reads back what was written to it, and the others
do not change, as long as the access reaches no sector but its own. -/
theorem blockRead_blockWrite {d : BlockOf v} {s k : Nat} {b x : Sector}
    (hk : d.Holds k) (hs : d.Straight s) :
    blockRead (blockWrite d s b) k x = if k = s then b else blockRead d k x := by
  have hlen : k < d.image.length := Nat.lt_of_lt_of_le hk.1 d.covers
  simp only [blockRead, blockWrite]
  rw [hk.2]
  by_cases hks : k = s
  · rw [if_pos hks, ← hks, hk.2, writeImage_self hlen]
  · rw [if_neg hks, writeImage_of_ne hlen]
    exact fun heq => hks (hs k hk heq.symm).symm

theorem blockRead_indep {d : BlockOf v} {k : Nat} (hk : d.Holds k)
    (x y : Sector) : blockRead d k x = blockRead d k y := by
  have hlen : k < d.image.length := Nat.lt_of_lt_of_le hk.1 d.covers
  simp only [blockRead, hk.2, List.getD_eq_getElem?_getD, List.getElem?_eq_getElem hlen,
    Option.getD_some]

end SimpleShell.Fs
