import Logfs.Fs

/-!
# The layout of a formatted image

Which images `logfs_fs_format` lays out soundly. The inode table is sized as if
its records could cross block boundaries, while `inode_location` keeps each of
them in one block.
-/
namespace Logfs
open Interaction WriteCache ByteBuffer

def inodesPerBlock : ℕ := 4096 / inodeSize

/-- Block and byte offset of an inode's record. -/
def inodeLocation (sb : Super) (ino : UInt32) : UInt64 × ℕ :=
  let idx := (ino - 1).toUInt64
  (sb.inodeTableStart + idx / UInt64.ofNat inodesPerBlock, idx.toNat % inodesPerBlock * inodeSize)

/-- The bits `logfs_alloc_inode` looks at, in order. -/
def inodeBits (sb : Super) : List ℕ := (List.range sb.totalInodes.toNat).map (· + 1)

/-- The bits `logfs_alloc_block` looks at, in order. -/
def blockBits (sb : Super) : List ℕ := List.range (sb.totalBlocks - sb.dataStart).toNat

/-- First block and length of each part of the image, in the order they are laid out:
boot block, superblock, journal superblock, journal, the bitmaps, inode table, data. -/
def extents (sb : Super) : List (ℕ × ℕ) :=
  [(0, 1), (superBlockno.toNat, 1), (jsuperBlockno.toNat, 1),
    (sb.journalStart.toNat, sb.journalLen.toNat), (sb.inodeBitmapStart.toNat, 1),
    (sb.blockBitmapStart.toNat, 1), (sb.inodeTableStart.toNat, sb.inodeTableLen.toNat),
    (sb.dataStart.toNat, sb.totalBlocks.toNat - sb.dataStart.toNat)]

/-- The parts of the image are apart, and each bitmap has a bit for all it is about. -/
structure RegionsSound (sb : Super) : Prop where
  ordered : (extents sb).Pairwise fun a b => a.1 + a.2 ≤ b.1
  inside : ∀ e ∈ extents sb, e.1 + e.2 ≤ sb.totalBlocks.toNat
  inodeBits_lt : ∀ i ∈ inodeBits sb, i < 32768
  blockBits_lt : ∀ i ∈ blockBits sb, i < 32768

/-- Besides, the record of every inode number is in the inode table. -/
structure LayoutSound (sb : Super) : Prop extends RegionsSound sb where
  inodes : ∀ ino : UInt32, 1 ≤ ino.toNat → ino.toNat ≤ sb.totalInodes.toNat →
    sb.inodeTableStart.toNat ≤ (inodeLocation sb ino).1.toNat ∧
      (inodeLocation sb ino).1.toNat < sb.dataStart.toNat ∧
      (inodeLocation sb ino).2 + inodeSize ≤ 4096

instance (sb : Super) : Coe (LayoutSound sb) (RegionsSound sb) := ⟨LayoutSound.toRegionsSound⟩

/-! ## The sizes format computes -/

theorem totalInodesFor_bounds (n : UInt64) :
    16 ≤ (totalInodesFor n).toNat ∧ (totalInodesFor n).toNat ≤ 32767 := by
  simp only [totalInodesFor, maxBitmapUnits, UInt64.lt_iff_toNat_lt]
  split_ifs <;> simp_all

theorem toNat_inodeTableLenFor (totalBlocks : UInt64) :
    (inodeTableLenFor (totalInodesFor totalBlocks)).toNat =
      (144 * (totalInodesFor totalBlocks).toNat + 4095) / 4096 := by
  have hb := totalInodesFor_bounds totalBlocks
  simp only [inodeTableLenFor, inodeSize, UInt64.toNat_div, UInt64.toNat_sub, UInt64.toNat_add,
    UInt64.toNat_mul]
  simp
  omega

section Format
variable {totalBlocks journalLen : UInt64} {mode : DataMode}

/-- What a format that returned 0 has checked. -/
structure Accepted (totalBlocks journalLen : UInt64) (sb : Super) : Prop where
  room : ¬ totalBlocks < journalRegionStart + journalLen + 4
  data : sb.dataStart < totalBlocks
  bitmap : (totalBlocks - sb.dataStart).toNat ≤ 32768
  inodeBitmap : sb.inodeBitmapStart < totalBlocks

variable {σ : Type} {h : Handler (DevRes (A := UInt64) (B := Block) Errno) σ}

theorem run_ite_throw_ok {α β : Type} {P : Prop} [Decidable P] {e : Errno} {f : β → DevEM α}
    {p : DevEM α} {s : σ} {a : α}
    (hok : (run h (if P then throw e >>= f else p).run s).1 = .ok a) :
    ¬ P ∧ (run h p.run s).1 = .ok a := by
  by_cases hP : P
  · rw [if_pos hP] at hok
    have hfst : (Except.error e : Except Errno α) = .ok a := hok
    cases hfst
  · rw [if_neg hP] at hok
    exact ⟨hP, hok⟩

/-- Whatever the device does, a format that returns 0 has passed its checks. -/
theorem accepted_of_ok {host : Except Errno Unit} {now : UInt64} {s : σ}
    (hok : (run h (fsFormat host totalBlocks journalLen mode now).run s).1 = .ok ()) :
    Accepted totalBlocks journalLen (formatSuper totalBlocks journalLen mode) := by
  unfold fsFormat at hok
  obtain ⟨hroom, hok⟩ := run_ite_throw_ok hok
  obtain ⟨dev, t, hdev, hok⟩ := run_except_bind_ok hok
  obtain ⟨hdata, hok⟩ := run_ite_throw_ok hok
  obtain ⟨hbitmap, hok⟩ := run_ite_throw_ok hok
  simp only [writeImage] at hok
  obtain ⟨_, t', -, hok⟩ := run_except_bind_ok hok
  obtain ⟨_, t'', hwrite, -⟩ := run_except_bind_ok hok
  have hn : dev.nblocks = totalBlocks := by
    have hfst : bdevCreate host totalBlocks = .ok dev := congrArg Prod.fst hdev
    unfold bdevCreate at hfst
    cases host with
    | error e => cases hfst
    | ok u =>
        by_cases hz : totalBlocks = 0
        · rw [if_pos hz] at hfst; cases hfst
        · rw [if_neg hz] at hfst; cases hfst; rfl
  have hlt := lt_nblocks_of_bdevWrite hwrite
  rw [hn] at hlt
  refine ⟨hroom, by simpa using hdata, ?_, hlt⟩
  exact UInt64.le_iff_toNat_le.mp (UInt64.not_lt.mp hbitmap)

/-- Enough blocks for whole records, `inodesPerBlock` of them in each. -/
def TableFits (totalBlocks : UInt64) : Prop :=
  ((totalInodesFor totalBlocks).toNat + 27) / 28 ≤
    (144 * (totalInodesFor totalBlocks).toNat + 4095) / 4096

instance : Decidable (TableFits totalBlocks) := by unfold TableFits; infer_instance

/-- The boundaries format computes, as natural numbers modulo the word size. -/
theorem toNat_formatSuper (sb : Super) (hsb : sb = formatSuper totalBlocks journalLen mode) :
    sb.totalBlocks = totalBlocks ∧ sb.totalInodes = totalInodesFor totalBlocks ∧
    sb.journalStart.toNat = 3 ∧ sb.journalLen = journalLen ∧
    sb.inodeBitmapStart.toNat = (journalLen.toNat + 3) % 2 ^ 64 ∧
    sb.blockBitmapStart.toNat = (journalLen.toNat + 4) % 2 ^ 64 ∧
    sb.inodeTableStart.toNat = (journalLen.toNat + 5) % 2 ^ 64 ∧
    sb.inodeTableLen.toNat = (144 * (totalInodesFor totalBlocks).toNat + 4095) / 4096 ∧
    sb.dataStart.toNat = (journalLen.toNat + 5 + sb.inodeTableLen.toNat) % 2 ^ 64 := by
  have hlen := toNat_inodeTableLenFor totalBlocks
  subst hsb
  refine ⟨rfl, rfl, rfl, rfl, ?_, ?_, ?_, hlen, ?_⟩
  all_goals
    simp only [formatSuper, journalRegionStart, UInt64.toNat_add]
    simp
    omega

theorem toNat_inodeLocation (sb : Super) {ino : UInt32} (hino : 1 ≤ ino.toNat) :
    (inodeLocation sb ino).1.toNat = (sb.inodeTableStart.toNat + (ino.toNat - 1) / 28) % 2 ^ 64 := by
  have hone : (1 : UInt32) ≤ ino := UInt32.le_iff_toNat_le.mpr hino
  have hidx : (ino - 1).toNat = ino.toNat - 1 := UInt32.toNat_sub_of_le _ _ hone
  simp only [inodeLocation, inodesPerBlock, inodeSize, UInt64.toNat_add, UInt64.toNat_div,
    UInt32.toNat_toUInt64, hidx]
  simp

theorem inodeLocation_fits (sb : Super) (ino : UInt32) :
    (inodeLocation sb ino).2 + inodeSize ≤ 4096 := by
  have hlt := Nat.mod_lt (ino - 1).toUInt64.toNat (show 0 < inodesPerBlock by decide)
  simp only [inodeLocation, inodesPerBlock, inodeSize] at hlt ⊢
  omega

/-- Without the wrap of the first check, no boundary of an accepted image wraps. -/
theorem boundaries_of_accepted {sb : Super} (hsb : sb = formatSuper totalBlocks journalLen mode)
    (hacc : Accepted totalBlocks journalLen sb) (hlen : journalLen.toNat + 7 < 2 ^ 64) :
    sb.inodeBitmapStart.toNat = journalLen.toNat + 3 ∧
    sb.blockBitmapStart.toNat = journalLen.toNat + 4 ∧
    sb.inodeTableStart.toNat = journalLen.toNat + 5 ∧
    sb.dataStart.toNat = journalLen.toNat + 5 + sb.inodeTableLen.toNat ∧
    sb.dataStart.toNat < totalBlocks.toNat := by
  obtain ⟨-, -, -, -, hib, hbb, hit, hitl, hds⟩ := toNat_formatSuper sb hsb
  have hbound := totalInodesFor_bounds totalBlocks
  have hdata := UInt64.lt_iff_toNat_lt.mp hacc.data
  have hbits := hacc.bitmap
  rw [UInt64.toNat_sub_of_le _ _ (UInt64.le_of_lt hacc.data)] at hbits
  have hroom := UInt64.le_iff_toNat_le.mp (UInt64.not_lt.mp hacc.room)
  have hsum : (journalRegionStart + journalLen + 4).toNat = journalLen.toNat + 7 := by
    simp only [journalRegionStart, UInt64.toNat_add]
    simp
    omega
  omega

/-- An image too large for its inode table has its parts apart all the same. -/
theorem regionsSound_of_accepted {sb : Super} (hsb : sb = formatSuper totalBlocks journalLen mode)
    (hacc : Accepted totalBlocks journalLen sb) (hlen : journalLen.toNat + 7 < 2 ^ 64) :
    RegionsSound sb := by
  obtain ⟨htotal, hinodes, hjs, hjl, -, -, -, hitl, -⟩ := toNat_formatSuper sb hsb
  obtain ⟨hib, hbb, hit, hds, hlt⟩ := boundaries_of_accepted hsb hacc hlen
  have hbound := totalInodesFor_bounds totalBlocks
  constructor
  · simp [extents, superBlockno, jsuperBlockno, hjl]
    omega
  · simp [extents, superBlockno, jsuperBlockno, htotal, hjl]
    omega
  · intro i hi
    simp only [inodeBits, hinodes, List.mem_map, List.mem_range] at hi
    omega
  · intro i hi
    have hbits := hacc.bitmap
    rw [blockBits, List.mem_range, htotal] at hi
    omega

/-- The README's larger image: its table has no room for the records of the last inodes. -/
example : RegionsSound (formatSuper 32768 2048 .ordered) ∧ ¬ TableFits 32768 :=
  ⟨regionsSound_of_accepted rfl (by constructor <;> decide) (by decide), by decide⟩

theorem layoutSound_of_accepted {sb : Super} (hsb : sb = formatSuper totalBlocks journalLen mode)
    (hacc : Accepted totalBlocks journalLen sb) (hlen : journalLen.toNat + 7 < 2 ^ 64)
    (hfits : TableFits totalBlocks) : LayoutSound sb := by
  refine ⟨regionsSound_of_accepted hsb hacc hlen, fun ino hpos hle => ?_⟩
  obtain ⟨-, hinodes, -, -, -, -, -, hitl, -⟩ := toNat_formatSuper sb hsb
  obtain ⟨-, -, hit, hds, hlt⟩ := boundaries_of_accepted hsb hacc hlen
  have hdev := totalBlocks.toNat_lt
  unfold TableFits at hfits
  have hblock := toNat_inodeLocation sb hpos
  rw [hinodes] at hle
  have hgroup : (ino.toNat - 1) / 28 < ((totalInodesFor totalBlocks).toNat + 27) / 28 := by omega
  rw [Nat.mod_eq_of_lt (by omega)] at hblock
  exact ⟨by omega, by omega, inodeLocation_fits sb ino⟩

theorem noWrap_of_layoutSound {sb : Super} (hsb : sb = formatSuper totalBlocks journalLen mode)
    (hacc : Accepted totalBlocks journalLen sb) (hsound : LayoutSound sb) :
    journalLen.toNat + 7 < 2 ^ 64 := by
  obtain ⟨htotal, -, hjs, hjl, hib, hbb, hit, hitl, hds⟩ := toNat_formatSuper sb hsb
  have hdata := UInt64.lt_iff_toNat_lt.mp hacc.data
  have hdev := totalBlocks.toNat_lt
  have hbound := totalInodesFor_bounds totalBlocks
  have hord := hsound.ordered
  have hin := hsound.inside
  simp only [extents, superBlockno, jsuperBlockno, hjs, hjl, htotal] at hord hin
  simp at hord hin
  omega

theorem tableFits_of_layoutSound {sb : Super}
    (hsb : sb = formatSuper totalBlocks journalLen mode) (hacc : Accepted totalBlocks journalLen sb)
    (hlen : journalLen.toNat + 7 < 2 ^ 64) (hsound : LayoutSound sb) : TableFits totalBlocks := by
  obtain ⟨-, hinodes, -, -, -, -, -, hitl, -⟩ := toNat_formatSuper sb hsb
  obtain ⟨-, -, hit, hds, hlt⟩ := boundaries_of_accepted hsb hacc hlen
  have hdev := totalBlocks.toNat_lt
  have hbound := totalInodesFor_bounds totalBlocks
  -- the last inode is the one whose block comes latest
  have hino : (UInt32.ofNat (totalInodesFor totalBlocks).toNat).toNat =
      (totalInodesFor totalBlocks).toNat :=
    UInt32.toNat_ofNat_of_lt' (show _ < 4294967296 by omega)
  obtain ⟨hafter, hbefore, -⟩ := hsound.inodes
    (UInt32.ofNat (totalInodesFor totalBlocks).toNat) (by omega) (by rw [hinodes]; omega)
  rw [toNat_inodeLocation sb (by omega), hino] at hafter hbefore
  have hgroup : ((totalInodesFor totalBlocks).toNat + 27) / 28 =
      ((totalInodesFor totalBlocks).toNat - 1) / 28 + 1 := by omega
  have hsmall : ((totalInodesFor totalBlocks).toNat - 1) / 28 < 32767 := by omega
  have hnowrap : sb.inodeTableStart.toNat + ((totalInodesFor totalBlocks).toNat - 1) / 28 < 2 ^ 64 := by
    by_contra hge
    rw [Nat.mod_eq_sub_mod (by omega), Nat.mod_eq_of_lt (by omega)] at hafter
    omega
  rw [Nat.mod_eq_of_lt hnowrap] at hbefore
  rw [TableFits, hgroup]
  omega

/-- Of the images format accepts, those are laid out soundly whose journal length does not
wrap the first size check and whose inode table has a block for every group of whole records. -/
theorem layoutSound_iff (host : Except Errno Unit) (totalBlocks journalLen : UInt64)
    (mode : DataMode) (now : UInt64) (s : σ)
    (hok : (run h (fsFormat host totalBlocks journalLen mode now).run s).1 = .ok ()) :
    LayoutSound (formatSuper totalBlocks journalLen mode) ↔
      journalLen.toNat + 7 < 2 ^ 64 ∧ TableFits totalBlocks := by
  have hacc := accepted_of_ok hok
  constructor
  · intro hsound
    have hlen := noWrap_of_layoutSound rfl hacc hsound
    exact ⟨hlen, tableFits_of_layoutSound rfl hacc hlen hsound⟩
  · rintro ⟨hlen, hfits⟩
    exact layoutSound_of_accepted rfl hacc hlen hfits

theorem layoutSound_small : LayoutSound (formatSuper 128 64 .ordered) :=
  (layoutSound_iff (h := faultless) (.ok ()) 128 64 .ordered 0 (settled fun _ => zeroBlock) rfl).mpr
    (by decide)

/-- An image of 340 blocks has 85 inodes in a table of three blocks, and its last inode
lies in the root directory's block. -/
theorem not_layoutSound_small :
    (run faultless (fsFormat (.ok ()) 340 64 .ordered 0).run (settled fun _ => zeroBlock)).1 =
        .ok () ∧
      (inodeLocation (formatSuper 340 64 .ordered) 85).1 = (formatSuper 340 64 .ordered).dataStart ∧
      ¬ LayoutSound (formatSuper 340 64 .ordered) := by
  refine ⟨rfl, by decide, fun hsound => ?_⟩
  have hlt := (hsound.inodes 85 (by decide) (by decide)).2.1
  exact absurd hlt (by decide)

end Format
end Logfs
