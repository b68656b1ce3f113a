import Logfs.FsOps

/-!
# Volumes

What the blocks of a soundly laid out image mean: which inode numbers and data blocks
are in use, the inodes, and the contents of the data blocks. Each function of
`inode.c` acts on this meaning, whatever the blocks are otherwise.
-/
namespace Logfs
open Interaction ByteBuffer

structure Vol where
  inodeUsed : UInt32 → Bool
  blockUsed : UInt64 → Bool
  inode : UInt32 → Inode
  block : UInt64 → Block

namespace Vol

def markInode (V : Vol) (i : UInt32) (used : Bool) : Vol :=
  { V with inodeUsed := Function.update V.inodeUsed i used }

def markBlock (V : Vol) (b : UInt64) (used : Bool) : Vol :=
  { V with blockUsed := Function.update V.blockUsed b used }

def setInode (V : Vol) (i : UInt32) (inode : Inode) : Vol :=
  { V with inode := Function.update V.inode i inode }

def setBlock (V : Vol) (b : UInt64) (data : Block) : Vol :=
  { V with block := Function.update V.block b data }

section
variable (V : Vol) (i : UInt32) (b : UInt64) (used : Bool) (inode : Inode) (data : Block)

@[simp] theorem inodeUsed_markBlock : (V.markBlock b used).inodeUsed = V.inodeUsed := rfl
@[simp] theorem inodeUsed_setInode : (V.setInode i inode).inodeUsed = V.inodeUsed := rfl
@[simp] theorem inodeUsed_setBlock : (V.setBlock b data).inodeUsed = V.inodeUsed := rfl
@[simp] theorem blockUsed_markInode : (V.markInode i used).blockUsed = V.blockUsed := rfl
@[simp] theorem blockUsed_setInode : (V.setInode i inode).blockUsed = V.blockUsed := rfl
@[simp] theorem blockUsed_setBlock : (V.setBlock b data).blockUsed = V.blockUsed := rfl
@[simp] theorem inode_markInode : (V.markInode i used).inode = V.inode := rfl
@[simp] theorem inode_markBlock : (V.markBlock b used).inode = V.inode := rfl
@[simp] theorem inode_setBlock : (V.setBlock b data).inode = V.inode := rfl
@[simp] theorem block_markInode : (V.markInode i used).block = V.block := rfl
@[simp] theorem block_markBlock : (V.markBlock b used).block = V.block := rfl
@[simp] theorem block_setInode : (V.setInode i inode).block = V.block := rfl

end

@[simp] theorem inodeUsed_markInode (V : Vol) (i j : UInt32) (used : Bool) :
    (V.markInode i used).inodeUsed j = if j = i then used else V.inodeUsed j := by
  simp [markInode, Function.update_apply]

@[simp] theorem blockUsed_markBlock (V : Vol) (b c : UInt64) (used : Bool) :
    (V.markBlock b used).blockUsed c = if c = b then used else V.blockUsed c := by
  simp [markBlock, Function.update_apply]

@[simp] theorem inode_setInode (V : Vol) (i j : UInt32) (inode : Inode) :
    (V.setInode i inode).inode j = if j = i then inode else V.inode j := by
  simp [setInode, Function.update_apply]

@[simp] theorem block_setBlock (V : Vol) (b c : UInt64) (data : Block) :
    (V.setBlock b data).block c = if c = b then data else V.block c := by
  simp [setBlock, Function.update_apply]

end Vol

/-- The inode numbers the functions of `inode.c` let through. -/
def InRange (sb : Super) (i : UInt32) : Prop := 1 ≤ i.toNat ∧ i.toNat ≤ sb.totalInodes.toNat

/-- Those whose record is in the inode table. -/
structure IsIno (sb : Super) (i : UInt32) : Prop where
  pos : 1 ≤ i.toNat
  le : i.toNat ≤ sb.totalInodes.toNat
  table_le : sb.inodeTableStart.toNat ≤ (inodeLocation sb i).1.toNat
  lt_data : (inodeLocation sb i).1.toNat < sb.dataStart.toNat

theorem isIno_iff (sb : Super) (i : UInt32) : IsIno sb i ↔ InRange sb i ∧
    sb.inodeTableStart.toNat ≤ (inodeLocation sb i).1.toNat ∧
    (inodeLocation sb i).1.toNat < sb.dataStart.toNat :=
  ⟨fun h => ⟨⟨h.pos, h.le⟩, h.table_le, h.lt_data⟩, fun h => ⟨h.1.1, h.1.2, h.2.1, h.2.2⟩⟩

theorem IsIno.inRange {sb : Super} {i : UInt32} (h : IsIno sb i) : InRange sb i := ⟨h.pos, h.le⟩

theorem LayoutSound.isIno {sb : Super} {i : UInt32} (hs : LayoutSound sb) (hi : InRange sb i) : IsIno sb i :=
  ⟨hi.1, hi.2, (hs.inodes i hi.1 hi.2).1, (hs.inodes i hi.1 hi.2).2.1⟩

/-- The blocks of the data region. -/
def IsData (sb : Super) (b : UInt64) : Prop := sb.dataStart ≤ b ∧ b < sb.totalBlocks

instance (sb : Super) (i : UInt32) : Decidable (InRange sb i) := by unfold InRange; infer_instance

instance (sb : Super) (i : UInt32) : Decidable (IsIno sb i) := decidable_of_iff' _ (isIno_iff sb i)

instance (sb : Super) (b : UInt64) : Decidable (IsData sb b) := by unfold IsData; infer_instance

def emptyInode : Inode := ⟨0, 0, 0, 0, 0, 0, 0, 0, fun _ => 0⟩

/-- The meaning of the blocks; numbers out of range are not in use, and what is not in its table
is no inode. -/
def vol (sb : Super) (v : Image) : Vol where
  inodeUsed i := decide (InRange sb i) && testBit (v sb.inodeBitmapStart) i.toNat
  blockUsed b := decide (IsData sb b) && testBit (v sb.blockBitmapStart) (b - sb.dataStart).toNat
  inode i := if IsIno sb i then Inode.decodeAt (v (inodeLocation sb i).1) (inodeLocation sb i).2
    else emptyInode
  block b := if IsData sb b then v b else zeroBlock

/-- The number `logfs_alloc_inode` finds. -/
def Vol.nextIno (sb : Super) (V : Vol) : Option UInt32 :=
  ((inodeBits sb).find? fun i => !V.inodeUsed (UInt32.ofNat i)).map UInt32.ofNat

/-- The block `logfs_alloc_block` finds. -/
def Vol.nextBlock (sb : Super) (V : Vol) : Option UInt64 :=
  ((blockBits sb).find? fun i => !V.blockUsed (sb.dataStart + UInt64.ofNat i)).map
    fun i => sb.dataStart + UInt64.ofNat i

/-! ## Where the parts lie -/

section Regions
variable {sb : Super}

theorem outOfRange_iff (i : UInt32) : (i = 0 ∨ sb.totalInodes < i.toUInt64) ↔ ¬ InRange sb i := by
  rw [InRange, UInt64.lt_iff_toNat_lt, UInt32.toNat_toUInt64, ← UInt32.toNat_inj]
  simp only [UInt32.toNat_zero]
  omega

/-- The bitmaps come before the inode table, and that before the data. -/
theorem RegionsSound.regions (hs : RegionsSound sb) :
    sb.inodeBitmapStart.toNat < sb.blockBitmapStart.toNat ∧
      sb.blockBitmapStart.toNat < sb.inodeTableStart.toNat ∧
      sb.inodeTableStart.toNat ≤ sb.dataStart.toNat ∧ sb.dataStart.toNat ≤ sb.totalBlocks.toNat := by
  have hord := hs.ordered
  have hin := hs.inside
  simp only [extents, List.pairwise_cons, List.mem_cons, List.not_mem_nil, or_false] at hord hin
  obtain ⟨-, -, -, -, hib, hbb, hit, -⟩ := hord
  have h1 := hib _ (.inl rfl)
  have h2 := hbb _ (.inl rfl)
  have h3 := hit _ rfl
  have h4 := hin (sb.dataStart.toNat, sb.totalBlocks.toNat - sb.dataStart.toNat) (by simp)
  simp only at h1 h2 h3 h4
  omega

theorem RegionsSound.inodeBitmap_lt (hs : RegionsSound sb) : sb.inodeBitmapStart < sb.totalBlocks := by
  have h := hs.regions
  rw [UInt64.lt_iff_toNat_lt]
  omega

theorem RegionsSound.blockBitmap_lt (hs : RegionsSound sb) : sb.blockBitmapStart < sb.totalBlocks := by
  have h := hs.regions
  rw [UInt64.lt_iff_toNat_lt]
  omega

theorem RegionsSound.bitmaps_ne (hs : RegionsSound sb) : sb.inodeBitmapStart ≠ sb.blockBitmapStart := by
  intro he
  have h := hs.regions
  rw [he] at h
  omega

theorem RegionsSound.totalInodes_lt (hs : RegionsSound sb) : sb.totalInodes.toNat < 32768 := by
  by_cases hz : sb.totalInodes.toNat = 0
  · omega
  · apply hs.inodeBits_lt
    rw [inodeBits, List.mem_map]
    exact ⟨sb.totalInodes.toNat - 1, List.mem_range.mpr (by omega), by omega⟩

section Inodes
variable {i j : UInt32}

theorem IsIno.table_lt (hi : IsIno sb i) :
    sb.inodeTableStart.toNat ≤ (inodeLocation sb i).1.toNat ∧
      (inodeLocation sb i).1.toNat < sb.dataStart.toNat := ⟨hi.table_le, hi.lt_data⟩

theorem RegionsSound.location_lt (hs : RegionsSound sb) (hi : IsIno sb i) :
    (inodeLocation sb i).1 < sb.totalBlocks := by
  have h := hs.regions
  have hloc := hi.table_lt
  rw [UInt64.lt_iff_toNat_lt]
  omega

theorem RegionsSound.location_ne_inodeBitmap (hs : RegionsSound sb) (hi : IsIno sb i) :
    (inodeLocation sb i).1 ≠ sb.inodeBitmapStart := by
  intro he
  have h := hs.regions
  have hloc := hi.table_lt
  rw [he] at hloc
  omega

theorem RegionsSound.location_ne_blockBitmap (hs : RegionsSound sb) (hi : IsIno sb i) :
    (inodeLocation sb i).1 ≠ sb.blockBitmapStart := by
  intro he
  have h := hs.regions
  have hloc := hi.table_lt
  rw [he] at hloc
  omega

/-- Two inodes in one block do not overlap. -/
theorem RegionsSound.records_disjoint (hs : RegionsSound sb) (hi : IsIno sb i) (hj : IsIno sb j)
    (hne : j ≠ i) (hblock : (inodeLocation sb j).1 = (inodeLocation sb i).1) :
    (inodeLocation sb j).2 + inodeSize ≤ (inodeLocation sb i).2 ∨
      (inodeLocation sb i).2 + inodeSize ≤ (inodeLocation sb j).2 := by
  have hgroup : ∀ {k : UInt32}, IsIno sb k →
      (inodeLocation sb k).1.toNat = sb.inodeTableStart.toNat + (k.toNat - 1) / 28 ∧
        (inodeLocation sb k).2 = (k.toNat - 1) % 28 * 144 := by
    intro k hk
    have hone : (1 : UInt32) ≤ k := UInt32.le_iff_toNat_le.mpr hk.1
    have hidx : (k - 1).toNat = k.toNat - 1 := UInt32.toNat_sub_of_le _ _ hone
    have hblock := toNat_inodeLocation sb hk.1
    have hloc := hk.table_lt
    have htable := sb.inodeTableStart.toNat_lt
    have hmax := hs.totalInodes_lt
    have hle := hk.2
    constructor
    · by_cases hfit : sb.inodeTableStart.toNat + (k.toNat - 1) / 28 < 2 ^ 64
      · rw [hblock, Nat.mod_eq_of_lt hfit]
      · rw [Nat.mod_eq_sub_mod (by omega), Nat.mod_eq_of_lt (by omega)] at hblock
        omega
    · simp only [inodeLocation, inodesPerBlock, inodeSize, UInt32.toNat_toUInt64, hidx]
  obtain ⟨hi₁, hi₂⟩ := hgroup hi
  obtain ⟨hj₁, hj₂⟩ := hgroup hj
  rw [hblock, hi₁] at hj₁
  have hnum : j.toNat ≠ i.toNat := fun he => hne (UInt32.toNat_inj.mp he)
  have hipos := hi.1
  have hjpos := hj.1
  rw [hi₂, hj₂, inodeSize]
  omega

end Inodes

section Data
variable {b : UInt64}

theorem IsData.lt (hb : IsData sb b) : b < sb.totalBlocks := hb.2

theorem IsData.ne_inodeBitmap (hs : RegionsSound sb) (hb : IsData sb b) : b ≠ sb.inodeBitmapStart := by
  rintro rfl
  have h := hs.regions
  have hle := UInt64.le_iff_toNat_le.mp hb.1
  omega

theorem IsData.ne_blockBitmap (hs : RegionsSound sb) (hb : IsData sb b) : b ≠ sb.blockBitmapStart := by
  rintro rfl
  have h := hs.regions
  have hle := UInt64.le_iff_toNat_le.mp hb.1
  omega

theorem IsData.ne_location (hb : IsData sb b) {i : UInt32} (hi : IsIno sb i) :
    b ≠ (inodeLocation sb i).1 := by
  rintro rfl
  have hle := UInt64.le_iff_toNat_le.mp hb.1
  have hloc := hi.table_lt
  omega

theorem IsData.index_lt (hs : RegionsSound sb) (hb : IsData sb b) : (b - sb.dataStart).toNat < 32768 := by
  have hle := UInt64.le_iff_toNat_le.mp hb.1
  have hlt := UInt64.lt_iff_toNat_lt.mp hb.2
  have hlast : sb.dataStart ≤ sb.totalBlocks := UInt64.le_iff_toNat_le.mpr (by omega)
  apply hs.blockBits_lt
  rw [blockBits, List.mem_range, UInt64.toNat_sub_of_le _ _ hb.1, UInt64.toNat_sub_of_le _ _ hlast]
  omega

theorem IsData.index_inj (hb : IsData sb b) {c : UInt64} (hc : IsData sb c)
    (he : (c - sb.dataStart).toNat = (b - sb.dataStart).toNat) : c = b := by
  have hbs := UInt64.le_iff_toNat_le.mp hb.1
  have hcs := UInt64.le_iff_toNat_le.mp hc.1
  rw [UInt64.toNat_sub_of_le _ _ hb.1, UInt64.toNat_sub_of_le _ _ hc.1] at he
  apply UInt64.toNat_inj.mp
  omega

end Data
end Regions

/-! ## The meaning of a changed block -/

section Updates
variable {sb : Super} (hs : RegionsSound sb) (v : Image)
include hs

theorem vol_update_inodeBitmap {i : UInt32} (hi : InRange sb i) {data : Block} {used : Bool}
    (hbit : ∀ j : ℕ, testBit data j = if j = i.toNat then used else testBit (v sb.inodeBitmapStart) j) :
    vol sb (Function.update v sb.inodeBitmapStart data) = (vol sb v).markInode i used := by
  have hlt := i.toNat_lt
  simp only [vol, Vol.markInode, Vol.mk.injEq]
  refine ⟨?_, ?_, ?_, ?_⟩
  · ext j
    rw [Function.update_self, hbit, Function.update_apply]
    by_cases hj : j = i
    · subst hj
      simp [hi]
    · rw [if_neg (fun he => hj (UInt32.toNat_inj.mp he)), if_neg hj]
  · ext b
    rw [Function.update_of_ne hs.bitmaps_ne.symm]
  · ext1 j
    by_cases hj : IsIno sb j
    · rw [Function.update_of_ne (hs.location_ne_inodeBitmap hj)]
    · rw [if_neg hj, if_neg hj]
  · ext1 b
    by_cases hb : IsData sb b
    · rw [Function.update_of_ne (hb.ne_inodeBitmap hs)]
    · rw [if_neg hb, if_neg hb]

theorem vol_update_blockBitmap {b : UInt64} (hb : IsData sb b) {data : Block} {used : Bool}
    (hbit : ∀ j : ℕ, testBit data j =
      if j = (b - sb.dataStart).toNat then used else testBit (v sb.blockBitmapStart) j) :
    vol sb (Function.update v sb.blockBitmapStart data) = (vol sb v).markBlock b used := by
  simp only [vol, Vol.markBlock, Vol.mk.injEq]
  refine ⟨?_, ?_, ?_, ?_⟩
  · ext j
    rw [Function.update_of_ne hs.bitmaps_ne]
  · ext c
    rw [Function.update_self, hbit, Function.update_apply]
    by_cases hc : IsData sb c
    · by_cases hcb : c = b
      · subst hcb
        simp [hc]
      · rw [if_neg (fun he => hcb (hb.index_inj hc he)), if_neg hcb]
    · have hcb : c ≠ b := by rintro rfl; exact hc hb
      simp [hc, hcb]
  · ext1 j
    by_cases hj : IsIno sb j
    · rw [Function.update_of_ne (hs.location_ne_blockBitmap hj)]
    · rw [if_neg hj, if_neg hj]
  · ext1 c
    by_cases hc : IsData sb c
    · rw [Function.update_of_ne (hc.ne_blockBitmap hs)]
    · rw [if_neg hc, if_neg hc]

theorem vol_update_table {i : UInt32} (hi : IsIno sb i) (inode : Inode) :
    vol sb (Function.update v (inodeLocation sb i).1
        (inode.encodeAt (v (inodeLocation sb i).1) (inodeLocation sb i).2)) =
      (vol sb v).setInode i inode := by
  simp only [vol, Vol.setInode, Vol.mk.injEq]
  refine ⟨?_, ?_, ?_, ?_⟩
  · ext j
    rw [Function.update_of_ne (hs.location_ne_inodeBitmap hi).symm]
  · ext b
    rw [Function.update_of_ne (hs.location_ne_blockBitmap hi).symm]
  · ext1 j
    by_cases hji : j = i
    · subst hji
      rw [if_pos hi, Function.update_self, Function.update_self,
        Inode.decodeAt_encodeAt _ (inodeLocation_fits sb j)]
    · rw [Function.update_of_ne hji]
      by_cases hj : IsIno sb j
      · rw [if_pos hj, if_pos hj, Function.update_apply]
        split
        · next hblock =>
            rw [Inode.decodeAt_encodeAt_of_disjoint _ _ (hs.records_disjoint hi hj hji hblock), hblock]
        · rfl
      · rw [if_neg hj, if_neg hj]
  · ext1 b
    by_cases hb : IsData sb b
    · rw [Function.update_of_ne (hb.ne_location hi)]
    · rw [if_neg hb, if_neg hb]

theorem vol_update_data {b : UInt64} (hb : IsData sb b) (data : Block) :
    vol sb (Function.update v b data) = (vol sb v).setBlock b data := by
  simp only [vol, Vol.setBlock, Vol.mk.injEq]
  refine ⟨?_, ?_, ?_, ?_⟩
  · ext j
    rw [Function.update_of_ne (hb.ne_inodeBitmap hs).symm]
  · ext c
    rw [Function.update_of_ne (hb.ne_blockBitmap hs).symm]
  · ext1 j
    by_cases hj : IsIno sb j
    · rw [Function.update_of_ne (hb.ne_location hj).symm]
    · rw [if_neg hj, if_neg hj]
  · ext1 c
    by_cases hcb : c = b
    · subst hcb
      rw [if_pos hb, Function.update_self, Function.update_self]
    · rw [Function.update_of_ne hcb, Function.update_of_ne hcb]

end Updates

end Logfs
