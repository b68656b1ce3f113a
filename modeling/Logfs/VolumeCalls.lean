import Logfs.Volume

/-!
# Calls on volumes

What the transaction manager's calls and the inode and bitmap functions of `inode.c` do to
the meaning of a soundly laid out image.
-/
namespace Logfs
open Interaction ByteBuffer

/-- The program answers `r` and makes `V'` of the volume `V`. -/
abbrev Does (sb : Super) (content : Block → Block → Block) {α : Type} (p : TxnEM α) (V : Vol)
    (r : Except Errno α) (V' : Vol) : Prop :=
  Acts (viewTxn sb.totalBlocks content) (vol sb) p V r V'

variable {sb : Super} {content : Block → Block → Block} {α : Type} {V V' : Vol}

theorem Does.withHandle {p : TxnEM α} {r : Except Errno α} (hp : Does sb content p V r V') :
    Does sb content p.withHandle V r V' := by
  intro v hv
  rw [run_withHandle]
  exact hp v hv

theorem Does.result {p : TxnEM α} {r : Except Errno α} (hp : Does sb content p V r V') :
    Does sb content p.result V (.ok r) V' := by
  intro v hv
  obtain ⟨hr, hnext⟩ := hp v hv
  rw [run_result]
  exact ⟨congrArg Except.ok hr, hnext⟩

/-! ## Data blocks -/

section Data
variable {b : UInt64} (hb : IsData sb b)
include hb

variable (content) in
theorem does_readBlock : Does sb content (TxnEM.readBlock b) V (.ok (V.block b)) V := by
  rintro v rfl
  rw [run_readBlock v hb.lt]
  exact ⟨by simp [vol, hb], rfl⟩

theorem does_getWriteAccess : Does sb content (TxnEM.getWriteAccess b) V (.ok (V.block b)) V := by
  rintro v rfl
  rw [run_getWriteAccess_view v hb.lt]
  exact ⟨by simp [vol, hb], rfl⟩

theorem does_dirtyMetadata : Does sb content (TxnEM.dirtyMetadata b) V (.ok ()) V := by
  rintro v rfl
  rw [run_dirtyMetadata_view v hb.lt]
  exact ⟨rfl, rfl⟩

variable (hs : RegionsSound sb)
include hs

theorem does_modify (data : Block) :
    Does sb content (TxnEM.modify b data) V (.ok ()) (V.setBlock b data) := by
  rintro v rfl
  exact ⟨rfl, vol_update_data hs v hb data⟩

/-- `modify` followed by `dirtyMetadata`. -/
theorem does_stage (data : Block) :
    Does sb content (do TxnEM.modify b data; TxnEM.dirtyMetadata b) V (.ok ()) (V.setBlock b data) :=
  (does_modify hb hs data).bind (does_dirtyMetadata hb)

theorem does_writeData (buf : Block) :
    Does sb content (TxnEM.writeData b buf) V (.ok ()) (V.setBlock b (content (V.block b) buf)) := by
  rintro v rfl
  rw [run_writeData v hb.lt]
  have hblock : v b = (vol sb v).block b := by simp [vol, hb]
  rw [hblock]
  exact ⟨rfl, vol_update_data hs v hb _⟩

end Data

section Sound
variable (hs : RegionsSound sb)
include hs

/-! ## Inodes -/

section Inodes
variable {i : UInt32}

variable (content) in
theorem does_inodeRead (hi : IsIno sb i) : Does sb content (inodeRead sb i) V (.ok (V.inode i)) V := by
  rintro v rfl
  rw [inodeRead, if_neg (by rw [outOfRange_iff]; exact not_not_intro hi.inRange), run_exceptT_bind,
    run_readBlock v (hs.location_lt hi)]
  refine ⟨?_, rfl⟩
  change Except.ok (Inode.decodeAt _ _) = _
  simp [vol, hi]

theorem does_inodeWrite (hi : IsIno sb i) (inode : Inode) :
    Does sb content (inodeWrite sb i inode) V (.ok ()) (V.setInode i inode) := by
  rintro v rfl
  rw [inodeWrite, if_neg (by rw [outOfRange_iff]; exact not_not_intro hi.inRange), run_exceptT_bind,
    run_getWriteAccess_view v (hs.location_lt hi)]
  dsimp only
  rw [run_stage v (hs.location_lt hi)]
  exact ⟨rfl, vol_update_table hs v hi inode⟩

theorem inodeBit_number {i : ℕ} (hi : i ∈ inodeBits sb) :
    InRange sb (UInt32.ofNat i) ∧ (UInt32.ofNat i).toNat = i := by
  have hlt := hs.inodeBits_lt i hi
  obtain ⟨k, hk, rfl⟩ := List.mem_map.mp hi
  have hto : (UInt32.ofNat (k + 1)).toNat = k + 1 :=
    UInt32.toNat_ofNat_of_lt' (show _ < 4294967296 by omega)
  have hlast := List.mem_range.mp hk
  exact ⟨⟨by omega, by omega⟩, hto⟩

omit hs in
theorem nextIno_free (hs : LayoutSound sb) {i : UInt32} (hi : V.nextIno sb = some i) :
    IsIno sb i ∧ V.inodeUsed i = false := by
  obtain ⟨k, hk, rfl⟩ := Option.map_eq_some_iff.mp hi
  have hrange := (inodeBit_number hs (List.mem_of_find?_eq_some hk)).1
  exact ⟨hs.isIno hrange, by simpa using List.find?_some hk⟩

/-- The bitmap's first clear bit is that of the first free number. -/
theorem find?_inodeBits {v : Image} :
    ((inodeBits sb).find? fun i => !testBit (v sb.inodeBitmapStart) i) =
      (inodeBits sb).find? fun i => !(vol sb v).inodeUsed (UInt32.ofNat i) := by
  apply List.find?_congr
  intro i hi
  obtain ⟨hino, hto⟩ := inodeBit_number hs hi
  simp [vol, hino, hto]

theorem does_allocInode (hi : V.nextIno sb = some i) :
    Does sb content (allocInode sb) V (.ok i) (V.markInode i true) := by
  rintro v rfl
  obtain ⟨k, hk, rfl⟩ := Option.map_eq_some_iff.mp hi
  have hmem := List.mem_of_find?_eq_some hk
  obtain ⟨hino, hto⟩ := inodeBit_number hs hmem
  rw [allocInode, run_exceptT_bind, run_getWriteAccess_view v hs.inodeBitmap_lt]
  dsimp only
  rw [find?_inodeBits hs, hk]
  dsimp only
  rw [run_exceptT_bind, run_modify]
  dsimp only
  rw [run_exceptT_bind, run_dirtyMetadata_view _ hs.inodeBitmap_lt]
  refine ⟨rfl, ?_⟩
  apply vol_update_inodeBitmap hs v hino
  intro j
  rw [testBit_setBit _ (hs.inodeBits_lt k hmem), hto]
  by_cases hj : j = k <;> simp [hj]

theorem does_allocInode_full (hi : V.nextIno sb = none) :
    Does sb content (allocInode sb) V (.error .enospc) V := by
  rintro v rfl
  rw [allocInode, run_exceptT_bind, run_getWriteAccess_view v hs.inodeBitmap_lt]
  dsimp only
  rw [find?_inodeBits hs, Option.map_eq_none_iff.mp hi]
  exact ⟨rfl, rfl⟩

theorem does_freeInode (hi : IsIno sb i) :
    Does sb content (freeInode sb i) V (.ok ()) (V.markInode i false) := by
  rintro v rfl
  have hlt : i.toNat < 32768 := lt_of_le_of_lt hi.2 hs.totalInodes_lt
  rw [freeInode, if_neg (by rw [outOfRange_iff]; exact not_not_intro hi.inRange), run_exceptT_bind,
    run_getWriteAccess_view v hs.inodeBitmap_lt]
  dsimp only
  rw [run_stage v hs.inodeBitmap_lt]
  refine ⟨rfl, ?_⟩
  apply vol_update_inodeBitmap hs v hi.inRange
  intro j
  rw [testBit_clearBit _ hlt]
  by_cases hj : j = i.toNat <;> simp [hj]

end Inodes

/-! ## Block allocation -/

theorem blockBit_number {i : ℕ} (hi : i ∈ blockBits sb) :
    IsData sb (sb.dataStart + UInt64.ofNat i) ∧
      (sb.dataStart + UInt64.ofNat i - sb.dataStart).toNat = i := by
  have hlt := hs.blockBits_lt i hi
  have hreg := hs.regions
  have htotal := sb.totalBlocks.toNat_lt
  have hle : sb.dataStart ≤ sb.totalBlocks := UInt64.le_iff_toNat_le.mpr hreg.2.2.2
  rw [blockBits, List.mem_range, UInt64.toNat_sub_of_le _ _ hle] at hi
  have hi64 : (UInt64.ofNat i).toNat = i := UInt64.toNat_ofNat_of_lt' (show _ < 2 ^ 64 by omega)
  have hsum : (sb.dataStart + UInt64.ofNat i).toNat = sb.dataStart.toNat + i := by
    rw [UInt64.toNat_add, hi64, Nat.mod_eq_of_lt (by omega)]
  have hdata : IsData sb (sb.dataStart + UInt64.ofNat i) := by
    constructor
    · rw [UInt64.le_iff_toNat_le]
      omega
    · rw [UInt64.lt_iff_toNat_lt]
      omega
  refine ⟨hdata, ?_⟩
  rw [UInt64.toNat_sub_of_le _ _ hdata.1]
  omega

theorem nextBlock_free {b : UInt64} (hb : V.nextBlock sb = some b) :
    IsData sb b ∧ V.blockUsed b = false := by
  obtain ⟨k, hk, rfl⟩ := Option.map_eq_some_iff.mp hb
  exact ⟨(blockBit_number hs (List.mem_of_find?_eq_some hk)).1, by simpa using List.find?_some hk⟩

theorem find?_blockBits {v : Image} :
    ((blockBits sb).find? fun i => !testBit (v sb.blockBitmapStart) i) =
      (blockBits sb).find? fun i => !(vol sb v).blockUsed (sb.dataStart + UInt64.ofNat i) := by
  apply List.find?_congr
  intro i hi
  obtain ⟨hdata, hto⟩ := blockBit_number hs hi
  simp only [vol, hdata, hto, decide_true, Bool.true_and]

theorem does_allocBlock {b : UInt64} (hb : V.nextBlock sb = some b) :
    Does sb content (allocBlock sb) V (.ok b) (V.markBlock b true) := by
  rintro v rfl
  obtain ⟨k, hk, rfl⟩ := Option.map_eq_some_iff.mp hb
  have hmem := List.mem_of_find?_eq_some hk
  obtain ⟨hdata, hto⟩ := blockBit_number hs hmem
  rw [allocBlock, run_exceptT_bind, run_getWriteAccess_view v hs.blockBitmap_lt]
  dsimp only
  rw [find?_blockBits hs, hk]
  dsimp only
  rw [run_exceptT_bind, run_modify]
  dsimp only
  rw [run_exceptT_bind, run_dirtyMetadata_view _ hs.blockBitmap_lt]
  refine ⟨rfl, ?_⟩
  apply vol_update_blockBitmap hs v hdata
  intro j
  rw [testBit_setBit _ (hs.blockBits_lt k hmem), hto]
  by_cases hj : j = k <;> simp [hj]

theorem does_allocBlock_full (hb : V.nextBlock sb = none) :
    Does sb content (allocBlock sb) V (.error .enospc) V := by
  rintro v rfl
  rw [allocBlock, run_exceptT_bind, run_getWriteAccess_view v hs.blockBitmap_lt]
  dsimp only
  rw [find?_blockBits hs, Option.map_eq_none_iff.mp hb]
  exact ⟨rfl, rfl⟩

theorem does_freeBlock {b : UInt64} (hb : IsData sb b) :
    Does sb content (freeBlock sb b) V (.ok ()) (V.markBlock b false) := by
  rintro v rfl
  have hin : ¬ (b < sb.dataStart ∨ sb.totalBlocks ≤ b) := by
    rw [not_or, UInt64.not_lt, UInt64.not_le]
    exact hb
  rw [freeBlock, if_neg hin, run_exceptT_bind, run_getWriteAccess_view v hs.blockBitmap_lt]
  dsimp only
  rw [run_stage v hs.blockBitmap_lt]
  refine ⟨rfl, ?_⟩
  apply vol_update_blockBitmap hs v hb
  intro j
  rw [testBit_clearBit _ (hb.index_lt hs)]
  by_cases hj : j = (b - sb.dataStart).toNat <;> simp [hj]

end Sound
end Logfs
