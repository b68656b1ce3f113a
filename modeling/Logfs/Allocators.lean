import Logfs.FormattedVolume
import Logfs.Lib.Transition
import Logfs.Lib.UnitPool

/-!
# The two allocators

The four calls that hand out and take back inode numbers and data blocks, in any order, on the bitmaps
`logfs_fs_format` writes. They look at nothing else of the image, so its layout need not be sound.
-/
namespace Logfs
open Interaction WriteCache ByteBuffer UnitPool Transition

variable {sb : Super} {v v' : Image} {granted : Bool} {U : Type} {held : List U} {u : U} {start : UInt64} {i : ℕ}

/-- The logical block view where a call may be refused the write access it asks for. -/
def grantingTxn (nblocks : UInt64) (granted : Bool) : Handler TxnRes Image
  | .getWriteAccess b, v => if granted then viewTxn nblocks latest (.getWriteAccess b) v else (.error .enomem, v)
  | o, v => viewTxn nblocks latest o v

/-! ## Bits of one block -/

/-- One bit of one block changes. -/
structure Flips (start : UInt64) (i : ℕ) (v v' : Image) : Prop where
  elsewhere : ∀ b, b ≠ start → v' b = v b
  neighbours : ∀ j, j ≠ i → testBit (v' start) j = testBit (v start) j
  own : testBit (v' start) i = !testBit (v start) i

theorem Flips.set (hi : i < 32768) (hclear : testBit (v start) i = false) :
    Flips start i v (Function.update v start (setBit (v start) i)) where
  elsewhere := by
    intro b hb
    rw [Function.update_of_ne hb]
  neighbours := by
    intro j hj
    rw [Function.update_self, testBit_setBit _ hi, decide_eq_false hj, Bool.false_or]
  own := by
    rw [Function.update_self, testBit_setBit _ hi, hclear]
    simp

theorem Flips.clear (hi : i < 32768) (hset : testBit (v start) i = true) :
    Flips start i v (Function.update v start (clearBit (v start) i)) where
  elsewhere := by
    intro b hb
    rw [Function.update_of_ne hb]
  neighbours := by
    intro j hj
    rw [Function.update_self, testBit_clearBit _ hi, decide_eq_false hj, Bool.not_false, Bool.true_and]
  own := by
    rw [Function.update_self, testBit_clearBit _ hi, hset]
    simp

/-- What `logfs_alloc_inode` and `logfs_alloc_block` have in common. -/
def claimBit (start : UInt64) (bits : List ℕ) (number : ℕ → U) : TxnEM U := do
  let bitmap ← TxnEM.getWriteAccess start
  match bits.find? fun i => !testBit bitmap i with
  | some i => do
      TxnEM.modify start (setBit bitmap i)
      TxnEM.dirtyMetadata start
      return number i
  | none => throw .enospc

/-- What `logfs_free_inode` and `logfs_free_block` have in common. -/
def releaseBit (start : UInt64) (i : ℕ) : TxnEM Unit := do
  let bitmap ← TxnEM.getWriteAccess start
  TxnEM.modify start (clearBit bitmap i)
  TxnEM.dirtyMetadata start

theorem allocInode_eq : allocInode sb = claimBit sb.inodeBitmapStart (inodeBits sb) UInt32.ofNat := rfl

theorem allocBlock_eq : allocBlock sb =
    claimBit sb.blockBitmapStart (blockBits sb) fun i => sb.dataStart + UInt64.ofNat i := rfl

theorem freeInode_eq {ino : UInt32} (h : InRange sb ino) :
    freeInode sb ino = releaseBit sb.inodeBitmapStart ino.toNat := by
  rw [freeInode, if_neg (by rw [outOfRange_iff]; exact not_not_intro h)]
  rfl

theorem freeBlock_eq {b : UInt64} (h : IsData sb b) :
    freeBlock sb b = releaseBit sb.blockBitmapStart (b - sb.dataStart).toNat := by
  rw [freeBlock, if_neg]
  · rfl
  · rintro (hlt | hge)
    · exact absurd h.1 (UInt64.not_le.mpr hlt)
    · exact absurd h.2 (UInt64.not_lt.mpr hge)

section Programs
variable {nblocks : UInt64} {bits : List ℕ} {number : ℕ → U} (hstart : start < nblocks)

theorem run_claimBit_refused :
    run (grantingTxn nblocks false) (claimBit start bits number).run v = (.error .enomem, v) := rfl

theorem run_releaseBit_refused :
    run (grantingTxn nblocks false) (releaseBit start i).run v = (.error .enomem, v) := rfl

omit hstart in
theorem grantingTxn_true : grantingTxn nblocks true = viewTxn nblocks latest := by
  funext o v
  cases o <;> rfl

include hstart

theorem run_claimBit_full (hfind : (bits.find? fun i => !testBit (v start) i) = none) :
    run (grantingTxn nblocks true) (claimBit start bits number).run v = (.error .enospc, v) := by
  rw [grantingTxn_true, claimBit, run_exceptT_bind, run_getWriteAccess_view v hstart]
  dsimp only
  rw [hfind]
  rfl

theorem run_claimBit_free (hfind : (bits.find? fun i => !testBit (v start) i) = some i) :
    run (grantingTxn nblocks true) (claimBit start bits number).run v =
      (.ok (number i), Function.update v start (setBit (v start) i)) := by
  rw [grantingTxn_true, claimBit, run_exceptT_bind, run_getWriteAccess_view v hstart]
  dsimp only
  rw [hfind]
  dsimp only
  rw [run_exceptT_bind, run_modify]
  dsimp only
  rw [run_exceptT_bind, run_dirtyMetadata_view _ hstart]
  rfl

theorem run_releaseBit : run (grantingTxn nblocks true) (releaseBit start i).run v =
    (.ok (), Function.update v start (clearBit (v start) i)) := by
  rw [grantingTxn_true, releaseBit, run_exceptT_bind, run_getWriteAccess_view v hstart]
  exact run_stage v hstart _

end Programs

/-! ## One call -/

/-- Bits as the marks of units. -/
structure Numbering (bits : List ℕ) (range : Set U) where
  number : ℕ → U
  bitOf : U → ℕ
  bit_lt : ∀ i ∈ bits, i < 32768
  number_mem : ∀ i ∈ bits, number i ∈ range ∧ bitOf (number i) = i
  bitOf_mem : ∀ u ∈ range, bitOf u ∈ bits ∧ number (bitOf u) = u

variable {bits : List ℕ} {range reserved : Set U}

theorem Numbering.inj (N : Numbering bits range) {w : U} (hu : u ∈ range) (hw : w ∈ range)
    (h : N.bitOf u = N.bitOf w) : u = w := by
  rw [← (N.bitOf_mem u hu).2, h, (N.bitOf_mem w hw).2]

/-- What a call that hands out a unit answers, and what it does to the image. -/
structure AllocSound (start : UInt64) (bitOf : U → ℕ) (full : Prop) (granted : Bool) (r : Except Errno U)
    (v v' : Image) : Prop where
  succeeds : (∃ u, r = .ok u) ↔ granted = true ∧ ¬ full
  enospc : r = .error .enospc ↔ granted = true ∧ full
  own : ∀ u, r = .ok u → testBit (v start) (bitOf u) = false ∧ Flips start (bitOf u) v v'
  unchanged : ∀ e, r = .error e → v' = v

/-- What a call that takes back a unit answers, and what it does to the image. -/
structure FreeSound (start : UInt64) (i : ℕ) (granted : Bool) (r : Except Errno Unit) (v v' : Image) : Prop where
  succeeds : r = .ok () ↔ granted = true
  own : r = .ok () → testBit (v start) i = true ∧ Flips start i v v'
  unchanged : ∀ e, r = .error e → v' = v

theorem AllocSound.elsewhere {bitOf : U → ℕ} {full : Prop} {r : Except Errno U} {b : UInt64}
    (h : AllocSound start bitOf full granted r v v') (hb : b ≠ start) : v' b = v b := by
  cases r with
  | ok u => exact (h.own u rfl).2.elsewhere b hb
  | error e => rw [h.unchanged e rfl]

theorem FreeSound.elsewhere {r : Except Errno Unit} {b : UInt64} (h : FreeSound start i granted r v v')
    (hb : b ≠ start) : v' b = v b := by
  cases r with
  | ok _ => exact (h.own rfl).2.elsewhere b hb
  | error e => rw [h.unchanged e rfl]

/-- The units held after a call that hands out one. -/
def handOut : Except Errno U → List U → List U
  | .ok u, held => u :: held
  | .error _, held => held

/-- The units held after a call that takes back one. -/
def takeBack [DecidableEq U] (u : U) : Except Errno Unit → List U → List U
  | .ok (), held => held.erase u
  | .error _, held => held

section Calls
variable {nblocks : UInt64} (hstart : start < nblocks) (N : Numbering bits range)
  (h : Tracks range reserved (fun u => testBit (v start) (N.bitOf u) = true) held)
include hstart h

theorem claimBit_sound {r : Except Errno U}
    (hrun : run (grantingTxn nblocks granted) (claimBit start bits N.number).run v = (r, v')) :
    AllocSound start N.bitOf (∀ u ∈ range, u ∈ reserved ∨ u ∈ held) granted r v v' ∧
      Tracks range reserved (fun u => testBit (v' start) (N.bitOf u) = true) (handOut r held) := by
  cases granted with
  | false =>
      rw [run_claimBit_refused] at hrun
      cases hrun
      exact ⟨⟨by simp, by simp, by simp, fun _ _ => rfl⟩, h⟩
  | true =>
      rw [← h.exhausted_iff]
      cases hfind : bits.find? fun i => !testBit (v start) i with
      | none =>
          rw [run_claimBit_full hstart hfind] at hrun
          cases hrun
          have hfull : ∀ u ∈ range, testBit (v start) (N.bitOf u) = true := by
            intro u hu
            simpa using List.find?_eq_none.mp hfind _ (N.bitOf_mem u hu).1
          exact ⟨⟨by simpa using hfull, by simpa using hfull, by simp, fun _ _ => rfl⟩, h⟩
      | some i =>
          rw [run_claimBit_free hstart hfind] at hrun
          cases hrun
          have hi := List.mem_of_find?_eq_some hfind
          obtain ⟨hrange, hbit⟩ := N.number_mem i hi
          have hclear : testBit (v start) i = false := by simpa using List.find?_some hfind
          have hnot : ¬ ∀ u ∈ range, testBit (v start) (N.bitOf u) = true := by
            intro hall
            have hset := hall _ hrange
            rw [hbit, hclear] at hset
            cases hset
          refine ⟨⟨by simpa using hnot, by simpa using hnot, ?_, by simp⟩, ?_⟩
          · rintro _ ⟨⟩
            rw [hbit]
            exact ⟨hclear, .set (N.bit_lt i hi) hclear⟩
          · refine h.take hrange (by rw [hbit, hclear]; simp) fun w hw => ?_
            rw [Function.update_self, testBit_setBit _ (N.bit_lt i hi), Bool.or_eq_true, decide_eq_true_iff]
            refine or_congr_left ⟨fun heq => ?_, ?_⟩
            · exact N.inj hw hrange (heq.trans hbit.symm)
            · rintro rfl
              exact hbit

theorem releaseBit_sound [DecidableEq U] {r : Except Errno Unit} (hu : u ∈ held)
    (hrun : run (grantingTxn nblocks granted) (releaseBit start (N.bitOf u)).run v = (r, v')) :
    FreeSound start (N.bitOf u) granted r v v' ∧
      Tracks range reserved (fun u => testBit (v' start) (N.bitOf u) = true) (takeBack u r held) := by
  cases granted with
  | false =>
      rw [run_releaseBit_refused] at hrun
      cases hrun
      exact ⟨⟨by simp, by simp, fun _ _ => rfl⟩, h⟩
  | true =>
      rw [run_releaseBit hstart] at hrun
      cases hrun
      have hrange := h.inRange u hu
      have hi := N.bit_lt _ (N.bitOf_mem u hrange).1
      have hset := h.marked_of_held hu
      refine ⟨⟨by simp, fun _ => ⟨hset, .clear hi hset⟩, by simp⟩, ?_⟩
      refine h.release hu fun w hw => ?_
      rw [Function.update_self, testBit_clearBit _ hi, Bool.and_eq_true, Bool.not_eq_true', decide_eq_false_iff_not]
      refine and_congr_left' (not_congr ⟨fun heq => N.inj hw hrange heq, ?_⟩)
      rintro rfl
      rfl

end Calls

/-! ## Sequences of calls -/

inductive AllocCall
  | allocInode
  | freeInode (ino : UInt32)
  | allocBlock
  | freeBlock (blockno : UInt64)

/-- The image, and the units handed out and not yet freed. -/
structure AllocState where
  view : Image
  inodes : List UInt32
  blocks : List UInt64

/-- One call, which is refused write access to the bitmap unless it is granted. -/
def allocStep (sb : Super) (s : AllocState) : AllocCall × Bool → Option AllocState
  | (.allocInode, granted) =>
      let (r, view) := run (grantingTxn sb.totalBlocks granted) (allocInode sb).run s.view
      some { s with view, inodes := handOut r s.inodes }
  | (.freeInode ino, granted) =>
      let (r, view) := run (grantingTxn sb.totalBlocks granted) (freeInode sb ino).run s.view
      some { s with view, inodes := takeBack ino r s.inodes }
  | (.allocBlock, granted) =>
      let (r, view) := run (grantingTxn sb.totalBlocks granted) (allocBlock sb).run s.view
      some { s with view, blocks := handOut r s.blocks }
  | (.freeBlock blockno, granted) =>
      let (r, view) := run (grantingTxn sb.totalBlocks granted) (freeBlock sb blockno).run s.view
      some { s with view, blocks := takeBack blockno r s.blocks }

/-- Only units handed out and not yet freed are freed. -/
def FreesOwn (s : AllocState) : AllocCall × Bool → Prop
  | (.freeInode ino, _) => ino ∈ s.inodes
  | (.freeBlock blockno, _) => blockno ∈ s.blocks
  | _ => True

/-- The bitmaps as `logfs_fs_format` writes them. -/
structure BitmapsWritten (sb : Super) (v : Image) : Prop where
  inodes : v sb.inodeBitmapStart = setBit (setBit zeroBlock 0) rootIno.toNat
  blocks : v sb.blockBitmapStart = setBit zeroBlock 0

/-- Both bitmaps are blocks of the image and have a bit for each unit. -/
structure BitmapsFit (sb : Super) : Prop where
  inodeBitmap : sb.inodeBitmapStart < sb.totalBlocks
  blockBitmap : sb.blockBitmapStart < sb.totalBlocks
  apart : sb.inodeBitmapStart ≠ sb.blockBitmapStart
  inodes : 1 ≤ sb.totalInodes.toNat ∧ sb.totalInodes.toNat < 32768
  data : sb.dataStart < sb.totalBlocks
  bits : (sb.totalBlocks - sb.dataStart).toNat ≤ 32768

theorem bitmapsFit_of_accepted {totalBlocks journalLen : UInt64} {mode : DataMode}
    (hsb : sb = formatSuper totalBlocks journalLen mode) (hacc : Accepted totalBlocks journalLen sb) :
    BitmapsFit sb := by
  obtain ⟨htotal, hinodes, -, -, hib, hbb, hit, hitl, hds⟩ := toNat_formatSuper sb hsb
  have hbound := totalInodesFor_bounds totalBlocks
  have hbitmap := UInt64.lt_iff_toNat_lt.mp hacc.inodeBitmap
  have hdata := UInt64.lt_iff_toNat_lt.mp hacc.data
  have hbits := hacc.bitmap
  have hdev := totalBlocks.toNat_lt
  rw [UInt64.toNat_sub_of_le _ _ (UInt64.le_of_lt hacc.data)] at hbits
  constructor
  · rw [htotal]
    exact hacc.inodeBitmap
  · rw [htotal, UInt64.lt_iff_toNat_lt]
    omega
  · intro he
    rw [he] at hib
    omega
  · rw [hinodes]
    omega
  · rw [htotal]
    exact hacc.data
  · rw [htotal]
    exact hacc.bitmap

namespace BitmapsFit
variable (hfit : BitmapsFit sb)
include hfit

theorem inodeBit_lt : ∀ i ∈ inodeBits sb, i < 32768 := by
  intro i hi
  obtain ⟨k, hk, rfl⟩ := List.mem_map.mp hi
  have hlast := List.mem_range.mp hk
  have htotal := hfit.inodes
  omega

theorem number_inodeBit : ∀ i ∈ inodeBits sb, InRange sb (UInt32.ofNat i) ∧ (UInt32.ofNat i).toNat = i := by
  intro i hi
  have hlt := hfit.inodeBit_lt i hi
  obtain ⟨k, hk, rfl⟩ := List.mem_map.mp hi
  have hlast := List.mem_range.mp hk
  have hto : (UInt32.ofNat (k + 1)).toNat = k + 1 :=
    UInt32.toNat_ofNat_of_lt' (show _ < 4294967296 by omega)
  exact ⟨⟨by omega, by omega⟩, hto⟩

omit hfit in
theorem toNat_mem_inodeBits : ∀ u, InRange sb u → u.toNat ∈ inodeBits sb ∧ UInt32.ofNat u.toNat = u := by
  rintro u ⟨hpos, hle⟩
  refine ⟨?_, UInt32.ofNat_toNat⟩
  rw [inodeBits, List.mem_map]
  exact ⟨u.toNat - 1, List.mem_range.mpr (by omega), by omega⟩

theorem blockBit_lt : ∀ i ∈ blockBits sb, i < 32768 :=
  fun _ hi => (List.mem_range.mp hi).trans_le hfit.bits

theorem number_blockBit : ∀ i ∈ blockBits sb, IsData sb (sb.dataStart + UInt64.ofNat i) ∧
    (sb.dataStart + UInt64.ofNat i - sb.dataStart).toNat = i := by
  intro i hi
  have hle := UInt64.le_of_lt hfit.data
  have hlt := List.mem_range.mp hi
  rw [UInt64.toNat_sub_of_le _ _ hle] at hlt
  have htop := sb.totalBlocks.toNat_lt
  have hto : (UInt64.ofNat i).toNat = i := UInt64.toNat_ofNat_of_lt' (show _ < 2 ^ 64 by omega)
  have hsum : (sb.dataStart + UInt64.ofNat i).toNat = sb.dataStart.toNat + i := by
    rw [UInt64.toNat_add, hto, Nat.mod_eq_of_lt (by omega)]
  refine ⟨⟨?_, ?_⟩, ?_⟩
  · rw [UInt64.le_iff_toNat_le]
    omega
  · rw [UInt64.lt_iff_toNat_lt]
    omega
  · rw [add_sub_cancel_left, hto]

theorem index_mem_blockBits : ∀ b, IsData sb b →
    (b - sb.dataStart).toNat ∈ blockBits sb ∧ sb.dataStart + UInt64.ofNat (b - sb.dataStart).toNat = b := by
  rintro b ⟨hge, hlt⟩
  have hlast := UInt64.lt_iff_toNat_lt.mp hlt
  have hfirst := UInt64.le_iff_toNat_le.mp hge
  constructor
  · rw [blockBits, List.mem_range, UInt64.toNat_sub_of_le _ _ hge,
      UInt64.toNat_sub_of_le _ _ (UInt64.le_of_lt hfit.data)]
    omega
  · rw [UInt64.ofNat_toNat, add_sub_cancel]

end BitmapsFit

section Numberings
variable (hfit : BitmapsFit sb)

/-- The bit of an inode is its number. -/
def inodeNumbering : Numbering (inodeBits sb) {i : UInt32 | InRange sb i} where
  number := UInt32.ofNat
  bitOf := UInt32.toNat
  bit_lt := hfit.inodeBit_lt
  number_mem := hfit.number_inodeBit
  bitOf_mem := BitmapsFit.toNat_mem_inodeBits

/-- The bit of a block is its distance from the first data block. -/
def blockNumbering : Numbering (blockBits sb) {b : UInt64 | IsData sb b} where
  number i := sb.dataStart + UInt64.ofNat i
  bitOf b := (b - sb.dataStart).toNat
  bit_lt := hfit.blockBit_lt
  number_mem := hfit.number_blockBit
  bitOf_mem := hfit.index_mem_blockBits

/-- Either bitmap accounts for the units of its kind. -/
structure AllocInv (s : AllocState) : Prop where
  inodes : Tracks {i | InRange sb i} {rootIno}
    (fun i => testBit (s.view sb.inodeBitmapStart) ((inodeNumbering hfit).bitOf i) = true) s.inodes
  blocks : Tracks {b | IsData sb b} {sb.dataStart}
    (fun b => testBit (s.view sb.blockBitmapStart) ((blockNumbering hfit).bitOf b) = true) s.blocks

theorem AllocInv.init (hv : BitmapsWritten sb v) : AllocInv hfit ⟨v, [], []⟩ where
  inodes := by
    apply Tracks.init
    rintro i ⟨hpos, -⟩
    change testBit (v sb.inodeBitmapStart) i.toNat = true ↔ i = rootIno
    rw [hv.inodes, testBit_setBit _ (by decide), testBit_setBit _ (by decide), testBit_zeroBlock,
      ← UInt32.toNat_inj]
    simp
    omega
  blocks := by
    apply Tracks.init
    intro b hb
    change testBit (v sb.blockBitmapStart) (b - sb.dataStart).toNat = true ↔ b = sb.dataStart
    rw [hv.blocks, testBit_setBit _ (by decide), testBit_zeroBlock, Bool.or_false, decide_eq_true_iff]
    constructor
    · intro hzero
      rw [← sub_eq_zero]
      exact UInt64.toNat_inj.mp hzero
    · rintro rfl
      rw [sub_self]
      rfl

variable {s : AllocState}

/-- Every inode number is in use. -/
def InodesFull (sb : Super) (s : AllocState) : Prop := ∀ i, InRange sb i → i = rootIno ∨ i ∈ s.inodes

/-- Every data block is in use. -/
def BlocksFull (sb : Super) (s : AllocState) : Prop := ∀ b, IsData sb b → b = sb.dataStart ∨ b ∈ s.blocks

section Steps
variable {hfit} (h : AllocInv hfit s)
include h

theorem AllocInv.allocInode {r : Except Errno UInt32}
    (hrun : run (grantingTxn sb.totalBlocks granted) (allocInode sb).run s.view = (r, v')) :
    AllocSound sb.inodeBitmapStart UInt32.toNat (InodesFull sb s) granted r s.view v' ∧
      AllocInv hfit { s with view := v', inodes := handOut r s.inodes } := by
  rw [allocInode_eq] at hrun
  obtain ⟨hsound, htracks⟩ := claimBit_sound hfit.inodeBitmap (inodeNumbering hfit) h.inodes hrun
  refine ⟨hsound, htracks, h.blocks.congr fun b _ => ?_⟩
  dsimp only
  rw [hsound.elsewhere hfit.apart.symm]

theorem AllocInv.allocBlock {r : Except Errno UInt64}
    (hrun : run (grantingTxn sb.totalBlocks granted) (allocBlock sb).run s.view = (r, v')) :
    AllocSound sb.blockBitmapStart (fun b => (b - sb.dataStart).toNat) (BlocksFull sb s) granted r s.view v' ∧
      AllocInv hfit { s with view := v', blocks := handOut r s.blocks } := by
  rw [allocBlock_eq] at hrun
  obtain ⟨hsound, htracks⟩ := claimBit_sound hfit.blockBitmap (blockNumbering hfit) h.blocks hrun
  refine ⟨hsound, h.inodes.congr fun i _ => ?_, htracks⟩
  dsimp only
  rw [hsound.elsewhere hfit.apart]

theorem AllocInv.freeInode {ino : UInt32} (hown : ino ∈ s.inodes) {r : Except Errno Unit}
    (hrun : run (grantingTxn sb.totalBlocks granted) (freeInode sb ino).run s.view = (r, v')) :
    FreeSound sb.inodeBitmapStart ino.toNat granted r s.view v' ∧
      AllocInv hfit { s with view := v', inodes := takeBack ino r s.inodes } := by
  rw [freeInode_eq (h.inodes.inRange ino hown)] at hrun
  obtain ⟨hsound, htracks⟩ := releaseBit_sound hfit.inodeBitmap (inodeNumbering hfit) h.inodes hown hrun
  refine ⟨hsound, htracks, h.blocks.congr fun b _ => ?_⟩
  dsimp only
  rw [hsound.elsewhere hfit.apart.symm]

theorem AllocInv.freeBlock {b : UInt64} (hown : b ∈ s.blocks) {r : Except Errno Unit}
    (hrun : run (grantingTxn sb.totalBlocks granted) (freeBlock sb b).run s.view = (r, v')) :
    FreeSound sb.blockBitmapStart (b - sb.dataStart).toNat granted r s.view v' ∧
      AllocInv hfit { s with view := v', blocks := takeBack b r s.blocks } := by
  rw [freeBlock_eq (h.blocks.inRange b hown)] at hrun
  obtain ⟨hsound, htracks⟩ := releaseBit_sound hfit.blockBitmap (blockNumbering hfit) h.blocks hown hrun
  refine ⟨hsound, h.inodes.congr fun i _ => ?_, htracks⟩
  dsimp only
  rw [hsound.elsewhere hfit.apart]

end Steps

/-- Every call on units of the caller's own keeps the account. -/
theorem preserves_allocInv : Preserves (allocStep sb) FreesOwn (AllocInv hfit) := by
  rintro s t ⟨call, granted⟩ hown hnow h
  cases call with
  | allocInode =>
      cases hnow
      exact (h.allocInode rfl).2
  | freeInode ino =>
      cases hnow
      exact (h.freeInode hown rfl).2
  | allocBlock =>
      cases hnow
      exact (h.allocBlock rfl).2
  | freeBlock b =>
      cases hnow
      exact (h.freeBlock hown rfl).2

end Numberings

/-! ## Every sequence -/

/-- The units handed out and not yet freed. -/
structure HeldSound (sb : Super) (s : AllocState) : Prop where
  inodes_distinct : s.inodes.Nodup
  inodes_range : ∀ i ∈ s.inodes, 2 ≤ i.toNat ∧ i.toNat ≤ sb.totalInodes.toNat
  inodes_root : rootIno ∉ s.inodes
  blocks_distinct : s.blocks.Nodup
  blocks_range : ∀ b ∈ s.blocks, sb.dataStart ≤ b ∧ b < sb.totalBlocks
  blocks_root : sb.dataStart ∉ s.blocks

/-- Whichever call comes next. -/
structure CallsSound (sb : Super) (s : AllocState) (granted : Bool) : Prop where
  allocInode : ∀ r v', run (grantingTxn sb.totalBlocks granted) (allocInode sb).run s.view = (r, v') →
    AllocSound sb.inodeBitmapStart UInt32.toNat (InodesFull sb s) granted r s.view v'
  freeInode : ∀ ino ∈ s.inodes, ∀ r v',
    run (grantingTxn sb.totalBlocks granted) (freeInode sb ino).run s.view = (r, v') →
    FreeSound sb.inodeBitmapStart ino.toNat granted r s.view v'
  allocBlock : ∀ r v', run (grantingTxn sb.totalBlocks granted) (allocBlock sb).run s.view = (r, v') →
    AllocSound sb.blockBitmapStart (fun b => (b - sb.dataStart).toNat) (BlocksFull sb s) granted r s.view v'
  freeBlock : ∀ b ∈ s.blocks, ∀ r v',
    run (grantingTxn sb.totalBlocks granted) (freeBlock sb b).run s.view = (r, v') →
    FreeSound sb.blockBitmapStart (b - sb.dataStart).toNat granted r s.view v'

theorem AllocInv.heldSound {hfit : BitmapsFit sb} {s : AllocState} (h : AllocInv hfit s) : HeldSound sb s where
  inodes_distinct := h.inodes.nodup
  inodes_range := by
    intro i hi
    obtain ⟨hpos, hle⟩ := h.inodes.inRange i hi
    have hroot : i ≠ rootIno := h.inodes.apart i hi
    rw [ne_eq, ← UInt32.toNat_inj] at hroot
    refine ⟨?_, hle⟩
    change i.toNat ≠ 1 at hroot
    omega
  inodes_root := fun hroot => h.inodes.apart _ hroot rfl
  blocks_distinct := h.blocks.nodup
  blocks_range := h.blocks.inRange
  blocks_root := fun hroot => h.blocks.apart _ hroot rfl

/-- After every sequence of calls on a formatted image that frees only what was handed out. -/
theorem allocators_sound {σ : Type} {h : Handler (DevRes (A := UInt64) (B := Block) Errno) σ}
    {host : Except Errno Unit} {totalBlocks journalLen now : UInt64} {mode : DataMode} {s₀ : σ}
    {s : AllocState} (hsb : sb = formatSuper totalBlocks journalLen mode)
    (hformat : (run h (fsFormat host totalBlocks journalLen mode now).run s₀).1 = .ok ())
    (hv : BitmapsWritten sb v) (hrun : Run (allocStep sb) FreesOwn ⟨v, [], []⟩ s) :
    HeldSound sb s ∧ ∀ granted, CallsSound sb s granted := by
  subst hsb
  have hfit := bitmapsFit_of_accepted rfl (accepted_of_ok hformat)
  have hinv : AllocInv hfit s := hrun.invariant (.init hfit hv) (preserves_allocInv hfit)
  refine ⟨hinv.heldSound, fun granted => ⟨?_, ?_, ?_, ?_⟩⟩
  · intro r v' hcall
    exact (hinv.allocInode hcall).1
  · intro ino hown r v' hcall
    exact (hinv.freeInode hown hcall).1
  · intro r v' hcall
    exact (hinv.allocBlock hcall).1
  · intro b hown r v' hcall
    exact (hinv.freeBlock hown hcall).1

/-- On an image of 128 blocks, where the first inode number handed out is 2. -/
theorem allocators_sound_small : ∃ s, Run (allocStep (formatSuper 128 64 .ordered)) FreesOwn
      ⟨smallDisk.view, [], []⟩ s ∧ s.inodes = [2] ∧
    HeldSound (formatSuper 128 64 .ordered) s ∧ ∀ granted, CallsSound (formatSuper 128 64 .ordered) s granted := by
  have hfind : ((inodeBits (formatSuper 128 64 .ordered)).find? fun i =>
      !testBit (smallDisk.view (formatSuper 128 64 .ordered).inodeBitmapStart) i) = some 2 := by
    rw [laidOut_small.inodeBitmap]
    decide +kernel
  have hcall : run (grantingTxn 128 true) (allocInode (formatSuper 128 64 .ordered)).run smallDisk.view =
      (.ok (UInt32.ofNat 2), _) := run_claimBit_free (by decide) hfind
  have hnow : ∀ {r w},
      run (grantingTxn 128 true) (allocInode (formatSuper 128 64 .ordered)).run smallDisk.view = (r, w) →
        allocStep (formatSuper 128 64 .ordered) ⟨smallDisk.view, [], []⟩ (.allocInode, true) =
          some ⟨w, handOut r [], []⟩ := by
    intro r w h
    change (match run (grantingTxn 128 true) (allocInode (formatSuper 128 64 .ordered)).run smallDisk.view with
      | (r, view) => some (AllocState.mk view (handOut r []) [])) = _
    rw [h]
  have hrun : Run (allocStep (formatSuper 128 64 .ordered)) FreesOwn ⟨smallDisk.view, [], []⟩ _ :=
    .next (a := (.allocInode, true)) .init trivial (hnow hcall)
  exact ⟨_, hrun, rfl, allocators_sound rfl (congrArg Prod.fst run_format_small)
    ⟨laidOut_small.inodeBitmap, laidOut_small.blockBitmap⟩ hrun⟩

end Logfs
