import Logfs.Lib.ByteBuffer

/-!
# On-disk structures

The structs of `disk_format.h`. Each is encoded as its fields little-endian at
their C offsets in a zeroed block, and decoded from the same offsets.
-/
namespace Logfs
open ByteBuffer

def blockSize : ℕ := 4096

abbrev Block := Buf 4096

abbrev zeroBlock : Block := zeros 4096

def superMagic : UInt32 := 0x4C4F4746
def journalMagic : UInt32 := 0x4C4A524E
def descMagic : UInt32 := 0x4C444352
def commitMagic : UInt32 := 0x4C434D54
def revokeMagic : UInt32 := 0x4C52564B

def superBlockno : UInt64 := 1
def jsuperBlockno : UInt64 := 2

def rootIno : UInt32 := 1
def formatVersion : UInt32 := 1

/-- Error numbers, without the sign the C code returns them with. -/
inductive Errno
  | einval | enospc | eio | enomem | efbig | euclean | enotdir | enametoolong
  | eexist | enoent | enotempty
  deriving DecidableEq, Repr

inductive DataMode
  | writeback | ordered | journal
  deriving DecidableEq, Repr

def DataMode.code : DataMode → UInt32
  | .writeback => 0
  | .ordered => 1
  | .journal => 2

/-! ## Journal superblock -/

structure JournalSuper where
  magic : UInt32
  blockSize : UInt32
  maxlen : UInt64
  first : UInt64
  sequence : UInt64
  start : UInt64
  deriving DecidableEq

/-- The `start` value of an empty log. -/
def journalEmpty : UInt64 := 0xFFFFFFFFFFFFFFFF

def JournalSuper.encode (js : JournalSuper) : Block :=
  store (store (store (store (store (store zeroBlock 0 js.magic) 4 js.blockSize)
    8 js.maxlen) 16 js.first) 24 js.sequence) 32 js.start

def JournalSuper.decode (b : Block) : JournalSuper where
  magic := load UInt32 b 0
  blockSize := load UInt32 b 4
  maxlen := load UInt64 b 8
  first := load UInt64 b 16
  sequence := load UInt64 b 24
  start := load UInt64 b 32

@[simp] theorem JournalSuper.decode_encode (js : JournalSuper) : decode js.encode = js := by
  simp [decode, encode, load_store_of_disjoint]

/-! ## Journal records -/

/-- `LOGFS_MAX_TAGS_PER_DESC` -/
def maxTagsPerDesc : ℕ := (4096 - 16) / 8

structure DescBlock where
  magic : UInt32
  ntags : UInt32
  sequence : UInt64
  tags : Fin maxTagsPerDesc → UInt64

def DescBlock.encode (d : DescBlock) : Block :=
  storeArray (store (store (store zeroBlock 0 d.magic) 4 d.ntags) 8 d.sequence)
    16 (List.ofFn d.tags)

def DescBlock.decode (b : Block) : DescBlock where
  magic := load UInt32 b 0
  ntags := load UInt32 b 4
  sequence := load UInt64 b 8
  tags := fun i => load UInt64 b (16 + 8 * i)

structure CommitBlock where
  magic : UInt32
  sequence : UInt64
  checksum : UInt32

def CommitBlock.encode (c : CommitBlock) : Block :=
  store (store (store zeroBlock 0 c.magic) 8 c.sequence) 16 c.checksum

def CommitBlock.decode (b : Block) : CommitBlock where
  magic := load UInt32 b 0
  sequence := load UInt64 b 8
  checksum := load UInt32 b 16

@[simp] theorem CommitBlock.decode_encode (c : CommitBlock) : decode c.encode = c := by
  simp [decode, encode, load_store_of_disjoint]

/-- `LOGFS_MAX_REVOKES_PER_BLOCK` -/
def maxRevokesPerBlock : ℕ := (4096 - 16) / 8

structure RevokeBlock where
  magic : UInt32
  nblocks : UInt32
  sequence : UInt64
  blocks : Fin maxRevokesPerBlock → UInt64

def RevokeBlock.encode (r : RevokeBlock) : Block :=
  storeArray (store (store (store zeroBlock 0 r.magic) 4 r.nblocks) 8 r.sequence)
    16 (List.ofFn r.blocks)

def RevokeBlock.decode (b : Block) : RevokeBlock where
  magic := load UInt32 b 0
  nblocks := load UInt32 b 4
  sequence := load UInt64 b 8
  blocks := fun i => load UInt64 b (16 + 8 * i)

/-- An array of block numbers behind a 16-byte header is read back entry by entry. -/
theorem load_header_array {k : ℕ} (hk : 16 + 8 * k ≤ 4096) (b : Block) (f : Fin k → UInt64)
    (i : Fin k) : load UInt64 (storeArray b 16 (List.ofFn f)) (16 + 8 * i) = f i := by
  have hget : (List.ofFn f)[i.val]? = some (f i) := by simp
  exact load_storeArray b (by simpa using hk) hget

@[simp] theorem DescBlock.decode_encode (d : DescBlock) : decode d.encode = d := by
  have htags := load_header_array (k := maxTagsPerDesc) (by decide)
    (store (store (store zeroBlock 0 d.magic) 4 d.ntags) 8 d.sequence) d.tags
  simp only [decode, encode, htags]
  simp [load_storeArray_of_disjoint, load_store_of_disjoint]

@[simp] theorem RevokeBlock.decode_encode (r : RevokeBlock) : decode r.encode = r := by
  have hblocks := load_header_array (k := maxRevokesPerBlock) (by decide)
    (store (store (store zeroBlock 0 r.magic) 4 r.nblocks) 8 r.sequence) r.blocks
  simp only [decode, encode, hblocks]
  simp [load_storeArray_of_disjoint, load_store_of_disjoint]

/-- The first word of a block, by which the log's blocks are told apart. -/
def magicOf (b : Block) : UInt32 := load UInt32 b 0

@[simp] theorem magicOf_zeroBlock : magicOf zeroBlock = 0 := by
  simp [magicOf, load, get_zeros, Scalar.ofNat]

@[simp] theorem magicOf_desc (d : DescBlock) : magicOf d.encode = d.magic :=
  congrArg DescBlock.magic d.decode_encode

@[simp] theorem magicOf_revoke (r : RevokeBlock) : magicOf r.encode = r.magic :=
  congrArg RevokeBlock.magic r.decode_encode

@[simp] theorem magicOf_commit (c : CommitBlock) : magicOf c.encode = c.magic :=
  congrArg CommitBlock.magic c.decode_encode

/-- The content begins with the magic of a journal record. -/
def IsRecord (b : Block) : Prop :=
  magicOf b = descMagic ∨ magicOf b = commitMagic ∨ magicOf b = revokeMagic

instance (b : Block) : Decidable (IsRecord b) := by unfold IsRecord; infer_instance

/-! ## File system structures -/

structure Super where
  magic : UInt32
  version : UInt32
  blockSize : UInt32
  dataMode : UInt32
  totalBlocks : UInt64
  journalStart : UInt64
  journalLen : UInt64
  inodeBitmapStart : UInt64
  blockBitmapStart : UInt64
  inodeTableStart : UInt64
  inodeTableLen : UInt64
  dataStart : UInt64
  totalInodes : UInt64
  rootIno : UInt32
  lastOrphan : UInt32
  checksum : UInt32
  reserved : UInt32
  deriving DecidableEq

/-- `sizeof(struct logfs_super)` -/
def superSize : ℕ := 104

def Super.encode (sb : Super) : Block :=
  let ids := store (store (store (store zeroBlock 0 sb.magic) 4 sb.version) 8 sb.blockSize)
    12 sb.dataMode
  let region := store (store (store ids 16 sb.totalBlocks) 24 sb.journalStart) 32 sb.journalLen
  let table := store (store (store (store region 40 sb.inodeBitmapStart) 48 sb.blockBitmapStart)
    56 sb.inodeTableStart) 64 sb.inodeTableLen
  let data := store (store table 72 sb.dataStart) 80 sb.totalInodes
  store (store (store (store data 88 sb.rootIno) 92 sb.lastOrphan) 96 sb.checksum) 100 sb.reserved

def Super.decode (b : Block) : Super where
  magic := load UInt32 b 0
  version := load UInt32 b 4
  blockSize := load UInt32 b 8
  dataMode := load UInt32 b 12
  totalBlocks := load UInt64 b 16
  journalStart := load UInt64 b 24
  journalLen := load UInt64 b 32
  inodeBitmapStart := load UInt64 b 40
  blockBitmapStart := load UInt64 b 48
  inodeTableStart := load UInt64 b 56
  inodeTableLen := load UInt64 b 64
  dataStart := load UInt64 b 72
  totalInodes := load UInt64 b 80
  rootIno := load UInt32 b 88
  lastOrphan := load UInt32 b 92
  checksum := load UInt32 b 96
  reserved := load UInt32 b 100

@[simp] theorem Super.decode_encode (sb : Super) : decode sb.encode = sb := by
  simp [decode, encode, load_store_of_disjoint]

/-- `LOGFS_NDIR_BLOCKS` -/
def ndirBlocks : ℕ := 12

structure Inode where
  mode : UInt32
  nlink : UInt32
  uid : UInt32
  gid : UInt32
  size : UInt64
  atime : UInt64
  mtime : UInt64
  ctime : UInt64
  blocks : Fin ndirBlocks → UInt64
  deriving DecidableEq

/-- `sizeof(struct logfs_inode)` -/
def inodeSize : ℕ := 144

/-- The block after the inode was copied in at `off`. -/
def Inode.encodeAt (b : Block) (off : ℕ) (i : Inode) : Block :=
  let owner := store (store (store (store b off i.mode) (off + 4) i.nlink) (off + 8) i.uid)
    (off + 12) i.gid
  let times := store (store (store (store owner (off + 16) i.size) (off + 24) i.atime)
    (off + 32) i.mtime) (off + 40) i.ctime
  storeArray times (off + 48) (List.ofFn i.blocks)

def Inode.decodeAt (b : Block) (off : ℕ) : Inode where
  mode := load UInt32 b off
  nlink := load UInt32 b (off + 4)
  uid := load UInt32 b (off + 8)
  gid := load UInt32 b (off + 12)
  size := load UInt64 b (off + 16)
  atime := load UInt64 b (off + 24)
  mtime := load UInt64 b (off + 32)
  ctime := load UInt64 b (off + 40)
  blocks := fun k => load UInt64 b (off + 48 + 8 * k)

theorem Inode.length_blocks (i : Inode) : (List.ofFn i.blocks).length = 12 := List.length_ofFn

theorem Inode.decodeAt_encodeAt (b : Block) {off : ℕ} (hfit : off + inodeSize ≤ 4096) (i : Inode) :
    decodeAt (encodeAt b off i) off = i := by
  simp only [inodeSize] at hfit
  have hblocks : ∀ (c : Block) (k : Fin ndirBlocks),
      load UInt64 (storeArray c (off + 48) (List.ofFn i.blocks)) (off + 48 + 8 * k) = i.blocks k :=
    fun c k => load_storeArray c (by rw [i.length_blocks]; simp; omega) (by simp)
  simp only [decodeAt, encodeAt, hblocks]
  simp (disch := simp <;> omega) [load_storeArray_of_disjoint, load_store_of_disjoint]

/-- A scalar outside the inode's bytes is left alone. -/
theorem Inode.load_encodeAt_of_disjoint {α : Type} [Scalar α] (b : Block) {off off' : ℕ} (i : Inode)
    (h : off' + Scalar.width α ≤ off ∨ off + inodeSize ≤ off') :
    load α (encodeAt b off i) off' = load α b off' := by
  simp only [inodeSize] at h
  have hlen := i.length_blocks
  simp (disch := simp [hlen, -List.length_ofFn] <;> omega) [encodeAt, load_storeArray_of_disjoint,
    load_store_of_disjoint]

theorem Inode.decodeAt_encodeAt_of_disjoint (b : Block) {off off' : ℕ} (i : Inode)
    (h : off' + inodeSize ≤ off ∨ off + inodeSize ≤ off') :
    decodeAt (encodeAt b off i) off' = decodeAt b off' := by
  simp only [inodeSize] at h
  have hblocks : ∀ k : Fin ndirBlocks,
      load UInt64 (encodeAt b off i) (off' + 48 + 8 * k) = load UInt64 b (off' + 48 + 8 * k) := by
    intro k
    have hk : k.val < 12 := k.isLt
    exact load_encodeAt_of_disjoint b i (by simp [inodeSize]; omega)
  simp only [decodeAt, hblocks]
  simp (disch := simp [inodeSize] <;> omega) [load_encodeAt_of_disjoint]

/-- `LOGFS_DIRENTS_PER_BLOCK` -/
def direntsPerBlock : ℕ := 64

/-- `LOGFS_NAME_MAX` -/
def nameMax : ℕ := 55

def ftReg : UInt8 := 1
def ftDir : UInt8 := 2

/-- Assigns `ino`, `name_len` and `file_type` of slot `e` and copies the name's bytes in. -/
def setDirent (ents : Block) (e : ℕ) (ino : UInt32) (fileType : UInt8) (name : List UInt8) : Block :=
  let fields := store (store (store ents (64 * e) ino) (64 * e + 4) (UInt8.ofNat name.length))
    (64 * e + 5) fileType
  splice fields (64 * e + 8) name

/-! ## Bitmaps -/

def testBit (bitmap : Block) (index : ℕ) : Bool :=
  byteAt bitmap (index / 8) &&& (1 <<< UInt8.ofNat (index % 8)) != 0

def setBit (bitmap : Block) (index : ℕ) : Block :=
  store bitmap (index / 8) (byteAt bitmap (index / 8) ||| (1 <<< UInt8.ofNat (index % 8)))

def clearBit (bitmap : Block) (index : ℕ) : Block :=
  store bitmap (index / 8) (byteAt bitmap (index / 8) &&& ~~~(1 <<< UInt8.ofNat (index % 8)))

theorem bit_toBitVec {k : ℕ} (hk : k < 8) : (1 <<< UInt8.ofNat k : UInt8).toBitVec = 1#8 <<< k := by
  interval_cases k <;> rfl

theorem and_bit_ne_zero (x : UInt8) {k : ℕ} (hk : k < 8) :
    (x &&& (1 <<< UInt8.ofNat k) != 0) = x.toBitVec.getLsbD k := by
  rw [Bool.eq_iff_iff, bne_iff_ne, ne_eq, ← UInt8.toBitVec_inj]
  constructor
  · intro h
    by_contra hf
    apply h
    apply BitVec.eq_of_getLsbD_eq
    intro i hi
    simp only [UInt8.toBitVec_and, bit_toBitVec hk, BitVec.getLsbD_and, BitVec.getLsbD_shiftLeft]
    by_cases hik : i = k
    · subst hik
      simp [hf]
    · simp
      omega
  · intro h hzero
    have hbit := congrArg (fun b => b.getLsbD k) hzero
    rw [BitVec.getLsbD_eq_getElem hk] at h
    simp [bit_toBitVec hk, hk, h] at hbit

theorem testBit_eq (b : Block) (i : ℕ) :
    testBit b i = (byteAt b (i / 8)).toBitVec.getLsbD (i % 8) :=
  and_bit_ne_zero _ (Nat.mod_lt _ (by decide))

theorem byteAt_store_byte (b : Block) {i : ℕ} (hi : i < 4096) (x : UInt8) (j : ℕ) :
    byteAt (store b i x) j = if j = i then x else byteAt b j := by
  have hbytes : leBytes (Scalar.width UInt8) (Scalar.toNat x) = [x] := by
    simp [leBytes, Scalar.toNat]
  rw [store, put, hbytes, byteAt_splice]
  by_cases hj : j = i
  · subst hj
    simp [hi]
  · rw [if_neg (by simp; omega), if_neg hj]

theorem testBit_setBit (b : Block) {i : ℕ} (hi : i < 32768) (j : ℕ) :
    testBit (setBit b i) j = (decide (j = i) || testBit b j) := by
  have hk : i % 8 < 8 := Nat.mod_lt _ (by decide)
  have hl : j % 8 < 8 := Nat.mod_lt _ (by decide)
  rw [testBit_eq, testBit_eq, setBit, byteAt_store_byte b (by omega)]
  by_cases hbyte : j / 8 = i / 8
  · rw [if_pos hbyte, hbyte, UInt8.toBitVec_or, BitVec.getLsbD_or, bit_toBitVec hk,
      BitVec.getLsbD_shiftLeft]
    by_cases hij : j = i
    · subst hij
      simp [hl]
    · have hne : j % 8 ≠ i % 8 := by omega
      simp [hij]
      omega
  · have hij : j ≠ i := by rintro rfl; exact hbyte rfl
    simp [if_neg hbyte, hij]

theorem testBit_clearBit (b : Block) {i : ℕ} (hi : i < 32768) (j : ℕ) :
    testBit (clearBit b i) j = (!decide (j = i) && testBit b j) := by
  have hk : i % 8 < 8 := Nat.mod_lt _ (by decide)
  have hl : j % 8 < 8 := Nat.mod_lt _ (by decide)
  rw [testBit_eq, testBit_eq, clearBit, byteAt_store_byte b (by omega)]
  by_cases hbyte : j / 8 = i / 8
  · rw [if_pos hbyte, hbyte, UInt8.toBitVec_and, UInt8.toBitVec_not, BitVec.getLsbD_and,
      BitVec.getLsbD_not, bit_toBitVec hk, BitVec.getLsbD_shiftLeft]
    by_cases hij : j = i
    · subst hij
      simp
    · have hne : j % 8 ≠ i % 8 := by omega
      simp [hij, hl]
      omega
  · have hij : j ≠ i := by rintro rfl; exact hbyte rfl
    simp [if_neg hbyte, hij]

@[simp] theorem testBit_zeroBlock (i : ℕ) : testBit zeroBlock i = false := by
  simp [testBit]

end Logfs
