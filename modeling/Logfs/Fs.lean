import Logfs.Journal

/-!
# Formatting and mounting

`fs.c`: `logfs_fs_format` lays out an image, and `logfs_fs_mount` checks the
superblock, opens the journal and recovers it onto the home blocks.
-/
namespace Logfs
open Interaction WriteCache ByteBuffer

/-- `LOGFS_JOURNAL_REGION_START`: blocks 0=boot, 1=super, 2=journal-super -/
def journalRegionStart : UInt64 := 3

/-- `LOGFS_FS_MAX_BITMAP_UNITS` -/
def maxBitmapUnits : UInt64 := 32768

def superChecksum (sb : Super) : UInt32 :=
  let tmp := { sb with checksum := 0 }
  crc32Final (crc32Update crc32Init (slice tmp.encode 0 superSize))

def writeSuper (dev : BlockDev) (sb : Super) : DevEM Unit :=
  bdevWriteFua dev superBlockno sb.encode

/-! ## Format -/

def totalInodesFor (totalBlocks : UInt64) : UInt64 :=
  let totalInodes := totalBlocks / 4
  let totalInodes := if maxBitmapUnits - 1 < totalInodes then maxBitmapUnits - 1 else totalInodes
  if totalInodes < 16 then 16 else totalInodes

def inodeTableLenFor (totalInodes : UInt64) : UInt64 :=
  (totalInodes * UInt64.ofNat inodeSize + 4096 - 1) / 4096

/-- The superblock `logfs_fs_format` computes, which it writes last. -/
def formatSuper (totalBlocks journalLen : UInt64) (defaultMode : DataMode) : Super :=
  let journalStart := journalRegionStart
  let inodeBitmapStart := journalStart + journalLen
  let blockBitmapStart := inodeBitmapStart + 1
  let inodeTableStart := blockBitmapStart + 1
  let totalInodes := totalInodesFor totalBlocks
  let inodeTableLen := inodeTableLenFor totalInodes
  let sb : Super :=
    { magic := superMagic, version := formatVersion, blockSize := 4096,
      dataMode := defaultMode.code, totalBlocks, journalStart, journalLen, inodeBitmapStart,
      blockBitmapStart, inodeTableStart, inodeTableLen,
      dataStart := inodeTableStart + inodeTableLen, totalInodes, rootIno, lastOrphan := 0,
      checksum := 0, reserved := 0 }
  { sb with checksum := superChecksum sb }

/-- `S_IFDIR` -/
def modeDir : UInt32 := 0x4000

/-- `S_IFREG` -/
def modeReg : UInt32 := 0x8000

def formatRoot (sb : Super) (now : UInt64) : Inode where
  mode := modeDir ||| 0x1ED
  nlink := 2
  uid := 0
  gid := 0
  size := 4096
  atime := now
  mtime := now
  ctime := now
  blocks := fun k => if k.val = 0 then sb.dataStart else 0

/-- The characters `.` and `..` as bytes -/
def dotName : List UInt8 := [0x2E]
def dotDotName : List UInt8 := [0x2E, 0x2E]

/-- A directory block with its own two entries. -/
def initialDirBlock (ino parentIno : UInt32) : Block :=
  setDirent (setDirent zeroBlock 0 ino ftDir dotName) 1 parentIno ftDir dotDotName

/-- Zero blocks in the `n` blocks from `start` on. -/
def writeZeros (dev : BlockDev) (start : UInt64) : ℕ → DevEM Unit
  | 0 => pure ()
  | n + 1 => do
      bdevWrite dev start zeroBlock
      writeZeros dev (start + 1) n

/-- The device writes of `logfs_fs_format`, in order, the superblock last. -/
def writeImage (dev : BlockDev) (sb : Super) (now : UInt64) : DevEM Unit := do
  journalFormat dev sb.journalStart sb.journalLen
  bdevWrite dev sb.inodeBitmapStart (setBit (setBit zeroBlock 0) rootIno.toNat)
  bdevWrite dev sb.blockBitmapStart (setBit zeroBlock 0)
  writeZeros dev sb.inodeTableStart sb.inodeTableLen.toNat
  bdevWrite dev sb.inodeTableStart ((formatRoot sb now).encodeAt zeroBlock 0)
  bdevWrite dev sb.dataStart (initialDirBlock rootIno rootIno)
  writeSuper dev sb

/-- `host` is the outcome of creating the backing file, `now` the time. -/
def fsFormat (host : Except Errno Unit) (totalBlocks journalLen : UInt64) (defaultMode : DataMode)
    (now : UInt64) : DevEM Unit := do
  if totalBlocks < journalRegionStart + journalLen + 4 then throw .einval
  let dev ← liftM (n := DevEM) (bdevCreate host totalBlocks)
  let sb := formatSuper totalBlocks journalLen defaultMode
  if totalBlocks ≤ sb.dataStart then throw .enospc
  if maxBitmapUnits < totalBlocks - sb.dataStart then throw .efbig
  writeImage dev sb now

/-! ## Mount -/

/-- `recover_install` -/
def recoverInstall (dev : BlockDev) : (o : InstallOp) → DevM (InstallRes o)
  | .install targetBlock data => (bdevWrite dev targetBlock data).run

/-- The recovery of `logfs_fs_mount`: replay onto the home blocks, then a flush. -/
def mountRecover (j : Journal) : DevM (Except Errno Unit × Journal) := do
  match ← (journalRecover j).answer (recoverInstall j.dev) with
  | (.error e, j') => return (.error e, j')
  | (.ok (), j') =>
      match ← (bdevFlush j'.dev).run with
      | .error e => return (.error e, j')
      | .ok () => return (.ok (), j')

/-- `logfs_fs_mount` up to the creation of the transaction manager. -/
def fsMount (dev : BlockDev) : DevEM (Super × Journal) := do
  let block ← bdevRead dev superBlockno
  let sb := Super.decode block
  if sb.magic ≠ superMagic then throw .einval
  if sb.checksum ≠ superChecksum sb then throw .euclean
  if sb.totalBlocks ≠ dev.nblocks then throw .einval
  let j ← journalOpen dev sb.journalStart sb.journalLen
  match ← (liftM (mountRecover j) : DevEM (Except Errno Unit × Journal)) with
  | (.error e, _) => throw e
  | (.ok (), j') => return (sb, j')

end Logfs
