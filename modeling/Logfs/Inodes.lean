import Logfs.TxnCalls
import Logfs.Layout

/-!
# Inodes, bitmaps and directories

`inode.c`, function by function, as programs over the transaction manager.
-/
namespace Logfs
open Interaction ByteBuffer

def inodeRead (sb : Super) (ino : UInt32) : TxnEM Inode :=
  if ino = 0 ∨ sb.totalInodes < ino.toUInt64 then throw .einval
  else do
    let buf ← TxnEM.readBlock (inodeLocation sb ino).1
    return Inode.decodeAt buf (inodeLocation sb ino).2

def inodeWrite (sb : Super) (ino : UInt32) (inode : Inode) : TxnEM Unit :=
  if ino = 0 ∨ sb.totalInodes < ino.toUInt64 then throw .einval
  else do
    let buf ← TxnEM.getWriteAccess (inodeLocation sb ino).1
    TxnEM.modify (inodeLocation sb ino).1 (inode.encodeAt buf (inodeLocation sb ino).2)
    TxnEM.dirtyMetadata (inodeLocation sb ino).1

/-! ## Bitmaps -/

def allocInode (sb : Super) : TxnEM UInt32 := do
  let bitmap ← TxnEM.getWriteAccess sb.inodeBitmapStart
  match (inodeBits sb).find? fun i => !testBit bitmap i with
  | some i => do
      TxnEM.modify sb.inodeBitmapStart (setBit bitmap i)
      TxnEM.dirtyMetadata sb.inodeBitmapStart
      return UInt32.ofNat i
  | none => throw .enospc

def freeInode (sb : Super) (ino : UInt32) : TxnEM Unit :=
  if ino = 0 ∨ sb.totalInodes < ino.toUInt64 then throw .einval
  else do
    let bitmap ← TxnEM.getWriteAccess sb.inodeBitmapStart
    TxnEM.modify sb.inodeBitmapStart (clearBit bitmap ino.toNat)
    TxnEM.dirtyMetadata sb.inodeBitmapStart

def allocBlock (sb : Super) : TxnEM UInt64 := do
  let bitmap ← TxnEM.getWriteAccess sb.blockBitmapStart
  match (blockBits sb).find? fun i => !testBit bitmap i with
  | some i => do
      TxnEM.modify sb.blockBitmapStart (setBit bitmap i)
      TxnEM.dirtyMetadata sb.blockBitmapStart
      return sb.dataStart + UInt64.ofNat i
  | none => throw .enospc

def freeBlock (sb : Super) (blockno : UInt64) : TxnEM Unit :=
  if blockno < sb.dataStart ∨ sb.totalBlocks ≤ blockno then throw .einval
  else do
    let bitmap ← TxnEM.getWriteAccess sb.blockBitmapStart
    TxnEM.modify sb.blockBitmapStart (clearBit bitmap (blockno - sb.dataStart).toNat)
    TxnEM.dirtyMetadata sb.blockBitmapStart

/-! ## Directories -/

def isDir (mode : UInt32) : Bool := mode &&& 0xF000 == modeDir

def isReg (mode : UInt32) : Bool := mode &&& 0xF000 == modeReg

/-- `struct logfs_dirent`; the array `name` has room for a terminator. -/
structure Dirent where
  ino : UInt32
  nameLen : UInt8
  fileType : UInt8
  name : List UInt8
  deriving DecidableEq

def direntAt (ents : Block) (e : ℕ) : Dirent where
  ino := load UInt32 ents (64 * e)
  nameLen := byteAt ents (64 * e + 4)
  fileType := byteAt ents (64 * e + 5)
  name := slice ents (64 * e + 8) (nameMax + 1)

def Dirent.isNamed (name : List UInt8) (d : Dirent) : Bool :=
  d.ino != 0 && d.nameLen.toNat == name.length && d.name.take name.length == name

/-- The slot is occupied by an entry other than `.` and `..`. -/
def Dirent.isProper (d : Dirent) : Bool :=
  d.ino != 0 && !(d.nameLen == 1 && d.name[0]? == some 0x2E) &&
    !(d.nameLen == 2 && d.name[0]? == some 0x2E && d.name[1]? == some 0x2E)

def findInBlock (p : Dirent → Bool) (ents : Block) : Option ℕ :=
  (List.range direntsPerBlock).find? fun e => p (direntAt ents e)

/-- The search of `logfs_dir_lookup`, `logfs_dir_remove` and `logfs_dir_is_empty`: the first slot
with the property in the blocks before the first zero block number. -/
def findEntry (p : Dirent → Bool) : List UInt64 → TxnEM (Option (UInt64 × ℕ × Dirent))
  | [] => return none
  | b :: bs =>
      if b = 0 then return none
      else do
        let buf ← TxnEM.readBlock b
        match findInBlock p buf with
        | some e => return some (b, e, direntAt buf e)
        | none => findEntry p bs

/-- `logfs_dir_lookup`: the entry's inode number and file type. -/
def dirLookup (sb : Super) (dirIno : UInt32) (name : List UInt8) : TxnEM (UInt32 × UInt8) := do
  let dir ← inodeRead sb dirIno
  if !isDir dir.mode then throw .enotdir
  else if name.length = 0 ∨ nameMax < name.length then throw .enametoolong
  else do
    match ← findEntry (Dirent.isNamed name) (List.ofFn dir.blocks) with
    | some (_, _, ent) => return (ent.ino, ent.fileType)
    | none => throw .enoent

/-- A slot in use again: its name is cleared before the new one is copied in. -/
def reuseDirent (ents : Block) (e : ℕ) (ino : UInt32) (fileType : UInt8) (name : List UInt8) : Block :=
  setDirent (splice ents (64 * e + 8) (List.replicate (nameMax + 1) 0)) e ino fileType name

def dirAddLoop (sb : Super) (dirIno : UInt32) (dir : Inode) (name : List UInt8) (ino : UInt32)
    (type : UInt8) : List (Fin ndirBlocks) → TxnEM Unit
  | [] => throw .enospc
  | b :: bs =>
      if dir.blocks b = 0 then do
        let blockno ← allocBlock sb
        let _ ← TxnEM.getWriteAccess blockno
        TxnEM.modify blockno (setDirent zeroBlock 0 ino type name)
        TxnEM.dirtyMetadata blockno
        inodeWrite sb dirIno
          { dir with blocks := Function.update dir.blocks b blockno, size := dir.size + 4096 }
      else do
        let rbuf ← TxnEM.readBlock (dir.blocks b)
        match findInBlock (fun d => d.ino == 0) rbuf with
        | none => dirAddLoop sb dirIno dir name ino type bs
        | some e => do
            let wbuf ← TxnEM.getWriteAccess (dir.blocks b)
            TxnEM.modify (dir.blocks b) (reuseDirent wbuf e ino type name)
            TxnEM.dirtyMetadata (dir.blocks b)

def dirAdd (sb : Super) (dirIno : UInt32) (name : List UInt8) (ino : UInt32) (type : UInt8) :
    TxnEM Unit := do
  let dir ← inodeRead sb dirIno
  if !isDir dir.mode then throw .enotdir
  else if name.length = 0 ∨ nameMax < name.length then throw .enametoolong
  else do
    match ← (dirLookup sb dirIno name).result with
    | .ok _ => throw .eexist
    | .error _ => dirAddLoop sb dirIno dir name ino type (List.finRange ndirBlocks)

/-- `logfs_dir_remove`: only the slot's inode number is cleared. -/
def dirRemove (sb : Super) (dirIno : UInt32) (name : List UInt8) : TxnEM Unit := do
  let dir ← inodeRead sb dirIno
  if !isDir dir.mode then throw .enotdir
  else do
    match ← findEntry (Dirent.isNamed name) (List.ofFn dir.blocks) with
    | some (blockno, e, _) => do
        let wbuf ← TxnEM.getWriteAccess blockno
        TxnEM.modify blockno (store wbuf (64 * e) (0 : UInt32))
        TxnEM.dirtyMetadata blockno
    | none => throw .enoent

def dirIsEmpty (sb : Super) (dirIno : UInt32) : TxnEM Bool := do
  let dir ← inodeRead sb dirIno
  if !isDir dir.mode then throw .enotdir
  else do
    let ent ← findEntry Dirent.isProper (List.ofFn dir.blocks)
    return ent.isNone

def slash : UInt8 := 0x2F

/-- The components of a path, without the empty ones between adjacent slashes. -/
def components (path : List UInt8) : List (List UInt8) :=
  (path.splitOn slash).filter fun comp => !comp.isEmpty

def walk (sb : Super) (cur : UInt32) : List (List UInt8) → TxnEM UInt32
  | [] => return cur
  | comp :: rest =>
      if nameMax < comp.length then throw .enametoolong
      else do
        let next ← dirLookup sb cur comp
        walk sb next.1 rest

def pathLookup (sb : Super) (path : List UInt8) : TxnEM UInt32 :=
  if path.head? ≠ some slash then throw .einval else walk sb sb.rootIno (components path)

end Logfs
