import Logfs.Inodes

/-!
# The FUSE operations

`fs_ops.c`: the six operations that change the file system, and the three that read it. A path is the
bytes before its terminator, `now` the time. Offsets and sizes are natural numbers: `off_t` is
signed, and no sum of an offset and a size the kernel passes wraps.
-/
namespace Logfs
open Interaction ByteBuffer

def pathMax : ℕ := 4096

def maxFileSize : ℕ := ndirBlocks * blockSize

/-- `split_parent`: the parent's path and the last component. -/
def splitParent (path : List UInt8) : Except Errno (List UInt8 × List UInt8) :=
  let name := path.rtakeWhile fun c => c != slash
  if name.length = path.length then .error .einval
  else
    let plen := path.length - name.length - 1
    if plen ≠ 0 ∧ pathMax < plen + 1 then .error .enametoolong
    else if name = [] then .error .einval
    else if nameMax < name.length then .error .enametoolong
    else .ok (if plen = 0 then [slash] else path.take plen, name)

def truncateLoop (sb : Super) (inode : Inode) : List (Fin ndirBlocks) → TxnEM Inode
  | [] => return inode
  | b :: bs =>
      if inode.blocks b = 0 then truncateLoop sb inode bs
      else do
        freeBlock sb (inode.blocks b)
        truncateLoop sb { inode with blocks := Function.update inode.blocks b 0 } bs

/-- `truncate_blocks`: the blocks from index `keepBlocks` on are freed. -/
def truncateBlocks (sb : Super) (inode : Inode) (keepBlocks : ℕ) : TxnEM Inode :=
  truncateLoop sb inode ((List.finRange ndirBlocks).filter fun b => keepBlocks ≤ b.val)

/-! ## Directories -/

def newDirInode (mode : UInt32) (now dataBlock : UInt64) : Inode where
  mode := modeDir ||| (mode &&& 0x1FF)
  nlink := 2
  uid := 0
  gid := 0
  size := 4096
  atime := now
  mtime := now
  ctime := now
  blocks := fun k => if k.val = 0 then dataBlock else 0

def mkdirAt (sb : Super) (parent name : List UInt8) (mode : UInt32) (now : UInt64) : TxnEM Unit := do
  let parentIno ← pathLookup sb parent
  TxnEM.withHandle do
    let newIno ← allocInode sb
    let dataBlock ← allocBlock sb
    let _ ← TxnEM.getWriteAccess dataBlock
    TxnEM.modify dataBlock (initialDirBlock newIno parentIno)
    TxnEM.dirtyMetadata dataBlock
    inodeWrite sb newIno (newDirInode mode now dataBlock)
    dirAdd sb parentIno name newIno ftDir
    let pdir ← inodeRead sb parentIno
    inodeWrite sb parentIno { pdir with nlink := pdir.nlink + 1, mtime := now }

def opMkdir (sb : Super) (path : List UInt8) (mode : UInt32) (now : UInt64) : TxnEM Unit :=
  match splitParent path with
  | .error e => throw e
  | .ok (parent, name) => mkdirAt sb parent name mode now

def rmdirAt (sb : Super) (parent name : List UInt8) (now : UInt64) : TxnEM Unit := do
  let parentIno ← pathLookup sb parent
  let found ← dirLookup sb parentIno name
  if found.2 ≠ ftDir then throw .enotdir
  else do
    let empty ← dirIsEmpty sb found.1
    if !empty then throw .enotempty
    else TxnEM.withHandle do
      let target ← inodeRead sb found.1
      let _ ← truncateBlocks sb target 0
      freeInode sb found.1
      dirRemove sb parentIno name
      let pdir ← inodeRead sb parentIno
      inodeWrite sb parentIno { pdir with nlink := pdir.nlink - 1, mtime := now }

def opRmdir (sb : Super) (path : List UInt8) (now : UInt64) : TxnEM Unit :=
  match splitParent path with
  | .error e => throw e
  | .ok (parent, name) => rmdirAt sb parent name now

/-! ## Files -/

def newFileInode (mode : UInt32) (now : UInt64) : Inode where
  mode := modeReg ||| (mode &&& 0x1FF)
  nlink := 1
  uid := 0
  gid := 0
  size := 0
  atime := now
  mtime := now
  ctime := now
  blocks := fun _ => 0

/-- `logfs_op_create` after the path was split; the answer becomes the file handle. -/
def createAt (sb : Super) (parent name : List UInt8) (mode : UInt32) (now : UInt64) : TxnEM UInt32 := do
  let parentIno ← pathLookup sb parent
  TxnEM.withHandle do
    let newIno ← allocInode sb
    inodeWrite sb newIno (newFileInode mode now)
    dirAdd sb parentIno name newIno ftReg
    return newIno

def opCreate (sb : Super) (path : List UInt8) (mode : UInt32) (now : UInt64) : TxnEM UInt32 :=
  match splitParent path with
  | .error e => throw e
  | .ok (parent, name) => createAt sb parent name mode now

def unlinkAt (sb : Super) (parent name : List UInt8) : TxnEM Unit := do
  let parentIno ← pathLookup sb parent
  let found ← dirLookup sb parentIno name
  TxnEM.withHandle do
    let target ← inodeRead sb found.1
    dirRemove sb parentIno name
    if target.nlink - 1 = 0 then do
      let _ ← truncateBlocks sb { target with nlink := target.nlink - 1 } 0
      freeInode sb found.1
    else inodeWrite sb found.1 { target with nlink := target.nlink - 1 }

def opUnlink (sb : Super) (path : List UInt8) : TxnEM Unit :=
  match splitParent path with
  | .error e => throw e
  | .ok (parent, name) => unlinkAt sb parent name

/-- Entry `b` of an inode's block array, which has no entries from `ndirBlocks` on. -/
def blockAt (inode : Inode) (b : ℕ) : UInt64 := if h : b < ndirBlocks then inode.blocks ⟨b, h⟩ else 0

def setBlockAt (inode : Inode) (b : ℕ) (blockno : UInt64) : Inode :=
  { inode with blocks := fun k => if k.val = b then blockno else inode.blocks k }

/-- `pos` of a file lies at `pos % blockSize` of its block; the chunk ends with the block or
with the buffer, of which `rest` bytes are left. -/
def chunkAt (pos rest : ℕ) : ℕ := min (blockSize - pos % blockSize) rest

def ensureBlock (sb : Super) (inode : Inode) (b : ℕ) : TxnEM Inode :=
  if blockAt inode b = 0 then do
    let nb ← allocBlock sb
    return setBlockAt inode b nb
  else return inode

/-- What the buffer `block` holds before a chunk is copied in: the block's content, unless the
chunk is the whole block. -/
def chunkBase (blockno : UInt64) (pos size : ℕ) : TxnEM Block :=
  if pos % blockSize ≠ 0 ∨ size ≠ blockSize then TxnEM.readBlock blockno else return zeroBlock

/-- One round of the loop of `logfs_op_write`: `bytes` go to position `pos` of the file, all of
them in one block. -/
def writeChunk (sb : Super) (inode : Inode) (pos : ℕ) (bytes : List UInt8) : TxnEM Inode := do
  let inode ← ensureBlock sb inode (pos / blockSize)
  let block ← chunkBase (blockAt inode (pos / blockSize)) pos bytes.length
  TxnEM.writeData (blockAt inode (pos / blockSize)) (splice block (pos % blockSize) bytes)
  return inode

/-- The loop of `logfs_op_write`, with `buf` still to be written from `pos` on. Each round takes
at least one byte, so as many rounds as bytes are enough. -/
def writeLoop (sb : Super) : ℕ → Inode → ℕ → List UInt8 → TxnEM Inode
  | 0, inode, _, _ => return inode
  | rounds + 1, inode, pos, buf =>
      if buf = [] then return inode
      else do
        let inode ← writeChunk sb inode pos (buf.take (chunkAt pos buf.length))
        writeLoop sb rounds inode (pos + chunkAt pos buf.length) (buf.drop (chunkAt pos buf.length))

def grownSize (inode : Inode) (last : ℕ) : UInt64 :=
  if inode.size.toNat < last then UInt64.ofNat last else inode.size

/-- `logfs_op_write`; it returns the number of bytes written. -/
def opWrite (sb : Super) (ino : UInt32) (buf : List UInt8) (offset : ℕ) (now : UInt64) : TxnEM ℕ :=
  if maxFileSize < offset + buf.length then throw .efbig
  else TxnEM.withHandle do
    let inode ← inodeRead sb ino
    let inode ← writeLoop sb buf.length inode offset buf
    inodeWrite sb ino { inode with size := grownSize inode (offset + buf.length), mtime := now }
    return buf.length

def shrinkTo (sb : Super) (inode : Inode) (size : ℕ) : TxnEM Inode :=
  if size < inode.size.toNat then truncateBlocks sb inode ((size + blockSize - 1) / blockSize)
  else return inode

def truncateAt (sb : Super) (ino : UInt32) (size : ℕ) (now : UInt64) : TxnEM Unit :=
  TxnEM.withHandle do
    let inode ← inodeRead sb ino
    let inode ← shrinkTo sb inode size
    inodeWrite sb ino { inode with size := UInt64.ofNat size, mtime := now }

/-- `fh` is the inode number of an open file, without which the path is looked up. -/
def fileTarget (sb : Super) (path : List UInt8) : Option UInt32 → TxnEM UInt32
  | some ino => return ino
  | none => pathLookup sb path

def opTruncate (sb : Super) (path : List UInt8) (fh : Option UInt32) (size : ℕ) (now : UInt64) :
    TxnEM Unit :=
  if maxFileSize < size then throw .efbig
  else do
    let ino ← fileTarget sb path fh
    truncateAt sb ino size now

/-- One round of the loop of `logfs_op_read`; a hole reads as zero bytes. -/
def readChunk (inode : Inode) (pos size : ℕ) : TxnEM (List UInt8) :=
  if blockAt inode (pos / blockSize) = 0 then return List.replicate size 0
  else do
    let block ← TxnEM.readBlock (blockAt inode (pos / blockSize))
    return slice block (pos % blockSize) size

def readLoop (inode : Inode) : ℕ → ℕ → ℕ → TxnEM (List UInt8)
  | 0, _, _ => return []
  | rounds + 1, pos, size =>
      if size = 0 then return []
      else do
        let bytes ← readChunk inode pos (chunkAt pos size)
        let rest ← readLoop inode rounds (pos + chunkAt pos size) (size - chunkAt pos size)
        return bytes ++ rest

/-- `logfs_op_read`: the bytes it copies into the caller's buffer. -/
def opRead (sb : Super) (ino : UInt32) (size offset : ℕ) : TxnEM (List UInt8) := do
  let inode ← inodeRead sb ino
  if inode.size.toNat ≤ offset then return []
  else
    let size := min size (inode.size.toNat - offset)
    readLoop inode size offset size

/-! ## Attributes and listings -/

/-- `struct stat`, as far as `inode_to_stat` fills it in. -/
structure Stat where
  ino : UInt32
  mode : UInt32
  nlink : UInt32
  uid : UInt32
  gid : UInt32
  size : UInt64
  blocks : UInt64
  atime : UInt64
  mtime : UInt64
  ctime : UInt64
  deriving DecidableEq

def inodeToStat (ino : UInt32) (inode : Inode) : Stat where
  ino := ino
  mode := inode.mode
  nlink := inode.nlink
  uid := inode.uid
  gid := inode.gid
  size := inode.size
  blocks := (inode.size + 511) / 512
  atime := inode.atime
  mtime := inode.mtime
  ctime := inode.ctime

def opGetattr (sb : Super) (path : List UInt8) : TxnEM Stat := do
  let ino ← pathLookup sb path
  let inode ← inodeRead sb ino
  return inodeToStat ino inode

/-- The names `logfs_op_readdir` passes to the filler for one block, each as far as its first
zero byte. -/
def namesIn (ents : Block) : List (List UInt8) :=
  (((List.range direntsPerBlock).map fun e => direntAt ents e).filter fun d => d.ino != 0).map
    fun d => (d.name.take d.nameLen.toNat).takeWhile fun c => c != 0

def readdirLoop : List UInt64 → TxnEM (List (List UInt8))
  | [] => return []
  | b :: bs =>
      if b = 0 then return []
      else do
        let block ← TxnEM.readBlock b
        let rest ← readdirLoop bs
        return namesIn block ++ rest

/-- `logfs_op_readdir` with a filler whose buffer does not fill up. -/
def opReaddir (sb : Super) (path : List UInt8) : TxnEM (List (List UInt8)) := do
  let dirIno ← pathLookup sb path
  let dir ← inodeRead sb dirIno
  if !isDir dir.mode then throw .enotdir
  else readdirLoop (List.ofFn dir.blocks)

/-! ## Calls -/

inductive FsOp
  | mkdir (path : List UInt8) (mode : UInt32)
  | rmdir (path : List UInt8)
  | create (path : List UInt8) (mode : UInt32)
  | write (fh : UInt32) (buf : List UInt8) (offset : ℕ)
  | truncate (path : List UInt8) (fh : Option UInt32) (size : ℕ)
  | unlink (path : List UInt8)
  deriving DecidableEq

def FsOp.program (sb : Super) (now : UInt64) : FsOp → TxnEM Unit
  | .mkdir path mode => opMkdir sb path mode now
  | .rmdir path => opRmdir sb path now
  | .create path mode => do
      let _ ← opCreate sb path mode now
      return ()
  | .write fh buf offset => do
      let _ ← opWrite sb fh buf offset now
      return ()
  | .truncate path fh size => opTruncate sb path fh size now
  | .unlink path => opUnlink sb path

end Logfs
