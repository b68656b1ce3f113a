import Logfs.BlockDev

/-!
# Programs over the transaction manager

The file system reaches the disk only through `txn.h`. Its functions are programs over
these calls. What the calls answer is left to a handler; the first one is the logical
block view, in which each read sees the content last staged.
-/
namespace Logfs
open Interaction ByteBuffer

inductive TxnCall
  | start
  | stop
  | readBlock (blockno : UInt64)
  | getWriteAccess (blockno : UInt64)
  /-- The caller's stores through the buffer it was given, which then holds `data`. -/
  | modify (blockno : UInt64) (data : Block)
  | dirtyMetadata (blockno : UInt64)
  | writeData (blockno : UInt64) (buf : Block)

@[reducible] def TxnRes : TxnCall → Type
  | .start | .stop | .modify _ _ => Unit
  | .readBlock _ | .getWriteAccess _ => Except Errno Block
  | .dirtyMetadata _ | .writeData _ _ => Except Errno Unit

abbrev TxnM := Prog TxnRes

abbrev TxnEM := ExceptT Errno TxnM

namespace TxnEM
variable {α : Type}

def readBlock (blockno : UInt64) : TxnEM Block := ExceptT.mk (.op (.readBlock blockno) .ret)

def getWriteAccess (blockno : UInt64) : TxnEM Block :=
  ExceptT.mk (.op (.getWriteAccess blockno) .ret)

def modify (blockno : UInt64) (data : Block) : TxnEM Unit :=
  ExceptT.mk (.op (.modify blockno data) fun _ => .ret (.ok ()))

def dirtyMetadata (blockno : UInt64) : TxnEM Unit :=
  ExceptT.mk (.op (.dirtyMetadata blockno) .ret)

def writeData (blockno : UInt64) (buf : Block) : TxnEM Unit :=
  ExceptT.mk (.op (.writeData blockno buf) .ret)

/-- The caller keeps the error number instead of returning it. -/
def result (p : TxnEM α) : TxnEM (Except Errno α) := ExceptT.mk (p.run >>= fun r => .ret (.ok r))

/-- Between `logfs_txn_start` and `logfs_txn_stop`, which also follows an error. -/
def withHandle (p : TxnEM α) : TxnEM α :=
  ExceptT.mk (.op .start fun _ => p.run >>= fun r => .op .stop fun _ => .ret r)

end TxnEM

/-! ## The logical block view -/

/-- Calls on a view of `nblocks` blocks. A data write leaves `content old new` to be read. -/
def viewTxn (nblocks : UInt64) (content : Block → Block → Block) : Handler TxnRes Image
  | .start, v => ((), v)
  | .stop, v => ((), v)
  | .readBlock b, v => (if b < nblocks then .ok (v b) else .error .einval, v)
  | .getWriteAccess b, v => (if b < nblocks then .ok (v b) else .error .enomem, v)
  | .modify b data, v => ((), Function.update v b data)
  | .dirtyMetadata b, v => (if b < nblocks then .ok () else .error .enomem, v)
  | .writeData b buf, v =>
      if b < nblocks then (.ok (), Function.update v b (content (v b) buf)) else (.error .einval, v)

/-- The content last written is read. -/
def latest (_old new : Block) : Block := new

section View
variable {nblocks : UInt64} {content : Block → Block → Block} {α : Type} {b : UInt64} (v : Image)

theorem run_readBlock (h : b < nblocks) :
    run (viewTxn nblocks content) (TxnEM.readBlock b).run v = (.ok (v b), v) := by
  change (_, _) = _
  simp [viewTxn, h]

theorem run_getWriteAccess_view (h : b < nblocks) :
    run (viewTxn nblocks content) (TxnEM.getWriteAccess b).run v = (.ok (v b), v) := by
  change (_, _) = _
  simp [viewTxn, h]

theorem run_modify (data : Block) :
    run (viewTxn nblocks content) (TxnEM.modify b data).run v =
      (.ok (), Function.update v b data) := rfl

theorem run_dirtyMetadata_view (h : b < nblocks) :
    run (viewTxn nblocks content) (TxnEM.dirtyMetadata b).run v = (.ok (), v) := by
  change (_, _) = _
  simp [viewTxn, h]

theorem run_writeData (h : b < nblocks) (buf : Block) :
    run (viewTxn nblocks content) (TxnEM.writeData b buf).run v =
      (.ok (), Function.update v b (content (v b) buf)) := by
  change (_, _) = _
  simp [viewTxn, h]

theorem run_result (p : TxnEM α) :
    run (viewTxn nblocks content) p.result.run v =
      (.ok (run (viewTxn nblocks content) p.run v).1, (run (viewTxn nblocks content) p.run v).2) := by
  change run _ (p.run >>= fun r => .ret (Except.ok r)) v = _
  rw [run_bind]
  rfl

/-- Beginning and ending a handle leaves the view alone. -/
theorem run_withHandle (p : TxnEM α) :
    run (viewTxn nblocks content) p.withHandle.run v = run (viewTxn nblocks content) p.run v := by
  change run _ (p.run >>= fun r => .op .stop fun _ => .ret r) v = _
  rw [run_bind]
  rfl

end View

/-- What staging a new content of a block does to the view. -/
theorem run_stage {nblocks : UInt64} {content : Block → Block → Block} {b : UInt64} (v : Image)
    (h : b < nblocks) (data : Block) :
    run (viewTxn nblocks content) (do TxnEM.modify b data; TxnEM.dirtyMetadata b : TxnEM Unit).run v =
      (.ok (), Function.update v b data) := by
  rw [run_exceptT_bind, run_modify]
  exact run_dirtyMetadata_view _ h

end Logfs
