import Logfs.Journal

/-!
# The transaction manager

`txn.c`: the staging table of the running generation, the list of transactions
that are committed but not yet home, and the sections of code that run with
`mgr->lock` held, each a function of the manager.
-/
namespace Logfs
open Interaction WriteCache

/-- `LOGFS_TXN_HASH_BUCKETS` -/
def txnHashBuckets : ℕ := 61

/-- `LOGFS_CKPT_LAG` -/
def ckptLag : ℕ := 2

structure DirtyBlock where
  blockno : UInt64
  data : Block

structure CommittedTxn where
  sequence : UInt64
  descOffset : UInt64
  nodes : List DirtyBlock

structure TxnMgr where
  dev : BlockDev
  mode : DataMode
  freezing : Bool
  runningHandles : ℕ
  commitRequested : Bool
  shutdown : Bool
  generationSeq : UInt64
  completedThrough : UInt64
  /-- The staging table, each bucket from its head on. -/
  buckets : Fin txnHashBuckets → List DirtyBlock
  ndirty : ℕ
  orderedBlocks : List UInt64
  /-- The checkpoint list, oldest first. -/
  ckpt : List CommittedTxn
  /-- The writeback queue, oldest first. -/
  wb : List DirtyBlock

/-- The manager `logfs_txnmgr_create` starts with. -/
def txnMgrCreate (j : Journal) (dev : BlockDev) (mode : DataMode) : TxnMgr where
  dev := dev
  mode := mode
  freezing := false
  runningHandles := 0
  commitRequested := false
  shutdown := false
  generationSeq := j.nextSequence
  completedThrough := 0
  buckets := fun _ => []
  ndirty := 0
  orderedBlocks := []
  ckpt := []
  wb := []

/-! ## Staging table -/

def hashBlock (blockno : UInt64) : Fin txnHashBuckets :=
  ⟨blockno.toNat % txnHashBuckets, Nat.mod_lt _ (by decide)⟩

def findDirty (mgr : TxnMgr) (blockno : UInt64) : Option DirtyBlock :=
  (mgr.buckets (hashBlock blockno)).find? fun d => d.blockno == blockno

/-- The last match wins, so a newer transaction's copy hides an older one's. -/
def findCheckpointed (mgr : TxnMgr) (blockno : UInt64) : Option DirtyBlock :=
  mgr.ckpt.foldl (fun found t =>
    t.nodes.foldl (fun found d => if d.blockno = blockno then some d else found) found) none

/-- `d` becomes the head of its bucket. -/
def insertDirty (mgr : TxnMgr) (d : DirtyBlock) : TxnMgr :=
  { mgr with
    buckets := Function.update mgr.buckets (hashBlock d.blockno)
      (d :: mgr.buckets (hashBlock d.blockno))
    ndirty := mgr.ndirty + 1 }

def findOrCreateDirty (mgr : TxnMgr) (blockno : UInt64) : DevM (Option DirtyBlock × TxnMgr) :=
  match findDirty mgr blockno with
  | some d => return (some d, mgr)
  | none =>
    match findCheckpointed mgr blockno with
    | some c =>
        let d : DirtyBlock := ⟨blockno, c.data⟩
        return (some d, insertDirty mgr d)
    | none => do
        match ← (bdevRead mgr.dev blockno).run with
        | .error _ => return (none, mgr)
        | .ok data =>
            let d : DirtyBlock := ⟨blockno, data⟩
            return (some d, insertDirty mgr d)

/-- The nodes of the table in the order `flatten_and_clear` collects them. -/
def stagedNodes (mgr : TxnMgr) : List DirtyBlock :=
  (List.finRange txnHashBuckets).flatMap mgr.buckets

def flattenAndClear (mgr : TxnMgr) (count : ℕ) : List DirtyBlock × TxnMgr :=
  if count = 0 then ([], mgr) else (stagedNodes mgr, { mgr with buckets := fun _ => [] })

/-! ## Handles -/

structure Handle where
  txnId : UInt64

/-- `none` while the caller has to wait for the freeze to end. -/
def txnStart (mgr : TxnMgr) : Option (Handle × TxnMgr) :=
  if mgr.freezing then none
  else some (⟨mgr.generationSeq⟩, { mgr with runningHandles := mgr.runningHandles + 1 })

/-- The assertion at the head of `logfs_txn_get_write_access`. -/
def tagMatches (h : Handle) (mgr : TxnMgr) : Bool := h.txnId == mgr.generationSeq

/-- The rest of `logfs_txn_get_write_access`; the answer is the buffer's content. -/
def getWriteAccess (mgr : TxnMgr) (blockno : UInt64) : DevM (Except Errno Block × TxnMgr) := do
  match ← findOrCreateDirty mgr blockno with
  | (none, mgr) => return (.error .enomem, mgr)
  | (some d, mgr) => return (.ok d.data, mgr)

/-- The caller's store through the buffer it was given for `blockno`. -/
def writeBuffer (mgr : TxnMgr) (blockno : UInt64) (data : Block) : TxnMgr :=
  { mgr with
    buckets := Function.update mgr.buckets (hashBlock blockno)
      ((mgr.buckets (hashBlock blockno)).map fun d =>
        if d.blockno = blockno then { d with data } else d) }

def dirtyMetadata (mgr : TxnMgr) (blockno : UInt64) : DevM (Except Errno Unit × TxnMgr) := do
  match ← findOrCreateDirty mgr blockno with
  | (none, mgr) => return (.error .enomem, mgr)
  | (some _, mgr) => return (.ok (), mgr)

def txnWriteData (mgr : TxnMgr) (blockno : UInt64) (buf : Block) :
    DevM (Except Errno Unit × TxnMgr) :=
  match mgr.mode with
  | .journal => do
      match ← getWriteAccess mgr blockno with
      | (.error e, mgr) => return (.error e, mgr)
      | (.ok _, mgr) => dirtyMetadata (writeBuffer mgr blockno buf) blockno
  | .ordered => do
      match ← (bdevWrite mgr.dev blockno buf).run with
      | .error e => return (.error e, mgr)
      | .ok () => return (.ok (), { mgr with orderedBlocks := mgr.orderedBlocks ++ [blockno] })
  | .writeback => return (.ok (), { mgr with wb := mgr.wb ++ [⟨blockno, buf⟩] })

def txnStop (mgr : TxnMgr) : TxnMgr := { mgr with runningHandles := mgr.runningHandles - 1 }

def txnReadBlock (mgr : TxnMgr) (blockno : UInt64) : DevEM Block :=
  match (findDirty mgr blockno).or (findCheckpointed mgr blockno) with
  | some d => pure d.data
  | none => bdevRead mgr.dev blockno

/-- `logfs_txn_commit_sync` up to its wait; the answer is the target. -/
def commitSyncRequest (mgr : TxnMgr) : UInt64 × TxnMgr :=
  (mgr.generationSeq, { mgr with commitRequested := true })

/-- The negation of the wait's condition. -/
def commitSyncDone (mgr : TxnMgr) (target : UInt64) : Bool :=
  !(decide (mgr.completedThrough < target) && !mgr.shutdown)

/-! ## Sections of the commit thread -/

/-- The loop has nothing to do and goes back to its timed wait. -/
def cycleIdle (mgr : TxnMgr) : Bool := mgr.ndirty == 0 && !mgr.commitRequested

/-- From the end of the wait for running handles to the unlock: the generation's nodes
and whether it wrote ordered data. -/
def takeGeneration (mgr : TxnMgr) : (List DirtyBlock × Bool) × TxnMgr :=
  let nodes := (flattenAndClear mgr mgr.ndirty).1
  let flat := (flattenAndClear mgr mgr.ndirty).2
  ((nodes, mgr.mode == .ordered && decide (0 < mgr.orderedBlocks.length)),
    { flat with ndirty := 0, orderedBlocks := [], commitRequested := false, freezing := false })

/-- The section of `commit_thread_main` that ends a cycle without nodes. -/
def finishEmptyCycle (mgr : TxnMgr) : TxnMgr := { mgr with completedThrough := mgr.generationSeq }

/-- The section that ends `do_commit`, after `logfs_journal_commit` returned `rc`. -/
def finishCommit (mgr : TxnMgr) (j : Journal) (nodes : List DirtyBlock)
    (rc : Except Errno (UInt64 × UInt64)) : TxnMgr :=
  { mgr with
    ckpt := match rc with
      | .ok (sequence, descOffset) => mgr.ckpt ++ [{ sequence, descOffset, nodes }]
      | .error _ => mgr.ckpt
    completedThrough := mgr.generationSeq
    generationSeq := j.nextSequence }

/-- The first section of `checkpoint_oldest`. -/
def unlinkOldest (mgr : TxnMgr) : Option (CommittedTxn × TxnMgr) :=
  match mgr.ckpt with
  | [] => none
  | t :: ts => some (t, { mgr with ckpt := ts })

/-- The second section of `checkpoint_oldest`: the new tail's offset and sequence number. -/
def newTail (mgr : TxnMgr) (j : Journal) : UInt64 × UInt64 :=
  match mgr.ckpt with
  | next :: _ => (next.descOffset, next.sequence)
  | [] => (j.head, j.nextSequence)

/-- What `do_commit` hands to `logfs_journal_commit`. -/
def pendingBlocks (nodes : List DirtyBlock) : List PendingBlock :=
  nodes.map fun d => ⟨d.blockno, d.data⟩

/-- `logfs_txnmgr_destroy` up to its wait for the commit thread. -/
def requestShutdown (mgr : TxnMgr) : TxnMgr := { mgr with shutdown := true }

end Logfs
