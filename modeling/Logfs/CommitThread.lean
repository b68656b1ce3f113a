import Logfs.Txn
import Logfs.Lib.Transition

/-!
# The commit thread and its callers

`commit_thread_main` with the functions it calls, cut before each section that takes
`mgr->lock` and before each device operation; then the threads that hold handles or
wait in `logfs_txn_commit_sync`, interleaved with it in any order.
-/
namespace Logfs
open Interaction WriteCache

/-! ## The thread -/

inductive Caller
  | reclaim (nodes : List DirtyBlock)
  | lag
  | drain

/-- Where the thread is, with its local variables. It alone uses the journal, which is
therefore one of them. -/
inductive Pc
  | top (j : Journal)
  | frozen (j : Journal)
  | orderedFlush (j : Journal) (nodes : List DirtyBlock)
  | emptyCycle (j : Journal)
  | reclaim (j : Journal) (nodes : List DirtyBlock)
  | unlink (j : Journal) (caller : Caller)
  /-- `checkpoint_oldest`, with `rest` still to be written home, then flushed. -/
  | writeHome (j : Journal) (t : CommittedTxn) (rest : List DirtyBlock) (caller : Caller)
  | nextTail (j : Journal) (t : CommittedTxn) (caller : Caller)
  | advance (p : DevM (Except Errno Unit × Journal)) (t : CommittedTxn) (caller : Caller)
  | commit (p : DevM (Except Errno (UInt64 × UInt64) × Journal)) (nodes : List DirtyBlock)
  | link (j : Journal) (nodes : List DirtyBlock) (rc : Except Errno (UInt64 × UInt64))
  | lag (j : Journal)
  | exited (j : Journal)

structure Core where
  mgr : TxnMgr
  disk : Disk
  pc : Pc

/-- `checkpoint_oldest` returns; `done` says whether it returned 1. -/
def resume (j : Journal) (done : Bool) : Caller → Pc
  | .reclaim nodes =>
      if done then .reclaim j nodes else .commit (journalCommit j (pendingBlocks nodes) []) nodes
  | .lag => if done then .lag j else .top j
  | .drain => if done then .unlink j .drain else .exited j

def afterFreeze (j : Journal) (nodes : List DirtyBlock) : Pc :=
  if 0 < nodes.length then .reclaim j nodes else .emptyCycle j

def endFreeze (c : Core) (j : Journal) : Core :=
  let taken := takeGeneration c.mgr
  { c with
    mgr := taken.2
    pc := if taken.1.2 then .orderedFlush j taken.1.1 else afterFreeze j taken.1.1 }

/-- The wait releases the lock only when there is a handle to wait for. -/
def beginFreeze (c : Core) (j : Journal) : Core :=
  if 0 < c.mgr.runningHandles then
    { c with mgr := { c.mgr with freezing := true }, pc := .frozen j }
  else endFreeze { c with mgr := { c.mgr with freezing := true } } j

/-- `none` while there is nothing to do, or handles to wait for, and after the exit. -/
def threadStep (c : Core) : Option Core :=
  match c.pc with
  | .top j =>
      if c.mgr.shutdown then some { c with pc := .unlink j .drain }
      else if cycleIdle c.mgr then none
      else some (beginFreeze c j)
  | .frozen j => if 0 < c.mgr.runningHandles then none else some (endFreeze c j)
  | .orderedFlush j nodes => some { c with disk := c.disk.flush, pc := afterFreeze j nodes }
  | .emptyCycle j => some { c with mgr := finishEmptyCycle c.mgr, pc := .lag j }
  | .reclaim j nodes =>
      if journalFreeSpace j < journalSpaceNeeded nodes.length 0 then
        some { c with pc := .unlink j (.reclaim nodes) }
      else some { c with pc := .commit (journalCommit j (pendingBlocks nodes) []) nodes }
  | .unlink j caller =>
      match unlinkOldest c.mgr with
      | none => some { c with pc := resume j false caller }
      | some (t, mgr) => some { c with mgr, pc := .writeHome j t t.nodes caller }
  | .writeHome j t (d :: rest) caller =>
      match run faultless (bdevWrite c.mgr.dev d.blockno d.data).run c.disk with
      | (.ok (), disk) => some { c with disk, pc := .writeHome j t rest caller }
      | (.error _, disk) => some { c with disk, pc := resume j false caller }
  | .writeHome j t [] caller => some { c with disk := c.disk.flush, pc := .nextTail j t caller }
  | .nextTail j t caller =>
      let (off, seq) := newTail c.mgr j
      some { c with pc := .advance (journalAdvanceTail j off seq) t caller }
  | .advance (.op o k) t caller =>
      let (r, disk) := faultless (E := Errno) o c.disk
      some { c with disk, pc := .advance (k r) t caller }
  | .advance (.ret (rc, j)) _ caller => some { c with pc := resume j rc.isOk caller }
  | .commit (.op o k) nodes =>
      let (r, disk) := faultless (E := Errno) o c.disk
      some { c with disk, pc := .commit (k r) nodes }
  | .commit (.ret (rc, j)) nodes => some { c with pc := .link j nodes rc }
  | .link j nodes rc => some { c with mgr := finishCommit c.mgr j nodes rc, pc := .lag j }
  | .lag j =>
      if ckptLag < c.mgr.ckpt.length then some { c with pc := .unlink j .lag }
      else some { c with pc := .top j }
  | .exited _ => none

def endsFreeze (c : Core) : Bool :=
  match c.pc with
  | .top _ => !c.mgr.shutdown && !cycleIdle c.mgr && c.mgr.runningHandles == 0
  | .frozen _ => c.mgr.runningHandles == 0
  | _ => false

def committing (c : Core) : Option (List DirtyBlock) :=
  match c.pc with
  | .commit (.ret (.ok _, _)) nodes => some nodes
  | _ => none

/-! ## The system -/

/-- A content staged for a block: the one a new buffer begins with, or one a caller
stores through its buffer. -/
structure Update where
  handle : ℕ
  blockno : UInt64
  data : Block
  first : Bool

structure LiveHandle where
  id : ℕ
  handle : Handle
  bufs : List UInt64

structure SyncCall where
  target : UInt64
  began : ℕ
  live : List ℕ

/-- A transaction `logfs_journal_commit` returned 0 for: the updates `first` to `upTo`. -/
structure Durable where
  first : ℕ
  upTo : ℕ
  nodes : List DirtyBlock

/-- `hist`, `frozenAt`, `durable` and `returned` only record the past. -/
structure Sys extends Core where
  handles : List LiveHandle
  nextHandle : ℕ
  syncs : List SyncCall
  aborted : Bool
  hist : List Update
  frozenAt : ℕ
  durable : List Durable
  returned : List SyncCall

inductive Action
  | thread
  | start
  | getWriteAccess (id : ℕ) (blockno : UInt64)
  | bufWrite (id : ℕ) (blockno : UInt64) (data : Block)
  | stop (id : ℕ)
  | syncCall
  | syncReturn (i : ℕ)
  | destroy

/-- How many updates are in transactions `logfs_journal_commit` returned 0 for. -/
def durableUpTo (ts : List Durable) : ℕ := (ts.getLast?.map (·.upTo)).getD 0

namespace Sys

def findHandle (s : Sys) (id : ℕ) : Option LiveHandle := s.handles.find? fun h => h.id == id

def threadAction (s : Sys) : Option Sys :=
  (threadStep s.toCore).map fun c =>
    { s with
      toCore := c
      frozenAt := if endsFreeze s.toCore then s.hist.length else s.frozenAt
      durable := s.durable ++
        (committing s.toCore).toList.map fun nodes => ⟨durableUpTo s.durable, s.frozenAt, nodes⟩ }

/-- Nobody calls `logfs_txn_start` once the manager is being destroyed. -/
def startAction (s : Sys) : Option Sys :=
  if s.mgr.shutdown then none
  else (txnStart s.mgr).map fun (handle, mgr) =>
    { s with mgr, handles := ⟨s.nextHandle, handle, []⟩ :: s.handles, nextHandle := s.nextHandle + 1 }

def getWriteAccessAction (s : Sys) (id : ℕ) (blockno : UInt64) : Option Sys :=
  (s.findHandle id).map fun h =>
    if !tagMatches h.handle s.mgr then { s with aborted := true }
    else match (run faultless (getWriteAccess s.mgr blockno) s.disk).1 with
      | (.error _, mgr) => { s with mgr }
      | (.ok data, mgr) =>
          { s with
            mgr
            handles := s.handles.map fun h => if h.id = id then { h with bufs := blockno :: h.bufs } else h
            hist := if (findDirty s.mgr blockno).isNone then s.hist ++ [⟨id, blockno, data, true⟩] else s.hist }

def bufWriteAction (s : Sys) (id : ℕ) (blockno : UInt64) (data : Block) : Option Sys :=
  (s.findHandle id).bind fun h =>
    if blockno ∈ h.bufs then
      some { s with mgr := writeBuffer s.mgr blockno data, hist := s.hist ++ [⟨id, blockno, data, false⟩] }
    else none

def stopAction (s : Sys) (id : ℕ) : Option Sys :=
  (s.findHandle id).map fun _ =>
    { s with mgr := txnStop s.mgr, handles := s.handles.filter fun h => h.id != id }

def syncCallAction (s : Sys) : Option Sys :=
  if s.mgr.shutdown then none
  else
    let (target, mgr) := commitSyncRequest s.mgr
    let call : SyncCall := ⟨target, s.hist.length, s.handles.map (·.id)⟩
    if commitSyncDone mgr target then some { s with mgr, returned := s.returned ++ [call] }
    else some { s with mgr, syncs := s.syncs ++ [call] }

def syncReturnAction (s : Sys) (i : ℕ) : Option Sys :=
  s.syncs[i]?.bind fun call =>
    if commitSyncDone s.mgr call.target then
      some { s with syncs := s.syncs.eraseIdx i, returned := s.returned ++ [call] }
    else none

def destroyAction (s : Sys) : Option Sys :=
  if s.mgr.shutdown then none else some { s with mgr := requestShutdown s.mgr }

/-- One step of one thread; a failed assertion ends the process. -/
def step (s : Sys) (a : Action) : Option Sys :=
  if s.aborted then none
  else match a with
    | .thread => s.threadAction
    | .start => s.startAction
    | .getWriteAccess id blockno => s.getWriteAccessAction id blockno
    | .bufWrite id blockno data => s.bufWriteAction id blockno data
    | .stop id => s.stopAction id
    | .syncCall => s.syncCallAction
    | .syncReturn i => s.syncReturnAction i
    | .destroy => s.destroyAction

/-- After `logfs_txnmgr_create` on a journal that was opened and recovered. -/
def boot (j : Journal) (img : Image) (mode : DataMode) : Sys where
  mgr := txnMgrCreate j j.dev mode
  disk := settled img
  pc := .top j
  handles := []
  nextHandle := 0
  syncs := []
  aborted := false
  hist := []
  frozenAt := 0
  durable := []
  returned := []

end Sys

/-! ## A small mount -/

def tinyJournal : Journal := ⟨⟨64⟩, 3, 8, 0, 0, 1⟩

def tinyImage : Image :=
  Function.update (fun _ => zeroBlock) jsuperBlockno (jsuperEncode tinyJournal journalEmpty 0)

def tinyMount : Sys := Sys.boot tinyJournal tinyImage .ordered

end Logfs
