import Logfs.BlockDev
import Logfs.Crc32

/-!
# The journal

`journal.c`: a circular log of transactions in the region of `maxlen` blocks from
`first`, each a descriptor block, an optional revoke block, the logged blocks and
a commit block; and the journal superblock, which says where the oldest
transaction recovery must look at begins.

Offsets are 64-bit and only reduced modulo `maxlen` when a block is addressed.
-/
namespace Logfs
open Interaction WriteCache

structure Journal where
  dev : BlockDev
  first : UInt64
  maxlen : UInt64
  /-- Offset of the next free slot. -/
  head : UInt64
  /-- Offset of the oldest slot not yet checkpointed. -/
  tail : UInt64
  nextSequence : UInt64

structure PendingBlock where
  targetBlock : UInt64
  data : Block

def physOf (j : Journal) (logicalOff : UInt64) : UInt64 := j.first + logicalOff % j.maxlen

def readLogical (j : Journal) (off : UInt64) : DevEM Block := bdevRead j.dev (physOf j off)

def writeLogical (j : Journal) (off : UInt64) (buf : Block) : DevEM Unit :=
  bdevWrite j.dev (physOf j off) buf

/-! ## Journal superblock -/

def jsuperEncode (j : Journal) (startOff startSeq : UInt64) : Block :=
  JournalSuper.encode
    { magic := journalMagic, blockSize := 4096, maxlen := j.maxlen, first := j.first,
      sequence := startSeq, start := startOff }

def jsuperWrite (j : Journal) (startOff startSeq : UInt64) : DevEM Unit :=
  bdevWriteFua j.dev jsuperBlockno (jsuperEncode j startOff startSeq)

def journalFormat (dev : BlockDev) (first maxlen : UInt64) : DevEM Unit :=
  jsuperWrite { dev, first, maxlen, head := 0, tail := 0, nextSequence := 0 } journalEmpty 0

def journalOpen (dev : BlockDev) (first maxlen : UInt64) : DevEM Journal := do
  let block ← bdevRead dev jsuperBlockno
  let js := JournalSuper.decode block
  if js.magic ≠ journalMagic then throw .einval
  if js.start = journalEmpty then
    return { dev, first, maxlen, head := 0, tail := 0, nextSequence := 1 }
  else
    return { dev, first, maxlen, head := js.start, tail := js.start, nextSequence := js.sequence }

/-! ## Space -/

def journalFreeSpace (j : Journal) : UInt64 := j.maxlen - (j.head - j.tail)

/-- Zero when the transaction does not fit one descriptor and one revoke block. -/
def journalSpaceNeeded (ndata nrevoke : ℕ) : UInt64 :=
  if maxTagsPerDesc < ndata ∨ maxRevokesPerBlock < nrevoke then 0
  else 1 + UInt64.ofNat ndata + (if 0 < nrevoke then 1 else 0) + 1

/-! ## Commit -/

def checksumTransaction (descBlock : Block) (revokeBlock : Option Block) (data : List Block) :
    UInt32 :=
  let crc := crc32Update crc32Init (List.ofFn descBlock)
  let crc := match revokeBlock with
    | some b => crc32Update crc (List.ofFn b)
    | none => crc
  crc32Final (data.foldl (fun crc b => crc32Update crc (List.ofFn b)) crc)

/-- `desc_buf` of a transaction -/
def descBuf (sequence : UInt64) (data : List PendingBlock) : Block :=
  DescBlock.encode
    { magic := descMagic, ntags := UInt32.ofNat data.length, sequence,
      tags := fun i => (data.map (·.targetBlock)).getD i 0 }

/-- `revoke_buf` of a transaction, which is only written when there is something to revoke -/
def revokeBuf (sequence : UInt64) (revoke : List UInt64) : Option Block :=
  if 0 < revoke.length then
    some (RevokeBlock.encode
      { magic := revokeMagic, nblocks := UInt32.ofNat revoke.length, sequence,
        blocks := fun i => revoke.getD i 0 })
  else none

def commitBuf (sequence : UInt64) (data : List PendingBlock) (revoke : List UInt64) : Block :=
  CommitBlock.encode
    { magic := commitMagic, sequence,
      checksum := checksumTransaction (descBuf sequence data) (revokeBuf sequence revoke)
        (data.map (·.data)) }

/-- The blocks written before the commit block, in the order they are written. -/
def logBlocks (sequence : UInt64) (data : List PendingBlock) (revoke : List UInt64) : List Block :=
  descBuf sequence data :: ((revokeBuf sequence revoke).toList ++ data.map (·.data))

/-- `write_logical` of each block at the cursor, and the cursor after the last one. -/
def writeBlocks (j : Journal) (cursor : UInt64) : List Block → DevEM UInt64
  | [] => pure cursor
  | b :: bs => do
      writeLogical j cursor b
      writeBlocks j (cursor + 1) bs

/-- The part of `logfs_journal_commit` that leaves `j` alone: the transaction's
blocks, a flush, the commit block, a flush. Returns the new head. -/
def writeTransaction (j : Journal) (data : List PendingBlock) (revoke : List UInt64) :
    DevEM UInt64 := do
  let cursor ← writeBlocks j j.head (logBlocks j.nextSequence data revoke)
  bdevFlush j.dev
  writeLogical j cursor (commitBuf j.nextSequence data revoke)
  bdevFlush j.dev
  return cursor + 1

/-- Returns the sequence number and the descriptor's offset, and `j` as it is left. -/
def journalCommit (j : Journal) (data : List PendingBlock) (revoke : List UInt64) :
    DevM (Except Errno (UInt64 × UInt64) × Journal) :=
  let needed := journalSpaceNeeded data.length revoke.length
  if needed = 0 then return (.error .einval, j)
  else if journalFreeSpace j < needed then return (.error .enospc, j)
  else do
    match ← (writeTransaction j data revoke).run with
    | .error e => return (.error e, j)
    | .ok cursor =>
        let j' := { j with head := cursor, nextSequence := j.nextSequence + 1 }
        -- the first transaction of an empty log is the one recovery must start from
        if j.tail = j.head then
          match ← (jsuperWrite j' j.head j.nextSequence).run with
          | .error e => return (.error e, j')
          | .ok () => return (.ok (j.nextSequence, j.head), j')
        else return (.ok (j.nextSequence, j.head), j')

def journalAdvanceTail (j : Journal) (newTailOffset newTailSequence : UInt64) :
    DevM (Except Errno Unit × Journal) := do
  let start := if newTailOffset = j.head then journalEmpty else newTailOffset
  match ← (jsuperWrite j start newTailSequence).run with
  | .error e => return (.error e, j)
  | .ok () => return (.ok (), { j with tail := newTailOffset })

/-! ## Recovery -/

/-- A transaction found by the scan: its targets with the offsets of their logged copies. -/
structure RecoveredTxn where
  sequence : UInt64
  blocks : List (UInt64 × UInt64)
  deriving DecidableEq

structure RevokeEntry where
  targetBlock : UInt64
  sequence : UInt64
  deriving DecidableEq

/-- What one iteration of the scan loop adds, and where the next one begins. -/
structure Scanned where
  txn : RecoveredTxn
  revokes : List RevokeEntry
  next : UInt64
  deriving DecidableEq

def readBlocks (j : Journal) (cursor : UInt64) : ℕ → DevEM (List Block)
  | 0 => pure []
  | n + 1 => do
      let b ← readLogical j cursor
      let bs ← readBlocks j (cursor + 1) n
      return b :: bs

/-- The revoke entries of a revoke block, at most as many as it can hold. -/
def revokeEntries (rv : RevokeBlock) : List RevokeEntry :=
  ((List.ofFn rv.blocks).take rv.nblocks.toNat).map fun b => ⟨b, rv.sequence⟩

/-- What an accepted transaction adds to the scan's lists. -/
def scanned (desc : DescBlock) (revokeBlock : Option Block) (cursor commitOff : UInt64) : Scanned where
  txn :=
    { sequence := desc.sequence
      blocks := ((List.ofFn desc.tags).take desc.ntags.toNat).mapIdx
        fun i target => (target, cursor + UInt64.ofNat i) }
  revokes := match revokeBlock with
    | some b => revokeEntries (RevokeBlock.decode b)
    | none => []
  next := commitOff + 1

/-- One iteration of the scan loop of `logfs_journal_recover`; `none` where it breaks. -/
def scanTxn (j : Journal) (scan expectSeq : UInt64) : DevM (Option Scanned) := do
  match ← (readLogical j scan).run with
  | .error _ => return none
  | .ok descBlock =>
    let desc := DescBlock.decode descBlock
    if desc.magic ≠ descMagic ∨ desc.sequence ≠ expectSeq ∨ maxTagsPerDesc < desc.ntags.toNat then
      return none
    else
      let cursor := scan + 1
      let ntags := desc.ntags.toUInt64
      let peek ← (readLogical j (cursor + ntags)).run
      let revokeBlock : Option Block := match peek with
        | .ok b => if magicOf b = revokeMagic then some b else none
        | .error _ => none
      let commitOff := cursor + ntags + (if revokeBlock.isSome then 1 else 0)
      match ← (readLogical j commitOff).run with
      | .error _ => return none
      | .ok commitBlock =>
        let cb := CommitBlock.decode commitBlock
        if cb.magic ≠ commitMagic ∨ cb.sequence ≠ desc.sequence then return none
        else
          match ← (readBlocks j cursor desc.ntags.toNat).run with
          | .error _ => return none
          | .ok data =>
            if checksumTransaction descBlock revokeBlock data ≠ cb.checksum then return none
            else
              return some (scanned desc revokeBlock cursor commitOff)

/-- Everything the scan loop leaves behind. -/
structure ScanResult where
  txns : List RecoveredTxn
  revokes : List RevokeEntry
  scan : UInt64
  lastValidSeq : UInt64
  deriving DecidableEq

/-- The scan loop. Every transaction it accepts has its descriptor in a block of the
region of its own, so `maxlen + 1` rounds are enough to reach the break. -/
def scanLoop (j : Journal) : ℕ → UInt64 → UInt64 → UInt64 → DevM ScanResult
  | 0, scan, _, lastValidSeq => return ⟨[], [], scan, lastValidSeq⟩
  | fuel + 1, scan, expectSeq, lastValidSeq => do
      match ← scanTxn j scan expectSeq with
      | none => return ⟨[], [], scan, lastValidSeq⟩
      | some s =>
          let r ← scanLoop j fuel s.next (s.txn.sequence + 1) s.txn.sequence
          return { r with txns := s.txn :: r.txns, revokes := s.revokes ++ r.revokes }

/-- Pass 1, from the position the journal superblock gives. -/
def scanPass (j : Journal) (js : JournalSuper) : DevM ScanResult :=
  scanLoop j (j.maxlen.toNat + 1) js.start js.sequence
    (if js.sequence = 0 then 0 else js.sequence - 1)

/-- The caller's callback, called with a home block and the content to put there. -/
inductive InstallOp
  | install (targetBlock : UInt64) (data : Block)

def InstallRes : InstallOp → Type := fun _ => Except Errno Unit

/-- Programs over the device that also call the install callback. -/
abbrev RecoverM := Prog (Prog.SumRes (DevRes (A := UInt64) (B := Block) Errno) InstallRes)

def install (targetBlock : UInt64) (data : Block) : RecoverM (Except Errno Unit) :=
  .op (.inr (.install targetBlock data)) .ret

def isRevoked (revokes : List RevokeEntry) (targetBlock sequence : UInt64) : Bool :=
  revokes.any fun r => r.targetBlock == targetBlock && decide (sequence < r.sequence)

/-- A logged copy as pass 2 visits it. -/
structure LoggedCopy where
  sequence : UInt64
  targetBlock : UInt64
  offset : UInt64

def loggedCopies (txns : List RecoveredTxn) : List LoggedCopy :=
  txns.flatMap fun t => t.blocks.map fun b => ⟨t.sequence, b.1, b.2⟩

/-- Pass 2: install every logged copy that is not revoked, oldest first. -/
def replay (j : Journal) (revokes : List RevokeEntry) : List LoggedCopy → RecoverM (Except Errno Unit)
  | [] => return .ok ()
  | t :: ts =>
      if isRevoked revokes t.targetBlock t.sequence then replay j revokes ts
      else do
        match ← (liftM (readLogical j t.offset).run : RecoverM (Except Errno Block)) with
        | .error _ => return .error .eio
        | .ok data =>
            match ← install t.targetBlock data with
            | .error e => return .error e
            | .ok () => replay j revokes ts

def journalRecover (j : Journal) : RecoverM (Except Errno Unit × Journal) := do
  match ← (liftM (bdevRead j.dev jsuperBlockno).run : RecoverM (Except Errno Block)) with
  | .error e => return (.error e, j)
  | .ok block =>
    let js := JournalSuper.decode block
    if js.magic ≠ journalMagic then return (.error .einval, j)
    else if js.start = journalEmpty then
      return (.ok (), { j with head := 0, tail := 0, nextSequence := 1 })
    else
      let r ← (liftM (scanPass j js) : RecoverM ScanResult)
      match ← replay j r.revokes (loggedCopies r.txns) with
      | .error e => return (.error e, j)
      | .ok () =>
          let j' := { j with head := r.scan, tail := r.scan, nextSequence := r.lastValidSeq + 1 }
          match ← (liftM (jsuperWrite j' journalEmpty 0).run : RecoverM (Except Errno Unit)) with
          | .error e => return (.error e, j')
          | .ok () => return (.ok (), j')

end Logfs
