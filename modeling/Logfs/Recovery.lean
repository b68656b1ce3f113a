import Logfs.LogScan

/-!
# Recovery on a device that does not fail

`logfs_journal_recover` with a callback that only records its calls, and with the
callback of `logfs_fs_mount`, which writes each installed block home.
-/
namespace Logfs
open Interaction WriteCache ByteBuffer

/-- The journal superblock of an image. -/
def jsuperOf (img : Image) : JournalSuper := JournalSuper.decode (img jsuperBlockno)

@[simp] theorem decode_jsuperEncode (j : Journal) (off seq : UInt64) :
    JournalSuper.decode (jsuperEncode j off seq) =
      { magic := journalMagic, blockSize := 4096, maxlen := j.maxlen, first := j.first,
        sequence := seq, start := off } := JournalSuper.decode_encode _

/-! ## Opening -/

/-- The journal `logfs_journal_open` fills in. -/
def openedJournal (j₀ : Journal) (img : Image) : Journal :=
  if (jsuperOf img).start = journalEmpty then { j₀ with head := 0, tail := 0, nextSequence := 1 }
  else { j₀ with
    head := (jsuperOf img).start
    tail := (jsuperOf img).start
    nextSequence := (jsuperOf img).sequence }

theorem run_journalOpen (j₀ : Journal) (hlt : jsuperBlockno < j₀.dev.nblocks) {c : Disk}
    (hmagic : (jsuperOf c.view).magic = journalMagic) :
    run faultless (journalOpen j₀.dev j₀.first j₀.maxlen).run c = (.ok (openedJournal j₀ c.view), c) := by
  have hdecode : JournalSuper.decode (c.view jsuperBlockno) = jsuperOf c.view := rfl
  rw [journalOpen, run_except_bind, run_bdevRead c hlt]
  simp only [hdecode, hmagic, ne_eq, not_true, if_false]
  unfold openedJournal
  split <;> rfl

/-! ## What recovery finds and installs -/

/-- The scan pass as a function of the log's content. -/
def scanPassAt (j : Journal) (js : JournalSuper) (img : Image) : ScanResult :=
  scanAll (logView j img) (j.maxlen.toNat + 1) js.start js.sequence
    (if js.sequence = 0 then 0 else js.sequence - 1)

theorem run_scanPass {j : Journal} (hj : j.Placed) (js : JournalSuper) (c : Disk) :
    run faultless (scanPass j js) c = (scanPassAt j js c.view, c) := run_scanLoop hj _ _ _ _ _

/-- The scan's result when recovery runs on the image; nothing is scanned in an empty log. -/
def foundByRecover (j : Journal) (img : Image) : ScanResult :=
  if (jsuperOf img).start = journalEmpty then ⟨[], [], 0, 0⟩ else scanPassAt j (jsuperOf img) img

/-- The install calls pass 2 makes, in order. -/
def installs (rd : UInt64 → Block) (revokes : List RevokeEntry) (copies : List LoggedCopy) :
    List (UInt64 × Block) :=
  (copies.filter fun t => !isRevoked revokes t.targetBlock t.sequence).map
    fun t => (t.targetBlock, rd t.offset)

/-- The install calls of recovery on an image. -/
def installsOf (j : Journal) (img : Image) : List (UInt64 × Block) :=
  let r := foundByRecover j img
  installs (logView j img) r.revokes (loggedCopies r.txns)

/-- The journal as recovery leaves it. -/
def recoveredJournal (j : Journal) (img : Image) : Journal :=
  if (jsuperOf img).start = journalEmpty then { j with head := 0, tail := 0, nextSequence := 1 }
  else
    let r := foundByRecover j img
    { j with head := r.scan, tail := r.scan, nextSequence := r.lastValidSeq + 1 }

/-! ## Recording the install calls -/

/-- A callback that accepts every call and keeps a list of them. -/
def recorder : Handler InstallRes (List (UInt64 × Block))
  | .install target data, calls => (.ok (), calls ++ [(target, data)])

abbrev recording : Handler (Prog.SumRes (DevRes (A := UInt64) (B := Block) Errno) InstallRes)
    (Disk × List (UInt64 × Block)) := Handler.sum faultless recorder

variable {j : Journal}

@[simp] theorem run_liftM {α : Type} (p : DevM α) (c : Disk) (calls : List (UInt64 × Block)) :
    run recording (liftM p : RecoverM α) (c, calls) =
      ((run faultless p c).1, ((run faultless p c).2, calls)) := run_sum_inl faultless recorder p c calls

theorem run_replay_recording (hj : j.Placed) (revokes : List RevokeEntry)
    (copies : List LoggedCopy) (c : Disk) (calls : List (UInt64 × Block)) :
    run recording (replay j revokes copies) (c, calls) =
      (.ok (), (c, calls ++ installs (logView j c.view) revokes copies)) := by
  induction copies generalizing calls with
  | nil => simp [replay, installs]
  | cons t ts ih =>
      rw [replay]
      by_cases hr : isRevoked revokes t.targetBlock t.sequence = true
      · rw [if_pos hr, ih]
        simp [installs, hr]
      · rw [if_neg hr, run_bind, run_liftM, run_readLogical c hj]
        change run recording (install t.targetBlock (logView j c.view t.offset) >>= _) (c, calls) = _
        rw [run_bind]
        change run recording (replay j revokes ts)
          (c, calls ++ [(t.targetBlock, logView j c.view t.offset)]) = _
        rw [ih]
        simp [installs, hr]

theorem run_recover_recording (hj : j.Placed) {c : Disk} (calls : List (UInt64 × Block))
    (hmagic : (jsuperOf c.view).magic = journalMagic) :
    run recording (journalRecover j) (c, calls) =
      ((.ok (), recoveredJournal j c.view),
        (if (jsuperOf c.view).start = journalEmpty then c
          else (c.write jsuperBlockno (jsuperEncode j journalEmpty 0)).flush,
          calls ++ installsOf j c.view)) := by
  have hread : JournalSuper.decode (c.view jsuperBlockno) = jsuperOf c.view := rfl
  rw [journalRecover, run_bind, run_liftM, run_bdevRead c (jsuper_lt hj)]
  simp only [hread, hmagic, ne_eq, not_true, if_false, run_ite, Prog.pure_eq, run_ret]
  by_cases hempty : (jsuperOf c.view).start = journalEmpty
  · simp [hempty, recoveredJournal, installsOf, foundByRecover, installs, loggedCopies]
  · simp only [if_neg hempty, run_bind, run_liftM, run_scanPass hj, run_replay_recording hj]
    have hj' : Journal.Placed { j with
        head := (scanPassAt j (jsuperOf c.view) c.view).scan
        tail := (scanPassAt j (jsuperOf c.view) c.view).scan
        nextSequence := (scanPassAt j (jsuperOf c.view) c.view).lastValidSeq + 1 } :=
      ⟨hj.maxlen_pos, hj.fits, hj.after_jsuper⟩
    simp only [run_jsuperWrite c hj', run_ret]
    simp [recoveredJournal, installsOf, foundByRecover, hempty, jsuperEncode]

end Logfs
