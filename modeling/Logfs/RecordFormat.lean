import Logfs.LiveLog

/-!
# Commit and recovery agree on the record format

Transactions committed into a freshly formatted region of zero blocks, and what
`logfs_journal_recover` reads back from it.
-/
namespace Logfs
open Interaction WriteCache ByteBuffer

/-- `logfs_journal_commit` for each transaction in turn. -/
def commitAll (j : Journal) : List Transaction → DevEM Journal
  | [] => pure j
  | t :: ts => do
      match ← (liftM (journalCommit j t.data t.revoke) :
        DevEM (Except Errno (UInt64 × UInt64) × Journal)) with
      | (.error e, _) => throw e
      | (.ok _, j') => commitAll j' ts

def formatAndCommit (dev : BlockDev) (first maxlen : UInt64) (ts : List Transaction) :
    DevEM Journal := do
  journalFormat dev first maxlen
  let j ← journalOpen dev first maxlen
  commitAll j ts

/-- A transaction of the scan with the bytes its logged copies have. -/
def readTxn (j : Journal) (img : Image) (t : RecoveredTxn) : UInt64 × List (UInt64 × Block) :=
  (t.sequence, t.blocks.map fun b => (b.1, logView j img b.2))

/-- Transactions numbered from `s` on, each with its targets and their data. -/
def numbered : UInt64 → List Transaction → List (UInt64 × List (UInt64 × Block))
  | _, [] => []
  | s, t :: ts => (s, t.data.map fun d => (d.targetBlock, d.data)) :: numbered (s + 1) ts

/-- Recovery finds the transactions `ts`, their data and their revokes, and leaves the
journal where its writer `j` left it, with nothing to checkpoint. -/
structure ReadsBack (j : Journal) (c : Disk) (ts : List Transaction) : Prop where
  txns : (foundByRecover j c.view).txns.map (readTxn j c.view) = numbered 1 ts
  revokes : (foundByRecover j c.view).revokes = recoveredLogRevokes 1 ts
  journal : (run recording (journalRecover j) (c, [])).1 = (.ok (), { j with tail := j.head })

theorem length_numbered (s : UInt64) (ts : List Transaction) :
    (numbered s ts).length = ts.length := by
  induction ts generalizing s with
  | nil => rfl
  | cons t ts ih => simp [numbered, ih]

/-! ## Writing -/

section Writing
variable {c : Disk}

/-- What a series of commits leaves when every one of them has room. -/
theorem run_commitAll {j : Journal} {p : ℕ} {s : UInt64} {ts : List Transaction}
    (us : List Transaction) (h : LiveLog j c.view p s ts) (hbelow : CommitsBelow j c.view j.nextSequence.toNat)
    (hroom : logLen ts + logLen us ≤ j.maxlen.toNat)
    (hbound : p + logLen ts + logLen us < 2 ^ 64)
    (hseq : j.nextSequence.toNat + us.length < 2 ^ 64)
    (hfits : ∀ t ∈ us, t.Fits) (hplain : ∀ t ∈ us, t.Plain) :
    ∃ j' d, run faultless (commitAll j us).run c = (.ok j', d) ∧
      LiveLog j' d.view p s (ts ++ us) ∧ CommitsBelow j' d.view j'.nextSequence.toNat := by
  induction us generalizing j ts c with
  | nil => exact ⟨j, c, rfl, by simpa using h, hbelow⟩
  | cons t us ih =>
      simp only [logLen_cons, List.length_cons] at hroom hbound hseq
      have hroom' : j.HasRoom t := h.hasRoom.mpr (by omega)
      have hlive := h.commit hroom' (by omega)
      have hnext : (committed j t).nextSequence.toNat = j.nextSequence.toNat + 1 := by
        rw [committed, UInt64.toNat_add]
        exact Nat.mod_eq_of_lt (by simp; omega)
      have hbelow' : CommitsBelow (committed j t) (commitImage j t c.view)
          (committed j t).nextSequence.toNat := by
        rw [hnext]
        exact (hbelow.commitImage (hplain t List.mem_cons_self)).of_region j (committed j t) rfl rfl
      obtain ⟨j', d, hrun, hlog, hbel⟩ := ih (c := settled (commitImage j t c.view)) hlive hbelow'
        (by simp [committed]; omega) (by simp; omega) (by omega)
        (fun u hu => hfits u (List.mem_cons_of_mem t hu))
        (fun u hu => hplain u (List.mem_cons_of_mem t hu))
      refine ⟨j', d, ?_, by simpa using hlog, hbel⟩
      rw [commitAll, run_except_bind, run_liftM_except,
        run_journalCommit h.placed (hfits t List.mem_cons_self) hroom']
      exact hrun

/-- The image after `logfs_journal_format`. -/
def formattedImage (dev : BlockDev) (first maxlen : UInt64) (img : Image) : Image :=
  Function.update img jsuperBlockno (jsuperEncode ⟨dev, first, maxlen, 0, 0, 0⟩ journalEmpty 0)

/-- The commits start from the empty log that `logfs_journal_open` finds. -/
theorem run_formatAndCommit_eq (dev : BlockDev) (first maxlen : UInt64) (ts : List Transaction)
    (hj : Journal.Placed ⟨dev, first, maxlen, 0, 0, 1⟩) :
    run faultless (formatAndCommit dev first maxlen ts).run c =
      run faultless (commitAll ⟨dev, first, maxlen, 0, 0, 1⟩ ts).run
        (settled (formattedImage dev first maxlen c.view)) := by
  have hf : Journal.Placed ⟨dev, first, maxlen, 0, 0, 0⟩ :=
    ⟨hj.maxlen_pos, hj.fits, hj.after_jsuper⟩
  have hstarts := (liveLog_format hj c.view).starts
  have hempty : (jsuperOf (formattedImage dev first maxlen c.view)).start = journalEmpty := by
    simpa [formattedImage] using hstarts.start
  have hopen := run_journalOpen ⟨dev, first, maxlen, 0, 0, 1⟩
    (c := settled (formattedImage dev first maxlen c.view)) (jsuper_lt hj) hstarts.magic
  rw [view_settled, openedJournal, if_pos hempty] at hopen
  have himg : Function.update c.view jsuperBlockno
      (jsuperEncode ⟨dev, first, maxlen, 0, 0, 0⟩ journalEmpty 0) =
    formattedImage dev first maxlen c.view := rfl
  rw [formatAndCommit, run_except_bind, journalFormat, run_jsuperWrite c hf]
  simp only [Cache.flush, view_write, himg, run_except_bind, hopen]

theorem run_formatAndCommit (dev : BlockDev) (first maxlen : UInt64) (ts : List Transaction)
    (hj : Journal.Placed ⟨dev, first, maxlen, 0, 0, 1⟩)
    (hzero : ZeroRegion ⟨dev, first, maxlen, 0, 0, 1⟩ c.view) (hroom : logLen ts ≤ maxlen.toNat)
    (hfits : ∀ t ∈ ts, t.Fits) (hplain : ∀ t ∈ ts, t.Plain) :
    ∃ j d, run faultless (formatAndCommit dev first maxlen ts).run c = (.ok j, d) ∧
      LiveLog j d.view 0 1 ts ∧ CommitsBelow j d.view j.nextSequence.toNat := by
  have hfit : first.toNat + maxlen.toNat ≤ dev.nblocks.toNat := hj.fits
  have hfirst : 2 < first.toNat := hj.after_jsuper
  have hdev := dev.nblocks.toNat_lt
  have hlen := length_le_logLen ts
  have hbelow := CommitsBelow.of_zeroRegion hj hzero 1
    (jsuperEncode ⟨dev, first, maxlen, 0, 0, 0⟩ journalEmpty 0)
  obtain ⟨j, d, hrun, hlog, hbel⟩ := run_commitAll
    (c := settled (formattedImage dev first maxlen c.view)) ts (liveLog_format hj c.view) hbelow
    (by simpa using hroom) (by simp; omega) (by simp; omega) hfits hplain
  exact ⟨j, d, by rw [run_formatAndCommit_eq dev first maxlen ts hj, hrun], by simpa using hlog, hbel⟩

end Writing

/-! ## Reading back -/

section Reading
variable {j : Journal} {c : Disk} {ts : List Transaction}

theorem map_readTxn {img : Image} {p : ℕ} {s : UInt64} (hread : ∀ t ∈ ts, t.Readable)
    (h : LogHolds j img p s ts) :
    (recoveredLog p s ts).map (readTxn j img) = numbered s ts := by
  induction ts generalizing p s with
  | nil => rfl
  | cons t ts ih =>
      have hhead := map_recoveredTxn (hread t List.mem_cons_self) h.1
      rw [recoveredLog, List.map_cons, ih (fun u hu => hread u (List.mem_cons_of_mem t hu)) h.2,
        readTxn, hhead]
      rfl

theorem readsBack_of_readable (h : LiveLog j c.view 0 1 ts)
    (hbelow : CommitsBelow j c.view j.nextSequence.toNat) (hfits : ∀ t ∈ ts, t.Fits)
    (hread : ∀ t ∈ ts, t.Readable) : ReadsBack j c ts := by
  have hrun := congrArg Prod.fst (run_recover_recording h.placed [] h.starts.magic)
  by_cases hts : ts = []
  · subst hts
    have hhead : j.head = 0 := h.head_eq
    have hnext : j.nextSequence = 1 := h.next_eq
    have hempty : (jsuperOf c.view).start = journalEmpty := h.starts.start
    have hfound : foundByRecover j c.view = ⟨[], [], 0, 0⟩ := if_pos hempty
    refine ⟨by rw [hfound]; rfl, by rw [hfound]; rfl, ?_⟩
    rw [hrun, recoveredJournal, if_pos hempty]
    simp [← hhead, ← hnext]
  · have hend : DiskLog.Ends j c.view 0 1 ts :=
      hbelow.scanAt_none h.placed _ (by rw [h.next_eq])
    have hfound := h.found hts hfits hread hend
    refine ⟨by rw [hfound]; exact map_readTxn hread h.holds, by rw [hfound], ?_⟩
    rw [hrun, h.recovered hts hfits hread hend, ← h.head_eq, ← h.next_eq]

/-- A transaction with both logged blocks and revokes ends the scan. -/
theorem not_readsBack (h : LiveLog j c.view 0 1 ts) (hfits : ∀ t ∈ ts, t.Fits)
    (hplain : ∀ t ∈ ts, t.Plain) (hread : ¬ ∀ t ∈ ts, t.Readable) : ¬ ReadsBack j c ts := by
  intro hback
  have hfind : (ts.find? fun t => !decide t.Readable).isSome := by
    rw [List.find?_isSome]
    push Not at hread
    simpa using hread
  obtain ⟨t, ht⟩ := Option.isSome_iff_exists.mp hfind
  obtain ⟨hunread, us, vs, hts, hus⟩ := List.find?_eq_some_iff_append.mp ht
  have hmem : t ∈ ts := by rw [hts]; simp
  have hbefore : ∀ u ∈ us, u ∈ ts := fun u hu => by rw [hts]; simp [hu]
  have hne : ts ≠ [] := List.ne_nil_of_mem hmem
  obtain ⟨hdata, hrevoke⟩ : t.data ≠ [] ∧ t.revoke ≠ [] := 
    not_or.mp (show ¬ t.Readable by simpa using hunread)
  have hholds := h.holds
  rw [hts, LogHolds.append] at hholds
  have hend : scanAt (logView j c.view) (UInt64.ofNat (0 + logLen us))
      (1 + UInt64.ofNat us.length) = none :=
    scanAt_record_both (hfits t hmem).data_le hdata hrevoke (hplain t hmem) hholds.2.1
  have hroom := h.room
  rw [hts, logLen_append] at hroom
  have hscan := scanPassAt_log (by rw [h.starts.start, if_neg hne]) (h.starts.sequence hne)
    (by omega) (fun u hu => hfits u (hbefore u hu)) (fun u hu => by simpa using hus u hu)
    hholds.1 hend
  have hlen := congrArg List.length hback.txns
  rw [foundByRecover, if_neg (h.start_ne_empty hne), hscan, List.length_map, length_recoveredLog, length_numbered, hts] at hlen
  simp at hlen

end Reading

/-- Every commit into the fresh region returns 0, and recovery reads back what was committed
exactly when no transaction has both logged blocks and revokes. -/
theorem readsBack_iff_readable (dev : BlockDev) (first maxlen : UInt64) (ts : List Transaction)
    {c : Disk} (hj : Journal.Placed ⟨dev, first, maxlen, 0, 0, 1⟩)
    (hzero : ZeroRegion ⟨dev, first, maxlen, 0, 0, 1⟩ c.view) (hroom : logLen ts ≤ maxlen.toNat)
    (hfits : ∀ t ∈ ts, t.Fits) (hplain : ∀ t ∈ ts, t.Plain) :
    ∃ j d, run faultless (formatAndCommit dev first maxlen ts).run c = (.ok j, d) ∧
      (ReadsBack j d ts ↔ ∀ t ∈ ts, t.Readable) := by
  obtain ⟨j, d, hrun, hlive, hbelow⟩ := run_formatAndCommit dev first maxlen ts hj hzero hroom hfits hplain
  refine ⟨j, d, hrun, ?_, readsBack_of_readable hlive hbelow hfits⟩
  intro hback
  by_contra hread
  exact not_readsBack hlive hfits hplain hread hback

/-- One logged block and one revoke, on a device of 64 zero blocks. -/
def mixedTransaction : Transaction := ⟨[⟨20, zeroBlock⟩], [21]⟩

theorem not_readsBack_mixed : ∃ j d,
    run faultless (formatAndCommit ⟨64⟩ 3 8 [mixedTransaction]).run (settled fun _ => zeroBlock) =
      (.ok j, d) ∧ ¬ ReadsBack j d [mixedTransaction] := by
  have hfits : ∀ t ∈ [mixedTransaction], t.Fits := by
    simp only [List.forall_mem_singleton]
    exact ⟨by decide, by decide⟩
  have hplain : ∀ t ∈ [mixedTransaction], t.Plain := by
    simp [mixedTransaction, Transaction.Plain, IsRecord, descMagic, commitMagic, revokeMagic]
  obtain ⟨j, d, hrun, hlive, -⟩ := run_formatAndCommit ⟨64⟩ 3 8 [mixedTransaction]
    (c := settled fun _ => zeroBlock) ⟨by decide, by decide, by decide⟩ (fun _ _ => rfl)
    (by decide) hfits hplain
  exact ⟨j, d, hrun, not_readsBack hlive hfits hplain (by decide)⟩

theorem readsBack_single : ∃ j d,
    run faultless (formatAndCommit ⟨64⟩ 3 8 [⟨[⟨20, zeroBlock⟩], []⟩]).run
      (settled fun _ => zeroBlock) = (.ok j, d) ∧ ReadsBack j d [⟨[⟨20, zeroBlock⟩], []⟩] := by
  have hplain : ∀ t ∈ [(⟨[⟨20, zeroBlock⟩], []⟩ : Transaction)], t.Plain := by
    simp [Transaction.Plain, IsRecord, descMagic, commitMagic, revokeMagic]
  obtain ⟨j, d, hrun, hiff⟩ := readsBack_iff_readable ⟨64⟩ 3 8 [⟨[⟨20, zeroBlock⟩], []⟩]
    (c := settled fun _ => zeroBlock) ⟨by decide, by decide, by decide⟩ (fun _ _ => rfl) (by decide)
    (by simp only [List.forall_mem_singleton]; exact ⟨by decide, by decide⟩) hplain
  exact ⟨j, d, hrun, hiff.mpr (by decide)⟩

end Logfs
