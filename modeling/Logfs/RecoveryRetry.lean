import Logfs.RecoveryCrash

/-!
# Recovery tried again

The callback fails at some call, and `logfs_journal_recover` returns its error. Pass 2 only copies
logged blocks home, so what a failed call has copied, or left half copied, the next one copies again.
-/
namespace Logfs
open Interaction WriteCache

/-- What a call of the callback does. -/
inductive CallOutcome
  | installed
  /-- It returns an error. `left` is what the home block holds then, where it changed. -/
  | failed (e : Errno) (left : Option Block)

/-- The device does not fail; the callback goes by the pattern, one outcome for each call. -/
def installing (pattern : ℕ → CallOutcome) :
    Handler (Prog.SumRes (DevRes (A := UInt64) (B := Block) Errno) InstallRes) (Disk × ℕ)
  | .inl o, s =>
      let (r, c) := faultless (E := Errno) o s.1
      (r, (c, s.2))
  | .inr (.install target data), s =>
      match pattern s.2 with
      | .installed => (.ok (), (s.1.write target data, s.2 + 1))
      | .failed e none => (.error e, (s.1, s.2 + 1))
      | .failed e (some left) => (.error e, (s.1.write target left, s.2 + 1))

/-- The calls one after the other, up to the first that fails. -/
def installAll (pattern : ℕ → CallOutcome) :
    List (UInt64 × Block) → Disk × ℕ → Except Errno Unit × (Disk × ℕ)
  | [], s => (.ok (), s)
  | w :: ws, s =>
      match pattern s.2 with
      | .installed => installAll pattern ws (s.1.write w.1 w.2, s.2 + 1)
      | .failed e none => (.error e, (s.1, s.2 + 1))
      | .failed e (some left) => (.error e, (s.1.write w.1 left, s.2 + 1))

variable {j : Journal} {pattern : ℕ → CallOutcome}

/-! ## The calls -/

/-- Only the blocks they are about change. -/
theorem installAll_untouched {ws : List (UInt64 × Block)} {b : UInt64} (h : ∀ w ∈ ws, w.1 ≠ b)
    (s : Disk × ℕ) : (installAll pattern ws s).2.1.view b = s.1.view b := by
  induction ws generalizing s with
  | nil => rfl
  | cons w ws ih =>
      have hw : ∀ data, (s.1.write w.1 data).view b = s.1.view b := by
        intro data
        rw [view_write, Function.update_of_ne (h w List.mem_cons_self).symm]
      unfold installAll
      cases pattern s.2 with
      | installed =>
          change (installAll pattern ws (s.1.write w.1 w.2, s.2 + 1)).2.1.view b = _
          rw [ih fun u hu => h u (List.mem_cons_of_mem w hu)]
          exact hw w.2
      | failed e left =>
          cases left with
          | none => rfl
          | some left => exact hw left

theorem installAll_done (hdone : ∀ n, pattern n = .installed) (ws : List (UInt64 × Block)) (c : Disk) (n : ℕ) :
    installAll pattern ws (c, n) = (.ok (), (c.writes ws, n + ws.length)) := by
  induction ws generalizing c n with
  | nil => rw [installAll, writes_nil]; rfl
  | cons w ws ih =>
      rw [installAll, hdone]
      change installAll pattern ws (c.write w.1 w.2, n + 1) = _
      rw [ih, write_writes, List.length_cons, Nat.add_assoc, Nat.add_comm 1]

theorem installAll_failed {ws : List (UInt64 × Block)} {k n : ℕ} {e : Errno} {left : Option Block}
    (hk : k < ws.length) (hbefore : ∀ i < k, pattern (n + i) = .installed)
    (hfail : pattern (n + k) = .failed e left) (c : Disk) : (installAll pattern ws (c, n)).1 = .error e := by
  induction ws generalizing k n c with
  | nil => cases hk
  | cons w ws ih =>
      unfold installAll
      cases k with
      | zero =>
          rw [show pattern (c, n).2 = .failed e left from hfail]
          cases left <;> rfl
      | succ k =>
          rw [show pattern (c, n).2 = .installed from hbefore 0 (Nat.succ_pos k)]
          refine ih (Nat.lt_of_succ_lt_succ hk) (fun i hi => ?_) ?_ _
          · rw [Nat.add_assoc, Nat.add_comm 1]
            exact hbefore (i + 1) (by omega)
          · rw [Nat.add_assoc, Nat.add_comm 1]
            exact hfail

/-! ## The programs -/

@[simp] theorem run_liftM_installing {α : Type} (p : DevM α) (s : Disk × ℕ) :
    run (installing pattern) (liftM p : RecoverM α) s =
      ((run faultless p s.1).1, ((run faultless p s.1).2, s.2)) := by
  change run (installing pattern) p.inl s = _
  induction p generalizing s with
  | ret a => rfl
  | op o k ih => exact ih _ _

/-- Replay makes its calls in order and reads the log as it was at the start. -/
theorem run_replay_installing (hj : j.Placed) (revokes : List RevokeEntry) {copies : List LoggedCopy}
    {s : Disk × ℕ} (hhome : ∀ w ∈ installs (logView j s.1.view) revokes copies, Home j w.1) :
    run (installing pattern) (replay j revokes copies) s =
      installAll pattern (installs (logView j s.1.view) revokes copies) s := by
  induction copies generalizing s with
  | nil => rfl
  | cons t ts ih =>
      rw [replay]
      by_cases hr : isRevoked revokes t.targetBlock t.sequence = true
      · rw [installs_cons_revoked hr] at hhome ⊢
        rw [if_pos hr]
        exact ih hhome
      · rw [installs_cons_live hr] at hhome ⊢
        rw [if_neg hr, run_bind, run_liftM_installing, run_readLogical _ hj]
        change run (installing pattern) (install t.targetBlock (logView j s.1.view t.offset) >>= _) s = _
        rw [run_bind, installAll]
        change run (installing pattern) _ (installing pattern (.inr (.install _ _)) s).2 = _
        have hfirst : Home j t.targetBlock := hhome _ List.mem_cons_self
        have hview : logView j (s.1.write t.targetBlock (logView j s.1.view t.offset)).view = logView j s.1.view := by
          rw [view_write]
          have hwrites : ∀ w ∈ [(t.targetBlock, logView j s.1.view t.offset)], Home j w.1 :=
            List.forall_mem_singleton.mpr hfirst
          exact logView_applyWrites_home hj hwrites
        simp only [run, install, installing]
        cases pattern s.2 with
        | installed =>
            have hrest := ih (s := (s.1.write t.targetBlock (logView j s.1.view t.offset), s.2 + 1)) (by
              rw [hview]
              exact fun w hw => hhome w (List.mem_cons_of_mem _ hw))
            rw [hview] at hrest
            exact hrest
        | failed e left => cases left <;> rfl

/-- Recovery: the scan, the calls, and after the last of them the superblock of an empty log. -/
theorem run_recover_installing (hj : j.Placed) {c : Disk} (hmagic : (jsuperOf c.view).magic = journalMagic)
    (hhome : ∀ w ∈ installsOf j c.view, Home j w.1) (n : ℕ) :
    run (installing pattern) (journalRecover j) (c, n) =
      match installAll pattern (installsOf j c.view) (c, n) with
      | (.error e, s) => ((.error e, j), s)
      | (.ok (), s) => ((.ok (), recoveredJournal j c.view),
          (if (jsuperOf c.view).start = journalEmpty then s.1
            else (s.1.write jsuperBlockno (jsuperEncode j journalEmpty 0)).flush, s.2)) := by
  have hread : JournalSuper.decode (c.view jsuperBlockno) = jsuperOf c.view := rfl
  rw [journalRecover, run_bind, run_liftM_installing, run_bdevRead c (jsuper_lt hj)]
  simp only [hread, hmagic, ne_eq, not_true, if_false, run_ite, Prog.pure_eq, run_ret]
  by_cases hempty : (jsuperOf c.view).start = journalEmpty
  · simp [hempty, recoveredJournal, installsOf, foundByRecover, installs, loggedCopies, installAll]
  · rw [if_neg hempty, run_bind, run_liftM_installing, run_scanPass hj]
    have hfound : foundByRecover j c.view = scanPassAt j (jsuperOf c.view) c.view := if_neg hempty
    rw [installsOf, hfound] at hhome ⊢
    rw [run_bind, run_replay_installing hj _ hhome, recoveredJournal, if_neg hempty, hfound]
    simp only
    generalize installAll pattern _ (c, n) = out
    obtain ⟨r, s⟩ := out
    cases r with
    | error e => rfl
    | ok u =>
        have hj' : Journal.Placed { j with
            head := (scanPassAt j (jsuperOf c.view) c.view).scan
            tail := (scanPassAt j (jsuperOf c.view) c.view).scan
            nextSequence := (scanPassAt j (jsuperOf c.view) c.view).lastValidSeq + 1 } :=
          ⟨hj.maxlen_pos, hj.fits, hj.after_jsuper⟩
        simp only [run_bind, run_liftM_installing, run_jsuperWrite _ hj', run_ret, if_neg hempty]
        rfl

/-! ## Calls of recovery that fail -/

/-- The journal's own blocks are as they were. -/
def SameLog (j : Journal) (img img' : Image) : Prop :=
  img' jsuperBlockno = img jsuperBlockno ∧ ∀ b, InRegion j b → img' b = img b

theorem SameLog.logView {img img' : Image} (hj : j.Placed) (h : SameLog j img img') :
    logView j img' = logView j img :=
  funext fun off => h.2 _ (inRegion_physOf hj off)

theorem SameLog.found {img img' : Image} (hj : j.Placed) (h : SameLog j img img') :
    jsuperOf img' = jsuperOf img ∧ foundByRecover j img' = foundByRecover j img ∧
      installsOf j img' = installsOf j img ∧ recoveredJournal j img' = recoveredJournal j img := by
  have hsuper : jsuperOf img' = jsuperOf img := congrArg JournalSuper.decode h.1
  have hfound : foundByRecover j img' = foundByRecover j img := by
    rw [foundByRecover, foundByRecover, hsuper, scanPassAt, scanPassAt, h.logView hj]
  refine ⟨hsuper, hfound, ?_, ?_⟩
  · rw [installsOf, installsOf, hfound, h.logView hj]
  · rw [recoveredJournal, recoveredJournal, hsuper, hfound]

/-- The device after some calls of recovery in each of which the callback failed at some call. -/
inductive AfterFailures (j : Journal) (c : Disk) : Disk → Prop
  | none : AfterFailures j c c
  | again {d : Disk} {pattern : ℕ → CallOutcome} {k : ℕ} {e : Errno} {left : Option Block}
      (before : AfterFailures j c d) (hk : k < (installsOf j d.view).length)
      (hfirst : ∀ i < k, pattern i = .installed) (hfail : pattern k = .failed e left) :
      AfterFailures j c (run (installing pattern) (journalRecover j) (d, 0)).2.1

section Failing
variable (hj : j.Placed) {c d : Disk} (hmagic : (jsuperOf c.view).magic = journalMagic)
  (hhome : ∀ w ∈ installsOf j c.view, Home j w.1)
include hj hmagic hhome

/-- It returns the callback's error and changes neither the journal nor its blocks, but at most
home blocks it has a copy for. -/
theorem run_recover_failing {k : ℕ} {e : Errno} {left : Option Block} (hk : k < (installsOf j c.view).length)
    (hfirst : ∀ i < k, pattern i = .installed) (hfail : pattern k = .failed e left) :
    (run (installing pattern) (journalRecover j) (c, 0)).1 = (.error e, j) ∧
      ∀ b, (∀ w ∈ installsOf j c.view, w.1 ≠ b) →
        (run (installing pattern) (journalRecover j) (c, 0)).2.1.view b = c.view b := by
  have hout : (installAll pattern (installsOf j c.view) (c, 0)).1 = .error e := installAll_failed hk
    (fun i hi => by rw [Nat.zero_add]; exact hfirst i hi) (by rw [Nat.zero_add]; exact hfail) c
  have hrest : ∀ b, (∀ w ∈ installsOf j c.view, w.1 ≠ b) →
      (installAll pattern (installsOf j c.view) (c, 0)).2.1.view b = c.view b :=
    fun b hb => installAll_untouched hb (c, 0)
  rw [run_recover_installing hj hmagic hhome]
  generalize installAll pattern (installsOf j c.view) (c, 0) = out at hout hrest ⊢
  obtain ⟨r, s⟩ := out
  obtain rfl : r = .error e := hout
  exact ⟨rfl, hrest⟩

/-- Any number of them leaves the log and all blocks it has no copy for. -/
theorem AfterFailures.kept (h : AfterFailures j c d) : SameLog j c.view d.view ∧
    ∀ b, (∀ w ∈ installsOf j c.view, w.1 ≠ b) → d.view b = c.view b := by
  induction h with
  | none => exact ⟨⟨rfl, fun _ _ => rfl⟩, fun _ _ => rfl⟩
  | @again d pattern k e left before hk hfirst hfail ih =>
      obtain ⟨hsame, hrest⟩ := ih
      obtain ⟨hsuper, -, hinstalls, -⟩ := hsame.found hj
      have hnext := (run_recover_failing (c := d) hj (by rwa [hsuper]) (by rwa [hinstalls]) hk hfirst hfail).2
      rw [hinstalls] at hnext
      have hall : ∀ b, (∀ w ∈ installsOf j c.view, w.1 ≠ b) →
          (run (installing pattern) (journalRecover j) (d, 0)).2.1.view b = c.view b :=
        fun b hb => (hnext b hb).trans (hrest b hb)
      refine ⟨⟨hall _ fun w hw => (hhome w hw).1, fun b hb => hall b fun w hw he => ?_⟩, hall⟩
      exact (hhome w hw).2 (he ▸ hb)

/-- After any number of calls that failed, at whatever call of the callback: a further one that
fails returns the callback's error and leaves the journal, its superblock and its region alone; one
whose calls all succeed returns what the uninterrupted recovery returns and leaves the same home
blocks. -/
theorem recover_retried (hafter : AfterFailures j c d) :
    (∀ (pattern : ℕ → CallOutcome) (k : ℕ) (e : Errno) (left : Option Block),
      k < (installsOf j d.view).length → (∀ i < k, pattern i = .installed) → pattern k = .failed e left →
        (run (installing pattern) (journalRecover j) (d, 0)).1 = (.error e, j) ∧
          SameLog j c.view (run (installing pattern) (journalRecover j) (d, 0)).2.1.view) ∧
    ∀ (pattern : ℕ → CallOutcome), (∀ n, pattern n = .installed) →
      (run (installing pattern) (journalRecover j) (d, 0)).1 = (.ok (), recoveredJournal j c.view) ∧
        (run (installing pattern) (journalRecover j) (c, 0)).1 = (.ok (), recoveredJournal j c.view) ∧
        ∀ b, Home j b → (run (installing pattern) (journalRecover j) (d, 0)).2.1.view b =
          (run (installing pattern) (journalRecover j) (c, 0)).2.1.view b := by
  obtain ⟨hsame, hrest⟩ := hafter.kept hj hmagic hhome
  obtain ⟨hsuper, -, hinstalls, hjournal⟩ := hsame.found hj
  have hmagic' : (jsuperOf d.view).magic = journalMagic := by rwa [hsuper]
  have hhome' : ∀ w ∈ installsOf j d.view, Home j w.1 := by rwa [hinstalls]
  refine ⟨fun pattern k e left hk hfirst hfail => ?_, fun pattern hdone => ?_⟩
  · exact ⟨(run_recover_failing hj hmagic' hhome' hk hfirst hfail).1,
      ((hafter.again hk hfirst hfail).kept hj hmagic hhome).1⟩
  · -- what the failed calls have written is among what is written again
    have hconverge : applyWrites d.view (installsOf j c.view) = applyWrites c.view (installsOf j c.view) := by
      funext b
      apply applyWrites_congr
      by_cases hb : ∃ w ∈ installsOf j c.view, w.1 = b
      · exact .inl hb
      · exact .inr (hrest b fun w hw he => hb ⟨w, hw, he⟩)
    rw [run_recover_installing hj hmagic' hhome', run_recover_installing hj hmagic hhome, hinstalls, hsuper,
      hjournal, installAll_done hdone, installAll_done hdone]
    refine ⟨rfl, rfl, fun b hb => ?_⟩
    simp only
    split
    · rw [view_writes, view_writes, hconverge]
    · simp only [Cache.flush, view_write, view_writes, view_settled]
      rw [Function.update_of_ne hb.1, Function.update_of_ne hb.1, hconverge]

end Failing

/-- A pattern whose first call leaves the block half written and returns an error. -/
def failsOnce : ℕ → CallOutcome
  | 0 => .failed .eio (some (Function.update zeroBlock 0 1))
  | _ + 1 => .installed

/-- The one block of a log, left half written by one call of recovery and installed by the next. -/
theorem recover_retried_oneBlock :
    (run (installing fun _ => .installed) (journalRecover smallJournal)
      ((run (installing failsOnce) (journalRecover smallJournal)
        (settled (oneBlockLog zeroBlock), 0)).2.1, 0)).2.1.view 20 =
    (run (installing fun _ => .installed) (journalRecover smallJournal)
      (settled (oneBlockLog zeroBlock), 0)).2.1.view 20 := by
  obtain ⟨hj, hmagic, -, hinstalls, -⟩ := oneBlockLog_spec zeroBlock
    (by simp [IsRecord, descMagic, commitMagic, revokeMagic])
  rw [← view_settled (oneBlockLog zeroBlock)] at hmagic hinstalls
  have hhome : ∀ w ∈ installsOf smallJournal (settled (oneBlockLog zeroBlock)).view, Home smallJournal w.1 := by
    rw [hinstalls, List.forall_mem_singleton]
    decide
  have hfailed : AfterFailures smallJournal (settled (oneBlockLog zeroBlock))
      (run (installing failsOnce) (journalRecover smallJournal) (settled (oneBlockLog zeroBlock), 0)).2.1 :=
    .again (k := 0) .none (by rw [hinstalls]; decide) (fun i hi => absurd hi (Nat.not_lt_zero i)) rfl
  exact ((recover_retried hj hmagic hhome hfailed).2 _ fun _ => rfl).2.2 20 (by decide)

end Logfs
