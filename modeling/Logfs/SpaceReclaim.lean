import Logfs.LogInStep
import Logfs.Lib.FifoEviction

/-!
# Room for the next transaction

Between tail and head lie the transactions of the checkpoint list and nothing else, after
any calls and any number of laps. So the loop of `do_commit` ends with room for every
generation the empty region has room for, and checkpoints no transaction too many.
-/
namespace Logfs
open Interaction WriteCache Transition FifoEviction

/-! ## What lies between tail and head -/

/-- The thread does not go on to write a block the device does not have. -/
def Core.WritesInside (c : Core) : Prop :=
  match c.pc with
  | .writeHome _ _ (n :: _) _ => n.blockno < c.mgr.dev.nblocks
  | _ => True

/-- No step of the run is an operation that fails. -/
def noIoError (s : Pipe) (_ : PipeAction) : Prop := s.toCore.WritesInside

instance (c : Core) : Decidable c.WritesInside := by
  unfold Core.WritesInside
  split <;> infer_instance

instance (s : Pipe) (a : PipeAction) : Decidable (noIoError s a) := inferInstanceAs (Decidable s.toCore.WritesInside)

/-- Which transactions the log consists of; a generation on its way may be of any size. -/
def SpaceAt (j₀ : Journal) (m : TxnMgr) : Disk → Pc → Prop
  | _, .top j | _, .frozen j | _, .orderedFlush j _ | _, .emptyCycle j | _, .reclaim j _
  | _, .unlink j _ | _, .lag j | _, .exited j => LogAt j₀ m j m.ckpt
  | _, .writeHome j t _ _ | _, .nextTail j t _ => LogAt j₀ m j (t :: m.ckpt)
  | d, .advance p t _ =>
      ∃ j d₀, LogAt j₀ m j (t :: m.ckpt) ∧
        Reaches faultless (journalAdvanceTail j (newTail m j).1 (newTail m j).2, d₀) (p, d)
  | d, .commit p nodes =>
      ∃ j d₀, LogAt j₀ m j m.ckpt ∧ Reaches faultless (journalCommit j (pendingBlocks nodes) [], d₀) (p, d)
  | _, .link j nodes rc => LogAt j₀ m j (finishCommit m j nodes rc).ckpt

section Accounting
variable {j₀ j : Journal} {m : TxnMgr} {d : Disk} {c c' : Core} {nodes : List DirtyBlock}

/-- A commit either has room and succeeds, or fails and leaves the journal as it is. -/
theorem journalCommit_outcome (hj : j.Placed) (nodes : List DirtyBlock) (d : Disk) :
    (j.HasRoom (txnOf nodes) ∧ (run faultless (journalCommit j (pendingBlocks nodes) []) d).1 =
        (.ok (j.nextSequence, j.head), committed j (txnOf nodes))) ∨
      ∃ e, (run faultless (journalCommit j (pendingBlocks nodes) []) d).1 = (.error e, j) := by
  have hcall : journalCommit j (pendingBlocks nodes) [] =
      journalCommit j (txnOf nodes).data (txnOf nodes).revoke := rfl
  rw [hcall]
  by_cases hfits : (txnOf nodes).Fits
  · by_cases hroom : j.HasRoom (txnOf nodes)
    · rw [run_journalCommit hj hfits hroom]
      exact .inl ⟨hroom, rfl⟩
    · rw [journalCommit_of_no_room hfits hroom]
      exact .inr ⟨_, rfl⟩
  · rw [journalCommit_of_not_fits hfits]
    exact .inr ⟨_, rfl⟩

theorem spaceAt_resume (h : LogAt j₀ m j m.ckpt) (d : Disk) (done : Bool) (caller : Caller) :
    SpaceAt j₀ m d (resume j done caller) := by
  cases caller with
  | reclaim nodes =>
      cases done with
      | true => exact h
      | false => exact ⟨j, d, h, .refl⟩
  | lag | drain => cases done <;> exact h

theorem spaceAt_afterFreeze (h : LogAt j₀ m j m.ckpt) (d : Disk) (nodes : List DirtyBlock) :
    SpaceAt j₀ m d (afterFreeze j nodes) := by
  unfold afterFreeze
  split <;> exact h

/-- Every step of the thread that does not fail keeps the account. -/
theorem SpaceAt.step (h₀ : j₀.Placed) (hstep : ThreadStep c c') (hin : c.WritesInside)
    (h : SpaceAt j₀ c.mgr c.disk c.pc) : SpaceAt j₀ c'.mgr c'.disk c'.pc := by
  cases hstep with
  | freeze => exact h.of_mgr rfl
  | @take m d pc j ends up =>
      have hlog : LogAt j₀ m j m.ckpt := by
        rcases up with ⟨rfl, -⟩ | rfl <;> exact h
      have hkept : LogAt j₀ (takeGeneration m).2 j (takeGeneration m).2.ckpt := by
        rw [takeGeneration_snd]
        exact hlog.of_mgr rfl
      simp only [endFreeze]
      split
      · exact hkept
      · exact spaceAt_afterFreeze hkept _ _
  | orderedFlush => exact spaceAt_afterFreeze h _ _
  | emptyCycle => exact h.of_mgr rfl
  | space => exact ⟨_, _, h, .refl⟩
  | unlinkNone => exact spaceAt_resume h _ _ _
  | unlink oldest =>
      have hlog : LogAt j₀ _ _ _ := h
      rw [oldest] at hlog
      exact hlog.of_mgr rfl
  | writeHomeError beyond => exact absurd hin beyond
  | nextTail => exact ⟨_, _, h, .refl⟩
  | advance op =>
      obtain ⟨j, d₀, hlog, hreach⟩ := h
      exact ⟨j, d₀, hlog, hreach.tail op⟩
  | @advanced m d rc j' t caller =>
      obtain ⟨j, d₀, hlog, hreach⟩ := h
      have hrun := reaches_run_eq faultless hreach
      rw [run_journalAdvanceTail (hlog.placed h₀)] at hrun
      simp only [run_ret, Prod.mk.injEq] at hrun
      obtain ⟨⟨rfl, rfl⟩, -⟩ := hrun
      have hnext : LogAt j₀ m { j with tail := (newTail m j).1 } m.ckpt :=
        { hlog with chain := hlog.chain.advance }
      exact spaceAt_resume hnext _ _ _
  | commit op =>
      obtain ⟨j, d₀, hlog, hreach⟩ := h
      exact ⟨j, d₀, hlog, hreach.tail op⟩
  | @committed m d rc j' nodes =>
      obtain ⟨j, d₀, hlog, hreach⟩ := h
      have hrun := congrArg Prod.fst (reaches_run_eq faultless hreach)
      rcases journalCommit_outcome (hlog.placed h₀) nodes d₀ with ⟨hroom, hout⟩ | ⟨e, hout⟩
      · rw [hout] at hrun
        obtain ⟨rfl, rfl⟩ := Prod.mk.inj hrun
        exact { hlog with chain := hlog.chain.commit hroom }
      · rw [hout] at hrun
        obtain ⟨rfl, rfl⟩ := Prod.mk.inj hrun
        exact hlog
  | link =>
      have hlog : LogAt j₀ _ _ _ := h
      exact hlog.of_mgr rfl
  | _ => exact h

theorem SpaceAt.returned {pc : Pc} (h : SpaceAt j₀ m d pc) (hj : pc.returned = some j) :
    LogAt j₀ m j m.ckpt := by
  cases pc with
  | top j' | lag j' =>
      obtain rfl : j' = j := by simpa [Pc.returned] using hj
      exact h
  | _ => simp [Pc.returned] at hj

/-- In every run without a failing operation, from a recovered journal on. -/
theorem spaceAt_run {img : Image} (h : FreshlyRecovered j img) {mode : DataMode} {s : Pipe}
    (hrun : Run Pipe.step noIoError (Pipe.boot j img mode) s) :
    j.Placed ∧ SpaceAt j s.mgr s.disk s.pc := by
  obtain ⟨j₀, c, h₀, hrecover⟩ := h
  obtain ⟨hregion, htail, -, -⟩ := recovered_empty h₀ hrecover
  have hj := hregion.placed h₀
  refine ⟨hj, hrun.invariant (I := fun s => SpaceAt j s.mgr s.disk s.pc) ?_ ?_⟩
  · exact ⟨rfl, rfl, rfl, rfl, ⟨j.nextSequence, htail, rfl⟩, Nat.zero_le _⟩
  · intro s t a hin hstep hat
    cases Pipe.step_sound hstep with
    | @call f j' hret =>
        have hlog := hat.returned hret
        cases f <;> exact hlog
    | thread _ hnow => exact hat.step hj hnow hin

end Accounting

/-! ## The loop of `do_commit` -/

/-- The journal once `rest` is all that remains of the log. -/
def leaving (j : Journal) (rest : List CommittedTxn) : Journal := { j with tail := (tailAt j rest).1 }

/-- `rest` leaves `n + 2` blocks free, and no more of the log would. -/
structure Reclaimed (j : Journal) (n : ℕ) (evicted rest : List CommittedTxn) : Prop where
  room : n + 2 ≤ (journalFreeSpace (leaving j rest)).toNat
  needed : ∀ us vs, evicted = us ++ vs → vs ≠ [] →
    (journalFreeSpace (leaving j (vs ++ rest))).toNat < n + 2

/-- From `s`, with journal `j`, the call of `do_commit` has returned in `s'`: it evicted the oldest
transactions as far as necessary and `logfs_journal_commit` returned 0. -/
def DoneCommit (s : Pipe) (j : Journal) (nodes : List DirtyBlock) (s' : Pipe) : Prop :=
  ∃ evicted rest, s.mgr.ckpt = evicted ++ rest ∧ Reclaimed j nodes.length evicted rest ∧
    s'.pc = .lag (committed (leaving j rest) (txnOf nodes)) ∧
    s'.mgr.ckpt = rest ++ [⟨j.nextSequence, j.head, nodes⟩] ∧ s'.logged = s.logged ++ [nodes]

/-- The thread goes on, and none of its operations fails. -/
def threadWithoutError (s : Pipe) (a : PipeAction) : Prop := a = .thread ∧ noIoError s a

section Loop
variable {j₀ j : Journal} {m : TxnMgr} {d : Disk} {s : Pipe} {nodes : List DirtyBlock}
  {log us ts : List CommittedTxn} {t : CommittedTxn} {Q : Pipe → Prop}

theorem leaving_leaving (j : Journal) (us vs : List CommittedTxn) :
    leaving (leaving j us) vs = leaving j vs := by
  cases vs <;> rfl

theorem LogAt.leaving_self (h : LogAt j₀ m j log) : leaving j log = j := by
  obtain ⟨seq, hlinks⟩ := h.chain.links
  rw [leaving, hlinks.tailAt]

theorem LogAt.unlink (h : LogAt j₀ m j (t :: ts)) : LogAt j₀ m (leaving j ts) ts :=
  { h with chain := Chain.advance (m := { m with ckpt := ts }) h.chain }

theorem LogAt.drop (h : LogAt j₀ m j (us ++ ts)) : LogAt j₀ m (leaving j ts) ts := by
  induction us generalizing j with
  | nil =>
      have hself := h.leaving_self
      rw [List.nil_append] at h hself
      rwa [hself]
  | cons u us ih =>
      have hrest := ih h.unlink
      rwa [leaving_leaving] at hrest

theorem LogAt.space_iff (h : LogAt j₀ m j log) (hlen : nodes.length ≤ maxTagsPerDesc) :
    ¬ journalFreeSpace j < journalSpaceNeeded nodes.length 0 ↔
      ckptLen log + (nodes.length + 2) ≤ j₀.maxlen.toNat := by
  rw [space_iff_txnOf hlen, h.chain.hasRoom, h.maxlen]

theorem inevitable_step (pc : Pc) {c : Core} (hstep : threadStep ⟨m, d, pc⟩ = some c)
    (hbusy : pc.idle = false) (hnone : committing ⟨m, d, pc⟩ = none)
    (hnext : Inevitable Pipe.step threadWithoutError Q (s.goto c.mgr c.disk c.pc)) :
    Inevitable Pipe.step threadWithoutError Q (s.goto m d pc) :=
  .of_run (Pipe.threadRun_step pc hstep hbusy hnone) hnext fun _ _ _ ha hb => hb.1.trans ha.symm

theorem inevitable_writeHome (rest : List DirtyBlock) {caller : Caller} (d : Disk)
    (hnext : ∀ d, Inevitable Pipe.step threadWithoutError Q (s.goto m d (.writeHome j t [] caller))) :
    Inevitable Pipe.step threadWithoutError Q (s.goto m d (.writeHome j t rest caller)) := by
  induction rest generalizing d with
  | nil => exact hnext d
  | cons n rest ih =>
      by_cases hlt : n.blockno < m.dev.nblocks
      · have hwrite := run_bdevWrite d hlt n.data
        have hstep : threadStep ⟨m, d, .writeHome j t (n :: rest) caller⟩ =
            some ⟨m, d.write n.blockno n.data, .writeHome j t rest caller⟩ := by
          simp only [threadStep, hwrite]
        exact inevitable_step _ hstep rfl rfl (ih _)
      · -- the write fails, which the runs in question exclude
        have hfail : run faultless (bdevWrite m.dev n.blockno n.data).run d = (.error .einval, d) := by
          rw [bdevWrite, if_pos (UInt64.not_lt.mp hlt)]
          rfl
        have hstep : threadStep (s.goto m d (.writeHome j t (n :: rest) caller)).toCore =
            some ⟨m, d, resume j false caller⟩ := by
          simp only [Pipe.goto, threadStep, hfail]
        refine .later ⟨.thread, ?_⟩ fun a u ha _ => absurd ha.2 hlt
        rw [Pipe.step, if_neg (by simp [Pipe.goto, Pc.idle]), hstep]
        exact ⟨_, rfl⟩

/-- `checkpoint_oldest` returns with the oldest transaction off the list and out of the log. -/
theorem inevitable_checkpoint (h₀ : j₀.Placed) {caller : Caller} (holdest : m.ckpt = t :: ts)
    (hlog : LogAt j₀ m j (t :: ts)) (d : Disk)
    (hnext : ∀ d, Inevitable Pipe.step threadWithoutError Q
      (s.goto { m with ckpt := ts } d (resume (leaving j ts) true caller))) :
    Inevitable Pipe.step threadWithoutError Q (s.goto m d (.unlink j caller)) := by
  refine inevitable_step _ (Pipe.threadStep_unlink holdest) rfl rfl (inevitable_writeHome t.nodes d fun d => ?_)
  refine inevitable_step (.writeHome j t [] caller) rfl rfl rfl ?_
  refine inevitable_step (.nextTail j t caller) rfl rfl rfl ?_
  have hrun := Pipe.threadRun_advance caller (s := s) (m := { m with ckpt := ts }) (t := t)
    (d := d.flush) (journalAdvanceTail j (newTail { m with ckpt := ts } j).1
      (newTail { m with ckpt := ts } j).2)
  rw [run_journalAdvanceTail (hlog.placed h₀)] at hrun
  refine .of_run hrun ?_ fun _ _ _ ha hb => hb.1.trans ha.symm
  exact inevitable_step (.advance (.ret (_, _)) t caller) rfl rfl rfl (hnext _)

/-- What remains of the list. -/
def keptFor (j : Journal) (nodes : List DirtyBlock) (log : List CommittedTxn) : List CommittedTxn :=
  makeRoom (fun t => t.nodes.length + 2) j.maxlen.toNat (nodes.length + 2) log

theorem inevitable_reclaim (h₀ : j₀.Placed) (hfits : FitsJournal j₀ nodes) (holds : m.ckpt = log)
    (hlog : LogAt j₀ m j log) (d : Disk)
    (hnext : ∀ d, Inevitable Pipe.step threadWithoutError Q
      (s.goto { m with ckpt := keptFor j₀ nodes log } d
        (.commit (journalCommit (leaving j (keptFor j₀ nodes log)) (pendingBlocks nodes) []) nodes))) :
    Inevitable Pipe.step threadWithoutError Q (s.goto m d (.reclaim j nodes)) := by
  induction log generalizing m j d with
  | nil =>
      have hspace := (hlog.space_iff hfits.1).mpr (by simpa using hfits.2)
      have hdone := hnext d
      rw [keptFor, makeRoom, hlog.leaving_self, ← holds] at hdone
      exact inevitable_step _ (Pipe.threadStep_space hspace) rfl rfl hdone
  | cons t ts ih =>
      by_cases hroom : ckptLen (t :: ts) + (nodes.length + 2) ≤ j₀.maxlen.toNat
      · have hspace := (hlog.space_iff hfits.1).mpr hroom
        have hdone := hnext d
        rw [keptFor, makeRoom_of_fits hroom, hlog.leaving_self, ← holds] at hdone
        exact inevitable_step _ (Pipe.threadStep_space hspace) rfl rfl hdone
      · have hspace := not_not.mp (mt (hlog.space_iff hfits.1).mp hroom)
        refine inevitable_step _ (Pipe.threadStep_noSpace hspace) rfl rfl
          (inevitable_checkpoint h₀ holds hlog d fun d => ?_)
        rw [keptFor, makeRoom_of_full hroom, ← keptFor] at hnext
        refine ih (m := { m with ckpt := ts }) rfl (hlog.unlink.of_mgr rfl) d ?_
        rw [leaving_leaving]
        exact hnext

theorem LogAt.freeSpace_leaving (h : LogAt j₀ m j (us ++ ts)) :
    (journalFreeSpace (leaving j ts)).toNat = j₀.maxlen.toNat - ckptLen ts := by
  rw [h.drop.chain.freeSpace, h.drop.maxlen]

/-- The loop evicts as far as necessary. -/
theorem reclaimed_keptFor (hlog : LogAt j₀ m j log) (hfits : FitsJournal j₀ nodes) :
    ∃ evicted, log = evicted ++ keptFor j₀ nodes log ∧
      Reclaimed j nodes.length evicted (keptFor j₀ nodes log) := by
  obtain ⟨evicted, hsplit⟩ : keptFor j₀ nodes log <:+ log := makeRoom_suffix log
  refine ⟨evicted, hsplit.symm, ?_, ?_⟩
  · have hroom : ckptLen (keptFor j₀ nodes log) + (nodes.length + 2) ≤ j₀.maxlen.toNat :=
      used_makeRoom hfits.2 log
    rw [← hsplit] at hlog
    rw [hlog.freeSpace_leaving]
    omega
  · rintro us vs rfl hne
    have hfull : j₀.maxlen.toNat < ckptLen (vs ++ keptFor j₀ nodes log) + (nodes.length + 2) :=
      full_of_kept hsplit.symm hne
    rw [← hsplit, List.append_assoc] at hlog
    rw [hlog.freeSpace_leaving]
    omega

/-- `logfs_journal_commit` finds the room it needs and `do_commit` links the transaction. -/
theorem inevitable_commit {rest : List CommittedTxn} (h₀ : j₀.Placed) (hlog : LogAt j₀ m j rest)
    (hlen : nodes.length ≤ maxTagsPerDesc) (hroom : j.HasRoom (txnOf nodes)) (d : Disk)
    (hdone : ∀ d, Q { s with
      mgr := finishCommit m (committed j (txnOf nodes)) nodes (.ok (j.nextSequence, j.head))
      disk := d
      pc := .lag (committed j (txnOf nodes))
      logged := s.logged ++ [nodes] }) :
    Inevitable Pipe.step threadWithoutError Q
      (s.goto m d (.commit (journalCommit j (pendingBlocks nodes) []) nodes)) := by
  have hrun := Pipe.threadRun_commit (s := s) (m := m) (d := d) nodes
    (journalCommit j (pendingBlocks nodes) [])
  have hcommit := run_journalCommit (hlog.placed h₀) (txnOf_fits hlen) hroom d
  rw [show journalCommit j (pendingBlocks nodes) [] = journalCommit j (txnOf nodes).data (txnOf nodes).revoke
    from rfl, hcommit] at hrun
  refine .of_run hrun ?_ fun _ _ _ ha hb => hb.1.trans ha.symm
  refine .later ⟨.thread, _, rfl⟩ fun a u ha hu => ?_
  obtain rfl := ha.1
  obtain rfl := Option.some.inj hu
  refine .later ⟨.thread, _, rfl⟩ fun a u ha hu => ?_
  obtain rfl := ha.1
  obtain rfl := Option.some.inj hu
  refine .now ?_
  have hlast := hdone (settled (commitImage j (txnOf nodes) d.view))
  simpa [committing, Pipe.goto] using hlast

end Loop

/-- The first transaction fills a region of three blocks. -/
theorem run_short_full : ∃ (s : Pipe) (j : Journal),
    Run Pipe.step noIoError (Pipe.boot shortJournal shortImage .ordered) s ∧ s.pc.returned = some j ∧
      s.mgr.ckpt.length = 1 ∧ journalFreeSpace j = 0 := by
  obtain ⟨s, hrun, hend⟩ := exists_run_of_exec Pipe.step noIoError (Pipe.boot shortJournal shortImage .ordered)
    (.call (.doCommit [⟨20, zeroBlock⟩]) :: List.replicate 10 .thread)
    (fun s => s.pc.returned.any fun j => decide (s.mgr.ckpt.length = 1 ∧ journalFreeSpace j = 0)) (by decide +kernel)
  obtain ⟨j, hret, hfull⟩ := (Option.any_eq_true _ _).mp hend
  exact ⟨s, j, hrun, hret, of_decide_eq_true hfull⟩

end Logfs
