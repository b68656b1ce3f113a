import Logfs.Fs
import Logfs.LiveLog

/-!
# Crashes during recovery

The recovery of `logfs_fs_mount`, cut at any point and run again. Replay issues its
home writes and the journal superblock's write without a flush in between, so the
log can be marked empty before what it held is home.
-/
namespace Logfs
open Interaction WriteCache ByteBuffer

variable {j : Journal}

/-- Writes home leave the log's content and its superblock alone. -/
theorem logView_applyWrites_home (hj : j.Placed) {img : Image} {ws : List (UInt64 × Block)}
    (hws : ∀ w ∈ ws, Home j w.1) : logView j (applyWrites img ws) = logView j img := by
  funext off
  apply applyWrites_of_untouched
  intro w hw he
  exact (hws w hw).2 (he ▸ inRegion_physOf hj off)

/-! ## Replay with the callback of the mount -/

/-- The install calls write home blocks of the device. -/
def InstallsHome (j : Journal) (ws : List (UInt64 × Block)) : Prop :=
  ∀ w ∈ ws, Home j w.1 ∧ w.1 < j.dev.nblocks

theorem installs_cons_revoked {rd : UInt64 → Block} {revokes : List RevokeEntry} {t : LoggedCopy}
    {ts : List LoggedCopy} (h : isRevoked revokes t.targetBlock t.sequence = true) :
    installs rd revokes (t :: ts) = installs rd revokes ts := by
  simp [installs, h]

theorem installs_cons_live {rd : UInt64 → Block} {revokes : List RevokeEntry} {t : LoggedCopy}
    {ts : List LoggedCopy} (h : ¬ isRevoked revokes t.targetBlock t.sequence = true) :
    installs rd revokes (t :: ts) =
      (t.targetBlock, rd t.offset) :: installs rd revokes ts := by
  simp [installs, h]

/-- Pass 2 with the callback of the mount, as one program over the device. -/
theorem answer_replay_cons (revokes : List RevokeEntry) (t : LoggedCopy) (ts : List LoggedCopy) :
    (replay j revokes (t :: ts)).answer (recoverInstall j.dev) =
      if isRevoked revokes t.targetBlock t.sequence then
        (replay j revokes ts).answer (recoverInstall j.dev)
      else (readLogical j t.offset).run >>= fun
        | .error _ => .ret (.error .eio)
        | .ok data => (bdevWrite j.dev t.targetBlock data).run >>= fun
          | .error e => .ret (.error e)
          | .ok () => (replay j revokes ts).answer (recoverInstall j.dev) := by
  rw [replay]
  split
  · rfl
  · change ((readLogical j t.offset).run.inl >>= _).answer _ = _
    rw [Prog.answer_bind, Prog.answer_inl]
    congr 1
    funext r
    cases r with
    | error e => rfl
    | ok data =>
        change (install t.targetBlock data >>= _).answer _ = _
        rw [Prog.answer_bind]
        change ((bdevWrite j.dev t.targetBlock data).run >>= Prog.ret) >>= _ = _
        rw [Prog.bind_ret]
        congr 1
        funext r
        cases r <;> rfl

/-- Replay writes its installs home in order and reads the log as it was at the start. -/
theorem meets_replay_home (hj : j.Placed) (revokes : List RevokeEntry) {copies : List LoggedCopy}
    {c : Disk} {C : Disk → Prop} {Q : Except Errno Unit → Disk → Prop}
    (hhome : InstallsHome j (installs (logView j c.view) revokes copies))
    (hC : ∀ us, us <+: installs (logView j c.view) revokes copies → C (c.writes us))
    (hQ : Q (.ok ()) (c.writes (installs (logView j c.view) revokes copies))) :
    Meets faultless C Q ((replay j revokes copies).answer (recoverInstall j.dev)) c := by
  induction copies generalizing c with
  | nil =>
      rw [show installs (logView j c.view) revokes [] = [] from rfl, writes_nil] at hQ
      exact .ret (by simpa using hC [] List.nil_prefix) hQ
  | cons t ts ih =>
      rw [answer_replay_cons]
      by_cases hr : isRevoked revokes t.targetBlock t.sequence = true
      · rw [installs_cons_revoked hr] at hhome hC hQ
        rw [if_pos hr]
        exact ih hhome hC hQ
      · rw [installs_cons_live hr] at hhome hC hQ
        rw [if_neg hr]
        obtain ⟨hfirst, hlt⟩ := hhome _ List.mem_cons_self
        have hstart : C c := by simpa using hC [] List.nil_prefix
        have hview : logView j (c.write t.targetBlock (logView j c.view t.offset)).view =
            logView j c.view := by
          rw [view_write]
          exact logView_applyWrites_home hj (List.forall_mem_singleton.mpr hfirst)
        rw [readLogical, bdevRead, if_neg (by simpa using physOf_lt hj t.offset)]
        refine .op hstart ?_
        change Meets faultless C Q
          ((bdevWrite j.dev t.targetBlock (logView j c.view t.offset)).run >>= _) c
        rw [bdevWrite, if_neg (by simpa using hlt)]
        refine .op hstart ?_
        change Meets faultless C Q ((replay j revokes ts).answer (recoverInstall j.dev))
          (c.write t.targetBlock (logView j c.view t.offset))
        refine ih ?_ ?_ ?_
        · rw [hview]
          exact fun w hw => hhome w (List.mem_cons_of_mem _ hw)
        · rw [hview]
          intro us hus
          rw [write_writes]
          exact hC _ ((List.prefix_cons_inj _).mpr hus)
        · rw [hview, write_writes]
          exact hQ

/-! ## The whole recovery -/

/-- The scan pass issues reads only. -/
theorem readOnly_bdevRead (dev : BlockDev) (b : UInt64) : ReadOnly (bdevRead dev b).run := by
  unfold bdevRead
  split
  · trivial
  · exact ⟨⟨b, rfl⟩, fun _ => trivial⟩

theorem readOnly_except_bind {α β : Type} {p : DevEM α} {f : α → DevEM β} (hp : ReadOnly p.run)
    (hf : ∀ a, ReadOnly (f a).run) : ReadOnly (p >>= f).run := by
  rw [ExceptT.run_bind]
  refine hp.bind fun r => ?_
  cases r with
  | error e => trivial
  | ok a => exact hf a

theorem readOnly_readBlocks (j : Journal) (cursor : UInt64) (n : ℕ) :
    ReadOnly (readBlocks j cursor n).run := by
  induction n generalizing cursor with
  | zero => trivial
  | succ n ih =>
      exact readOnly_except_bind (readOnly_bdevRead _ _) fun _ =>
        readOnly_except_bind (ih _) fun _ => trivial

theorem readOnly_scanTxn (j : Journal) (scan expectSeq : UInt64) :
    ReadOnly (scanTxn j scan expectSeq) := by
  refine (readOnly_bdevRead _ _).bind fun r => ?_
  cases r with
  | error e => trivial
  | ok desc =>
      refine ReadOnly.ite trivial ((readOnly_bdevRead _ _).bind fun peek => ?_)
      refine (readOnly_bdevRead _ _).bind fun commit => ?_
      cases commit with
      | error e => trivial
      | ok commit =>
          refine ReadOnly.ite trivial ((readOnly_readBlocks _ _ _).bind fun data => ?_)
          cases data with
          | error e => trivial
          | ok data => exact ReadOnly.ite trivial trivial

theorem readOnly_scanPass (j : Journal) (js : JournalSuper) : ReadOnly (scanPass j js) := by
  suffices h : ∀ fuel scan expect last, ReadOnly (scanLoop j fuel scan expect last) from h _ _ _ _
  intro fuel
  induction fuel with
  | zero => exact fun _ _ _ => trivial
  | succ fuel ih =>
      intro scan expect last
      refine (readOnly_scanTxn j scan expect).bind fun r => ?_
      cases r with
      | none => trivial
      | some s => exact (ih _ _ _).bind fun _ => trivial

/-- The state recovery leaves the journal in after replaying what the scan found. -/
def afterScan (j : Journal) (r : ScanResult) : Journal :=
  { j with head := r.scan, tail := r.scan, nextSequence := r.lastValidSeq + 1 }

theorem answer_recover : (journalRecover j).answer (recoverInstall j.dev) =
    (bdevRead j.dev jsuperBlockno).run >>= fun
      | .error e => .ret (.error e, j)
      | .ok block =>
        let js := JournalSuper.decode block
        if js.magic ≠ journalMagic then .ret (.error .einval, j)
        else if js.start = journalEmpty then
          .ret (.ok (), { j with head := 0, tail := 0, nextSequence := 1 })
        else scanPass j js >>= fun r =>
          (replay j r.revokes (loggedCopies r.txns)).answer (recoverInstall j.dev) >>= fun
            | .error e => .ret (.error e, j)
            | .ok () => (jsuperWrite (afterScan j r) journalEmpty 0).run >>= fun
              | .error e => .ret (.error e, afterScan j r)
              | .ok () => .ret (.ok (), afterScan j r) := by
  change ((bdevRead j.dev jsuperBlockno).run.inl >>= _).answer _ = _
  rw [Prog.answer_bind, Prog.answer_inl]
  congr 1
  funext block
  cases block with
  | error e => rfl
  | ok block =>
      dsimp only
      split
      · rfl
      · split
        · rfl
        · change ((scanPass j (JournalSuper.decode block)).inl >>= _).answer _ = _
          rw [Prog.answer_bind, Prog.answer_inl]
          congr 1
          funext r
          rw [Prog.answer_bind]
          congr 1
          funext x
          cases x with
          | error e => rfl
          | ok x =>
              change ((jsuperWrite (afterScan j r) journalEmpty 0).run.inl >>= _).answer _ = _
              rw [Prog.answer_bind, Prog.answer_inl]
              congr 1
              funext y
              cases y <;> rfl

/-- The disk once recovery has run to its end. -/
def recoveredDisk (j : Journal) (c : Disk) : Disk :=
  if (jsuperOf c.view).start = journalEmpty then c
  else ((c.writes (installsOf j c.view)).write jsuperBlockno (jsuperEncode j journalEmpty 0)).flush

/-- The states recovery passes through: some of the installs are written, then the
superblock as well, then everything is flushed. -/
theorem meets_recover_home (hj : j.Placed) {c : Disk} {C : Disk → Prop}
    {Q : Except Errno Unit × Journal → Disk → Prop}
    (hmagic : (jsuperOf c.view).magic = journalMagic)
    (hhome : InstallsHome j (installsOf j c.view))
    (hC : ∀ us, us <+: installsOf j c.view → C (c.writes us))
    (hsuper : (jsuperOf c.view).start ≠ journalEmpty →
      C ((c.writes (installsOf j c.view)).write jsuperBlockno (jsuperEncode j journalEmpty 0)))
    (hend : C (recoveredDisk j c))
    (hQ : Q (.ok (), recoveredJournal j c.view) (recoveredDisk j c)) :
    Meets faultless C Q ((journalRecover j).answer (recoverInstall j.dev)) c := by
  have hstart : C c := by simpa using hC [] List.nil_prefix
  have hdecode : JournalSuper.decode (c.view jsuperBlockno) = jsuperOf c.view := rfl
  have hread := congrArg Prod.fst (run_bdevRead c (jsuper_lt hj))
  by_cases hempty : (jsuperOf c.view).start = journalEmpty
  · rw [recoveredJournal, recoveredDisk, if_pos hempty, if_pos hempty] at hQ
    rw [answer_recover]
    refine (readOnly_bdevRead _ _).meets_bind hstart ?_
    simp only [hread, hdecode, hmagic, ne_eq, not_true, if_false, hempty, if_true]
    exact .ret hstart hQ
  · rw [recoveredJournal, recoveredDisk, if_neg hempty, if_neg hempty] at hQ
    rw [recoveredDisk, if_neg hempty] at hend
    have hfound : foundByRecover j c.view = scanPassAt j (jsuperOf c.view) c.view := if_neg hempty
    simp only [installsOf, hfound] at hhome hC hsuper hend hQ
    rw [answer_recover]
    refine (readOnly_bdevRead _ _).meets_bind hstart ?_
    simp only [hread, hdecode, hmagic, ne_eq, not_true, if_false, hempty]
    refine (readOnly_scanPass _ _).meets_bind hstart ?_
    rw [run_scanPass hj]
    refine Meets.bind (meets_replay_home hj _ hhome hC ?_)
    have hj' : (afterScan j (scanPassAt j (jsuperOf c.view) c.view)).Placed :=
      ⟨hj.maxlen_pos, hj.fits, hj.after_jsuper⟩
    dsimp only
    rw [jsuperWrite_ops hj']
    exact .op (hC _ (List.prefix_refl _)) (.op (hsuper hempty) (.ret hend hQ))

theorem run_recover_home (hj : j.Placed) {c : Disk} (hmagic : (jsuperOf c.view).magic = journalMagic)
    (hhome : InstallsHome j (installsOf j c.view)) :
    run faultless ((journalRecover j).answer (recoverInstall j.dev)) c =
      ((.ok (), recoveredJournal j c.view), recoveredDisk j c) := by
  exact (meets_recover_home (C := fun _ => True) hj hmagic hhome (fun _ _ => trivial)
    (fun _ => trivial) trivial ⟨rfl, rfl⟩).run_eq

/-- Recovery leaves each home block with what the log says it should hold. -/
theorem view_recoveredDisk {c : Disk} {b : UInt64} (hb : b ≠ jsuperBlockno) :
    (recoveredDisk j c).view b = applyWrites c.view (installsOf j c.view) b := by
  unfold recoveredDisk
  split
  · next hempty =>
      rw [installsOf, foundByRecover, if_pos hempty]
      rfl
  · simp [Function.update_of_ne hb]

theorem run_mountRecover (hj : j.Placed) {c : Disk} (hmagic : (jsuperOf c.view).magic = journalMagic)
    (hhome : InstallsHome j (installsOf j c.view)) :
    run faultless (mountRecover j) c =
      ((.ok (), recoveredJournal j c.view), (recoveredDisk j c).flush) := by
  rw [mountRecover, run_bind, run_recover_home hj hmagic hhome]
  simp only [run_bind, run_bdevFlush, Prog.pure_eq, run_ret]

/-- In between, the superblock is rewritten while the installs are not yet flushed. -/
theorem reaches_superWritten (hj : j.Placed) {c : Disk}
    (hmagic : (jsuperOf c.view).magic = journalMagic)
    (hstart : (jsuperOf c.view).start ≠ journalEmpty)
    (hhome : InstallsHome j (installsOf j c.view)) :
    ∃ rest, Reaches faultless (mountRecover j, c)
      (rest, (c.writes (installsOf j c.view)).write jsuperBlockno (jsuperEncode j journalEmpty 0)) := by
  have hdecode : JournalSuper.decode (c.view jsuperBlockno) = jsuperOf c.view := rfl
  have hfound : foundByRecover j c.view = scanPassAt j (jsuperOf c.view) c.view := if_neg hstart
  simp only [installsOf, hfound] at hhome ⊢
  have hreplay := (meets_replay_home (C := fun _ => True) hj _ hhome (fun _ _ => trivial)
    ⟨rfl, rfl⟩).run_eq
  generalize hr : scanPassAt j (jsuperOf c.view) c.view = r at hreplay ⊢
  have hj' : (afterScan j r).Placed := ⟨hj.maxlen_pos, hj.fits, hj.after_jsuper⟩
  suffices h : ∃ rest, Reaches faultless ((journalRecover j).answer (recoverInstall j.dev), c)
      (rest, (c.writes (installs (logView j c.view) r.revokes (loggedCopies r.txns))).write
        jsuperBlockno (jsuperEncode j journalEmpty 0)) by
    obtain ⟨rest, h⟩ := h
    exact ⟨_, Reaches.bind faultless _ h⟩
  rw [answer_recover]
  refine Reaches.exists_trans faultless (reaches_bind faultless _ _ c) ?_
  rw [run_bdevRead c (jsuper_lt hj)]
  simp only [hdecode, hmagic, ne_eq, not_true, if_false, hstart]
  refine Reaches.exists_trans faultless (reaches_bind faultless _ _ c) ?_
  rw [run_scanPass hj, hr]
  refine Reaches.exists_trans faultless (reaches_bind faultless _ _ c) ?_
  rw [hreplay]
  dsimp only
  rw [jsuperWrite_ops hj', Prog.op_bind]
  exact ⟨_, .single (.op _ _ _)⟩

/-! ## Running recovery again -/

/-- Whatever point recovery is cut at and whichever unflushed writes survive, running it
again gives the home blocks of the uninterrupted run. -/
def SurvivesCrash (j : Journal) (img : Image) : Prop :=
  ∀ img', CrashesInto (mountRecover j) (settled img) img' → ∀ b, Home j b →
    (run faultless (mountRecover j) (settled img')).2.view b =
      (run faultless (mountRecover j) (settled img)).2.view b

variable {img : Image}

/-- The image a crash leaves when of all of recovery's writes the superblock's is durable. -/
theorem jsuperOf_emptied (img : Image) (j : Journal) :
    (jsuperOf (Function.update img jsuperBlockno (jsuperEncode j journalEmpty 0))).magic =
        journalMagic ∧
      (jsuperOf (Function.update img jsuperBlockno (jsuperEncode j journalEmpty 0))).start =
        journalEmpty := by
  simp [jsuperOf]

/-- A log that is marked empty is left alone. -/
theorem view_mountRecover_emptied (hj : j.Placed) (img : Image) :
    (run faultless (mountRecover j)
      (settled (Function.update img jsuperBlockno (jsuperEncode j journalEmpty 0)))).2.view =
        Function.update img jsuperBlockno (jsuperEncode j journalEmpty 0) := by
  obtain ⟨hmagic, hempty⟩ := jsuperOf_emptied img j
  generalize Function.update img jsuperBlockno (jsuperEncode j journalEmpty 0) = img' at *
  have hnone : installsOf j img' = [] := by
    rw [installsOf, foundByRecover, if_pos hempty]
    rfl
  have hhome : InstallsHome j (installsOf j img') := by simp [hnone, InstallsHome]
  rw [run_mountRecover (c := settled img') hj hmagic hhome, view_flush, recoveredDisk, view_settled,
    if_pos hempty, view_settled]

theorem view_mountRecover (hj : j.Placed) (hmagic : (jsuperOf img).magic = journalMagic)
    (hhome : InstallsHome j (installsOf j img)) {b : UInt64} (hb : Home j b) :
    (run faultless (mountRecover j) (settled img)).2.view b =
      applyWrites img (installsOf j img) b := by
  rw [run_mountRecover (c := settled img) hj hmagic hhome, view_flush, view_recoveredDisk hb.1,
    view_settled]

/-- The images a crash during recovery leaves: any of the installs are home, and the log is
marked empty or not. -/
inductive RecoveryCrash (j : Journal) (img : Image) : Image → Prop
  | home {ws : List (UInt64 × Block)} (sub : ws.Sublist (installsOf j img)) :
      RecoveryCrash j img (applyWrites img ws)
  | emptied {ws : List (UInt64 × Block)} (sub : ws.Sublist (installsOf j img)) :
      RecoveryCrash j img
        (Function.update (applyWrites img ws) jsuperBlockno (jsuperEncode j journalEmpty 0))

theorem meets_mountRecover_crash (hj : j.Placed) (hmagic : (jsuperOf img).magic = journalMagic)
    (hhome : InstallsHome j (installsOf j img)) :
    Meets faultless (fun d => ∀ i, Survives d i → RecoveryCrash j img i)
      (fun r d => r = (.ok (), recoveredJournal j img) ∧ d = (recoveredDisk j (settled img)).flush)
      (mountRecover j) (settled img) := by
  have hkept : ∀ us, us <+: installsOf j img → ∀ i, Survives ((settled img).writes us) i →
      ∃ ws, ws.Sublist (installsOf j img) ∧ i = applyWrites img ws := by
    rintro us hus i ⟨ws, hsub, rfl⟩
    exact ⟨ws, (by simpa using hsub : ws.Sublist us).trans hus.sublist, rfl⟩
  have hinstalling : ∀ us, us <+: installsOf j img → ∀ i, Survives ((settled img).writes us) i →
      RecoveryCrash j img i := by
    intro us hus i hi
    obtain ⟨ws, hws, rfl⟩ := hkept us hus i hi
    exact .home hws
  have hsuper : ∀ i, Survives (((settled img).writes (installsOf j img)).write jsuperBlockno
      (jsuperEncode j journalEmpty 0)) i → RecoveryCrash j img i := by
    intro i hi
    rcases survives_write hi with hold | ⟨i₀, hold, rfl⟩
    · exact hinstalling _ (List.prefix_refl _) i hold
    · obtain ⟨ws, hws, rfl⟩ := hkept _ (List.prefix_refl _) i₀ hold
      exact .emptied hws
  have hdone : ∀ i, Survives (recoveredDisk j (settled img)) i → RecoveryCrash j img i := by
    intro i hi
    unfold recoveredDisk at hi
    split at hi
    · rw [survives_settled.mp hi]
      exact .home (List.nil_sublist _)
    · exact hsuper i (survives_settled.mp hi ▸ survives_view _)
  rw [mountRecover]
  refine Meets.seq (Q := fun r d => r = (.ok (), recoveredJournal j img) ∧
    d = recoveredDisk j (settled img)) (meets_recover_home (c := settled img) hj hmagic hhome
      hinstalling (fun _ => hsuper) hdone ⟨rfl, rfl⟩) ?_
  rintro r d ⟨rfl, rfl⟩
  refine .op hdone (.ret (fun i hi => ?_) ⟨rfl, rfl⟩)
  exact hdone i (survives_settled.mp hi ▸ survives_view _)

/-- When replay only puts back what the home blocks hold, a crash can lose nothing. -/
theorem crash_of_noop (hj : j.Placed) (hmagic : (jsuperOf img).magic = journalMagic)
    (hhome : InstallsHome j (installsOf j img)) (hnoop : ∀ w ∈ installsOf j img, img w.1 = w.2)
    {img' : Image} (hcrash : CrashesInto (mountRecover j) (settled img) img') :
    img' = img ∨ img' = Function.update img jsuperBlockno (jsuperEncode j journalEmpty 0) := by
  have hsame : ∀ {ws}, List.Sublist ws (installsOf j img) → applyWrites img ws = img :=
    fun hsub => applyWrites_of_noop fun w hw => hnoop w (hsub.subset hw)
  cases Meets.crash (meets_mountRecover_crash hj hmagic hhome) hcrash with
  | home hsub => exact .inl (hsame hsub)
  | emptied hsub =>
      rw [hsame hsub]
      exact .inr rfl

/-- A crash can lose any of the installs and keep the superblock's write. -/
theorem crash_emptied (hj : j.Placed) (hmagic : (jsuperOf img).magic = journalMagic)
    (hstart : (jsuperOf img).start ≠ journalEmpty) (hhome : InstallsHome j (installsOf j img))
    {ws : List (UInt64 × Block)} (hws : ws.Sublist (installsOf j img)) :
    CrashesInto (mountRecover j) (settled img)
      (Function.update (applyWrites img ws) jsuperBlockno (jsuperEncode j journalEmpty 0)) := by
  obtain ⟨rest, hr⟩ := reaches_superWritten (c := settled img) hj hmagic hstart hhome
  refine ⟨_, hr, ws ++ [(jsuperBlockno, jsuperEncode j journalEmpty 0)], ?_, ?_⟩
  · simpa using hws.append_right [(jsuperBlockno, jsuperEncode j journalEmpty 0)]
  · simp [applyWrites_append]

/-- Recovery survives every crash exactly when replay has nothing to do: each install puts
back the content the home block already has. -/
theorem survivesCrash_iff (hj : j.Placed) (hmagic : (jsuperOf img).magic = journalMagic)
    (hstart : (jsuperOf img).start ≠ journalEmpty) (hhome : InstallsHome j (installsOf j img)) :
    SurvivesCrash j img ↔ ∀ w ∈ installsOf j img, img w.1 = w.2 := by
  constructor
  · intro h w hw
    have hhomew := (hhome w hw).1
    have hfinal := view_mountRecover hj hmagic hhome hhomew
    -- what is home when the superblock and the writes `ws` alone survive is there for good
    have hlost : ∀ ws : List (UInt64 × Block), ws.Sublist (installsOf j img) →
        applyWrites img ws w.1 = applyWrites img (installsOf j img) w.1 := by
      intro ws hws
      have heq := h _ (crash_emptied hj hmagic hstart hhome hws) w.1 hhomew
      rwa [view_mountRecover_emptied hj, Function.update_of_ne hhomew.1, hfinal] at heq
    have hnone := hlost [] (List.nil_sublist _)
    have hone := hlost [w] (List.singleton_sublist.mpr hw)
    rw [← hone] at hnone
    simpa using hnone
  · intro hnoop img' hcrash b hb
    rw [view_mountRecover hj hmagic hhome hb, applyWrites_of_noop hnoop]
    rcases crash_of_noop hj hmagic hhome hnoop hcrash with rfl | rfl
    · rw [view_mountRecover hj hmagic hhome hb, applyWrites_of_noop hnoop]
    · rw [view_mountRecover_emptied hj, Function.update_of_ne hb.1]

/-! A log of one transaction on an otherwise zero device. -/

def smallJournal : Journal := ⟨⟨64⟩, 3, 8, 0, 0, 1⟩

def oneBlockLog (data : Block) : Image :=
  commitImage smallJournal ⟨[⟨20, data⟩], []⟩ (Function.update (fun _ => zeroBlock) jsuperBlockno
    (jsuperEncode ⟨⟨64⟩, 3, 8, 0, 0, 0⟩ journalEmpty 0))

theorem oneBlockLog_spec (data : Block) (hplain : ¬ IsRecord data) :
    smallJournal.Placed ∧ (jsuperOf (oneBlockLog data)).magic = journalMagic ∧
      (jsuperOf (oneBlockLog data)).start ≠ journalEmpty ∧
      installsOf smallJournal (oneBlockLog data) = [(20, data)] ∧
      oneBlockLog data 20 = zeroBlock := by
  have hj : smallJournal.Placed := ⟨by decide, by decide, by decide⟩
  have hfresh := liveLog_format hj fun _ => zeroBlock
  have hbelow := CommitsBelow.of_zeroRegion hj (show ZeroRegion _ fun _ => zeroBlock from fun _ _ => rfl) 1
    (jsuperEncode ⟨⟨64⟩, 3, 8, 0, 0, 0⟩ journalEmpty 0)
  have hlen : Transaction.len ⟨[⟨20, data⟩], []⟩ = 3 := rfl
  have hroom : smallJournal.HasRoom ⟨[⟨20, data⟩], []⟩ :=
    hfresh.hasRoom.mpr (by rw [hlen]; decide)
  have hlive := hfresh.commit hroom (by rw [hlen]; decide)
  have hplain' : Transaction.Plain ⟨[⟨20, data⟩], []⟩ := by simpa [Transaction.Plain] using hplain
  have hend : DiskLog.Ends smallJournal (oneBlockLog data) 0 1 [⟨[⟨20, data⟩], []⟩] :=
    (hbelow.commitImage hplain').scanAt_none hj _ (by rw [List.length_singleton]; decide)
  have hdisk : DiskLog smallJournal (oneBlockLog data) 0 1 [⟨[⟨20, data⟩], []⟩] :=
    ⟨hj, hlive.room, hlive.bound, (LogHolds.of_region _ _ rfl rfl).mp hlive.holds, hlive.starts⟩
  refine ⟨hj, hlive.starts.magic, hlive.start_ne_empty (by simp), ?_, ?_⟩
  · refine hdisk.installs ?_ (by simp) fun _ => hend
    simp only [List.forall_mem_singleton]
    exact ⟨by simp [maxTagsPerDesc], by simp⟩
  · rw [oneBlockLog, commitImage_home hj ⟨by decide, by decide⟩]
    rfl

theorem survivesCrash_zero : SurvivesCrash smallJournal (oneBlockLog zeroBlock) := by
  obtain ⟨hj, hmagic, hstart, hinstalls, hhome⟩ := oneBlockLog_spec zeroBlock
    (by simp [IsRecord, descMagic, commitMagic, revokeMagic])
  refine (survivesCrash_iff hj hmagic hstart ?_).mpr ?_
  · rw [hinstalls]
    simp only [InstallsHome, List.forall_mem_singleton]
    decide
  · simpa [hinstalls] using hhome

/-- The first word of the one logged block is 7, that of the home block is 0. -/
theorem not_survivesCrash : ¬ SurvivesCrash smallJournal (oneBlockLog (store zeroBlock 0 (7 : UInt32))) := by
  intro h
  have hmagic7 : magicOf (store zeroBlock 0 (7 : UInt32)) = 7 := load_store _ _ _ (by decide)
  obtain ⟨hj, hmagic, hstart, hinstalls, hhome⟩ :=
    oneBlockLog_spec (store zeroBlock 0 (7 : UInt32))
      (by simp [IsRecord, hmagic7, descMagic, commitMagic, revokeMagic])
  generalize oneBlockLog (store zeroBlock 0 (7 : UInt32)) = img at *
  have hin : InstallsHome smallJournal (installsOf smallJournal img) := by
    rw [hinstalls]
    simp only [InstallsHome, List.forall_mem_singleton]
    decide
  have hlost := h _ (crash_emptied hj hmagic hstart hin (List.nil_sublist _)) 20 (by decide)
  rw [view_mountRecover_emptied hj, view_mountRecover hj hmagic hin (by decide), hinstalls,
    Function.update_of_ne (by decide), applyWrites_nil, hhome] at hlost
  have hzero := congrArg magicOf hlost
  simp [hmagic7] at hzero

end Logfs
