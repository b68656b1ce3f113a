import Logfs.Sessions

/-!
# Stale transactions

`logfs_journal_open` begins again at offset 0 with number 1 whenever the log is empty, and
nothing clears the region, so a transaction of an earlier session can stand right behind
the live ones with the number recovery expects next.
-/
namespace Logfs
open Interaction WriteCache Transition

/-- The journal's part of a formatted image. What the region holds is left from before. -/
structure Formatted (j₀ : Journal) (img : Image) : Prop where
  placed : j₀.Placed
  magic : (jsuperOf img).magic = journalMagic
  start : (jsuperOf img).start = journalEmpty

/-- Everything recovery installs is in a transaction committed since the log was last marked
empty, and not yet dropped. -/
def NeverStale (ok : Sessions → SessionAction → Prop) (j₀ : Journal) (img : Image) : Prop :=
  ∀ s, Run (Sessions.step j₀) ok (Sessions.boot img) s →
    ∀ m ∈ s.mounts, ∀ w ∈ m.installed, ∃ t ∈ m.live, w ∈ nodeWrites t.nodes

def homeCommits (j₀ : Journal) (_ : Sessions) : SessionAction → Prop
  | .commit nodes => Generation j₀ nodes
  | _ => True

/-- The commits are of home blocks that do not look like the journal's own. -/
def plainCommits (j₀ : Journal) (_ : Sessions) : SessionAction → Prop
  | .commit nodes => Generation j₀ nodes ∧ ∀ d ∈ nodes, ¬ IsRecord d.data
  | _ => True

/-- At each mount, nothing behind the live transactions passes for one with the next number;
and no transaction ends beyond 64 bits. -/
def endsAtLive (j₀ : Journal) (s : Sessions) : SessionAction → Prop
  | .mount => s.live ≠ [] →
      scanAt (logView j₀ s.disk.view) ((jsuperOf s.disk.view).start + UInt64.ofNat (ckptLen s.live))
        ((jsuperOf s.disk.view).sequence + UInt64.ofNat s.live.length) = none
  | .commit nodes => ∀ j, s.phase = .up j → j.OffsetsFit nodes
  | _ => True

structure Sessions.Ok (j₀ : Journal) (s : Sessions) : Prop where
  at_phase : SessionAt j₀ s.disk s.live s.phase
  mounts : ∀ m ∈ s.mounts, ∀ w ∈ m.installed, ∃ t ∈ m.live, w ∈ nodeWrites t.nodes

section Steps
variable {j₀ j : Journal} {img : Image} {s s' : Sessions} {a : SessionAction}

/-- With nothing behind them, the live transactions are what recovery installs. -/
theorem OnImage.installs {live : List CommittedTxn} (h : OnImage j₀ img live)
    (hend : live ≠ [] → scanAt (logView j₀ img) ((jsuperOf img).start + UInt64.ofNat (ckptLen live))
      ((jsuperOf img).sequence + UInt64.ofNat live.length) = none) :
    installsOf j₀ img = nodeWrites (live.flatMap (·.nodes)) := by
  obtain ⟨p, q, hdisk⟩ := h.held
  rw [← writesOf_txns]
  apply hdisk.installs
  · intro t ht
    obtain ⟨c, hc, rfl⟩ := List.mem_map.mp ht
    exact txnOf_fits (h.gens c hc).length_le
  · intro t ht
    obtain ⟨c, -, rfl⟩ := List.mem_map.mp ht
    rfl
  · intro hne
    have hat := hend (by simpa using hne)
    rw [hdisk.starts.start, if_neg hne, hdisk.starts.sequence hne, ← UInt64.ofNat_add] at hat
    rw [DiskLog.Ends, logLen_txns, List.length_map]
    exact hat

theorem OnImage.stale_free {live : List CommittedTxn} (h₀ : j₀.Placed) (h : OnImage j₀ img live)
    (hinstalls : installsOf j₀ img = nodeWrites (live.flatMap (·.nodes))) :
    ∀ w ∈ installedBy j₀ (settled img), ∃ t ∈ live, w ∈ nodeWrites t.nodes := by
  rw [installedBy_settled h₀ h.magic, hinstalls]
  intro w hw
  obtain ⟨d, hd, rfl⟩ := List.mem_map.mp hw
  obtain ⟨t, ht, hdt⟩ := List.mem_flatMap.mp hd
  exact ⟨t, ht, List.mem_map.mpr ⟨d, hdt, rfl⟩⟩

theorem OnLog.committed {live : List CommittedTxn} {nodes : List DirtyBlock} (h : OnLog j₀ j img live)
    (hgen : Generation j₀ nodes) (hroom : j.HasRoom (txnOf nodes)) (hoff : j.OffsetsFit nodes) :
    OnLog j₀ (committed j (txnOf nodes)) (commitImage j (txnOf nodes) img)
      (live ++ [⟨j.nextSequence, j.head, nodes⟩]) where
  region := ⟨h.region.dev, h.region.first, h.region.maxlen⟩
  chained := h.chained.commit hroom hoff
  gens t ht := by
    rcases List.mem_append.mp ht with ht | ht
    · exact h.gens t ht
    · rw [List.mem_singleton.mp ht]
      exact hgen

theorem Sessions.Ok.step (h₀ : j₀.Placed) (hhome : homeCommits j₀ s a) (hend : endsAtLive j₀ s a)
    (hstep : Sessions.Steps j₀ s a s') (h : s.Ok j₀) : s'.Ok j₀ := by
  have hat := h.at_phase
  cases hstep with
  | mount hphase =>
      rw [hphase] at hat
      obtain ⟨img, hset, himage⟩ := hat
      rw [endsAtLive, hset, view_settled] at hend
      have hinstalls := himage.installs hend
      refine ⟨⟨img, himage, hinstalls, hset ▸ .refl⟩, ?_⟩
      intro m hm
      rcases List.mem_append.mp hm with hm | hm
      · exact h.mounts m hm
      · rw [List.mem_singleton.mp hm, hset]
        exact himage.stale_free h₀ hinstalls
  | commit hphase =>
      rw [hphase] at hat
      obtain ⟨img, hset, hlog⟩ := hat
      exact ⟨⟨img, hlog, hend _ hphase, hhome, hset ▸ .refl⟩, h.mounts⟩
  | advanceTail hphase hle =>
      rw [hphase] at hat
      obtain ⟨img, hset, hlog⟩ := hat
      exact ⟨⟨img, hlog, hle, hset ▸ .refl⟩, h.mounts⟩
  | recoverOp hphase hnow =>
      rw [hphase] at hat
      obtain ⟨img, himage, hinstalls, hreach⟩ := hat
      exact ⟨⟨img, himage, hinstalls, hreach.tail hnow⟩, h.mounts⟩
  | recovered hphase =>
      rw [hphase] at hat
      obtain ⟨img, himage, hinstalls, hreach⟩ := hat
      have hmeets := meets_openAndRecover h₀ himage.magic (himage.installsHome hinstalls)
      obtain ⟨-, i, hset, hregion, hchained⟩ := (hmeets.reaches hreach).run
      exact ⟨⟨i, hset, hregion, hchained, by simp⟩, h.mounts⟩
  | recoverFailed hphase =>
      rw [hphase] at hat
      obtain ⟨img, himage, hinstalls, hreach⟩ := hat
      have hmeets := meets_openAndRecover h₀ himage.magic (himage.installsHome hinstalls)
      obtain ⟨hok, -⟩ := (hmeets.reaches hreach).run
      simp at hok
  | commitOp hphase hnow =>
      rw [hphase] at hat
      obtain ⟨img, hlog, hoff, hgen, hreach⟩ := hat
      exact ⟨⟨img, hlog, hoff, hgen, hreach.tail hnow⟩, h.mounts⟩
  | committed hphase =>
      rw [hphase] at hat
      obtain ⟨img, hlog, hoff, hgen, hreach⟩ := hat
      have hrun := reaches_run_eq faultless hreach
      rw [run_journalCommit_nodes (hlog.region.placed h₀) hgen.length_le] at hrun
      split at hrun
      · next hroom =>
          simp only [run_ret, Prod.mk.injEq, Except.ok.injEq] at hrun
          obtain ⟨⟨⟨rfl, rfl⟩, rfl⟩, hd⟩ := hrun
          exact ⟨⟨_, hd, hlog.committed hgen hroom hoff⟩, h.mounts⟩
      · simp at hrun
  | commitFailed hphase =>
      rw [hphase] at hat
      obtain ⟨img, hlog, hoff, hgen, hreach⟩ := hat
      have hrun := reaches_run_eq faultless hreach
      rw [run_journalCommit_nodes (hlog.region.placed h₀) hgen.length_le] at hrun
      split at hrun
      · simp at hrun
      · simp only [run_ret, Prod.mk.injEq] at hrun
        obtain ⟨⟨-, rfl⟩, hd⟩ := hrun
        exact ⟨⟨img, hd, hlog⟩, h.mounts⟩
  | advanceOp hphase hnow =>
      rw [hphase] at hat
      obtain ⟨img, hlog, hn, hreach⟩ := hat
      exact ⟨⟨img, hlog, hn, hreach.tail hnow⟩, h.mounts⟩
  | @advanced j j' n hphase =>
      rw [hphase] at hat
      obtain ⟨img, hlog, hn, hreach⟩ := hat
      have hmeets := meets_advance_crash (hlog.region.placed h₀) (tailAt j (s.live.drop n)).1
        (tailAt j (s.live.drop n)).2 img
      obtain ⟨hret, hd⟩ := (hmeets.reaches hreach).run
      simp only [run_ret, Prod.mk.injEq, true_and] at hret
      subst hret
      exact ⟨⟨_, hd, hlog.advanced n⟩, h.mounts⟩
  | @advanceFailed j j' e n hphase =>
      rw [hphase] at hat
      obtain ⟨img, hlog, hn, hreach⟩ := hat
      have hmeets := meets_advance_crash (hlog.region.placed h₀) (tailAt j (s.live.drop n)).1
        (tailAt j (s.live.drop n)).2 img
      obtain ⟨hret, -⟩ := (hmeets.reaches hreach).run
      simp at hret
  | crash hup hsurvives => exact ⟨⟨_, rfl, hat.crash h₀ hup hsurvives⟩, h.mounts⟩
  | unmount hphase hdone =>
      rw [hphase] at hat
      obtain ⟨img, hset, hlog⟩ := hat
      exact ⟨⟨img, hset, hlog.onImage⟩, h.mounts⟩

theorem Sessions.Ok.boot (h : Formatted j₀ img) : (Sessions.boot img).Ok j₀ where
  at_phase := ⟨img, rfl, .of_empty h.placed h.magic h.start⟩
  mounts m hm := by simp [Sessions.boot] at hm

end Steps

/-- When every mount finds the log ending where the live transactions end, nothing stale is
installed. -/
theorem neverStale_of_endsAtLive {j₀ : Journal} {img : Image} (h : Formatted j₀ img) :
    NeverStale (fun s a => homeCommits j₀ s a ∧ endsAtLive j₀ s a) j₀ img := by
  intro s hrun
  have hok : s.Ok j₀ := hrun.invariant (.boot h) fun _ _ _ hguard hnow hs =>
    hs.step h.placed hguard.1 hguard.2 (Sessions.step_sound hnow)
  exact hok.mounts

theorem formatted_lap : Formatted lapJournal lapImage :=
  ⟨freshRegion_lap.placed, freshRegion_lap.magic, freshRegion_lap.start⟩

theorem neverStale_lap :
    NeverStale (fun s a => homeCommits lapJournal s a ∧ endsAtLive lapJournal s a) lapJournal lapImage :=
  neverStale_of_endsAtLive formatted_lap

/-! ## Whole calls -/

section Calls
variable {j₀ j : Journal} {img : Image} {live : List CommittedTxn} {mounts : List Mount}
  {ok : Sessions → SessionAction → Prop}

variable (j₀ live mounts) in
/-- The device operations of a call are steps of the session. -/
theorem Sessions.run_ops {α : Type} {f : DevM α → SessionPhase} {p q : DevM α} {d e : Disk}
    (hf : ∀ o k d, Sessions.step j₀ ⟨d, f (.op o k), live, mounts⟩ .op =
      some ⟨(faultless (E := Errno) o d).2, f (k (faultless o d).1), live, mounts⟩)
    (hok : ∀ s, ok s .op) (hreach : Reaches faultless (p, d) (q, e)) :
    Run (Sessions.step j₀) ok ⟨d, f p, live, mounts⟩ ⟨e, f q, live, mounts⟩ := by
  generalize hc : (p, d) = c at hreach
  generalize hc' : (q, e) = c' at hreach
  induction hreach generalizing q e with
  | refl =>
      cases hc.trans hc'.symm
      exact .init
  | tail _ hnow ih =>
      cases hnow with
      | op o k t =>
          cases hc'
          exact .next (ih rfl) (hok _) (hf o k t)

theorem Sessions.run_commit (hj : j.Placed) {nodes : List DirtyBlock} (hfits : nodes.length ≤ maxTagsPerDesc)
    (hroom : j.HasRoom (txnOf nodes)) (hok : ∀ s, ok s .op) (hcommit : ∀ s, ok s (.commit nodes)) :
    Run (Sessions.step j₀) ok ⟨settled img, .up j, live, mounts⟩
      ⟨settled (commitImage j (txnOf nodes) img), .up (committed j (txnOf nodes)),
        live ++ [⟨j.nextSequence, j.head, nodes⟩], mounts⟩ := by
  have hreach := reaches_run faultless (journalCommit j (pendingBlocks nodes) []) (settled img)
  rw [run_journalCommit_nodes hj hfits, if_pos (show (txnOf nodes).len ≤ _ from hroom)] at hreach
  have hops := Sessions.run_ops j₀ live mounts (f := fun p => .committing j p nodes) (fun _ _ _ => rfl) hok hreach
  exact (Run.next .init (hcommit _) rfl).trans (.next hops (hok _) rfl)

theorem Sessions.run_advanceTail (hj : j.Placed) {n : ℕ} (hn : n ≤ live.length) (hok : ∀ s, ok s .op)
    (hadvance : ∀ s, ok s (.advanceTail n)) :
    Run (Sessions.step j₀) ok ⟨settled img, .up j, live, mounts⟩
      ⟨settled (advanceImage j (tailAt j (live.drop n)).1 (tailAt j (live.drop n)).2 img),
        .up { j with tail := (tailAt j (live.drop n)).1 }, live.drop n, mounts⟩ := by
  have hreach := reaches_run faultless (journalAdvanceTail j (tailAt j (live.drop n)).1
    (tailAt j (live.drop n)).2) (settled img)
  rw [run_journalAdvanceTail hj, Cache.flush, view_write] at hreach
  have hops := Sessions.run_ops j₀ live mounts (f := fun p => .advancing j p n) (fun _ _ _ => rfl) hok hreach
  exact (Run.next .init (hadvance _) (if_pos hn)).trans (.next hops (hok _) rfl)

variable (live mounts) in
/-- The mount of an image with an empty log. -/
theorem Sessions.run_mount (h : Formatted j₀ img) (hok : ∀ s, ok s .op) (hmount : ∀ s, ok s .mount) :
    ∃ m, Run (Sessions.step j₀) ok ⟨settled img, .down, live, mounts⟩
      ⟨settled img, .up { j₀ with head := 0, tail := 0, nextSequence := 1 }, [], mounts ++ [m]⟩ := by
  have hregion := sameRegion_opened j₀ img
  have hnone : installsOf (openedJournal j₀ img) img = [] := by
    rw [installsOf, foundByRecover, if_pos h.start]
    rfl
  have hrun : run faultless (openAndRecover j₀) (settled img) =
      ((.ok (), { j₀ with head := 0, tail := 0, nextSequence := 1 }), settled img) := by
    rw [openAndRecover, run_bind, run_journalOpen _ (c := settled img) (jsuper_lt h.placed) h.magic]
    dsimp only
    rw [view_settled, run_mountRecover (c := settled img) (hregion.placed h.placed) h.magic
      (by simp [hnone, InstallsHome]), recoveredJournal, recoveredDisk, view_settled, if_pos h.start,
      if_pos h.start, openedJournal, if_pos h.start]
    rfl
  have hreach := reaches_run faultless (openAndRecover j₀) (settled img)
  rw [hrun] at hreach
  have hops := Sessions.run_ops j₀ live (mounts ++ [⟨installedBy j₀ (settled img), live⟩])
    (f := .recovering) (fun _ _ _ => rfl) hok hreach
  exact ⟨_, (Run.next .init (hmount _) rfl).trans (.next hops (hok _) rfl)⟩

/-- What stands ahead of the head, less than a lap, is still there after a commit that ends
before it. -/
theorem HoldsAt.commitImage_ahead (hj : j.Placed) {t : Transaction} {bs : List Block} {p : ℕ}
    (hafter : j.head.toNat + t.len ≤ p) (hlap : p + bs.length ≤ j.head.toNat + j.maxlen.toNat)
    (hbound : p + bs.length ≤ 2 ^ 64) (h : HoldsAt j img p bs) :
    HoldsAt j (Logfs.commitImage j t img) p bs := by
  rw [commitImage_eq, recordedImage_eq, ← applyWrites_append]
  refine h.congr fun i hi => applyWrites_of_untouched (fun w hw he => ?_) _
  rcases List.mem_append.mp hw with hw | hw
  · rw [← UInt64.ofNat_toNat (x := j.head)] at hw
    obtain ⟨k, hk, hslot, -⟩ := mem_logWrites hw
    rw [Transaction.length_record] at hk
    rw [hslot] at he
    exact slot_ne hj (m := j.head.toNat + k) (n := p + i) (by omega) (by omega) (by omega) he
  · unfold startWrite at hw
    split at hw
    · rw [List.mem_singleton.mp hw] at he
      exact (inRegion_slot hj _).ne_jsuper hj he.symm
    · simp at hw

end Calls

/-! ## Two sessions whose numbers line up -/

/-- One zero block. -/
def oneZero (b : UInt64) : List DirtyBlock := [⟨b, zeroBlock⟩]

theorem plain_oneZero {b : UInt64} (hb : Home lapJournal b) (hlt : b < 64) (s : Sessions) :
    plainCommits lapJournal s (.commit (oneZero b)) := by
  refine ⟨⟨by simp [oneZero, maxTagsPerDesc], ?_, ?_⟩, ?_⟩
  · exact List.forall_mem_singleton.mpr hb
  · exact List.forall_mem_singleton.mpr hlt
  · refine List.forall_mem_singleton.mpr ?_
    simp [IsRecord, descMagic, commitMagic, revokeMagic]

/-- The journal after one commit and after two, and after the tail advance. -/
def lapOnce : Journal := ⟨⟨64⟩, 3, 7, 3, 0, 2⟩
def lapTwice : Journal := ⟨⟨64⟩, 3, 7, 6, 0, 3⟩
def lapCleaned : Journal := ⟨⟨64⟩, 3, 7, 6, 6, 3⟩

/-- The first session commits the transactions 1 and 2 and drops both. The second begins with
number 1 at offset 0 again; its one transaction ends where the old number 2 still stands. -/
theorem not_neverStale : Formatted lapJournal lapImage ∧
    ¬ NeverStale (plainCommits lapJournal) lapJournal lapImage := by
  refine ⟨formatted_lap, fun h => ?_⟩
  have hj : lapJournal.Placed := freshRegion_lap.placed
  have htrivial : ∀ s, plainCommits lapJournal s .op := fun _ => trivial
  -- the first session commits twice
  obtain ⟨m1, hmount1⟩ := Sessions.run_mount [] [] formatted_lap htrivial
    fun _ => trivial
  have hlive0 : LiveLog lapJournal lapImage 0 1 [] :=
    liveLog_empty hj rfl freshRegion_lap.magic freshRegion_lap.start
  have hzero0 : HoldsAt lapJournal lapImage 6 [zeroBlock] := by
    intro i b hb
    obtain ⟨rfl, rfl⟩ : i = 0 ∧ zeroBlock = b := by simpa [List.getElem?_singleton] using hb
    exact freshRegion_lap.zero _ (inRegion_slot hj _)
  have hroom1 : lapJournal.HasRoom (txnOf (oneZero 20)) := hlive0.hasRoom.mpr (by decide)
  have hcommit1 : Run (Sessions.step lapJournal) (plainCommits lapJournal)
      ⟨settled lapImage, .up lapJournal, [], [m1]⟩
      ⟨settled (commitImage lapJournal (txnOf (oneZero 20)) lapImage), .up lapOnce,
        [⟨1, 0, oneZero 20⟩], [m1]⟩ :=
    Sessions.run_commit hj (by decide) hroom1 htrivial (plain_oneZero (by decide) (by decide))
  have hlive1 : LiveLog lapOnce (commitImage lapJournal (txnOf (oneZero 20)) lapImage) 0 1
      [txnOf (oneZero 20)] := hlive0.commit hroom1 (by decide)
  have hzero1 : HoldsAt lapOnce (commitImage lapJournal (txnOf (oneZero 20)) lapImage) 6 [zeroBlock] :=
    hzero0.commitImage_ahead hj (by decide) (by decide) (by decide)
  generalize commitImage lapJournal (txnOf (oneZero 20)) lapImage = img1 at hcommit1 hlive1 hzero1
  have hroom2 : lapOnce.HasRoom (txnOf (oneZero 21)) := hlive1.hasRoom.mpr (by decide)
  have hcommit2 : Run (Sessions.step lapJournal) (plainCommits lapJournal)
      ⟨settled img1, .up lapOnce, [⟨1, 0, oneZero 20⟩], [m1]⟩
      ⟨settled (commitImage lapOnce (txnOf (oneZero 21)) img1), .up lapTwice,
        [⟨1, 0, oneZero 20⟩, ⟨2, 3, oneZero 21⟩], [m1]⟩ :=
    Sessions.run_commit hlive1.placed (by decide) hroom2 htrivial (plain_oneZero (by decide) (by decide))
  have hlive2 : LiveLog lapTwice (commitImage lapOnce (txnOf (oneZero 21)) img1) 0 1
      [txnOf (oneZero 20), txnOf (oneZero 21)] := hlive1.commit hroom2 (by decide)
  have hzero2 : HoldsAt lapTwice (commitImage lapOnce (txnOf (oneZero 21)) img1) 6 [zeroBlock] :=
    hzero1.commitImage_ahead hlive1.placed (by decide) (by decide) (by decide)
  generalize commitImage lapOnce (txnOf (oneZero 21)) img1 = img2 at hcommit2 hlive2 hzero2
  -- and ends with an empty log
  have hadvance : Run (Sessions.step lapJournal) (plainCommits lapJournal)
      ⟨settled img2, .up lapTwice, [⟨1, 0, oneZero 20⟩, ⟨2, 3, oneZero 21⟩], [m1]⟩
      ⟨settled (advanceImage lapTwice 6 3 img2), .up lapCleaned, [], [m1]⟩ :=
    Sessions.run_advanceTail (n := 2) hlive2.placed le_rfl htrivial fun _ => trivial
  have hlive3 : LiveLog lapCleaned (advanceImage lapTwice 6 3 img2) 6 3 [] :=
    hlive2.advance [txnOf (oneZero 20), txnOf (oneZero 21)] rfl rfl
  have hold3 : HoldsAt lapJournal (advanceImage lapTwice 6 3 img2) 3
      ((txnOf (oneZero 21)).record 2 ++ [zeroBlock]) :=
    (HoldsAt.append.mpr ⟨hlive2.holds.2.1, hzero2⟩).congr fun i _ =>
      Function.update_of_ne ((inRegion_slot hj _).ne_jsuper hj) _ _
  generalize advanceImage lapTwice 6 3 img2 = img3 at hadvance hlive3 hold3
  -- the second session commits once and is cut
  have hformatted : Formatted lapJournal img3 := ⟨hj, hlive3.starts.magic, hlive3.start_eq_empty⟩
  obtain ⟨m2, hmount2⟩ := Sessions.run_mount [] [m1] hformatted htrivial
    fun _ => trivial
  have hlive4 : LiveLog lapJournal img3 0 1 [] := liveLog_empty hj rfl hformatted.magic hformatted.start
  have hroom3 : lapJournal.HasRoom (txnOf (oneZero 22)) := hlive4.hasRoom.mpr (by decide)
  have hcommit3 : Run (Sessions.step lapJournal) (plainCommits lapJournal)
      ⟨settled img3, .up lapJournal, [], [m1, m2]⟩
      ⟨settled (commitImage lapJournal (txnOf (oneZero 22)) img3), .up lapOnce,
        [⟨1, 0, oneZero 22⟩], [m1, m2]⟩ :=
    Sessions.run_commit hj (by decide) hroom3 htrivial (plain_oneZero (by decide) (by decide))
  have hlive5 : LiveLog lapOnce (commitImage lapJournal (txnOf (oneZero 22)) img3) 0 1
      [txnOf (oneZero 22)] := hlive4.commit hroom3 (by decide)
  have hold5 : HoldsAt lapOnce (commitImage lapJournal (txnOf (oneZero 22)) img3) 3
      ((txnOf (oneZero 21)).record 2 ++ [zeroBlock]) :=
    hold3.commitImage_ahead hj (by decide) (by decide) (by decide)
  generalize commitImage lapJournal (txnOf (oneZero 22)) img3 = img4 at hcommit3 hlive5 hold5
  have hcrash : Sessions.step lapJournal ⟨settled img4, .up lapOnce, [⟨1, 0, oneZero 22⟩], [m1, m2]⟩
      (.crash []) = some ⟨settled img4, .down, [⟨1, 0, oneZero 22⟩], [m1, m2]⟩ := by
    simp [Sessions.step, Sessions.crashAction, Sessions.liveAfterCrash, keep,
      hlive5.start_ne_empty (by simp)]
  -- the third finds both transactions
  rw [HoldsAt.append] at hold5
  have hend : DiskLog.Ends lapOnce img4 0 1 [txnOf (oneZero 22), txnOf (oneZero 21)] := by
    have hblock : logView lapOnce img4 6 = zeroBlock := hold5.2.logView (i := 0) rfl
    have hmagic : (DescBlock.decode zeroBlock).magic = 0 := magicOf_zeroBlock
    change scanAt (logView lapOnce img4) 6 3 = none
    simp [scanAt, hblock, hmagic, descMagic]
  have hlog : DiskLog lapOnce img4 0 1 [txnOf (oneZero 22), txnOf (oneZero 21)] := by
    refine ⟨hlive5.placed, by decide, by decide, ⟨hlive5.holds.1, hold5.1, trivial⟩, ?_⟩
    exact ⟨hlive5.starts.magic, hlive5.starts.start, fun _ => hlive5.starts.sequence (by simp)⟩
  have hfits : ∀ t ∈ [txnOf (oneZero 22), txnOf (oneZero 21)], t.Fits := by
    simp only [List.forall_mem_cons, List.not_mem_nil, false_implies, implies_true, and_true]
    exact ⟨⟨by decide, by decide⟩, ⟨by decide, by decide⟩⟩
  have hfound := hlog.installs hfits (by simp [txnOf]) fun _ => hend
  have hregion : SameRegion lapJournal lapOnce := ⟨rfl, rfl, rfl⟩
  rw [installsOf_region hregion] at hfound
  have hcommits := hmount1.trans (hcommit1.trans (hcommit2.trans hadvance))
  have hclean := Run.next hcommits (a := .unmount) (by trivial) rfl
  have hcut := Run.next ((hclean.trans hmount2).trans hcommit3) (a := .crash []) (by trivial) hcrash
  have hagain := Run.next hcut (a := .mount) (by trivial) rfl
  have hstale := h _ hagain ⟨installedBy lapJournal (settled img4), [⟨1, 0, oneZero 22⟩]⟩ (by simp)
    (21, zeroBlock)
  rw [installedBy_settled hj hlive5.starts.magic, hfound] at hstale
  simp [writesOf, txnOf, pendingBlocks, nodeWrites, oneZero] at hstale

end Logfs
