import Logfs.LogInStep

/-!
# Crashes of the commit pipeline

Generations handed one by one to `do_commit` and `enforce_checkpoint_lag` on a fresh
journal. Whatever the point of the crash and whichever unflushed writes survive, recovery
finds the home blocks as a prefix of the generations leaves them, no shorter than what
had been committed.
-/
namespace Logfs
open Interaction WriteCache Transition

/-- Recovery of the image succeeds, and leaves the home blocks as they are in `target`. -/
def RecoversTo (j₀ : Journal) (img target : Image) : Prop :=
  (run faultless (mountRecover j₀) (settled img)).1.1 = .ok () ∧
    ∀ b, Home j₀ b → (run faultless (mountRecover j₀) (settled img)).2.view b = target b

/-- Each generation fits the region, none of its contents looks like a journal record, and
it is handed over when the one before is done with. -/
def mountCalls (j₀ : Journal) (s : Pipe) : PipeAction → Prop
  | .call (.doCommit nodes) =>
      s.pc.idle = true ∧ Generation j₀ nodes ∧ nodes.length + 2 ≤ j₀.maxlen.toNat ∧
        ∀ d ∈ nodes, ¬ IsRecord d.data
  | .call .checkpointOldest => False
  | .thread => True

/-- After a crash at any point of any run, recovery leaves the first `k` generations, and
at least those that were committed. -/
def CrashAtomic (ok : Pipe → PipeAction → Prop) (j : Journal) (img : Image) (mode : DataMode) : Prop :=
  ∀ s i, Run Pipe.step ok (Pipe.boot j img mode) s → Survives s.disk i →
    ∃ k, s.logged.length ≤ k ∧ k ≤ s.given.length ∧
      RecoversTo j i (applyWrites img (nodeWrites (s.given.take k).flatten))

/-! ## Recovery of a log on disk -/

section Recovery
variable {j₀ j : Journal} {i : Image} {p : ℕ} {s : UInt64} {log : List CommittedTxn}

theorem installsOf_region (h : SameRegion j₀ j) (i : Image) : installsOf j i = installsOf j₀ i := by
  have hview : logView j i = logView j₀ i := by
    funext off
    simp only [logView, physOf, h.first, h.maxlen]
  simp only [installsOf, foundByRecover, scanPassAt, hview, h.maxlen]

theorem writesOf_txns (log : List CommittedTxn) :
    writesOf (log.map fun t => txnOf t.nodes) = nodeWrites (log.flatMap (·.nodes)) := by
  induction log with
  | nil => rfl
  | cons t ts ih =>
      rw [List.map_cons, ← List.singleton_append, writesOf_append, ih, List.flatMap_cons,
        nodeWrites_append]
      simp [writesOf, txnOf, pendingBlocks, nodeWrites]

/-- Recovery writes home what the transactions of the log hold. -/
theorem DiskLog.recoversTo (h₀ : j₀.Placed) (hregion : SameRegion j₀ j)
    (h : DiskLog j i p s (log.map fun t => txnOf t.nodes)) (hgen : ∀ t ∈ log, Generation j₀ t.nodes)
    (hend : log ≠ [] → DiskLog.Ends j i p s (log.map fun t => txnOf t.nodes)) {target : Image}
    (htarget : ∀ b, Home j₀ b → applyWrites i (nodeWrites (log.flatMap (·.nodes))) b = target b) :
    RecoversTo j₀ i target := by
  have hinstalls : installsOf j₀ i = nodeWrites (log.flatMap (·.nodes)) := by
    rw [← installsOf_region hregion, ← writesOf_txns]
    refine h.installs ?_ ?_ fun hne => hend (by simpa using hne)
    · intro t ht
      obtain ⟨c, hc, rfl⟩ := List.mem_map.mp ht
      exact txnOf_fits (hgen c hc).length_le
    · intro t ht
      obtain ⟨c, -, rfl⟩ := List.mem_map.mp ht
      rfl
  have hhome : InstallsHome j₀ (installsOf j₀ i) := by
    rw [hinstalls]
    intro w hw
    obtain ⟨d, hd, rfl⟩ := List.mem_map.mp hw
    obtain ⟨c, hc, hdc⟩ := List.mem_flatMap.mp hd
    exact ⟨(hgen c hc).home d hdc, (hgen c hc).lt d hdc⟩
  constructor
  · rw [run_mountRecover (c := settled i) h₀ h.starts.magic hhome]
  · intro b hb
    rw [view_mountRecover h₀ h.starts.magic hhome hb, hinstalls]
    exact htarget b hb

end Recovery

/-! ## What is kept of a fresh log -/

/-- No commit block is numbered like the next transaction or above, and the home blocks with
the listed transactions applied are the initial ones with all committed generations applied. -/
structure FreshLog (j₀ : Journal) (img₀ : Image) (gens : List (List DirtyBlock)) (j : Journal)
    (img : Image) (log : List CommittedTxn) : Prop where
  below : CommitsBelow j img j.nextSequence.toNat
  next_le : j.nextSequence.toNat ≤ j.head.toNat + 1
  content : ∀ b, Home j₀ b → applyWrites img (nodeWrites (log.flatMap (·.nodes))) b =
    applyWrites img₀ (nodeWrites gens.flatten) b

section Kept
variable {j₀ j : Journal} {img₀ img : Image} {gens : List (List DirtyBlock)}
  {log : List CommittedTxn} {nodes : List DirtyBlock}

theorem CommitsBelow.of_home {n : ℕ} (h : CommitsBelow j img n)
    {ws : List (UInt64 × Block)} (hws : ∀ w ∈ ws, Home j w.1) : CommitsBelow j (WriteCache.applyWrites img ws) n := by
  intro b hb
  rw [applyWrites_of_untouched]
  · exact h b hb
  · rintro w hw rfl
    exact (hws w hw).2 hb

theorem txnOf_plain (h : ∀ d ∈ nodes, ¬ IsRecord d.data) : (txnOf nodes).Plain := by
  intro d hd
  obtain ⟨n, hn, rfl⟩ := List.mem_map.mp hd
  exact h n hn

/-- One more generation leads from one content of a block to the next, in the log as in the record of
what was given. -/
theorem content_snoc {i i' : Image} {b seq off : UInt64}
    (h : applyWrites i (nodeWrites (log.flatMap (·.nodes))) b = applyWrites img₀ (nodeWrites gens.flatten) b)
    (hi : i' b = i b) :
    applyWrites i' (nodeWrites ((log ++ [(⟨seq, off, nodes⟩ : CommittedTxn)]).flatMap (·.nodes))) b =
      applyWrites img₀ (nodeWrites (gens ++ [nodes]).flatten) b := by
  rw [List.flatMap_append, nodeWrites_append, applyWrites_append, List.flatten_append, nodeWrites_append,
    applyWrites_append]
  simp only [List.flatMap_singleton, List.flatten_singleton]
  apply applyWrites_congr
  right
  rw [← h]
  exact applyWrites_congr (.inr hi)

theorem FreshLog.commit (hj : j.Placed) (hregion : SameRegion j₀ j)
    (hplain : ∀ d ∈ nodes, ¬ IsRecord d.data) (hend : j.head.toNat + nodes.length + 2 < 2 ^ 64)
    (h : FreshLog j₀ img₀ gens j img log) :
    FreshLog j₀ img₀ (gens ++ [nodes]) (committed j (txnOf nodes)) (commitImage j (txnOf nodes) img)
      (log ++ [⟨j.nextSequence, j.head, nodes⟩]) := by
  have hle := h.next_le
  have hnext : (committed j (txnOf nodes)).nextSequence.toNat = j.nextSequence.toNat + 1 := by
    rw [committed, UInt64.toNat_add]
    exact Nat.mod_eq_of_lt (by simp; omega)
  have hhead : (committed j (txnOf nodes)).head.toNat = j.head.toNat + (nodes.length + 2) := by
    have hlen : (UInt64.ofNat (nodes.length + 2)).toNat = nodes.length + 2 :=
      UInt64.toNat_ofNat_of_lt' (show nodes.length + 2 < 18446744073709551616 by omega)
    rw [committed, txnOf_len, UInt64.toNat_add, hlen]
    exact Nat.mod_eq_of_lt (by omega)
  refine ⟨?_, by omega, ?_⟩
  · rw [hnext]
    exact (h.below.commitImage (txnOf_plain hplain)).of_region j _ rfl rfl
  · exact fun b hb => content_snoc (h.content b hb) (commitImage_home hj (hregion.home.mpr hb))

theorem FreshLog.checkpoint {t : CommittedTxn} {off seq : UInt64}
    (hhome : ∀ w ∈ nodeWrites t.nodes, Home j w.1) (hregion : SameRegion j₀ j)
    (h : FreshLog j₀ img₀ gens j img (t :: log)) :
    FreshLog j₀ img₀ gens { j with tail := off }
      (advanceImage j off seq (applyWrites img (nodeWrites t.nodes))) log where
  below := ((h.below.of_home hhome).advanceImage off seq).of_region j _ rfl rfl
  next_le := h.next_le
  content b hb := by
    rw [← h.content b hb, List.flatMap_cons, nodeWrites_append, applyWrites_append]
    apply applyWrites_congr
    right
    exact advanceImage_home (hregion.home.mpr hb)

/-- A generation that fits the region and does not look like the journal's own blocks. -/
structure PlainGeneration (j₀ : Journal) (nodes : List DirtyBlock) : Prop
    extends Generation j₀ nodes where
  room : nodes.length + 2 ≤ j₀.maxlen.toNat
  plain : ∀ d ∈ nodes, ¬ IsRecord d.data

def Upkeep.fresh (j₀ : Journal) (h₀ : j₀.Placed) (img₀ : Image) : Upkeep j₀ where
  gen := PlainGeneration j₀
  kept := FreshLog j₀ img₀
  generation h := h.toGeneration
  commit hregion hgen hend h := h.commit (hregion.placed h₀) hregion hgen.plain hend
  checkpoint hregion hgen h := by
    refine h.checkpoint ?_ hregion
    intro w hw
    obtain ⟨d, hd, rfl⟩ := List.mem_map.mp hw
    exact hregion.home.mpr (hgen.home d hd)

end Kept

/-! ## Crashes at every point -/

section Crash
variable {j₀ j : Journal} {h₀ : j₀.Placed} {img₀ img i : Image} {gens : List (List DirtyBlock)}
  {log : List CommittedTxn} {nodes : List DirtyBlock}

/-- A log on disk is recovered, also with some of the oldest transaction's blocks home. -/
theorem OnDisk.recoversTo (h : OnDisk (Upkeep.fresh j₀ h₀ img₀) gens j img log)
    {ws : List (UInt64 × Block)} (hws : ∀ w ∈ ws, ∃ t ∈ log, w ∈ nodeWrites t.nodes) :
    RecoversTo j₀ (applyWrites img ws) (applyWrites img₀ (nodeWrites gens.flatten)) := by
  have hj := h.region.placed h₀
  obtain ⟨p, s, hlive, -⟩ := h.live
  have hhome : ∀ w ∈ ws, Home j w.1 := by
    intro w hw
    obtain ⟨t, ht, hwt⟩ := hws w hw
    exact h.homeWrites (h.fits t ht) w hwt
  have hend : DiskLog.Ends j (applyWrites img ws) p s (log.map fun t => txnOf t.nodes) := by
    refine (h.kept.below.of_home hhome).scanAt_none hj _ ?_
    rw [← hlive.next_eq]
  refine (hlive.of_home hhome).toDiskLog.recoversTo h₀ h.region (fun t ht => (h.fits t ht).toGeneration)
    (fun _ => hend) ?_
  intro b hb
  rw [applyWrites_absorb, h.kept.content b hb]
  intro w hw
  obtain ⟨t, ht, hwt⟩ := hws w hw
  obtain ⟨d, hd, rfl⟩ := List.mem_map.mp hwt
  exact ⟨_, mem_nodeWrites.mpr (List.mem_flatMap.mpr ⟨t, ht, hd⟩), rfl⟩

theorem OnDisk.recovers (h : OnDisk (Upkeep.fresh j₀ h₀ img₀) gens j img log) :
    RecoversTo j₀ img (applyWrites img₀ (nodeWrites gens.flatten)) := by
  have hnone : ∀ w ∈ ([] : List (UInt64 × Block)), ∃ t ∈ log, w ∈ nodeWrites t.nodes := by simp
  exact h.recoversTo hnone

/-- A crash during a commit is recovered without the generation or with it. -/
theorem OnDisk.recoversTo_commit (h : OnDisk (Upkeep.fresh j₀ h₀ img₀) gens j img log)
    (hgen : PlainGeneration j₀ nodes) (hroom : j.HasRoom (txnOf nodes)) (hoff : j.OffsetsFit nodes)
    (hi : CommitCrash j (txnOf nodes) img i) :
    RecoversTo j₀ i (applyWrites img₀ (nodeWrites gens.flatten)) ∨
      RecoversTo j₀ i (applyWrites img₀ (nodeWrites (gens ++ [nodes]).flatten)) := by
  have hj := h.region.placed h₀
  obtain ⟨p, s, hlive, -⟩ := h.live
  have hhead := head_toNat hlive
  have hend : j.head.toNat + nodes.length + 2 < 2 ^ 64 := hoff (h.region.maxlen ▸ hgen.room)
  have hbound : p + logLen (log.map fun t => txnOf t.nodes) + (txnOf nodes).len < 2 ^ 64 := by
    rw [txnOf_len]
    omega
  have hhome : ∀ b, Home j₀ b → i b = img b := fun b hb => hi.home hj (h.region.home.mpr hb)
  have hplain := txnOf_plain hgen.plain
  have hfits : ∀ t ∈ log, Generation j₀ t.nodes := fun t ht => (h.fits t ht).toGeneration
  rcases hlive.commitCrash hroom hbound hi with ⟨hdisk, hbelow⟩ | ⟨hdisk, hbelow⟩
  · left
    refine hdisk.recoversTo h₀ h.region hfits ?_ ?_
    · intro hne
      refine (hbelow (by simpa using hne) hplain _ h.kept.below).scanAt_none hj _ ?_
      rw [← hlive.next_eq]
    · intro b hb
      rw [← h.kept.content b hb]
      exact applyWrites_congr (.inr (hhome b hb))
  · right
    have hle := h.kept.next_le
    have hnext : (j.nextSequence + 1).toNat = j.nextSequence.toNat + 1 := by
      rw [UInt64.toNat_add]
      exact Nat.mod_eq_of_lt (by simp; omega)
    have hlog : (log.map fun t => txnOf t.nodes) ++ [txnOf nodes] =
        (log ++ [(⟨j.nextSequence, j.head, nodes⟩ : CommittedTxn)]).map fun t => txnOf t.nodes := by simp
    rw [hlog] at hdisk
    refine hdisk.recoversTo h₀ h.region ?_ ?_ ?_
    · intro t ht
      rcases List.mem_append.mp ht with ht | ht
      · exact hfits t ht
      · rw [List.mem_singleton.mp ht]
        exact hgen.toGeneration
    · intro _
      refine (hbelow hplain h.kept.below).scanAt_none hj _ ?_
      rw [← hlog, List.length_append, List.length_singleton, ← seq_succ, UInt64.add_assoc,
        UInt64.add_comm 1, ← UInt64.add_assoc, ← hlive.next_eq, hnext]
    · exact fun b hb => content_snoc (h.kept.content b hb) (hhome b hb)

/-- The generation whose commit has not returned yet. -/
def Caller.unlogged : Caller → List (List DirtyBlock)
  | .reclaim nodes => [nodes]
  | _ => []

def Pc.unlogged : Pc → List (List DirtyBlock)
  | .reclaim _ nodes | .commit _ nodes => [nodes]
  | .unlink _ caller | .writeHome _ _ _ caller | .nextTail _ _ caller | .advance _ _ caller =>
      caller.unlogged
  | _ => []

/-- A generation that fits the region finds room once there is nothing left to reclaim. -/
theorem OnDisk.hasRoom (h : OnDisk (Upkeep.fresh j₀ h₀ img₀) gens j img log)
    (hgen : PlainGeneration j₀ nodes) (hroom : j.HasRoom (txnOf nodes) ∨ log = []) :
    j.HasRoom (txnOf nodes) := by
  rcases hroom with hroom | rfl
  · exact hroom
  · obtain ⟨p, s, hlive, -⟩ := h.live
    rw [List.map_nil] at hlive
    have hfits := hgen.room
    rw [hlive.hasRoom, logLen_nil, txnOf_len, h.region.maxlen]
    omega

theorem PipeAt.recoversTo {m : TxnMgr} {d : Disk} {pc : Pc}
    (h : PipeAt (Upkeep.fresh j₀ h₀ img₀) gens m d pc) (hi : Survives d i) :
    RecoversTo j₀ i (applyWrites img₀ (nodeWrites gens.flatten)) ∨
      ∃ nodes, pc.unlogged = [nodes] ∧
        RecoversTo j₀ i (applyWrites img₀ (nodeWrites (gens ++ [nodes]).flatten)) := by
  have hsettled : ∀ {j img log}, d = settled img → OnDisk (Upkeep.fresh j₀ h₀ img₀) gens j img log →
      RecoversTo j₀ i (applyWrites img₀ (nodeWrites gens.flatten)) := by
    rintro j img log rfl hdisk
    rw [survives_settled.mp hi]
    exact hdisk.recovers
  cases pc with
  | top j | lag j =>
      obtain ⟨img, hset, hdisk⟩ := h
      exact .inl (hsettled hset hdisk)
  | reclaim j nodes | unlink j caller =>
      obtain ⟨img, hset, hdisk, -⟩ := h
      exact .inl (hsettled hset hdisk)
  | link j nodes rc =>
      obtain ⟨img, hset, hdisk⟩ := h
      exact .inl (hsettled hset hdisk)
  | writeHome j t rest caller =>
      obtain ⟨img, done, hnodes, rfl, hdisk, -⟩ := h
      obtain ⟨ws, hsub, rfl⟩ := survives_settled_writes hi
      refine .inl (hdisk.recoversTo fun w hw => ⟨t, List.mem_cons_self, ?_⟩)
      rw [hnodes, nodeWrites_append]
      exact List.mem_append_left _ (hsub.subset hw)
  | nextTail j t caller =>
      obtain ⟨img, rfl, hdisk, -⟩ := h
      rw [survives_settled.mp hi]
      exact .inl (hdisk.recoversTo fun w hw => ⟨t, List.mem_cons_self, hw⟩)
  | advance p t caller =>
      obtain ⟨j, img, hdisk, -, hreach⟩ := h
      left
      have hnow := ((meets_advance_crash (hdisk.region.placed h₀) _ _ _).reaches hreach).now
      rcases hnow i hi with rfl | rfl
      · exact hdisk.recoversTo fun w hw => ⟨t, List.mem_cons_self, hw⟩
      · exact hdisk.checkpoint.recovers
  | commit p nodes =>
      obtain ⟨j, img, hdisk, hwait, hroom, hreach⟩ := h
      have hfits := hdisk.hasRoom hwait.1 hroom
      have hmeets := meets_journalCommit (hdisk.region.placed h₀)
        (txnOf_fits (PlainGeneration.toGeneration hwait.1).length_le) hfits
        (commitStates_crash j (txnOf nodes) img) (Q := fun _ _ => True) trivial
      have hnow := (hmeets.reaches hreach).now i hi
      exact (hdisk.recoversTo_commit hwait.1 hfits hwait.2 hnow).imp_right fun h => ⟨nodes, rfl, h⟩
  | frozen | orderedFlush | emptyCycle | exited => exact h.elim

/-! ## What has been given and what has been committed -/

@[simp] theorem unlogged_resume (j : Journal) (done : Bool) (caller : Caller) :
    (resume j done caller).unlogged = caller.unlogged := by
  cases caller <;> cases done <;> rfl

theorem PipeAt.unlogged_step {c c' : Core} (h : PipeAt (Upkeep.fresh j₀ h₀ img₀) gens c.mgr c.disk c.pc)
    (hbusy : c.pc.idle = false) (hstep : ThreadStep c c') :
    c.pc.unlogged = (committing c).toList ++ c'.pc.unlogged := by
  cases hstep with
  | drain | freeze => exact absurd hbusy (by simp [Pc.idle])
  | take ends up =>
      rcases up with ⟨rfl, -⟩ | rfl
      · exact absurd hbusy (by simp [Pc.idle])
      · exact h.elim
  | orderedFlush | emptyCycle => exact h.elim
  | unlinkNone | writeHomeError | advanced =>
      rw [unlogged_resume]
      rfl
  | commit op =>
      cases op with
      | op o k s => rfl
  | @committed m d rc j' nodes =>
      obtain ⟨j, img, hdisk, hwait, hroom, hreach⟩ := h
      have hfits := hdisk.hasRoom hwait.1 hroom
      have hrun := reaches_run_eq faultless hreach
      rw [run_journalCommit_nodes (hdisk.region.placed h₀)
        (PlainGeneration.toGeneration hwait.1).length_le, if_pos (show _ ≤ _ from hfits)] at hrun
      simp only [run_ret, Prod.mk.injEq] at hrun
      obtain ⟨⟨rfl, rfl⟩, -⟩ := hrun
      rfl
  | _ => rfl

/-- The run's invariant. -/
structure MountOk (h₀ : j₀.Placed) (img₀ : Image) (s : Pipe) : Prop where
  pipe : PipeOk (Upkeep.fresh j₀ h₀ img₀) s
  given : s.given = s.logged ++ s.pc.unlogged

theorem MountOk.step {s s' : Pipe} {a : PipeAction} (hmount : mountCalls j₀ s a) (hoff : offsetsFit s a)
    (hstep : Pipe.Steps s a s') (h : MountOk h₀ img₀ s) : MountOk h₀ img₀ s' := by
  have haccepts : (Upkeep.fresh j₀ h₀ img₀).Accepts s a := by
    cases a with
    | thread => trivial
    | call f =>
        cases f with
        | checkpointOldest => trivial
        | doCommit nodes =>
            obtain ⟨-, hgen, hroom, hplain⟩ := hmount
            exact ⟨⟨hgen, hroom, hplain⟩, hoff⟩
  refine ⟨h.pipe.step h₀ haccepts hstep, ?_⟩
  cases hstep with
  | @call f j hj =>
      have hnone : s.pc.unlogged = [] := by
        generalize s.pc = pc at hj
        cases pc <;> simp_all [Pc.returned, Pc.unlogged]
      dsimp only
      rw [h.given, hnone, List.append_nil]
      cases f with
      | doCommit nodes => rfl
      | checkpointOldest => exact hmount.elim
  | thread hbusy hnow =>
      dsimp only
      rw [h.given, h.pipe.at_pc.unlogged_step hbusy hnow, List.append_assoc]

/-- A freshly formatted journal on a device whose journal region holds zero blocks. -/
structure FreshRegion (j : Journal) (img : Image) : Prop where
  placed : j.Placed
  opened : j.head = 0 ∧ j.tail = 0 ∧ j.nextSequence = 1
  zero : ZeroRegion j img
  magic : (jsuperOf img).magic = journalMagic
  start : (jsuperOf img).start = journalEmpty

theorem FreshRegion.mountOk (h : FreshRegion j₀ img₀) (mode : DataMode) :
    MountOk h.placed img₀ (Pipe.boot j₀ img₀ mode) := by
  obtain ⟨hhead, htail, hnext⟩ := h.opened
  have hlive := liveLog_empty h.placed (htail.trans hhead.symm) h.magic h.start
  refine ⟨⟨rfl, img₀, rfl, ⟨rfl, rfl, rfl⟩, ⟨_, _, hlive, ?_⟩, ?_, ?_, ?_, ?_⟩, rfl⟩
  · exact ⟨by simp, rfl⟩
  · intro t ht
    simp [Pipe.boot, txnMgrCreate] at ht
  · intro b hb hm
    rw [h.zero b hb, magicOf_zeroBlock] at hm
    exact absurd hm (by decide)
  · rw [hnext, hhead]
    decide
  · intro b _
    rfl

/-- Every crash of the pipeline is recovered to a prefix of the generations that no committed
one is missing from, as long as no offset passes 64 bits. -/
theorem crashAtomic_of_offsetsFit (h : FreshRegion j₀ img₀) (mode : DataMode) :
    CrashAtomic (fun s a => mountCalls j₀ s a ∧ offsetsFit s a) j₀ img₀ mode := by
  intro s i hrun hi
  have hok : MountOk h.placed img₀ s := hrun.invariant (h.mountOk mode)
    fun _ _ _ hguard hnow hs => hs.step hguard.1 hguard.2 (Pipe.step_sound hnow)
  rcases hok.pipe.at_pc.recoversTo hi with hrec | ⟨nodes, hnodes, hrec⟩
  · refine ⟨s.logged.length, le_rfl, ?_, ?_⟩
    · rw [hok.given, List.length_append]
      exact Nat.le_add_right _ _
    · rw [hok.given, List.take_left]
      exact hrec
  · refine ⟨s.given.length, ?_, le_rfl, ?_⟩
    · rw [hok.given, List.length_append]
      exact Nat.le_add_right _ _
    · rw [List.take_length, hok.given, hnodes]
      exact hrec

end Crash

/-! ## A region of three blocks -/

theorem freshRegion_short : FreshRegion shortJournal shortImage where
  placed := placed_short
  opened := ⟨rfl, rfl, rfl⟩
  zero b hb := Function.update_of_ne (hb.ne_jsuper placed_short) _ _
  magic := by simp [jsuperOf, shortImage]
  start := by simp [jsuperOf, shortImage]

theorem crashAtomic_short :
    CrashAtomic (fun s a => mountCalls shortJournal s a ∧ offsetsFit s a) shortJournal shortImage
      .ordered := crashAtomic_of_offsetsFit freshRegion_short .ordered

theorem plainGeneration_short {data : Block} (hplain : ¬ IsRecord data) :
    PlainGeneration shortJournal [⟨20, data⟩] where
  length_le := by simp [maxTagsPerDesc]
  home := by simp only [List.forall_mem_singleton]; decide
  lt := by simp only [List.forall_mem_singleton]; decide
  room := by rw [List.length_singleton]; decide
  plain := by simpa using hplain

/-- What an image marked empty recovers to is the image. -/
theorem home_of_recoversTo {j : Journal} {img target : Image} (hj : j.Placed)
    (hmagic : (jsuperOf img).magic = journalMagic) (hstart : (jsuperOf img).start = journalEmpty)
    (h : RecoversTo j img target) {b : UInt64} (hb : Home j b) : target b = img b := by
  have hnone : installsOf j img = [] := by
    rw [installsOf, foundByRecover, if_pos hstart]
    rfl
  have hview := view_mountRecover hj hmagic (by simp [hnone, InstallsHome]) hb
  rw [hnone, applyWrites_nil] at hview
  rw [← hview, h.2 b hb]

/-- Three blocks at a time the head reaches the offset that marks an empty log. The next
transaction is committed there, and recovery does not look for it: the first word of block
20 stays 0, where the last generation puts 7. -/
theorem not_crashAtomic : FreshRegion shortJournal shortImage ∧
    ¬ CrashAtomic (mountCalls shortJournal) shortJournal shortImage .ordered := by
  refine ⟨freshRegion_short, fun h => ?_⟩
  have hmagic7 : magicOf (ByteBuffer.store zeroBlock 0 (7 : UInt32)) = 7 :=
    ByteBuffer.load_store _ _ _ (by decide)
  have hzero : PlainGeneration shortJournal [⟨20, zeroBlock⟩] :=
    plainGeneration_short (by simp [IsRecord, descMagic, commitMagic, revokeMagic])
  have hseven : PlainGeneration shortJournal [⟨20, ByteBuffer.store zeroBlock 0 (7 : UInt32)⟩] :=
    plainGeneration_short (by simp [IsRecord, hmagic7, descMagic, commitMagic, revokeMagic])
  obtain ⟨n, hn⟩ : ∃ n, 3 * n = 2 ^ 64 - 1 := ⟨6148914691236517205, by decide⟩
  obtain ⟨⟨hdev, img, hset, hlog⟩, -⟩ := freshRegion_short.mountOk .ordered
  have htop : Pipe.AtTop (Upkeep.fresh shortJournal placed_short shortImage)
      (Pipe.boot shortJournal shortImage .ordered) shortJournal img := ⟨hdev, rfl, hset, hlog⟩
  obtain ⟨s, j, img', hrun, hend, hhead, hlogged, hgiven⟩ :=
    htop.commits (mountCalls shortJournal) placed_short rfl rfl hzero
      (fun s j hj => ⟨by rw [hj]; rfl, hzero.toGeneration, hzero.room, hzero.plain⟩)
      (fun _ => trivial) n (by omega)
  obtain ⟨m', j', img'', hlast, hdisk, hmagic, hempty⟩ :=
    hend.lastCommit (mountCalls shortJournal) placed_short rfl (hhead.trans hn) hseven
      ⟨by rw [hend.pc]; rfl, hseven.toGeneration, hseven.room, hseven.plain⟩ fun _ => trivial
  obtain ⟨k, hle, hge, hrec⟩ := h _ _ (hrun.trans hlast) (survives_view _)
  have hhome : Home shortJournal 20 := by decide
  have htarget := home_of_recoversTo placed_short hmagic hempty hrec hhome
  rw [commitImage_home (hdisk.region.placed placed_short) (hdisk.region.home.mpr hhome)] at htarget
  -- what the earlier generations left in block 20
  have hbefore := hdisk.kept.content 20 hhome
  simp only [Pipe.afterCommit, hlogged, hgiven, List.length_append, List.length_replicate,
    Pipe.boot, List.nil_append, List.length_singleton] at hle hge htarget hbefore
  have hk : k = n + 1 := by omega
  have hnoop : applyWrites shortImage (nodeWrites (List.replicate n [⟨20, zeroBlock⟩]).flatten) =
      shortImage := by
    apply applyWrites_of_noop
    intro w hw
    obtain ⟨d, hd, rfl⟩ := List.mem_map.mp hw
    obtain ⟨l, hl, hdl⟩ := List.mem_flatten.mp hd
    rw [List.eq_of_mem_replicate hl, List.mem_singleton] at hdl
    rw [hdl]
    rfl
  rw [hnoop] at hbefore
  rw [hk, List.take_of_length_le (by simp), List.flatten_append, nodeWrites_append,
    applyWrites_append, hnoop, show img'' 20 = shortImage 20 from hbefore] at htarget
  have hword := congrArg magicOf htarget
  have hfirst : magicOf (shortImage 20) = 0 := magicOf_zeroBlock
  simp [hmagic7, hfirst] at hword

end Logfs
