import Logfs.FsyncDurability
import Logfs.MountedFiles

/-!
# fsync on the mounted file system

A call that waits for its target waits for a commit of all the calls that have returned before it, unless
the target has been reached already or the cycle under way has missed some of them. So a crash after the
wait loses none of them.
-/
namespace Logfs
open Interaction WriteCache Transition

namespace Mounted

def afterThread (s : Mounted) (c : Core) : Mounted :=
  { s with
    toCore := c
    frozenAt := if endsFreeze s.toCore then s.returned.length else s.frozenAt
    durable := if settles s.toCore then s.frozenAt else s.durable }

/-- The first `n` calls are durable, or `target` is reached only by a cycle that makes them so. -/
def Covers (n : ℕ) (target : UInt64) (s : Mounted) : Prop :=
  n ≤ s.durable ∨ s.mgr.completedThrough < target ∧ (s.pc.inCycle = true → n ≤ s.frozenAt)

/-- Once the transaction is on disk the calls before its freeze count as durable. -/
def Linked (s : Mounted) : Prop := ∀ j nodes rc, s.pc = .link j nodes rc → s.durable = s.frozenAt

/-- What the other threads leave alone of the commit thread's progress. -/
structure SameProgress (s s' : Mounted) : Prop where
  pc : s'.pc = s.pc
  durable : s'.durable = s.durable
  frozenAt : s'.frozenAt = s.frozenAt
  completed : s'.mgr.completedThrough = s.mgr.completedThrough
  returned : s.returned.length ≤ s'.returned.length

end Mounted

section Steps
variable {sb : Super} {j₀ : Journal} {mode : DataMode} {v₀ : Image} {s s' : Mounted} {c : Core} {a : MountAction}
  {n : ℕ} {target : UInt64}

theorem goOn_progress (s : Mounted) (c : UserCall × UInt64) (p : TxnM (Except Errno Reply)) :
    s.SameProgress (s.goOn c p) := by
  cases p with
  | op o k => exact ⟨rfl, rfl, rfl, rfl, le_rfl⟩
  | ret r => exact ⟨rfl, rfl, rfl, rfl, by simp [Mounted.goOn]⟩

theorem afterFreeze_ne_link {j j' : Journal} {nodes nodes' : List DirtyBlock} {rc : Except Errno (UInt64 × UInt64)} :
    afterFreeze j nodes ≠ .link j' nodes' rc := by
  unfold afterFreeze
  split <;> exact Pc.noConfusion

theorem resume_ne_link {j j' : Journal} {done : Bool} {caller : Caller} {nodes : List DirtyBlock}
    {rc : Except Errno (UInt64 × UInt64)} : resume j done caller ≠ .link j' nodes rc := by
  cases caller <;> cases done <;> exact Pc.noConfusion

theorem Mounted.Linked.thread (hcore : CoreOk j₀ s.toCore) (hstep : ThreadStep s.toCore c) : (s.afterThread c).Linked := by
  obtain ⟨core, current, handle, aborted, returned, replied, frozenAt, durable⟩ := s
  intro j nodes rc hpc
  change c.pc = _ at hpc
  dsimp only at hcore hstep
  cases hstep with
  | committed =>
      obtain ⟨j, -, -, hcom⟩ := hcore.pc
      obtain ⟨hret, -⟩ := Interaction.Meets.run hcom
      simp only [run_ret, Prod.mk.injEq] at hret
      obtain ⟨rfl, rfl⟩ := hret
      rfl
  | take =>
      simp only [endFreeze] at hpc
      split at hpc
      · cases hpc
      · exact absurd hpc afterFreeze_ne_link
  | orderedFlush => exact absurd hpc afterFreeze_ne_link
  | unlinkNone | writeHomeError | advanced => exact absurd hpc resume_ne_link
  | _ => cases hpc

/-- The target is reached with the calls durable. -/
theorem Mounted.Covers.thread (h : s.Covers n target) (hlinked : s.Linked) (hle : s.durable ≤ s.frozenAt)
    (hn : n ≤ s.returned.length) (hcore : CoreOk j₀ s.toCore) (hstep : ThreadStep s.toCore c) :
    (s.afterThread c).Covers n target := by
  rcases h with hdone | ⟨hlt, hcycle⟩
  · left
    change n ≤ if settles s.toCore then s.frozenAt else s.durable
    split
    · exact hdone.trans hle
    · exact hdone
  · have hkeep : c.mgr.completedThrough = s.mgr.completedThrough → (c.pc.inCycle = true → s.pc.inCycle = true) →
        (s.afterThread c).Covers n target := by
      refine fun hsame hin => .inr ⟨hsame ▸ hlt, fun hnext => ?_⟩
      change n ≤ if endsFreeze s.toCore then s.returned.length else s.frozenAt
      split
      · exact hn
      · exact hcycle (hin hnext)
    obtain ⟨core, current, handle, aborted, returned, replied, frozenAt, durable⟩ := s
    dsimp only at *
    cases hstep with
    | drain | freeze => exact hkeep rfl fun hnext => by cases hnext
    | take ends =>
        refine .inr ⟨?_, fun _ => ?_⟩
        · rw [Mounted.afterThread, endFreeze_of_staged hcore.staged]
          exact hlt
        · rw [Mounted.afterThread]
          dsimp only
          rw [if_pos ends]
          exact hn
    | orderedFlush => exact hkeep rfl fun _ => rfl
    | unlinkNone | writeHomeError | advanced =>
        refine hkeep rfl fun hnext => ?_
        rwa [inCycle_resume] at hnext
    | emptyCycle => exact .inl (hcycle rfl)
    | link => exact .inl ((hcycle rfl).trans_eq (hlinked _ _ _ rfl).symm)
    | _ => exact hkeep rfl id

/-- Only the commit thread makes progress. -/
theorem step_progress (hvol : OnVolume sb j₀) (hok : crashRules j₀ s a) (hnow : s.step sb a = some s')
    (h : CrashOk sb hvol.placed mode v₀ s) :
    s.SameProgress s' ∨ ∃ c, ThreadStep s.toCore c ∧ s' = s.afterThread c := by
  cases Mounted.step_sound hnow with
  | abort | commitSync => exact .inl ⟨rfl, rfl, rfl, rfl, le_rfl⟩
  | call => exact .inl (goOn_progress _ _ _)
  | @txn c o k r core hask hserved =>
      obtain ⟨hframe, -⟩ := h.toMountedOk.served hvol hok.1 hask hserved
      have hrest := goOn_progress { s with toCore := core, handle := handleAfter s.mgr s.handle o } c (k r)
      exact .inl ⟨hrest.pc.trans hframe.pc, hrest.durable, hrest.frozenAt, hrest.completed.trans hframe.completed,
        hrest.returned⟩
  | thread hstep => exact .inr ⟨_, hstep, rfl⟩

theorem linked_preserved (hvol : OnVolume sb j₀) : Preserves (Mounted.step sb) (crashRules j₀)
    (fun s => CrashOk sb hvol.placed mode v₀ s ∧ s.Linked) := by
  rintro s s' a hok hnow ⟨h, hlinked⟩
  refine ⟨crashOk_preserved hvol hok hnow h, ?_⟩
  obtain ⟨g, v, hsees, -⟩ := h.sees
  rcases step_progress hvol hok hnow h with hsame | ⟨c, hstep, rfl⟩
  · intro j nodes rc hpc
    rw [hsame.durable, hsame.frozenAt]
    exact hlinked j nodes rc (hsame.pc ▸ hpc)
  · exact .thread hsees.core hstep

theorem covers_preserved (hvol : OnVolume sb j₀) : Preserves (Mounted.step sb) (crashRules j₀) (fun s =>
    (CrashOk sb hvol.placed mode v₀ s ∧ s.Linked) ∧ n ≤ s.returned.length ∧ s.Covers n target) := by
  rintro s s' a hok hnow ⟨⟨h, hlinked⟩, hn, hcovers⟩
  refine ⟨linked_preserved hvol hok hnow ⟨h, hlinked⟩, ?_⟩
  obtain ⟨g, v, hsees, -⟩ := h.sees
  obtain ⟨gens, hlog⟩ := h.log
  rcases step_progress hvol hok hnow h with hsame | ⟨c, hstep, rfl⟩
  · refine ⟨hn.trans hsame.returned, ?_⟩
    unfold Mounted.Covers
    rw [hsame.durable, hsame.frozenAt, hsame.completed, hsame.pc]
    exact hcovers
  · exact ⟨hn, hcovers.thread hlinked hlog.durable_le hn hsees.core hstep⟩

end Steps

/-! ## The wait ends -/

/-- `completed_through` has reached the target. -/
def Reached (target : UInt64) (c : Core) : Prop := ¬ c.mgr.completedThrough < target

/-- A cycle has been asked for, no handle is live, and the target is the current generation. -/
structure Requested (target : UInt64) (m : TxnMgr) : Prop where
  up : m.shutdown = false
  asked : m.commitRequested = true
  quiet : m.runningHandles = 0
  current : m.generationSeq = target

section Wait
variable {target : UInt64} {m : TxnMgr} {j : Journal} {d : Disk} {nodes : List DirtyBlock}

theorem reached_now {c : Core} (h : c.mgr.completedThrough = target) : Reached target c := h ▸ UInt64.lt_irrefl _

theorem Requested.of_ckpt (h : Requested target m) (ts : List CommittedTxn) : Requested target { m with ckpt := ts } :=
  ⟨h.up, h.asked, h.quiet, h.current⟩

theorem reached_commit (hgen : m.generationSeq = target) (p : DevM (Except Errno (UInt64 × UInt64) × Journal))
    (d : Disk) : Comes (Reached target) ⟨m, d, .commit p nodes⟩ :=
  comes_commit (fun _ _ _ => .head rfl (.here (reached_now hgen))) p d

theorem reached_reclaim {m : TxnMgr} {j : Journal} {d : Disk} (hgen : m.generationSeq = target) :
    Comes (Reached target) ⟨m, d, .reclaim j nodes⟩ := by
  by_cases hfull : journalFreeSpace j < journalSpaceNeeded nodes.length 0
  · apply Comes.head (Pipe.threadStep_noSpace hfull)
    apply comes_unlink
    intro ts j d done hshorter
    cases done with
    | false => exact reached_commit (m := { m with ckpt := ts }) hgen _ _
    | true => exact reached_reclaim hgen
  · exact .head (Pipe.threadStep_space hfull) (reached_commit hgen _ _)
termination_by m.ckpt.length
decreasing_by exact hshorter rfl

theorem reached_afterFreeze (hgen : m.generationSeq = target) : Comes (Reached target) ⟨m, d, afterFreeze j nodes⟩ := by
  unfold afterFreeze
  split
  · exact reached_reclaim hgen
  · exact .head rfl (.here (reached_now hgen))

theorem reached_endFreeze (hgen : m.generationSeq = target) (pc : Pc) (j : Journal) :
    Comes (Reached target) (endFreeze ⟨m, d, pc⟩ j) := by
  have hlater : (takeGeneration m).2.generationSeq = target :=
    (congrArg TxnMgr.generationSeq (takeGeneration_snd m)).trans hgen
  simp only [endFreeze]
  split
  · exact .head rfl (reached_afterFreeze hlater)
  · exact reached_afterFreeze hlater

theorem reached_top (h : Requested target m) : Comes (Reached target) ⟨m, d, .top j⟩ := by
  have hidle : cycleIdle m = false := by simp [cycleIdle, h.asked]
  have hfreeze : beginFreeze ⟨m, d, .top j⟩ j = endFreeze ⟨m, d, .top j⟩ j := by
    rw [beginFreeze, if_neg (by simp [h.quiet]), endFreeze_freezing]
  have hstep : threadStep ⟨m, d, .top j⟩ = some (beginFreeze ⟨m, d, .top j⟩ j) := by
    simp only [threadStep, h.up, hidle, Bool.false_eq_true, if_false]
  rw [hfreeze] at hstep
  exact .head hstep (reached_endFreeze h.current _ _)

theorem reached_lag {m : TxnMgr} {j : Journal} {d : Disk} (h : Requested target m) :
    Comes (Reached target) ⟨m, d, .lag j⟩ := by
  by_cases hmore : ckptLag < m.ckpt.length
  · have hstep : threadStep ⟨m, d, .lag j⟩ = some ⟨m, d, .unlink j .lag⟩ := if_pos hmore
    apply Comes.head hstep
    apply comes_unlink
    intro ts j d done hshorter
    cases done with
    | false => exact reached_top (h.of_ckpt ts)
    | true => exact reached_lag (h.of_ckpt ts)
  · have hstep : threadStep ⟨m, d, .lag j⟩ = some ⟨m, d, .top j⟩ := if_neg hmore
    exact .head hstep (reached_top h)
termination_by m.ckpt.length
decreasing_by exact hshorter rfl

theorem reached_resume (h : Requested target m) {caller : Caller} (hcaller : caller.drains = false) (j : Journal)
    (d : Disk) (done : Bool) : Comes (Reached target) ⟨m, d, resume j done caller⟩ := by
  cases caller with
  | reclaim nodes =>
      cases done with
      | false => exact reached_commit h.current _ _
      | true => exact reached_reclaim h.current
  | lag =>
      cases done with
      | false => exact reached_top h
      | true => exact reached_lag h
  | drain => cases hcaller

/-- Wherever in its loop the thread is, it comes to the end of a cycle. -/
theorem reached_of_requested (h : Requested target m) (d : Disk) {pc : Pc} (hpc : pc.draining = false) :
    Comes (Reached target) ⟨m, d, pc⟩ := by
  cases pc with
  | top j => exact reached_top h
  | frozen j =>
      have hstep : threadStep ⟨m, d, .frozen j⟩ = some (endFreeze ⟨m, d, .frozen j⟩ j) := by
        simp only [threadStep, h.quiet, Nat.lt_irrefl, if_false]
      exact .head hstep (reached_endFreeze h.current _ _)
  | orderedFlush j nodes => exact .head rfl (reached_afterFreeze h.current)
  | emptyCycle j => exact .head rfl (.here (reached_now h.current))
  | reclaim j nodes => exact reached_reclaim h.current
  | unlink j caller =>
      apply comes_unlink
      intro ts j d done _
      exact reached_resume (h.of_ckpt ts) hpc j d done
  | writeHome j t rest caller => exact comes_writeHome (reached_resume h hpc) rest d
  | nextTail j t caller => exact comes_nextTail (reached_resume h hpc)
  | advance p t caller => exact comes_advance (reached_resume h hpc) p d
  | commit p nodes => exact reached_commit h.current p d
  | link j nodes rc => exact .head rfl (.here (reached_now h.current))
  | lag j => exact reached_lag h
  | exited j => cases hpc

end Wait

/-! ## The thread stays in its loop -/

section Loop
variable {sb : Super} {j : Journal} {mode : DataMode}

theorem shutdown_findOrCreateDirty (m : TxnMgr) (b : UInt64) (d : Disk) :
    (run faultless (findOrCreateDirty m b) d).1.2.shutdown = m.shutdown := by
  rw [run_findOrCreateDirty]
  cases findDirty m b with
  | some n => rfl
  | none => cases seed m d.view b <;> rfl

theorem shutdown_getWriteAccess (m : TxnMgr) (b : UInt64) (d : Disk) :
    (run faultless (getWriteAccess m b) d).1.2.shutdown = m.shutdown := by
  rw [← shutdown_findOrCreateDirty m b d, getWriteAccess, run_bind]
  rcases run faultless (findOrCreateDirty m b) d with ⟨⟨n, m'⟩, d'⟩
  cases n <;> rfl

theorem shutdown_dirtyMetadata (m : TxnMgr) (b : UInt64) (d : Disk) :
    (run faultless (dirtyMetadata m b) d).1.2.shutdown = m.shutdown := by
  rw [← shutdown_findOrCreateDirty m b d, dirtyMetadata, run_bind]
  rcases run faultless (findOrCreateDirty m b) d with ⟨⟨n, m'⟩, d'⟩
  cases n <;> rfl

theorem shutdown_txnWriteData (m : TxnMgr) (b : UInt64) (buf : Block) (d : Disk) :
    (run faultless (txnWriteData m b buf) d).1.2.shutdown = m.shutdown := by
  unfold txnWriteData
  split
  · have hfound := shutdown_getWriteAccess m b d
    rw [run_bind]
    rcases hrun : run faultless (getWriteAccess m b) d with ⟨⟨r, m'⟩, d'⟩
    rw [hrun] at hfound
    cases r with
    | error e => exact hfound
    | ok old => exact (shutdown_dirtyMetadata _ b d').trans hfound
  · rw [run_bind]
    rcases run faultless (bdevWrite m.dev b buf).run d with ⟨r, d'⟩
    cases r <;> rfl
  · rfl

/-- No function a call may ask for sets the flag. -/
theorem shutdown_managerCall {o : TxnCall} {m : TxnMgr} {p : DevM (TxnRes o × TxnMgr)} (h : managerCall o m = some p)
    (d : Disk) : (run faultless p d).1.2.shutdown = m.shutdown := by
  cases o with
  | start =>
      obtain ⟨⟨hand, m'⟩, hstart, rfl⟩ := Option.map_eq_some_iff.mp h
      unfold txnStart at hstart
      split_ifs at hstart
      cases hstart
      rfl
  | stop | modify =>
      cases h
      rfl
  | readBlock b =>
      cases h
      rw [run_bind]
      rfl
  | getWriteAccess b =>
      cases h
      exact shutdown_getWriteAccess m b d
  | dirtyMetadata b =>
      cases h
      exact shutdown_dirtyMetadata m b d
  | writeData b buf =>
      cases h
      exact shutdown_txnWriteData m b buf d

/-- The flag is not set, and the thread has not left its loop. -/
def Core.Looping (c : Core) : Prop := c.mgr.shutdown = false ∧ c.pc.draining = false

theorem looping_preserved : Preserves (Mounted.step sb) (fun _ _ => True) fun s => s.toCore.Looping := by
  rintro s s' a - hnow ⟨hup, hloop⟩
  cases Mounted.step_sound hnow with
  | abort | commitSync => exact ⟨hup, hloop⟩
  | call =>
      rw [Mounted.toCore_goOn]
      exact ⟨hup, hloop⟩
  | @txn c o k r core hask hserved =>
      rw [Mounted.toCore_goOn]
      obtain ⟨p, m, d, hcall, hrun, rfl⟩ := hserved
      have hsame := shutdown_managerCall hcall s.disk
      rw [hrun] at hsame
      exact ⟨hsame.trans hup, hloop⟩
  | @thread core hstep =>
      refine ⟨hstep.shutdown.trans hup, Bool.eq_false_iff.mpr fun hdrain => ?_⟩
      rcases hstep.draining hdrain with hdown | hleft
      · rw [hup] at hdown
        cases hdown
      · rw [hloop] at hleft
        cases hleft

/-- With no handle live the wait of an `fsync` ends, wherever the commit thread is. -/
theorem fsync_returns {d : Disk} {s s' : Mounted}
    (hrun : Run (Mounted.step sb) (fun _ _ => True) (Mounted.boot j d mode) s) (hquiet : s.mgr.runningHandles = 0)
    (hcall : s.step sb .commitSync = some s') :
    ∃ c, StateTransition.Reaches threadStep s'.toCore c ∧ commitSyncDone c.mgr (commitSyncRequest s.mgr).1 = true := by
  obtain ⟨hup, hloop⟩ := hrun.invariant (I := fun s => s.toCore.Looping) ⟨rfl, rfl⟩ looping_preserved
  cases Mounted.step_sound hcall with
  | commitSync =>
      have hrequest : Requested s.mgr.generationSeq { s.mgr with commitRequested := true } := ⟨hup, rfl, hquiet, rfl⟩
      obtain ⟨c, hreach, hend⟩ := reached_of_requested hrequest s.disk hloop
      exact ⟨c, hreach, Sys.commitSyncDone_iff.mpr fun hlt => absurd hlt hend⟩

end Loop

/-! ## After a format and a mount -/

section Mounted
variable {host : Except Errno Unit} {totalBlocks journalLen now : UInt64} {mode : DataMode} {d d₁ d₂ : Disk}
  {sb : Super} {j : Journal}
  (hformat : run faultless (fsFormat host totalBlocks journalLen mode now).run d = (.ok (), d₁))
  (hmount : run faultless (fsMount ⟨totalBlocks⟩).run d₁ = (.ok (sb, j), d₂))
include hformat hmount

/-- What the calls have done that had returned when `fsync` was called outlasts a crash at any time after its
wait is over. -/
theorem fsync_outlasts (hfits : TableFits totalBlocks) (hsome : 0 < journalLen) (hzero : ZeroRegion j d.view)
    {mode' : DataMode} {s₀ s₁ s : Mounted}
    (hbefore : Run (Mounted.step sb) (crashRules j) (Mounted.boot j d₂ mode') s₀)
    (hbehind : s₀.mgr.completedThrough < (commitSyncRequest s₀.mgr).1)
    (hcycle : s₀.pc.inCycle = true → s₀.frozenAt = s₀.returned.length)
    (hcall : s₀.step sb .commitSync = some s₁) (hafter : Run (Mounted.step sb) (crashRules j) s₁ s)
    (hdone : commitSyncDone s.mgr (commitSyncRequest s₀.mgr).1 = true)
    (hproper : AllProper sb (fun _ _ => True) d₂.view s.returned) :
    ∀ i, Survives s.disk i → ∃ k j' d', s₀.returned.length ≤ k ∧ k ≤ s.returned.length ∧
      run faultless (fsMount ⟨totalBlocks⟩).run (settled i) = (.ok (sb, j'), d') ∧
        AccountFor (s.returned.take k) (s.replied.take k) (vol sb d'.view) := by
  have hvol := onVolume_mounted hformat hmount hfits hsome
  have hboot : CrashOk sb hvol.placed mode' d₂.view (.boot j d₂ mode') :=
    crashOk_of_run hformat hmount hfits hsome hzero .init
  have hstart : CrashOk sb hvol.placed mode' d₂.view s₀ ∧ s₀.Linked :=
    hbefore.invariant ⟨hboot, fun _ _ _ hpc => by cases hpc⟩ (linked_preserved hvol)
  have hrequest : CrashOk sb hvol.placed mode' d₂.view s₁ ∧ s₁.Linked :=
    linked_preserved hvol (show crashRules j s₀ .commitSync from ⟨trivial, fun hthread => by cases hthread⟩) hcall hstart
  have hcovers : s₀.returned.length ≤ s₁.returned.length ∧ s₁.Covers s₀.returned.length (commitSyncRequest s₀.mgr).1 := by
    cases Mounted.step_sound hcall with
    | commitSync => exact ⟨le_rfl, .inr ⟨hbehind, fun hin => (hcycle hin).ge⟩⟩
  obtain ⟨⟨hok, -⟩, -, hend⟩ := hafter.invariant ⟨hrequest, hcovers⟩ (covers_preserved hvol)
  have hdurable : s₀.returned.length ≤ s.durable := by
    refine hend.resolve_right fun hwaits => ?_
    have hdown := Sys.commitSyncDone_iff.mp hdone hwaits.1
    rw [hok.up] at hdown
    cases hdown
  intro i hi
  obtain ⟨k, j', d', hle, hrest⟩ := accountFor_remount hformat hmount hfits hsome hvol hok hproper hi
  exact ⟨k, j', d', hdurable.trans hle, hrest⟩

end Mounted

section Small

/-- A file has been created and written to when `fsync` is called for the first time; nothing is on the
device yet. -/
theorem run_fsync_small : ∃ s₀ s₁ s : Mounted,
    Run (Mounted.step (formatSuper 128 64 .ordered)) (crashRules mountedJournal) smallMount s₀ ∧
      s₀.returned = [smallCreate, smallWrite] ∧ s₀.durable = 0 ∧ s₀.mgr.runningHandles = 0 ∧
      s₀.mgr.completedThrough < (commitSyncRequest s₀.mgr).1 ∧ s₀.pc.inCycle = false ∧
      s₀.step (formatSuper 128 64 .ordered) .commitSync = some s₁ ∧
      Run (Mounted.step (formatSuper 128 64 .ordered)) (crashRules mountedJournal) s₁ s ∧
      s.returned = [smallCreate, smallWrite] ∧ commitSyncDone s.mgr (commitSyncRequest s₀.mgr).1 = true := by
  obtain ⟨s₀, hrun, hend⟩ := exists_run_of_exec (Mounted.step (formatSuper 128 64 .ordered)) (crashRules mountedJournal)
    smallMount (wholeCall smallCreate 15 ++ wholeCall smallWrite 11)
    (fun s₀ => decide (s₀.returned = [smallCreate, smallWrite] ∧ s₀.durable = 0 ∧ s₀.mgr.runningHandles = 0 ∧
      s₀.mgr.completedThrough < (commitSyncRequest s₀.mgr).1 ∧ s₀.pc.inCycle = false) &&
      (s₀.step (formatSuper 128 64 .ordered) .commitSync).any fun s₁ =>
        (exec (guarded (Mounted.step (formatSuper 128 64 .ordered)) (crashRules mountedJournal))
          (List.replicate 15 .thread) s₁).any fun (s : Mounted) =>
            decide (s.returned = [smallCreate, smallWrite] ∧ commitSyncDone s.mgr (commitSyncRequest s₀.mgr).1 = true))
    (by decide +kernel)
  obtain ⟨hbefore, hrest⟩ := Bool.and_eq_true_iff.mp hend
  obtain ⟨hreturned, hdurable, hquiet, hbehind, hcycle⟩ := of_decide_eq_true hbefore
  obtain ⟨s₁, hcall, hwait⟩ := (Option.any_eq_true _ _).mp hrest
  obtain ⟨s, hafter, hdone⟩ := exists_run_of_exec _ _ _ _ _ hwait
  exact ⟨s₀, s₁, s, hrun, hreturned, hdurable, hquiet, hbehind, hcycle, hcall, hafter, of_decide_eq_true hdone⟩

theorem fsync_small : ∃ s₀ s : Mounted, s₀.returned = [smallCreate, smallWrite] ∧ s₀.durable = 0 ∧
    ∀ i, Survives s.disk i → ∃ k j' d', s₀.returned.length ≤ k ∧ k ≤ s.returned.length ∧
      run faultless (fsMount ⟨128⟩).run (settled i) = (.ok (formatSuper 128 64 .ordered, j'), d') ∧
        AccountFor (s.returned.take k) (s.replied.take k) (vol (formatSuper 128 64 .ordered) d'.view) := by
  obtain ⟨s₀, s₁, s, hrun, hbefore, hdurable, -, hbehind, hcycle, hcall, hafter, hreturned, hdone⟩ := run_fsync_small
  exact ⟨s₀, s, hbefore, hdurable, fsync_outlasts run_format_small run_fsMount_small (by decide) (by decide)
    (fun _ _ => rfl) hrun hbehind (fun hin => by rw [hcycle] at hin; cases hin) hcall hafter hdone
    (hreturned ▸ proper_small.upTo 2)⟩

theorem fsync_returns_small : ∃ s s' : Mounted, s.returned = [smallCreate, smallWrite] ∧ s.durable = 0 ∧
    s.step (formatSuper 128 64 .ordered) .commitSync = some s' ∧
    ∃ c, StateTransition.Reaches threadStep s'.toCore c ∧ commitSyncDone c.mgr (commitSyncRequest s.mgr).1 = true := by
  obtain ⟨s, s', -, hrun, hreturned, hdurable, hquiet, -, -, hcall, -⟩ := run_fsync_small
  exact ⟨s, s', hreturned, hdurable, hcall, fsync_returns (hrun.mono fun _ _ _ => trivial) hquiet hcall⟩

end Small
end Logfs
