import Logfs.SystemInvariant

/-!
# Clean unmount

`logfs_txnmgr_destroy` sets `shutdown` and waits for the commit thread. The thread tests
the flag at the head of its loop, before it looks at the staging table, and then only
checkpoints what is already committed.
-/
namespace Logfs
open Interaction WriteCache Transition

/-- No handle is live and nothing is staged, or the thread is already in a freeze. -/
def destroysIdle (s : Sys) : Action → Bool
  | .destroy =>
      s.handles.isEmpty && (s.mgr.ndirty == 0 || match s.pc with | .frozen _ => true | _ => false)
  | _ => true

/-- Once the thread has exited, every home block durably holds the content last staged for
it, and the journal superblock says that the log is empty. -/
def UnmountedClean (j : Journal) (img : Image) (s : Sys) : Prop :=
  ∀ j', s.pc = .exited j' →
    (∀ b, Home j b → s.disk.durable b = applyWrites img (updateWrites s.hist) b) ∧
      (jsuperOf s.disk.durable).start = journalEmpty

def Caller.drains : Caller → Bool
  | .drain => true
  | _ => false

/-- The thread has left its loop. -/
def Pc.draining : Pc → Bool
  | .unlink _ caller | .writeHome _ _ _ caller | .nextTail _ _ caller | .advance _ _ caller =>
      caller.drains
  | .exited _ => true
  | _ => false

/-- After `shutdown` nothing is staged any more, unless a freeze is under way that takes
what is. -/
structure Stopping (s : Sys) : Prop where
  handles : s.mgr.shutdown = true → s.handles = []
  staged : s.mgr.shutdown = true → stagedNodes s.mgr = [] ∨ ∃ j, s.pc = .frozen j
  drains : s.pc.draining = true → s.mgr.shutdown = true
  drained : ∀ j, s.pc = .exited j → s.mgr.ckpt = []

variable {j₀ : Journal} {img : Image} {s : Sys}

theorem draining_afterFreeze (j : Journal) (nodes : List DirtyBlock) :
    (afterFreeze j nodes).draining = false := by
  unfold afterFreeze
  split <;> rfl

@[simp] theorem draining_resume (j : Journal) (done : Bool) (caller : Caller) :
    (resume j done caller).draining = caller.drains := by
  cases caller <;> cases done <;> rfl

theorem resume_eq_exited {j j' : Journal} {done : Bool} {caller : Caller}
    (h : resume j done caller = .exited j') : done = false := by
  cases caller <;> cases done <;> simp_all [resume]

theorem afterFreeze_ne_exited (j j' : Journal) (nodes : List DirtyBlock) :
    afterFreeze j nodes ≠ .exited j' := by
  unfold afterFreeze
  split <;> simp

/-- The thread enters the drain only from the head of its loop, after the flag is set. -/
theorem ThreadStep.draining {c c' : Core} (h : ThreadStep c c') (hdrain : c'.pc.draining = true) :
    c.mgr.shutdown = true ∨ c.pc.draining = true := by
  cases h with
  | drain down => exact .inl down
  | take =>
      simp only [endFreeze] at hdrain
      split at hdrain
      · simp [Pc.draining] at hdrain
      · rw [draining_afterFreeze] at hdrain
        cases hdrain
  | orderedFlush =>
      rw [draining_afterFreeze] at hdrain
      cases hdrain
  | unlinkNone | writeHomeError | advanced =>
      rw [draining_resume] at hdrain
      exact .inr hdrain
  | unlink | writeHome | homeFlush | nextTail | advance => exact .inr hdrain
  | _ => simp [Pc.draining, Caller.drains] at hdrain

/-- The thread exits only with nothing left on the checkpoint list. -/
theorem CoreOk.exited_step {c c' : Core} (hcore : CoreOk j₀ c) (h : ThreadStep c c') {j : Journal}
    (hexit : c'.pc = .exited j) : c'.mgr.ckpt = [] := by
  cases h with
  | take =>
      simp only [endFreeze] at hexit
      split at hexit
      · cases hexit
      · exact absurd hexit (afterFreeze_ne_exited _ _ _)
  | orderedFlush => exact absurd hexit (afterFreeze_ne_exited _ _ _)
  | unlinkNone none => exact none
  | writeHomeError beyond =>
      have hdev := pcOk_dev hcore.pc
      dsimp only at hdev
      rw [hdev] at beyond
      exact absurd (hcore.nodes _ (by simp [Core.nodes, Pc.unhomed])) beyond
  | advanced =>
      obtain ⟨j, hlog, hfit, hadv⟩ := hcore.pc
      obtain ⟨hret, -, -⟩ := Interaction.Meets.run hadv
      simp only [run_ret, Prod.mk.injEq] at hret
      have hdone := resume_eq_exited hexit
      rw [hret.1] at hdone
      cases hdone
  | _ => cases hexit

/-- The only step out of a freeze takes the generation. -/
theorem ThreadStep.frozen {c c' : Core} (h : ThreadStep c c') {j : Journal} (hpc : c.pc = .frozen j) :
    endsFreeze c = true := by
  cases h with
  | take ends => exact ends
  | _ => cases hpc

theorem CoreOk.taken {c c' : Core} (hcore : CoreOk j₀ c) (h : ThreadStep c c')
    (hends : endsFreeze c = true) : stagedNodes c'.mgr = [] := by
  cases h with
  | take =>
      rw [endFreeze_of_staged hcore.staged]
      exact stagedNodes_of_empty rfl
  | drain down => simp [endsFreeze, down] at hends
  | freeze up wait => simp [endsFreeze] at hends; omega
  | _ => cases hends

theorem stopping_boot (j : Journal) (img : Image) (mode : DataMode) : Stopping (Sys.boot j img mode) where
  handles _ := rfl
  staged _ := .inl (stagedNodes_of_empty rfl)
  drains hdrain := by cases hdrain
  drained _ hexit := by cases hexit

namespace Stopping

theorem thread (h : Stopping s) (hcore : CoreOk j₀ s.toCore) {c : Core}
    (hstep : ThreadStep s.toCore c) : Stopping (s.afterThread c) where
  handles hdown := h.handles (hstep.shutdown ▸ hdown)
  staged hdown := by
    left
    change stagedNodes c.mgr = []
    rcases hstep.buckets with hends | ⟨hsame, -⟩
    · exact hcore.taken hstep hends
    · rcases h.staged (hstep.shutdown ▸ hdown) with hnone | ⟨j, hpc⟩
      · rw [stagedNodes, hsame]
        exact hnone
      · exact hcore.taken hstep (hstep.frozen hpc)
  drains hdrain := by
    change c.mgr.shutdown = true
    rw [hstep.shutdown]
    exact (hstep.draining hdrain).elim id h.drains
  drained j hexit := hcore.exited_step hstep hexit

/-- Once the flag is set no handle is left to stage anything. -/
theorem up_of_live (h : Stopping s) {g : LiveHandle} (hlive : g ∈ s.handles) :
    s.mgr.shutdown = false := by
  cases hdown : s.mgr.shutdown with
  | false => rfl
  | true =>
      rw [h.handles hdown] at hlive
      simp at hlive

/-- Steps that leave the thread alone, taken before the flag is set. -/
theorem of_up (h : Stopping s) {s' : Sys} (hup : s.mgr.shutdown = false)
    (hdown : s'.mgr.shutdown = s.mgr.shutdown) (hckpt : s'.mgr.ckpt = s.mgr.ckpt)
    (hpc : s'.pc = s.pc) : Stopping s' where
  handles hs := by simp [hdown, hup] at hs
  staged hs := by simp [hdown, hup] at hs
  drains hdrain := hdown ▸ h.drains (hpc ▸ hdrain)
  drained j hexit := hckpt ▸ h.drained j (hpc ▸ hexit)

theorem step (h : Stopping s) (hsys : SysOk j₀ img s) {a : Action} {s' : Sys}
    (hidle : destroysIdle s a = true) (hstep : Sys.Steps s a s') : Stopping s' := by
  cases hstep with
  | thread hnow => exact h.thread hsys.core hnow
  | start hup => exact h.of_up hup rfl rfl rfl
  | abort | accessFailed | syncReturn => exact ⟨h.handles, h.staged, h.drains, h.drained⟩
  | accessStaged hlive | accessNew hlive | bufWrite hlive | stop hlive =>
      exact h.of_up (h.up_of_live hlive) rfl rfl rfl
  | syncNow hup | syncWait hup => exact h.of_up hup rfl rfl rfl
  | destroy hup =>
      simp only [destroysIdle, Bool.and_eq_true, List.isEmpty_iff, Bool.or_eq_true, beq_iff_eq] at hidle
      refine ⟨fun _ => hidle.1, fun _ => ?_, fun _ => rfl, h.drained⟩
      rcases hidle.2 with hzero | hfrozen
      · exact .inl (hsys.core.staged.stagedNodes_eq_nil.mpr hzero)
      · right
        split at hfrozen
        · next j hpc => exact ⟨j, hpc⟩
        · cases hfrozen

/-- At the exit no content is left anywhere but home. -/
theorem unmountedClean (h : Stopping s) (hsys : SysOk j₀ img s) : UnmountedClean j₀ img s := by
  intro j hexit
  have hpc := hsys.core.pc
  rw [hexit] at hpc
  have hdown := h.drains (by rw [hexit]; rfl)
  have hckpt := h.drained j hexit
  have hstaged : stagedNodes s.mgr = [] := by
    refine (h.staged hdown).resolve_right ?_
    rintro ⟨j', hfrozen⟩
    rw [hexit] at hfrozen
    cases hfrozen
  have hview : s.disk.view = s.disk.durable := by rw [Cache.view, hpc.2, applyWrites_nil]
  have hnodes : s.toCore.nodes = [] := by
    rw [Core.nodes, hexit, ckptNodes, hckpt, hstaged]
    rfl
  constructor
  · intro b hb
    rw [← hsys.content b hb, Core.content, hnodes, ← hview]
    rfl
  · rw [← hview]
    exact hsys.core.emptied hckpt (by rw [hexit]; rfl)

end Stopping

/-- A run that only calls `logfs_txnmgr_destroy` when nothing is staged, or during a freeze,
loses nothing. -/
theorem unmountedClean_of_destroysIdle (hopen : Opened j₀ img) (mode : DataMode) {s : Sys}
    (hrun : Run Sys.step (fun s a => (smallGeneration j₀ s a && destroysIdle s a) = true)
      (Sys.boot j₀ img mode) s) : UnmountedClean j₀ img s := by
  have hinv : SysOk j₀ img s ∧ Stopping s := by
    refine hrun.invariant (I := fun s => SysOk j₀ img s ∧ Stopping s)
      ⟨sysOk_boot hopen mode, stopping_boot j₀ img mode⟩ ?_
    intro s s' a hok hnow hinv
    obtain ⟨hsmall, hidle⟩ := Bool.and_eq_true_iff.mp hok
    have hstep := Sys.step_sound hnow
    exact ⟨hinv.1.step hopen.placed hsmall hstep, hinv.2.step hinv.1 hidle hstep⟩
  exact hinv.2.unmountedClean hinv.1

/-- No handle is live when the manager is destroyed. -/
def destroysUnused (s : Sys) : Action → Bool
  | .destroy => s.handles.isEmpty
  | _ => true

def hasExited (s : Sys) : Bool :=
  match s.pc with
  | .exited _ => true
  | _ => false

theorem hasExited_iff {s : Sys} : hasExited s = true ↔ ∃ j, s.pc = .exited j := by
  unfold hasExited
  cases s.pc <;> simp

/-- A handle stages a content and stops; the manager is destroyed before the thread's next turn. -/
theorem not_unmountedClean : ∃ s,
    Run Sys.step (fun s a => (smallGeneration tinyJournal s a && destroysUnused s a) = true)
      tinyMount s ∧ ¬ UnmountedClean tinyJournal tinyImage s := by
  obtain ⟨s, hrun, htest⟩ := exists_run_of_exec Sys.step
    (fun s a => (smallGeneration tinyJournal s a && destroysUnused s a) = true) tinyMount
    [.start, .getWriteAccess 0 20, .bufWrite 0 20 fun _ => 1, .stop 0, .destroy, .thread, .thread]
    (fun s => hasExited s && s.disk.durable 20 0 == 0 &&
      applyWrites tinyImage (updateWrites s.hist) 20 0 == 1) (by decide +kernel)
  refine ⟨s, hrun, fun h => ?_⟩
  simp only [Bool.and_eq_true, beq_iff_eq] at htest
  obtain ⟨⟨hexit, hzero⟩, hone⟩ := htest
  obtain ⟨j, hpc⟩ := hasExited_iff.mp hexit
  rw [(h j hpc).1 20 (by decide), hone] at hzero
  exact absurd hzero (by decide)

/-- The same handle, its generation committed before the manager is destroyed. -/
theorem unmountedClean_committed : ∃ s, hasExited s = true ∧ s.hist.length = 2 ∧
    UnmountedClean tinyJournal tinyImage s := by
  obtain ⟨s, hrun, htest⟩ := exists_run_of_exec Sys.step
    (fun s a => (smallGeneration tinyJournal s a && destroysIdle s a) = true) tinyMount
    ([.start, .getWriteAccess 0 20, .bufWrite 0 20 fun _ => 1, .stop 0] ++
      List.replicate 12 .thread ++ [.destroy] ++ List.replicate 9 .thread)
    (fun s => hasExited s && s.hist.length == 2) (by decide +kernel)
  simp only [Bool.and_eq_true, beq_iff_eq] at htest
  exact ⟨s, htest.1, htest.2, unmountedClean_of_destroysIdle opened_tiny .ordered hrun⟩

end Logfs
