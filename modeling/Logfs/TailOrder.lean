import Logfs.Lib.FlakyDevice
import Logfs.SystemInvariant

/-!
# The tail on a device that fails

`do_commit`, `enforce_checkpoint_lag` and `checkpoint_oldest`, called in any order
while writes and flushes fail by any pattern. `checkpoint_oldest` takes a transaction
off the list before it writes its blocks home, whatever becomes of the writes, and the
next call computes the tail from what is left on the list.
-/
namespace Logfs
open Interaction WriteCache Transition

/-! ## The calls -/

/-- A step inside one of the three functions, on a device with any handler. -/
def callStep {σ : Type} (h : Handler (DevRes (A := UInt64) (B := Block) Errno) σ) (m : TxnMgr) (d : σ) :
    Pc → Option (TxnMgr × σ × Pc)
  | .reclaim j nodes =>
      some (m, d, if journalFreeSpace j < journalSpaceNeeded nodes.length 0 then .unlink j (.reclaim nodes)
        else .commit (journalCommit j (pendingBlocks nodes) []) nodes)
  | .unlink j caller =>
      match unlinkOldest m with
      | none => some (m, d, resume j false caller)
      | some (t, m') => some (m', d, .writeHome j t t.nodes caller)
  | .writeHome j t (n :: rest) caller =>
      match run h (bdevWrite m.dev n.blockno n.data).run d with
      | (.ok (), d') => some (m, d', .writeHome j t rest caller)
      | (.error _, d') => some (m, d', resume j false caller)
  | .writeHome j t [] caller =>
      match run h (bdevFlush m.dev).run d with
      | (.ok (), d') => some (m, d', .nextTail j t caller)
      | (.error _, d') => some (m, d', resume j false caller)
  | .nextTail j t caller =>
      some (m, d, .advance (journalAdvanceTail j (newTail m j).1 (newTail m j).2) t caller)
  | .advance (.op o k) t caller => some (m, (h o d).2, .advance (k (h o d).1) t caller)
  | .advance (.ret (rc, j)) _ caller => some (m, d, resume j rc.isOk caller)
  | .commit (.op o k) nodes => some (m, (h o d).2, .commit (k (h o d).1) nodes)
  | .commit (.ret (rc, j)) nodes => some (m, d, .link j nodes rc)
  | .link j nodes rc => some (finishCommit m j nodes rc, d, .lag j)
  | .lag j => some (m, d, if ckptLag < m.ckpt.length then .unlink j .lag else .top j)
  | _ => none

/-- `linked` and `lost` only record the past. -/
structure Calls where
  mgr : TxnMgr
  dev : Flaky UInt64 Block
  pc : Pc
  /-- Every transaction `do_commit` has put on the list, oldest first. -/
  linked : List CommittedTxn
  /-- A write of `checkpoint_oldest` has failed. -/
  lost : Bool

inductive CallAction
  | doCommit (nodes : List DirtyBlock)
  | enforceLag
  | checkpointOldest
  /-- The function returns, not the commit thread's loop but another caller. -/
  | leave
  | run

/-- What `do_commit` has just put on the list. -/
def Pc.links : Pc → List CommittedTxn
  | .link _ nodes (.ok (sequence, descOffset)) => [{ sequence, descOffset, nodes }]
  | _ => []

/-- The step from `pc` to `pc'` is a home write that failed. -/
def failsHome : Pc → Pc → Bool
  | .writeHome _ _ (_ :: _) _, .writeHome .. => false
  | .writeHome _ _ (_ :: _) _, _ => true
  | _, _ => false

namespace Calls

def runAction (pattern : ℕ → Outcome) (s : Calls) : Option Calls :=
  (callStep (flaky pattern .eio) s.mgr s.dev s.pc).map fun (mgr, dev, pc) =>
    { mgr, dev, pc, linked := s.linked ++ s.pc.links, lost := s.lost || failsHome s.pc pc }

def step (pattern : ℕ → Outcome) (s : Calls) : CallAction → Option Calls
  | .doCommit nodes => match s.pc with
      | .top j => some { s with pc := .reclaim j nodes }
      | _ => none
  | .enforceLag => match s.pc with
      | .top j => some { s with pc := .lag j }
      | _ => none
  | .checkpointOldest => match s.pc with
      | .top j => some { s with pc := .unlink j .lag }
      | _ => none
  | .leave => match s.pc with
      | .lag j => some { s with pc := .top j }
      | _ => none
  | .run => s.runAction pattern

def start (j : Journal) (img : Image) (mode : DataMode) : Calls :=
  ⟨txnMgrCreate j j.dev mode, .fresh img, .top j, [], false⟩

/-- The committed transactions older than the first of the list, where the tail goes. -/
def older (s : Calls) : List CommittedTxn := s.linked.take (s.linked.length - s.mgr.ckpt.length)

/-- Whenever the tail is moved, everything older is home and has been flushed there. -/
def TailSafe (s : Calls) : Prop :=
  ∀ p t caller, s.pc = .advance p t caller →
    ∀ u ∈ s.older, ∀ n ∈ u.nodes, FlushedWrite s.dev.trace n.blockno n.data

/-- No transaction is taken off the list once a home write has failed. -/
def keepsList (s : Calls) : CallAction → Bool
  | .run => match s.pc with
      | .unlink .. => !s.lost || s.mgr.ckpt.isEmpty
      | _ => true
  | _ => true

end Calls

/-! ## The invariant -/

/-- An unlinked transaction is in the thread's hands. -/
def Pc.homing : Pc → Bool
  | .writeHome .. | .nextTail .. | .advance .. => true
  | _ => false

/-- Its blocks have been written home and flushed. -/
def Pc.homed : Pc → Bool
  | .nextTail .. | .advance .. => true
  | _ => false

@[simp] theorem homing_resume (j : Journal) (done : Bool) (caller : Caller) :
    (resume j done caller).homing = false := by
  cases caller <;> cases done <;> rfl

theorem failsHome_resume (j j' : Journal) (t : CommittedTxn) (n : DirtyBlock) (rest : List DirtyBlock)
    (done : Bool) (caller caller' : Caller) :
    failsHome (.writeHome j t (n :: rest) caller) (resume j' done caller') = true := by
  cases caller' <;> cases done <;> rfl

theorem homed_of_not_homing {pc : Pc} (h : pc.homing = false) : pc.homed = false := by
  cases pc with
  | nextTail | advance => cases h
  | _ => rfl

/-- A block write on the failing device. -/
theorem run_flaky_bdevWrite (pattern : ℕ → Outcome) (dev : BlockDev) (b : UInt64) (buf : Block)
    (d : Flaky UInt64 Block) :
    (∃ e d', run (flaky pattern .eio) (bdevWrite dev b buf).run d = (.error e, d')) ∨
      ∃ d', run (flaky pattern .eio) (bdevWrite dev b buf).run d = (.ok (), d') ∧
        d'.trace = d.trace ++ [.wrote b buf] := by
  unfold bdevWrite
  split
  · exact .inl ⟨_, d, rfl⟩
  · rcases flaky_write pattern Errno.eio b buf d with ⟨-, hok⟩ | ⟨applied, -, hfail⟩
    · exact .inr ⟨_, hok, rfl⟩
    · exact .inl ⟨_, _, hfail⟩

/-- `old` are the transactions taken off the list. -/
structure CallsOk (s : Calls) (old : List CommittedTxn) : Prop where
  list : s.linked = old ++ s.mgr.ckpt
  written : s.lost = false → ∀ u ∈ old, ∀ n ∈ u.nodes,
    .wrote n.blockno n.data ∈ s.dev.trace ∨ n ∈ s.pc.unhomed
  flushed : s.pc.homed = true → ∀ u ∈ old, ∀ n ∈ u.nodes, FlushedWrite s.dev.trace n.blockno n.data
  kept : s.lost = true → s.pc.homing = false

namespace CallsOk
variable {s s' : Calls} {old : List CommittedTxn} {pattern : ℕ → Outcome}

/-- Outside `checkpoint_oldest` only the list's end and the trace's end can grow. -/
theorem quiet (h : CallsOk s old) {m : TxnMgr} {d : Flaky UInt64 Block} {pc : Pc}
    {new : List CommittedTxn} {lost : Bool} (hckpt : m.ckpt = s.mgr.ckpt ++ new)
    (htrace : s.dev.trace <+: d.trace) (hun : s.pc.unhomed = []) (hpc : pc.homing = false)
    (hlost : lost = false → s.lost = false) : CallsOk ⟨m, d, pc, s.linked ++ new, lost⟩ old where
  list := by
    change s.linked ++ new = old ++ m.ckpt
    rw [h.list, hckpt, List.append_assoc]
  written hkept u hu n hn := by
    have hold := h.written (hlost hkept) u hu n hn
    rw [hun] at hold
    exact .inl (htrace.subset (hold.resolve_right List.not_mem_nil))
  flushed hhomed := by simp [homed_of_not_homing hpc] at hhomed
  kept _ := hpc

/-- The oldest transaction leaves the list with all its blocks still to be written home. -/
theorem unlink (h : CallsOk s old) (hun : s.pc.unhomed = []) (hkept : s.lost = false)
    {t : CommittedTxn} {ts : List CommittedTxn} (hckpt : s.mgr.ckpt = t :: ts) (j : Journal)
    (caller : Caller) :
    CallsOk ⟨{ s.mgr with ckpt := ts }, s.dev, .writeHome j t t.nodes caller, s.linked ++ [], s.lost⟩
      (old ++ [t]) where
  list := by simp [h.list, hckpt]
  written _ u hu n hn := by
    rcases List.mem_append.mp hu with hu | hu
    · have hold := h.written hkept u hu n hn
      rw [hun] at hold
      exact .inl (hold.resolve_right List.not_mem_nil)
    · rw [List.mem_singleton] at hu
      exact .inr (hu ▸ hn)
  flushed hhomed := by simp [Pc.homed] at hhomed
  kept hlost := by simp [hkept] at hlost

/-- A successful home write moves the block from the ones to be written to the trace. -/
theorem wroteHome (h : CallsOk s old) {j : Journal} {t : CommittedTxn} {n : DirtyBlock}
    {rest : List DirtyBlock} {caller : Caller} (hpc : s.pc = .writeHome j t (n :: rest) caller)
    {d : Flaky UInt64 Block} (htrace : d.trace = s.dev.trace ++ [.wrote n.blockno n.data]) :
    CallsOk ⟨s.mgr, d, .writeHome j t rest caller, s.linked ++ [], s.lost⟩ old where
  list := by simp [h.list]
  written hkept u hu n' hn' := by
    rw [htrace]
    rcases h.written hkept u hu n' hn' with hold | hold
    · exact .inl (List.mem_append_left _ hold)
    · rw [hpc] at hold
      rcases List.mem_cons.mp hold with rfl | hold
      · exact .inl (List.mem_append_right _ (List.mem_singleton_self _))
      · exact .inr hold
  flushed hhomed := by simp [Pc.homed] at hhomed
  kept hlost := by simpa [hpc, Pc.homing] using h.kept hlost

/-- After a home write that failed nothing is asked of the trace any more. -/
theorem failedHome (h : CallsOk s old) (j : Journal) (caller : Caller) (d : Flaky UInt64 Block) :
    CallsOk ⟨s.mgr, d, resume j false caller, s.linked ++ [], true⟩ old where
  list := by simp [h.list]
  written hkept := nomatch hkept
  flushed hhomed := by simp [homed_of_not_homing (homing_resume j false caller)] at hhomed
  kept _ := homing_resume j false caller

/-- The flush after the last home write. -/
theorem flushedHome (h : CallsOk s old) {j : Journal} {t : CommittedTxn} {caller : Caller}
    (hpc : s.pc = .writeHome j t [] caller) {d : Flaky UInt64 Block}
    (htrace : d.trace = s.dev.trace ++ [.flushed]) :
    CallsOk ⟨s.mgr, d, .nextTail j t caller, s.linked ++ [], s.lost⟩ old := by
  have hkept : s.lost = false := by
    by_contra hlost
    simpa [hpc, Pc.homing] using h.kept (by simpa using hlost)
  have hall : ∀ u ∈ old, ∀ n ∈ u.nodes, .wrote n.blockno n.data ∈ s.dev.trace := by
    intro u hu n hn
    have hold := h.written hkept u hu n hn
    rw [hpc] at hold
    exact hold.resolve_right List.not_mem_nil
  refine ⟨by simp [h.list], fun _ u hu n hn => ?_, fun _ u hu n hn => ?_, fun hlost => ?_⟩
  · rw [htrace]
    exact .inl (List.mem_append_left _ (hall u hu n hn))
  · rw [htrace]
    exact flushedWrite_flush (hall u hu n hn)
  · simp [hkept] at hlost

/-- Nothing is taken back while the tail is moved. -/
theorem advancing (h : CallsOk s old) (hhomed : s.pc.homed = true)
    (p : DevM (Except Errno Unit × Journal)) (t : CommittedTxn) (caller : Caller)
    {d : Flaky UInt64 Block} (htrace : s.dev.trace <+: d.trace) :
    CallsOk ⟨s.mgr, d, .advance p t caller, s.linked ++ [], s.lost⟩ old := by
  have hnow : ∀ u ∈ old, ∀ n ∈ u.nodes, FlushedWrite d.trace n.blockno n.data := by
    intro u hu n hn
    obtain ⟨more, hmore⟩ := htrace
    rw [← hmore]
    exact (h.flushed hhomed u hu n hn).append more
  refine ⟨by simp [h.list], fun _ u hu n hn => .inl (hnow u hu n hn).wrote, fun _ => hnow, fun hlost => ?_⟩
  have hnot := h.kept hlost
  cases hs : s.pc <;> simp_all [Pc.homing, Pc.homed]

theorem run (h : CallsOk s old) (hkeep : s.keepsList .run = true)
    (hstep : s.runAction pattern = some s') : ∃ old', CallsOk s' old' := by
  obtain ⟨ms, dev, spc, linked, lost⟩ := s
  obtain ⟨⟨m, d, pc⟩, hcall, rfl⟩ := Option.map_eq_some_iff.mp hstep
  -- steps that only add to the trace, and leave `checkpoint_oldest` alone or return from it
  have hquiet : m = ms → dev.trace <+: d.trace → spc.unhomed = [] → pc.homing = false →
      spc.links = [] → ∃ old', CallsOk ⟨m, d, pc, linked ++ spc.links, lost || failsHome spc pc⟩ old' := by
    rintro rfl htrace hun hhoming hlinks
    rw [hlinks]
    exact ⟨old, h.quiet (by simp) htrace hun hhoming fun hlost => by simp_all⟩
  have hgrow : ∀ o, dev.trace <+: (flaky pattern Errno.eio o dev).2.trace := fun o =>
    trace_flaky pattern Errno.eio o dev
  cases spc with
  | top | frozen | orderedFlush | emptyCycle | exited => cases hcall
  | reclaim j nodes =>
      cases hcall
      refine hquiet rfl (List.prefix_refl _) rfl ?_ rfl
      split <;> rfl
  | unlink j caller =>
      cases hckpt : ms.ckpt with
      | nil =>
          simp only [callStep, unlinkOldest, hckpt, Option.some.injEq, Prod.mk.injEq] at hcall
          obtain ⟨rfl, rfl, rfl⟩ := hcall
          exact hquiet rfl (List.prefix_refl _) rfl (homing_resume ..) rfl
      | cons t ts =>
          simp only [callStep, unlinkOldest, hckpt, Option.some.injEq, Prod.mk.injEq] at hcall
          obtain ⟨rfl, rfl, rfl⟩ := hcall
          have hkept : lost = false := by simpa [Calls.keepsList, hckpt] using hkeep
          have hnext := h.unlink rfl hkept hckpt j caller
          exact ⟨_, by simpa [Pc.links, failsHome] using hnext⟩
  | writeHome j t rest caller =>
      cases rest with
      | nil =>
          rcases flaky_flush pattern Errno.eio dev with ⟨-, hok⟩ | ⟨applied, -, hfail⟩
          · have hrun : run (flaky pattern .eio) (bdevFlush ms.dev).run dev = _ := hok
            simp only [callStep, hrun, Option.some.injEq, Prod.mk.injEq] at hcall
            obtain ⟨rfl, rfl, rfl⟩ := hcall
            have hnext := h.flushedHome rfl
              (d := ⟨dev.cache.flush, dev.answered + 1, dev.trace ++ [.flushed]⟩) rfl
            exact ⟨_, by simpa [Pc.links, failsHome] using hnext⟩
          · have hrun : run (flaky pattern .eio) (bdevFlush ms.dev).run dev = _ := hfail
            simp only [callStep, hrun, Option.some.injEq, Prod.mk.injEq] at hcall
            obtain ⟨rfl, rfl, rfl⟩ := hcall
            exact hquiet rfl (List.prefix_refl _) rfl (homing_resume ..) rfl
      | cons n rest =>
          obtain ⟨e, d', hrun⟩ | ⟨d', hrun, htrace⟩ :=
            run_flaky_bdevWrite pattern ms.dev n.blockno n.data dev
          · simp only [callStep, hrun, Option.some.injEq, Prod.mk.injEq] at hcall
            obtain ⟨rfl, rfl, rfl⟩ := hcall
            have hlost := failsHome_resume j j t n rest false caller caller
            have hnext := h.failedHome j caller d'
            exact ⟨old, by simpa [Pc.links, hlost] using hnext⟩
          · simp only [callStep, hrun, Option.some.injEq, Prod.mk.injEq] at hcall
            obtain ⟨rfl, rfl, rfl⟩ := hcall
            have hnext := h.wroteHome rfl htrace
            exact ⟨_, by simpa [Pc.links, failsHome] using hnext⟩
  | nextTail j t caller =>
      cases hcall
      have hnext := h.advancing rfl (journalAdvanceTail j (newTail ms j).1 (newTail ms j).2) t caller
        (List.prefix_refl _)
      exact ⟨_, by simpa [Pc.links, failsHome] using hnext⟩
  | advance p t caller =>
      cases p with
      | ret r =>
          cases hcall
          exact hquiet rfl (List.prefix_refl _) rfl (homing_resume ..) rfl
      | op o k =>
          cases hcall
          have hnext := h.advancing rfl (k (flaky pattern .eio o dev).1) t caller (hgrow o)
          exact ⟨_, by simpa [Pc.links, failsHome] using hnext⟩
  | commit p nodes =>
      cases p with
      | ret r =>
          cases hcall
          exact hquiet rfl (List.prefix_refl _) rfl rfl rfl
      | op o k =>
          cases hcall
          exact hquiet rfl (hgrow o) rfl rfl rfl
  | link j nodes rc =>
      cases hcall
      refine ⟨old, h.quiet ?_ (List.prefix_refl _) rfl rfl fun hlost => by simp_all⟩
      cases rc with
      | error e => simp [finishCommit, Pc.links]
      | ok r => rfl
  | lag j =>
      cases hcall
      refine hquiet rfl (List.prefix_refl _) rfl ?_ rfl
      split <;> rfl

theorem step (h : CallsOk s old) {a : CallAction} (hkeep : s.keepsList a = true)
    (hstep : s.step pattern a = some s') : ∃ old', CallsOk s' old' := by
  obtain ⟨m, d, pc, linked, lost⟩ := s
  have henter : ∀ {pc' : Pc}, pc.unhomed = [] → pc'.homing = false → CallsOk ⟨m, d, pc', linked, lost⟩ old := by
    intro pc' hun hpc
    have hnext : CallsOk ⟨m, d, pc', linked ++ [], lost⟩ old :=
      h.quiet (List.append_nil _).symm (List.prefix_refl _) hun hpc id
    simpa using hnext
  cases a with
  | run => exact h.run hkeep hstep
  | doCommit nodes =>
      cases pc <;> cases hstep
      exact ⟨old, henter rfl rfl⟩
  | enforceLag =>
      cases pc <;> cases hstep
      exact ⟨old, henter rfl rfl⟩
  | checkpointOldest =>
      cases pc <;> cases hstep
      exact ⟨old, henter rfl rfl⟩
  | leave =>
      cases pc <;> cases hstep
      exact ⟨old, henter rfl rfl⟩

theorem older_eq (h : CallsOk s old) : s.older = old := by
  rw [Calls.older, h.list]
  simp

end CallsOk

/-- In every run in which no transaction is taken off the list after a failed home write, and for
every pattern of failures, the tail never passes a transaction that is not home. -/
theorem tailSafe_of_keepsList {j : Journal} {img : Image} {mode : DataMode} {pattern : ℕ → Outcome}
    {s : Calls} (hrun : Run (Calls.step pattern) (fun s a => s.keepsList a = true)
      (Calls.start j img mode) s) : s.TailSafe := by
  have hinv : ∃ old, CallsOk s old := by
    refine hrun.invariant (I := fun s => ∃ old, CallsOk s old) ?_ ?_
    · exact ⟨[], rfl, fun _ u hu => absurd hu List.not_mem_nil, fun h => (nomatch h), fun h => (nomatch h)⟩
    · rintro s t a hkeep hnow ⟨old, h⟩
      exact h.step hkeep hnow
  obtain ⟨old, h⟩ := hinv
  intro p t caller hpc u hu n hn
  rw [h.older_eq] at hu
  exact h.flushed (by rw [hpc]; rfl) u hu n hn

/-- A run on `tinyDisk`'s image. -/
def tinyCalls : Calls := Calls.start tinyJournal tinyImage .ordered

/-- The tail is being moved past a transaction with block `b`. -/
def Calls.advancesPast (b : UInt64) (s : Calls) : Bool :=
  (match s.pc with
    | .advance .. => true
    | _ => false) && s.older.any fun t => t.nodes.any fun n => n.blockno == b

/-- One block is committed, and the transaction is taken off the list. -/
def commitAndUnlink (b : UInt64) (commitSteps homeSteps : ℕ) : List CallAction :=
  .doCommit [⟨b, zeroBlock⟩] :: (List.replicate commitSteps .run ++ [.leave, .checkpointOldest] ++
    List.replicate homeSteps .run)

theorem Calls.advancesPast_spec {b : UInt64} {s : Calls} (h : s.advancesPast b = true) :
    (∃ p t caller, s.pc = .advance p t caller) ∧ ∃ u ∈ s.older, ∃ n ∈ u.nodes, n.blockno = b := by
  rw [Calls.advancesPast, Bool.and_eq_true] at h
  refine ⟨?_, by simpa using h.2⟩
  split at h
  · exact ⟨_, _, _, ‹_›⟩
  · simp at h

theorem tailSafe_of_keepsList_tiny :
    ∃ s : Calls, s.TailSafe ∧ s.advancesPast 20 = true := by
  obtain ⟨s, hrun, hpast⟩ := exists_run_of_exec (Calls.step fun _ => .done)
    (fun s a => s.keepsList a = true) tinyCalls (commitAndUnlink 20 10 4) (Calls.advancesPast 20)
    (by decide +kernel)
  exact ⟨s, tailSafe_of_keepsList hrun, hpast⟩

/-- The first home write fails; the second transaction's home write takes the tail past both. -/
theorem not_tailSafe : ∃ pattern s,
    Run (Calls.step pattern) (fun _ _ => True) tinyCalls s ∧ ¬ s.TailSafe := by
  let neverWrote (b : UInt64) (s : Calls) : Bool := s.dev.trace.all fun e => match e with
    | .wrote a _ => a != b
    | .flushed => true
  obtain ⟨s, hrun, hstate⟩ := exists_run_of_exec
    (Calls.step fun i => if i = 7 then .failed false else .done) (fun _ _ => True) tinyCalls
    (commitAndUnlink 20 10 2 ++ commitAndUnlink 21 8 4)
    (fun s => s.advancesPast 20 && neverWrote 20 s) (by decide +kernel)
  rw [Bool.and_eq_true] at hstate
  obtain ⟨⟨p, t, caller, hpc⟩, u, hu, n, hn, hb⟩ := Calls.advancesPast_spec hstate.1
  refine ⟨_, s, hrun, fun hsafe => ?_⟩
  have hwrote := (hsafe p t caller hpc u hu n hn).wrote
  have hnever := List.all_eq_true.mp hstate.2 _ hwrote
  simp [hb] at hnever

end Logfs
