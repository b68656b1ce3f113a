import Logfs.SystemInvariant

/-!
# What fsync waits for

`logfs_txn_commit_sync` waits until `completed_through` reaches the `generation_seq` it
found. Both are changed by the cycle that is under way, whose generation was taken
before the call, and an idle cycle leaves them equal, so the next call does not wait.
-/
namespace Logfs
open Interaction WriteCache Transition

/-! ## Cycles -/

def Caller.inCycle : Caller → Bool
  | .reclaim _ => true
  | _ => false

/-- A generation has been taken and `completed_through` not yet been set for it. -/
def Pc.inCycle : Pc → Bool
  | .orderedFlush .. | .emptyCycle _ | .reclaim .. | .commit .. | .link .. => true
  | .unlink _ caller | .writeHome _ _ _ caller | .nextTail _ _ caller | .advance _ _ caller =>
      caller.inCycle
  | _ => false

/-- The nodes of the generation taken, until `logfs_journal_commit` has returned. -/
def Pc.uncommitted : Pc → List DirtyBlock
  | .link .. => []
  | pc => pc.inflight

/-- A handle that has stopped staged an update after the first `n`. -/
def Sys.stoppedFrom (s : Sys) (n : ℕ) : Bool :=
  (s.hist.drop n).any fun u => s.handles.all fun h => h.id != u.handle

/-- `logfs_txn_commit_sync` is called when the cycle it will wait for takes every update of a
stopped handle, or when there is none left to commit. -/
def fsyncsInTime (s : Sys) : Action → Bool
  | .syncCall =>
      (decide (s.mgr.completedThrough < s.mgr.generationSeq) &&
        (!s.pc.inCycle || !s.stoppedFrom s.frozenAt)) || !s.stoppedFrom (durableUpTo s.durable)
  | _ => true

/-- No shutdown. -/
def staysUp : Action → Bool
  | .destroy => false
  | _ => true

/-- The updates of `d` in the order they were staged. -/
def Durable.updates (d : Durable) (hist : List Update) : List Update :=
  (hist.take d.upTo).drop d.first

/-- Update `i` is one of those of a transaction `logfs_journal_commit` returned 0 for, and the
transaction has the last of them to the update's block. -/
def Contained (s : Sys) (i : ℕ) (u : Update) : Prop :=
  ∃ d ∈ s.durable, d.first ≤ i ∧ i < d.upTo ∧ ∃ data,
    lastWrite (updateWrites (d.updates s.hist)) u.blockno = some data ∧ ⟨u.blockno, data⟩ ∈ d.nodes

/-- What handles that had stopped before a call of `logfs_txn_commit_sync` had staged is
contained in a transaction by the time the call has returned. -/
def FsyncsDurable (s : Sys) : Prop :=
  ∀ call ∈ s.returned, ∀ i u, i < call.began → s.hist[i]? = some u → u.handle ∉ call.live →
    Contained s i u

variable {j₀ : Journal} {img : Image} {s : Sys}

@[simp] theorem inCycle_resume (j : Journal) (done : Bool) (caller : Caller) :
    (resume j done caller).inCycle = caller.inCycle := by
  cases caller <;> cases done <;> rfl

@[simp] theorem inCycle_afterFreeze (j : Journal) (nodes : List DirtyBlock) :
    (afterFreeze j nodes).inCycle = true := by
  unfold afterFreeze
  split <;> rfl

@[simp] theorem uncommitted_resume (j : Journal) (done : Bool) (caller : Caller) :
    (resume j done caller).uncommitted = caller.nodes := by
  cases caller <;> cases done <;> rfl

@[simp] theorem uncommitted_afterFreeze (j : Journal) (nodes : List DirtyBlock) :
    (afterFreeze j nodes).uncommitted = nodes := by
  unfold afterFreeze
  split
  · rfl
  · next h => simpa [Pc.uncommitted, Pc.inflight] using h

/-- A step that neither takes a generation nor ends a commit nor sets `completed_through`. -/
structure SamePhase (c c' : Core) : Prop where
  uncommitted : c'.pc.uncommitted = c.pc.uncommitted
  inCycle : c'.pc.inCycle = c.pc.inCycle
  completed : c'.mgr.completedThrough = c.mgr.completedThrough
  buckets : c'.mgr.buckets = c.mgr.buckets
  noFreeze : endsFreeze c = false
  noCommit : committing c = none

/-- The phases of a cycle. -/
inductive Phase (c c' : Core) : Prop
  | same (h : SamePhase c c')
  | taken (ends : endsFreeze c = true) (before : c.pc.uncommitted = []) (noCommit : committing c = none)
      (uncommitted : c'.pc.uncommitted = stagedNodes c.mgr) (empty : c'.mgr.buckets = fun _ => [])
      (completed : c'.mgr.completedThrough = c.mgr.completedThrough)
  | committed (noFreeze : endsFreeze c = false) (commits : committing c = some c.pc.uncommitted)
      (before : c.pc.inCycle = true) (after : c'.pc.inCycle = true) (none : c'.pc.uncommitted = [])
      (buckets : c'.mgr.buckets = c.mgr.buckets)
      (completed : c'.mgr.completedThrough = c.mgr.completedThrough)
  | ended (noFreeze : endsFreeze c = false) (noCommit : committing c = none)
      (before : c.pc.inCycle = true) (was : c.pc.uncommitted = []) (is : c'.pc.uncommitted = [])
      (buckets : c'.mgr.buckets = c.mgr.buckets)

theorem CoreOk.phase {c c' : Core} (hcore : CoreOk j₀ c) (h : ThreadStep c c') : Phase c c' := by
  cases h with
  | freeze up wait =>
      refine .same ⟨rfl, rfl, rfl, rfl, ?_, rfl⟩
      simp [endsFreeze, wait.ne']
  | drain down => exact .same ⟨rfl, rfl, rfl, rfl, by simp [endsFreeze, down], rfl⟩
  | take ends up =>
      have hpc : ∀ {pc : Pc} {j : Journal}, pc = .top j ∨ pc = .frozen j →
          pc.uncommitted = [] ∧ ∀ m d, committing ⟨m, d, pc⟩ = none := by
        rintro _ _ (rfl | rfl) <;> exact ⟨rfl, fun _ _ => rfl⟩
      obtain ⟨hun, hcom⟩ := hpc (up.imp_left And.left)
      rw [endFreeze_of_staged hcore.staged]
      refine .taken ends hun (hcom _ _) ?_ rfl rfl
      dsimp only
      split
      · rfl
      · rw [uncommitted_afterFreeze]
  | orderedFlush =>
      exact .same ⟨uncommitted_afterFreeze _ _, inCycle_afterFreeze _ _, rfl, rfl, rfl, rfl⟩
  | unlinkNone | writeHomeError | advanced =>
      exact .same ⟨uncommitted_resume _ _ _, inCycle_resume _ _ _, rfl, rfl, rfl, rfl⟩
  | emptyCycle => exact .ended rfl rfl rfl rfl rfl rfl
  | committed =>
      obtain ⟨j, hlog, hroom, hcom⟩ := hcore.pc
      obtain ⟨hret, -⟩ := Interaction.Meets.run hcom
      simp only [run_ret, Prod.mk.injEq] at hret
      obtain ⟨rfl, rfl⟩ := hret
      exact .committed rfl rfl rfl rfl rfl rfl rfl
  | commit op =>
      refine .same ⟨rfl, rfl, rfl, rfl, rfl, ?_⟩
      cases op with
      | op o k s => rfl
  | link => exact .ended rfl rfl rfl rfl rfl rfl
  | _ => exact .same ⟨rfl, rfl, rfl, rfl, rfl, rfl⟩

/-! ## The record of transactions -/

/-- The staging table has the updates since the last freeze, the generation being committed
those between the last transaction and the freeze, and the transactions all before. -/
structure Recorded (s : Sys) : Prop where
  frozen_le : s.frozenAt ≤ s.hist.length
  durable_le : durableUpTo s.durable ≤ s.frozenAt
  staged : ∀ b, stagedContent s.mgr b = lastWrite (updateWrites (s.hist.drop s.frozenAt)) b
  taken : ∀ b, lastWrite (nodeWrites s.pc.uncommitted) b =
    lastWrite (updateWrites ((s.hist.take s.frozenAt).drop (durableUpTo s.durable))) b
  covers : ∀ i < durableUpTo s.durable, ∃ d ∈ s.durable, d.first ≤ i ∧ i < d.upTo
  contents : ∀ d ∈ s.durable, d.upTo ≤ s.frozenAt ∧
    ∀ b, lastWrite (nodeWrites d.nodes) b = lastWrite (updateWrites (d.updates s.hist)) b

@[simp] theorem durableUpTo_append (ts : List Durable) (d : Durable) :
    durableUpTo (ts ++ [d]) = d.upTo := by
  simp [durableUpTo]

theorem eq_nil_of_lastWrite {us : List Update} (h : ∀ b, lastWrite (updateWrites us) b = none) :
    us = [] := by
  cases us with
  | nil => rfl
  | cons u us => exact absurd rfl (lastWrite_eq_none.mp (h u.blockno) _ List.mem_cons_self)

theorem recorded_boot (j : Journal) (img : Image) (mode : DataMode) :
    Recorded (Sys.boot j img mode) where
  frozen_le := le_rfl
  durable_le := le_rfl
  staged _ := stagedContent_empty rfl _
  taken _ := rfl
  covers _ hi := by cases hi
  contents _ hd := by cases hd

namespace Recorded

/-- With nothing taken and not committed, all updates up to the last freeze are durable. -/
theorem settled (h : Recorded s) (hnone : s.pc.uncommitted = []) :
    durableUpTo s.durable = s.frozenAt := by
  have hempty : (s.hist.take s.frozenAt).drop (durableUpTo s.durable) = [] := by
    refine eq_nil_of_lastWrite fun b => ?_
    rw [← h.taken, hnone]
    rfl
  have hlen := congrArg List.length hempty
  have hle := h.durable_le
  have hfz := h.frozen_le
  simp only [List.length_drop, List.length_take, List.length_nil] at hlen
  omega

theorem congr (h : Recorded s) {s' : Sys} (hhist : s'.hist = s.hist) (hfrozen : s'.frozenAt = s.frozenAt)
    (hdurable : s'.durable = s.durable) (hstaged : stagedContent s'.mgr = stagedContent s.mgr)
    (htaken : s'.pc.uncommitted = s.pc.uncommitted) : Recorded s' := by
  obtain ⟨h₁, h₂, h₃, h₄, h₅, h₆⟩ := h
  constructor <;> simp only [hhist, hfrozen, hdurable, hstaged, htaken] <;> assumption

theorem thread (h : Recorded s) {c : Core} (hphase : Phase s.toCore c)
    (hstaged : Staged s.mgr) : Recorded (s.afterThread c) := by
  have hcontent : ∀ m : TxnMgr, m.buckets = s.mgr.buckets → stagedContent m = stagedContent s.mgr := by
    intro m hm
    funext b
    rw [stagedContent, stagedContent, findDirty, findDirty, hm]
  cases hphase with
  | same hsame =>
      exact h.congr rfl (by simp [Sys.afterThread, hsame.noFreeze])
        (by simp [Sys.afterThread, hsame.noCommit]) (hcontent _ hsame.buckets) hsame.uncommitted
  | taken ends before noCommit uncommitted empty =>
      have hfrozen : (s.afterThread c).frozenAt = s.hist.length := by simp [Sys.afterThread, ends]
      have hdurable : (s.afterThread c).durable = s.durable := by simp [Sys.afterThread, noCommit]
      have hset := h.settled before
      constructor
      · exact hfrozen.le
      · rw [hfrozen, hdurable]
        exact h.durable_le.trans h.frozen_le
      · intro b
        rw [hfrozen, show (s.afterThread c).hist = s.hist from rfl, List.drop_length]
        exact stagedContent_empty empty b
      · intro b
        rw [hfrozen, hdurable, show (s.afterThread c).hist = s.hist from rfl, List.take_length,
          show (s.afterThread c).pc = c.pc from rfl, uncommitted, hstaged.lastWrite_stagedNodes,
          h.staged, hset]
      · rw [hdurable]
        exact h.covers
      · rw [hdurable, hfrozen]
        exact fun d hd => ⟨(h.contents d hd).1.trans h.frozen_le, (h.contents d hd).2⟩
  | committed noFreeze commits before after none buckets completed =>
      have hfrozen : (s.afterThread c).frozenAt = s.frozenAt := by simp [Sys.afterThread, noFreeze]
      have hdurable : (s.afterThread c).durable =
          s.durable ++ [⟨durableUpTo s.durable, s.frozenAt, s.pc.uncommitted⟩] := by
        simp [Sys.afterThread, commits]
      have hhist : (s.afterThread c).hist = s.hist := rfl
      constructor
      · rw [hfrozen]
        exact h.frozen_le
      · rw [hfrozen, hdurable, durableUpTo_append]
      · rw [hfrozen, hhist, show (s.afterThread c).mgr = c.mgr from rfl, hcontent _ buckets]
        exact h.staged
      · intro b
        have hlen : (s.hist.take s.frozenAt).drop s.frozenAt = [] :=
          List.drop_eq_nil_of_le (by simp)
        rw [hfrozen, hdurable, durableUpTo_append, hhist, hlen,
          show (s.afterThread c).pc = c.pc from rfl, none]
        rfl
      · intro i hi
        rw [hdurable, durableUpTo_append] at hi
        rw [hdurable]
        by_cases hold : i < durableUpTo s.durable
        · obtain ⟨d, hd, hin⟩ := h.covers i hold
          exact ⟨d, List.mem_append_left _ hd, hin⟩
        · exact ⟨_, List.mem_append_right _ (List.mem_singleton_self _), not_lt.mp hold, hi⟩
      · intro d hd
        rw [hdurable] at hd
        rw [hfrozen, hhist]
        rcases List.mem_append.mp hd with hd | hd
        · exact h.contents d hd
        · rw [List.mem_singleton.mp hd]
          exact ⟨le_rfl, h.taken⟩
  | ended noFreeze noCommit before was is buckets =>
      exact h.congr rfl (by simp [Sys.afterThread, noFreeze]) (by simp [Sys.afterThread, noCommit])
        (hcontent _ buckets) (is.trans was.symm)

/-- An update staged by a handle goes to the staging table. -/
theorem append (h : Recorded s) {s' : Sys} {u : Update} (hhist : s'.hist = s.hist ++ [u])
    (hfrozen : s'.frozenAt = s.frozenAt) (hdurable : s'.durable = s.durable)
    (hstaged : stagedContent s'.mgr =
      fun b => if b = u.blockno then some u.data else stagedContent s.mgr b)
    (hpc : s'.pc = s.pc) : Recorded s' := by
  have hfz := h.frozen_le
  have htake : ∀ n ≤ s.frozenAt, s'.hist.take n = s.hist.take n := by
    intro n hn
    rw [hhist, List.take_append_of_le_length (hn.trans hfz)]
  constructor
  · rw [hfrozen, hhist, List.length_append]
    omega
  · rw [hfrozen, hdurable]
    exact h.durable_le
  · intro b
    rw [hstaged, hfrozen, hhist, List.drop_append_of_le_length hfz, updateWrites_append,
      lastWrite_append, updateWrites_singleton, lastWrite_singleton, ← h.staged]
    by_cases hb : b = u.blockno
    · simp [hb]
    · simp [hb, Ne.symm hb]
  · rw [hpc, hfrozen, hdurable, htake _ le_rfl]
    exact h.taken
  · rw [hdurable]
    exact h.covers
  · rw [hdurable, hfrozen]
    intro d hd
    obtain ⟨hle, hnodes⟩ := h.contents d hd
    refine ⟨hle, ?_⟩
    rw [Durable.updates, htake _ hle]
    exact hnodes

/-- An update before the last transaction's end is contained in one of them. -/
theorem contained (h : Recorded s) {i : ℕ} {u : Update} (hi : i < durableUpTo s.durable)
    (hu : s.hist[i]? = some u) : Contained s i u := by
  obtain ⟨d, hd, hfirst, hupTo⟩ := h.covers i hi
  refine ⟨d, hd, hfirst, hupTo, ?_⟩
  have hmem : u ∈ d.updates s.hist := by
    refine List.mem_of_getElem? (i := i - d.first) ?_
    rw [Durable.updates, List.getElem?_drop, Nat.add_sub_cancel' hfirst, List.getElem?_take_of_lt hupTo, hu]
  cases hlast : lastWrite (updateWrites (d.updates s.hist)) u.blockno with
  | none => exact absurd rfl (lastWrite_eq_none.mp hlast _ (List.mem_map_of_mem hmem))
  | some data =>
      refine ⟨data, rfl, mem_nodeWrites.mp (mem_of_lastWrite ?_)⟩
      rw [(h.contents d hd).2, hlast]

end Recorded

/-! ## The calls -/

/-- What handles stopped before the call had staged is among the first `n` updates. -/
def Covered (hist : List Update) (call : SyncCall) (n : ℕ) : Prop :=
  ∀ i u, i < call.began → hist[i]? = some u → u.handle ∉ call.live → i < n

theorem Covered.mono {hist : List Update} {call : SyncCall} {m n : ℕ} (h : Covered hist call m)
    (hle : m ≤ n) : Covered hist call n := fun i u hi hu hlive => (h i u hi hu hlive).trans_le hle

theorem Covered.append {hist us : List Update} {call : SyncCall} {n : ℕ} (h : Covered hist call n)
    (hbegan : call.began ≤ hist.length) : Covered (hist ++ us) call n := by
  intro i u hi hu
  rw [List.getElem?_append_left (hi.trans_le hbegan)] at hu
  exact h i u hi hu

theorem covered_pendingCall {n : ℕ} (h : s.stoppedFrom n = false) :
    Covered s.hist s.pendingCall n := by
  intro i u _ hu hlive
  by_contra hn
  have hmem : u ∈ s.hist.drop n := by
    refine List.mem_of_getElem? (i := i - n) ?_
    rw [List.getElem?_drop, Nat.add_sub_cancel' (not_lt.mp hn), hu]
  have hstopped : (s.handles.all fun g => g.id != u.handle) = true := by
    refine List.all_eq_true.mpr fun g hg => ?_
    simp only [bne_iff_ne, ne_eq]
    exact fun he => hlive (he ▸ List.mem_map_of_mem hg)
  have hany : s.stoppedFrom n = true := List.any_eq_true.mpr ⟨u, hmem, hstopped⟩
  rw [hany] at h
  cases h

/-- The call's updates are durable, or it still waits, for a cycle that takes them. -/
structure Waiting (s : Sys) (call : SyncCall) : Prop where
  began : call.began ≤ s.hist.length
  awaits : Covered s.hist call (durableUpTo s.durable) ∨
    s.mgr.completedThrough < call.target ∧
      (s.pc.inCycle = true → Covered s.hist call s.frozenAt)

structure SyncsOk (s : Sys) : Prop where
  up : s.mgr.shutdown = false
  recorded : Recorded s
  waiting : ∀ call ∈ s.syncs, Waiting s call
  returned : ∀ call ∈ s.returned,
    call.began ≤ s.hist.length ∧ Covered s.hist call (durableUpTo s.durable)

/-- Only the updates, the freezes and transactions recorded and the thread's phase matter. -/
theorem Waiting.congr {call : SyncCall} (h : Waiting s call) {s' : Sys} (hhist : s'.hist = s.hist)
    (hfrozen : s'.frozenAt = s.frozenAt) (hdurable : s'.durable = s.durable)
    (hcompleted : s'.mgr.completedThrough = s.mgr.completedThrough)
    (hcycle : s'.pc.inCycle = s.pc.inCycle) : Waiting s' call := by
  obtain ⟨h₁, h₂⟩ := h
  constructor <;> simp only [hhist, hfrozen, hdurable, hcompleted, hcycle] <;> assumption

theorem Waiting.append {call : SyncCall} (h : Waiting s call) {s' : Sys} {u : Update}
    (hhist : s'.hist = s.hist ++ [u]) (hfrozen : s'.frozenAt = s.frozenAt)
    (hdurable : s'.durable = s.durable)
    (hcompleted : s'.mgr.completedThrough = s.mgr.completedThrough) (hpc : s'.pc = s.pc) :
    Waiting s' call where
  began := by
    rw [hhist, List.length_append]
    exact Nat.le_add_right_of_le h.began
  awaits := by
    rw [hhist, hfrozen, hdurable, hcompleted, hpc]
    exact h.awaits.imp (fun hc => hc.append h.began)
      (And.imp_right fun hc hin => (hc hin).append h.began)

/-- The thread keeps every waiting call to its cycle, and ends the wait only with the updates
in a transaction. -/
theorem Waiting.thread {call : SyncCall} (h : Waiting s call) (hrec : Recorded s) {c : Core}
    (hphase : Phase s.toCore c) : Waiting (s.afterThread c) call where
  began := h.began
  awaits := by
    change Covered s.hist call _ ∨ c.mgr.completedThrough < call.target ∧
      (c.pc.inCycle = true → Covered s.hist call _)
    cases hphase with
    | same hsame =>
        rw [hsame.completed, hsame.inCycle]
        simpa [Sys.afterThread, hsame.noFreeze, hsame.noCommit] using h.awaits
    | taken ends before noCommit uncommitted empty completed =>
        rw [completed]
        have hall : Covered s.hist call s.hist.length := fun i _ hi _ _ => hi.trans_le h.began
        simp only [Sys.afterThread, ends, noCommit, if_true, Option.toList_none, List.map_nil,
          List.append_nil]
        exact h.awaits.imp_right (And.imp_right fun _ _ => hall)
    | committed noFreeze commits before after none buckets completed =>
        rw [completed]
        simp only [Sys.afterThread, noFreeze, commits, Option.toList_some, List.map_cons,
          List.map_nil, durableUpTo_append]
        exact h.awaits.imp (fun hc => hc.mono hrec.durable_le)
          (And.imp_right fun hc _ => hc before)
    | ended noFreeze noCommit before was is buckets =>
        left
        simp only [Sys.afterThread, noCommit, Option.toList_none, List.map_nil, List.append_nil]
        rcases h.awaits with hc | ⟨-, hc⟩
        · exact hc
        · rw [hrec.settled was]
          exact hc before

namespace SyncsOk

theorem boot (j : Journal) (img : Image) (mode : DataMode) : SyncsOk (Sys.boot j img mode) where
  up := rfl
  recorded := recorded_boot j img mode
  waiting _ hmem := by cases hmem
  returned _ hmem := by cases hmem

theorem thread (h : SyncsOk s) (hcore : CoreOk j₀ s.toCore) {c : Core}
    (hstep : ThreadStep s.toCore c) : SyncsOk (s.afterThread c) := by
  have hphase := hcore.phase hstep
  have hrec := h.recorded.thread hphase hcore.staged
  have hgrows : durableUpTo s.durable ≤ durableUpTo (s.afterThread c).durable := by
    cases hcom : committing s.toCore with
    | none => simp [Sys.afterThread, hcom]
    | some nodes =>
        simp only [Sys.afterThread, hcom, Option.toList_some, List.map_cons, List.map_nil,
          durableUpTo_append]
        exact h.recorded.durable_le
  exact ⟨hstep.shutdown.trans h.up, hrec,
    fun call hmem => (h.waiting call hmem).thread h.recorded hphase,
    fun call hmem => (h.returned call hmem).imp_right fun hc => hc.mono hgrows⟩

/-- A step that stages an update. -/
theorem append (h : SyncsOk s) {s' : Sys} {u : Update} (hhist : s'.hist = s.hist ++ [u])
    (hfrozen : s'.frozenAt = s.frozenAt) (hdurable : s'.durable = s.durable)
    (hstaged : stagedContent s'.mgr =
      fun b => if b = u.blockno then some u.data else stagedContent s.mgr b)
    (hcompleted : s'.mgr.completedThrough = s.mgr.completedThrough)
    (hdown : s'.mgr.shutdown = s.mgr.shutdown) (hpc : s'.pc = s.pc) (hsyncs : s'.syncs = s.syncs)
    (hreturned : s'.returned = s.returned) : SyncsOk s' where
  up := hdown.trans h.up
  recorded := h.recorded.append hhist hfrozen hdurable hstaged hpc
  waiting call hmem :=
    (h.waiting call (hsyncs ▸ hmem)).append hhist hfrozen hdurable hcompleted hpc
  returned call hmem := by
    obtain ⟨hbegan, hc⟩ := h.returned call (hreturned ▸ hmem)
    rw [hhist, hdurable, List.length_append]
    exact ⟨Nat.le_add_right_of_le hbegan, hc.append hbegan⟩

/-- A step that stages nothing and leaves the thread where it is. -/
theorem congr (h : SyncsOk s) {s' : Sys} (hhist : s'.hist = s.hist)
    (hfrozen : s'.frozenAt = s.frozenAt) (hdurable : s'.durable = s.durable)
    (hbuckets : s'.mgr.buckets = s.mgr.buckets)
    (hcompleted : s'.mgr.completedThrough = s.mgr.completedThrough)
    (hdown : s'.mgr.shutdown = s.mgr.shutdown) (hpc : s'.pc = s.pc)
    (hsyncs : ∀ call ∈ s'.syncs, call ∈ s.syncs ∨ Waiting s call)
    (hreturned : ∀ call ∈ s'.returned, call ∈ s.returned ∨
      call.began ≤ s.hist.length ∧ Covered s.hist call (durableUpTo s.durable)) : SyncsOk s' where
  up := hdown.trans h.up
  recorded := by
    refine h.recorded.congr hhist hfrozen hdurable (funext fun b => ?_) (by rw [hpc])
    rw [stagedContent, stagedContent, findDirty, findDirty, hbuckets]
  waiting call hmem :=
    ((hsyncs call hmem).elim (h.waiting call) id).congr hhist hfrozen hdurable hcompleted (by rw [hpc])
  returned call hmem := by
    rw [hhist, hdurable]
    exact (hreturned call hmem).elim (h.returned call) id

theorem step (h : SyncsOk s) (hsys : SysOk j₀ img s) {a : Action} {s' : Sys}
    (hup : staysUp a = true) (hfsync : fsyncsInTime s a = true) (hstep : Sys.Steps s a s') :
    SyncsOk s' := by
  cases hstep with
  | thread hnow => exact h.thread hsys.core hnow
  | start => exact h.congr rfl rfl rfl rfl rfl rfl rfl (fun _ => .inl) (fun _ => .inl)
  | abort => exact h.congr rfl rfl rfl rfl rfl rfl rfl (fun _ => .inl) (fun _ => .inl)
  | accessFailed => exact h
  | accessStaged => exact h.congr rfl rfl rfl rfl rfl rfl rfl (fun _ => .inl) (fun _ => .inl)
  | accessNew hlive hnew hseed =>
      refine h.append rfl rfl rfl ?_ rfl rfl rfl rfl rfl
      simp only [stagedContent_insertDirty, eq_comm]
  | bufWrite hlive hheld =>
      exact h.append rfl rfl rfl (stagedContent_writeBuffer (hsys.bufs _ hlive _ hheld) _) rfl rfl
        rfl rfl rfl
  | stop => exact h.congr rfl rfl rfl rfl rfl rfl rfl (fun _ => .inl) (fun _ => .inl)
  | syncNow up done =>
      simp only [fsyncsInTime, done, decide_false, Bool.false_and, Bool.false_or,
        Bool.not_eq_true'] at hfsync
      refine h.congr rfl rfl rfl rfl rfl rfl rfl (fun _ => .inl) fun call hmem => ?_
      refine (List.mem_append.mp hmem).imp_right fun hnew => ?_
      rw [List.mem_singleton.mp hnew]
      exact ⟨le_rfl, covered_pendingCall hfsync⟩
  | syncWait up wait =>
      simp only [fsyncsInTime, wait, decide_true, Bool.true_and, Bool.or_eq_true,
        Bool.not_eq_true'] at hfsync
      refine h.congr rfl rfl rfl rfl rfl rfl rfl (fun call hmem => ?_) (fun _ => .inl)
      refine (List.mem_append.mp hmem).imp_right fun hnew => ?_
      rw [List.mem_singleton.mp hnew]
      refine ⟨le_rfl, ?_⟩
      rcases hfsync with (hout | hnone) | hnone
      · exact .inr ⟨wait, fun hin => by simp [hin] at hout⟩
      · exact .inr ⟨wait, fun _ => covered_pendingCall hnone⟩
      · exact .inl (covered_pendingCall hnone)
  | @syncReturn i call waiting done =>
      refine h.congr rfl rfl rfl rfl rfl rfl rfl
        (fun c hmem => .inl (List.mem_of_mem_eraseIdx hmem)) fun c hmem => ?_
      refine (List.mem_append.mp hmem).imp_right fun hnew => ?_
      obtain rfl := List.mem_singleton.mp hnew
      have hwait := h.waiting c (List.mem_of_getElem? waiting)
      refine ⟨hwait.began, hwait.awaits.resolve_right fun ⟨hlt, _⟩ => ?_⟩
      have hshut := done hlt
      rw [h.up] at hshut
      cases hshut
  | destroy => cases hup

theorem fsyncsDurable (h : SyncsOk s) : FsyncsDurable s := fun call hcall i _ hi hu hlive =>
  h.recorded.contained ((h.returned call hcall).2 i _ hi hu hlive) hu

end SyncsOk

/-- In a run whose fsyncs are all called in time, what each of them had to make durable is. -/
theorem fsyncsDurable_of_inTime (hopen : Opened j₀ img) (mode : DataMode) {s : Sys}
    (hrun : Run Sys.step (fun s a => (smallGeneration j₀ s a && staysUp a && fsyncsInTime s a) = true)
      (Sys.boot j₀ img mode) s) : FsyncsDurable s := by
  have hinv : SysOk j₀ img s ∧ SyncsOk s := by
    refine hrun.invariant (I := fun s => SysOk j₀ img s ∧ SyncsOk s)
      ⟨sysOk_boot hopen mode, .boot j₀ img mode⟩ ?_
    intro s s' a hok hnow hinv
    simp only [Bool.and_eq_true] at hok
    have hstep := Sys.step_sound hnow
    exact ⟨hinv.1.step hopen.placed hok.1.1 hstep, hinv.2.step hinv.1 hok.1.2 hok.2 hstep⟩
  exact hinv.2.fsyncsDurable

/-- An fsync of the idle file system, then an update and another fsync, which returns at once. -/
theorem not_fsyncsDurable : ∃ s,
    Run Sys.step (fun s a => (smallGeneration tinyJournal s a && staysUp a) = true) tinyMount s ∧
      ¬ FsyncsDurable s := by
  obtain ⟨s, hrun, htest⟩ := exists_run_of_exec Sys.step
    (fun s a => (smallGeneration tinyJournal s a && staysUp a) = true) tinyMount
    [.syncCall, .thread, .thread, .syncReturn 0, .start, .getWriteAccess 0 20, .stop 0, .syncCall]
    (fun s => s.durable.isEmpty && s.hist.length == 1 &&
      s.returned[1]?.any fun call => call.began == 1 && call.live.isEmpty) (by decide +kernel)
  refine ⟨s, hrun, fun h => ?_⟩
  simp only [Bool.and_eq_true, List.isEmpty_iff, beq_iff_eq, Option.any_eq_true] at htest
  obtain ⟨⟨hnone, hlen⟩, call, hcall, hbegan, hlive⟩ := htest
  obtain ⟨u, hu⟩ := List.length_eq_one_iff.mp hlen
  obtain ⟨d, hd, -⟩ := h call (List.mem_of_getElem? hcall) 0 u (by omega) (by simp [hu])
    (by simp [hlive])
  simp [hnone] at hd

/-- The same update and fsync with no idle fsync before. -/
theorem fsyncsDurable_first : ∃ s, s.returned.length = 1 ∧ s.hist.length = 1 ∧ FsyncsDurable s := by
  obtain ⟨s, hrun, htest⟩ := exists_run_of_exec Sys.step
    (fun s a => (smallGeneration tinyJournal s a && staysUp a && fsyncsInTime s a) = true) tinyMount
    ([.start, .getWriteAccess 0 20, .stop 0, .syncCall] ++ List.replicate 12 .thread ++ [.syncReturn 0])
    (fun s => s.returned.length == 1 && s.hist.length == 1) (by decide +kernel)
  simp only [Bool.and_eq_true, beq_iff_eq] at htest
  exact ⟨s, htest.1, htest.2, fsyncsDurable_of_inTime opened_tiny .ordered hrun⟩

end Logfs
