import Logfs.CommitThread
import Logfs.Staging

/-!
# What a step can do

The possible steps of the commit thread and of the whole system, one by one, with
what holds when they are taken. Invariants are proved from these lists alone.
-/
namespace Logfs
open Interaction WriteCache

/-- The steps of the commit thread. -/
inductive ThreadStep : Core → Core → Prop
  | drain {m : TxnMgr} {d : Disk} {j : Journal} (down : m.shutdown = true) :
      ThreadStep ⟨m, d, .top j⟩ ⟨m, d, .unlink j .drain⟩
  | freeze {m : TxnMgr} {d : Disk} {j : Journal} (up : m.shutdown = false)
      (wait : 0 < m.runningHandles) :
      ThreadStep ⟨m, d, .top j⟩ ⟨{ m with freezing := true }, d, .frozen j⟩
  | take {m : TxnMgr} {d : Disk} {pc : Pc} {j : Journal} (ends : endsFreeze ⟨m, d, pc⟩ = true)
      (up : pc = .top j ∧ m.shutdown = false ∨ pc = .frozen j) :
      ThreadStep ⟨m, d, pc⟩ (endFreeze ⟨m, d, pc⟩ j)
  | orderedFlush {m : TxnMgr} {d : Disk} {j : Journal} {nodes : List DirtyBlock} :
      ThreadStep ⟨m, d, .orderedFlush j nodes⟩ ⟨m, d.flush, afterFreeze j nodes⟩
  | emptyCycle {m : TxnMgr} {d : Disk} {j : Journal} :
      ThreadStep ⟨m, d, .emptyCycle j⟩ ⟨finishEmptyCycle m, d, .lag j⟩
  | noSpace {m : TxnMgr} {d : Disk} {j : Journal} {nodes : List DirtyBlock} :
      ThreadStep ⟨m, d, .reclaim j nodes⟩ ⟨m, d, .unlink j (.reclaim nodes)⟩
  | space {m : TxnMgr} {d : Disk} {j : Journal} {nodes : List DirtyBlock}
      (room : ¬ journalFreeSpace j < journalSpaceNeeded nodes.length 0) :
      ThreadStep ⟨m, d, .reclaim j nodes⟩
        ⟨m, d, .commit (journalCommit j (pendingBlocks nodes) []) nodes⟩
  | unlinkNone {m : TxnMgr} {d : Disk} {j : Journal} {caller : Caller} (none : m.ckpt = []) :
      ThreadStep ⟨m, d, .unlink j caller⟩ ⟨m, d, resume j false caller⟩
  | unlink {m : TxnMgr} {d : Disk} {j : Journal} {caller : Caller} {t : CommittedTxn}
      {ts : List CommittedTxn} (oldest : m.ckpt = t :: ts) :
      ThreadStep ⟨m, d, .unlink j caller⟩ ⟨{ m with ckpt := ts }, d, .writeHome j t t.nodes caller⟩
  | writeHome {m : TxnMgr} {d : Disk} {j : Journal} {t : CommittedTxn} {n : DirtyBlock}
      {rest : List DirtyBlock} {caller : Caller} (fits : n.blockno < m.dev.nblocks) :
      ThreadStep ⟨m, d, .writeHome j t (n :: rest) caller⟩
        ⟨m, d.write n.blockno n.data, .writeHome j t rest caller⟩
  | writeHomeError {m : TxnMgr} {d : Disk} {j : Journal} {t : CommittedTxn} {n : DirtyBlock}
      {rest : List DirtyBlock} {caller : Caller} (beyond : ¬ n.blockno < m.dev.nblocks) :
      ThreadStep ⟨m, d, .writeHome j t (n :: rest) caller⟩ ⟨m, d, resume j false caller⟩
  | homeFlush {m : TxnMgr} {d : Disk} {j : Journal} {t : CommittedTxn} {caller : Caller} :
      ThreadStep ⟨m, d, .writeHome j t [] caller⟩ ⟨m, d.flush, .nextTail j t caller⟩
  | nextTail {m : TxnMgr} {d : Disk} {j : Journal} {t : CommittedTxn} {caller : Caller} :
      ThreadStep ⟨m, d, .nextTail j t caller⟩
        ⟨m, d, .advance (journalAdvanceTail j (newTail m j).1 (newTail m j).2) t caller⟩
  | advance {m : TxnMgr} {d d' : Disk} {p p' : DevM (Except Errno Unit × Journal)}
      {t : CommittedTxn} {caller : Caller} (op : Step faultless (p, d) (p', d')) :
      ThreadStep ⟨m, d, .advance p t caller⟩ ⟨m, d', .advance p' t caller⟩
  | advanced {m : TxnMgr} {d : Disk} {rc : Except Errno Unit} {j : Journal} {t : CommittedTxn}
      {caller : Caller} :
      ThreadStep ⟨m, d, .advance (.ret (rc, j)) t caller⟩ ⟨m, d, resume j rc.isOk caller⟩
  | commit {m : TxnMgr} {d d' : Disk} {p p' : DevM (Except Errno (UInt64 × UInt64) × Journal)}
      {nodes : List DirtyBlock} (op : Step faultless (p, d) (p', d')) :
      ThreadStep ⟨m, d, .commit p nodes⟩ ⟨m, d', .commit p' nodes⟩
  | committed {m : TxnMgr} {d : Disk} {rc : Except Errno (UInt64 × UInt64)} {j : Journal}
      {nodes : List DirtyBlock} :
      ThreadStep ⟨m, d, .commit (.ret (rc, j)) nodes⟩ ⟨m, d, .link j nodes rc⟩
  | link {m : TxnMgr} {d : Disk} {j : Journal} {nodes : List DirtyBlock}
      {rc : Except Errno (UInt64 × UInt64)} :
      ThreadStep ⟨m, d, .link j nodes rc⟩ ⟨finishCommit m j nodes rc, d, .lag j⟩
  | lagging {m : TxnMgr} {d : Disk} {j : Journal} (more : ckptLag < m.ckpt.length) :
      ThreadStep ⟨m, d, .lag j⟩ ⟨m, d, .unlink j .lag⟩
  | caughtUp {m : TxnMgr} {d : Disk} {j : Journal} :
      ThreadStep ⟨m, d, .lag j⟩ ⟨m, d, .top j⟩

theorem endFreeze_freezing (m : TxnMgr) (d : Disk) (pc : Pc) (j : Journal) :
    endFreeze ⟨{ m with freezing := true }, d, pc⟩ j = endFreeze ⟨m, d, pc⟩ j := by
  unfold endFreeze takeGeneration flattenAndClear
  split <;> rfl

theorem threadStep_sound {c c' : Core} (h : threadStep c = some c') : ThreadStep c c' := by
  obtain ⟨m, d, pc⟩ := c
  cases pc with
  | top j =>
      simp only [threadStep] at h
      split_ifs at h with hdown hidle
      · cases h
        exact .drain hdown
      · have hup : m.shutdown = false := by simpa using hdown
        cases h
        unfold beginFreeze
        split
        · next hwait => exact .freeze hup hwait
        · next hwait =>
            rw [endFreeze_freezing]
            exact .take (by simp_all [endsFreeze]) (.inl ⟨rfl, hup⟩)
  | frozen j =>
      simp only [threadStep] at h
      split_ifs at h with hwait
      cases h
      exact .take (by simp_all [endsFreeze]) (.inr rfl)
  | orderedFlush j nodes => cases h; exact .orderedFlush
  | emptyCycle j => cases h; exact .emptyCycle
  | reclaim j nodes =>
      simp only [threadStep] at h
      split_ifs at h with hfull
      · cases h
        exact .noSpace
      · cases h
        exact .space hfull
  | unlink j caller =>
      simp only [threadStep, unlinkOldest] at h
      cases hckpt : m.ckpt with
      | nil =>
          rw [hckpt] at h
          cases h
          exact .unlinkNone hckpt
      | cons t ts =>
          rw [hckpt] at h
          cases h
          exact .unlink hckpt
  | writeHome j t rest caller =>
      cases rest with
      | nil => cases h; exact .homeFlush
      | cons n rest =>
          simp only [threadStep] at h
          by_cases hfits : n.blockno < m.dev.nblocks
          · rw [run_bdevWrite d hfits] at h
            cases h
            exact .writeHome hfits
          · rw [bdevWrite, if_pos (by simpa using hfits)] at h
            cases h
            exact .writeHomeError hfits
  | nextTail j t caller => cases h; exact .nextTail
  | advance p t caller =>
      cases p with
      | ret r => cases h; exact .advanced
      | op o k => cases h; exact .advance (.op o k d)
  | commit p nodes =>
      cases p with
      | ret r => cases h; exact .committed
      | op o k => cases h; exact .commit (.op o k d)
  | link j nodes rc => cases h; exact .link
  | lag j =>
      simp only [threadStep] at h
      split_ifs at h with hmore
      · cases h
        exact .lagging hmore
      · cases h
        exact .caughtUp
  | exited j => cases h

namespace Sys

/-- The state after a step of the thread, which leaves everything to the core but the
record of freezes and commits. -/
def afterThread (s : Sys) (c : Core) : Sys :=
  { s with
    toCore := c
    frozenAt := if endsFreeze s.toCore then s.hist.length else s.frozenAt
    durable := s.durable ++
      (committing s.toCore).toList.map fun nodes => ⟨durableUpTo s.durable, s.frozenAt, nodes⟩ }

def giveBuffer (s : Sys) (id : ℕ) (blockno : UInt64) : List LiveHandle :=
  s.handles.map fun h => if h.id = id then { h with bufs := blockno :: h.bufs } else h

def pendingCall (s : Sys) : SyncCall := ⟨s.mgr.generationSeq, s.hist.length, s.handles.map (·.id)⟩

/-- The steps of the system. -/
inductive Steps (s : Sys) : Action → Sys → Prop
  | thread {c : Core} (now : ThreadStep s.toCore c) : Steps s .thread (s.afterThread c)
  | start (up : s.mgr.shutdown = false) (open_ : s.mgr.freezing = false) :
      Steps s .start
        { s with
          mgr := { s.mgr with runningHandles := s.mgr.runningHandles + 1 }
          handles := ⟨s.nextHandle, ⟨s.mgr.generationSeq⟩, []⟩ :: s.handles
          nextHandle := s.nextHandle + 1 }
  | abort {h : LiveHandle} {b : UInt64} (live : h ∈ s.handles)
      (tag : h.handle.txnId ≠ s.mgr.generationSeq) :
      Steps s (.getWriteAccess h.id b) { s with aborted := true }
  | accessFailed {id : ℕ} {b : UInt64} : Steps s (.getWriteAccess id b) s
  | accessStaged {h : LiveHandle} {b : UInt64} (live : h ∈ s.handles) (staged : findDirty s.mgr b ≠ none) :
      Steps s (.getWriteAccess h.id b) { s with handles := s.giveBuffer h.id b }
  | accessNew {h : LiveHandle} {b : UInt64} {data : Block} (live : h ∈ s.handles)
      (new : findDirty s.mgr b = none) (seeded : seed s.mgr s.disk.view b = some data) :
      Steps s (.getWriteAccess h.id b)
        { s with
          mgr := insertDirty s.mgr ⟨b, data⟩
          handles := s.giveBuffer h.id b
          hist := s.hist ++ [⟨h.id, b, data, true⟩] }
  | bufWrite {h : LiveHandle} {b : UInt64} {data : Block} (live : h ∈ s.handles) (held : b ∈ h.bufs) :
      Steps s (.bufWrite h.id b data)
        { s with mgr := writeBuffer s.mgr b data, hist := s.hist ++ [⟨h.id, b, data, false⟩] }
  | stop {h : LiveHandle} (live : h ∈ s.handles) :
      Steps s (.stop h.id) { s with mgr := txnStop s.mgr, handles := s.handles.filter fun g => g.id != h.id }
  | syncNow (up : s.mgr.shutdown = false) (done : ¬ s.mgr.completedThrough < s.mgr.generationSeq) :
      Steps s .syncCall
        { s with
          mgr := { s.mgr with commitRequested := true }, returned := s.returned ++ [s.pendingCall] }
  | syncWait (up : s.mgr.shutdown = false) (wait : s.mgr.completedThrough < s.mgr.generationSeq) :
      Steps s .syncCall
        { s with mgr := { s.mgr with commitRequested := true }, syncs := s.syncs ++ [s.pendingCall] }
  | syncReturn {i : ℕ} {call : SyncCall} (waiting : s.syncs[i]? = some call)
      (done : s.mgr.completedThrough < call.target → s.mgr.shutdown = true) :
      Steps s (.syncReturn i) { s with syncs := s.syncs.eraseIdx i, returned := s.returned ++ [call] }
  | destroy (up : s.mgr.shutdown = false) :
      Steps s .destroy { s with mgr := { s.mgr with shutdown := true } }

theorem mem_of_findHandle {s : Sys} {id : ℕ} {h : LiveHandle} (hfind : s.findHandle id = some h) :
    h ∈ s.handles ∧ h.id = id :=
  ⟨List.mem_of_find?_eq_some hfind, by simpa using List.find?_some hfind⟩

theorem steps_getWriteAccess {s s' : Sys} {id : ℕ} {b : UInt64}
    (h : s.getWriteAccessAction id b = some s') : Steps s (.getWriteAccess id b) s' := by
  obtain ⟨handle, hfind, he⟩ := Option.map_eq_some_iff.mp h
  obtain ⟨hlive, rfl⟩ := mem_of_findHandle hfind
  by_cases htag : handle.handle.txnId = s.mgr.generationSeq
  · rw [if_neg (by simpa [tagMatches] using htag), run_getWriteAccess] at he
    cases hdirty : findDirty s.mgr b with
    | some d =>
        simp only [hdirty] at he
        cases he
        exact .accessStaged hlive (by simp [hdirty])
    | none =>
        cases hseed : seed s.mgr s.disk.view b with
        | none =>
            simp only [hdirty, hseed] at he
            cases he
            exact .accessFailed
        | some data =>
            simp only [hdirty, hseed] at he
            cases he
            exact .accessNew hlive hdirty hseed
  · rw [if_pos (by simpa [tagMatches] using htag)] at he
    cases he
    exact .abort hlive htag

theorem commitSyncDone_iff {m : TxnMgr} {target : UInt64} :
    commitSyncDone m target = true ↔ (m.completedThrough < target → m.shutdown = true) := by
  by_cases hlt : m.completedThrough < target <;> simp [commitSyncDone, hlt]

theorem steps_syncCall {s s' : Sys} (h : s.syncCallAction = some s') : Steps s .syncCall s' := by
  unfold syncCallAction at h
  split_ifs at h with hdown
  have hup : s.mgr.shutdown = false := by simpa using hdown
  dsimp only [commitSyncRequest] at h
  split_ifs at h with hdone
  · cases h
    refine .syncNow hup fun hlt => ?_
    have hshut := commitSyncDone_iff.mp hdone hlt
    simp [hup] at hshut
  · cases h
    refine .syncWait hup ?_
    by_contra hlt
    exact hdone (commitSyncDone_iff.mpr fun h => absurd h hlt)

theorem step_sound {s s' : Sys} {a : Action} (h : s.step a = some s') : Steps s a s' := by
  unfold step at h
  split_ifs at h
  cases a with
  | thread =>
      obtain ⟨c, hnow, rfl⟩ := Option.map_eq_some_iff.mp h
      exact .thread (threadStep_sound hnow)
  | start =>
      simp only [startAction, txnStart] at h
      split_ifs at h with hdown hfreeze
      · simp at h
      · cases h
        exact .start (by simpa using hdown) (by simpa using hfreeze)
  | getWriteAccess id b => exact steps_getWriteAccess h
  | bufWrite id b data =>
      obtain ⟨handle, hfind, he⟩ := Option.bind_eq_some_iff.mp h
      obtain ⟨hlive, rfl⟩ := mem_of_findHandle hfind
      split_ifs at he with hheld
      cases he
      exact .bufWrite hlive hheld
  | stop id =>
      obtain ⟨handle, hfind, rfl⟩ := Option.map_eq_some_iff.mp h
      obtain ⟨hlive, rfl⟩ := mem_of_findHandle hfind
      exact .stop hlive
  | syncCall => exact steps_syncCall h
  | syncReturn i =>
      obtain ⟨call, hget, he⟩ := Option.bind_eq_some_iff.mp h
      split_ifs at he with hdone
      cases he
      exact .syncReturn hget (commitSyncDone_iff.mp hdone)
  | destroy =>
      simp only [destroyAction] at h
      split_ifs at h with hdown
      cases h
      exact .destroy (by simpa using hdown)

theorem mem_giveBuffer {s : Sys} {id : ℕ} {b : UInt64} {g : LiveHandle} (h : g ∈ s.giveBuffer id b) :
    ∃ g₀ ∈ s.handles, g.id = g₀.id ∧ g.handle = g₀.handle ∧
      (g.bufs = g₀.bufs ∨ g.bufs = b :: g₀.bufs) := by
  obtain ⟨g₀, hmem, rfl⟩ := List.mem_map.mp h
  refine ⟨g₀, hmem, ?_⟩
  split
  · exact ⟨rfl, rfl, .inr rfl⟩
  · exact ⟨rfl, rfl, .inl rfl⟩

end Sys
end Logfs
