import Logfs.SystemInvariant

/-!
# The size of a generation

A transaction has one descriptor block, which `journal.h` justifies by a cap that
`txn.c` puts on a transaction's size. Nothing in `txn.c` counts the staging table
before another block is staged: a generation of more than `LOGFS_MAX_TAGS_PER_DESC`
blocks reaches `do_commit`, where the journal rejects it and its updates are dropped.
-/
namespace Logfs
open Interaction WriteCache Transition

/-- A block that is not staged yet is staged only while the table has room for one descriptor. -/
def stagesWithinCap (s : Sys) : Action → Bool
  | .getWriteAccess _ blockno =>
      (findDirty s.mgr blockno).isSome || decide ((stagedNodes s.mgr).length < maxTagsPerDesc)
  | _ => true

/-- The staging table, and the generation in the hands of `do_commit`, fit one transaction. -/
structure SizeCapped (s : Sys) : Prop where
  staged : (stagedNodes s.mgr).length ≤ maxTagsPerDesc
  accepted : journalSpaceNeeded s.pc.inflight.length 0 ≠ 0

theorem spaceNeeded_ne_zero_of_le {n : ℕ} (h : n ≤ maxTagsPerDesc) : journalSpaceNeeded n 0 ≠ 0 := by
  have hfits : Fits (List.replicate n ⟨0, zeroBlock⟩) [] := ⟨by simpa using h, Nat.zero_le _⟩
  have hneed := spaceNeeded_ne_zero (t := ⟨List.replicate n ⟨0, zeroBlock⟩, []⟩) hfits
  simpa using hneed

theorem spaceNeeded_eq_zero {n : ℕ} (h : maxTagsPerDesc < n) : journalSpaceNeeded n 0 = 0 :=
  if_pos (.inl h)

/-! ## Steps -/

section Steps
variable {c c' : Core} {s s' : Sys}

theorem length_takeGeneration_le (m : TxnMgr) :
    (takeGeneration m).1.1.length ≤ (stagedNodes m).length ∧
      (stagedNodes (takeGeneration m).2).length ≤ (stagedNodes m).length := by
  unfold takeGeneration flattenAndClear
  split
  · exact ⟨Nat.zero_le _, le_refl _⟩
  · refine ⟨le_refl _, ?_⟩
    rw [stagedNodes_of_empty rfl]
    exact Nat.zero_le _

theorem inflight_endFreeze (c : Core) (j : Journal) :
    (endFreeze c j).pc.inflight = (takeGeneration c.mgr).1.1 := by
  unfold endFreeze
  dsimp only
  split
  · rfl
  · exact inflight_afterFreeze j _

/-- The thread only takes from the staging table, and what it works on it took from there. -/
theorem ThreadStep.length_le {n : ℕ} (hstep : ThreadStep c c') (hstaged : (stagedNodes c.mgr).length ≤ n)
    (hinflight : c.pc.inflight.length ≤ n) :
    (stagedNodes c'.mgr).length ≤ n ∧ c'.pc.inflight.length ≤ n := by
  cases hstep with
  | @take m d pc j ends up =>
      obtain ⟨htaken, hleft⟩ := length_takeGeneration_le m
      rw [inflight_endFreeze]
      exact ⟨hleft.trans hstaged, htaken.trans hstaged⟩
  | orderedFlush => exact ⟨hstaged, by rwa [inflight_afterFreeze]⟩
  | unlinkNone => exact ⟨hstaged, by rwa [inflight_resume]⟩
  | writeHomeError => exact ⟨hstaged, by rwa [inflight_resume]⟩
  | advanced => exact ⟨hstaged, by rwa [inflight_resume]⟩
  | link => exact ⟨hstaged, Nat.zero_le _⟩
  | _ => exact ⟨hstaged, hinflight⟩

theorem length_stagedNodes_insertDirty (m : TxnMgr) (d : DirtyBlock) :
    (stagedNodes (insertDirty m d)).length = (stagedNodes m).length + 1 := by
  change (HashTable.entries (HashTable.insert hashBlock DirtyBlock.blockno m.buckets d)).length = _
  rw [HashTable.length_entries_insert]
  rfl

theorem length_stagedNodes_writeBuffer (m : TxnMgr) (b : UInt64) (data : Block) :
    (stagedNodes (writeBuffer m b data)).length = (stagedNodes m).length := by
  change (HashTable.entries (writeBuffer m b data).buckets).length = _
  rw [buckets_writeBuffer, HashTable.length_entries_modify]
  rfl

theorem Sys.Steps.length_le {a : Action} (hstep : Sys.Steps s a s')
    (hcap : stagesWithinCap s a = true) (hstaged : (stagedNodes s.mgr).length ≤ maxTagsPerDesc)
    (hinflight : s.pc.inflight.length ≤ maxTagsPerDesc) :
    (stagedNodes s'.mgr).length ≤ maxTagsPerDesc ∧ s'.pc.inflight.length ≤ maxTagsPerDesc := by
  cases hstep with
  | thread now => exact now.length_le hstaged hinflight
  | @accessNew h b data live new seeded =>
      refine ⟨?_, hinflight⟩
      rw [length_stagedNodes_insertDirty]
      simpa [stagesWithinCap, new] using hcap
  | bufWrite => exact ⟨by rwa [length_stagedNodes_writeBuffer], hinflight⟩
  | _ => exact ⟨hstaged, hinflight⟩

end Steps

/-- In every run that stages within the cap, no generation is too large for the journal. -/
theorem sizeCapped_of_stagesWithinCap {j : Journal} {img : Image} {mode : DataMode} {s : Sys}
    (hrun : Run Sys.step (fun s a => stagesWithinCap s a = true) (Sys.boot j img mode) s) :
    SizeCapped s := by
  have hinv : (stagedNodes s.mgr).length ≤ maxTagsPerDesc ∧ s.pc.inflight.length ≤ maxTagsPerDesc := by
    refine hrun.invariant (I := fun s =>
      (stagedNodes s.mgr).length ≤ maxTagsPerDesc ∧ s.pc.inflight.length ≤ maxTagsPerDesc) ?_ ?_
    · rw [stagedNodes_of_empty rfl]
      exact ⟨Nat.zero_le _, Nat.zero_le _⟩
    · intro s t a hcap hnow h
      exact (Sys.step_sound hnow).length_le hcap h.1 h.2
  exact ⟨hinv.1, spaceNeeded_ne_zero_of_le hinv.2⟩

/-- One handle that stages two blocks. -/
theorem sizeCapped_two : ∃ s,
    Run Sys.step (fun s a => stagesWithinCap s a = true) tinyMount s ∧
      (stagedNodes s.mgr).length = 2 ∧ SizeCapped s := by
  obtain ⟨s, hrun, hlen⟩ := exists_run_of_exec Sys.step (fun s a => stagesWithinCap s a = true) tinyMount
    [.start, .getWriteAccess 0 20, .getWriteAccess 0 21] (fun s => (stagedNodes s.mgr).length == 2)
    (by decide +kernel)
  exact ⟨s, hrun, by simpa using hlen, sizeCapped_of_stagesWithinCap hrun⟩

/-! ## A generation that is too large -/

/-- A journal with room for more blocks than one descriptor names. -/
def wideJournal : Journal := ⟨⟨2048⟩, 3, 1024, 0, 0, 1⟩

def wideMount : Sys := Sys.boot wideJournal (fun _ => zeroBlock) .journal

/-- One handle has staged the `n` blocks from 1100 on. -/
structure Filled (n : ℕ) (s : Sys) : Prop where
  running : s.aborted = false
  pc : s.pc = .top wideJournal
  up : s.mgr.shutdown = false
  open_ : s.mgr.freezing = false
  mode : s.mgr.mode = .journal
  dev : s.mgr.dev = ⟨2048⟩
  ckpt : s.mgr.ckpt = []
  one : s.mgr.runningHandles = 1
  handle : ∃ bufs, s.handles = [⟨0, ⟨s.mgr.generationSeq⟩, bufs⟩]
  count : s.mgr.ndirty = n
  length : (stagedNodes s.mgr).length = n
  fresh : ∀ b : UInt64, 1100 + n ≤ b.toNat → findDirty s.mgr b = none

theorem filled_zero : ∃ s, Run Sys.step (fun _ _ => True) wideMount s ∧ Filled 0 s := by
  refine ⟨_, .next .init trivial (a := .start) rfl, ?_⟩
  exact ⟨rfl, rfl, rfl, rfl, rfl, rfl, rfl, rfl, ⟨[], rfl⟩, rfl, by rw [stagedNodes_of_empty rfl]; rfl,
    fun b _ => rfl⟩

theorem Filled.succ {n : ℕ} {s : Sys} (hn : n < 900) (h : Filled n s) :
    ∃ b s', Sys.step s (.getWriteAccess 0 b) = some s' ∧ Filled (n + 1) s' := by
  obtain ⟨bufs, hhandles⟩ := h.handle
  obtain ⟨b, hb⟩ : ∃ b : UInt64, b.toNat = 1100 + n :=
    ⟨UInt64.ofNat (1100 + n), UInt64.toNat_ofNat_of_lt' (show 1100 + n < 18446744073709551616 by omega)⟩
  have hnew := h.fresh b (by omega)
  have hlt : ¬ (2048 : UInt64) ≤ b := by
    rw [UInt64.le_iff_toNat_le, hb]
    simp
    omega
  have hseed : seed s.mgr s.disk.view b = some (s.disk.view b) := by
    rw [seed, findCheckpointed, h.ckpt, List.foldl_nil, h.dev]
    exact if_neg hlt
  refine ⟨b, { s with
      mgr := insertDirty s.mgr ⟨b, s.disk.view b⟩
      handles := [⟨0, ⟨s.mgr.generationSeq⟩, b :: bufs⟩]
      hist := s.hist ++ [⟨0, b, s.disk.view b, true⟩] }, ?_, ?_⟩
  · simp [Sys.step, h.running, Sys.getWriteAccessAction, Sys.findHandle, hhandles, tagMatches,
      run_getWriteAccess, hnew, hseed]
  · refine ⟨h.running, h.pc, h.up, h.open_, h.mode, h.dev, h.ckpt, h.one, ⟨_, rfl⟩,
      by simp [insertDirty, h.count], ?_, fun b' hb' => ?_⟩
    · rw [length_stagedNodes_insertDirty, h.length]
    · have hne : b ≠ b' := by
        rintro rfl
        omega
      have hfind : findDirty (insertDirty s.mgr ⟨b, s.disk.view b⟩) b' = _ := HashTable.find_insert b'
      rw [hfind, if_neg hne]
      exact h.fresh b' (by omega)

theorem exists_filled {n : ℕ} (hn : n ≤ 900) :
    ∃ s, Run Sys.step (fun _ _ => True) wideMount s ∧ Filled n s := by
  induction n with
  | zero => exact filled_zero
  | succ n ih =>
      obtain ⟨s, hrun, hfilled⟩ := ih (by omega)
      obtain ⟨b, s', hnow, hfilled'⟩ := hfilled.succ (by omega)
      exact ⟨s', .next hrun trivial hnow, hfilled'⟩

theorem step_thread {s : Sys} {c : Core} (hup : s.aborted = false)
    (h : threadStep s.toCore = some c) : Sys.step s .thread = some (s.afterThread c) := by
  rw [Sys.step, if_neg (by simp [hup])]
  exact congrArg (Option.map s.afterThread) h

/-- With no handle to wait for, the thread takes what is staged. -/
theorem threadStep_take {c : Core} {j : Journal} (hpc : c.pc = .top j) (hup : c.mgr.shutdown = false)
    (hstaged : c.mgr.ndirty ≠ 0) (hidle : c.mgr.runningHandles = 0) :
    threadStep c = some (endFreeze { c with mgr := { c.mgr with freezing := true } } j) := by
  simp [threadStep, hpc, hup, cycleIdle, hstaged, beginFreeze, hidle]

/-- A handle stages 511 blocks and stops; the commit of the generation returns `-EINVAL`. -/
theorem not_sizeCapped : ∃ s, Run Sys.step (fun _ _ => True) wideMount s ∧ ¬ SizeCapped s ∧
    ∃ j nodes, s.pc = .link j nodes (.error .einval) ∧ nodes.length = 511 := by
  obtain ⟨s, hrun, h⟩ := exists_filled (n := 511) (by omega)
  obtain ⟨bufs, hhandles⟩ := h.handle
  have hzero : journalSpaceNeeded 511 0 = 0 := spaceNeeded_eq_zero (by decide)
  have hdirty : s.mgr.ndirty ≠ 0 := by
    rw [h.count]
    decide
  -- the handle stops
  have hstop : Sys.step s (.stop 0) = some { s with mgr := txnStop s.mgr, handles := [] } := by
    simp [Sys.step, h.running, Sys.stopAction, Sys.findHandle, hhandles]
  have hidle : (txnStop s.mgr).runningHandles = 0 := by
    rw [txnStop, h.one]
  have hrun₁ := hrun.next trivial hstop
  -- the thread takes the generation
  have htake := step_thread (s := { s with mgr := txnStop s.mgr, handles := [] }) h.running
    (threadStep_take h.pc h.up hdirty hidle)
  have htaken : takeGeneration { txnStop s.mgr with freezing := true } = ((stagedNodes s.mgr, false),
      { txnStop s.mgr with
        buckets := fun _ => [], ndirty := 0, orderedBlocks := [], commitRequested := false,
        freezing := false }) := by
    have hmode := h.mode
    simp only [takeGeneration, flattenAndClear, txnStop, if_neg hdirty, hmode]
    rfl
  have hpc : (endFreeze { s.toCore with mgr := { txnStop s.mgr with freezing := true } } wideJournal).pc =
      .reclaim wideJournal (stagedNodes s.mgr) := by
    have hpos : 0 < (stagedNodes s.mgr).length := by
      rw [h.length]
      decide
    simp [endFreeze, htaken, afterFreeze, hpos]
  generalize hc : endFreeze { s.toCore with mgr := { txnStop s.mgr with freezing := true } } wideJournal = c
    at hpc htake
  have hrun₂ := hrun₁.next trivial htake
  -- a generation that is too large needs no space at all, so none is made for it
  have hcommit : journalCommit wideJournal (pendingBlocks (stagedNodes s.mgr)) [] =
      .ret (.error .einval, wideJournal) := by
    rw [journalCommit]
    simp [pendingBlocks, h.length, hzero]
  have hreclaim : threadStep c =
      some { c with pc := .commit (.ret (.error .einval, wideJournal)) (stagedNodes s.mgr) } := by
    simp [threadStep, hpc, h.length, hzero, hcommit]
  have hrun₃ := hrun₂.next trivial (step_thread (s := Sys.afterThread _ c) h.running hreclaim)
  have hrun₄ := hrun₃.next trivial (step_thread (s := Sys.afterThread _ _) h.running rfl)
  refine ⟨_, hrun₄, fun hcap => ?_, wideJournal, stagedNodes s.mgr, rfl, h.length⟩
  exact hcap.accepted (by rw [← hzero, ← h.length]; rfl)

end Logfs
