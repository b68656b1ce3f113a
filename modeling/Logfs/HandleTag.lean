import Logfs.Steps

/-!
# The generation tag of a handle

`logfs_txn_start` tags a handle with `generation_seq`, and `logfs_txn_get_write_access`
asserts that the tag is still current. `do_commit` changes `generation_seq` in its last
section, after the freeze has ended and new handles have been admitted.
-/
namespace Logfs
open Transition

/-- The last section of `do_commit` runs while no handle is live, or leaves
`generation_seq` as it is. -/
def linksQuietly (s : Sys) : Action → Bool
  | .thread =>
      match s.pc with
      | .link j _ _ => s.handles.isEmpty || j.nextSequence == s.mgr.generationSeq
      | _ => true
  | _ => true

/-- No assertion has failed, and every live handle has the tag of the running generation. -/
structure TagsHold (s : Sys) : Prop where
  running : s.aborted = false
  current : ∀ h ∈ s.handles, h.handle.txnId = s.mgr.generationSeq

theorem ThreadStep.generationSeq {c c' : Core} (h : ThreadStep c c') :
    c'.mgr.generationSeq = c.mgr.generationSeq ∨
      ∃ j nodes rc, c.pc = .link j nodes rc ∧ c'.mgr.generationSeq = j.nextSequence := by
  cases h with
  | link => exact .inr ⟨_, _, _, rfl, rfl⟩
  | take =>
      left
      simp only [endFreeze]
      rw [takeGeneration_snd]
  | _ => exact .inl rfl

theorem TagsHold.giveBuffer {s : Sys} (h : TagsHold s) (id : ℕ) (b : UInt64) :
    ∀ g ∈ s.giveBuffer id b, g.handle.txnId = s.mgr.generationSeq := by
  intro g hg
  obtain ⟨g₀, hmem, -, htag, -⟩ := Sys.mem_giveBuffer hg
  rw [htag]
  exact h.current g₀ hmem

theorem TagsHold.thread {s : Sys} {c : Core} (h : TagsHold s)
    (hquiet : linksQuietly s .thread = true) (hstep : ThreadStep s.toCore c) :
    TagsHold (s.afterThread c) := by
  refine ⟨h.running, fun g hg => ?_⟩
  have hlive : g ∈ s.handles := hg
  change g.handle.txnId = c.mgr.generationSeq
  rcases hstep.generationSeq with hsame | ⟨j, nodes, rc, hpc, hnew⟩
  · rw [hsame]
    exact h.current g hlive
  · simp only [linksQuietly, hpc, Bool.or_eq_true, List.isEmpty_iff, beq_iff_eq] at hquiet
    rcases hquiet with hnone | hseq
    · simp [hnone] at hlive
    · rw [hnew, hseq]
      exact h.current g hlive

theorem tagsHold_preserved :
    Preserves Sys.step (fun s a => linksQuietly s a = true) TagsHold := by
  intro s s' a hok hnow h
  cases Sys.step_sound hnow with
  | thread hstep => exact h.thread hok hstep
  | start =>
      refine ⟨h.running, fun g hg => ?_⟩
      rcases List.mem_cons.mp hg with rfl | hg
      · rfl
      · exact h.current g hg
  | abort hlive htag => exact absurd (h.current _ hlive) htag
  | accessFailed => exact h
  | accessStaged => exact ⟨h.running, h.giveBuffer _ _⟩
  | accessNew => exact ⟨h.running, h.giveBuffer _ _⟩
  | bufWrite => exact ⟨h.running, h.current⟩
  | stop => exact ⟨h.running, fun g hg => h.current g (List.mem_of_mem_filter hg)⟩
  | syncNow => exact ⟨h.running, h.current⟩
  | syncWait => exact ⟨h.running, h.current⟩
  | syncReturn => exact ⟨h.running, h.current⟩
  | destroy => exact ⟨h.running, h.current⟩

/-- The assertion never fails in a run in which no commit is linked under a live handle. -/
theorem tagsHold_of_linksQuietly (j : Journal) (img : Image) (mode : DataMode) {s : Sys}
    (hrun : Run Sys.step (fun s a => linksQuietly s a = true) (Sys.boot j img mode) s) :
    TagsHold s :=
  hrun.invariant ⟨rfl, by simp [Sys.boot]⟩ tagsHold_preserved

/-- A handle stages a block and stops; its generation is committed; another handle starts
during the commit and asks for a block once the commit is linked. -/
def startDuringCommit : List Action :=
  [.start, .getWriteAccess 0 20, .stop 0, .thread, .thread, .start] ++ List.replicate 9 .thread ++
    [.getWriteAccess 1 20]

theorem not_tagsHold : ∃ s, Run Sys.step (fun _ _ => True) tinyMount s ∧ ¬ TagsHold s := by
  obtain ⟨s, hrun, habort⟩ := exists_run_of_exec Sys.step (fun _ _ => True) tinyMount
    startDuringCommit (fun s => s.aborted) (by decide +kernel)
  exact ⟨s, hrun, fun h => by simp [h.running] at habort⟩

/-- The same run up to the link, the second handle stopped before it. -/
theorem tagsHold_stopBeforeLink : ∃ s, s.durable.length = 1 ∧ TagsHold s := by
  obtain ⟨s, hrun, hlen⟩ := exists_run_of_exec Sys.step (fun s a => linksQuietly s a = true) tinyMount
    ([.start, .getWriteAccess 0 20, .stop 0, .thread, .thread, .start, .stop 1] ++
      List.replicate 9 .thread ++ [.start, .getWriteAccess 2 20])
    (fun s => s.durable.length == 1) (by decide +kernel)
  exact ⟨s, by simpa using hlen, tagsHold_of_linksQuietly _ _ _ hrun⟩

end Logfs
