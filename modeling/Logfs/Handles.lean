import Logfs.Steps

/-!
# The live handles

`running_handles` counts them, and no freeze ends while there is one. The assertion of
`logfs_txn_get_write_access` plays no part in this.
-/
namespace Logfs
open Interaction WriteCache

namespace Sys

/-- `logfs_txn_get_write_access` without its assertion. -/
def grantAccess (s : Sys) (id : ℕ) (blockno : UInt64) : Option Sys :=
  (s.findHandle id).map fun _ =>
    match (run faultless (getWriteAccess s.mgr blockno) s.disk).1 with
    | (.error _, mgr) => { s with mgr }
    | (.ok data, mgr) =>
        { s with
          mgr
          handles := s.giveBuffer id blockno
          hist := if (findDirty s.mgr blockno).isNone then s.hist ++ [⟨id, blockno, data, true⟩] else s.hist }

/-- What access to a block does, whether its node is there, cannot be read, or is new. -/
theorem grantAccess_cases {s s' : Sys} {id : ℕ} {b : UInt64} (h : s.grantAccess id b = some s') :
    (∃ g ∈ s.handles, g.id = id) ∧
      (findDirty s.mgr b ≠ none ∧ s' = { s with handles := s.giveBuffer id b } ∨
        findDirty s.mgr b = none ∧ s' = s ∨
        ∃ data, findDirty s.mgr b = none ∧
          s' = { s with
            mgr := insertDirty s.mgr ⟨b, data⟩
            handles := s.giveBuffer id b
            hist := s.hist ++ [⟨id, b, data, true⟩] }) := by
  obtain ⟨g, hfind, he⟩ := Option.map_eq_some_iff.mp h
  refine ⟨⟨g, mem_of_findHandle hfind⟩, ?_⟩
  rw [run_getWriteAccess] at he
  cases hdirty : findDirty s.mgr b with
  | some d =>
      simp only [hdirty] at he
      exact .inl ⟨by simp, he.symm⟩
  | none =>
      right
      cases hseed : seed s.mgr s.disk.view b with
      | none =>
          simp only [hdirty, hseed] at he
          exact .inl ⟨rfl, he.symm⟩
      | some data =>
          simp only [hdirty, hseed] at he
          exact .inr ⟨data, rfl, he.symm⟩

end Sys

/-! ## What the thread leaves alone -/

theorem ThreadStep.runningHandles {c c' : Core} (h : ThreadStep c c') :
    c'.mgr.runningHandles = c.mgr.runningHandles := by
  cases h with
  | take =>
      simp only [endFreeze]
      rw [takeGeneration_snd]
  | _ => rfl

theorem ThreadStep.shutdown {c c' : Core} (h : ThreadStep c c') :
    c'.mgr.shutdown = c.mgr.shutdown := by
  cases h with
  | take =>
      simp only [endFreeze]
      rw [takeGeneration_snd]
  | _ => rfl

/-- Only the end of a freeze changes the staging table. -/
theorem ThreadStep.buckets {c c' : Core} (h : ThreadStep c c') :
    endsFreeze c = true ∨ c'.mgr.buckets = c.mgr.buckets ∧ c'.mgr.ndirty = c.mgr.ndirty := by
  cases h with
  | take ends => exact .inl ends
  | _ => exact .inr ⟨rfl, rfl⟩

/-! ## Counting -/

/-- Without the handle that stops there is one handle fewer. -/
theorem length_filter_id {hs : List LiveHandle} (hnodup : (hs.map (·.id)).Nodup) {h : LiveHandle}
    (hmem : h ∈ hs) : (hs.filter fun g => g.id != h.id).length + 1 = hs.length := by
  have hone : hs.countP (fun g => g.id == h.id) = 1 := by
    have hcount := List.count_eq_one_of_mem hnodup (List.mem_map_of_mem (f := (·.id)) hmem)
    rwa [List.count, List.countP_map] at hcount
  have hsplit := List.length_eq_countP_add_countP (fun g : LiveHandle => g.id == h.id) (l := hs)
  rw [hone, List.countP_eq_length_filter] at hsplit
  have hsame : (hs.filter fun g => g.id != h.id) =
      hs.filter fun g => decide ¬((g.id == h.id) = true) :=
    List.filter_congr fun g _ => by by_cases hg : g.id = h.id <;> simp [hg]
  rw [hsame]
  omega

/-- `running_handles` counts the live handles, which have different numbers. -/
structure HandlesOk (s : Sys) : Prop where
  count : s.mgr.runningHandles = s.handles.length
  ids : (s.handles.map (·.id)).Nodup
  fresh : ∀ h ∈ s.handles, h.id < s.nextHandle

namespace HandlesOk

variable {s : Sys}

theorem none_live (h : HandlesOk s) (hends : endsFreeze s.toCore = true) :
    s.handles = [] := by
  have hzero : s.mgr.runningHandles = 0 := by
    unfold endsFreeze at hends
    split at hends
    · simp only [Bool.and_eq_true, beq_iff_eq] at hends
      exact hends.2
    · simpa using hends
    · simp at hends
  rw [h.count] at hzero
  exact List.length_eq_zero_iff.mp hzero

theorem giveBuffer (h : HandlesOk s) (id : ℕ) (b : UInt64) :
    (s.giveBuffer id b).length = s.handles.length ∧
      (s.giveBuffer id b).map (·.id) = s.handles.map (·.id) ∧
      ∀ g ∈ s.giveBuffer id b, g.id < s.nextHandle := by
  refine ⟨List.length_map _, ?_, fun g hg => ?_⟩
  · rw [Sys.giveBuffer, List.map_map]
    refine List.map_congr_left fun g _ => ?_
    simp only [Function.comp_apply]
    split <;> rfl
  · obtain ⟨g₀, hmem, hid, -⟩ := Sys.mem_giveBuffer hg
    rw [hid]
    exact h.fresh g₀ hmem

theorem start (h : HandlesOk s) {handle : Handle} :
    HandlesOk
      { s with
        mgr := { s.mgr with runningHandles := s.mgr.runningHandles + 1 }
        handles := ⟨s.nextHandle, handle, []⟩ :: s.handles
        nextHandle := s.nextHandle + 1 } := by
  refine ⟨congrArg (· + 1) h.count, ?_, ?_⟩
  · rw [List.map_cons, List.nodup_cons]
    refine ⟨fun hmem => ?_, h.ids⟩
    obtain ⟨g, hg, he⟩ := List.mem_map.mp hmem
    have hlt := h.fresh g hg
    rw [he] at hlt
    exact Nat.lt_irrefl _ hlt
  · intro g hg
    rcases List.mem_cons.mp hg with rfl | hg
    · exact Nat.lt_succ_self _
    · exact Nat.lt_succ_of_lt (h.fresh g hg)

theorem stop (h : HandlesOk s) {g : LiveHandle} (hlive : g ∈ s.handles) :
    HandlesOk { s with mgr := txnStop s.mgr, handles := s.handles.filter fun g' => g'.id != g.id } := by
  have hlen := length_filter_id h.ids hlive
  have hcount := h.count
  refine ⟨?_, h.ids.sublist (List.filter_sublist.map _), fun g' hg' =>
    h.fresh g' (List.mem_of_mem_filter hg')⟩
  change s.mgr.runningHandles - 1 = (s.handles.filter fun g' => g'.id != g.id).length
  omega

theorem thread (h : HandlesOk s) {c : Core} (hstep : ThreadStep s.toCore c) : HandlesOk (s.afterThread c) :=
  ⟨hstep.runningHandles.trans h.count, h.ids, h.fresh⟩

end HandlesOk
end Logfs
