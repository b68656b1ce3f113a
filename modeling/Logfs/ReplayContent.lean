import Logfs.Recovery

/-!
# What replay leaves in a home block

Pass 2 of `logfs_journal_recover` decides copy by copy, each against every revoke
entry. When the transactions' sequence numbers increase, the outcome for a block is
decided by its last logged copy and its newest revoke alone: where the last copy is
revoked, so are all earlier ones. A revoke does not reach the copy of its own
transaction, as the comparison is strict.
-/
namespace Logfs
open Interaction WriteCache

/-- The copy of `b` that replay visits last. -/
def lastCopy (copies : List LoggedCopy) (b : UInt64) : Option LoggedCopy :=
  (copies.filter (·.targetBlock = b)).getLast?

/-- The largest sequence number among the revokes of `b`. -/
def newestRevoke (revokes : List RevokeEntry) (b : UInt64) : Option ℕ :=
  ((revokes.filter (·.targetBlock = b)).map (·.sequence.toNat)).max?

/-- The content a home block ends with: that of its last logged copy, unless a revoke is newer. -/
def replayedContent (rd : UInt64 → Block) (revokes : List RevokeEntry) (copies : List LoggedCopy)
    (img : Image) (b : UInt64) : Block :=
  match lastCopy copies b with
  | none => img b
  | some t => if ∀ s ∈ newestRevoke revokes b, s ≤ t.sequence.toNat then rd t.offset else img b

variable {j : Journal} {rd : UInt64 → Block} {revokes : List RevokeEntry} {copies : List LoggedCopy}

/-! ## Revokes -/

theorem isRevoked_eq_true {b s : UInt64} :
    isRevoked revokes b s = true ↔ ∃ r ∈ revokes, r.targetBlock = b ∧ s < r.sequence := by
  simp [isRevoked]

/-- The inner loop of pass 2 finds a revoke exactly when the newest one is newer than the copy. -/
theorem not_isRevoked_iff {b s : UInt64} :
    ¬ isRevoked revokes b s = true ↔ ∀ m ∈ newestRevoke revokes b, m ≤ s.toNat := by
  rw [isRevoked_eq_true]
  push Not
  cases hm : newestRevoke revokes b with
  | none =>
      have hnone : revokes.filter (·.targetBlock = b) = [] := by
        simpa [newestRevoke, List.max?_eq_none_iff] using hm
      simp only [List.filter_eq_nil_iff, decide_eq_true_eq] at hnone
      simp only [Option.not_mem_none, false_implies, implies_true, iff_true]
      exact fun r hr hb => absurd hb (hnone r hr)
  | some m =>
      obtain ⟨hmem, hmax⟩ := List.max?_eq_some_iff.mp hm
      simp only [List.mem_map, List.mem_filter, decide_eq_true_eq] at hmem hmax
      simp only [Option.mem_some_iff, forall_eq']
      constructor
      · intro hall
        obtain ⟨r, ⟨hr, hb⟩, rfl⟩ := hmem
        exact UInt64.le_iff_toNat_le.mp (UInt64.not_lt.mp (hall r hr hb))
      · intro hle r hr hb
        exact UInt64.not_lt.mpr
          (UInt64.le_iff_toNat_le.mpr ((hmax _ ⟨r, ⟨hr, hb⟩, rfl⟩).trans hle))

/-- A revoke newer than a copy is newer than every earlier copy of the block. -/
theorem isRevoked_mono {b s s' : UInt64} (hle : s ≤ s') (h : isRevoked revokes b s' = true) :
    isRevoked revokes b s = true := by
  obtain ⟨r, hr, hb, hlt⟩ := isRevoked_eq_true.mp h
  exact isRevoked_eq_true.mpr ⟨r, hr, hb, UInt64.lt_of_le_of_lt hle hlt⟩

/-! ## Copies -/

theorem lastCopy_concat (copies : List LoggedCopy) (t : LoggedCopy) (b : UInt64) :
    lastCopy (copies ++ [t]) b = if t.targetBlock = b then some t else lastCopy copies b := by
  unfold lastCopy
  rw [List.filter_append]
  split_ifs with hb
  · simp [hb]
  · simp [hb]

/-- A further copy of the block decides; a copy of another block changes nothing. -/
theorem replayedContent_concat (img : Image) (t : LoggedCopy) (b : UInt64) :
    replayedContent rd revokes (copies ++ [t]) img b =
      if t.targetBlock = b then
        if isRevoked revokes b t.sequence then img b else rd t.offset
      else replayedContent rd revokes copies img b := by
  unfold replayedContent
  rw [lastCopy_concat]
  split_ifs with hb hr
  · exact if_neg fun hnewest => not_isRevoked_iff.mpr hnewest hr
  · exact if_pos (not_isRevoked_iff.mp hr)
  · rfl

theorem installs_concat (rd : UInt64 → Block) (revokes : List RevokeEntry)
    (copies : List LoggedCopy) (t : LoggedCopy) :
    installs rd revokes (copies ++ [t]) = installs rd revokes copies ++
      if isRevoked revokes t.targetBlock t.sequence then [] else [(t.targetBlock, rd t.offset)] := by
  unfold installs
  rw [List.filter_append, List.map_append]
  split_ifs with hr
  · simp [hr]
  · simp [hr]

/-- Replay visits the copies in the order of their transactions. -/
theorem pairwise_loggedCopies {txns : List RecoveredTxn}
    (hsorted : txns.Pairwise fun t u => t.sequence < u.sequence) :
    (loggedCopies txns).Pairwise fun t u => t.sequence ≤ u.sequence := by
  unfold loggedCopies
  rw [List.pairwise_flatMap]
  refine ⟨fun t _ => ?_, hsorted.imp fun {t u} hlt => ?_⟩
  · rw [List.pairwise_map]
    exact List.pairwise_of_forall fun _ _ => UInt64.le_refl _
  · intro a ha b hb
    obtain ⟨x, -, rfl⟩ := List.mem_map.mp ha
    obtain ⟨y, -, rfl⟩ := List.mem_map.mp hb
    exact UInt64.le_of_lt hlt

/-- The installs leave what the last copy and the newest revoke say. -/
theorem applyWrites_installs (hsorted : copies.Pairwise fun t u => t.sequence ≤ u.sequence)
    (img : Image) (b : UInt64) :
    applyWrites img (installs rd revokes copies) b = replayedContent rd revokes copies img b := by
  induction copies using List.reverseRecOn with
  | nil => rfl
  | append_singleton copies t ih =>
      obtain ⟨hbefore, -, hlast⟩ := List.pairwise_append.mp hsorted
      specialize ih hbefore
      rw [installs_concat, applyWrites_append, replayedContent_concat]
      by_cases hb : t.targetBlock = b
      · subst hb
        rw [if_pos rfl]
        by_cases hr : isRevoked revokes t.targetBlock t.sequence = true
        · -- the earlier copies of the block are revoked too
          rw [if_pos hr, if_pos hr, applyWrites_nil]
          refine applyWrites_of_untouched (fun w hw he => ?_) img
          obtain ⟨u, hu, rfl⟩ := List.mem_map.mp hw
          obtain ⟨hmem, hlive⟩ := List.mem_filter.mp hu
          have hle := hlast u hmem t List.mem_cons_self
          have hrev := isRevoked_mono hle hr
          rw [← show u.targetBlock = t.targetBlock from he] at hrev
          simp [hrev] at hlive
        · rw [if_neg hr, if_neg hr]
          simp
      · rw [if_neg hb, ← ih]
        refine applyWrites_of_untouched (fun w hw => ?_) _
        split_ifs at hw with hr
        · cases hw
        · rw [List.mem_singleton.mp hw]
          exact hb

/-- Pass 2 over transactions of increasing sequence numbers returns 0, and its install calls,
applied in order, leave in each home block what its last copy and its newest revoke say. -/
theorem replay_content (hj : j.Placed) {txns : List RecoveredTxn}
    (hsorted : txns.Pairwise fun t u => t.sequence < u.sequence) (revokes : List RevokeEntry)
    (c : Disk) (img : Image) :
    ∃ calls, run recording (replay j revokes (loggedCopies txns)) (c, []) = (.ok (), (c, calls)) ∧
      ∀ b, applyWrites img calls b =
        replayedContent (logView j c.view) revokes (loggedCopies txns) img b := by
  refine ⟨_, run_replay_recording hj revokes (loggedCopies txns) c [], fun b => ?_⟩
  rw [List.nil_append, applyWrites_installs (pairwise_loggedCopies hsorted)]

/-- Two transactions that log block 20, the later of which also revokes it. -/
theorem replay_content_two :
    ([⟨4, [(20, 1)]⟩, ⟨5, [(20, 4)]⟩] : List RecoveredTxn).Pairwise
        (fun t u => t.sequence < u.sequence) ∧
      ∃ calls, run recording (replay ⟨⟨64⟩, 3, 8, 0, 0, 1⟩ [⟨20, 5⟩]
          (loggedCopies [⟨4, [(20, 1)]⟩, ⟨5, [(20, 4)]⟩])) (settled fun _ => zeroBlock, []) =
            (.ok (), (settled fun _ => zeroBlock, calls)) ∧
        ∀ b, applyWrites (fun _ => zeroBlock) calls b =
          replayedContent (logView ⟨⟨64⟩, 3, 8, 0, 0, 1⟩ fun _ => zeroBlock) [⟨20, 5⟩]
            (loggedCopies [⟨4, [(20, 1)]⟩, ⟨5, [(20, 4)]⟩]) (fun _ => zeroBlock) b := by
  have hsorted : ([⟨4, [(20, 1)]⟩, ⟨5, [(20, 4)]⟩] : List RecoveredTxn).Pairwise
      (fun t u => t.sequence < u.sequence) := by decide
  exact ⟨hsorted, replay_content ⟨by decide, by decide, by decide⟩ hsorted [⟨20, 5⟩]
    (settled fun _ => zeroBlock) fun _ => zeroBlock⟩

end Logfs
