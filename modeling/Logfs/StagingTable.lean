import Logfs.Staging
import Logfs.Lib.Transition

/-!
# The staging table over its whole life

Chains and counter are changed in different places. `flatten_and_clear` takes the size of its
array from the counter and what it puts there from the chains.
-/
namespace Logfs
open Interaction WriteCache Transition

/-! ## The array of `flatten_and_clear` -/

/-- The stores of one chain's nodes from index `idx` on; `none` when one is past the array's end. -/
def storeNodes : List DirtyBlock → List (Option DirtyBlock) → ℕ → Option (List (Option DirtyBlock) × ℕ)
  | [], arr, idx => some (arr, idx)
  | d :: ds, arr, idx => if idx < arr.length then storeNodes ds (arr.set idx (some d)) (idx + 1) else none

def storeChains (mgr : TxnMgr) :
    List (Fin txnHashBuckets) → List (Option DirtyBlock) → ℕ → Option (List (Option DirtyBlock))
  | [], arr, _ => some arr
  | b :: bs, arr, idx => (storeNodes (mgr.buckets b) arr idx).bind fun r => storeChains mgr bs r.1 r.2

/-- The array `flatten_and_clear` returns: `count` slots, which `malloc` does not initialise. -/
def flattenArray (mgr : TxnMgr) (count : ℕ) : Option (List (Option DirtyBlock)) :=
  if count = 0 then some []
  else storeChains mgr (List.finRange txnHashBuckets) (List.replicate count none) 0

/-- The array after the nodes of `us`, with `k` slots left. -/
def filledBy (us : List DirtyBlock) (k : ℕ) : List (Option DirtyBlock) :=
  us.map some ++ List.replicate k none

theorem filledBy_set (us : List DirtyBlock) (d : DirtyBlock) (k : ℕ) :
    (filledBy us (k + 1)).set us.length (some d) = filledBy (us ++ [d]) k := by
  simp [filledBy, List.replicate_succ]

theorem storeNodes_filledBy {ds us : List DirtyBlock} {k : ℕ} (hroom : ds.length ≤ k) :
    storeNodes ds (filledBy us k) us.length = some (filledBy (us ++ ds) (k - ds.length), (us ++ ds).length) := by
  induction ds generalizing us k with
  | nil => simp [storeNodes]
  | cons d ds ih =>
      obtain ⟨k, rfl⟩ : ∃ n, k = n + 1 := ⟨k - 1, by simp at hroom; omega⟩
      have hlt : us.length < (filledBy us (k + 1)).length := by simp [filledBy]
      rw [storeNodes, if_pos hlt, filledBy_set, show us.length + 1 = (us ++ [d]).length by simp,
        ih (by simpa using hroom)]
      simp

theorem storeChains_filledBy {mgr : TxnMgr} {bs : List (Fin txnHashBuckets)} {us : List DirtyBlock} {k : ℕ}
    (hroom : (bs.flatMap mgr.buckets).length ≤ k) :
    storeChains mgr bs (filledBy us k) us.length =
      some (filledBy (us ++ bs.flatMap mgr.buckets) (k - (bs.flatMap mgr.buckets).length)) := by
  induction bs generalizing us k with
  | nil => simp [storeChains]
  | cons b bs ih =>
      rw [List.flatMap_cons, List.length_append] at hroom
      rw [storeChains, storeNodes_filledBy (by omega), Option.bind_some, ih (by omega)]
      simp [Nat.sub_sub]

/-- With the chains' nodes as its count it fills the array and stays in it. -/
theorem flattenArray_length (mgr : TxnMgr) :
    flattenArray mgr (stagedNodes mgr).length = some ((stagedNodes mgr).map some) := by
  unfold flattenArray
  split
  · next hzero => rw [List.length_eq_zero_iff.mp hzero]; rfl
  · have hfill : storeChains mgr _ (filledBy [] (stagedNodes mgr).length) ([] : List DirtyBlock).length = _ :=
      storeChains_filledBy (le_refl (stagedNodes mgr).length)
    simpa [filledBy, stagedNodes] using hfill

/-! ## Runs -/

/-- A device that answers every read with `r`. -/
def answering (r : Except Errno Block) : Handler (DevRes (A := UInt64) (B := Block) Errno) Unit
  | .read _, u => (r, u)
  | .write _ _, u => (.ok (), u)
  | .flush, u => (.ok (), u)

/-- What is done to the table, and to the list of committed transactions it feeds. -/
inductive StagingCall
  /-- `read` is what the device answers, if it is asked. -/
  | findOrCreateDirty (blockno : UInt64) (read : Except Errno Block)
  | writeBuffer (blockno : UInt64) (data : Block)
  /-- A cycle of the commit thread, with what `logfs_journal_commit` returns if it is called. -/
  | commitCycle (j : Journal) (rc : Except Errno (UInt64 × UInt64))
  | checkpoint

/-- The cycle's sections, from the freeze to the last. -/
def commitCycle (mgr : TxnMgr) (j : Journal) (rc : Except Errno (UInt64 × UInt64)) : TxnMgr :=
  let ((nodes, _), mgr) := takeGeneration mgr
  if 0 < nodes.length then finishCommit mgr j nodes rc else finishEmptyCycle mgr

def stagingStep (mgr : TxnMgr) : StagingCall → Option TxnMgr
  | .findOrCreateDirty blockno read => some (run (answering read) (findOrCreateDirty mgr blockno) ()).1.2
  | .writeBuffer blockno data => some (writeBuffer mgr blockno data)
  | .commitCycle j rc => some (commitCycle mgr j rc)
  | .checkpoint => (unlinkOldest mgr).map (·.2)

/-- The table is well formed and counted, and so was it for every committed transaction. -/
structure CkptStaged (mgr : TxnMgr) : Prop where
  staged : Staged mgr
  ckpt : ∀ t ∈ mgr.ckpt, (t.nodes.map (·.blockno)).Nodup

variable {mgr : TxnMgr}

/-- It finds the node, makes one that was not there, or changes nothing. -/
theorem answers_findOrCreateDirty (mgr : TxnMgr) (b : UInt64) :
    (findOrCreateDirty mgr b).Answers fun r => r.2 = mgr ∨
      ∃ d, d.blockno = b ∧ findDirty mgr b = none ∧ r.2 = insertDirty mgr d := by
  unfold findOrCreateDirty
  cases hfind : findDirty mgr b with
  | some d => exact .inl rfl
  | none =>
      cases findCheckpointed mgr b with
      | some c => exact .inr ⟨⟨b, c.data⟩, rfl, rfl, rfl⟩
      | none =>
          refine .bind _ fun read => ?_
          cases read with
          | error e => exact .inl rfl
          | ok data => exact .inr ⟨⟨b, data⟩, rfl, rfl, rfl⟩

theorem CkptStaged.commitCycle (h : CkptStaged mgr) (j : Journal) (rc : Except Errno (UInt64 × UInt64)) :
    CkptStaged (commitCycle mgr j rc) := by
  have hnodup : ((stagedNodes mgr).map (·.blockno)).Nodup := h.staged.table.nodup_entries
  unfold Logfs.commitCycle
  rw [h.staged.takeGeneration_eq]
  simp only
  split
  · refine ⟨staged_of_empty rfl rfl, fun t ht => ?_⟩
    cases rc with
    | error e => exact h.ckpt t ht
    | ok r =>
        rcases List.mem_append.mp ht with ht | ht
        · exact h.ckpt t ht
        · rw [List.mem_singleton.mp ht]
          exact hnodup
  · exact ⟨staged_of_empty rfl rfl, h.ckpt⟩

theorem ckptStaged_preserved : Preserves stagingStep (fun _ _ => True) CkptStaged := by
  rintro mgr mgr' call - hstep h
  cases call with
  | findOrCreateDirty b read =>
      cases hstep
      rcases (answers_findOrCreateDirty mgr b).run (h := answering read) () with heq | ⟨d, rfl, hfresh, heq⟩
      · rw [heq]
        exact h
      · rw [heq]
        exact ⟨staged_insertDirty h.staged hfresh, h.ckpt⟩
  | writeBuffer b data =>
      cases hstep
      exact ⟨staged_writeBuffer h.staged b data, h.ckpt⟩
  | commitCycle j rc =>
      cases hstep
      exact h.commitCycle j rc
  | checkpoint =>
      obtain ⟨⟨t, m⟩, hunlink, rfl⟩ := Option.map_eq_some_iff.mp hstep
      unfold unlinkOldest at hunlink
      cases hckpt : mgr.ckpt with
      | nil =>
          rw [hckpt] at hunlink
          cases hunlink
      | cons u us =>
          rw [hckpt] at hunlink
          cases hunlink
          exact ⟨h.staged.of_table rfl rfl, fun u hu => h.ckpt u (hckpt ▸ List.mem_cons_of_mem _ hu)⟩

/-- After any calls, however the reads go: each node is in the chain of its block, no block has
two, the counter counts them, the array of the next freeze is filled exactly with the staged
blocks, each of them once, and no transaction committed so far has two copies of a block. -/
theorem staging_exact (j : Journal) (dev : BlockDev) (mode : DataMode)
    (hrun : Run stagingStep (fun _ _ => True) (txnMgrCreate j dev mode) mgr) :
    (∀ i, ∀ d ∈ mgr.buckets i, hashBlock d.blockno = i) ∧
      ((stagedNodes mgr).map (·.blockno)).Nodup ∧
      mgr.ndirty = (stagedNodes mgr).length ∧
      flattenArray mgr mgr.ndirty = some ((takeGeneration mgr).1.1.map some) ∧
      (∀ b d, findDirty mgr b = some d → d ∈ (takeGeneration mgr).1.1) ∧
      ((pendingBlocks (takeGeneration mgr).1.1).map (·.targetBlock)).Nodup ∧
      ∀ t ∈ mgr.ckpt, (t.nodes.map (·.blockno)).Nodup := by
  have h : CkptStaged mgr := hrun.invariant ⟨staged_txnMgrCreate j dev mode, by simp [txnMgrCreate]⟩
    ckptStaged_preserved
  have hnodup : ((stagedNodes mgr).map (·.blockno)).Nodup := h.staged.table.nodup_entries
  have htaken : (takeGeneration mgr).1.1 = stagedNodes mgr := by rw [h.staged.takeGeneration_eq]
  refine ⟨h.staged.table.placed, hnodup, h.staged.count, ?_, ?_, ?_, h.ckpt⟩
  · rw [h.staged.count, flattenArray_length, htaken]
  · intro b d hfind
    rw [htaken]
    exact mem_stagedNodes_of_findDirty hfind
  · rw [htaken, pendingBlocks, List.map_map]
    exact hnodup

/-- Two blocks of one chain, the second of which is only staged at the second attempt. -/
theorem staging_exact_collision : hashBlock 20 = hashBlock 81 ∧ ∃ mgr : TxnMgr, mgr.ndirty = 2 ∧
    flattenArray mgr mgr.ndirty = some ((takeGeneration mgr).1.1.map some) := by
  refine ⟨by decide, ?_⟩
  have hrun : Run stagingStep (fun _ _ => True) (txnMgrCreate ⟨⟨128⟩, 3, 8, 0, 0, 1⟩ ⟨128⟩ .journal) _ :=
    .next (a := .findOrCreateDirty 81 (.ok zeroBlock))
      (.next (a := .findOrCreateDirty 81 (.error .eio))
        (.next (a := .findOrCreateDirty 20 (.ok zeroBlock)) .init trivial rfl) trivial rfl) trivial rfl
  obtain ⟨-, -, -, hfilled, -⟩ := staging_exact _ _ _ hrun
  exact ⟨_, rfl, hfilled⟩

end Logfs
