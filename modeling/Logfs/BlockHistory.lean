import Logfs.TxnCalls
import Logfs.Lib.Outcomes

/-!
# The contents a block has had

The transaction manager as an environment that promises little: a call may fail at any time, and a
read may see any content the block has ever had, so also one that a failed commit has brought back,
or one the checkpoint has not written home yet. What holds in this environment holds in every data
mode, whatever the commit and writeback threads do in between.
-/
namespace Logfs
open Interaction ByteBuffer

/-- For each block, the contents it has had. -/
abbrev History := UInt64 → Set Block

def History.record (H : History) (b : UInt64) (data : Block) : History :=
  Function.update H b (insert data (H b))

/-- A data write counts as made even if it fails. -/
def historyTxn : Environment TxnRes History
  | .start, H, _, H' | .stop, H, _, H' | .dirtyMetadata _, H, _, H' => H' = H
  | .readBlock b, H, r, H' | .getWriteAccess b, H, r, H' => H' = H ∧ ∀ data, r = .ok data → data ∈ H b
  | .modify b data, H, _, H' => H' = H.record b data
  | .writeData b buf, H, _, H' => H' = H.record b buf

/-- The history of an image nothing has been written to yet. -/
def History.ofImage (v : Image) : History := fun b => {v b}

/-- The content of each block is one it has had. -/
def History.Has (H : History) (v : Image) : Prop := ∀ b, v b ∈ H b

theorem History.has_ofImage (v : Image) : (History.ofImage v).Has v := fun _ => rfl

theorem History.Has.record {H : History} {v : Image} (h : H.Has v) (b : UInt64) (data : Block) :
    (H.record b data).Has (Function.update v b data) := by
  intro c
  by_cases hc : c = b
  · subst hc
    rw [History.record, Function.update_self, Function.update_self]
    exact Set.mem_insert _ _
  · rw [History.record, Function.update_of_ne hc, Function.update_of_ne hc]
    exact h c

theorem History.Has.record_same {H : History} {v : Image} (h : H.Has v) (b : UInt64) (data : Block) :
    (H.record b data).Has v := by
  intro c
  by_cases hc : c = b
  · subst hc
    rw [History.record, Function.update_self]
    exact Set.mem_insert_of_mem _ (h c)
  · rw [History.record, Function.update_of_ne hc]
    exact h c

/-- The logical block view is one of the ways the manager may answer. -/
theorem historyTxn_allows_viewTxn (nblocks : UInt64) :
    Allows historyTxn (viewTxn nblocks latest) fun v H => H.Has v := by
  intro o v H hhas
  cases o with
  | start => exact ⟨H, rfl, hhas⟩
  | stop => exact ⟨H, rfl, hhas⟩
  | readBlock b =>
      refine ⟨H, ⟨rfl, fun data hdata => ?_⟩, hhas⟩
      simp only [viewTxn] at hdata
      split_ifs at hdata
      cases hdata
      exact hhas b
  | getWriteAccess b =>
      refine ⟨H, ⟨rfl, fun data hdata => ?_⟩, hhas⟩
      simp only [viewTxn] at hdata
      split_ifs at hdata
      cases hdata
      exact hhas b
  | modify b data => exact ⟨_, rfl, hhas.record b data⟩
  | dirtyMetadata b => exact ⟨H, rfl, hhas⟩
  | writeData b buf =>
      refine ⟨_, rfl, ?_⟩
      simp only [viewTxn]
      split_ifs
      · exact hhas.record b buf
      · exact hhas.record_same b buf

/-! ## Properties of every content -/

section Contents
variable {P : UInt64 → Block → Prop} {H : History} {α : Type} {Q : α → Prop} {p : TxnEM α} {b : UInt64} {data : Block}

/-- Every content a block has had has the property. -/
def History.All (P : UInt64 → Block → Prop) (H : History) : Prop := ∀ b, ∀ data ∈ H b, P b data

theorem History.All.record (h : H.All P) (hP : P b data) : (H.record b data).All P := by
  intro c old hold
  by_cases hc : c = b
  · subst hc
    rw [History.record, Function.update_self] at hold
    rcases Set.mem_insert_iff.mp hold with rfl | hold
    · exact hP
    · exact h c old hold
  · rw [History.record, Function.update_of_ne hc] at hold
    exact h c old hold

/-- Whatever the manager does, the program only leaves contents with the property. -/
abbrev Guards (P : UInt64 → Block → Prop) (p : TxnEM α) (Q : α → Prop) : Prop :=
  Upholds historyTxn (History.All P) p Q

theorem guards_readBlock (b : UInt64) : Guards P (TxnEM.readBlock b) (P b) := by
  apply Upholds.perform
  rintro H r _ h ⟨rfl, hseen⟩
  exact ⟨h, fun data hdata => h b data (hseen data hdata)⟩

theorem guards_getWriteAccess (b : UInt64) : Guards P (TxnEM.getWriteAccess b) (P b) := by
  apply Upholds.perform
  rintro H r _ h ⟨rfl, hseen⟩
  exact ⟨h, fun data hdata => h b data (hseen data hdata)⟩

theorem guards_modify (hP : P b data) : Guards P (TxnEM.modify b data) fun _ => True := by
  apply Upholds.perform
  rintro H r _ h rfl
  exact ⟨h.record hP, fun _ _ => trivial⟩

theorem guards_dirtyMetadata (b : UInt64) : Guards P (TxnEM.dirtyMetadata b) fun _ => True := by
  apply Upholds.perform
  rintro H r _ h rfl
  exact ⟨h, fun _ _ => trivial⟩

theorem guards_writeData (hP : P b data) : Guards P (TxnEM.writeData b data) fun _ => True := by
  apply Upholds.perform
  rintro H r _ h rfl
  exact ⟨h.record hP, fun _ _ => trivial⟩

/-- `modify` followed by `dirtyMetadata`. -/
theorem guards_stage (hP : P b data) :
    Guards P (do TxnEM.modify b data; TxnEM.dirtyMetadata b) fun _ => True :=
  (guards_modify hP).bind fun _ _ => guards_dirtyMetadata b

theorem Guards.withHandle (hp : Guards P p Q) : Guards P p.withHandle Q := by
  intro H r H' h hout
  obtain ⟨_, _, rfl, hrest⟩ := outcome_op.mp hout
  have hseq : Outcome historyTxn (p.run >>= fun r => .op .stop fun _ => .ret r) _ r H' := hrest
  obtain ⟨r', H₁, hbody, hstop⟩ := outcome_bind.mp hseq
  obtain ⟨_, _, rfl, hret⟩ := outcome_op.mp hstop
  obtain ⟨rfl, rfl⟩ := outcome_ret.mp hret
  exact hp _ _ _ h hbody

theorem Guards.result (hp : Guards P p Q) : Guards P p.result fun r => ∀ a, r = .ok a → Q a := by
  intro H r H' h hout
  obtain ⟨r', H₁, hbody, hret⟩ := outcome_bind.mp hout
  obtain ⟨rfl, rfl⟩ := outcome_ret.mp hret
  obtain ⟨hH, hQ⟩ := hp _ _ _ h hbody
  refine ⟨hH, ?_⟩
  rintro _ ⟨⟩
  exact hQ

end Contents
end Logfs
