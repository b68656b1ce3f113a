import Logfs.PipelineRuns
import Mathlib.Computability.StateTransition

/-!
# The commit thread left alone

While no other thread takes a step the commit thread's next state is fixed. A checkpoint that
`checkpoint_oldest` begins comes back to its caller, and each one that returns 1 makes the list shorter.
-/
namespace Logfs
open Interaction WriteCache Transition

/-- Left alone, the thread comes to a state of which `Q` holds. -/
def Comes (Q : Core → Prop) (c : Core) : Prop := ∃ c', StateTransition.Reaches threadStep c c' ∧ Q c'

section Alone
variable {Q : Core → Prop} {m : TxnMgr} {j : Journal} {d : Disk} {t : CommittedTxn} {caller : Caller} {c c' : Core}

theorem Comes.here (h : Q c) : Comes Q c := ⟨c, .refl, h⟩

theorem Comes.head (hstep : threadStep c = some c') (h : Comes Q c') : Comes Q c := by
  obtain ⟨e, hreach, he⟩ := h
  exact ⟨e, .head hstep hreach, he⟩

theorem comes_advance (h : ∀ j d done, Comes Q ⟨m, d, resume j done caller⟩)
    (p : DevM (Except Errno Unit × Journal)) (d : Disk) : Comes Q ⟨m, d, .advance p t caller⟩ := by
  induction p generalizing d with
  | ret r => exact .head rfl (h r.2 d r.1.isOk)
  | op o k ih => exact .head rfl (ih _ _)

theorem comes_nextTail (h : ∀ j d done, Comes Q ⟨m, d, resume j done caller⟩) : Comes Q ⟨m, d, .nextTail j t caller⟩ :=
  .head rfl (comes_advance h _ _)

theorem comes_writeHome (h : ∀ j d done, Comes Q ⟨m, d, resume j done caller⟩) (rest : List DirtyBlock) (d : Disk) :
    Comes Q ⟨m, d, .writeHome j t rest caller⟩ := by
  induction rest generalizing d with
  | nil => exact .head rfl (comes_nextTail h)
  | cons n rest ih =>
      rcases hwrite : run faultless (bdevWrite m.dev n.blockno n.data).run d with ⟨rc, d'⟩
      cases rc with
      | ok _ => exact .head (by simp only [threadStep, hwrite]) (ih d')
      | error _ => exact .head (by simp only [threadStep, hwrite]) (h j d' false)

/-- Each time `checkpoint_oldest` returns 1 the list is shorter. -/
theorem comes_unlink (h : ∀ ts j d done, (done = true → ts.length < m.ckpt.length) →
    Comes Q ⟨{ m with ckpt := ts }, d, resume j done caller⟩) : Comes Q ⟨m, d, .unlink j caller⟩ := by
  cases hckpt : m.ckpt with
  | nil =>
      have hnone : unlinkOldest m = none := by simp [unlinkOldest, hckpt]
      have hstop := h [] j d false (by simp)
      rw [← hckpt] at hstop
      exact .head (by simp only [threadStep, hnone]) hstop
  | cons t ts =>
      refine .head (Pipe.threadStep_unlink hckpt) (comes_writeHome (fun j d done => h ts j d done ?_) _ _)
      simp [hckpt]

/-- The commit comes to its last section. -/
theorem comes_commit {nodes : List DirtyBlock} (h : ∀ j d rc, Comes Q ⟨m, d, .link j nodes rc⟩)
    (p : DevM (Except Errno (UInt64 × UInt64) × Journal)) (d : Disk) : Comes Q ⟨m, d, .commit p nodes⟩ := by
  induction p generalizing d with
  | ret r => exact .head rfl (h _ _ _)
  | op o k ih => exact .head rfl (ih _ _)

end Alone
end Logfs
