import Logfs.ManagerHistory
import Logfs.Unmount

/-!
# The mark of the journal

Whatever commits, checkpoints and tail advances are under way, and whatever the log holds, the journal's
superblock has its magic number, so that `logfs_journal_open` accepts it.
-/
namespace Logfs
open Interaction WriteCache

/-- The journal's superblock has its magic number. -/
def Marked (d : Disk) : Prop := (jsuperOf d.view).magic = journalMagic

/-- A write to it leaves the number there. -/
def MarksLog : DevOp UInt64 Block → Prop
  | .write b data => b = jsuperBlockno → (JournalSuper.decode data).magic = journalMagic
  | _ => True

theorem Marked.write {d : Disk} {b : UInt64} {data : Block} (h : Marked d) (hw : MarksLog (.write b data)) :
    Marked (d.write b data) := by
  unfold Marked jsuperOf
  rw [view_write]
  by_cases hb : jsuperBlockno = b
  · rw [← hb, Function.update_self]
    exact hw hb.symm
  · rw [Function.update_of_ne hb]
    exact h

theorem Marked.answer {d : Disk} (h : Marked d) {o : DevOp UInt64 Block} (ho : MarksLog o) :
    Marked (faultless (E := Errno) o d).2 := by
  cases o with
  | read a => exact h
  | write b data => exact h.write ho
  | flush => exact h

/-! ## Programs of the journal -/

section Journal
variable {j : Journal}

theorem marks_bdevWrite {b : UInt64} {buf : Block} (h : MarksLog (.write b buf)) (dev : BlockDev) :
    Confined MarksLog (fun _ => True) (bdevWrite dev b buf).run := by
  unfold bdevWrite
  split
  · exact trivial
  · exact ⟨h, fun _ => trivial⟩

theorem marks_bdevFlush (dev : BlockDev) : Confined MarksLog (fun _ => True) (bdevFlush dev).run :=
  ⟨trivial, fun _ => trivial⟩

theorem marks_jsuperWrite (off seq : UInt64) : Confined MarksLog (fun _ => True) (jsuperWrite j off seq).run := by
  apply Confined.exceptT_bind
  · apply marks_bdevWrite
    intro _
    rw [decode_jsuperEncode]
  · exact fun _ => marks_bdevFlush _

/-- The region begins behind the superblock. -/
theorem marks_writeLogical (hj : j.Placed) (off : UInt64) (buf : Block) :
    Confined MarksLog (fun _ => True) (writeLogical j off buf).run := by
  apply marks_bdevWrite
  intro hb
  have hlow := (inRegion_physOf hj off).1
  have hafter := hj.after_jsuper
  have htwo : jsuperBlockno.toNat = 2 := rfl
  rw [hb] at hlow
  omega

theorem marks_writeBlocks (hj : j.Placed) (cursor : UInt64) (bs : List Block) :
    Confined MarksLog (fun _ => True) (writeBlocks j cursor bs).run := by
  induction bs generalizing cursor with
  | nil => exact trivial
  | cons b bs ih => exact (marks_writeLogical hj cursor b).exceptT_bind fun _ => ih _

theorem marks_writeTransaction (hj : j.Placed) (data : List PendingBlock) (revoke : List UInt64) :
    Confined MarksLog (fun _ => True) (writeTransaction j data revoke).run := by
  apply (marks_writeBlocks hj _ _).exceptT_bind
  intro cursor
  apply (marks_bdevFlush _).exceptT_bind
  intro _
  apply (marks_writeLogical hj cursor _).exceptT_bind
  intro _
  exact (marks_bdevFlush _).exceptT_bind fun _ => trivial

theorem marks_journalCommit (hj : j.Placed) (data : List PendingBlock) (revoke : List UInt64) :
    Confined MarksLog (fun _ => True) (journalCommit j data revoke) := by
  unfold journalCommit
  dsimp only
  split
  · exact trivial
  split
  · exact trivial
  apply (marks_writeTransaction hj data revoke).seq
  intro r _
  cases r with
  | error e => exact trivial
  | ok cursor =>
      dsimp only
      split
      · apply (marks_jsuperWrite _ _).seq
        intro r _
        cases r <;> exact trivial
      · exact trivial

theorem marks_journalAdvanceTail (off seq : UInt64) :
    Confined MarksLog (fun _ => True) (journalAdvanceTail j off seq) := by
  apply (marks_jsuperWrite _ _).seq
  intro r _
  cases r <;> exact trivial

end Journal

/-! ## The commit thread -/

/-- What the thread is doing with its journal leaves the mark. -/
def Pc.Marking : Pc → Prop
  | .advance p _ _ => Confined MarksLog (fun _ => True) p
  | .commit p _ => Confined MarksLog (fun _ => True) p
  | _ => True

section Thread
variable {j₀ j : Journal} {c c' : Core}

theorem marking_afterFreeze (j : Journal) (nodes : List DirtyBlock) : (afterFreeze j nodes).Marking := by
  unfold afterFreeze
  split <;> exact trivial

theorem marking_resume (hj : j.Placed) (done : Bool) (caller : Caller) : (resume j done caller).Marking := by
  cases caller with
  | reclaim nodes =>
      cases done with
      | true => exact trivial
      | false => exact marks_journalCommit hj _ _
  | lag => cases done <;> exact trivial
  | drain => cases done <;> exact trivial

theorem ThreadStep.marking (hstep : ThreadStep c c') (h₀ : j₀.Placed) (hcore : CoreOk j₀ c) (h : c.pc.Marking) :
    c'.pc.Marking := by
  cases hstep with
  | take =>
      unfold endFreeze
      dsimp only
      split
      · exact trivial
      · exact marking_afterFreeze _ _
  | orderedFlush => exact marking_afterFreeze _ _
  | space => exact marks_journalCommit (hcore.pc.1.placed h₀) _ _
  | unlinkNone => exact marking_resume (hcore.pc.1.placed h₀) _ _
  | writeHomeError => exact marking_resume (hcore.pc.1.placed h₀) _ _
  | nextTail => exact marks_journalAdvanceTail _ _
  | advance op => exact (Confined.step op h).1
  | advanced =>
      obtain ⟨j, hlog, -, hadv⟩ := hcore.pc
      obtain ⟨hret, -, -⟩ := Interaction.Meets.run hadv
      simp only [run_ret, Prod.mk.injEq] at hret
      obtain ⟨-, rfl⟩ := hret
      have hj := hlog.placed h₀
      apply marking_resume
      exact ⟨hj.maxlen_pos, hj.fits, hj.after_jsuper⟩
  | commit op => exact (Confined.step op h).1
  | _ => exact trivial

/-- Home blocks are written home, the rest is the journal's own doing. -/
theorem ThreadStep.marked (hstep : ThreadStep c c') (h : c.pc.Marking)
    (hnodes : ∀ n ∈ c.nodes, n.blockno ≠ jsuperBlockno) (hmark : Marked c.disk) : Marked c'.disk := by
  cases hstep with
  | @writeHome m d j t n rest caller =>
      apply hmark.write
      intro hb
      have hin : n ∈ (Core.mk m d (.writeHome j t (n :: rest) caller)).nodes := by simp [Core.nodes, Pc.unhomed]
      exact absurd hb (hnodes n hin)
  | advance op | commit op =>
      obtain ⟨o, ho, hdisk⟩ := (Confined.step op h).2
      dsimp only at hdisk
      exact hdisk ▸ hmark.answer ho
  | _ => exact hmark

end Thread
end Logfs
