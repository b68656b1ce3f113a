import Logfs.Confinement
import Logfs.ManagerHistory
import Logfs.OrderedFlush

/-!
# What a crash leaves, in any mode

Whatever the threads are doing when the system stops, and whichever unflushed writes survive, each home
block is left with a content it has had. The boot block and the superblock are as they were at the
mount, and each record of the inode table names data blocks only.
-/
namespace Logfs
open Interaction WriteCache

/-- Every image a crash may leave holds contents the blocks have had. -/
def History.Outlasts (H : History) (d : Disk) : Prop := ∀ i, Survives d i → H.Has i

section Device
variable {H : History} {d : Disk} {b : UInt64} {data : Block}

theorem History.Outlasts.write (h : H.Outlasts d) (hdata : data ∈ H b) : H.Outlasts (d.write b data) := by
  intro i hi
  rcases survives_write hi with hi | ⟨i₀, hi₀, rfl⟩
  · exact h i hi
  · intro c
    by_cases hc : c = b
    · subst hc
      rwa [Function.update_self]
    · rw [Function.update_of_ne hc]
      exact h i₀ hi₀ c

theorem History.Outlasts.flush (h : H.Outlasts d) : H.Outlasts d.flush := by
  intro i hi
  obtain rfl : i = d.view := survives_settled.mp hi
  exact h _ (survives_view d)

theorem History.Outlasts.record (h : H.Outlasts d) (b : UInt64) (data : Block) : (H.record b data).Outlasts d :=
  fun i hi => (h i hi).record_same b data

theorem History.Outlasts.bdevWrite (h : H.Outlasts d) (dev : BlockDev) (hdata : data ∈ H b) :
    H.Outlasts (run faultless (bdevWrite dev b data).run d).2 := by
  by_cases hlt : b < dev.nblocks
  · rw [run_bdevWrite d hlt]
    exact h.write hdata
  · rw [Logfs.bdevWrite, if_pos (by simpa using hlt)]
    exact h

end Device

/-! ## The other threads -/

section Threads
variable {j₀ : Journal} {s s' : Serving} {H : History}

/-- What the commit thread writes to a home block is in its hands, or is there already. -/
theorem Within.outlasts_threadStep {c c' : Core} {hand : Option DirtyBlock} (h : Within j₀ ⟨c, hand⟩ H)
    (hout : H.Outlasts c.disk) (hstep : ThreadStep c c') : H.Outlasts c'.disk := by
  rcases hstep.home_writes h.logging with hhome | ⟨n, hn, hdisk⟩
  · rcases hstep.disk with hsame | ⟨b, data, hwrite⟩ | hflush
    · rw [hsame]
      exact hout
    · rw [hwrite]
      refine hout.write ?_
      by_cases hb : Home j₀ b
      · have hview := hhome b hb
        rw [hwrite, view_write, Function.update_self] at hview
        rw [hview]
        exact h.disk b
      · rw [h.journal b hb]
        exact Set.mem_univ _
    · rw [hflush]
      exact hout.flush
  · rw [hdisk]
    exact hout.write (h.held n (List.mem_append_left _ (List.mem_append_left _ hn)))

theorem Within.outlasts_behind (h : Within j₀ s H) (hout : H.Outlasts s.disk) (hstep : Behind s s') :
    H.Outlasts s'.disk := by
  cases hstep with
  | commitThread now => exact h.outlasts_threadStep hout now
  | @writeEntry c w => exact hout.bdevWrite _ (h.held w (List.mem_append_right _ (by simp)))
  | takeEntry | commitSync => exact hout

theorem Within.outlasts_behind_all (h₀ : j₀.maxlen = 0 ∨ j₀.Placed) (h : Within j₀ s H) (hout : H.Outlasts s.disk)
    (hsteps : Relation.ReflTransGen Behind s s') : H.Outlasts s'.disk := by
  induction hsteps with
  | refl => exact hout
  | tail hbefore hstep ih => exact (h.behind_all h₀ hbefore).outlasts_behind ih hstep

/-! ## The calls -/

/-- Only data writes in ordered mode go to the device. -/
theorem Within.outlasts_txnWriteData (h : Within j₀ s H) (hout : H.Outlasts s.disk) (b : UInt64) (buf : Block) :
    (H.record b buf).Outlasts (run faultless (Logfs.txnWriteData s.mgr b buf) s.disk).2 := by
  have hlater := hout.record b buf
  unfold Logfs.txnWriteData
  cases s.mgr.mode with
  | journal =>
      obtain ⟨r, m, hrun, -, hm⟩ := h.getWriteAccess b
      rw [run_bind, hrun]
      cases r with
      | error e => exact hlater
      | ok data =>
          obtain ⟨r', m', hrun', -⟩ := (hm.writeBuffer b buf).dirtyMetadata b
          dsimp only at hrun' ⊢
          rw [hrun']
          exact hlater
  | ordered =>
      have hdisk := hlater.bdevWrite s.mgr.dev (H.record_self b buf)
      rw [run_bind]
      cases hrun : run faultless (bdevWrite s.mgr.dev b buf).run s.disk with
      | mk r disk =>
          rw [hrun] at hdisk
          cases r <;> exact hdisk
  | writeback => exact hlater

theorem managerTxn_outlasts (h₀ : j₀.maxlen = 0 ∨ j₀.Placed) :
    Refines managerTxn historyTxn fun s H => Within j₀ s H ∧ H.Outlasts s.disk := by
  rintro o s r s' H ⟨hs, hsout⟩ hnow
  obtain ⟨H', hhist, hwithin⟩ := managerTxn_refines h₀ o s r s' H hs hnow
  refine ⟨H', hhist, hwithin, ?_⟩
  obtain ⟨t, p, m, disk, hbehind, hcall, hrun, rfl⟩ := hnow
  have h := hs.behind_all h₀ hbehind
  have hout := hs.outlasts_behind_all h₀ hsout hbehind
  cases o with
  | start =>
      obtain ⟨started, -, rfl⟩ := Option.map_eq_some_iff.mp hcall
      cases hrun
      obtain rfl : H' = H := hhist
      exact hout
  | stop =>
      cases hcall
      cases hrun
      obtain rfl : H' = H := hhist
      exact hout
  | readBlock b =>
      obtain ⟨r', hread, -⟩ := h.txnReadBlock b
      cases hcall
      rw [run_bind, hread] at hrun
      cases hrun
      obtain ⟨rfl, -⟩ := hhist
      exact hout
  | getWriteAccess b =>
      obtain ⟨r', m', haccess, -, -⟩ := h.getWriteAccess b
      cases hcall
      rw [haccess] at hrun
      cases hrun
      obtain ⟨rfl, -⟩ := hhist
      exact hout
  | modify b data =>
      cases hcall
      cases hrun
      obtain rfl : H' = H.record b data := hhist
      exact hout.record b data
  | dirtyMetadata b =>
      obtain ⟨r', m', hdirty, -⟩ := h.dirtyMetadata b
      cases hcall
      rw [hdirty] at hrun
      cases hrun
      obtain rfl : H' = H := hhist
      exact hout
  | writeData b buf =>
      have hwrite := h.outlasts_txnWriteData hout b buf
      cases hcall
      rw [hrun] at hwrite
      obtain rfl : H' = H.record b buf := hhist
      exact hwrite

/-! ## Calls of the file system -/

/-- The contents the file system's calls may have given a block: none to a block outside of it, and
bounded records to the inode table. -/
structure Confines (sb : Super) (H₀ H : History) : Prop where
  bounded : H.All (BlockBounded sb)
  outside : ∀ b, ¬ IsFs sb b → H b = H₀ b

theorem Confines.record {sb : Super} {H₀ H : History} {b : UInt64} {data : Block} (h : Confines sb H₀ H)
    (hb : IsFs sb b) (hdata : BlockBounded sb b data) : Confines sb H₀ (H.record b data) := by
  refine ⟨h.bounded.record hdata, fun c hc => ?_⟩
  have hne : c ≠ b := by
    rintro rfl
    exact hc hb
  rw [History.record, Function.update_of_ne hne]
  exact h.outside c hc

theorem serves_history {sb : Super} {H₀ : History} (hs : LayoutSound sb) (h₀ : j₀.maxlen = 0 ∨ j₀.Placed) :
    Serves (fsContract sb True) managerTxn historyTxn
      fun _ s H => (Within j₀ s H ∧ H.Outlasts s.disk) ∧ Confines sb H₀ H := by
  rintro o g s r s' H hop ⟨hwithin, hconf⟩ hnow
  obtain ⟨H', hhist, hwithin'⟩ := managerTxn_outlasts h₀ o s r s' H hwithin hnow
  refine ⟨?_, H', hhist, hwithin', ?_⟩
  · cases o with
    | readBlock b | getWriteAccess b =>
        obtain ⟨rfl, hseen⟩ := hhist
        exact fun data hdata => hconf.bounded b data (hseen data hdata)
    | _ => trivial
  · cases o with
    | start | stop | dirtyMetadata b =>
        obtain rfl : H' = H := hhist
        exact hconf
    | readBlock b | getWriteAccess b =>
        obtain ⟨rfl, -⟩ := hhist
        exact hconf
    | modify b data =>
        obtain rfl : H' = H.record b data := hhist
        cases g with
        | inside held => exact hconf.record hop.2.1 hop.2.2
        | before | ended => exact hop.elim
    | writeData b buf =>
        obtain rfl : H' = H.record b buf := hhist
        cases g with
        | inside held => exact hconf.record (hop.2.isFs hs) (blockBounded_data hs hop.2 buf)
        | before | ended => exact hop.elim

/-- After any calls, in the middle of another, the threads having gone on from there. -/
def ServedState (sb : Super) (s₀ s : Serving) : Prop :=
  ∃ s₁ s₂ c now, Relation.ReflTransGen (ServedStep sb) s₀ s₁ ∧
    Passes managerTxn (UserCall.program sb now c).run s₁ s₂ ∧ Relation.ReflTransGen Behind s₂ s

section Calls
variable {sb : Super} {H₀ : History} (hs : LayoutSound sb) (h₀ : j₀.maxlen = 0 ∨ j₀.Placed) {s₀ : Serving}
  (hboot : (Within j₀ s₀ H₀ ∧ H₀.Outlasts s₀.disk) ∧ Confines sb H₀ H₀)
include hs h₀ hboot

theorem confines_of_calls (hcalls : Relation.ReflTransGen (ServedStep sb) s₀ s) :
    ∃ H, (Within j₀ s H ∧ H.Outlasts s.disk) ∧ Confines sb H₀ H := by
  induction hcalls with
  | refl => exact ⟨H₀, hboot⟩
  | tail _ hstep ih =>
      obtain ⟨H, hH⟩ := ih
      obtain ⟨c, now, r, hout⟩ := hstep
      obtain ⟨-, hnext⟩ := (serves_history hs h₀).passes (stays_program hs c (fun _ => trivial) now) hH hout.passes
      exact hnext

theorem confines_of_served (hserved : ServedState sb s₀ s) : ∃ H, H.Outlasts s.disk ∧ Confines sb H₀ H := by
  obtain ⟨s₁, s₂, c, now, hcalls, hpass, hbehind⟩ := hserved
  obtain ⟨H, hH⟩ := confines_of_calls hs h₀ hboot hcalls
  obtain ⟨-, H', ⟨hwithin, hout⟩, hconf⟩ :=
    (serves_history hs h₀).passes (stays_program hs c (fun _ => trivial) now) hH hpass
  exact ⟨H', hwithin.outlasts_behind_all h₀ hout hbehind, hconf⟩

end Calls
end Threads

/-! ## After a format and a mount -/

section Mounted
variable {host : Except Errno Unit} {totalBlocks journalLen now : UInt64} {mode : DataMode} {d d₁ d₂ : Disk}
  {sb : Super} {j : Journal}
  (hformat : run faultless (fsFormat host totalBlocks journalLen mode now).run d = (.ok (), d₁))
  (hmount : run faultless (fsMount ⟨totalBlocks⟩).run d₁ = (.ok (sb, j), d₂))
include hformat hmount

/-- The mount of a formatted image ends with a flush. -/
theorem settled_mounted (hs : LayoutSound sb) : d₂ = settled d₂.view := by
  obtain ⟨hsb, -, -, hview, -, hfresh⟩ := laidOut_mounted hformat hmount
  have hview₁ := writes_fsFormat d _ d₁ hformat
  rw [← hsb] at hview₁
  have hrun := run_fsMount_formatted (c := d₁) hsb hs (by rw [hview₁, ← hview]; exact hfresh)
  rw [hmount] at hrun
  obtain ⟨-, rfl⟩ := Prod.mk.inj hrun
  rfl

end Mounted

/-! ## A run -/

/-- The program while the other threads stand still. -/
def alone {α : Type} : TxnM α → Serving → Option (α × Serving)
  | .ret a, s => some (a, s)
  | .op o k, s => (managerCall o s.mgr).bind fun p =>
      alone (k (run faultless p s.disk).1.1)
        { s with mgr := (run faultless p s.disk).1.2, disk := (run faultless p s.disk).2 }

theorem outcome_of_alone {α : Type} {p : TxnM α} {s s' : Serving} {a : α} (h : alone p s = some (a, s')) :
    Outcome managerTxn p s a s' := by
  induction p generalizing s with
  | ret b =>
      cases h
      exact .ret _ _
  | op o k ih =>
      obtain ⟨q, hq, hrest⟩ := Option.bind_eq_some_iff.mp h
      exact .op ⟨s, q, _, _, .refl, hq, rfl, rfl⟩ (ih _ hrest)

/-- A sync is asked for, then the commit thread takes `n` steps. -/
def syncThen (n : ℕ) (s : Serving) : Option Serving :=
  (Transition.exec (fun c (_ : Unit) => threadStep c) (List.replicate n ())
    { s.toCore with mgr := (commitSyncRequest s.mgr).2 }).map fun c => ⟨c, s.hand⟩

theorem behind_of_exec {hand : Option DirtyBlock} {c c' : Core} {as : List Unit}
    (h : Transition.exec (fun c (_ : Unit) => threadStep c) as c = some c') :
    Relation.ReflTransGen Behind ⟨c, hand⟩ ⟨c', hand⟩ := by
  induction as generalizing c with
  | nil =>
      cases h
      exact .refl
  | cons a as ih =>
      obtain ⟨e, hnow, hrest⟩ := Option.bind_eq_some_iff.mp h
      exact .head (.commitThread (threadStep_sound hnow)) (ih hrest)

theorem behind_of_syncThen {n : ℕ} {s s' : Serving} (h : syncThen n s = some s') :
    Relation.ReflTransGen Behind s s' := by
  obtain ⟨c, hexec, rfl⟩ := Option.map_eq_some_iff.mp h
  exact .head .commitSync (behind_of_exec hexec)

end Logfs
