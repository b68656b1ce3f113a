import Logfs.LogMark
import Logfs.MountedCrash
import Logfs.ThreadAlone

/-!
# Unmounting

`logfs_fs_unmount` runs after the last call has returned. Whatever the commit thread is doing then, it
comes to its exit, and leaves an image whose log is empty, with the blocks of the file system as the
calls up to the last freeze have left them. What has been staged since is lost. Nothing is asked of what
the log held before, or of what the generations contain.
-/
namespace Logfs
open Interaction WriteCache Transition

/-! ## The thread comes to its exit -/

/-- Left alone, the commit thread returns. -/
def Exits : Core → Prop := Comes fun c => ∃ j, c.pc = .exited j

section Exit
variable {m : TxnMgr} {j : Journal} {d : Disk} {t : CommittedTxn} {nodes : List DirtyBlock} {caller : Caller} {c c' : Core}

theorem exits_drain (m : TxnMgr) (j : Journal) (d : Disk) : Exits ⟨m, d, .unlink j .drain⟩ := by
  apply comes_unlink
  intro ts j d done hshorter
  cases done with
  | false => exact .here ⟨j, rfl⟩
  | true => exact exits_drain { m with ckpt := ts } j d
termination_by m.ckpt.length
decreasing_by exact hshorter rfl

theorem exits_top (hdown : m.shutdown = true) : Exits ⟨m, d, .top j⟩ := by
  have hstep : threadStep ⟨m, d, .top j⟩ = some ⟨m, d, .unlink j .drain⟩ := if_pos hdown
  exact .head hstep (exits_drain m j d)

theorem exits_lag {m : TxnMgr} {j : Journal} {d : Disk} (hdown : m.shutdown = true) : Exits ⟨m, d, .lag j⟩ := by
  by_cases hmore : ckptLag < m.ckpt.length
  · have hstep : threadStep ⟨m, d, .lag j⟩ = some ⟨m, d, .unlink j .lag⟩ := if_pos hmore
    apply Comes.head hstep
    apply comes_unlink
    intro ts j d done hshorter
    cases done with
    | false => exact exits_top hdown
    | true => exact exits_lag hdown
  · have hstep : threadStep ⟨m, d, .lag j⟩ = some ⟨m, d, .top j⟩ := if_neg hmore
    exact .head hstep (exits_top hdown)
termination_by m.ckpt.length
decreasing_by exact hshorter rfl

theorem exits_commit (hdown : m.shutdown = true) (p : DevM (Except Errno (UInt64 × UInt64) × Journal))
    (d : Disk) : Exits ⟨m, d, .commit p nodes⟩ := by
  refine comes_commit (fun j d rc => ?_) p d
  have hlater : (finishCommit m j nodes rc).shutdown = true := by cases rc <;> exact hdown
  exact .head rfl (exits_lag hlater)

theorem exits_reclaim {m : TxnMgr} {j : Journal} {d : Disk} (hdown : m.shutdown = true) :
    Exits ⟨m, d, .reclaim j nodes⟩ := by
  by_cases hfull : journalFreeSpace j < journalSpaceNeeded nodes.length 0
  · apply Comes.head (Pipe.threadStep_noSpace hfull)
    apply comes_unlink
    intro ts j d done hshorter
    cases done with
    | false => exact exits_commit (m := { m with ckpt := ts }) hdown _ _
    | true => exact exits_reclaim hdown
  · exact .head (Pipe.threadStep_space hfull) (exits_commit hdown _ _)
termination_by m.ckpt.length
decreasing_by exact hshorter rfl

theorem exits_resume (hdown : m.shutdown = true) (caller : Caller) (j : Journal) (d : Disk) (done : Bool) :
    Exits ⟨m, d, resume j done caller⟩ := by
  cases caller with
  | reclaim nodes =>
      cases done with
      | false => exact exits_commit hdown _ _
      | true => exact exits_reclaim hdown
  | lag =>
      cases done with
      | false => exact exits_top hdown
      | true => exact exits_lag hdown
  | drain =>
      cases done with
      | false => exact .here ⟨j, rfl⟩
      | true => exact exits_drain m j d

theorem exits_afterFreeze (hdown : m.shutdown = true) : Exits ⟨m, d, afterFreeze j nodes⟩ := by
  unfold afterFreeze
  split
  · exact exits_reclaim hdown
  · exact .head rfl (exits_lag hdown)

/-- With no handle to wait for the thread always comes to its exit once the flag is set. -/
theorem exits_of_down (hdown : m.shutdown = true) (hquiet : m.runningHandles = 0) (pc : Pc) : Exits ⟨m, d, pc⟩ := by
  cases pc with
  | top j => exact exits_top hdown
  | frozen j =>
      have hstep : threadStep ⟨m, d, .frozen j⟩ = some (endFreeze ⟨m, d, .frozen j⟩ j) := by
        simp only [threadStep, hquiet, Nat.lt_irrefl, if_false]
      have hlater := (threadStep_sound hstep).shutdown.trans hdown
      refine .head hstep ?_
      simp only [endFreeze] at hlater ⊢
      split
      · exact .head rfl (exits_afterFreeze hlater)
      · exact exits_afterFreeze hlater
  | orderedFlush j nodes => exact .head rfl (exits_afterFreeze hdown)
  | emptyCycle j => exact .head rfl (exits_lag hdown)
  | reclaim j nodes => exact exits_reclaim hdown
  | unlink j caller =>
      apply comes_unlink
      intro ts j d done _
      exact exits_resume (m := { m with ckpt := ts }) hdown caller j d done
  | writeHome j t rest caller => exact comes_writeHome (exits_resume hdown caller) rest d
  | nextTail j t caller => exact comes_nextTail (exits_resume hdown caller)
  | advance p t caller => exact comes_advance (exits_resume hdown caller) p d
  | commit p nodes => exact exits_commit hdown p d
  | link j nodes rc =>
      have hlater : (finishCommit m j nodes rc).shutdown = true := by cases rc <;> exact hdown
      exact .head rfl (exits_lag hlater)
  | lag j => exact exits_lag hdown
  | exited j => exact .here ⟨j, rfl⟩

end Exit

/-! ## Outside the file system -/

/-- The inode records are bounded, and the blocks outside the file system are as in `v₀`. -/
structure Untouched (sb : Super) (v₀ v : Image) : Prop where
  bounded : ∀ b, IsFs sb b → BlockBounded sb b (v b)
  outside : ∀ b, ¬ IsFs sb b → v b = v₀ b

section Outside
variable {sb : Super} {v₀ v : Image}

theorem Untouched.update {b : UInt64} {data : Block} (h : Untouched sb v₀ v) (hb : IsFs sb b)
    (hdata : BlockBounded sb b data) : Untouched sb v₀ (Function.update v b data) := by
  constructor
  · intro c hc
    by_cases hcb : c = b
    · subst hcb
      rw [Function.update_self]
      exact hdata
    · rw [Function.update_of_ne hcb]
      exact h.bounded c hc
  · intro c hc
    have hne : c ≠ b := fun hcb => hc (hcb.symm ▸ hb)
    rw [Function.update_of_ne hne]
    exact h.outside c hc

variable (hs : LayoutSound sb)
include hs

theorem Untouched.op {g : Stage} {o : TxnCall} (h : Untouched sb v₀ v)
    (hop : (fsContract sb True).allowed g o) :
    (fsContract sb True).answers o (viewTxn sb.totalBlocks latest o v).1 ∧
      Untouched sb v₀ (viewTxn sb.totalBlocks latest o v).2 := by
  have hread : ∀ {b} {e : Errno}, IsFs sb b → ∀ data,
      (if b < sb.totalBlocks then Except.ok (v b) else .error e) = .ok data → BlockBounded sb b data := by
    intro b e hb data hdata
    rw [if_pos hb.2] at hdata
    cases hdata
    exact h.bounded b hb
  cases o with
  | start => exact ⟨trivial, h⟩
  | stop => exact ⟨trivial, h⟩
  | readBlock b =>
      have hb : IsFs sb b := by cases g with
        | before => exact hop
        | inside held => exact hop
        | ended => exact hop.elim
      exact ⟨hread hb, h⟩
  | getWriteAccess b =>
      have hb : IsFs sb b := by cases g with
        | inside held => exact hop
        | before | ended => exact hop.elim
      exact ⟨hread hb, h⟩
  | modify b data =>
      cases g with
      | inside held => exact ⟨trivial, h.update hop.2.1 hop.2.2⟩
      | before | ended => exact hop.elim
  | dirtyMetadata b => exact ⟨trivial, h⟩
  | writeData b buf =>
      cases g with
      | before | ended => exact hop.elim
      | inside held =>
          have hb := hop.2.isFs hs
          refine ⟨trivial, ?_⟩
          rw [viewTxn, if_pos hb.2]
          exact h.update hb (blockBounded_data hs hop.2 buf)

theorem Untouched.run {g : Stage} {α : Type} {Q : Stage → α → Prop} {p : TxnM α}
    (h : Untouched sb v₀ v) (hp : Abides (fsContract sb True) Q g p) :
    Untouched sb v₀ (Interaction.run (viewTxn sb.totalBlocks latest) p v).2 := by
  induction p generalizing g v with
  | ret a => exact h
  | op o k ih =>
      obtain ⟨hop, hk⟩ := hp
      obtain ⟨hans, hnext⟩ := h.op hs hop
      exact ih _ hnext (hk _ hans)

theorem Untouched.viewAfter (h : Untouched sb v₀ v) (cs : List (UserCall × UInt64)) :
    Untouched sb v₀ (Logfs.viewAfter sb v cs) := by
  induction cs generalizing v with
  | nil => exact h
  | cons c cs ih => exact ih (h.run hs (stays_program hs c.1 (fun _ => trivial) c.2))

end Outside

/-! ## What the thread has taken -/

/-- The contents in the thread's hands, without those staged since. -/
def Core.taken (c : Core) : Image := applyWrites c.disk.view (nodeWrites c.olderNodes)

section Taken
variable {j₀ : Journal} {c c' : Core}

theorem Core.nodes_eq (c : Core) : c.nodes = c.olderNodes ++ stagedNodes c.mgr := rfl

theorem Core.taken_of_unstaged (hnone : stagedNodes c.mgr = []) : c.taken = c.content := by
  rw [taken, content, nodes_eq, hnone, List.append_nil]

/-- Only a freeze takes what is staged. -/
theorem ThreadStep.staged_eq (hstep : ThreadStep c c') (hstaged : Staged c.mgr) :
    Logfs.stagedNodes c'.mgr = if endsFreeze c then [] else Logfs.stagedNodes c.mgr := by
  cases hstep with
  | take ends =>
      rw [if_pos ends, endFreeze_of_staged hstaged]
      exact stagedNodes_of_empty rfl
  | drain down =>
      rw [if_neg (by simp [endsFreeze, down])]
  | freeze up wait =>
      rw [if_neg (by simp [endsFreeze, Nat.ne_of_gt wait])]
      rfl
  | _ => rfl

/-- The thread takes the newest contents at the end of a freeze, and loses nothing it has. -/
theorem CoreOk.taken_step (h : CoreOk j₀ c) (hstep : ThreadStep c c') {b : UInt64} (hb : Home j₀ b) :
    c'.taken b = if endsFreeze c then c.content b else c.taken b := by
  have hstaged := hstep.staged_eq h.staged
  cases hends : endsFreeze c with
  | true =>
      rw [hends, if_pos rfl] at hstaged
      rw [if_pos rfl, Core.taken_of_unstaged hstaged]
      exact h.content_step hstep hb
  | false =>
      rw [hends, if_neg Bool.false_ne_true] at hstaged
      rw [if_neg Bool.false_ne_true]
      rcases h.nodes_step hstep with ⟨hnodes, hhome⟩ | ⟨n, hnodes, hdisk⟩
      · rw [Core.nodes_eq, Core.nodes_eq, hstaged] at hnodes
        rw [Core.taken, Core.taken, List.append_cancel_right hnodes]
        exact applyWrites_congr (.inr (hhome b hb))
      · rw [Core.nodes_eq, Core.nodes_eq, hstaged, ← List.cons_append] at hnodes
        rw [Core.taken, Core.taken, List.append_cancel_right hnodes, hdisk, view_write]
        rfl

end Taken

/-! ## What an unmount leaves -/

/-- What the next mount needs: the file system's blocks in the thread's hands, the journal's superblock in
order, and a thread that has left with nothing to checkpoint. -/
structure Tidy (sb : Super) (c : Core) : Prop where
  nodes : ∀ n ∈ c.nodes, IsFs sb n.blockno
  marking : c.pc.Marking
  marked : Marked c.disk
  exited : ∀ j, c.pc = .exited j → c.mgr.ckpt = []

/-- A clean image: its superblock is that of the volume, its log is empty, its inode table is bounded. -/
structure CleanImage (sb : Super) (j : Journal) (i : Image) : Prop where
  super : i superBlockno = sb.encode
  opened : Opened j i
  bounded : ∀ b, IsFs sb b → BlockBounded sb b (i b)

section Image
variable {sb : Super} {j₀ : Journal} {mode : DataMode} {v₀ v w : Image} {c c' : Core} {s : Mounted}

theorem Tidy.thread (hvol : OnVolume sb j₀) (hcore : CoreOk j₀ c) (h : Tidy sb c) (hstep : ThreadStep c c') :
    Tidy sb c' where
  nodes n hn := h.nodes n (hstep.mem_nodes hn)
  marking := hstep.marking hvol.placed hcore h.marking
  marked := hstep.marked h.marking (fun n hn => (hvol.home (h.nodes n hn)).1) h.marked
  exited _ := hcore.exited_step hstep

theorem Tidy.served (h : Tidy sb c) (hsame : OnlyStaged c c') (hstaged : ∀ n ∈ stagedNodes c'.mgr, IsFs sb n.blockno) :
    Tidy sb c' := by
  obtain ⟨m, d, pc⟩ := c'
  obtain ⟨rfl, rfl, -, hckpt, -, -, -, -⟩ := hsame
  refine ⟨fun n hn => ?_, h.marking, h.marked, fun j hexit => hckpt.trans (h.exited j hexit)⟩
  rw [Core.nodes, ckptNodes, hckpt, List.mem_append] at hn
  rcases hn with hold | hnew
  · apply h.nodes
    rw [Core.nodes, List.mem_append]
    exact .inl hold
  · exact hstaged n hnew

/-- Besides, the journal's superblock is in order, and the thread has in its hands what the calls before the
last freeze have done. -/
structure Orderly (sb : Super) (j₀ : Journal) (mode : DataMode) (v₀ : Image) (s : Mounted) : Prop
    extends MountedOk sb j₀ mode v₀ s where
  tidy : Tidy sb s.toCore
  taken : ∀ b, Home j₀ b → s.toCore.taken b = viewAfter sb v₀ (s.returned.take s.frozenAt) b
  durable_le : s.durable ≤ s.frozenAt
  frozen_le : s.frozenAt ≤ s.returned.length

theorem orderly_preserved (hvol : OnVolume sb j₀) :
    Preserves (Mounted.step sb) (mountRules j₀) (Orderly sb j₀ mode v₀) := by
  intro s s' a hok hnow h
  have hmounted := mountedOk_preserved hvol hok hnow h.toMountedOk
  obtain ⟨g, v, hsees, hat⟩ := h.sees
  have hle := h.durable_le
  have hfrozen := h.frozen_le
  -- a call that goes on or returns adds to the calls at most
  have hgoOn : ∀ (core : Core) (hand : Option Handle) {c p}, MountedOk sb j₀ mode v₀
      (({ s with toCore := core, handle := hand } : Mounted).goOn c p) → Tidy sb core →
      (∀ b, Home j₀ b → core.taken b = viewAfter sb v₀ (s.returned.take s.frozenAt) b) →
      Orderly sb j₀ mode v₀ (({ s with toCore := core, handle := hand } : Mounted).goOn c p) := by
    intro core hand c p hmounted htidy htaken
    cases p with
    | op o k => exact ⟨hmounted, htidy, htaken, hle, hfrozen⟩
    | ret r =>
        refine ⟨hmounted, htidy, fun b hb => ?_, hle, ?_⟩
        · change core.taken b = viewAfter sb v₀ ((s.returned ++ [c]).take s.frozenAt) b
          rw [List.take_append_of_le_length hfrozen]
          exact htaken b hb
        · change s.frozenAt ≤ (s.returned ++ [c]).length
          rw [List.length_append]
          omega
  cases Mounted.step_sound hnow with
  | abort => exact ⟨hmounted, h.tidy, h.taken, hle, hfrozen⟩
  | call => exact hgoOn s.toCore s.handle hmounted h.tidy h.taken
  | @txn c o k r core hask hserved =>
      obtain ⟨hframe, hstaged⟩ := h.toMountedOk.served hvol hok hask hserved
      refine hgoOn core _ hmounted (h.tidy.served hframe hstaged) fun b hb => ?_
      rw [Core.taken, Core.olderNodes, ckptNodes, hframe.disk, hframe.pc, hframe.ckpt]
      exact h.taken b hb
  | commitSync =>
      have htidy : Tidy sb { s.toCore with mgr := { s.mgr with commitRequested := true } } :=
        h.tidy.served ⟨rfl, rfl, rfl, rfl, rfl, rfl, rfl, rfl⟩ hsees.staged
      exact ⟨hmounted, htidy, h.taken, hle, hfrozen⟩
  | @thread core hstep =>
      refine ⟨hmounted, h.tidy.thread hvol hsees.core hstep, fun b hb => ?_, ?_, ?_⟩
      · change core.taken b = viewAfter sb v₀ (s.returned.take (if endsFreeze s.toCore then _ else _)) b
        rw [hsees.core.taken_step hstep hb]
        split
        · next hends =>
            rw [List.take_length, hsees.content b hb, hsees.view_of_quiet hat (runningHandles_of_endsFreeze hends)]
        · exact h.taken b hb
      · change (if settles s.toCore then s.frozenAt else s.durable) ≤
          if endsFreeze s.toCore then s.returned.length else s.frozenAt
        split_ifs <;> omega
      · change (if endsFreeze s.toCore then s.returned.length else s.frozenAt) ≤ s.returned.length
        split_ifs <;> omega

theorem orderly_boot {img : Image} (h : CleanImage sb j₀ img) :
    Orderly sb j₀ mode img (Mounted.boot j₀ (WriteCache.settled img) mode) := by
  have hnone := nodes_boot j₀ img mode
  refine ⟨mountedOk_boot h.opened h.bounded, ⟨fun n hn => ?_, trivial, h.opened.magic, fun _ hpc => by cases hpc⟩,
    fun b _ => rfl, le_rfl, le_rfl⟩
  change n ∈ (Sys.boot j₀ img mode).toCore.nodes at hn
  rw [hnone] at hn
  cases hn

/-! ## The whole unmount -/

/-- `logfs_fs_unmount` has set the flag and waits for the thread. -/
def Mounted.unmount (s : Mounted) : Mounted := { s with mgr := requestShutdown s.mgr }

/-- How many of the calls an unmount keeps: those before the last freeze, which may still be going on. -/
def Mounted.kept (s : Mounted) : ℕ := if endsFreeze s.unmount.toCore then s.returned.length else s.frozenAt

/-- The thread on its way to the exit, where it will have written `w`; the calls have left `v`. -/
structure Draining (sb : Super) (j₀ : Journal) (mode : DataMode) (v w : Image) (c : Core) : Prop where
  sees : Presents sb j₀ mode .before c v
  tidy : Tidy sb c
  down : c.mgr.shutdown = true
  fits : endsFreeze c = true → stagedNodes c.mgr ≠ [] → FitsJournal j₀ (stagedNodes c.mgr)
  keeps : ∀ b, Home j₀ b → (if endsFreeze c then v b else c.taken b) = w b

/-- Once the flag is set no freeze begins. -/
theorem ThreadStep.not_endsFreeze (hstep : ThreadStep c c') (hdown : c.mgr.shutdown = true) :
    endsFreeze c' = false := by
  have hafter : ∀ m d j nodes, endsFreeze ⟨m, d, afterFreeze j nodes⟩ = false := by
    intro m d j nodes
    unfold afterFreeze
    split <;> rfl
  have hresume : ∀ m d j done caller, m.shutdown = true → endsFreeze ⟨m, d, resume j done caller⟩ = false := by
    intro m d j done caller hm
    cases caller <;> cases done <;> simp [resume, endsFreeze, hm]
  cases hstep with
  | freeze up => exact absurd hdown (by simp [up])
  | take =>
      simp only [endFreeze]
      split
      · rfl
      · exact hafter _ _ _ _
  | orderedFlush => exact hafter _ _ _ _
  | unlinkNone | writeHomeError | advanced => exact hresume _ _ _ _ _ hdown
  | caughtUp =>
      have hdown' := hdown
      dsimp only at hdown'
      simp [endsFreeze, hdown']
  | _ => rfl

theorem Draining.step (hvol : OnVolume sb j₀) (h : Draining sb j₀ mode v w c) (hstep : ThreadStep c c') :
    Draining sb j₀ mode v w c' := by
  have hnot := hstep.not_endsFreeze h.down
  refine ⟨h.sees.thread hvol h.fits hstep, h.tidy.thread hvol h.sees.core hstep, hstep.shutdown.trans h.down,
    fun hends => absurd (hnot.symm.trans hends) Bool.false_ne_true, fun b hb => ?_⟩
  rw [hnot, if_neg Bool.false_ne_true, h.sees.core.taken_step hstep hb, h.sees.content b hb]
  exact h.keeps b hb

theorem Draining.reaches (hvol : OnVolume sb j₀) (h : Draining sb j₀ mode v w c)
    (hreach : StateTransition.Reaches threadStep c c') : Draining sb j₀ mode v w c' := by
  induction hreach with
  | refl => exact h
  | tail _ hnow ih => exact ih.step hvol (threadStep_sound hnow)

/-- What was staged before is all that ever will be. -/
theorem Draining.unstaged (hvol : OnVolume sb j₀) (h : Draining sb j₀ mode v w c)
    (hnone : stagedNodes c.mgr = []) (hreach : StateTransition.Reaches threadStep c c') : stagedNodes c'.mgr = [] := by
  induction hreach with
  | refl => exact hnone
  | tail hbefore hnow ih =>
      rw [(threadStep_sound hnow).staged_eq (h.reaches hvol hbefore).sees.staged_ok, ih, ite_self]

/-- What is left at the exit is clean, with the contents the thread had in its hands. -/
theorem Draining.cleanImage {m : TxnMgr} {d : Disk} {j : Journal} {i : Image} (hvol : OnVolume sb j₀)
    (h : Draining sb j₀ mode v w ⟨m, d, .exited j⟩) (hplace : j₀.tail = j₀.head) (hsuper : w superBlockno = sb.encode)
    (hbounded : ∀ b, IsFs sb b → BlockBounded sb b (w b)) (hi : Survives d i) :
    CleanImage sb j₀ i ∧ (∀ b, Home j₀ b → i b = w b) ∧ (stagedNodes m = [] → ∀ b, Home j₀ b → i b = v b) := by
  have hckpt : m.ckpt = [] := h.tidy.exited j rfl
  have hpending : d.pending = [] := h.sees.core.pc.2
  have hview : i = d.view := by
    obtain ⟨ws, hsub, rfl⟩ := hi
    rw [hpending] at hsub
    rw [List.sublist_nil.mp hsub, Cache.view, hpending]
  have htaken : (⟨m, d, .exited j⟩ : Core).taken = d.view := by
    rw [Core.taken, Core.olderNodes, ckptNodes, hckpt]
    rfl
  have hcontent : ∀ b, Home j₀ b → i b = w b := by
    intro b hb
    rw [hview, ← htaken]
    exact h.keeps b hb
  refine ⟨⟨?_, ⟨hvol.placed, hplace, ?_, ?_⟩, fun b hb => ?_⟩, hcontent, fun hnone b hb => ?_⟩
  · rw [hcontent _ hvol.reserved_super.1]
    exact hsuper
  · rw [hview]
    exact h.tidy.marked
  · rw [hview]
    exact h.sees.core.emptied hckpt rfl
  · rw [hcontent b (hvol.home hb)]
    exact hbounded b hb
  · rw [hview, ← htaken, Core.taken_of_unstaged (c := ⟨m, d, .exited j⟩) hnone]
    exact h.sees.content b hb

/-- With no handle live the flag is all that the thread waits for. -/
theorem exits_of_quiet (hquiet : s.mgr.runningHandles = 0) :
    ∃ c, c ∈ StateTransition.eval threadStep s.unmount.toCore ∧ ∃ j, c.pc = .exited j := by
  obtain ⟨⟨m, d, pc⟩, hreach, j, rfl⟩ := exits_of_down (m := s.unmount.mgr) (d := s.disk) rfl hquiet s.unmount.pc
  exact ⟨_, StateTransition.mem_eval.mpr ⟨hreach, rfl⟩, j, rfl⟩

theorem MountedOk.exits (h : MountedOk sb j₀ mode v₀ s) (hdone : s.current = none) :
    ∃ c, c ∈ StateTransition.eval threadStep s.unmount.toCore ∧ ∃ j, c.pc = .exited j := by
  obtain ⟨g, v, hsees, hat⟩ := h.sees
  rw [hdone] at hat
  obtain ⟨rfl, -⟩ := hat
  exact exits_of_quiet hsees.handles

theorem Orderly.durable_le_kept (h : Orderly sb j₀ mode v₀ s) : s.durable ≤ s.kept := by
  unfold Mounted.kept
  split
  · exact h.durable_le.trans h.frozen_le
  · exact h.durable_le

/-- With no call under way a destroyed manager leaves a clean image, with what the calls it keeps have done. -/
theorem Orderly.cleanImage (hvol : OnVolume sb j₀) (hclean : CleanImage sb j₀ v₀) (h : Orderly sb j₀ mode v₀ s)
    (hdone : s.current = none) (hrules : mountRules j₀ s.unmount .thread)
    (hexit : c ∈ StateTransition.eval threadStep s.unmount.toCore) {i : Image} (hi : Survives c.disk i) :
    CleanImage sb j₀ i ∧ (∀ b, Home j₀ b → i b = viewAfter sb v₀ (s.returned.take s.kept) b) ∧
      (stagedNodes s.mgr = [] → ∀ b, Home j₀ b → i b = viewAfter sb v₀ s.returned b) := by
  obtain ⟨g, v, hsees, hat⟩ := h.sees
  rw [hdone] at hat
  obtain ⟨rfl, rfl⟩ := hat
  have hstart : Draining sb j₀ mode (viewAfter sb v₀ s.returned) (viewAfter sb v₀ (s.returned.take s.kept))
      s.unmount.toCore := by
    refine ⟨hsees.of_mgr hvol rfl rfl rfl rfl rfl hsees.held hsees.handles,
      ⟨h.tidy.nodes, h.tidy.marking, h.tidy.marked, h.tidy.exited⟩, rfl, hrules, fun b hb => ?_⟩
    unfold Mounted.kept
    split
    · rw [List.take_length]
    · exact h.taken b hb
  obtain ⟨c', hc', j, hpc⟩ := h.toMountedOk.exits hdone
  obtain rfl := Part.mem_unique hexit hc'
  have hreach := (StateTransition.mem_eval.mp hexit).1
  have hlast := hstart.reaches hvol hreach
  have hfree : Untouched sb v₀ (viewAfter sb v₀ (s.returned.take s.kept)) :=
    Untouched.viewAfter hvol.layout ⟨hclean.bounded, fun _ _ => rfl⟩ _
  obtain ⟨m, d, pc⟩ := c
  obtain rfl : pc = .exited j := hpc
  obtain ⟨hleft, hkept, hall⟩ := hlast.cleanImage hvol hclean.opened.empty
    ((hfree.outside _ hvol.reserved_super.2).trans hclean.super) hfree.bounded hi
  exact ⟨hleft, hkept, fun hnone => hall (hstart.unstaged hvol hnone hreach)⟩

end Image

/-! ## After a format and a mount -/

section Mounted
variable {host : Except Errno Unit} {totalBlocks journalLen now : UInt64} {mode : DataMode} {d d₁ d₂ : Disk}
  {sb : Super} {j : Journal}
  (hformat : run faultless (fsFormat host totalBlocks journalLen mode now).run d = (.ok (), d₁))
  (hmount : run faultless (fsMount ⟨totalBlocks⟩).run d₁ = (.ok (sb, j), d₂))
include hformat hmount

/-- A clean image is mounted as it is. -/
theorem CleanImage.mounts {i : Image} (h : CleanImage sb j i) :
    run faultless (fsMount ⟨totalBlocks⟩).run (settled i) = (.ok (sb, j), settled i) := by
  obtain ⟨hsb, -, -, -, hj, -⟩ := laidOut_mounted hformat hmount
  have htotal : sb.totalBlocks = totalBlocks := (toNat_formatSuper sb hsb).1
  have hlt := jsuper_lt h.opened.placed
  rw [hj] at hlt
  rw [hj, ← htotal]
  exact run_fsMount_empty (c := settled i) h.super (by rw [hsb]; rfl) (by rw [hsb, superChecksum_formatSuper])
    (htotal ▸ hlt) h.opened.magic h.opened.start

variable (hfits : TableFits totalBlocks) (hsome : 0 < journalLen)
include hfits hsome

theorem cleanImage_mounted : CleanImage sb j d₂.view := by
  obtain ⟨-, -, -, -, -, hlaid⟩ := laidOut_mounted hformat hmount
  exact ⟨hlaid.super, opened_mounted hformat hmount hfits hsome, fun b _ => bounded_view_mounted hformat hmount hfits b⟩

theorem orderly_of_run {mode' : DataMode} {s : Mounted}
    (hrun : Run (Mounted.step sb) (mountRules j) (Mounted.boot j d₂ mode') s) : Orderly sb j mode' d₂.view s := by
  have hvol := onVolume_mounted hformat hmount hfits hsome
  rw [settled_mounted hformat hmount hvol.layout] at hrun
  exact hrun.invariant (orderly_boot (cleanImage_mounted hformat hmount hfits hsome)) (orderly_preserved hvol)

/-- An unmount at any time after the last call has returned ends. Its image has an empty log, keeps what the
calls before the last freeze have done, so all they have done if nothing was staged, and is mounted again as
it is. -/
theorem unmounted_of_run {mode' : DataMode} {s : Mounted}
    (hrun : Run (Mounted.step sb) (mountRules j) (Mounted.boot j d₂ mode') s) (hdone : s.current = none)
    (hrules : mountRules j s.unmount .thread) :
    s.durable ≤ s.kept ∧ ∃ c, c ∈ StateTransition.eval threadStep s.unmount.toCore ∧ (∃ j', c.pc = .exited j') ∧
      ∀ i, Survives c.disk i →
        (jsuperOf i).start = journalEmpty ∧
        (∀ b, Home j b → i b = viewAfter sb d₂.view (s.returned.take s.kept) b) ∧
        (stagedNodes s.mgr = [] → ∀ b, Home j b → i b = viewAfter sb d₂.view s.returned b) ∧
        run faultless (fsMount ⟨totalBlocks⟩).run (settled i) = (.ok (sb, j), settled i) := by
  have hvol := onVolume_mounted hformat hmount hfits hsome
  have hok := orderly_of_run hformat hmount hfits hsome hrun
  obtain ⟨c, hexit, hpc⟩ := hok.toMountedOk.exits hdone
  refine ⟨hok.durable_le_kept, c, hexit, hpc, fun i hi => ?_⟩
  obtain ⟨hleft, hkept, hall⟩ :=
    hok.cleanImage hvol (cleanImage_mounted hformat hmount hfits hsome) hdone hrules hexit hi
  exact ⟨hleft.opened.start, hkept, hall, hleft.mounts hformat hmount⟩

end Mounted

section Small

theorem run_mounted_small : ∃ s : Mounted,
    Run (Mounted.step (formatSuper 128 64 .ordered)) (mountRules mountedJournal) smallMount s ∧
      s.returned = [smallCreate, smallWrite, smallMkdir] ∧ s.durable = 2 ∧ s.disk.pending ≠ [] ∧ s.current = none ∧
      mountRules mountedJournal s.unmount .thread := by
  obtain ⟨s, hrun, hreturned, hdurable, hpending, hdone, hbusy⟩ := run_small
  exact ⟨s, hrun.mono fun _ _ h => h.1, hreturned, hdurable, hpending, hdone,
    fun hends => absurd (hbusy.symm.trans hends) Bool.false_ne_true⟩

/-- The unmount comes while the commit of the third call is on its way. -/
theorem unmounted_small : ∃ s : Mounted, s.returned = [smallCreate, smallWrite, smallMkdir] ∧ s.durable = 2 ∧
    s.disk.pending ≠ [] ∧
    s.durable ≤ s.kept ∧ ∃ c, c ∈ StateTransition.eval threadStep s.unmount.toCore ∧ (∃ j', c.pc = .exited j') ∧
      ∀ i, Survives c.disk i →
        (jsuperOf i).start = journalEmpty ∧
        (∀ b, Home mountedJournal b →
          i b = viewAfter (formatSuper 128 64 .ordered) smallDisk.flush.view (s.returned.take s.kept) b) ∧
        (stagedNodes s.mgr = [] → ∀ b, Home mountedJournal b →
          i b = viewAfter (formatSuper 128 64 .ordered) smallDisk.flush.view s.returned b) ∧
        run faultless (fsMount ⟨128⟩).run (settled i) =
          (.ok (formatSuper 128 64 .ordered, mountedJournal), settled i) := by
  obtain ⟨s, hrun, hreturned, hdurable, hpending, hdone, hrules⟩ := run_mounted_small
  exact ⟨s, hreturned, hdurable, hpending,
    unmounted_of_run run_format_small run_fsMount_small (by decide) (by decide) hrun hdone hrules⟩

end Small
end Logfs
