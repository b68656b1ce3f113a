import Logfs.CrashAtomicity
import Logfs.MountedFs

/-!
# Crashes of the mounted file system

When the system stops, and whichever unflushed writes survive, the next mount finds the blocks of the
file system as they are after the first so many of the calls that had returned, and all those whose
commit had. No call is there in part.
-/
namespace Logfs
open Interaction WriteCache Transition

/-- What the journal is to the thread while it waits at a place where it has nothing in its hands. -/
def Pc.rested : Pc → Pc
  | .frozen j | .emptyCycle j => .top j
  | pc => pc

/-- The journal of a thread about to freeze. -/
def Pc.freezes : Pc → Option Journal
  | .top j | .frozen j => some j
  | _ => none

/-- Besides, what a freeze takes does not look like the journal's own blocks, and no offset passes 64
bits. -/
def crashRules (j₀ : Journal) (s : Mounted) (a : MountAction) : Prop :=
  mountRules j₀ s a ∧ (a = .thread → endsFreeze s.toCore = true →
    (∀ n ∈ stagedNodes s.mgr, ¬ IsRecord n.data) ∧ ∀ j, s.pc.freezes = some j → j.OffsetsFit (stagedNodes s.mgr))

instance (j : Journal) (nodes : List DirtyBlock) : Decidable (j.OffsetsFit nodes) := by
  unfold Journal.OffsetsFit; infer_instance

instance (j : Journal) (s : Mounted) (a : MountAction) : Decidable (crashRules j s a) :=
  match a with
  | .call _ _ | .txn | .commitSync =>
      decidable_of_iff (mountRules j s _) ⟨fun h => ⟨h, fun ha => by cases ha⟩, And.left⟩
  | .thread =>
      decidable_of_iff (mountRules j s .thread ∧ (endsFreeze s.toCore = true →
        (∀ n ∈ stagedNodes s.mgr, ¬ IsRecord n.data) ∧ ∀ j ∈ s.pc.freezes, j.OffsetsFit (stagedNodes s.mgr)))
        (and_congr_right fun _ => ⟨fun h _ => h, fun h => h rfl⟩)

/-! ## What is committed -/

/-- The generations lead from the one image to the other. -/
def LeadsTo (j₀ : Journal) (v₀ : Image) (gens : List (List DirtyBlock)) (v : Image) : Prop :=
  ∀ b, Home j₀ b → applyWrites v₀ (nodeWrites gens.flatten) b = v b

/-- Nothing is asked of the blocks of the file system, the others are as in `v₀`. -/
def History.reserved (sb : Super) (j₀ : Journal) (v₀ : Image) : History :=
  fun b => {data | Home j₀ b → ¬ IsFs sb b → data = v₀ b}

/-- The log and the device agree on the generations, which are those of the first `durable` calls, or of
the first `frozenAt` once the one on its way is committed. -/
structure Journaled (sb : Super) {j₀ : Journal} (h₀ : j₀.Placed) (v₀ : Image) (c : Core)
    (returned : List (UserCall × UInt64)) (frozenAt durable : ℕ) (gens : List (List DirtyBlock)) : Prop where
  at_pc : PipeAt (Upkeep.fresh j₀ h₀ v₀) gens c.mgr c.disk c.pc.rested
  committed : LeadsTo j₀ v₀ gens (viewAfter sb v₀ (returned.take durable))
  taken : LeadsTo j₀ v₀ (gens ++ c.pc.unlogged) (viewAfter sb v₀ (returned.take frozenAt))
  durable_le : durable ≤ frozenAt
  frozen_le : frozenAt ≤ returned.length
  within : Within j₀ ⟨c, none⟩ (.reserved sb j₀ v₀)
  outlasts : (History.reserved sb j₀ v₀).Outlasts c.disk

section Steps
variable {sb : Super} {j₀ : Journal} {h₀ : j₀.Placed} {v₀ : Image} {c c' : Core}
  {returned : List (UserCall × UInt64)} {frozenAt durable : ℕ} {gens : List (List DirtyBlock)}

@[simp] theorem unlogged_rested (pc : Pc) : pc.rested.unlogged = pc.unlogged := by cases pc <;> rfl

/-- Of the manager only its list of transactions matters to the log. -/
theorem PipeAt.of_ckpt {u : Upkeep j₀} {m m' : TxnMgr} {d : Disk} {pc : Pc} (h : PipeAt u gens m d pc)
    (hckpt : m'.ckpt = m.ckpt) : PipeAt u gens m' d pc := by
  have htail : ∀ j, newTail m' j = newTail m j := fun j => by simp only [newTail, hckpt]
  have hfinish : ∀ j nodes rc, (finishCommit m' j nodes rc).ckpt = (finishCommit m j nodes rc).ckpt :=
    fun j nodes rc => by simp only [finishCommit, hckpt]
  cases pc <;> simp only [PipeAt, hckpt, htail, hfinish] at h ⊢ <;> exact h

theorem PipeAt.rested {u : Upkeep j₀} {m : TxnMgr} {d : Disk} {pc : Pc} (h : PipeAt u gens m d pc) :
    pc.rested = pc := by
  cases pc with
  | frozen j | emptyCycle j => exact h.elim
  | _ => rfl

/-- Functions of `txn.h` leave the log and the device alone. -/
theorem Journaled.served (h : Journaled sb h₀ v₀ c returned frozenAt durable gens) (hsame : OnlyStaged c c')
    (hstaged : ∀ n ∈ stagedNodes c'.mgr, IsFs sb n.blockno) :
    Journaled sb h₀ v₀ c' returned frozenAt durable gens := by
  obtain ⟨m, d, pc⟩ := c'
  obtain ⟨rfl, rfl, -, hckpt, -, -, hwb, -⟩ := hsame
  refine ⟨h.at_pc.of_ckpt hckpt, h.committed, h.taken, h.durable_le, h.frozen_le, ?_, h.outlasts⟩
  exact h.within.of_table hckpt hwb fun n hn => .inr fun _ hfs => absurd (hstaged n hn) hfs

theorem Journaled.returns (h : Journaled sb h₀ v₀ c returned frozenAt durable gens)
    (cs : List (UserCall × UInt64)) : Journaled sb h₀ v₀ c (returned ++ cs) frozenAt durable gens := by
  have hfrozen := h.frozen_le
  refine ⟨h.at_pc, ?_, ?_, h.durable_le, ?_, h.within, h.outlasts⟩
  · rw [List.take_append_of_le_length (h.durable_le.trans hfrozen)]
    exact h.committed
  · rw [List.take_append_of_le_length hfrozen]
    exact h.taken
  · rw [List.length_append]
    omega

/-- Between two generations the newest contents are those of the generations and the staging table. -/
theorem PipeAt.content_top {m : TxnMgr} {d : Disk} {pc : Pc} {j : Journal}
    (h : PipeAt (Upkeep.fresh j₀ h₀ v₀) gens m d (.top j)) (hpc : pc = .top j ∨ pc = .frozen j) :
    LeadsTo j₀ v₀ (gens ++ [stagedNodes m]) (Core.content ⟨m, d, pc⟩) := by
  intro b hb
  obtain ⟨img, rfl, hdisk⟩ := h
  have hnodes : (⟨m, settled img, pc⟩ : Core).nodes = ckptNodes m ++ stagedNodes m := by
    rcases hpc with rfl | rfl <;> simp [Core.nodes, Pc.unhomed, Pc.inflight]
  rw [Core.content, hnodes, nodeWrites_append, applyWrites_append, List.flatten_append, nodeWrites_append,
    applyWrites_append, List.flatten_singleton]
  exact (applyWrites_congr (.inr (hdisk.kept.content b hb))).symm

/-- The freeze ends with all the calls that have returned in the log, or in the generation it has taken. -/
theorem Journaled.take {m : TxnMgr} {d : Disk} {pc : Pc} {j : Journal}
    (h : Journaled sb h₀ v₀ ⟨m, d, pc⟩ returned frozenAt durable gens) (hpc : pc = .top j ∨ pc = .frozen j)
    (hstaged : Staged m) (hord : m.orderedBlocks = [])
    (hview : ∀ b, Home j₀ b → Core.content ⟨m, d, pc⟩ b = viewAfter sb v₀ returned b)
    (hgen : stagedNodes m ≠ [] → PlainGeneration j₀ (stagedNodes m)) (hoff : j.OffsetsFit (stagedNodes m)) :
    PipeAt (Upkeep.fresh j₀ h₀ v₀) gens (endFreeze ⟨m, d, pc⟩ j).mgr d (endFreeze ⟨m, d, pc⟩ j).pc.rested ∧
      LeadsTo j₀ v₀ (gens ++ (endFreeze ⟨m, d, pc⟩ j).pc.unlogged) (viewAfter sb v₀ returned) := by
  have hat : PipeAt (Upkeep.fresh j₀ h₀ v₀) gens m d (.top j) := by
    have hrest := h.at_pc
    rcases hpc with rfl | rfl <;> exact hrest
  have hlead : LeadsTo j₀ v₀ (gens ++ [stagedNodes m]) (viewAfter sb v₀ returned) :=
    fun b hb => (hat.content_top hpc b hb).trans (hview b hb)
  have hafter : (endFreeze ⟨m, d, pc⟩ j).pc = afterFreeze j (stagedNodes m) := by
    rw [endFreeze_of_staged hstaged]
    simp [hord]
  have hckpt : (endFreeze ⟨m, d, pc⟩ j).mgr.ckpt = m.ckpt := by rw [endFreeze_of_staged hstaged]
  rw [hafter]
  unfold afterFreeze
  split
  · next hsome =>
      obtain ⟨img, hset, hdisk⟩ := hat.of_ckpt hckpt
      exact ⟨⟨img, hset, hdisk, hgen (List.length_pos_iff.mp hsome), hoff⟩, hlead⟩
  · next hnone =>
      have hnil : stagedNodes m = [] := by simpa using hnone
      refine ⟨hat.of_ckpt hckpt, fun b hb => ?_⟩
      have hb' := hlead b hb
      rw [hnil] at hb'
      simpa [Pc.unlogged] using hb'

/-- A step of a commit or a checkpoint. -/
theorem Journaled.busy (h : Journaled sb h₀ v₀ c returned frozenAt durable gens) (hdev : c.mgr.dev = j₀.dev)
    (hbusy : c.pc.idle = false) (hrest : c.pc.rested = c.pc) (hstep : ThreadStep c c') :
    PipeAt (Upkeep.fresh j₀ h₀ v₀) (gens ++ (committing c).toList) c'.mgr c'.disk c'.pc.rested ∧
      LeadsTo j₀ v₀ ((gens ++ (committing c).toList) ++ c'.pc.unlogged) (viewAfter sb v₀ (returned.take frozenAt)) ∧
      LeadsTo j₀ v₀ (gens ++ (committing c).toList)
        (viewAfter sb v₀ (returned.take (if (committing c).isSome then frozenAt else durable))) := by
  have hat := h.at_pc
  rw [hrest] at hat
  have hnext := hat.step h₀ hdev hbusy hstep
  have hlogged := hat.unlogged_step hbusy hstep
  refine ⟨?_, ?_, ?_⟩
  · rw [hnext.rested]
    exact hnext
  · rw [List.append_assoc, ← hlogged]
    exact h.taken
  · cases hcom : committing c with
    | none =>
        rw [Option.toList_none, List.append_nil]
        exact h.committed
    | some nodes =>
        have hall := h.taken
        have hone : c.pc.unlogged = [nodes] := by
          obtain ⟨m, d, pc⟩ := c
          unfold committing at hcom
          split at hcom
          · next hpc =>
              obtain rfl : pc = _ := hpc
              cases hcom
              rfl
          · cases hcom
        rw [hone] at hall
        exact hall

/-- What the freeze that is about to end takes is a generation the log has room for. -/
structure Freezable (sb : Super) (j₀ : Journal) (v₀ : Image) (c : Core) (returned : List (UserCall × UInt64)) :
    Prop where
  view : ∀ b, Home j₀ b → c.content b = viewAfter sb v₀ returned b
  generation : stagedNodes c.mgr ≠ [] → PlainGeneration j₀ (stagedNodes c.mgr)
  offsets : ∀ j, c.pc.freezes = some j → j.OffsetsFit (stagedNodes c.mgr)

theorem Journaled.thread (h : Journaled sb h₀ v₀ c returned frozenAt durable gens) (hdev : c.mgr.dev = j₀.dev)
    (hstaged : Staged c.mgr) (hup : ∀ j, c.pc = .top j → c.mgr.shutdown = false) (hord : c.mgr.orderedBlocks = [])
    (hfreeze : endsFreeze c = true → Freezable sb j₀ v₀ c returned) (hstep : ThreadStep c c') :
    ∃ gens', Journaled sb h₀ v₀ c' returned (if endsFreeze c then returned.length else frozenAt)
      (if settles c then frozenAt else durable) gens' := by
  have hwithin := h.within.threadStep (.inr h₀) hstep
  have hout := h.within.outlasts_threadStep h.outlasts hstep
  have hle := h.durable_le
  have hfrozen := h.frozen_le
  have htake : ∀ {m d pc j}, c = ⟨m, d, pc⟩ → pc = .top j ∨ pc = .frozen j → endsFreeze c = true →
      c' = endFreeze c j → settles c = false → ∃ gens', Journaled sb h₀ v₀ c' returned
        (if endsFreeze c then returned.length else frozenAt) (if settles c then frozenAt else durable) gens' := by
    rintro m d pc j rfl hpc hends rfl hnot
    obtain ⟨hview, hgen, hoff⟩ := hfreeze hends
    obtain ⟨hat, htaken⟩ := h.take hpc hstaged hord hview hgen (hoff j (by rcases hpc with rfl | rfl <;> rfl))
    rw [if_pos hends, if_neg (by simp [hnot])]
    refine ⟨gens, hat, h.committed, ?_, hle.trans hfrozen, le_rfl, hwithin, hout⟩
    rw [List.take_length]
    exact htaken
  have hbusy : c.pc.idle = false → c.pc.rested = c.pc → endsFreeze c = false →
      settles c = (committing c).isSome → ∃ gens', Journaled sb h₀ v₀ c' returned
        (if endsFreeze c then returned.length else frozenAt) (if settles c then frozenAt else durable) gens' := by
    intro hidle hrest hnot hsettles
    obtain ⟨hat, htaken, hcommitted⟩ := h.busy hdev hidle hrest hstep
    rw [if_neg (by simp [hnot]), hsettles]
    refine ⟨_, hat, hcommitted, htaken, ?_, hfrozen, hwithin, hout⟩
    split
    · exact le_rfl
    · exact hle
  obtain ⟨m, d, pc⟩ := c
  cases pc with
  | top j =>
      cases hstep with
      | drain down => exact absurd (hup j rfl) (by simp [down])
      | freeze up wait =>
          have hnot : endsFreeze ⟨m, d, .top j⟩ = false := by simp [endsFreeze, Nat.ne_of_gt wait]
          rw [hnot]
          exact ⟨gens, h.at_pc.of_ckpt rfl, h.committed, h.taken, hle, hfrozen, hwithin, hout⟩
      | take ends up =>
          rcases up with ⟨hpc, -⟩ | hpc
          · exact htake rfl (.inl hpc) ends rfl rfl
          · cases hpc
  | frozen j =>
      cases hstep with
      | take ends up =>
          rcases up with ⟨hpc, -⟩ | hpc
          · cases hpc
          · exact htake rfl (.inr hpc) ends rfl rfl
  | emptyCycle j =>
      cases hstep with
      | take ends up => rcases up with ⟨hpc, -⟩ | hpc <;> cases hpc
      | emptyCycle =>
          have htaken : LeadsTo j₀ v₀ (gens ++ []) (viewAfter sb v₀ (returned.take frozenAt)) := h.taken
          rw [List.append_nil] at htaken
          exact ⟨gens, h.at_pc.of_ckpt rfl, htaken, h.taken, le_rfl, hfrozen, hwithin, hout⟩
  | commit p nodes =>
      refine hbusy rfl rfl rfl ?_
      cases p with
      | op o k => rfl
      | ret r =>
          obtain ⟨rc, j⟩ := r
          cases rc <;> rfl
  | _ => exact hbusy rfl rfl rfl rfl

end Steps

/-! ## Runs -/

/-- The invariant of the mounted file system and its log. -/
structure CrashOk (sb : Super) {j₀ : Journal} (h₀ : j₀.Placed) (mode : DataMode) (v₀ : Image) (s : Mounted) : Prop
    extends MountedOk sb j₀ mode v₀ s where
  up : s.mgr.shutdown = false
  unordered : s.mgr.orderedBlocks = []
  log : ∃ gens, Journaled sb h₀ v₀ s.toCore s.returned s.frozenAt s.durable gens

section Runs
variable {sb : Super} {j₀ : Journal} {mode : DataMode} {v₀ v : Image} {s s' : Mounted} {g : Stage}

/-- With no handle live the view is what the calls that have returned have left. -/
theorem Presents.view_of_quiet {core : Core} {current : Option ((UserCall × UInt64) × TxnM (Except Errno Reply))}
    {v₁ : Image} (h : Presents sb j₀ mode g core v) (hat : Mounted.CallAt sb mode v₁ g v current)
    (hquiet : core.mgr.runningHandles = 0) : v = v₁ := by
  have hhandles := h.handles
  rw [hquiet] at hhandles
  cases current with
  | none => exact hat.2
  | some call =>
      obtain ⟨c, p⟩ := call
      cases p with
      | ret r => exact hat.elim
      | op o k =>
          cases g with
          | before => exact hat.unchanged rfl
          | inside held => cases hhandles
          | ended =>
              obtain ⟨hop, -⟩ := hat.stays
              cases o <;> exact hop.elim

/-- The rules let only such generations be taken. -/
theorem Presents.freezable (hvol : OnVolume sb j₀) (h : Presents sb j₀ mode g s.toCore v)
    (hview : ∀ b, Home j₀ b → s.content b = viewAfter sb v₀ s.returned b) (hrules : crashRules j₀ s .thread)
    (hends : endsFreeze s.toCore = true) : Freezable sb j₀ v₀ s.toCore s.returned := by
  refine ⟨hview, fun hsome => ?_, (hrules.2 rfl hends).2⟩
  obtain ⟨hlen, hroom⟩ := hrules.1 hends hsome
  exact ⟨⟨hlen, fun n hn => hvol.home (h.staged n hn), fun n hn => hvol.lt (h.staged n hn)⟩, hroom,
    (hrules.2 rfl hends).1⟩

theorem ThreadStep.unordered {c c' : Core} (hstep : ThreadStep c c') (hstaged : Staged c.mgr)
    (h : c.mgr.orderedBlocks = []) : c'.mgr.orderedBlocks = [] := by
  cases hstep with
  | take =>
      rw [endFreeze_of_staged hstaged]
  | _ => exact h

theorem crashOk_preserved (hvol : OnVolume sb j₀) :
    Preserves (Mounted.step sb) (crashRules j₀) (CrashOk sb hvol.placed mode v₀) := by
  intro s s' a hok hnow h
  have hmounted := mountedOk_preserved hvol hok.1 hnow h.toMountedOk
  obtain ⟨g, v, hsees, hat⟩ := h.sees
  obtain ⟨gens, hlog⟩ := h.log
  -- a call that goes on or returns adds to the calls at most
  have hgoOn : ∀ {t : Mounted} {c p}, Journaled sb hvol.placed v₀ t.toCore t.returned t.frozenAt t.durable gens →
      ∃ gens', Journaled sb hvol.placed v₀ (t.goOn c p).toCore (t.goOn c p).returned (t.goOn c p).frozenAt
        (t.goOn c p).durable gens' := by
    intro t c p ht
    cases p with
    | op o k => exact ⟨gens, ht⟩
    | ret r => exact ⟨gens, ht.returns [c]⟩
  cases Mounted.step_sound hnow with
  | abort => exact ⟨hmounted, h.up, h.unordered, gens, hlog⟩
  | @call c now hfree =>
      refine ⟨hmounted, ?_, ?_, hgoOn hlog⟩
      · rw [Mounted.toCore_goOn]
        exact h.up
      · rw [Mounted.toCore_goOn]
        exact h.unordered
  | @txn c o k r core hask hserved =>
      obtain ⟨hframe, hstaged⟩ := h.toMountedOk.served hvol hok.1 hask hserved
      refine ⟨hmounted, ?_, ?_, hgoOn (t := { s with toCore := core, handle := _ }) (hlog.served hframe hstaged)⟩
      · rw [Mounted.toCore_goOn]
        exact hframe.shutdown.trans h.up
      · rw [Mounted.toCore_goOn]
        exact hframe.ordered.trans h.unordered
  | commitSync =>
      refine ⟨hmounted, h.up, h.unordered, gens, ?_⟩
      exact hlog.served ⟨rfl, rfl, rfl, rfl, rfl, rfl, rfl, rfl⟩ hsees.staged
  | thread hstep =>
      refine ⟨hmounted, hstep.shutdown.trans h.up, hstep.unordered hsees.staged_ok h.unordered, ?_⟩
      refine hlog.thread (pcOk_dev hsees.core.pc) hsees.staged_ok (fun _ _ => h.up) h.unordered (fun hends => ?_) hstep
      refine hsees.freezable hvol ?_ hok hends
      exact fun b hb => by rw [hsees.content b hb, hsees.view_of_quiet hat (runningHandles_of_endsFreeze hends)]

theorem Within.weaken {t : Serving} {H H' : History} (h : Within j₀ t H) (hsub : ∀ b, H b ⊆ H' b) : Within j₀ t H' where
  held n hn := hsub _ (h.held n hn)
  disk b := hsub b (h.disk b)
  journal b hb := Set.eq_univ_of_univ_subset (h.journal b hb ▸ hsub b)
  logging := h.logging
  unlogged := h.unlogged

theorem crashOk_boot (hvol : OnVolume sb j₀) {img : Image} (hfresh : FreshRegion j₀ img)
    (hbounded : ∀ b, IsFs sb b → BlockBounded sb b (img b)) :
    CrashOk sb hvol.placed mode img (Mounted.boot j₀ (settled img) mode) := by
  obtain ⟨hhead, htail, -⟩ := hfresh.opened
  refine ⟨mountedOk_boot ⟨hvol.placed, htail.trans hhead.symm, hfresh.magic, hfresh.start⟩ hbounded, rfl, rfl, [],
    (hfresh.mountOk mode).pipe.at_pc, fun _ _ => rfl, fun _ _ => rfl, le_rfl, le_rfl, ?_, ?_⟩
  · exact (within_boot (hhead.trans htail.symm) (settled img) mode).weaken fun b data hdata hb _ => hdata hb
  · intro i hi b _ _
    rw [survives_settled.mp hi]

/-- What a crash leaves is recovered to the calls a commit has returned 0 for, or to those before the
last freeze. -/
theorem CrashOk.recoversTo (hvol : OnVolume sb j₀) (h : CrashOk sb hvol.placed mode v₀ s) {i : Image}
    (hi : Survives s.disk i) : ∃ k, s.durable ≤ k ∧ k ≤ s.returned.length ∧
      RecoversTo j₀ i (viewAfter sb v₀ (s.returned.take k)) := by
  obtain ⟨gens, hlog⟩ := h.log
  rcases hlog.at_pc.recoversTo hi with hrec | ⟨nodes, hnodes, hrec⟩
  · exact ⟨s.durable, le_rfl, hlog.durable_le.trans hlog.frozen_le, hrec.1,
      fun b hb => (hrec.2 b hb).trans (hlog.committed b hb)⟩
  · rw [unlogged_rested] at hnodes
    have htaken := hlog.taken
    rw [hnodes] at htaken
    exact ⟨s.frozenAt, hlog.durable_le, hlog.frozen_le, hrec.1, fun b hb => (hrec.2 b hb).trans (htaken b hb)⟩

theorem CrashOk.reserved (hvol : OnVolume sb j₀) (h : CrashOk sb hvol.placed mode v₀ s) {i : Image}
    (hi : Survives s.disk i) {b : UInt64} (hb : Home j₀ b) (hfs : ¬ IsFs sb b) : i b = v₀ b := by
  obtain ⟨gens, hlog⟩ := h.log
  exact hlog.outlasts i hi b hb hfs

end Runs

/-! ## The next mount -/

section Remount
variable {j : Journal} {c : Disk} {i target : Image}

theorem magic_of_recoversTo (hlt : jsuperBlockno < j.dev.nblocks) (h : RecoversTo j i target) :
    (jsuperOf i).magic = journalMagic := by
  by_contra hne
  have hrun := h.1
  have hdecode : JournalSuper.decode ((settled i).view jsuperBlockno) = jsuperOf i := rfl
  rw [mountRecover, run_bind, answer_recover, run_bind, run_bdevRead _ hlt] at hrun
  simp only [hdecode, ne_eq, hne, not_false_eq_true, if_true, run_ret, Prog.pure_eq] at hrun
  cases hrun

section Moved
variable (head tail seq : UInt64)

/-- The journal with its head and tail somewhere else. -/
def Journal.moved (j : Journal) (head tail seq : UInt64) : Journal :=
  { j with head := head, tail := tail, nextSequence := seq }

theorem readBlocks_moved (cursor : UInt64) (n : ℕ) : readBlocks (j.moved head tail seq) cursor n =
    readBlocks j cursor n := by
  induction n generalizing cursor with
  | zero => rfl
  | succ n ih =>
      rw [readBlocks, readBlocks]
      simp only [ih]
      rfl

theorem scanLoop_moved (fuel : ℕ) (scan expectSeq last : UInt64) :
    scanLoop (j.moved head tail seq) fuel scan expectSeq last = scanLoop j fuel scan expectSeq last := by
  have htxn : ∀ scan expectSeq, scanTxn (j.moved head tail seq) scan expectSeq = scanTxn j scan expectSeq := by
    intro scan expectSeq
    unfold scanTxn
    simp only [readBlocks_moved]
    rfl
  induction fuel generalizing scan expectSeq last with
  | zero => rfl
  | succ fuel ih =>
      rw [scanLoop, scanLoop]
      simp only [ih, htxn]

theorem replay_moved (revokes : List RevokeEntry) (copies : List LoggedCopy) :
    replay (j.moved head tail seq) revokes copies = replay j revokes copies := by
  induction copies with
  | nil => rfl
  | cons t ts ih =>
      rw [replay, replay]
      simp only [ih]
      rfl

/-- Where head and tail are does not matter to a recovery that succeeds. -/
theorem run_mountRecover_moved (h : (run faultless (mountRecover j) c).1.1 = .ok ()) :
    run faultless (mountRecover (j.moved head tail seq)) c = run faultless (mountRecover j) c := by
  have hscan : ∀ js, scanPass (j.moved head tail seq) js = scanPass j js := fun js => scanLoop_moved head tail seq _ _ _ _
  have hdev : (j.moved head tail seq).dev = j.dev := rfl
  unfold mountRecover at h ⊢
  rw [answer_recover] at h ⊢
  rw [answer_recover]
  simp only [hscan, replay_moved, hdev, run_bind] at h ⊢
  generalize run faultless (bdevRead j.dev jsuperBlockno).run c = read at h ⊢
  obtain ⟨block, c₁⟩ := read
  cases block with
  | error e => cases h
  | ok block =>
      dsimp only at h ⊢
      split_ifs at h ⊢
      · cases h
      · rfl
      · simp only [run_bind] at h ⊢
        generalize run faultless (scanPass j (JournalSuper.decode block)) c₁ = scan at h ⊢
        obtain ⟨r, c₂⟩ := scan
        dsimp only at h ⊢
        generalize run faultless ((replay j r.revokes (loggedCopies r.txns)).answer (recoverInstall j.dev)) c₂ =
          replayed at h ⊢
        obtain ⟨rc, c₃⟩ := replayed
        cases rc with
        | error e => cases h
        | ok _ => rfl

end Moved

/-- The mount after a crash succeeds, and finds what the image recovers to. -/
theorem run_fsMount_of_recoversTo {sb : Super} {dev : BlockDev} {seq : UInt64}
    (hj : j = ⟨dev, sb.journalStart, sb.journalLen, 0, 0, seq⟩) (hlt : jsuperBlockno < dev.nblocks)
    (hsuper : i superBlockno = sb.encode) (hmagic : sb.magic = superMagic) (hsum : sb.checksum = superChecksum sb)
    (hsize : sb.totalBlocks = dev.nblocks) (h : RecoversTo j i target) :
    ∃ j' d', run faultless (fsMount dev).run (settled i) = (.ok (sb, j'), d') ∧ ∀ b, Home j b → d'.view b = target b := by
  have hfirst : superBlockno < dev.nblocks := UInt64.lt_trans (by decide) hlt
  have hopen := run_journalOpen j (c := settled i) (by rw [hj]; exact hlt)
    (magic_of_recoversTo (by rw [hj]; exact hlt) h)
  have hmoved : ∃ head tail seq', openedJournal j (settled i).view = j.moved head tail seq' := by
    unfold openedJournal
    split
    · exact ⟨_, _, _, rfl⟩
    · exact ⟨_, _, _, rfl⟩
  obtain ⟨head, tail, seq', hopened⟩ := hmoved
  have hrun := run_mountRecover_moved head tail seq' h.1
  rw [hopened, hj] at hopen
  refine ⟨(run faultless (mountRecover j) (settled i)).1.2, (run faultless (mountRecover j) (settled i)).2, ?_, h.2⟩
  unfold fsMount
  rw [run_except_bind, run_bdevRead _ hfirst]
  have hdecode : Super.decode ((settled i).view superBlockno) = sb := by
    rw [show (settled i).view superBlockno = i superBlockno from rfl, hsuper, Super.decode_encode]
  simp only [hdecode, hmagic, ne_eq, not_true, if_false, ← hsum, hsize]
  rw [run_except_bind]
  dsimp only at hopen
  rw [hopen]
  dsimp only
  rw [run_except_bind, run_liftM_except, ← hj, hrun]
  have hok := h.1
  generalize run faultless (mountRecover j) (settled i) = out at hok ⊢
  obtain ⟨⟨rc, j'⟩, d'⟩ := out
  obtain rfl : rc = .ok () := hok
  rfl

end Remount

/-! ## Calls that leave the volume in order -/

section Order
variable {sb : Super} {v v' : Image} {live : Set UInt32} {cs : List (UserCall × UInt64)} (hs : LayoutSound sb)
include hs

/-- The meaning of an image is that of the blocks of the file system. -/
theorem vol_congr_fs (h : ∀ b, IsFs sb b → v b = v' b) : vol sb v = vol sb v' := by
  have hinode : ∀ i, (vol sb v).inode i = (vol sb v').inode i := by
    intro i
    simp only [vol]
    split
    · next hi => rw [h _ (isFs_table hs hi.inRange)]
    · rfl
  have hblock : ∀ b, (vol sb v).block b = (vol sb v').block b := by
    intro b
    simp only [vol]
    split
    · next hb => rw [h b (hb.isFs hs)]
    · rfl
  have hinodes : (vol sb v).inodeUsed = (vol sb v').inodeUsed := by simp only [vol, h _ (isFs_inodeBitmap hs)]
  have hblocks : (vol sb v).blockUsed = (vol sb v').blockUsed := by simp only [vol, h _ (isFs_blockBitmap hs)]
  exact (Vol.mk.injEq ..).mpr ⟨hinodes, hblocks, funext hinode, funext hblock⟩

omit hs in
theorem AllProper.upTo {ok : Vol → UserCall → Prop} (h : AllProper sb ok v cs) (k : ℕ) :
    AllProper sb ok v (cs.take k) := by
  induction cs generalizing v k with
  | nil => simpa using h
  | cons c cs ih =>
      cases k with
      | zero => trivial
      | succ k => exact ⟨h.1, h.2.1, ih h.2.2 k⟩

variable (hroot : sb.rootIno = rootIno)
include hroot

theorem volOk_afterCall (h : VolOk sb (vol sb v) live) {c : UserCall × UInt64} (hproper : c.1.Proper sb v) :
    ∃ live', VolOk sb (vol sb (afterCall sb v c)) live' := by
  obtain ⟨c, now⟩ := c
  have hsame : Blind (vol sb v) (vol sb v) := FreeDiffer.blind hs fun _ hne => absurd rfl hne
  cases c with
  | change op =>
      obtain ⟨r, V, live', hdoes, hok, -⟩ := keeps_reply hs hroot h hproper now
      obtain ⟨-, hvol⟩ := hdoes v rfl
      refine ⟨live', ?_⟩
      change VolOk sb (vol sb (run _ (op.reply sb now).run v).2) live'
      rw [hvol]
      exact hok
  | getattr path => exact (call_blind hs hroot h hsame (c := (.getattr path, now)) hproper trivial).2.2
  | readdir path => exact (call_blind hs hroot h hsame (c := (.readdir path, now)) hproper trivial).2.2
  | read fh size offset =>
      exact (call_blind hs hroot h hsame (c := (.read fh size offset, now)) hproper trivial).2.2

theorem volOk_viewAfter (h : VolOk sb (vol sb v) live) {ok : Vol → UserCall → Prop}
    (hproper : AllProper sb ok v cs) : ∃ live', VolOk sb (vol sb (viewAfter sb v cs)) live' := by
  induction cs generalizing v live with
  | nil => exact ⟨live, h⟩
  | cons c cs ih =>
      obtain ⟨live', h'⟩ := volOk_afterCall hs hroot h hproper.1
      exact ih h' hproper.2.2

end Order

/-! ## After a format and a mount -/

section Mounted
variable {host : Except Errno Unit} {totalBlocks journalLen now : UInt64} {mode : DataMode} {d d₁ d₂ : Disk}
  {sb : Super} {j : Journal}
  (hformat : run faultless (fsFormat host totalBlocks journalLen mode now).run d = (.ok (), d₁))
  (hmount : run faultless (fsMount ⟨totalBlocks⟩).run d₁ = (.ok (sb, j), d₂))
include hformat hmount

/-- The format writes nothing to the journal's region. -/
theorem freshRegion_mounted (hfits : TableFits totalBlocks) (hsome : 0 < journalLen)
    (hzero : ZeroRegion j d.view) : FreshRegion j d₂.view := by
  have hvol := onVolume_mounted hformat hmount hfits hsome
  have hbelow := hvol.below
  have hafter := hvol.placed.after_jsuper
  obtain ⟨-, -, -, hview, rfl, hfresh⟩ := laidOut_mounted hformat hmount
  obtain ⟨hbitmaps, htable, hdata, -⟩ := hvol.layout.regions
  have hends := hvol.layout.ends
  have hdev := sb.dataStart.toNat_lt
  refine ⟨hvol.placed, ⟨rfl, rfl, rfl⟩, ?_, hfresh.jsuper.1, hfresh.jsuper.2⟩
  rintro b hb
  have hlow := hb.1
  have hhigh := hb.2
  dsimp only at hlow hhigh hbelow hafter
  have hne : ∀ {a : UInt64}, a.toNat ≠ b.toNat → b ≠ a := fun h he => h (congrArg UInt64.toNat he.symm)
  have hsuper : superBlockno.toNat = 1 := rfl
  have hjsuper : jsuperBlockno.toNat = 2 := rfl
  rw [hview, applyWrites_formatWrites, Function.update_of_ne (hne (by omega)), Function.update_of_ne (hne (by omega)),
    Function.update_of_ne (hne (by omega)), zeroWrites_of_outside (by omega) (.inl (by omega)),
    Function.update_of_ne (hne (by omega)), Function.update_of_ne (hne (by omega)),
    Function.update_of_ne (hne (by omega))]
  exact hzero b hb

theorem crashOk_of_run (hfits : TableFits totalBlocks) (hsome : 0 < journalLen) (hzero : ZeroRegion j d.view)
    {mode' : DataMode} {s : Mounted} (hrun : Run (Mounted.step sb) (crashRules j) (Mounted.boot j d₂ mode') s) :
    CrashOk sb (onVolume_mounted hformat hmount hfits hsome).placed mode' d₂.view s := by
  have hvol := onVolume_mounted hformat hmount hfits hsome
  have hfresh := freshRegion_mounted hformat hmount hfits hsome hzero
  rw [settled_mounted hformat hmount hvol.layout] at hrun
  exact hrun.invariant (crashOk_boot hvol hfresh fun b _ => bounded_view_mounted hformat hmount hfits b)
    (crashOk_preserved hvol)

/-- An image with the superblock of the format, and a log that can be recovered, is one the mount accepts. -/
theorem remounts_of_recoversTo (hvol : OnVolume sb j) {i target : Image} (hsuper : i superBlockno = d₂.view superBlockno)
    (hrec : RecoversTo j i target) : ∃ j' d', run faultless (fsMount ⟨totalBlocks⟩).run (settled i) = (.ok (sb, j'), d') ∧
      ∀ b, Home j b → d'.view b = target b := by
  obtain ⟨hsb, -, -, -, hj, hlaid⟩ := laidOut_mounted hformat hmount
  rw [hlaid.super] at hsuper
  exact run_fsMount_of_recoversTo hj (by have hlt := jsuper_lt hvol.placed; rw [hj] at hlt; exact hlt) hsuper
    (by rw [hsb]; rfl) (by rw [hsb, superChecksum_formatSuper]) (toNat_formatSuper sb hsb).1 hrec

/-- What survives a crash of such a state is an image the mount accepts. -/
theorem CrashOk.remounts (hvol : OnVolume sb j) {s : Mounted} {mode' : DataMode}
    (hok : CrashOk sb hvol.placed mode' d₂.view s) {i : Image} (hi : Survives s.disk i) :
    ∃ k j' d', s.durable ≤ k ∧ k ≤ s.returned.length ∧
      run faultless (fsMount ⟨totalBlocks⟩).run (settled i) = (.ok (sb, j'), d') ∧
        ∀ b, Home j b → d'.view b = viewAfter sb d₂.view (s.returned.take k) b := by
  obtain ⟨k, hdurable, hlen, hrec⟩ := hok.recoversTo hvol hi
  obtain ⟨hhome, hfs⟩ := hvol.reserved_super
  obtain ⟨j', d', hremount, hcontent⟩ :=
    remounts_of_recoversTo hformat hmount hvol (hok.reserved hvol hi hhome hfs) hrec
  exact ⟨k, j', d', hdurable, hlen, hremount, hcontent⟩

section Crash
variable (hfits : TableFits totalBlocks) (hsome : 0 < journalLen) (hzero : ZeroRegion j d.view) {mode' : DataMode}
  {s : Mounted} (hrun : Run (Mounted.step sb) (crashRules j) (Mounted.boot j d₂ mode') s) {i : Image}
  (hi : Survives s.disk i)
include hfits hsome hzero hrun hi

/-- A crash at any point leaves an image the next mount accepts, with the blocks of the file system as
some of the calls that had returned left them, the durable ones among them, one after the other. -/
theorem remounts_of_run : ∃ k j' d', s.durable ≤ k ∧ k ≤ s.returned.length ∧
    run faultless (fsMount ⟨totalBlocks⟩).run (settled i) = (.ok (sb, j'), d') ∧
      ∀ b, Home j b → d'.view b = viewAfter sb d₂.view (s.returned.take k) b :=
  (crashOk_of_run hformat hmount hfits hsome hzero hrun).remounts hformat hmount
    (onVolume_mounted hformat hmount hfits hsome) hi

/-- If the kernel has made its checks, that image is in order too. -/
theorem inOrder_of_crash (hproper : AllProper sb (fun _ _ => True) d₂.view s.returned) :
    ∃ j' d', run faultless (fsMount ⟨totalBlocks⟩).run (settled i) = (.ok (sb, j'), d') ∧
      BlocksOwned sb d'.view ∧ NamespaceOk (vol sb d'.view) := by
  have hvol := onVolume_mounted hformat hmount hfits hsome
  obtain ⟨hs, hroot, hstart⟩ := volOk_mounted hformat hfits hmount
  obtain ⟨k, j', d', -, -, hremount, hcontent⟩ :=
    (crashOk_of_run hformat hmount hfits hsome hzero hrun).remounts hformat hmount hvol hi
  obtain ⟨live, hok⟩ := volOk_viewAfter hs hroot hstart (hproper.upTo k)
  rw [← vol_congr_fs hs fun b hb => hcontent b (hvol.home hb)] at hok
  exact ⟨j', d', hremount, hok.blocksOwned, hok.namespaceOk⟩

end Crash
end Mounted

section Small

/-- Two of the three calls are durable, the third one's commit is under way. -/
theorem run_small : ∃ s : Mounted,
    Run (Mounted.step (formatSuper 128 64 .ordered)) (crashRules mountedJournal) smallMount s ∧
      s.returned = [smallCreate, smallWrite, smallMkdir] ∧ s.durable = 2 ∧ s.disk.pending ≠ [] ∧ s.current = none ∧
      endsFreeze ⟨requestShutdown s.mgr, s.disk, s.pc⟩ = false := by
  obtain ⟨s, hrun, hend⟩ := exists_run_of_exec (Mounted.step (formatSuper 128 64 .ordered)) (crashRules mountedJournal)
    smallMount commitUnderWay
    (fun s => decide (s.returned = [smallCreate, smallWrite, smallMkdir] ∧ s.durable = 2 ∧ s.disk.pending ≠ [] ∧
      s.current.isNone = true ∧ endsFreeze ⟨requestShutdown s.mgr, s.disk, s.pc⟩ = false)) (by decide +kernel)
  obtain ⟨hreturned, hdurable, hpending, hdone, hbusy⟩ := of_decide_eq_true hend
  exact ⟨s, hrun, hreturned, hdurable, hpending, Option.isNone_iff_eq_none.mp hdone, hbusy⟩

theorem live_small : Live (vol (formatSuper 128 64 .ordered)
    (afterCall (formatSuper 128 64 .ordered) smallDisk.flush.view smallCreate)) 2 := by
  have hentry : (vol (formatSuper 128 64 .ordered)
      (afterCall (formatSuper 128 64 .ordered) smallDisk.flush.view smallCreate)).entry rootIno
        (⟨0, by decide⟩, ⟨2, by decide⟩) = some ⟨2, ftReg, [0x61]⟩ := by decide +kernel
  exact .entry .root hentry

theorem proper_small : AllProper (formatSuper 128 64 .ordered) (fun _ _ => True) smallDisk.flush.view
    [smallCreate, smallWrite, smallMkdir] := by
  refine ⟨properName_a, trivial, ?_, trivial, ?_, trivial, trivial⟩
  · rintro i ⟨⟩
    exact ⟨live_small, by decide +kernel⟩
  · intro parent name hsplit
    cases hsplit
    decide

/-- The image that survives has none of the writes under way. -/
theorem remounts_small : ∃ s : Mounted, s.returned = [smallCreate, smallWrite, smallMkdir] ∧ s.durable = 2 ∧
    s.disk.pending ≠ [] ∧ ∃ k j' d', s.durable ≤ k ∧ k ≤ s.returned.length ∧
      run faultless (fsMount ⟨128⟩).run (settled s.disk.durable) = (.ok (formatSuper 128 64 .ordered, j'), d') ∧
        ∀ b, Home mountedJournal b → d'.view b =
          viewAfter (formatSuper 128 64 .ordered) smallDisk.flush.view (s.returned.take k) b := by
  obtain ⟨s, hrun, hreturned, hdurable, hpending, -⟩ := run_small
  exact ⟨s, hreturned, hdurable, hpending, remounts_of_run run_format_small run_fsMount_small (by decide) (by decide)
    (fun _ _ => rfl) hrun (survives_durable _)⟩

theorem inOrder_small : ∃ s : Mounted, s.returned = [smallCreate, smallWrite, smallMkdir] ∧ s.durable = 2 ∧
    s.disk.pending ≠ [] ∧ ∃ j' d',
      run faultless (fsMount ⟨128⟩).run (settled s.disk.durable) = (.ok (formatSuper 128 64 .ordered, j'), d') ∧
        BlocksOwned (formatSuper 128 64 .ordered) d'.view ∧ NamespaceOk (vol (formatSuper 128 64 .ordered) d'.view) := by
  obtain ⟨s, hrun, hreturned, hdurable, hpending, -⟩ := run_small
  exact ⟨s, hreturned, hdurable, hpending, inOrder_of_crash run_format_small run_fsMount_small (by decide) (by decide)
    (fun _ _ => rfl) hrun (survives_durable _) (hreturned ▸ proper_small)⟩

end Small
end Logfs
