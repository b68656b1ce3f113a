import Logfs.MountedFiles

/-!
# Sessions

A formatted image may be mounted, used and unmounted any number of times. The log is never cleared, and
each session begins again at its start with number 1, but an unmount leaves it marked empty, so that the
next mount takes nothing from it.
-/
namespace Logfs
open Interaction WriteCache Transition

/-- Sessions from the device on, with the calls of all of them and their replies: each a mount, a run that
ends with nothing staged and no call under way, an unmount, and whatever survives of its device. -/
inductive CleanSessions (totalBlocks : UInt64) (d₀ : Disk) :
    List (UserCall × UInt64) → List (Except Errno Reply) → Disk → Prop
  | none : CleanSessions totalBlocks d₀ [] [] d₀
  | session {cs : List (UserCall × UInt64)} {rs : List (Except Errno Reply)} {e e' : Disk} {sb : Super} {j : Journal}
      {mode : DataMode} {s : Mounted} {c : Core} {i : Image} (before : CleanSessions totalBlocks d₀ cs rs e)
      (mounted : run faultless (fsMount ⟨totalBlocks⟩).run e = (.ok (sb, j), e'))
      (runs : Run (Mounted.step sb) (mountRules j) (Mounted.boot j e' mode) s)
      (proper : AllProper sb (fun _ _ => True) e'.view s.returned)
      (done : s.current = none) (unstaged : stagedNodes s.mgr = [])
      (exits : c ∈ StateTransition.eval threadStep s.unmount.toCore) (left : Survives c.disk i) :
      CleanSessions totalBlocks d₀ (cs ++ s.returned) (rs ++ s.replied) (settled i)

section Mounted
variable {host : Except Errno Unit} {totalBlocks journalLen now : UInt64} {mode : DataMode} {d d₁ d₂ : Disk}
  {sb : Super} {j : Journal}

/-- The device between two sessions: it is mounted as it is, and all the calls so far account for it. -/
structure BetweenSessions (totalBlocks : UInt64) (sb : Super) (j : Journal) (cs : List (UserCall × UInt64))
    (rs : List (Except Errno Reply)) (e : Disk) (v : Image) : Prop where
  clean : CleanImage sb j v
  mounts : run faultless (fsMount ⟨totalBlocks⟩).run e = (.ok (sb, j), settled v)
  ordered : ∃ live, VolOk sb (vol sb v) live
  account : AccountFor cs rs (vol sb v)

/-- The calls of a further session go on from there. -/
theorem BetweenSessions.further {cs cs' : List (UserCall × UInt64)} {rs : List (Except Errno Reply)} {e : Disk}
    {v : Image} (h : BetweenSessions totalBlocks sb j cs rs e v) (hs : LayoutSound sb) (hroot : sb.rootIno = rootIno)
    (hproper : AllProper sb (fun _ _ => True) v cs') :
    AccountFor (cs ++ cs') (rs ++ replies sb v cs') (vol sb (viewAfter sb v cs')) := by
  obtain ⟨live, hvol⟩ := h.ordered
  have hmore := files_of_proper hs hroot hvol hproper
  unfold AccountFor
  rw [List.map_append]
  exact Files.Leads.append h.account hmore

variable (hformat : run faultless (fsFormat host totalBlocks journalLen mode now).run d = (.ok (), d₁))
  (hmount : run faultless (fsMount ⟨totalBlocks⟩).run d₁ = (.ok (sb, j), d₂))
include hformat hmount

theorem between_boot (hfits : TableFits totalBlocks) (hsome : 0 < journalLen) :
    BetweenSessions totalBlocks sb j [] [] d₁ d₂.view := by
  obtain ⟨hs, hroot, hstart⟩ := volOk_mounted hformat hfits hmount
  refine ⟨cleanImage_mounted hformat hmount hfits hsome, ?_, ⟨_, hstart⟩, ?_⟩
  · rw [← settled_mounted hformat hmount hs]
    exact hmount
  · have hnone : AllProper sb (fun _ _ => True) d₂.view [] := trivial
    exact accountFor_of_proper hs hroot hstart hnone

theorem between_sessions (hfits : TableFits totalBlocks) (hsome : 0 < journalLen) {cs : List (UserCall × UInt64)}
    {rs : List (Except Errno Reply)} {e : Disk} (h : CleanSessions totalBlocks d₁ cs rs e) :
    ∃ v, BetweenSessions totalBlocks sb j cs rs e v := by
  have hvol := onVolume_mounted hformat hmount hfits hsome
  obtain ⟨hs, hroot, -⟩ := volOk_mounted hformat hfits hmount
  induction h with
  | none => exact ⟨_, between_boot hformat hmount hfits hsome⟩
  | @session cs rs e e' sb' j' mode s c i before mounted runs proper done unstaged exits left ih =>
      obtain ⟨v, hbetween⟩ := ih
      rw [hbetween.mounts] at mounted
      cases mounted
      have hok := runs.invariant (orderly_boot hbetween.clean) (orderly_preserved hvol)
      obtain ⟨hclean, -, hall⟩ := hok.cleanImage hvol hbetween.clean done (fun _ hsome => absurd unstaged hsome) exits left
      have hcontent := hall unstaged
      obtain ⟨live, hstart⟩ := hbetween.ordered
      obtain ⟨live', hend⟩ := volOk_viewAfter hs hroot hstart proper
      have hsame := vol_congr_fs hs fun b hb => hcontent b (hvol.home hb)
      refine ⟨i, hclean, hclean.mounts hformat hmount, ⟨live', hsame ▸ hend⟩, ?_⟩
      rw [hsame, hok.replied]
      exact hbetween.further hs hroot proper

/-- However many sessions there have been, the device is mounted, and all their calls account for what the
mount finds; so do they, with those of the session that follows, at each point of it, and this one can be
unmounted whenever no call is under way. -/
theorem accountFor_of_sessions (hfits : TableFits totalBlocks) (hsome : 0 < journalLen)
    {cs : List (UserCall × UInt64)} {rs : List (Except Errno Reply)} {e : Disk}
    (h : CleanSessions totalBlocks d₁ cs rs e) :
    ∃ e', run faultless (fsMount ⟨totalBlocks⟩).run e = (.ok (sb, j), e') ∧
      AccountFor cs rs (vol sb e'.view) ∧ BlocksOwned sb e'.view ∧ NamespaceOk (vol sb e'.view) ∧
      ∀ mode' s, Run (Mounted.step sb) (mountRules j) (Mounted.boot j e' mode') s →
        (AllProper sb (fun _ _ => True) e'.view s.returned →
          AccountFor (cs ++ s.returned) (rs ++ s.replied) (vol sb (viewAfter sb e'.view s.returned))) ∧
        (s.current = none → ∃ c, c ∈ StateTransition.eval threadStep s.unmount.toCore ∧ ∃ j', c.pc = .exited j') := by
  have hvol := onVolume_mounted hformat hmount hfits hsome
  obtain ⟨hs, hroot, -⟩ := volOk_mounted hformat hfits hmount
  obtain ⟨v, hbetween⟩ := between_sessions hformat hmount hfits hsome h
  obtain ⟨live, hok⟩ := hbetween.ordered
  refine ⟨settled v, hbetween.mounts, hbetween.account, hok.blocksOwned, hok.namespaceOk, fun mode' s hrun => ?_⟩
  have hmounted := hrun.invariant (mountedOk_boot hbetween.clean.opened hbetween.clean.bounded) (mountedOk_preserved hvol)
  refine ⟨fun hproper => ?_, hmounted.exits⟩
  rw [hmounted.replied]
  exact hbetween.further hs hroot hproper

end Mounted

section Small

theorem eval_of_exec {c c' : Core} {as : List Unit} (hexec : exec (fun c (_ : Unit) => threadStep c) as c = some c')
    (hstop : threadStep c' = none) : c' ∈ StateTransition.eval threadStep c := by
  refine StateTransition.mem_eval.mpr ⟨?_, hstop⟩
  induction as generalizing c with
  | nil =>
      cases hexec
      exact .refl
  | cons a as ih =>
      obtain ⟨e, hnow, hrest⟩ := Option.bind_eq_some_iff.mp hexec
      exact .head hnow (ih hrest)

def firstSession : List MountAction := wholeCall smallCreate 15 ++ .commitSync :: List.replicate 14 .thread

/-- The file the first session has made is written to. -/
def secondSession : List MountAction := wholeCall smallWrite 11 ++ .commitSync :: [.thread]

/-- No call is under way, and nothing is staged. -/
def Mounted.quiet (s : Mounted) : Bool :=
  s.current.isNone && (stagedNodes s.mgr).isEmpty && s.mgr.runningHandles == 0

theorem Mounted.quiet_iff {s : Mounted} :
    s.quiet = true ↔ s.current = none ∧ stagedNodes s.mgr = [] ∧ s.mgr.runningHandles = 0 := by
  simp [Mounted.quiet, and_assoc]

/-- Both sessions commit. -/
theorem run_twice_small : ∃ (s : Mounted) (c : Core) (s' : Mounted),
    Run (Mounted.step (formatSuper 128 64 .ordered)) (mountRules mountedJournal) smallMount s ∧
      s.returned = [smallCreate] ∧ s.durable = 1 ∧ s.quiet = true ∧
      c ∈ StateTransition.eval threadStep s.unmount.toCore ∧
      Run (Mounted.step (formatSuper 128 64 .ordered)) (mountRules mountedJournal)
        (.boot mountedJournal (settled c.disk.durable) .journal) s' ∧
      s'.returned = [smallWrite] ∧ s'.quiet = true := by
  obtain ⟨s, hrun, hend⟩ := exists_run_of_exec (Mounted.step (formatSuper 128 64 .ordered)) (mountRules mountedJournal)
    smallMount firstSession
    (fun s => decide (s.returned = [smallCreate] ∧ s.durable = 1 ∧ s.quiet = true) &&
      (exec (fun c (_ : Unit) => threadStep c) (List.replicate 11 ()) s.unmount.toCore).any fun c =>
        (threadStep c).isNone &&
          (exec (guarded (Mounted.step (formatSuper 128 64 .ordered)) (mountRules mountedJournal)) secondSession
            (.boot mountedJournal (settled c.disk.durable) .journal)).any fun (s' : Mounted) =>
              decide (s'.returned = [smallWrite] ∧ s'.quiet = true)) (by decide +kernel)
  obtain ⟨hfirst, hrest⟩ := Bool.and_eq_true_iff.mp hend
  obtain ⟨hreturned, hdurable, hquiet⟩ := of_decide_eq_true hfirst
  obtain ⟨c, hc, hrest⟩ := (Option.any_eq_true _ _).mp hrest
  obtain ⟨hstop, hsecond⟩ := Bool.and_eq_true_iff.mp hrest
  obtain ⟨s', hrun', hend'⟩ := exists_run_of_exec _ _ _ secondSession _ hsecond
  exact ⟨s, c, s', hrun, hreturned, hdurable, hquiet, eval_of_exec hc (Option.isNone_iff_eq_none.mp hstop), hrun',
    of_decide_eq_true hend'⟩

/-- The second session writes over the records of the first. -/
theorem cleanSessions_small : ∃ rs e, CleanSessions 128 smallDisk [smallCreate, smallWrite] rs e := by
  obtain ⟨s, c, s', hrun, hreturned, -, hquiet, hexit, hrun', hreturned', hquiet'⟩ := run_twice_small
  obtain ⟨hdone, hnone, -⟩ := Mounted.quiet_iff.mp hquiet
  obtain ⟨hdone', hnone', hhandles⟩ := Mounted.quiet_iff.mp hquiet'
  have hfirst : CleanSessions 128 smallDisk [smallCreate] ([] ++ s.replied) (settled c.disk.durable) := by
    have h := CleanSessions.session .none run_fsMount_small hrun (hreturned ▸ proper_small.upTo 1) hdone hnone hexit
      (survives_durable c.disk)
    rwa [hreturned] at h
  have hok := orderly_of_run run_format_small run_fsMount_small (by decide) (by decide) hrun
  have hvol := onVolume_mounted run_format_small run_fsMount_small (by decide) (by decide)
  obtain ⟨hclean, -, hcontent⟩ := hok.cleanImage hvol
    (cleanImage_mounted run_format_small run_fsMount_small (by decide) (by decide)) hdone
    (fun _ hsome => absurd hnone hsome) hexit (survives_durable c.disk)
  obtain ⟨c', hexit', -⟩ := exits_of_quiet hhandles
  have hproper : AllProper (formatSuper 128 64 .ordered) (fun _ _ => True) (settled c.disk.durable : Disk).view
      [smallWrite] := by
    have hsame := vol_congr_fs hvol.layout fun b hb => hcontent hnone b (hvol.home hb)
    rw [hreturned] at hsame
    refine ⟨fun i hi => ?_, trivial, trivial⟩
    rw [view_settled, hsame]
    exact proper_small.2.2.1 i hi
  have h := hfirst.session (hclean.mounts run_format_small run_fsMount_small) hrun' (hreturned' ▸ hproper) hdone' hnone'
    hexit' (survives_durable c'.disk)
  rw [hreturned'] at h
  exact ⟨_, _, h⟩

theorem accountFor_sessions_small : ∃ rs e, CleanSessions 128 smallDisk [smallCreate, smallWrite] rs e ∧
    ∃ e', run faultless (fsMount ⟨128⟩).run e = (.ok (formatSuper 128 64 .ordered, mountedJournal), e') ∧
      AccountFor [smallCreate, smallWrite] rs (vol (formatSuper 128 64 .ordered) e'.view) := by
  obtain ⟨rs, e, h⟩ := cleanSessions_small
  obtain ⟨e', hmount, haccount, -⟩ :=
    accountFor_of_sessions run_format_small run_fsMount_small (by decide) (by decide) h
  exact ⟨rs, e, h, e', hmount, haccount⟩

end Small
end Logfs
