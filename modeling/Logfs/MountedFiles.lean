import Logfs.Files
import Logfs.MountedNamespace
import Logfs.MountedUnmount

/-!
# The files of a mounted image

From the format on, the calls and the replies they got account for all that is in the file system: while
it is mounted, after a crash, and after it is unmounted.
-/
namespace Logfs
open Interaction WriteCache NameTree Transition

/-- The calls, with these replies, lead from the one namespace with its files to the other. -/
inductive Files.Leads : Namespace → Files → List UserCall → List (Except Errno Reply) → Namespace → Files → Prop
  | nil (T : Namespace) (F : Files) : Leads T F [] [] T F
  | cons {T T' T'' : Namespace} {F F' F'' : Files} {c : UserCall} {r : Except Errno Reply} {cs : List UserCall}
      {rs : List (Except Errno Reply)} (names : T.Step c r T') (files : F.Step T c r F')
      (rest : Leads T' F' cs rs T'' F'') : Leads T F (c :: cs) (r :: rs) T'' F''

theorem Files.Leads.append {T T' T'' : Namespace} {F F' F'' : Files} {cs cs' : List UserCall}
    {rs rs' : List (Except Errno Reply)} (h : Files.Leads T F cs rs T' F') (h' : Files.Leads T' F' cs' rs' T'' F'') :
    Files.Leads T F (cs ++ cs') (rs ++ rs') T'' F'' := by
  induction h with
  | nil => exact h'
  | cons names files _ ih => exact .cons names files (ih h')

/-- What the volume holds is what the calls have put into an empty one, as far as their replies say. -/
def AccountFor (cs : List (UserCall × UInt64)) (rs : List (Except Errno Reply)) (V : Vol) : Prop :=
  Files.Leads .fresh (fun _ => none) (cs.map Prod.fst) rs V.names V.files

/-- A volume whose root alone is live has no files. -/
theorem files_fresh {sb : Super} {V : Vol} (h : VolOk sb V {rootIno}) : V.files = fun _ => none := by
  funext i
  rw [files_eq_none]
  intro hfile
  obtain ⟨hi, hreg⟩ := mem_of_hasFile h.named hfile
  obtain rfl : i = rootIno := hi
  rw [h.named.rootDir] at hreg
  cases hreg

section Runs
variable {sb : Super} {v : Image} {live : Set UInt32} {cs : List (UserCall × UInt64)}
  (hs : LayoutSound sb) (hroot : sb.rootIno = rootIno)
include hs hroot

theorem files_of_proper (h : VolOk sb (vol sb v) live) {ok : Vol → UserCall → Prop} (hproper : AllProper sb ok v cs) :
    Files.Leads (vol sb v).names (vol sb v).files (cs.map Prod.fst) (replies sb v cs)
      (vol sb (viewAfter sb v cs)).names (vol sb (viewAfter sb v cs)).files := by
  induction cs generalizing v live with
  | nil => exact .nil _ _
  | cons c cs ih =>
      obtain ⟨live', h'⟩ := volOk_afterCall hs hroot h hproper.1
      exact .cons (step_afterCall hs hroot h hproper.1) (files_afterCall hs hroot h hproper.1) (ih h' hproper.2.2)

theorem accountFor_of_proper (h : VolOk sb (vol sb v) {rootIno}) {ok : Vol → UserCall → Prop}
    (hproper : AllProper sb ok v cs) : AccountFor cs (replies sb v cs) (vol sb (viewAfter sb v cs)) := by
  unfold AccountFor
  rw [← names_fresh h, ← files_fresh h]
  exact files_of_proper hs hroot h hproper

end Runs

/-! ## After a format and a mount -/

section Mounted
variable {host : Except Errno Unit} {totalBlocks journalLen now : UInt64} {mode : DataMode} {d d₁ d₂ : Disk}
  {sb : Super} {j : Journal}
  (hformat : run faultless (fsFormat host totalBlocks journalLen mode now).run d = (.ok (), d₁))
  (hmount : run faultless (fsMount ⟨totalBlocks⟩).run d₁ = (.ok (sb, j), d₂))
include hformat hmount

/-- A mount that finds what the calls have left. -/
theorem accountFor_found (hfits : TableFits totalBlocks) (hsome : 0 < journalLen) {cs : List (UserCall × UInt64)}
    (hproper : AllProper sb (fun _ _ => True) d₂.view cs) {v : Image}
    (hcontent : ∀ b, Home j b → v b = viewAfter sb d₂.view cs b) :
    AccountFor cs (replies sb d₂.view cs) (vol sb v) := by
  have hvol := onVolume_mounted hformat hmount hfits hsome
  obtain ⟨hs, hroot, hstart⟩ := volOk_mounted hformat hfits hmount
  rw [vol_congr_fs hs fun b hb => hcontent b (hvol.home hb)]
  exact accountFor_of_proper hs hroot hstart hproper

/-- The first of the calls, all that were durable among them, account for what a mount finds after a crash. -/
theorem accountFor_remount (hfits : TableFits totalBlocks) (hsome : 0 < journalLen) (hvol : OnVolume sb j)
    {mode' : DataMode} {s : Mounted} (hok : CrashOk sb hvol.placed mode' d₂.view s)
    (hproper : AllProper sb (fun _ _ => True) d₂.view s.returned) {i : Image} (hi : Survives s.disk i) :
    ∃ k j' d', s.durable ≤ k ∧ k ≤ s.returned.length ∧
      run faultless (fsMount ⟨totalBlocks⟩).run (settled i) = (.ok (sb, j'), d') ∧
        AccountFor (s.returned.take k) (s.replied.take k) (vol sb d'.view) := by
  obtain ⟨k, j', d', hdurable, hlen, hremount, hcontent⟩ := hok.remounts hformat hmount hvol hi
  refine ⟨k, j', d', hdurable, hlen, hremount, ?_⟩
  rw [hok.replied, take_replies]
  exact accountFor_found hformat hmount hfits hsome (hproper.upTo k) hcontent

/-- The calls that have returned account for what those to come will see; the first of them, all that were
durable among these, account for what a mount finds after a crash. -/
theorem accountFor_of_run (hfits : TableFits totalBlocks) (hsome : 0 < journalLen) (hzero : ZeroRegion j d.view)
    {mode' : DataMode} {s : Mounted} (hrun : Run (Mounted.step sb) (crashRules j) (Mounted.boot j d₂ mode') s)
    (hproper : AllProper sb (fun _ _ => True) d₂.view s.returned) :
    AccountFor s.returned s.replied (vol sb (viewAfter sb d₂.view s.returned)) ∧
      ∀ i, Survives s.disk i → ∃ k j' d', s.durable ≤ k ∧ k ≤ s.returned.length ∧
        run faultless (fsMount ⟨totalBlocks⟩).run (settled i) = (.ok (sb, j'), d') ∧
          AccountFor (s.returned.take k) (s.replied.take k) (vol sb d'.view) := by
  have hvol := onVolume_mounted hformat hmount hfits hsome
  have hok := crashOk_of_run hformat hmount hfits hsome hzero hrun
  refine ⟨?_, fun i hi => accountFor_remount hformat hmount hfits hsome hvol hok hproper hi⟩
  rw [hok.replied]
  exact accountFor_found hformat hmount hfits hsome hproper fun _ _ => rfl

/-- After an unmount the calls before the last freeze account for what the next mount finds, and all of them
if nothing was staged. -/
theorem accountFor_of_unmount (hfits : TableFits totalBlocks) (hsome : 0 < journalLen) {mode' : DataMode}
    {s : Mounted} (hrun : Run (Mounted.step sb) (mountRules j) (Mounted.boot j d₂ mode') s)
    (hproper : AllProper sb (fun _ _ => True) d₂.view s.returned) (hdone : s.current = none)
    (hrules : mountRules j s.unmount .thread) :
    ∃ c, c ∈ StateTransition.eval threadStep s.unmount.toCore ∧ (∃ j', c.pc = .exited j') ∧
      ∀ i, Survives c.disk i →
        run faultless (fsMount ⟨totalBlocks⟩).run (settled i) = (.ok (sb, j), settled i) ∧
        AccountFor (s.returned.take s.kept) (s.replied.take s.kept) (vol sb i) ∧
        (stagedNodes s.mgr = [] → AccountFor s.returned s.replied (vol sb i)) := by
  have hvol := onVolume_mounted hformat hmount hfits hsome
  have hok := orderly_of_run hformat hmount hfits hsome hrun
  obtain ⟨c, hexit, hpc⟩ := hok.toMountedOk.exits hdone
  refine ⟨c, hexit, hpc, fun i hi => ?_⟩
  obtain ⟨hclean, hkept, hall⟩ :=
    hok.cleanImage hvol (cleanImage_mounted hformat hmount hfits hsome) hdone hrules hexit hi
  refine ⟨hclean.mounts hformat hmount, ?_, fun hnone => ?_⟩
  · rw [hok.replied, take_replies]
    exact accountFor_found hformat hmount hfits hsome (hproper.upTo s.kept) hkept
  · rw [hok.replied]
    exact accountFor_found hformat hmount hfits hsome hproper (hall hnone)

end Mounted

section Small

/-- A crash leaves what the calls so far, two at least of the three, have made of the files. -/
theorem accountFor_small : ∃ s : Mounted, s.returned = [smallCreate, smallWrite, smallMkdir] ∧ s.durable = 2 ∧
    s.disk.pending ≠ [] ∧
    AccountFor s.returned s.replied (vol (formatSuper 128 64 .ordered)
      (viewAfter (formatSuper 128 64 .ordered) smallDisk.flush.view s.returned)) ∧
      ∀ i, Survives s.disk i → ∃ k j' d', s.durable ≤ k ∧ k ≤ s.returned.length ∧
        run faultless (fsMount ⟨128⟩).run (settled i) = (.ok (formatSuper 128 64 .ordered, j'), d') ∧
          AccountFor (s.returned.take k) (s.replied.take k) (vol (formatSuper 128 64 .ordered) d'.view) := by
  obtain ⟨s, hrun, hreturned, hdurable, hpending, -⟩ := run_small
  exact ⟨s, hreturned, hdurable, hpending, accountFor_of_run run_format_small run_fsMount_small (by decide) (by decide)
    (fun _ _ => rfl) hrun (hreturned ▸ proper_small)⟩

theorem accountFor_unmount_small : ∃ s : Mounted, s.returned = [smallCreate, smallWrite, smallMkdir] ∧
    s.durable = 2 ∧ s.disk.pending ≠ [] ∧
    ∃ c, c ∈ StateTransition.eval threadStep s.unmount.toCore ∧ (∃ j', c.pc = .exited j') ∧
      ∀ i, Survives c.disk i →
        run faultless (fsMount ⟨128⟩).run (settled i) =
          (.ok (formatSuper 128 64 .ordered, mountedJournal), settled i) ∧
        AccountFor (s.returned.take s.kept) (s.replied.take s.kept) (vol (formatSuper 128 64 .ordered) i) ∧
        (stagedNodes s.mgr = [] → AccountFor s.returned s.replied (vol (formatSuper 128 64 .ordered) i)) := by
  obtain ⟨s, hrun, hreturned, hdurable, hpending, hdone, hrules⟩ := run_mounted_small
  exact ⟨s, hreturned, hdurable, hpending, accountFor_of_unmount run_format_small run_fsMount_small (by decide)
    (by decide) hrun (hreturned ▸ proper_small) hdone hrules⟩

end Small
end Logfs
