import Logfs.MountedCrash
import Logfs.NamespaceCalls

/-!
# The namespace of a mounted image

What the callers see from the format on: each reply is one the namespace allows, also with the commit
thread at work, and a crash takes the namespace back to what some of the calls have made of it.
-/
namespace Logfs
open Interaction WriteCache NameTree Transition

section Runs
variable {sb : Super} {v : Image} {live : Set UInt32} {cs : List (UserCall × UInt64)}

theorem take_replies (k : ℕ) : (replies sb v cs).take k = replies sb v (cs.take k) := by
  induction cs generalizing v k with
  | nil => simp [replies]
  | cons c cs ih =>
      cases k with
      | zero => rfl
      | succ k => exact congrArg (_ :: ·) (ih k)

variable (hs : LayoutSound sb) (hroot : sb.rootIno = rootIno)
include hs hroot

theorem leads_of_proper (h : VolOk sb (vol sb v) live) {ok : Vol → UserCall → Prop} (hproper : AllProper sb ok v cs) :
    Namespace.Leads (vol sb v).names (cs.map Prod.fst) (replies sb v cs) (vol sb (viewAfter sb v cs)).names := by
  induction cs generalizing v live with
  | nil => exact .nil _
  | cons c cs ih =>
      obtain ⟨live', h'⟩ := volOk_afterCall hs hroot h hproper.1
      exact .cons (step_afterCall hs hroot h hproper.1) (ih h' hproper.2.2)

end Runs

/-- A volume whose root alone is live. -/
theorem names_fresh {sb : Super} {V : Vol} (h : VolOk sb V {rootIno}) : V.names = .fresh := by
  ext1 p
  rw [Namespace.fresh, Function.update_apply]
  split
  · next hnil =>
      subst hnil
      exact congrArg (fun dir => some (Node.mk rootIno dir)) h.named.rootDir
  · next hne =>
      rw [Vol.names, Option.map_eq_none_iff]
      by_contra hsome
      obtain ⟨i, hi⟩ := Option.ne_none_iff_exists'.mp hsome
      have hmem := mem_of_follow h.named hi
      obtain rfl : i = rootIno := hmem
      exact hne (h.named.rooted.follow_inj (q := []) hi rfl)

/-! ## After a format and a mount -/

section Mounted
variable {host : Except Errno Unit} {totalBlocks journalLen now : UInt64} {mode : DataMode} {d d₁ d₂ : Disk}
  {sb : Super} {j : Journal}
  (hformat : run faultless (fsFormat host totalBlocks journalLen mode now).run d = (.ok (), d₁))
  (hmount : run faultless (fsMount ⟨totalBlocks⟩).run d₁ = (.ok (sb, j), d₂))
include hformat hmount

/-- From an empty namespace, the calls and their replies lead to that of the volume. -/
theorem leads_of_calls (hfits : TableFits totalBlocks) {cs : List (UserCall × UInt64)}
    (hproper : AllProper sb (fun _ _ => True) d₂.view cs) :
    Namespace.Leads .fresh (cs.map Prod.fst) (replies sb d₂.view cs) (vol sb (viewAfter sb d₂.view cs)).names := by
  obtain ⟨hs, hroot, hstart⟩ := volOk_mounted hformat hfits hmount
  rw [← names_fresh hstart]
  exact leads_of_proper hs hroot hstart hproper

/-- After a crash, the calls that have left their mark, with the replies they got, lead to the namespace
the next mount finds. -/
theorem leads_of_crash (hfits : TableFits totalBlocks) (hsome : 0 < journalLen) (hzero : ZeroRegion j d.view)
    {mode' : DataMode} {s : Mounted} (hrun : Run (Mounted.step sb) (crashRules j) (Mounted.boot j d₂ mode') s)
    {i : Image} (hi : Survives s.disk i) (hproper : AllProper sb (fun _ _ => True) d₂.view s.returned) :
    ∃ k j' d', s.durable ≤ k ∧ k ≤ s.returned.length ∧
      run faultless (fsMount ⟨totalBlocks⟩).run (settled i) = (.ok (sb, j'), d') ∧
        Namespace.Leads .fresh ((s.returned.take k).map Prod.fst) (s.replied.take k) (vol sb d'.view).names := by
  have hvol := onVolume_mounted hformat hmount hfits hsome
  obtain ⟨hs, hroot, hstart⟩ := volOk_mounted hformat hfits hmount
  have hok := crashOk_of_run hformat hmount hfits hsome hzero hrun
  obtain ⟨k, j', d', hdurable, hlen, hremount, hcontent⟩ := hok.remounts hformat hmount hvol hi
  refine ⟨k, j', d', hdurable, hlen, hremount, ?_⟩
  rw [hok.replied, take_replies, vol_congr_fs hs fun b hb => hcontent b (hvol.home hb), ← names_fresh hstart]
  exact leads_of_proper hs hroot hstart (hproper.upTo k)

end Mounted

section Small

/-- A file is created, then listed. -/
theorem leads_small : Namespace.Leads .fresh [.change (.create [slash, 0x61] 0x1A4), .readdir [slash]]
    (replies (formatSuper 128 64 .ordered) smallDisk.flush.view
      [(.change (.create [slash, 0x61] 0x1A4), 0), (.readdir [slash], 0)])
    (vol (formatSuper 128 64 .ordered) (viewAfter (formatSuper 128 64 .ordered) smallDisk.flush.view
      [(.change (.create [slash, 0x61] 0x1A4), 0), (.readdir [slash], 0)])).names := by
  have hproper : AllProper (formatSuper 128 64 .ordered) (fun _ _ => True) smallDisk.flush.view
      [(.change (.create [slash, 0x61] 0x1A4), 0), (.readdir [slash], 0)] :=
    ⟨properName_a, trivial, trivial, trivial, trivial⟩
  exact leads_of_calls run_format_small run_fsMount_small (by decide) hproper

theorem leads_crash_small : ∃ s : Mounted, s.returned = [smallCreate, smallWrite, smallMkdir] ∧ s.durable = 2 ∧
    s.disk.pending ≠ [] ∧ ∃ k j' d', s.durable ≤ k ∧ k ≤ s.returned.length ∧
      run faultless (fsMount ⟨128⟩).run (settled s.disk.durable) = (.ok (formatSuper 128 64 .ordered, j'), d') ∧
        Namespace.Leads .fresh ((s.returned.take k).map Prod.fst) (s.replied.take k)
          (vol (formatSuper 128 64 .ordered) d'.view).names := by
  obtain ⟨s, hrun, hreturned, hdurable, hpending, -⟩ := run_small
  exact ⟨s, hreturned, hdurable, hpending, leads_of_crash run_format_small run_fsMount_small (by decide) (by decide)
    (fun _ _ => rfl) hrun (survives_durable _) (hreturned ▸ proper_small)⟩

end Small
end Logfs
