import Logfs.SystemInvariant

/-!
# Read-modify-write staging

The content a new buffer begins with. `find_or_create_dirty` looks for it on the
checkpoint list and then at the home location, so it misses a copy that is in the
generation being committed or still to be written home.
-/
namespace Logfs
open Interaction WriteCache Transition

/-- A block not yet staged is not in the generation being committed, and it is on the
checkpoint list or not among the blocks still to be written home. -/
def seesNewest (s : Sys) : Action → Bool
  | .getWriteAccess _ b =>
      (findDirty s.mgr b).isSome ||
        (s.pc.inflight.all fun d => d.blockno != b) &&
          ((ckptNodes s.mgr).any (fun d => d.blockno == b) ||
            s.pc.unhomed.all fun d => d.blockno != b)
  | _ => true

/-- Every new buffer of a home block began with the content last staged for it before, or
with the block's initial content when there was none. -/
def BuffersNewest (j : Journal) (img : Image) (s : Sys) : Prop :=
  ∀ i u, s.hist[i]? = some u → u.first = true → Home j u.blockno →
    u.data = applyWrites img (updateWrites (s.hist.take i)) u.blockno

variable {j₀ : Journal} {img : Image}

theorem lastWrite_nodes_none {nodes : List DirtyBlock} {b : UInt64}
    (h : nodes.all (fun d => d.blockno != b) = true) : lastWrite (nodeWrites nodes) b = none := by
  rw [lastWrite_eq_none]
  intro w hw
  obtain ⟨d, hd, rfl⟩ := List.mem_map.mp hw
  simpa using List.all_eq_true.mp h d hd

theorem seed_newest {s : Sys} {id : ℕ} {b : UInt64} {data : Block} (hstaged : Staged s.mgr)
    (hnew : findDirty s.mgr b = none) (hsees : seesNewest s (.getWriteAccess id b) = true)
    (hseed : seed s.mgr s.disk.view b = some data) : s.toCore.content b = data := by
  simp only [seesNewest, hnew, Option.isSome_none, Bool.false_or, Bool.and_eq_true,
    Bool.or_eq_true] at hsees
  obtain ⟨hin, hold⟩ := hsees
  rw [seed_eq] at hseed
  rw [Core.content_eq hstaged, stagedContent_eq_none.mpr hnew, Option.getD_none, Core.olderNodes,
    applyWrites_eq_lastWrite, nodeWrites_append, nodeWrites_append, lastWrite_append,
    lastWrite_append, lastWrite_nodes_none hin, Option.none_or]
  cases hlast : lastWrite (nodeWrites (ckptNodes s.mgr)) b with
  | some data' =>
      rw [hlast] at hseed
      simpa using hseed
  | none =>
      have hun : lastWrite (nodeWrites s.pc.unhomed) b = none := by
        refine lastWrite_nodes_none (hold.resolve_left fun hany => ?_)
        obtain ⟨d, hd, he⟩ := List.any_eq_true.mp hany
        exact lastWrite_eq_none.mp hlast _ (List.mem_map_of_mem hd) (by simpa using he)
      rw [hlast, Option.none_or] at hseed
      split_ifs at hseed
      rw [hun]
      simpa using hseed

/-- A new update is right if it was when it was staged; the older ones stay what they were. -/
theorem BuffersNewest.append {s s' : Sys} {u : Update} (h : BuffersNewest j₀ img s)
    (hhist : s'.hist = s.hist ++ [u])
    (hu : u.first = true → Home j₀ u.blockno →
      u.data = applyWrites img (updateWrites s.hist) u.blockno) : BuffersNewest j₀ img s' := by
  intro i v hv hfirst hhome
  rw [hhist] at hv ⊢
  rcases Nat.lt_trichotomy i s.hist.length with hi | hi | hi
  · rw [List.getElem?_append_left hi] at hv
    rw [List.take_append_of_le_length hi.le]
    exact h i v hv hfirst hhome
  · subst hi
    simp only [List.getElem?_concat_length, Option.some.injEq] at hv
    subst hv
    simpa using hu hfirst hhome
  · rw [List.getElem?_eq_none (by simp; omega)] at hv
    cases hv

theorem buffersNewest_preserved (h₀ : j₀.Placed) :
    Preserves Sys.step (fun s a => (smallGeneration j₀ s a && seesNewest s a) = true)
      fun s => SysOk j₀ img s ∧ BuffersNewest j₀ img s := by
  intro s s' a hok hnow hinv
  obtain ⟨hsys, hbuf⟩ := hinv
  obtain ⟨hsmall, hsees⟩ := Bool.and_eq_true_iff.mp hok
  have hstep := Sys.step_sound hnow
  refine ⟨hsys.step h₀ hsmall hstep, ?_⟩
  cases hstep with
  | accessNew hlive hnew hseed =>
      refine hbuf.append rfl fun _ hhome => ?_
      exact (seed_newest hsys.core.staged hnew hsees hseed).symm.trans (hsys.content _ hhome)
  | bufWrite => exact hbuf.append rfl fun hfirst => by cases hfirst
  | _ => exact hbuf

/-- In a run whose new buffers are of blocks neither in flight nor on the way home, and whose
generations fit the journal, no update is lost in staging. -/
theorem buffersNewest_of_seesNewest (hopen : Opened j₀ img) (mode : DataMode) {s : Sys}
    (hrun : Run Sys.step (fun s a => (smallGeneration j₀ s a && seesNewest s a) = true)
      (Sys.boot j₀ img mode) s) : BuffersNewest j₀ img s :=
  (hrun.invariant ⟨sysOk_boot hopen mode, fun i u hu => by simp [Sys.boot] at hu⟩
    (buffersNewest_preserved hopen.placed)).2

/-- A block is changed and its generation's commit begun; the next handle's buffer of the
block begins with what is at its home. -/
def changeDuringCommit (data : Block) : List Action :=
  [.start, .getWriteAccess 0 20, .bufWrite 0 20 data, .stop 0, .thread, .thread, .start,
    .getWriteAccess 1 20]

/-- One handle lives at a time. -/
def oneHandle (s : Sys) : Action → Bool
  | .start => s.handles.isEmpty
  | _ => true

theorem not_buffersNewest :
    ∃ s, Run Sys.step (fun s a => (smallGeneration tinyJournal s a && oneHandle s a) = true) tinyMount s ∧
      ¬ BuffersNewest tinyJournal tinyImage s := by
  obtain ⟨s, hrun, htest⟩ := exists_run_of_exec Sys.step
    (fun s a => (smallGeneration tinyJournal s a && oneHandle s a) = true) tinyMount
    (changeDuringCommit fun _ => 1)
    (fun s => (s.hist[2]?.any fun u => u.first && u.blockno == 20 && u.data 0 == 0) &&
      applyWrites tinyImage (updateWrites (s.hist.take 2)) 20 0 == 1) (by decide +kernel)
  refine ⟨s, hrun, fun h => ?_⟩
  simp only [Bool.and_eq_true, Option.any_eq_true, beq_iff_eq] at htest
  obtain ⟨⟨u, hu, ⟨hfirst, hb⟩, hzero⟩, hone⟩ := htest
  have hdata := h 2 u hu hfirst (hb ▸ by decide)
  rw [hdata, hb, hone] at hzero
  exact absurd hzero (by decide)

/-- The same changes with the commit's end in between. -/
theorem buffersNewest_changeAfterCommit : ∃ s, s.hist.length = 3 ∧
    BuffersNewest tinyJournal tinyImage s := by
  obtain ⟨s, hrun, hlen⟩ := exists_run_of_exec Sys.step
    (fun s a => (smallGeneration tinyJournal s a && seesNewest s a) = true) tinyMount
    ([.start, .getWriteAccess 0 20, .bufWrite 0 20 fun _ => 1, .stop 0] ++
      List.replicate 12 .thread ++ [.start, .getWriteAccess 1 20])
    (fun s => s.hist.length == 3) (by decide +kernel)
  exact ⟨s, by simpa using hlen, buffersNewest_of_seesNewest opened_tiny .ordered hrun⟩

end Logfs
