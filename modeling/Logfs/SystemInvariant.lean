import Logfs.Checkpoint
import Logfs.Handles

/-!
# The invariant of the whole system

The commit thread's invariant together with what ties the live handles and the record
of staged updates to it: `running_handles` counts the live handles, their buffers are
nodes of the staging table, and the newest content of a home block is the one last staged.
-/
namespace Logfs
open Interaction WriteCache Transition

def updateWrites (us : List Update) : List (UInt64 × Block) := us.map fun u => (u.blockno, u.data)

@[simp] theorem updateWrites_nil : updateWrites [] = [] := rfl

@[simp] theorem updateWrites_append (us vs : List Update) :
    updateWrites (us ++ vs) = updateWrites us ++ updateWrites vs := List.map_append

@[simp] theorem updateWrites_singleton (u : Update) : updateWrites [u] = [(u.blockno, u.data)] := rfl

/-- A generation is taken only when it is small enough for a transaction of the region. -/
def smallGeneration (j : Journal) (s : Sys) : Action → Bool
  | .thread =>
      !endsFreeze s.toCore || s.mgr.ndirty == 0 ||
        decide (s.mgr.ndirty ≤ maxTagsPerDesc ∧ s.mgr.ndirty + 2 ≤ j.maxlen.toNat)
  | _ => true

variable {j₀ : Journal} {img : Image} {c : Core} {s : Sys}

/-! ## Handle operations and the thread's invariant -/

theorem pcOk_of_mgr {m m' : TxnMgr} {d : Disk} {pc : Pc} (h : PcOk j₀ m d pc) (hdev : m'.dev = m.dev)
    (hckpt : m'.ckpt = m.ckpt) : PcOk j₀ m' d pc := by
  have hlog : ∀ {j log}, LogAt j₀ m j log → LogAt j₀ m' j log := fun h => h.of_mgr hdev
  have htail : ∀ j, newTail m' j = newTail m j := fun j => by simp only [newTail, hckpt]
  cases pc with
  | top | frozen | emptyCycle | lag | exited =>
      simp only [PcOk, hckpt] at h ⊢
      exact h.imp_left hlog
  | orderedFlush | reclaim | unlink | nextTail | writeHome =>
      simp only [PcOk, hckpt] at h ⊢
      exact h.imp_left hlog
  | advance p t caller =>
      simp only [PcOk, Advancing, hckpt, htail] at h ⊢
      exact h.imp fun j hj => hj.imp_left hlog
  | commit p nodes =>
      simp only [PcOk, hckpt] at h ⊢
      exact h.imp fun j hj => hj.imp_left hlog
  | link j' nodes rc =>
      simp only [PcOk, hckpt] at h ⊢
      exact h.imp fun j hj => hj.imp_left hlog

theorem ckptNodes_congr {m m' : TxnMgr} (hckpt : m'.ckpt = m.ckpt) : ckptNodes m' = ckptNodes m := by
  rw [ckptNodes, ckptNodes, hckpt]

/-- The handle operations only change the staging table. -/
theorem CoreOk.of_mgr (h : CoreOk j₀ c) {m : TxnMgr} (hdev : m.dev = c.mgr.dev)
    (hckpt : m.ckpt = c.mgr.ckpt) (hstaged : Staged m)
    (hnodes : ∀ d ∈ stagedNodes m, d.blockno < j₀.dev.nblocks) : CoreOk j₀ { c with mgr := m } where
  pc := pcOk_of_mgr h.pc hdev hckpt
  staged := hstaged
  nodes d hd := by
    rw [Core.nodes, ckptNodes_congr hckpt] at hd
    rcases List.mem_append.mp hd with hd | hd
    · exact h.nodes d (List.mem_append_left _ hd)
    · exact hnodes d hd
  emptied hnone hquiet := h.emptied (hckpt ▸ hnone) hquiet

theorem CoreOk.staged_lt (h : CoreOk j₀ c) {d : DirtyBlock} (hd : d ∈ stagedNodes c.mgr) :
    d.blockno < j₀.dev.nblocks := h.nodes d (List.mem_append_right _ hd)

theorem pcOk_dev {m : TxnMgr} {d : Disk} {pc : Pc} (h : PcOk j₀ m d pc) : m.dev = j₀.dev := by
  cases pc with
  | advance | commit | link =>
      obtain ⟨j, hlog, -⟩ := h
      exact hlog.dev
  | _ => exact h.1.dev

theorem CoreOk.seed_lt (h : CoreOk j₀ c) {view : Image} {b : UInt64} {data : Block}
    (hseed : seed c.mgr view b = some data) : b < j₀.dev.nblocks := by
  rw [seed_eq] at hseed
  cases hlast : lastWrite (nodeWrites (ckptNodes c.mgr)) b with
  | none =>
      rw [hlast, Option.none_or, pcOk_dev h.pc] at hseed
      split_ifs at hseed with hle
      simpa using hle
  | some data' =>
      have hmem : ∃ w ∈ nodeWrites (ckptNodes c.mgr), w.1 = b := by
        by_contra hnone
        push Not at hnone
        rw [lastWrite_eq_none.mpr hnone] at hlast
        cases hlast
      obtain ⟨⟨_, data''⟩, hw, rfl⟩ := hmem
      have hnode := mem_nodeWrites.mp hw
      exact h.nodes _ (List.mem_append_left _ (List.mem_append_left _ (List.mem_append_right _ hnode)))

/-- Nodes that are older than the staging table's. -/
def Core.olderNodes (c : Core) : List DirtyBlock :=
  c.pc.unhomed ++ ckptNodes c.mgr ++ c.pc.inflight

theorem Core.content_eq (hstaged : Staged c.mgr) (b : UInt64) :
    c.content b =
      (stagedContent c.mgr b).getD (applyWrites c.disk.view (nodeWrites c.olderNodes) b) := by
  rw [content, nodes, nodeWrites_append, applyWrites_append, applyWrites_eq_lastWrite,
    hstaged.lastWrite_stagedNodes]
  rfl

/-- An operation that stages `data` for `b` makes it the newest content of `b`. -/
theorem Core.content_stage {m : TxnMgr} (hstaged : Staged c.mgr) (hstaged' : Staged m)
    (hckpt : m.ckpt = c.mgr.ckpt) {b : UInt64} {data : Block}
    (hnew : stagedContent m = fun b' => if b' = b then some data else stagedContent c.mgr b')
    (b' : UInt64) :
    ({ c with mgr := m } : Core).content b' = if b' = b then data else c.content b' := by
  rw [Core.content_eq hstaged', Core.content_eq hstaged]
  have holder : ({ c with mgr := m } : Core).olderNodes = c.olderNodes := by
    rw [olderNodes, olderNodes, ckptNodes_congr hckpt]
  simp only [hnew, holder]
  split <;> rfl

/-! ## The invariant -/

structure SysOk (j₀ : Journal) (img : Image) (s : Sys) : Prop where
  core : CoreOk j₀ s.toCore
  count : s.mgr.runningHandles = s.handles.length
  ids : (s.handles.map (·.id)).Nodup
  fresh : ∀ h ∈ s.handles, h.id < s.nextHandle
  bufs : ∀ h ∈ s.handles, ∀ b ∈ h.bufs, findDirty s.mgr b ≠ none
  content : ∀ b, Home j₀ b → s.toCore.content b = applyWrites img (updateWrites s.hist) b

/-- The nodes of a mount that has just begun. -/
theorem nodes_boot (j : Journal) (img : Image) (mode : DataMode) :
    (Sys.boot j img mode).toCore.nodes = [] := by
  rw [Core.nodes, stagedNodes_of_empty rfl]
  rfl

theorem sysOk_boot (hopen : Opened j₀ img) (mode : DataMode) : SysOk j₀ img (Sys.boot j₀ img mode) where
  core :=
    { pc := ⟨⟨rfl, rfl, rfl, rfl, ⟨j₀.nextSequence, hopen.empty, rfl⟩, Nat.zero_le _⟩, rfl⟩
      staged := staged_txnMgrCreate _ _ _
      nodes := by simp [nodes_boot]
      emptied := fun _ _ => hopen.start }
  count := rfl
  ids := by simp [Sys.boot]
  fresh := by simp [Sys.boot]
  bufs := by simp [Sys.boot]
  content b _ := by rw [Core.content, nodes_boot]; rfl

namespace SysOk

theorem handles (h : SysOk j₀ img s) : HandlesOk s := ⟨h.count, h.ids, h.fresh⟩

theorem fitsJournal (h : SysOk j₀ img s) (hsmall : smallGeneration j₀ s .thread = true)
    (hends : endsFreeze s.toCore = true) (hsome : stagedNodes s.mgr ≠ []) :
    FitsJournal j₀ (stagedNodes s.mgr) := by
  have hnz : s.mgr.ndirty ≠ 0 := fun hz => hsome (h.core.staged.stagedNodes_eq_nil.mpr hz)
  simp only [smallGeneration, hends, Bool.not_true, Bool.false_or, Bool.or_eq_true, beq_iff_eq,
    decide_eq_true_eq] at hsmall
  rw [FitsJournal, ← h.core.staged.count]
  exact hsmall.resolve_left hnz

theorem thread (h₀ : j₀.Placed) (h : SysOk j₀ img s) (hsmall : smallGeneration j₀ s .thread = true)
    {c : Core} (hstep : ThreadStep s.toCore c) : SysOk j₀ img (s.afterThread c) where
  core := h.core.step h₀ hstep (h.fitsJournal hsmall)
  count := hstep.runningHandles.trans h.count
  ids := h.ids
  fresh := h.fresh
  bufs := by
    rcases hstep.buckets with hends | ⟨hsame, -⟩
    · intro g hg
      rw [show (s.afterThread c).handles = [] from h.handles.none_live hends] at hg
      simp at hg
    · intro g hg b hb
      have hold := h.bufs g hg b hb
      rwa [findDirty, ← hsame] at hold
  content b hb := (h.core.content_step hstep hb).trans (h.content b hb)

/-- A handle is given a buffer that is in the staging table. -/
theorem giveBuffer_bufs (h : SysOk j₀ img s) {id : ℕ} {b : UInt64} {m : TxnMgr}
    (hkeep : ∀ b', findDirty s.mgr b' ≠ none → findDirty m b' ≠ none) (hnew : findDirty m b ≠ none) :
    ∀ g ∈ s.giveBuffer id b, ∀ b' ∈ g.bufs, findDirty m b' ≠ none := by
  intro g hg b' hb'
  obtain ⟨g₀, hmem, -, -, hbufs | hbufs⟩ := Sys.mem_giveBuffer hg
  · exact hkeep b' (h.bufs g₀ hmem b' (hbufs ▸ hb'))
  · rw [hbufs] at hb'
    rcases List.mem_cons.mp hb' with rfl | hb'
    · exact hnew
    · exact hkeep b' (h.bufs g₀ hmem b' hb')

theorem accessNew (h : SysOk j₀ img s) {g : LiveHandle} {b : UInt64} {data : Block}
    (hnew : findDirty s.mgr b = none) (hseed : seed s.mgr s.disk.view b = some data) :
    SysOk j₀ img
      { s with
        mgr := insertDirty s.mgr ⟨b, data⟩
        handles := s.giveBuffer g.id b
        hist := s.hist ++ [⟨g.id, b, data, true⟩] } := by
  have hstaged := staged_insertDirty h.core.staged (d := ⟨b, data⟩) hnew
  have hcontent : stagedContent (insertDirty s.mgr ⟨b, data⟩) =
      fun b' => if b' = b then some data else stagedContent s.mgr b' := by
    simp only [stagedContent_insertDirty, eq_comm]
  obtain ⟨hlen, hids, hfresh⟩ := h.handles.giveBuffer g.id b
  refine ⟨?_, h.count.trans hlen.symm, hids ▸ h.ids, hfresh, ?_, fun b' hb' => ?_⟩
  · refine h.core.of_mgr rfl rfl hstaged fun d hd => ?_
    rcases mem_stagedNodes_insertDirty hd with rfl | hd
    · exact h.core.seed_lt hseed
    · exact h.core.staged_lt hd
  · exact h.giveBuffer_bufs (fun b' hb' => findDirty_of_stage hcontent (.inr hb'))
      (findDirty_of_stage hcontent (.inl rfl))
  · refine (Core.content_stage h.core.staged hstaged rfl hcontent b').trans ?_
    rw [updateWrites_append, applyWrites_append, updateWrites_singleton]
    simp only [applyWrites_cons, applyWrites_nil, Function.update_apply, h.content b' hb']

theorem bufWrite (h : SysOk j₀ img s) {g : LiveHandle} {b : UInt64} {data : Block}
    (hlive : g ∈ s.handles) (hheld : b ∈ g.bufs) :
    SysOk j₀ img
      { s with mgr := writeBuffer s.mgr b data, hist := s.hist ++ [⟨g.id, b, data, false⟩] } := by
  have hnode := h.bufs g hlive b hheld
  have hstaged := staged_writeBuffer h.core.staged b data
  have hcontent := stagedContent_writeBuffer hnode data
  refine ⟨?_, h.count, h.ids, h.fresh, ?_, fun b' hb' => ?_⟩
  · refine h.core.of_mgr rfl rfl hstaged fun d hd => ?_
    obtain ⟨e, he, heq⟩ := mem_stagedNodes_writeBuffer hd
    rw [← heq]
    exact h.core.staged_lt he
  · exact fun g' hg' b' hb' => findDirty_of_stage hcontent (.inr (h.bufs g' hg' b' hb'))
  · refine (Core.content_stage h.core.staged hstaged rfl hcontent b').trans ?_
    rw [updateWrites_append, applyWrites_append, updateWrites_singleton]
    simp only [applyWrites_cons, applyWrites_nil, Function.update_apply, h.content b' hb']

/-- Operations that leave the table, the checkpoint list and the handles alone. -/
theorem of_mgr (h : SysOk j₀ img s) {m : TxnMgr} (hdev : m.dev = s.mgr.dev)
    (hckpt : m.ckpt = s.mgr.ckpt) (hbuckets : m.buckets = s.mgr.buckets)
    (hdirty : m.ndirty = s.mgr.ndirty) :
    CoreOk j₀ { s.toCore with mgr := m } ∧
      (∀ b, findDirty m b = findDirty s.mgr b) ∧
      ({ s.toCore with mgr := m } : Core).content = s.toCore.content := by
  have hstaged : Staged m := h.core.staged.of_table hbuckets hdirty
  have hnodes : stagedNodes m = stagedNodes s.mgr := by rw [stagedNodes, stagedNodes, hbuckets]
  refine ⟨h.core.of_mgr hdev hckpt hstaged (hnodes ▸ fun d hd => h.core.staged_lt hd), ?_, ?_⟩
  · intro b
    rw [findDirty, findDirty, hbuckets]
  · rw [Core.content, Core.content, Core.nodes, Core.nodes, ckptNodes_congr hckpt, hnodes]

theorem start (h : SysOk j₀ img s) :
    SysOk j₀ img
      { s with
        mgr := { s.mgr with runningHandles := s.mgr.runningHandles + 1 }
        handles := ⟨s.nextHandle, ⟨s.mgr.generationSeq⟩, []⟩ :: s.handles
        nextHandle := s.nextHandle + 1 } := by
  obtain ⟨hcore, -, -⟩ := h.of_mgr (m := { s.mgr with runningHandles := s.mgr.runningHandles + 1 })
    rfl rfl rfl rfl
  obtain ⟨hcount, hids, hfresh⟩ := h.handles.start
  refine ⟨hcore, hcount, hids, hfresh, ?_, h.content⟩
  intro g hg b hb
  rcases List.mem_cons.mp hg with rfl | hg
  · simp at hb
  · exact h.bufs g hg b hb

theorem stop (h : SysOk j₀ img s) {g : LiveHandle} (hlive : g ∈ s.handles) :
    SysOk j₀ img { s with mgr := txnStop s.mgr, handles := s.handles.filter fun g' => g'.id != g.id } := by
  obtain ⟨hcore, -, -⟩ := h.of_mgr (m := txnStop s.mgr) rfl rfl rfl rfl
  obtain ⟨hcount, hids, hfresh⟩ := h.handles.stop hlive
  exact ⟨hcore, hcount, hids, hfresh, fun g' hg' => h.bufs g' (List.mem_of_mem_filter hg'), h.content⟩

/-- Every step keeps the invariant as long as the generations taken are small enough. -/
theorem step (h₀ : j₀.Placed) (h : SysOk j₀ img s) {a : Action} {s' : Sys}
    (hsmall : smallGeneration j₀ s a = true) (hstep : Sys.Steps s a s') : SysOk j₀ img s' := by
  cases hstep with
  | thread hnow => exact h.thread h₀ hsmall hnow
  | start => exact h.start
  | abort => exact ⟨h.core, h.count, h.ids, h.fresh, h.bufs, h.content⟩
  | accessFailed => exact h
  | accessStaged hlive hstaged =>
      obtain ⟨hlen, hids, hfresh⟩ := h.handles.giveBuffer _ _
      exact ⟨h.core, h.count.trans hlen.symm, hids ▸ h.ids, hfresh,
        h.giveBuffer_bufs (fun _ hb => hb) hstaged, h.content⟩
  | accessNew hlive hnew hseed => exact h.accessNew hnew hseed
  | bufWrite hlive hheld => exact h.bufWrite hlive hheld
  | stop hlive => exact h.stop hlive
  | syncNow | syncWait =>
      obtain ⟨hcore, -, -⟩ := h.of_mgr (m := { s.mgr with commitRequested := true }) rfl rfl rfl rfl
      exact ⟨hcore, h.count, h.ids, h.fresh, h.bufs, h.content⟩
  | syncReturn => exact ⟨h.core, h.count, h.ids, h.fresh, h.bufs, h.content⟩
  | destroy =>
      obtain ⟨hcore, -, -⟩ := h.of_mgr (m := { s.mgr with shutdown := true }) rfl rfl rfl rfl
      exact ⟨hcore, h.count, h.ids, h.fresh, h.bufs, h.content⟩

end SysOk
end Logfs
