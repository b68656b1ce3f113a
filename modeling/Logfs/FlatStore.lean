import Logfs.StagingCap

/-!
# Reads of the transaction manager

A block may be staged, on the checkpoint list several times and home, each with its own
content. Between calls that run to their end one after another, `logfs_txn_read_block`
finds the newest, so the manager is a map from block numbers to what was last written.
-/
namespace Logfs
open Interaction WriteCache ByteBuffer

/-! ## Whole calls -/

/-- The thread runs on while it is in one part of its code. -/
def finish (inside : Pc → Bool) : ℕ → Core → Option Core
  | 0, _ => none
  | rounds + 1, c => if inside c.pc then (threadStep c).bind (finish inside rounds) else some c

/-- In one pass of the loop of `commit_thread_main`. -/
def Pc.inPass : Pc → Bool
  | .top _ => false
  | _ => true

/-- In `checkpoint_oldest`. -/
def Pc.inCheckpoint : Pc → Bool
  | .unlink .. | .writeHome .. | .nextTail .. | .advance .. => true
  | _ => false

/-- A handle of its own that replaces the content of one block. -/
def updateBlock (mgr : TxnMgr) (blockno : UInt64) (data : Block) : DevM (Option TxnMgr) :=
  match txnStart mgr with
  | none => return none
  | some (h, mgr) =>
      if !tagMatches h mgr then return none
      else do
        match ← getWriteAccess mgr blockno with
        | (.error _, _) => return none
        | (.ok _, mgr) =>
            match ← dirtyMetadata (writeBuffer mgr blockno data) blockno with
            | (.error _, _) => return none
            | (.ok (), mgr) => return some (txnStop mgr)

inductive StoreOp
  | update (blockno : UInt64) (data : Block)
  /-- A pass of the commit thread, with a commit in it when anything is staged. -/
  | commitCycle
  /-- A call of `checkpoint_oldest`. -/
  | checkpoint

/-- The call begins with the thread at the head of its loop, and returns without an error. -/
def Returns (c : Core) : StoreOp → Core → Prop
  | .update b data, d =>
      (∃ j, c.pc = .top j) ∧
        ∃ m, run faultless (updateBlock c.mgr b data) c.disk = (some m, c.disk) ∧ d = { c with mgr := m }
  | .commitCycle, d =>
      (∃ j, c.pc = .top j) ∧
        ∃ e rounds, threadStep { c with mgr := { c.mgr with commitRequested := true } } = some e ∧
          finish Pc.inPass rounds e = some d
  | .checkpoint, d =>
      ∃ j k e rounds, c.pc = .top j ∧
        finish Pc.inCheckpoint rounds { c with pc := .unlink j .lag } = some e ∧
        (e.pc = .lag k ∨ e.pc = .top k) ∧ d = { e with pc := .top k }

/-- The calls return one after another, and every generation committed fits the journal. -/
inductive Performs (j : Journal) : Core → List StoreOp → Core → Prop
  | nil (c : Core) : Performs j c [] c
  | cons {c d e : Core} {op : StoreOp} {ops : List StoreOp}
      (fits : op = .commitCycle → stagedNodes c.mgr ≠ [] → FitsJournal j (stagedNodes c.mgr))
      (now : Returns c op d) (rest : Performs j d ops e) : Performs j c (op :: ops) e

/-- The plain map: only updates change it. -/
def flatStore (img : Image) : List StoreOp → Image
  | [] => img
  | .update b data :: ops => flatStore (Function.update img b data) ops
  | _ :: ops => flatStore img ops

/-! ## The thread's calls keep every content -/

section Calls
variable {j₀ : Journal} {c d : Core} {b : UInt64} {data : Block}

theorem finish_spec {inside : Pc → Bool} (h₀ : j₀.Placed) (I : Core → Prop)
    (hkeep : ∀ ⦃c d⦄, I c → ThreadStep c d → I d)
    (hfits : ∀ c, I c → inside c.pc = true → endsFreeze c = true → stagedNodes c.mgr ≠ [] →
      FitsJournal j₀ (stagedNodes c.mgr))
    {rounds : ℕ} (hrun : finish inside rounds c = some d) (hI : I c) (h : CoreOk j₀ c) :
    CoreOk j₀ d ∧ ∀ b, Home j₀ b → d.content b = c.content b := by
  induction rounds generalizing c with
  | zero => cases hrun
  | succ rounds ih =>
      rw [finish] at hrun
      split_ifs at hrun with hin
      · obtain ⟨e, hnow, hrest⟩ := Option.bind_eq_some_iff.mp hrun
        have hstep := threadStep_sound hnow
        obtain ⟨hok, hcontent⟩ := ih hrest (hkeep hI hstep) (h.step h₀ hstep (hfits c hI hin))
        exact ⟨hok, fun b hb => (hcontent b hb).trans (h.content_step hstep hb)⟩
      · cases hrun
        exact ⟨h, fun _ _ => rfl⟩

theorem top_of_finish {rounds : ℕ} (hrun : finish Pc.inPass rounds c = some d) : ∃ j, d.pc = .top j := by
  induction rounds generalizing c with
  | zero => cases hrun
  | succ rounds ih =>
      rw [finish] at hrun
      split_ifs at hrun with hin
      · obtain ⟨e, -, hrest⟩ := Option.bind_eq_some_iff.mp hrun
        exact ih hrest
      · cases hrun
        cases hpc : d.pc with
        | top j => exact ⟨j, rfl⟩
        | _ => simp [hpc, Pc.inPass] at hin

theorem not_endsFreeze_of_inCheckpoint (hin : c.pc.inCheckpoint = true) : endsFreeze c = false := by
  unfold endsFreeze
  split
  · next hpc => simp [hpc, Pc.inCheckpoint] at hin
  · next hpc => simp [hpc, Pc.inCheckpoint] at hin
  · rfl

/-- A checkpoint entered at the head of the loop, and the return to it. -/
theorem CoreOk.enterCheckpoint {j : Journal} (h : CoreOk j₀ c) (hpc : c.pc = .top j) :
    CoreOk j₀ { c with pc := .unlink j .lag } ∧
      ({ c with pc := .unlink j .lag } : Core).content = c.content := by
  obtain ⟨m, disk, pc⟩ := c
  obtain rfl : pc = .top j := hpc
  exact ⟨⟨⟨h.pc.1, h.pc.2, trivial⟩, h.staged, h.nodes, h.emptied⟩, rfl⟩

theorem CoreOk.leaveCheckpoint {k : Journal} (h : CoreOk j₀ c) (hpc : c.pc = .lag k ∨ c.pc = .top k) :
    CoreOk j₀ { c with pc := .top k } ∧ ({ c with pc := .top k } : Core).content = c.content := by
  obtain ⟨m, disk, pc⟩ := c
  rcases hpc with hpc | hpc
  · obtain rfl : pc = .lag k := hpc
    exact ⟨⟨h.pc, h.staged, h.nodes, h.emptied⟩, rfl⟩
  · obtain rfl : pc = .top k := hpc
    exact ⟨h, rfl⟩

theorem CoreOk.checkpoint (h₀ : j₀.Placed) (h : CoreOk j₀ c) (hdoes : Returns c .checkpoint d) :
    CoreOk j₀ d ∧ ∀ b, Home j₀ b → d.content b = c.content b := by
  obtain ⟨j, k, e, rounds, hpc, hrun, hend, rfl⟩ := hdoes
  obtain ⟨hin, hincontent⟩ := h.enterCheckpoint hpc
  obtain ⟨hok, hcontent⟩ := finish_spec h₀ (fun _ => True) (fun _ _ _ _ => trivial)
    (fun c _ hin hends => by simp [not_endsFreeze_of_inCheckpoint hin] at hends) hrun trivial hin
  obtain ⟨hout, houtcontent⟩ := hok.leaveCheckpoint hend
  exact ⟨hout, fun b hb => by rw [houtcontent, hcontent b hb, hincontent]⟩

theorem CoreOk.commitCycle (h₀ : j₀.Placed) (h : CoreOk j₀ c)
    (hfits : stagedNodes c.mgr ≠ [] → FitsJournal j₀ (stagedNodes c.mgr))
    (hdoes : Returns c .commitCycle d) :
    CoreOk j₀ d ∧ ∀ b, Home j₀ b → d.content b = c.content b := by
  obtain ⟨⟨j, hpc⟩, e, rounds, hfirst, hrun⟩ := hdoes
  have hreq : CoreOk j₀ { c with mgr := { c.mgr with commitRequested := true } } :=
    h.of_mgr rfl rfl (h.staged.of_table rfl rfl) fun d hd => h.staged_lt hd
  -- nothing is staged during the pass, so what it takes is what was staged before
  let I : Core → Prop := fun e => (stagedNodes e.mgr).length ≤ (stagedNodes c.mgr).length ∧
    e.pc.inflight.length ≤ (stagedNodes c.mgr).length
  have hsmall : ∀ e, I e → stagedNodes e.mgr ≠ [] → FitsJournal j₀ (stagedNodes e.mgr) := by
    intro e he hsome
    have hpos := List.length_pos_iff.mpr hsome
    have hle := he.1
    have hfit := hfits (List.length_pos_iff.mp (by omega))
    unfold FitsJournal at hfit ⊢
    omega
  have hI : I { c with mgr := { c.mgr with commitRequested := true } } :=
    ⟨le_refl _, by simp [hpc, Pc.inflight]⟩
  have hkeep : ∀ ⦃e f⦄, I e → ThreadStep e f → I f := fun e f he hstep => hstep.length_le he.1 he.2
  have hstep := threadStep_sound hfirst
  obtain ⟨hok, hcontent⟩ := finish_spec h₀ I hkeep (fun e he _ _ => hsmall e he) hrun
    (hkeep hI hstep) (hreq.step h₀ hstep fun _ => hsmall _ hI)
  exact ⟨hok, fun b hb => (hcontent b hb).trans (hreq.content_step hstep hb)⟩

/-! ## Updates -/

/-- After `get_write_access` the block has a node, and no other block's content has changed. -/
theorem CoreOk.getWriteAccess {m : TxnMgr} {e : Disk} {buf : Block} (h : CoreOk j₀ c)
    (hrun : run faultless (getWriteAccess c.mgr b) c.disk = ((.ok buf, m), e)) :
    m.dev = c.mgr.dev ∧ m.ckpt = c.mgr.ckpt ∧ Staged m ∧ findDirty m b ≠ none ∧
      (∀ b', b' ≠ b → stagedContent m b' = stagedContent c.mgr b') ∧
      ∀ n ∈ stagedNodes m, n.blockno < j₀.dev.nblocks := by
  rw [run_getWriteAccess] at hrun
  cases hdirty : findDirty c.mgr b with
  | some n =>
      rw [hdirty] at hrun
      cases hrun
      exact ⟨rfl, rfl, h.staged, by simp [hdirty], fun _ _ => rfl, fun n hn => h.staged_lt hn⟩
  | none =>
      cases hseed : seed c.mgr c.disk.view b with
      | none => simp [hdirty, hseed] at hrun
      | some old =>
          simp only [hdirty, hseed, Prod.mk.injEq] at hrun
          obtain ⟨⟨-, rfl⟩, -⟩ := hrun
          have hcontent := stagedContent_insertDirty c.mgr ⟨b, old⟩
          refine ⟨rfl, rfl, staged_insertDirty h.staged hdirty, ?_, fun b' hb' => ?_, fun n hn => ?_⟩
          · rw [Ne, ← stagedContent_eq_none, hcontent]
            simp
          · rw [hcontent]
            exact if_neg (Ne.symm hb')
          · rcases mem_stagedNodes_insertDirty hn with rfl | hn
            · exact h.seed_lt hseed
            · exact h.staged_lt hn

theorem run_dirtyMetadata_staged {m : TxnMgr} (e : Disk) (hnode : findDirty m b ≠ none) :
    run faultless (dirtyMetadata m b) e = ((.ok (), m), e) := by
  obtain ⟨n, hn⟩ := Option.ne_none_iff_exists'.mp hnode
  rw [dirtyMetadata, run_bind, run_findOrCreateDirty, hn]
  rfl

/-- An update stages its content and leaves everything but the table alone. -/
theorem CoreOk.update (h : CoreOk j₀ c) (hdoes : Returns c (.update b data) d) :
    CoreOk j₀ d ∧ (∃ j, d.pc = .top j) ∧
      ∀ b', d.content b' = if b' = b then data else c.content b' := by
  obtain ⟨htop, m, hrun, rfl⟩ := hdoes
  have hstarted : CoreOk j₀
      { c with mgr := { c.mgr with runningHandles := c.mgr.runningHandles + 1 } } :=
    h.of_mgr rfl rfl (h.staged.of_table rfl rfl) fun n hn => h.staged_lt hn
  unfold updateBlock txnStart at hrun
  split_ifs at hrun with hfreeze
  · cases hrun
  simp only [tagMatches, beq_self_eq_true, Bool.not_true, Bool.false_eq_true, if_false, run_bind]
    at hrun
  cases haccess : run faultless
      (Logfs.getWriteAccess { c.mgr with runningHandles := c.mgr.runningHandles + 1 } b) c.disk with
  | mk r e =>
  obtain ⟨r, m₁⟩ := r
  rw [haccess] at hrun
  cases r with
  | error err => cases hrun
  | ok buf =>
  obtain ⟨hdev, hckpt, hstaged, hnode, hother, hlt⟩ := hstarted.getWriteAccess haccess
  have hstored := stagedContent_writeBuffer hnode data
  have hstill : findDirty (writeBuffer m₁ b data) b ≠ none := findDirty_of_stage hstored (.inl rfl)
  simp only [run_bind, run_dirtyMetadata_staged e hstill, Prog.pure_eq, run_ret, Prod.mk.injEq,
    Option.some.injEq] at hrun
  obtain ⟨rfl, -⟩ := hrun
  have hstaged' : Staged (txnStop (writeBuffer m₁ b data)) :=
    (staged_writeBuffer hstaged b data).of_table rfl rfl
  have hnew : stagedContent (txnStop (writeBuffer m₁ b data)) =
      fun b' => if b' = b then some data else stagedContent c.mgr b' := by
    change stagedContent (writeBuffer m₁ b data) = _
    rw [hstored]
    funext b'
    split_ifs with hb
    · rfl
    · exact hother b' hb
  refine ⟨h.of_mgr hdev hckpt hstaged' fun n hn => ?_, htop, fun b' => ?_⟩
  · obtain ⟨n', hn', heq⟩ := mem_stagedNodes_writeBuffer hn
    rw [← heq]
    exact hlt n' hn'
  · exact Core.content_stage h.staged hstaged' hckpt hnew b'

/-! ## Reads -/

/-- Between calls the tiers are searched from the newest to the oldest. -/
theorem CoreOk.read (h : CoreOk j₀ c) {j : Journal} (hpc : c.pc = .top j) (hlt : b < j₀.dev.nblocks) :
    run faultless (txnReadBlock c.mgr b).run c.disk = (.ok (c.content b), c.disk) := by
  have holder : c.olderNodes = ckptNodes c.mgr := by
    simp [Core.olderNodes, hpc, Pc.inflight, Pc.unhomed]
  rw [Core.content_eq h.staged, holder, applyWrites_eq_lastWrite, ← findCheckpointed_eq, stagedContent,
    txnReadBlock]
  cases findDirty c.mgr b with
  | some n => rfl
  | none =>
      cases findCheckpointed c.mgr b with
      | some n => rfl
      | none => exact run_bdevRead c.disk (pcOk_dev h.pc ▸ hlt)

end Calls

theorem performs_content {j₀ : Journal} {c d : Core} {ops : List StoreOp} (h₀ : j₀.Placed)
    (h : CoreOk j₀ c) (htop : ∃ j, c.pc = .top j) (hops : Performs j₀ c ops d) {v : Image}
    (hv : ∀ b, Home j₀ b → c.content b = v b) :
    CoreOk j₀ d ∧ (∃ j, d.pc = .top j) ∧ ∀ b, Home j₀ b → d.content b = flatStore v ops b := by
  induction hops generalizing v with
  | nil c => exact ⟨h, htop, hv⟩
  | @cons c d e op ops fits now rest ih =>
      cases op with
      | update b data =>
          obtain ⟨hok, htop', hcontent⟩ := h.update now
          refine ih hok htop' fun b' hb' => ?_
          rw [hcontent, Function.update_apply, hv b' hb']
      | commitCycle =>
          obtain ⟨hok, hcontent⟩ := h.commitCycle h₀ (fits rfl) now
          obtain ⟨-, e', rounds, -, hrun⟩ := now
          exact ih hok (top_of_finish hrun) fun b hb => (hcontent b hb).trans (hv b hb)
      | checkpoint =>
          obtain ⟨hok, hcontent⟩ := h.checkpoint h₀ now
          obtain ⟨j, k, e', rounds, -, -, -, rfl⟩ := now
          exact ih hok ⟨k, rfl⟩ fun b hb => (hcontent b hb).trans (hv b hb)

/-- After any calls on a fresh mount, a read of any block outside the journal returns 0 and what
the plain map holds. -/
theorem read_eq_flatStore {j : Journal} {img : Image} (hopen : Opened j img) (mode : DataMode)
    {ops : List StoreOp} {c : Core} (hops : Performs j (Sys.boot j img mode).toCore ops c)
    {b : UInt64} (hb : Home j b) (hlt : b < j.dev.nblocks) :
    run faultless (txnReadBlock c.mgr b).run c.disk = (.ok (flatStore img ops b), c.disk) := by
  obtain ⟨hok, ⟨k, hpc⟩, hcontent⟩ := performs_content hopen.placed (sysOk_boot hopen mode).core
    ⟨j, rfl⟩ hops (v := img) fun b hb => (sysOk_boot hopen mode).content b hb
  rw [hok.read hpc hlt, hcontent b hb]

/-- Block 20 has a staged copy, an older one on the checkpoint list and a still older one home. -/
theorem read_eq_flatStore_overlap : ∃ c,
    Performs tinyJournal tinyMount.toCore
        [.update 20 zeroBlock, .commitCycle, .checkpoint, .update 20 (store zeroBlock 0 (1 : UInt32)),
          .commitCycle, .update 20 (store zeroBlock 0 (2 : UInt32))] c ∧
      run faultless (txnReadBlock c.mgr 20).run c.disk = (.ok (store zeroBlock 0 (2 : UInt32)), c.disk) := by
  have hops : ∃ c, Performs tinyJournal tinyMount.toCore
      [.update 20 zeroBlock, .commitCycle, .checkpoint, .update 20 (store zeroBlock 0 (1 : UInt32)),
        .commitCycle, .update 20 (store zeroBlock 0 (2 : UInt32))] c := by
    refine ⟨_, .cons nofun ⟨⟨_, rfl⟩, _, rfl, rfl⟩
      (.cons (fun _ _ => ⟨?_, ?_⟩) ⟨⟨_, rfl⟩, _, 60, rfl, rfl⟩
      (.cons nofun ⟨_, _, _, 60, rfl, rfl, .inl rfl, rfl⟩
      (.cons nofun ⟨⟨_, rfl⟩, _, rfl, rfl⟩
      (.cons (fun _ _ => ⟨?_, ?_⟩) ⟨⟨_, rfl⟩, _, 60, rfl, rfl⟩
      (.cons nofun ⟨⟨_, rfl⟩, _, rfl, rfl⟩ (.nil _))))))⟩
    all_goals decide
  obtain ⟨c, hops⟩ := hops
  refine ⟨c, hops, ?_⟩
  have hread := read_eq_flatStore opened_tiny .ordered hops (b := 20) (by decide) (by decide)
  rw [hread]
  simp [flatStore]

end Logfs
