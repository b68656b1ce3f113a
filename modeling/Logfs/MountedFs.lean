import Logfs.ReservedBlocks
import Logfs.FlatStore
import Logfs.ReadModifyWrite

/-!
# The mounted file system

Calls of the file system over the transaction manager, one at a time as `g_fs_lock` has it, with the
commit thread at work between any two of their operations. As long as the manager finds the newest
content of each block it is asked for, the calls reply as they do over the logical block view.
-/
namespace Logfs
open Interaction WriteCache Transition

/-! ## Calls and the commit thread -/

/-- The manager, the commit thread and the call that has `g_fs_lock`. -/
structure Mounted extends Core where
  /-- The call, and what is left of its program. -/
  current : Option ((UserCall × UInt64) × TxnM (Except Errno Reply))
  handle : Option Handle
  /-- An assertion failed. -/
  aborted : Bool
  /-- The calls that have returned, and their replies. -/
  returned : List (UserCall × UInt64)
  replied : List (Except Errno Reply)
  /-- How many calls had returned when the last freeze ended. -/
  frozenAt : ℕ
  /-- How many had when the last freeze ended whose commit has returned 0, or that took nothing. -/
  durable : ℕ

inductive MountAction
  | call (c : UserCall) (now : UInt64)
  /-- The call's next function of `txn.h`. -/
  | txn
  | commitSync
  | thread

/-- The functions that assert that the handle's tag is current. -/
def assertsTag (m : TxnMgr) : TxnCall → Bool
  | .getWriteAccess _ => true
  | .writeData _ _ => m.mode == .journal
  | _ => false

def handleAfter (m : TxnMgr) (h : Option Handle) : TxnCall → Option Handle
  | .start => some ⟨m.generationSeq⟩
  | .stop => none
  | _ => h

/-- The thread's next step is what ends a cycle that has lost nothing. -/
def settles (c : Core) : Bool :=
  match c.pc with
  | .commit (.ret (.ok _, _)) _ | .emptyCycle _ => true
  | _ => false

namespace Mounted

/-- The call goes on with the program, or returns when nothing is left of it. -/
def goOn (s : Mounted) (c : UserCall × UInt64) : TxnM (Except Errno Reply) → Mounted
  | .ret r => { s with current := none, returned := s.returned ++ [c], replied := s.replied ++ [r] }
  | .op o k => { s with current := some (c, .op o k) }

@[simp] theorem toCore_goOn (s : Mounted) (c : UserCall × UInt64) (p : TxnM (Except Errno Reply)) :
    (s.goOn c p).toCore = s.toCore := by cases p <;> rfl

/-- The next call waits for `g_fs_lock`. -/
def callAction (sb : Super) (s : Mounted) (c : UserCall) (now : UInt64) : Option Mounted :=
  match s.current with
  | some _ => none
  | none => some (s.goOn (c, now) (c.program sb now).run)

def txnAction (s : Mounted) : Option Mounted :=
  match s.current with
  | some (c, .op o k) =>
      if assertsTag s.mgr o && !(s.handle.any fun h => tagMatches h s.mgr) then some { s with aborted := true }
      else (managerCall o s.mgr).map fun p =>
        let out := run faultless p s.disk
        ({ s with mgr := out.1.2, disk := out.2, handle := handleAfter s.mgr s.handle o }).goOn c (k out.1.1)
  | _ => none

def threadAction (s : Mounted) : Option Mounted :=
  (threadStep s.toCore).map fun c =>
    { s with
      toCore := c
      frozenAt := if endsFreeze s.toCore then s.returned.length else s.frozenAt
      durable := if settles s.toCore then s.frozenAt else s.durable }

/-- One step; a failed assertion ends the process. -/
def step (sb : Super) (s : Mounted) (a : MountAction) : Option Mounted :=
  if s.aborted then none
  else match a with
    | .call c now => s.callAction sb c now
    | .txn => s.txnAction
    | .commitSync => some { s with mgr := (commitSyncRequest s.mgr).2 }
    | .thread => s.threadAction

/-- After a mount and `logfs_txnmgr_create`. -/
def boot (j : Journal) (d : Disk) (mode : DataMode) : Mounted where
  mgr := txnMgrCreate j j.dev mode
  disk := d
  pc := .top j
  current := none
  handle := none
  aborted := false
  returned := []
  replied := []
  frozenAt := 0
  durable := 0

end Mounted

/-! ## What is asked of a run -/

/-- A staged content of the block is found, or the newest one is not in the commit thread's hands. -/
def Core.findsNewest (c : Core) (b : UInt64) : Bool :=
  (findDirty c.mgr b).isSome ||
    (c.pc.inflight.all fun d => d.blockno != b) &&
      ((ckptNodes c.mgr).any (fun d => d.blockno == b) || c.pc.unhomed.all fun d => d.blockno != b)

/-- The block whose content the function looks for. -/
def TxnCall.blockno : TxnCall → Option UInt64
  | .readBlock b | .getWriteAccess b | .dirtyMetadata b | .writeData b _ => some b
  | .start | .stop | .modify _ _ => none

/-- File data is written in journal mode only, the functions find the newest contents, and each
generation fits the journal. -/
def mountRules (j : Journal) (s : Mounted) : MountAction → Prop
  | .call c _ => c.writes → s.mgr.mode = .journal
  | .txn => ∀ c o k b, s.current = some (c, .op o k) → o.blockno = some b → s.findsNewest b = true
  | .commitSync => True
  | .thread => endsFreeze s.toCore = true → stagedNodes s.mgr ≠ [] → FitsJournal j (stagedNodes s.mgr)

/-- The call's next function finds the newest content of its block. -/
def Mounted.asksNewest (s : Mounted) : Bool :=
  match s.current with
  | some (_, .op o _) => o.blockno.all s.findsNewest
  | _ => true

theorem Mounted.asksNewest_iff {s : Mounted} : s.asksNewest = true ↔
    ∀ c o k b, s.current = some (c, .op o k) → o.blockno = some b → s.findsNewest b = true := by
  unfold asksNewest
  split
  · next c o k hask =>
      simp only [hask, Option.all_eq_true]
      constructor
      · rintro h _ _ _ b ⟨⟩ hb
        exact h b hb
      · intro h b hb
        exact h c o k b rfl hb
  · next hnone => exact iff_of_true rfl fun c o k b hask => absurd hask (hnone c o k)

instance (c : UserCall) : Decidable c.writes := by
  unfold UserCall.writes
  split <;> infer_instance

instance (j : Journal) (nodes : List DirtyBlock) : Decidable (FitsJournal j nodes) := by
  unfold FitsJournal; infer_instance

instance (j : Journal) (s : Mounted) (a : MountAction) : Decidable (mountRules j s a) :=
  match a with
  | .call c _ => inferInstanceAs (Decidable (c.writes → s.mgr.mode = .journal))
  | .txn => decidable_of_iff _ Mounted.asksNewest_iff
  | .commitSync => isTrue trivial
  | .thread => inferInstanceAs (Decidable (endsFreeze s.toCore = true → stagedNodes s.mgr ≠ [] →
      FitsJournal j (stagedNodes s.mgr)))

/-- The image after the calls over the logical block view. -/
def viewAfter (sb : Super) (v : Image) (cs : List (UserCall × UInt64)) : Image := cs.foldl (afterCall sb) v

theorem replies_snoc (sb : Super) (v : Image) (cs : List (UserCall × UInt64)) (c : UserCall × UInt64) :
    replies sb v (cs ++ [c]) = replies sb v cs ++ [answer sb (c.1.program sb c.2) (viewAfter sb v cs)] := by
  induction cs generalizing v with
  | nil => rfl
  | cons b cs ih =>
      rw [List.cons_append, replies, replies, ih]
      rfl

theorem viewAfter_snoc (sb : Super) (v : Image) (cs : List (UserCall × UInt64)) (c : UserCall × UInt64) :
    viewAfter sb v (cs ++ [c]) = afterCall sb (viewAfter sb v cs) c := by
  rw [viewAfter, List.foldl_append]
  rfl

/-! ## What a step can do -/

section Steps
variable {sb : Super} {s s' : Mounted}

/-- A function of `txn.h` that returns, with the thread where it is. -/
def served : Environment TxnRes Core := fun o c r c' =>
  ∃ p m d, managerCall o c.mgr = some p ∧ run faultless p c.disk = ((r, m), d) ∧ c' = { c with mgr := m, disk := d }

namespace Mounted

inductive Steps (sb : Super) (s : Mounted) : MountAction → Mounted → Prop
  | call {c : UserCall} {now : UInt64} (free : s.current = none) :
      Steps sb s (.call c now) (s.goOn (c, now) (c.program sb now).run)
  | abort : Steps sb s .txn { s with aborted := true }
  | txn {c : UserCall × UInt64} {o : TxnCall} {k : TxnRes o → TxnM (Except Errno Reply)} {r : TxnRes o}
      {core : Core} (asked : s.current = some (c, .op o k)) (now : served o s.toCore r core) :
      Steps sb s .txn (({ s with toCore := core, handle := handleAfter s.mgr s.handle o } : Mounted).goOn c (k r))
  | commitSync : Steps sb s .commitSync { s with mgr := { s.mgr with commitRequested := true } }
  | thread {core : Core} (now : ThreadStep s.toCore core) :
      Steps sb s .thread
        { s with
          toCore := core
          frozenAt := if endsFreeze s.toCore then s.returned.length else s.frozenAt
          durable := if settles s.toCore then s.frozenAt else s.durable }

theorem step_sound {a : MountAction} (h : s.step sb a = some s') : Steps sb s a s' := by
  unfold step at h
  split_ifs at h
  cases a with
  | call c now =>
      simp only [callAction] at h
      split at h
      · cases h
      · next hfree =>
          cases h
          exact .call hfree
  | txn =>
      simp only [txnAction] at h
      split at h
      · next hask =>
          split_ifs at h
          · cases h
            exact .abort
          · obtain ⟨p, hp, rfl⟩ := Option.map_eq_some_iff.mp h
            exact .txn hask ⟨p, _, _, hp, rfl, rfl⟩
      · cases h
  | commitSync =>
      cases h
      exact .commitSync
  | thread =>
      obtain ⟨c, hnow, rfl⟩ := Option.map_eq_some_iff.mp h
      exact .thread (threadStep_sound hnow)

end Mounted
end Steps

/-! ## What the call sees -/

/-- The file system lies behind the journal, on the journal's device. -/
structure OnVolume (sb : Super) (j : Journal) : Prop where
  layout : LayoutSound sb
  placed : j.Placed
  device : j.dev.nblocks = sb.totalBlocks
  below : j.first.toNat + j.maxlen.toNat ≤ sb.inodeBitmapStart.toNat

/-- How many handles the call has. -/
def Stage.handles : Stage → ℕ
  | .inside _ => 1
  | _ => 0

/-- The call sees the home blocks as they are in `v`. -/
structure Presents (sb : Super) (j₀ : Journal) (mode : DataMode) (g : Stage) (c : Core) (v : Image) : Prop where
  core : CoreOk j₀ c
  mode : c.mgr.mode = mode
  content : ∀ b, Home j₀ b → c.content b = v b
  bounded : ∀ b, IsFs sb b → BlockBounded sb b (v b)
  staged : ∀ n ∈ stagedNodes c.mgr, IsFs sb n.blockno
  held : ∀ b, g.held = some b → findDirty c.mgr b ≠ none
  handles : c.mgr.runningHandles = g.handles

/-- Of the manager only the staging table and the number of handles have changed. -/
structure OnlyStaged (c c' : Core) : Prop where
  disk : c'.disk = c.disk
  pc : c'.pc = c.pc
  dev : c'.mgr.dev = c.mgr.dev
  ckpt : c'.mgr.ckpt = c.mgr.ckpt
  shutdown : c'.mgr.shutdown = c.mgr.shutdown
  ordered : c'.mgr.orderedBlocks = c.mgr.orderedBlocks
  wb : c'.mgr.wb = c.mgr.wb
  completed : c'.mgr.completedThrough = c.mgr.completedThrough

theorem OnlyStaged.refl (c : Core) : OnlyStaged c c := ⟨rfl, rfl, rfl, rfl, rfl, rfl, rfl, rfl⟩

section View
variable {sb : Super} {j₀ : Journal} {mode : DataMode} {g : Stage} {c c₀ : Core} {v : Image} {b : UInt64}
  {data : Block}

theorem OnVolume.home (h : OnVolume sb j₀) (hb : IsFs sb b) : Home j₀ b := by
  have hlow := UInt64.le_iff_toNat_le.mp hb.1
  have hbelow := h.below
  have hends := h.layout.ends
  constructor
  · rintro rfl
    have htwo : jsuperBlockno.toNat = 2 := rfl
    omega
  · rintro ⟨-, hlt⟩
    omega

theorem OnVolume.lt (h : OnVolume sb j₀) (hb : IsFs sb b) : b < j₀.dev.nblocks := h.device ▸ hb.2

/-- No call reads or writes the superblock. -/
theorem OnVolume.reserved_super (h : OnVolume sb j₀) : Home j₀ superBlockno ∧ ¬ IsFs sb superBlockno := by
  have hone : superBlockno.toNat = 1 := rfl
  have htwo : jsuperBlockno.toNat = 2 := rfl
  refine ⟨⟨by decide, fun hin => ?_⟩, ?_⟩
  · have hafter := h.placed.after_jsuper
    have hfirst := hin.1
    omega
  · rintro ⟨hle, -⟩
    have hlow := h.layout.ends
    have hle' := UInt64.le_iff_toNat_le.mp hle
    omega

/-- What a lookup of the block finds. -/
theorem Core.seed_of_findsNewest (hstaged : Staged c.mgr) (hfinds : c.findsNewest b = true)
    (hnone : findDirty c.mgr b = none) (hlt : b < c.mgr.dev.nblocks) :
    seed c.mgr c.disk.view b = some (c.content b) := by
  simp only [findsNewest, hnone, Option.isSome_none, Bool.false_or, Bool.and_eq_true, Bool.or_eq_true] at hfinds
  obtain ⟨hin, hold⟩ := hfinds
  rw [seed_eq, if_neg (by simpa using hlt), Core.content_eq hstaged, stagedContent_eq_none.mpr hnone,
    Option.getD_none, Core.olderNodes, applyWrites_eq_lastWrite, nodeWrites_append, nodeWrites_append,
    lastWrite_append, lastWrite_append, lastWrite_nodes_none hin, Option.none_or]
  cases hlast : lastWrite (nodeWrites (ckptNodes c.mgr)) b with
  | some data => rfl
  | none =>
      have hun : lastWrite (nodeWrites c.pc.unhomed) b = none := by
        refine lastWrite_nodes_none (hold.resolve_left fun hany => ?_)
        obtain ⟨d, hd, he⟩ := List.any_eq_true.mp hany
        exact lastWrite_eq_none.mp hlast _ (List.mem_map_of_mem hd) (by simpa using he)
      rw [hun]
      rfl

theorem Core.content_staged (hstaged : Staged c.mgr) {d : DirtyBlock} (hfind : findDirty c.mgr b = some d) :
    c.content b = d.data := by
  rw [Core.content_eq hstaged, stagedContent, hfind]
  rfl

/-- What was asked of the manager beforehand still holds after the change. -/
theorem OnlyStaged.update (h : OnlyStaged c₀ c) {m : TxnMgr} (hm : OnlyStaged c { c with mgr := m }) :
    OnlyStaged c₀ { c with mgr := m } :=
  ⟨h.disk, h.pc, hm.dev.trans h.dev, hm.ckpt.trans h.ckpt, hm.shutdown.trans h.shutdown,
    hm.ordered.trans h.ordered, hm.wb.trans h.wb, hm.completed.trans h.completed⟩

namespace Presents

theorem staged_ok (h : Presents sb j₀ mode g c v) : Staged c.mgr := h.core.staged

/-- Of the manager only its lists and its mode matter to what the call sees. -/
theorem of_mgr {m : TxnMgr} {g' : Stage} (hvol : OnVolume sb j₀) (h : Presents sb j₀ mode g c v)
    (hdev : m.dev = c.mgr.dev) (hckpt : m.ckpt = c.mgr.ckpt) (hbuckets : m.buckets = c.mgr.buckets)
    (hcount : m.ndirty = c.mgr.ndirty) (hmode : m.mode = c.mgr.mode)
    (hheld : ∀ b, g'.held = some b → findDirty c.mgr b ≠ none) (hhandles : m.runningHandles = g'.handles) :
    Presents sb j₀ mode g' { c with mgr := m } v := by
  have hsame : stagedNodes m = stagedNodes c.mgr := by rw [stagedNodes, hbuckets, stagedNodes]
  have hfs : ∀ n ∈ stagedNodes m, IsFs sb n.blockno := hsame ▸ h.staged
  have hcore : CoreOk j₀ { c with mgr := m } :=
    h.core.of_mgr hdev hckpt (h.staged_ok.of_table hbuckets hcount) fun n hn => hvol.lt (hfs n hn)
  refine ⟨hcore, hmode.trans h.mode, fun b hb => ?_, h.bounded, hfs, fun b hb => ?_, hhandles⟩
  · have hview := h.content b hb
    rw [Core.content, Core.nodes, ckptNodes, ← hckpt, ← hsame] at hview
    exact hview
  · have hnode := hheld b hb
    rwa [findDirty, ← hbuckets] at hnode

/-- The table has a new node that holds what the block has held before, or is as it was. -/
theorem findOrCreate (hvol : OnVolume sb j₀) (h : Presents sb j₀ mode g c v) (hb : IsFs sb b)
    (hfinds : c.findsNewest b = true) :
    ∃ d m, run faultless (findOrCreateDirty c.mgr b) c.disk = ((some d, m), c.disk) ∧ d.data = v b ∧
      findDirty m b ≠ none ∧ Presents sb j₀ mode g { c with mgr := m } v ∧ OnlyStaged c { c with mgr := m } := by
  rw [run_findOrCreateDirty]
  cases hfind : findDirty c.mgr b with
  | some d =>
      refine ⟨d, c.mgr, rfl, ?_, by simp [hfind], h, .refl c⟩
      rw [← h.content b (hvol.home hb), Core.content_staged h.staged_ok hfind]
  | none =>
      have hlt : b < c.mgr.dev.nblocks := by
        rw [pcOk_dev h.core.pc]
        exact hvol.lt hb
      rw [Core.seed_of_findsNewest h.staged_ok hfinds hfind hlt]
      have hstaged := staged_insertDirty h.staged_ok (d := ⟨b, c.content b⟩) hfind
      have hnew : stagedContent (insertDirty c.mgr ⟨b, c.content b⟩) =
          fun b' => if b' = b then some (c.content b) else stagedContent c.mgr b' := by
        simp only [stagedContent_insertDirty, eq_comm]
      have hfs : ∀ n ∈ stagedNodes (insertDirty c.mgr ⟨b, c.content b⟩), IsFs sb n.blockno := by
        intro n hn
        rcases mem_stagedNodes_insertDirty hn with rfl | hn
        · exact hb
        · exact h.staged n hn
      refine ⟨⟨b, c.content b⟩, _, rfl, h.content b (hvol.home hb), findDirty_of_stage hnew (.inl rfl), ?_, rfl, rfl, rfl,
        rfl, rfl, rfl, rfl, rfl⟩
      refine ⟨h.core.of_mgr rfl rfl hstaged fun n hn => hvol.lt (hfs n hn), h.mode, fun b' hb' => ?_, h.bounded,
        hfs, fun b' hb' => findDirty_of_stage hnew (.inr (h.held b' hb')), h.handles⟩
      rw [Core.content_stage h.staged_ok hstaged rfl hnew b', ← h.content b' hb']
      split
      · next he => rw [he]
      · rfl

/-- The caller's store through its buffer. -/
theorem store (hvol : OnVolume sb j₀) (h : Presents sb j₀ mode g c v) (hdata : BlockBounded sb b data)
    (hnode : findDirty c.mgr b ≠ none) :
    Presents sb j₀ mode g { c with mgr := writeBuffer c.mgr b data } (Function.update v b data) := by
  have hstaged := staged_writeBuffer h.staged_ok b data
  have hnew := stagedContent_writeBuffer hnode data
  have hfs : ∀ n ∈ stagedNodes (writeBuffer c.mgr b data), IsFs sb n.blockno := by
    intro n hn
    obtain ⟨e, he, heq⟩ := mem_stagedNodes_writeBuffer hn
    rw [← heq]
    exact h.staged e he
  refine ⟨h.core.of_mgr rfl rfl hstaged fun n hn => hvol.lt (hfs n hn), h.mode, fun b' hb' => ?_,
    fun b' hb' => ?_, hfs, fun b' hb' => findDirty_of_stage hnew (.inr (h.held b' hb')), h.handles⟩
  · rw [Core.content_stage h.staged_ok hstaged rfl hnew b', Function.update_apply, h.content b' hb']
  · rw [Function.update_apply]
    split
    · next he => rwa [he]
    · exact h.bounded b' hb'

/-- Another stage of the call, with the same number of handles. -/
theorem goto {g' : Stage} (h : Presents sb j₀ mode g c v) (hheld : ∀ b, g'.held = some b → findDirty c.mgr b ≠ none)
    (hhandles : g.handles = g'.handles) : Presents sb j₀ mode g' c v :=
  ⟨h.core, h.mode, h.content, h.bounded, h.staged, hheld, h.handles.trans hhandles⟩

end Presents

/-- A function that looks for no block in the commit thread's hands. -/
def servedNewest : Environment TxnRes Core := fun o c r c' =>
  (∀ b, o.blockno = some b → c.findsNewest b = true) ∧ served o c r c'

theorem run_txnReadBlock (hvol : OnVolume sb j₀) (h : Presents sb j₀ mode g c v) (hb : IsFs sb b)
    (hfinds : c.findsNewest b = true) :
    run faultless (txnReadBlock c.mgr b).run c.disk = (.ok (v b), c.disk) := by
  have hlt : b < c.mgr.dev.nblocks := by
    rw [pcOk_dev h.core.pc]
    exact hvol.lt hb
  rw [← h.content b (hvol.home hb), txnReadBlock]
  cases hfind : findDirty c.mgr b with
  | some d =>
      rw [Core.content_staged h.staged_ok hfind]
      rfl
  | none =>
      have hseed := Core.seed_of_findsNewest h.staged_ok hfinds hfind hlt
      rw [seed] at hseed
      cases hckpt : findCheckpointed c.mgr b with
      | some d =>
          rw [hckpt] at hseed
          rw [← Option.some.inj hseed]
          rfl
      | none =>
          rw [hckpt] at hseed
          dsimp only at hseed
          rw [if_neg (by simpa using hlt)] at hseed
          rw [← Option.some.inj hseed]
          exact run_bdevRead c.disk hlt

theorem run_getWriteAccess_of {d : DirtyBlock} {m : TxnMgr}
    (hrun : run faultless (findOrCreateDirty c.mgr b) c.disk = ((some d, m), c.disk)) :
    run faultless (getWriteAccess c.mgr b) c.disk = ((.ok d.data, m), c.disk) := by
  rw [getWriteAccess, run_bind, hrun]
  rfl

theorem run_dirtyMetadata_of {d : DirtyBlock} {m : TxnMgr}
    (hrun : run faultless (findOrCreateDirty c.mgr b) c.disk = ((some d, m), c.disk)) :
    run faultless (dirtyMetadata c.mgr b) c.disk = ((.ok (), m), c.disk) := by
  rw [dirtyMetadata, run_bind, hrun]
  rfl

/-- In journal mode file data is staged like any other block. -/
theorem run_txnWriteData_journal {m m' : TxnMgr} {d : Disk} {old buf : Block} (hmode : m.mode = .journal)
    (hrun : run faultless (getWriteAccess m b) d = ((.ok old, m'), d)) (hnode : findDirty m' b ≠ none) :
    run faultless (txnWriteData m b buf) d = ((.ok (), writeBuffer m' b buf), d) := by
  have hstaged : findDirty (writeBuffer m' b buf) b ≠ none := by
    rw [findDirty_writeBuffer, if_pos rfl, Ne, Option.map_eq_none_iff]
    exact hnode
  rw [txnWriteData, hmode]
  simp only [run_bind, hrun]
  exact run_dirtyMetadata_staged d hstaged

/-- Each function answers as the logical block view does. -/
theorem serves_view (hvol : OnVolume sb j₀) (c₀ : Core) : Serves (fsContract sb (mode = .journal)) servedNewest
    (replying (viewTxn sb.totalBlocks latest))
    fun g c v => Presents sb j₀ mode g c v ∧ OnlyStaged c₀ c := by
  rintro o g c r c' v hop ⟨h, hframe⟩ ⟨hfinds, p, m, d, hcall, hrun, rfl⟩
  have hreads : ∀ {b}, o = .readBlock b → IsFs sb b → (fsContract sb (mode = .journal)).answers o r ∧
      (replying (viewTxn sb.totalBlocks latest)) o v r v ∧
      ({ c with mgr := m, disk := d } : Core) = c := by
    rintro b rfl hb
    cases hcall
    have hread := run_txnReadBlock hvol h hb (hfinds b rfl)
    rw [run_bind, hread] at hrun
    cases hrun
    refine ⟨?_, ?_, rfl⟩
    · rintro data ⟨⟩
      exact h.bounded b hb
    · simp only [replying, viewTxn, if_pos hb.2]
  cases g with
  | ended => cases o <;> exact hop.elim
  | before =>
      cases o with
      | start =>
          obtain ⟨⟨handle, m'⟩, hstart, rfl⟩ := Option.map_eq_some_iff.mp hcall
          unfold txnStart at hstart
          split_ifs at hstart
          cases hstart
          cases hrun
          refine ⟨trivial, v, rfl, ?_, hframe.update ⟨rfl, rfl, rfl, rfl, rfl, rfl, rfl, rfl⟩⟩
          exact h.of_mgr hvol rfl rfl rfl rfl rfl (by simp [fsContract, Stage.held]) (congrArg (· + 1) h.handles)
      | readBlock b =>
          obtain ⟨hans, hview, hsame⟩ := hreads rfl hop
          rw [hsame]
          exact ⟨hans, v, hview, h, hframe⟩
      | _ => exact hop.elim
  | inside held =>
      cases o with
      | start => exact hop.elim
      | stop =>
          cases hcall
          cases hrun
          refine ⟨trivial, v, rfl, ?_, hframe.update ⟨rfl, rfl, rfl, rfl, rfl, rfl, rfl, rfl⟩⟩
          exact h.of_mgr hvol rfl rfl rfl rfl rfl (by simp [fsContract, Stage.held]) (congrArg (· - 1) h.handles)
      | readBlock b =>
          obtain ⟨hans, hview, hsame⟩ := hreads rfl hop
          rw [hsame]
          exact ⟨hans, v, hview, h.goto (by simp [fsContract, Stage.held]) rfl, hframe⟩
      | getWriteAccess b =>
          obtain ⟨n, m', hfind, hdata, hnode, hnext, hstaged⟩ := h.findOrCreate hvol hop (hfinds b rfl)
          cases hcall
          rw [run_getWriteAccess_of hfind] at hrun
          cases hrun
          refine ⟨?_, v, ?_, hnext.goto ?_ rfl, hframe.update hstaged⟩
          · rintro data ⟨⟩
            rw [hdata]
            exact h.bounded b hop
          · simp only [replying, viewTxn, if_pos hop.2, hdata]
          · rintro b' ⟨⟩
            exact hnode
      | modify b data =>
          obtain ⟨rfl, hb, hdata⟩ := hop
          cases hcall
          cases hrun
          exact ⟨trivial, _, rfl, (h.store hvol hdata (h.held b rfl)).goto (by simp [fsContract, Stage.held]) rfl,
            hframe.update ⟨rfl, rfl, rfl, rfl, rfl, rfl, rfl, rfl⟩⟩
      | dirtyMetadata b =>
          obtain ⟨n, m', hfind, hdata, hnode, hnext, hstaged⟩ := h.findOrCreate hvol hop (hfinds b rfl)
          cases hcall
          rw [run_dirtyMetadata_of hfind] at hrun
          cases hrun
          refine ⟨trivial, v, ?_, hnext.goto (by simp [fsContract, Stage.held]) rfl, hframe.update hstaged⟩
          simp only [replying, viewTxn, if_pos hop.2]
      | writeData b buf =>
          obtain ⟨hjournal, hb⟩ := hop
          have hfs := hb.isFs hvol.layout
          obtain ⟨n, m', hfind, hdata, hnode, hnext, hstaged⟩ := h.findOrCreate hvol hfs (hfinds b rfl)
          cases hcall
          rw [run_txnWriteData_journal (h.mode.trans hjournal) (run_getWriteAccess_of hfind) hnode] at hrun
          cases hrun
          refine ⟨trivial, Function.update v b buf, ?_,
            (hnext.store hvol (blockBounded_data hvol.layout hb buf) hnode).goto (by simp [fsContract, Stage.held]) rfl,
            hframe.update (hstaged.update ⟨rfl, rfl, rfl, rfl, rfl, rfl, rfl, rfl⟩)⟩
          simp only [replying, viewTxn, if_pos hfs.2, latest]

end View

/-! ## The call and the thread -/

/-- What is left of the call does what the whole call did over the view, and stays with the file system. -/
structure Underway (sb : Super) (mode : DataMode) (v₀ : Image) (c : UserCall × UInt64)
    (p : TxnM (Except Errno Reply)) (g : Stage) (v : Image) : Prop where
  stays : Abides (fsContract sb (mode = .journal)) (fun g _ => ¬ g.IsInside) g p
  rest : run (viewTxn sb.totalBlocks latest) p v = run (viewTxn sb.totalBlocks latest) (c.1.program sb c.2).run v₀
  unchanged : g = .before → v = v₀

/-- The call that has the lock is under way. -/
def Mounted.CallAt (sb : Super) (mode : DataMode) (v₀ : Image) (g : Stage) (v : Image) :
    Option ((UserCall × UInt64) × TxnM (Except Errno Reply)) → Prop
  | none => g = .before ∧ v = v₀
  | some (c, .op o k) => Underway sb mode v₀ c (.op o k) g v
  | some (_, .ret _) => False

/-- The calls that have returned did what they do over the view, and the one under way sees it. -/
structure MountedOk (sb : Super) (j₀ : Journal) (mode : DataMode) (v₀ : Image) (s : Mounted) : Prop where
  sees : ∃ g v, Presents sb j₀ mode g s.toCore v ∧
    Mounted.CallAt sb mode (viewAfter sb v₀ s.returned) g v s.current
  replied : s.replied = replies sb v₀ s.returned

section Runs
variable {sb : Super} {j₀ : Journal} {mode : DataMode} {v₀ v v' : Image} {s s' : Mounted} {g : Stage}
  {c : UserCall × UInt64} {p : TxnM (Except Errno Reply)}

theorem Underway.op {o : TxnCall} {k : TxnRes o → TxnM (Except Errno Reply)} {r : TxnRes o}
    (h : Underway sb mode v₀ c (.op o k) g v)
    (hstays : Abides (fsContract sb (mode = .journal)) (fun g _ => ¬ g.IsInside)
      ((fsContract sb (mode = .journal)).next g o r) (k r))
    (hview : viewTxn sb.totalBlocks latest o v = (r, v')) :
    Underway sb mode v₀ c (k r) ((fsContract sb (mode = .journal)).next g o r) v' := by
  refine ⟨hstays, ?_, fun hbefore => ?_⟩
  · rw [← h.rest, run_op, hview]
  · obtain ⟨hop, -⟩ := h.stays
    cases g with
    | before =>
        cases o with
        | readBlock b =>
            cases hview
            exact h.unchanged rfl
        | start => cases hbefore
        | _ => exact hop.elim
    | inside held =>
        cases o with
        | getWriteAccess b => cases r <;> cases hbefore
        | _ => cases hbefore
    | ended => cases o <;> exact hop.elim

/-- The call asks for its next function, or returns. -/
theorem MountedOk.goOn (hsees : Presents sb j₀ mode g s.toCore v)
    (hcall : Underway sb mode (viewAfter sb v₀ s.returned) c p g v) (hreplied : s.replied = replies sb v₀ s.returned) :
    MountedOk sb j₀ mode v₀ (s.goOn c p) := by
  cases p with
  | op o k => exact ⟨⟨g, v, hsees, hcall⟩, hreplied⟩
  | ret r =>
      have hout := hcall.stays
      obtain ⟨hr, hv⟩ := Prod.mk.inj hcall.rest
      refine ⟨⟨.before, v, hsees.goto (fun _ h => (by cases h)) ?_, rfl, ?_⟩, ?_⟩
      · cases g with
        | inside held => exact absurd trivial hout
        | before | ended => rfl
      · change v = viewAfter sb v₀ (s.returned ++ [c])
        rw [viewAfter_snoc, hv]
        rfl
      · change s.replied ++ [r] = replies sb v₀ (s.returned ++ [c])
        rw [replies_snoc, hreplied, hr]
        rfl

theorem runningHandles_of_endsFreeze {core : Core} (h : endsFreeze core = true) : core.mgr.runningHandles = 0 := by
  unfold endsFreeze at h
  split at h
  · exact beq_iff_eq.mp (Bool.and_eq_true_iff.mp h).2
  · exact beq_iff_eq.mp h
  · cases h

/-- The thread stages nothing. -/
theorem ThreadStep.stagedNodes {core core' : Core} (hstep : ThreadStep core core') (hstaged : Staged core.mgr) :
    Logfs.stagedNodes core'.mgr = [] ∨ Logfs.stagedNodes core'.mgr = Logfs.stagedNodes core.mgr := by
  cases hstep with
  | take =>
      rw [endFreeze_of_staged hstaged]
      exact .inl (stagedNodes_of_empty rfl)
  | _ => exact .inr rfl

/-- A step of the thread shows the call the same blocks. -/
theorem Presents.thread (hvol : OnVolume sb j₀) {core core' : Core} (h : Presents sb j₀ mode g core v)
    (hfits : endsFreeze core = true → stagedNodes core.mgr ≠ [] → FitsJournal j₀ (stagedNodes core.mgr))
    (hstep : ThreadStep core core') : Presents sb j₀ mode g core' v := by
  refine ⟨h.core.step hvol.placed hstep hfits, hstep.mode.trans h.mode, fun b hb => ?_, h.bounded, ?_, ?_,
    hstep.runningHandles.trans h.handles⟩
  · rw [h.core.content_step hstep hb, h.content b hb]
  · intro n hn
    rcases hstep.stagedNodes h.staged_ok with hnone | hsame
    · rw [hnone] at hn
      cases hn
    · exact h.staged n (hsame ▸ hn)
  · intro b hb
    rcases hstep.buckets with hends | ⟨hsame, -⟩
    · have hlive : core.mgr.runningHandles = 1 := by
        rw [h.handles]
        cases g with
        | inside held => rfl
        | before | ended => cases hb
      rw [runningHandles_of_endsFreeze hends] at hlive
      cases hlive
    · have hold := h.held b hb
      rwa [findDirty, ← hsame] at hold

theorem mountedOk_preserved (hvol : OnVolume sb j₀) :
    Preserves (Mounted.step sb) (mountRules j₀) (MountedOk sb j₀ mode v₀) := by
  intro s s' a hok hnow h
  obtain ⟨g, v, hsees, hat⟩ := h.sees
  cases Mounted.step_sound hnow with
  | abort => exact ⟨⟨g, v, hsees, hat⟩, h.replied⟩
  | @call c now hfree =>
      rw [hfree] at hat
      obtain ⟨rfl, rfl⟩ := hat
      refine .goOn hsees ⟨?_, rfl, fun _ => rfl⟩ h.replied
      have hstays := stays_program hvol.layout c (fun hw => hsees.mode.symm.trans (hok hw)) now
      exact Abides.mono hstays fun _ _ hg => hg.1
  | @txn c o k r core hask hserved =>
      rw [hask] at hat
      have hfinds : ∀ b, o.blockno = some b → s.findsNewest b = true := fun b => hok c o k b hask
      obtain ⟨hstays, v', hview, hnext, hframe⟩ := (serves_view hvol s.toCore).op hat.stays
        ⟨hsees, .refl _⟩ ⟨hfinds, hserved⟩
      exact MountedOk.goOn (s := { s with toCore := core, handle := _ }) hnext (hat.op hstays hview) h.replied
  | commitSync => exact ⟨⟨g, v, hsees.of_mgr hvol rfl rfl rfl rfl rfl hsees.held hsees.handles, hat⟩, h.replied⟩
  | thread hstep => exact ⟨⟨g, v, hsees.thread hvol hok hstep, hat⟩, h.replied⟩

/-- The call's next function changes the staging table only, and stages blocks of the file system. -/
theorem MountedOk.served (hvol : OnVolume sb j₀) (h : MountedOk sb j₀ mode v₀ s) (hok : mountRules j₀ s .txn)
    {o : TxnCall} {k : TxnRes o → TxnM (Except Errno Reply)} {r : TxnRes o} {core : Core}
    (hask : s.current = some (c, .op o k)) (hserved : Logfs.served o s.toCore r core) :
    OnlyStaged s.toCore core ∧ ∀ n ∈ stagedNodes core.mgr, IsFs sb n.blockno := by
  obtain ⟨g, v, hsees, hat⟩ := h.sees
  rw [hask] at hat
  have hfinds : ∀ b, o.blockno = some b → s.findsNewest b = true := fun b => hok c o k b hask
  obtain ⟨-, v', -, hnext, hframe⟩ := (serves_view hvol s.toCore).op hat.stays ⟨hsees, .refl _⟩ ⟨hfinds, hserved⟩
  exact ⟨hframe, hnext.staged⟩

theorem mountedOk_boot {img : Image} (hopen : Opened j₀ img)
    (hbounded : ∀ b, IsFs sb b → BlockBounded sb b (img b)) :
    MountedOk sb j₀ mode img (Mounted.boot j₀ (settled img) mode) := by
  have hcore := (sysOk_boot hopen mode).core
  refine ⟨⟨.before, img, ⟨hcore, rfl, fun b _ => ?_, hbounded, fun n hn => ?_, fun _ h => (by cases h), rfl⟩, rfl, rfl⟩, rfl⟩
  · have hnodes := nodes_boot j₀ img mode
    rw [Core.content]
    change applyWrites _ (nodeWrites (Sys.boot j₀ img mode).toCore.nodes) b = _
    rw [hnodes]
    rfl
  · rw [stagedNodes_of_empty rfl] at hn
    cases hn

end Runs

/-! ## After a format and a mount -/

section Mounted
variable {host : Except Errno Unit} {totalBlocks journalLen now : UInt64} {mode : DataMode} {d d₁ d₂ : Disk}
  {sb : Super} {j : Journal}
  (hformat : run faultless (fsFormat host totalBlocks journalLen mode now).run d = (.ok (), d₁))
  (hmount : run faultless (fsMount ⟨totalBlocks⟩).run d₁ = (.ok (sb, j), d₂))
include hformat hmount

theorem onVolume_mounted (hfits : TableFits totalBlocks) (hsome : 0 < journalLen) : OnVolume sb j := by
  obtain ⟨-, hplaced⟩ := placed_mounted hformat hmount
  obtain ⟨hsb, hacc, hlen, -, rfl, -⟩ := laidOut_mounted hformat hmount
  obtain ⟨htotal, -, hstart, hlength, hib, -⟩ := toNat_formatSuper sb hsb
  obtain ⟨hib, -, -, -, -⟩ := boundaries_of_accepted hsb hacc hlen
  refine ⟨layoutSound_of_accepted hsb hacc hlen hfits, hplaced.resolve_left ?_, htotal.symm, ?_⟩
  · intro hzero
    have hjl : sb.journalLen = journalLen := UInt64.toNat_inj.mp (by rw [hlength])
    rw [show sb.journalLen = 0 from hzero] at hjl
    rw [← hjl] at hsome
    exact absurd hsome (by decide)
  · change sb.journalStart.toNat + sb.journalLen.toNat ≤ _
    rw [hstart, hlength]
    omega

/-- The mount has found an empty log. -/
theorem opened_mounted (hfits : TableFits totalBlocks) (hsome : 0 < journalLen) : Opened j d₂.view := by
  have hvol := onVolume_mounted hformat hmount hfits hsome
  obtain ⟨-, -, -, -, rfl, hfresh⟩ := laidOut_mounted hformat hmount
  exact ⟨hvol.placed, rfl, hfresh.jsuper.1, hfresh.jsuper.2⟩

theorem bounded_view_mounted (hfits : TableFits totalBlocks) (b : UInt64) : BlockBounded sb b (d₂.view b) :=
  (bounded_mounted hformat hfits hmount).2 b _ rfl

/-- The replies of calls on a mounted image, with the commit thread at work, are those over the logical
block view of the image. -/
theorem replied_of_run (hfits : TableFits totalBlocks) (hsome : 0 < journalLen) (mode' : DataMode) {s : Mounted}
    (hrun : Run (Mounted.step sb) (mountRules j) (Mounted.boot j d₂ mode') s) :
    s.replied = replies sb d₂.view s.returned := by
  have hvol := onVolume_mounted hformat hmount hfits hsome
  rw [settled_mounted hformat hmount hvol.layout] at hrun
  exact (hrun.invariant (mountedOk_boot (opened_mounted hformat hmount hfits hsome) fun b _ => bounded_view_mounted hformat hmount hfits b)
    (mountedOk_preserved hvol)).replied

end Mounted

/-! ## A run -/

section Small

def smallCreate : UserCall × UInt64 := (.change (.create [slash, 0x61] 0x1A4), 0)
def smallWrite : UserCall × UInt64 := (.change (.write 2 [0x68, 0x69] 0), 0)
def smallMkdir : UserCall × UInt64 := (.change (.mkdir [slash, 0x64] 0x1ED), 0)

/-- A call with the `n` functions of `txn.h` it comes to. -/
def wholeCall (c : UserCall × UInt64) (n : ℕ) : List MountAction := .call c.1 c.2 :: List.replicate n .txn

/-- A file is created and written to, and both calls are committed. -/
def committedCalls : List MountAction :=
  wholeCall smallCreate 15 ++ wholeCall smallWrite 11 ++ .commitSync :: List.replicate 16 .thread

/-- After that a directory is made, and the commit of it begun. -/
def commitUnderWay : List MountAction :=
  committedCalls ++ wholeCall smallMkdir 25 ++ .commitSync :: List.replicate 5 .thread

def mountedJournal : Journal := ⟨⟨128⟩, 3, 64, 0, 0, 1⟩

def smallMount : Mounted := .boot mountedJournal smallDisk.flush .journal

theorem replied_small : ∃ s : Mounted, s.returned = [smallCreate, smallWrite, smallMkdir] ∧ s.durable = 2 ∧
    s.disk.pending ≠ [] ∧ s.replied = replies (formatSuper 128 64 .ordered) smallDisk.flush.view s.returned := by
  obtain ⟨s, hrun, hend⟩ := exists_run_of_exec (Mounted.step (formatSuper 128 64 .ordered)) (mountRules mountedJournal)
    smallMount commitUnderWay
    (fun s => decide (s.returned = [smallCreate, smallWrite, smallMkdir] ∧ s.durable = 2 ∧ s.disk.pending ≠ []))
    (by decide +kernel)
  obtain ⟨hreturned, hdurable, hpending⟩ := of_decide_eq_true hend
  exact ⟨s, hreturned, hdurable, hpending,
    replied_of_run run_format_small run_fsMount_small (by decide) (by decide) .journal hrun⟩

end Small
end Logfs
