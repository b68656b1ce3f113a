import Logfs.SystemInvariant

/-!
# Handles and the nodes they point to

The system once more, with the staging table and the generation arrays as the lists of
pointers they are in `txn.c`, and the buffers as memory that a handle writes through the
pointers it was given. The assertion of `logfs_txn_get_write_access` is left out.
-/
namespace Logfs
open Interaction WriteCache Transition HashTable

/-! ## Pointers -/

/-- A pointer to a `logfs_dirty_block`, with the block number stored in it. -/
structure Ptr where
  addr : ℕ
  blockno : UInt64
  deriving DecidableEq

/-- The node a pointer leads to. -/
def deref (mem : ℕ → Block) (p : Ptr) : DirtyBlock := ⟨p.blockno, mem p.addr⟩

/-- The array `flatten_and_clear` returned, and what its nodes held at that moment. -/
structure FlatArray where
  ptrs : List Ptr
  nodes : List DirtyBlock

structure PtrSys where
  sys : Sys
  /-- The `data` of the node at each address. -/
  mem : ℕ → Block
  nextAddr : ℕ
  table : Fin txnHashBuckets → List Ptr
  arrays : List FlatArray
  /-- The nodes each handle has staged, which it may write through their buffers. -/
  staged : List (ℕ × Ptr)

inductive PtrAction
  | thread
  | start
  /-- `logfs_txn_get_write_access`, or `logfs_txn_dirty_metadata`, which does the same to the table. -/
  | access (id : ℕ) (blockno : UInt64)
  | bufWrite (id : ℕ) (p : Ptr) (data : Block)
  | stop (id : ℕ)
  | syncCall
  | syncReturn (i : ℕ)
  | destroy

namespace PtrSys

def findNode (s : PtrSys) (blockno : UInt64) : Option Ptr := find hashBlock Ptr.blockno s.table blockno

/-- `flatten_and_clear` on the pointers. -/
def flatten (s : PtrSys) : PtrSys :=
  let ptrs := if s.sys.mgr.ndirty = 0 then [] else entries s.table
  { s with
    table := if s.sys.mgr.ndirty = 0 then s.table else fun _ => []
    arrays := s.arrays ++ [⟨ptrs, ptrs.map (deref s.mem)⟩] }

def threadAction (s : PtrSys) : Option PtrSys :=
  s.sys.threadAction.map fun sys =>
    if endsFreeze s.sys.toCore then { s.flatten with sys } else { s with sys }

/-- A node that is not in the table yet is allocated. -/
def accessAction (s : PtrSys) (id : ℕ) (blockno : UInt64) : Option PtrSys :=
  (s.sys.grantAccess id blockno).map fun sys =>
    match s.findNode blockno with
    | some p => { s with sys, staged := s.staged ++ [(id, p)] }
    | none =>
      match findDirty sys.mgr blockno with
      | none => { s with sys }
      | some d =>
          let p : Ptr := ⟨s.nextAddr, blockno⟩
          { sys
            mem := Function.update s.mem p.addr d.data
            nextAddr := s.nextAddr + 1
            table := HashTable.insert hashBlock Ptr.blockno s.table p
            arrays := s.arrays
            staged := s.staged ++ [(id, p)] }

/-- A live handle stores through a pointer it was given; the staging table sees it if the
node is its own. -/
def bufWriteAction (s : PtrSys) (id : ℕ) (p : Ptr) (data : Block) : Option PtrSys :=
  (s.sys.findHandle id).bind fun _ =>
    if (id, p) ∈ s.staged then
      some { s with
        sys := { s.sys with
          mgr := writeBuffer s.sys.mgr p.blockno data
          hist := s.sys.hist ++ [⟨id, p.blockno, data, false⟩] }
        mem := Function.update s.mem p.addr data }
    else none

def step (s : PtrSys) : PtrAction → Option PtrSys
  | .thread => s.threadAction
  | .start => s.sys.startAction.map fun sys => { s with sys }
  | .access id blockno => s.accessAction id blockno
  | .bufWrite id p data => s.bufWriteAction id p data
  | .stop id => (s.sys.stopAction id).map fun sys => { s with sys }
  | .syncCall => s.sys.syncCallAction.map fun sys => { s with sys }
  | .syncReturn i => (s.sys.syncReturnAction i).map fun sys => { s with sys }
  | .destroy => s.sys.destroyAction.map fun sys => { s with sys }

def boot (j : Journal) (img : Image) (mode : DataMode) : PtrSys where
  sys := Sys.boot j img mode
  mem := fun _ => zeroBlock
  nextAddr := 0
  table := fun _ => []
  arrays := []
  staged := []

end PtrSys

/-! ## Generations in the thread's hands -/

def Caller.generations : Caller → List (List DirtyBlock)
  | .reclaim nodes => [nodes]
  | _ => []

/-- The generations being committed or checkpointed. -/
def Pc.generations : Pc → List (List DirtyBlock)
  | .orderedFlush _ nodes | .reclaim _ nodes | .commit _ nodes | .link _ nodes _ => [nodes]
  | .unlink _ caller => caller.generations
  | .writeHome _ t _ caller | .nextTail _ t caller | .advance _ t caller => t.nodes :: caller.generations
  | _ => []

def Core.generations (c : Core) : List (List DirtyBlock) :=
  c.pc.generations ++ c.mgr.ckpt.map (·.nodes)

theorem generations_resume (j : Journal) (done : Bool) (caller : Caller) :
    (resume j done caller).generations = caller.generations := by
  cases caller <;> cases done <;> rfl

/-- The thread commits and checkpoints only what it took. -/
theorem ThreadStep.generations {c c' : Core} (h : ThreadStep c c') {g : List DirtyBlock}
    (hg : g ∈ c'.generations) :
    g ∈ c.generations ∨ endsFreeze c = true ∧ (g = (takeGeneration c.mgr).1.1) := by
  cases h with
  | @take m d pc j ends up =>
      have hckpt : (takeGeneration m).2.ckpt = m.ckpt := by
        have hsnd := congrArg TxnMgr.ckpt (takeGeneration_snd m)
        exact hsnd
      have hpc : g ∈ (endFreeze ⟨m, d, pc⟩ j).pc.generations → g = (takeGeneration m).1.1 := by
        intro hmem
        simp only [endFreeze, afterFreeze] at hmem
        split_ifs at hmem
        · exact List.mem_singleton.mp hmem
        · exact List.mem_singleton.mp hmem
        · simp [Pc.generations] at hmem
      rcases List.mem_append.mp hg with hg | hg
      · exact .inr ⟨ends, hpc hg⟩
      · left
        apply List.mem_append_right
        rw [← hckpt]
        exact hg
  | unlinkNone =>
      left
      rw [Core.generations, generations_resume] at hg
      exact hg
  | unlink oldest =>
      left
      simp only [Core.generations, Pc.generations, oldest, List.map_cons, List.mem_append,
        List.mem_cons] at hg ⊢
      tauto
  | writeHomeError | advanced =>
      left
      rw [Core.generations, generations_resume] at hg
      simp only [Core.generations, Pc.generations, List.mem_append, List.mem_cons] at hg ⊢
      tauto
  | orderedFlush =>
      left
      simp only [Core.generations, afterFreeze, List.mem_append] at hg
      simp only [Core.generations, Pc.generations, List.mem_append]
      refine hg.imp_left fun hmem => ?_
      split_ifs at hmem
      · exact hmem
      · simp [Pc.generations] at hmem
  | @link m d j nodes rc =>
      left
      simp only [Core.generations, Pc.generations, finishCommit] at hg ⊢
      cases rc with
      | error e => exact List.mem_append_right _ (by simpa using hg)
      | ok r =>
          simp only [List.map_append, List.map_cons, List.map_nil, List.nil_append] at hg
          rw [List.mem_append] at hg ⊢
          exact hg.symm
  | _ => exact .inl hg

/-! ## The invariant -/

/-- All nodes the handle has staged are in the staging table, or all are in one array. -/
def PtrSys.Together (s : PtrSys) (id : ℕ) : Prop :=
  (∀ p, (id, p) ∈ s.staged → p ∈ entries s.table) ∨ ∃ a ∈ s.arrays, ∀ p, (id, p) ∈ s.staged → p ∈ a.ptrs

structure PtrOk (s : PtrSys) : Prop where
  handles : HandlesOk s.sys
  table : Staged s.sys.mgr
  /-- The table of `txn.c`'s manager is the table of pointers with the memory read. -/
  buckets : s.sys.mgr.buckets = fun i => (s.table i).map (deref s.mem)
  addrs : ∀ p ∈ entries s.table, ∀ q ∈ entries s.table, p.addr = q.addr → p = q
  below : ∀ p ∈ entries s.table, p.addr < s.nextAddr
  gone : ∀ a ∈ s.arrays, ∀ q ∈ a.ptrs, q.addr < s.nextAddr ∧ ∀ p ∈ entries s.table, p.addr ≠ q.addr
  held : ∀ h ∈ s.sys.handles, ∀ p, (h.id, p) ∈ s.staged → p ∈ entries s.table
  known : ∀ id p, (id, p) ∈ s.staged → id < s.sys.nextHandle
  together : ∀ id, s.Together id
  bytes : ∀ a ∈ s.arrays, a.nodes = a.ptrs.map (deref s.mem)
  logged : ∀ g ∈ s.sys.toCore.generations, ∃ a ∈ s.arrays, a.nodes = g

namespace PtrOk
variable {s : PtrSys}

theorem stagedNodes_eq (h : PtrOk s) : stagedNodes s.sys.mgr = (entries s.table).map (deref s.mem) := by
  rw [← entries_map, ← h.buckets]
  rfl

theorem findDirty_eq (h : PtrOk s) (b : UInt64) :
    findDirty s.sys.mgr b = (s.findNode b).map (deref s.mem) := by
  have hkey : (fun d : DirtyBlock => d.blockno == b) ∘ deref s.mem = fun p => p.blockno == b := rfl
  simp only [findDirty, h.buckets, List.find?_map, hkey]
  rfl

/-- What the thread, the waiting callers and shutdown change of the system. -/
theorem of_sys (h : PtrOk s) {sys : Sys} (hhandles : sys.handles = s.sys.handles)
    (hnext : sys.nextHandle = s.sys.nextHandle)
    (hcount : sys.mgr.runningHandles = s.sys.mgr.runningHandles)
    (hbuckets : sys.mgr.buckets = s.sys.mgr.buckets) (hdirty : sys.mgr.ndirty = s.sys.mgr.ndirty)
    (hgens : ∀ g ∈ sys.toCore.generations, g ∈ s.sys.toCore.generations) :
    PtrOk { s with sys } where
  handles := ⟨by rw [hcount, hhandles]; exact h.handles.count, hhandles ▸ h.handles.ids,
    by rw [hhandles, hnext]; exact h.handles.fresh⟩
  table := h.table.of_table hbuckets hdirty
  buckets := hbuckets.trans h.buckets
  addrs := h.addrs
  below := h.below
  gone := h.gone
  held := by
    rw [show ({ s with sys } : PtrSys).sys.handles = s.sys.handles from hhandles]
    exact h.held
  known := by
    rw [show ({ s with sys } : PtrSys).sys.nextHandle = s.sys.nextHandle from hnext]
    exact h.known
  together := h.together
  bytes := h.bytes
  logged g hg := h.logged g (hgens g hg)

theorem flatten_eq (h : PtrOk s) :
    s.flatten = { s with
      table := fun _ => []
      arrays := s.arrays ++ [⟨entries s.table, (entries s.table).map (deref s.mem)⟩] } := by
  unfold PtrSys.flatten
  by_cases hzero : s.sys.mgr.ndirty = 0
  · have hnil : entries s.table = [] := by
      have hlen := h.table.count
      rw [hzero, h.stagedNodes_eq, List.length_map] at hlen
      exact List.length_eq_zero_iff.mp hlen.symm
    have htable : s.table = fun _ => [] := by
      funext i
      refine List.eq_nil_iff_forall_not_mem.mpr fun p hp => ?_
      have hmem : p ∈ entries s.table := mem_entries.mpr ⟨i, hp⟩
      simp [hnil] at hmem
    simp only [if_pos hzero, hnil, ← htable]
  · simp only [if_neg hzero]

/-- The end of a freeze: no handle is live, and the table's nodes become one array. -/
theorem take (h : PtrOk s) {c : Core} (hends : endsFreeze s.sys.toCore = true)
    (hstep : ThreadStep s.sys.toCore c) : PtrOk { s.flatten with sys := s.sys.afterThread c } := by
  have hnone := h.handles.none_live hends
  have htaken := h.table.takeGeneration_eq
  have hmgr : c.mgr = (takeGeneration s.sys.mgr).2 := by
    generalize s.sys.toCore = c₀ at hends hstep
    cases hstep with
    | take => rfl
    | _ => simp_all [endsFreeze]
  rw [h.flatten_eq]
  rw [htaken] at hmgr
  refine ⟨⟨?_, h.handles.ids, h.handles.fresh⟩, ?_, ?_, ?_, ?_, ?_, ?_, h.known, ?_, ?_, ?_⟩
  · exact hstep.runningHandles.trans h.handles.count
  · exact staged_of_empty (congrArg TxnMgr.buckets hmgr) (congrArg TxnMgr.ndirty hmgr)
  · exact congrArg TxnMgr.buckets hmgr
  · simp
  · simp
  · intro a ha q hq
    refine ⟨?_, by simp⟩
    rcases List.mem_append.mp ha with ha | ha
    · exact (h.gone a ha q hq).1
    · rw [List.mem_singleton.mp ha] at hq
      exact h.below q hq
  · intro g hg
    rw [show (s.sys.afterThread c).handles = [] from hnone] at hg
    simp at hg
  · intro id
    right
    rcases h.together id with htable | ⟨a, ha, hall⟩
    · exact ⟨_, List.mem_append_right _ (List.mem_singleton_self _), htable⟩
    · exact ⟨a, List.mem_append_left _ ha, hall⟩
  · intro a ha
    rcases List.mem_append.mp ha with ha | ha
    · exact h.bytes a ha
    · rw [List.mem_singleton.mp ha]
  · intro g hg
    rcases hstep.generations hg with hold | ⟨-, rfl⟩
    · obtain ⟨a, ha, he⟩ := h.logged g hold
      exact ⟨a, List.mem_append_left _ ha, he⟩
    · refine ⟨_, List.mem_append_right _ (List.mem_singleton_self _), ?_⟩
      rw [htaken, h.stagedNodes_eq]

theorem thread (h : PtrOk s) {s' : PtrSys} (hnow : s.threadAction = some s') : PtrOk s' := by
  obtain ⟨sys, hsys, rfl⟩ := Option.map_eq_some_iff.mp hnow
  obtain ⟨c, hc, rfl⟩ := Option.map_eq_some_iff.mp hsys
  have hstep := threadStep_sound hc
  change PtrOk (if endsFreeze s.sys.toCore then { s.flatten with sys := s.sys.afterThread c }
    else { s with sys := s.sys.afterThread c })
  by_cases hends : endsFreeze s.sys.toCore = true
  · rw [if_pos hends]
    exact h.take hends hstep
  · rw [if_neg hends]
    rcases hstep.buckets with hb | ⟨hbuckets, hdirty⟩
    · exact absurd hb hends
    · refine h.of_sys rfl rfl hstep.runningHandles hbuckets hdirty fun g hg => ?_
      rcases hstep.generations hg with hold | ⟨hb, -⟩
      · exact hold
      · exact absurd hb hends

theorem start (h : PtrOk s) {sys : Sys} (hnow : s.sys.startAction = some sys) : PtrOk { s with sys } := by
  simp only [Sys.startAction, txnStart] at hnow
  split_ifs at hnow with hdown hfreeze
  · simp at hnow
  · cases hnow
    refine ⟨h.handles.start, h.table.of_table rfl rfl, h.buckets, h.addrs, h.below, h.gone, ?_, ?_,
      h.together, h.bytes, h.logged⟩
    · intro g hg p hp
      rcases List.mem_cons.mp hg with rfl | hg
      · exact absurd (h.known _ p hp) (Nat.lt_irrefl _)
      · exact h.held g hg p hp
    · exact fun id p hp => Nat.lt_succ_of_lt (h.known id p hp)

theorem stop (h : PtrOk s) {id : ℕ} {sys : Sys} (hnow : s.sys.stopAction id = some sys) :
    PtrOk { s with sys } := by
  obtain ⟨g, hfind, rfl⟩ := Option.map_eq_some_iff.mp hnow
  obtain ⟨hlive, rfl⟩ := Sys.mem_of_findHandle hfind
  exact ⟨h.handles.stop hlive, h.table.of_table rfl rfl, h.buckets, h.addrs, h.below, h.gone,
    fun g' hg' => h.held g' (List.mem_of_mem_filter hg'), h.known, h.together, h.bytes, h.logged⟩

/-- What a live handle has staged, `p` included, is in the table `t`. -/
theorem staged_by (h : PtrOk s) {id : ℕ} {p : Ptr} {t : Fin txnHashBuckets → List Ptr}
    (hkeep : ∀ q ∈ entries s.table, q ∈ entries t) (hp : p ∈ entries t) {g : LiveHandle}
    (hlive : g ∈ s.sys.handles) {q : Ptr} (hq : (g.id, q) ∈ s.staged ++ [(id, p)]) : q ∈ entries t := by
  rcases List.mem_append.mp hq with hq | hq
  · exact hkeep q (h.held g hlive q hq)
  · cases List.mem_singleton.mp hq
    exact hp

theorem together_by (h : PtrOk s) {id : ℕ} {p : Ptr} {t : Fin txnHashBuckets → List Ptr}
    (hkeep : ∀ q ∈ entries s.table, q ∈ entries t) (hp : p ∈ entries t)
    (hlive : ∃ g ∈ s.sys.handles, g.id = id) (id' : ℕ) :
    (∀ q, (id', q) ∈ s.staged ++ [(id, p)] → q ∈ entries t) ∨
      ∃ a ∈ s.arrays, ∀ q, (id', q) ∈ s.staged ++ [(id, p)] → q ∈ a.ptrs := by
  by_cases he : id' = id
  · obtain ⟨g, hg, rfl⟩ := hlive
    subst he
    exact .inl fun q hq => h.staged_by hkeep hp hg hq
  · have hold : ∀ q, (id', q) ∈ s.staged ++ [(id, p)] → (id', q) ∈ s.staged := by
      intro q hq
      refine (List.mem_append.mp hq).resolve_right fun hq => he ?_
      exact congrArg Prod.fst (List.mem_singleton.mp hq)
    refine (h.together id').imp (fun htable q hq => hkeep q (htable q (hold q hq))) ?_
    exact fun ⟨a, ha, hall⟩ => ⟨a, ha, fun q hq => hall q (hold q hq)⟩

theorem known_by (h : PtrOk s) {id : ℕ} {p : Ptr} (hlive : ∃ g ∈ s.sys.handles, g.id = id) :
    ∀ id' q, (id', q) ∈ s.staged ++ [(id, p)] → id' < s.sys.nextHandle := by
  intro id' q hq
  rcases List.mem_append.mp hq with hq | hq
  · exact h.known id' q hq
  · cases List.mem_singleton.mp hq
    obtain ⟨g, hg, rfl⟩ := hlive
    exact h.handles.fresh g hg

/-- A handle is given the node that is in the table. -/
theorem accessStaged (h : PtrOk s) {id : ℕ} {b : UInt64} {p : Ptr} (hfind : s.findNode b = some p)
    (hlive : ∃ g ∈ s.sys.handles, g.id = id) :
    PtrOk { s with
      sys := { s.sys with handles := s.sys.giveBuffer id b }, staged := s.staged ++ [(id, p)] } := by
  obtain ⟨hlen, hids, hfresh⟩ := h.handles.giveBuffer id b
  have hp : p ∈ entries s.table := mem_of_find hfind
  refine ⟨⟨h.handles.count.trans hlen.symm, hids ▸ h.handles.ids, hfresh⟩, h.table, h.buckets, h.addrs,
    h.below, h.gone, ?_, h.known_by hlive, h.together_by (fun q hq => hq) hp hlive, h.bytes, h.logged⟩
  intro g hg q hq
  obtain ⟨g₀, hmem, hid, -⟩ := Sys.mem_giveBuffer hg
  rw [hid] at hq
  exact h.staged_by (fun q hq => hq) hp hmem hq

/-- Memory that is not in the table or in an array yet can be written. -/
theorem deref_update {mem : ℕ → Block} {a : ℕ} {data : Block} {ps : List Ptr} (hps : ∀ p ∈ ps, p.addr ≠ a) :
    ps.map (deref (Function.update mem a data)) = ps.map (deref mem) := by
  refine List.map_congr_left fun p hp => ?_
  rw [deref, deref, Function.update_of_ne (hps p hp)]

/-- A handle is given a node of its own making. -/
theorem accessNew (h : PtrOk s) {id : ℕ} {b : UInt64} {data : Block} (hdirty : findDirty s.sys.mgr b = none)
    (hlive : ∃ g ∈ s.sys.handles, g.id = id) :
    PtrOk
      { sys := { s.sys with
          mgr := insertDirty s.sys.mgr ⟨b, data⟩
          handles := s.sys.giveBuffer id b
          hist := s.sys.hist ++ [⟨id, b, data, true⟩] }
        mem := Function.update s.mem s.nextAddr data
        nextAddr := s.nextAddr + 1
        table := HashTable.insert hashBlock Ptr.blockno s.table ⟨s.nextAddr, b⟩
        arrays := s.arrays
        staged := s.staged ++ [(id, ⟨s.nextAddr, b⟩)] } := by
  obtain ⟨hlen, hids, hfresh⟩ := h.handles.giveBuffer id b
  have hold : ∀ p ∈ entries s.table, p.addr ≠ s.nextAddr := fun p hp => (h.below p hp).ne
  have hmem : ∀ p, p ∈ entries (HashTable.insert hashBlock Ptr.blockno s.table ⟨s.nextAddr, b⟩) ↔
      p = ⟨s.nextAddr, b⟩ ∨ p ∈ entries s.table := fun p => mem_entries_insert
  have hkeep : ∀ q ∈ entries s.table, q ∈ entries (HashTable.insert hashBlock Ptr.blockno s.table ⟨s.nextAddr, b⟩) :=
    fun q hq => (hmem q).mpr (.inr hq)
  have hp := (hmem ⟨s.nextAddr, b⟩).mpr (.inl rfl)
  have hchain : ∀ i, (s.table i).map (deref (Function.update s.mem s.nextAddr data)) =
      (s.table i).map (deref s.mem) :=
    fun i => deref_update fun p hp => hold p (mem_entries.mpr ⟨i, hp⟩)
  refine ⟨⟨h.handles.count.trans hlen.symm, hids ▸ h.handles.ids, hfresh⟩,
    staged_insertDirty h.table hdirty, ?_, ?_, ?_, ?_, ?_, h.known_by hlive, h.together_by hkeep hp hlive,
    ?_, h.logged⟩
  · funext i
    have hbuckets : ∀ i, s.sys.mgr.buckets i = (s.table i).map (deref s.mem) := congrFun h.buckets
    simp only [insertDirty, HashTable.insert]
    by_cases hi : i = hashBlock b
    · subst hi
      simp only [Function.update_self, List.map_cons, hchain, hbuckets]
      simp [deref]
    · simp only [Function.update_of_ne hi, hchain, hbuckets]
  · intro p hp' q hq he
    rcases (hmem p).mp hp' with rfl | hp' <;> rcases (hmem q).mp hq with rfl | hq
    · rfl
    · exact absurd he.symm (hold q hq)
    · exact absurd he (hold p hp')
    · exact h.addrs p hp' q hq he
  · intro p hp'
    rcases (hmem p).mp hp' with rfl | hp'
    · exact Nat.lt_succ_self _
    · exact Nat.lt_succ_of_lt (h.below p hp')
  · intro a ha q hq
    obtain ⟨hlt, hne⟩ := h.gone a ha q hq
    refine ⟨Nat.lt_succ_of_lt hlt, fun p hp' => ?_⟩
    rcases (hmem p).mp hp' with rfl | hp'
    · exact hlt.ne'
    · exact hne p hp'
  · intro g hg q hq
    obtain ⟨g₀, hlive₀, hid, -⟩ := Sys.mem_giveBuffer hg
    rw [hid] at hq
    exact h.staged_by hkeep hp hlive₀ hq
  · intro a ha
    rw [h.bytes a ha]
    exact (deref_update fun q hq => (h.gone a ha q hq).1.ne).symm

theorem access (h : PtrOk s) {id : ℕ} {b : UInt64} {s' : PtrSys}
    (hnow : s.accessAction id b = some s') : PtrOk s' := by
  obtain ⟨sys, hsys, rfl⟩ := Option.map_eq_some_iff.mp hnow
  obtain ⟨hlive, hcases⟩ := Sys.grantAccess_cases hsys
  have hfind := h.findDirty_eq b
  rcases hcases with ⟨hdirty, rfl⟩ | ⟨hdirty, rfl⟩ | ⟨data, hdirty, rfl⟩
  · cases hnode : s.findNode b with
    | none => simp [hfind, hnode] at hdirty
    | some p => exact h.accessStaged hnode hlive
  · have hnode : s.findNode b = none := by simpa [hdirty] using hfind.symm
    simp only [hnode, hdirty]
    exact h
  · have hnode : s.findNode b = none := by simpa [hdirty] using hfind.symm
    have hnew : findDirty (insertDirty s.sys.mgr ⟨b, data⟩) b = some ⟨b, data⟩ := by
      rw [findDirty_eq_find]
      exact (find_insert b).trans (if_pos rfl)
    simp only [hnode, hnew]
    exact h.accessNew hdirty hlive

/-- A store through a live handle's pointer reaches the staging table and no array. -/
theorem bufWrite (h : PtrOk s) {id : ℕ} {p : Ptr} {data : Block} {s' : PtrSys}
    (hnow : s.bufWriteAction id p data = some s') : PtrOk s' := by
  obtain ⟨g, hfind, he⟩ := Option.bind_eq_some_iff.mp hnow
  obtain ⟨hlive, rfl⟩ := Sys.mem_of_findHandle hfind
  split_ifs at he with hstaged
  cases he
  have hp := h.held g hlive p hstaged
  have hblock : ∀ q ∈ entries s.table, q.blockno = p.blockno → q = p := by
    have hnodup := h.table.table.nodup_entries
    rw [show entries s.sys.mgr.buckets = _ from h.stagedNodes_eq, List.map_map] at hnodup
    exact fun q hq he => List.inj_on_of_nodup_map hnodup hq hp he
  refine ⟨⟨h.handles.count, h.handles.ids, h.handles.fresh⟩, staged_writeBuffer h.table _ _, ?_, h.addrs,
    h.below, h.gone, h.held, h.known, h.together, ?_, h.logged⟩
  · have hnode : ∀ q ∈ entries s.table, deref (Function.update s.mem p.addr data) q =
        if (deref s.mem q).blockno = p.blockno then { deref s.mem q with data } else deref s.mem q := by
      intro q hq
      by_cases hqp : q.blockno = p.blockno
      · obtain rfl := hblock q hq hqp
        simp [deref]
      · have haddr : q.addr ≠ p.addr := fun he => hqp (congrArg Ptr.blockno (h.addrs q hq p hp he))
        simp [deref, hqp, Function.update_of_ne haddr]
    have hbuckets : ∀ i, s.sys.mgr.buckets i = (s.table i).map (deref s.mem) := congrFun h.buckets
    funext i
    simp only [writeBuffer]
    by_cases hi : i = hashBlock p.blockno
    · subst hi
      rw [Function.update_self, hbuckets, List.map_map]
      exact (List.map_congr_left fun q hq => hnode q (mem_entries.mpr ⟨_, hq⟩)).symm
    · rw [Function.update_of_ne hi, hbuckets]
      refine (List.map_congr_left fun q hq => ?_).symm
      rw [hnode q (mem_entries.mpr ⟨_, hq⟩), if_neg]
      intro he
      apply hi
      have hplaced := h.table.table.placed i (deref s.mem q)
        (by rw [hbuckets]; exact List.mem_map_of_mem hq)
      rw [← hplaced]
      exact congrArg hashBlock he
  · intro a ha
    rw [h.bytes a ha]
    exact (deref_update fun q hq => ((h.gone a ha q hq).2 p hp).symm).symm

theorem step (h : PtrOk s) {a : PtrAction} {s' : PtrSys} (hnow : s.step a = some s') : PtrOk s' := by
  cases a with
  | thread => exact h.thread hnow
  | access id b => exact h.access hnow
  | bufWrite id p data => exact h.bufWrite hnow
  | start =>
      obtain ⟨sys, hsys, rfl⟩ := Option.map_eq_some_iff.mp hnow
      exact h.start hsys
  | stop id =>
      obtain ⟨sys, hsys, rfl⟩ := Option.map_eq_some_iff.mp hnow
      exact h.stop hsys
  | syncCall =>
      obtain ⟨sys, hsys, rfl⟩ := Option.map_eq_some_iff.mp hnow
      cases Sys.steps_syncCall hsys with
      | syncNow | syncWait => exact h.of_sys rfl rfl rfl rfl rfl fun g hg => hg
  | syncReturn i =>
      obtain ⟨sys, hsys, rfl⟩ := Option.map_eq_some_iff.mp hnow
      obtain ⟨call, -, he⟩ := Option.bind_eq_some_iff.mp hsys
      split_ifs at he
      cases he
      exact h.of_sys rfl rfl rfl rfl rfl fun g hg => hg
  | destroy =>
      obtain ⟨sys, hsys, rfl⟩ := Option.map_eq_some_iff.mp hnow
      simp only [Sys.destroyAction] at hsys
      split_ifs at hsys
      cases hsys
      exact h.of_sys rfl rfl rfl rfl rfl fun g hg => hg

theorem boot (j : Journal) (img : Image) (mode : DataMode) : PtrOk (PtrSys.boot j img mode) where
  handles := ⟨rfl, by simp [PtrSys.boot, Sys.boot], by simp [PtrSys.boot, Sys.boot]⟩
  table := staged_txnMgrCreate _ _ _
  buckets := rfl
  addrs := by simp [PtrSys.boot]
  below := by simp [PtrSys.boot]
  gone := by simp [PtrSys.boot]
  held := by simp [PtrSys.boot]
  known := by simp [PtrSys.boot]
  together id := .inl (by simp [PtrSys.boot])
  bytes := by simp [PtrSys.boot]
  logged g hg := by
    have hnone : (PtrSys.boot j img mode).sys.toCore.generations = [] := rfl
    simp [hnone] at hg

end PtrOk

/-- What freezing is for. -/
structure HandleAtomic (s : PtrSys) : Prop where
  /-- When the table is emptied no handle is live. -/
  quiet : endsFreeze s.sys.toCore = true → s.sys.handles = []
  /-- What one handle has staged is not spread over several generations. -/
  together : ∀ id, s.Together id
  /-- The nodes a live handle can write are in the staging table, and in no array. -/
  held : ∀ h ∈ s.sys.handles, ∀ p, (h.id, p) ∈ s.staged →
    p ∈ entries s.table ∧ ∀ a ∈ s.arrays, ∀ q ∈ a.ptrs, p.addr ≠ q.addr
  /-- The nodes of every array hold what they held when it was taken. -/
  bytes : ∀ a ∈ s.arrays, a.ptrs.map (deref s.mem) = a.nodes
  /-- What is committed or checkpointed is what the nodes of an array hold. -/
  logged : ∀ g ∈ s.sys.toCore.generations, ∃ a ∈ s.arrays, g = a.ptrs.map (deref s.mem)

/-- Arrays are only added. -/
theorem PtrSys.arrays_step {s s' : PtrSys} {a : PtrAction} (hnow : s.step a = some s') :
    s.arrays <+: s'.arrays := by
  cases a with
  | thread =>
      obtain ⟨sys, -, rfl⟩ := Option.map_eq_some_iff.mp hnow
      split
      · exact List.prefix_append _ _
      · exact List.prefix_refl _
  | access id b =>
      obtain ⟨sys, -, rfl⟩ := Option.map_eq_some_iff.mp hnow
      split
      · exact List.prefix_refl _
      · split <;> exact List.prefix_refl _
  | bufWrite id p data =>
      obtain ⟨g, -, he⟩ := Option.bind_eq_some_iff.mp hnow
      split_ifs at he
      cases he
      exact List.prefix_refl _
  | start | stop | syncCall | syncReturn | destroy =>
      obtain ⟨sys, -, rfl⟩ := Option.map_eq_some_iff.mp hnow
      exact List.prefix_refl _

/-- In every interleaving, whatever the sizes of the generations and the tags of the handles;
an array that was taken is still there at every later state. -/
theorem handleAtomic_of_run (j : Journal) (img : Image) (mode : DataMode) {s s' : PtrSys}
    (hrun : Run PtrSys.step (fun _ _ => True) (PtrSys.boot j img mode) s)
    (hlater : Run PtrSys.step (fun _ _ => True) s s') : HandleAtomic s' ∧ s.arrays <+: s'.arrays := by
  have h : PtrOk s' := (hrun.trans hlater).invariant (PtrOk.boot j img mode)
    fun _ _ _ _ hnow hs => hs.step hnow
  constructor
  · refine ⟨h.handles.none_live, h.together, ?_, fun a ha => (h.bytes a ha).symm, ?_⟩
    · intro g hg p hp
      have hin := h.held g hg p hp
      exact ⟨hin, fun a ha q hq => (h.gone a ha q hq).2 p hin⟩
    · intro g hg
      obtain ⟨a, ha, he⟩ := h.logged g hg
      exact ⟨a, ha, he ▸ h.bytes a ha⟩
  · exact hlater.invariant (I := fun t => s.arrays <+: t.arrays) (List.prefix_refl _)
      fun _ _ _ _ hnow ht => ht.trans (PtrSys.arrays_step hnow)

/-- A handle writes block 20 and stops, the freeze takes it, and the next handle writes the
block again while the first copy is being committed. -/
theorem handleAtomic_rewritten : ∃ s, s.arrays.length = 1 ∧ s.staged.length = 2 ∧ HandleAtomic s := by
  obtain ⟨s, hrun, htwo⟩ := exists_run_of_exec PtrSys.step (fun _ _ => True)
    (PtrSys.boot tinyJournal tinyImage .ordered)
    [.start, .access 0 20, .bufWrite 0 ⟨0, 20⟩ zeroBlock, .stop 0, .thread, .thread, .thread, .start,
      .access 1 20, .bufWrite 1 ⟨1, 20⟩ zeroBlock, .thread]
    (fun s => s.arrays.length == 1 && s.staged.length == 2) (by decide +kernel)
  simp only [Bool.and_eq_true, beq_iff_eq] at htwo
  exact ⟨s, htwo.1, htwo.2, (handleAtomic_of_run _ _ _ hrun .init).1⟩

end Logfs
