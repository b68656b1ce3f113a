import Logfs.Txn
import Logfs.JournalRun
import Logfs.Lib.HashTable

/-!
# The staging table as a map

What `find_or_create_dirty` and the callers' buffers do to the content the running
generation holds for each block, and what the commit thread takes away.
-/
namespace Logfs
open Interaction WriteCache

/-- The writes that put the nodes' contents at their blocks. -/
def nodeWrites (nodes : List DirtyBlock) : List (UInt64 × Block) :=
  nodes.map fun d => (d.blockno, d.data)

@[simp] theorem nodeWrites_nil : nodeWrites [] = [] := rfl

@[simp] theorem nodeWrites_cons (d : DirtyBlock) (ds : List DirtyBlock) :
    nodeWrites (d :: ds) = (d.blockno, d.data) :: nodeWrites ds := rfl

@[simp] theorem nodeWrites_append (ds es : List DirtyBlock) :
    nodeWrites (ds ++ es) = nodeWrites ds ++ nodeWrites es := List.map_append

theorem mem_nodeWrites {nodes : List DirtyBlock} {b : UInt64} {data : Block} :
    (b, data) ∈ nodeWrites nodes ↔ ⟨b, data⟩ ∈ nodes := by
  constructor
  · intro h
    obtain ⟨d, hd, he⟩ := List.mem_map.mp h
    cases he
    exact hd
  · exact fun h => List.mem_map.mpr ⟨_, h, rfl⟩

/-- The table is well formed and `ndirty` counts its nodes. -/
structure Staged (mgr : TxnMgr) : Prop where
  table : HashTable.WellFormed hashBlock DirtyBlock.blockno mgr.buckets
  count : mgr.ndirty = (stagedNodes mgr).length

/-- What the running generation holds for a block. -/
def stagedContent (mgr : TxnMgr) (b : UInt64) : Option Block := (findDirty mgr b).map (·.data)

theorem staged_txnMgrCreate (j : Journal) (dev : BlockDev) (mode : DataMode) :
    Staged (txnMgrCreate j dev mode) where
  table := HashTable.wellFormed_empty
  count := by simp [txnMgrCreate, stagedNodes]

variable {mgr : TxnMgr}

theorem findDirty_eq_find (mgr : TxnMgr) (b : UInt64) :
    findDirty mgr b = HashTable.find hashBlock DirtyBlock.blockno mgr.buckets b := rfl

theorem stagedContent_eq_none {b : UInt64} : stagedContent mgr b = none ↔ findDirty mgr b = none := by
  simp [stagedContent]

/-- The table's nodes, written in any order, leave what it holds. -/
theorem Staged.lastWrite_stagedNodes (h : Staged mgr) (b : UInt64) :
    lastWrite (nodeWrites (stagedNodes mgr)) b = stagedContent mgr b := by
  have hnodup : ((nodeWrites (stagedNodes mgr)).map Prod.fst).Nodup := by
    rw [nodeWrites, List.map_map]
    exact h.table.nodup_entries
  rw [lastWrite_of_nodup hnodup, nodeWrites, List.find?_map, Option.map_map, stagedContent,
    findDirty_eq_find, ← h.table.find?_entries]
  rfl

theorem Staged.stagedNodes_eq_nil (h : Staged mgr) : stagedNodes mgr = [] ↔ mgr.ndirty = 0 := by
  rw [h.count, List.length_eq_zero_iff]

theorem mem_stagedNodes_of_findDirty {b : UInt64} {d : DirtyBlock} (h : findDirty mgr b = some d) :
    d ∈ stagedNodes mgr := HashTable.mem_of_find h

/-! ## New nodes -/

theorem staged_insertDirty (h : Staged mgr) {d : DirtyBlock} (hfresh : findDirty mgr d.blockno = none) :
    Staged (insertDirty mgr d) where
  table := h.table.insert hfresh
  count := by
    change mgr.ndirty + 1 = (HashTable.entries (HashTable.insert hashBlock DirtyBlock.blockno mgr.buckets d)).length
    rw [HashTable.length_entries_insert, h.count]
    rfl

theorem stagedContent_insertDirty (mgr : TxnMgr) (d : DirtyBlock) :
    stagedContent (insertDirty mgr d) =
      fun b => if d.blockno = b then some d.data else stagedContent mgr b := by
  funext b
  have hfind : findDirty (insertDirty mgr d) b =
      if d.blockno = b then some d else findDirty mgr b := HashTable.find_insert b
  rw [stagedContent, hfind]
  split <;> rfl

theorem mem_stagedNodes_insertDirty {d e : DirtyBlock} (h : e ∈ stagedNodes (insertDirty mgr d)) :
    e = d ∨ e ∈ stagedNodes mgr := HashTable.mem_entries_insert.mp h

/-! ## Stores through a buffer -/

theorem buckets_writeBuffer (mgr : TxnMgr) (b : UInt64) (data : Block) :
    (writeBuffer mgr b data).buckets =
      HashTable.modify hashBlock DirtyBlock.blockno mgr.buckets b fun d => { d with data } := rfl

theorem staged_writeBuffer (h : Staged mgr) (b : UInt64) (data : Block) :
    Staged (writeBuffer mgr b data) where
  table := h.table.modify b fun _ => rfl
  count := by
    change mgr.ndirty = (HashTable.entries (writeBuffer mgr b data).buckets).length
    rw [buckets_writeBuffer, HashTable.length_entries_modify, h.count]
    rfl

theorem findDirty_writeBuffer (mgr : TxnMgr) (b : UInt64) (data : Block) (b' : UInt64) :
    findDirty (writeBuffer mgr b data) b' =
      if b' = b then (findDirty mgr b).map fun d => { d with data } else findDirty mgr b' := by
  have hkey : ∀ d : DirtyBlock, ({ d with data } : DirtyBlock).blockno = d.blockno := fun _ => rfl
  rw [findDirty_eq_find, buckets_writeBuffer]
  exact HashTable.find_modify hkey b'

theorem stagedContent_writeBuffer {b : UInt64} (hb : findDirty mgr b ≠ none) (data : Block) :
    stagedContent (writeBuffer mgr b data) =
      fun b' => if b' = b then some data else stagedContent mgr b' := by
  obtain ⟨d, hd⟩ := Option.ne_none_iff_exists'.mp hb
  funext b'
  rw [stagedContent, findDirty_writeBuffer]
  split
  · simp [hd]
  · rfl

/-- Staging a content for `b` gives `b` a node and takes none away. -/
theorem findDirty_of_stage {m : TxnMgr} {b : UInt64} {data : Block}
    (hnew : stagedContent m = fun b' => if b' = b then some data else stagedContent mgr b')
    {b' : UInt64} (hb' : b' = b ∨ findDirty mgr b' ≠ none) : findDirty m b' ≠ none := by
  rw [Ne, ← stagedContent_eq_none, hnew]
  by_cases he : b' = b
  · simp [he]
  · simp only [he, if_false]
    rw [stagedContent_eq_none]
    exact hb'.resolve_left he

theorem mem_stagedNodes_writeBuffer {b : UInt64} {data : Block} {e : DirtyBlock}
    (h : e ∈ stagedNodes (writeBuffer mgr b data)) : ∃ d ∈ stagedNodes mgr, d.blockno = e.blockno := by
  obtain ⟨i, hi⟩ := HashTable.mem_entries.mp h
  rw [writeBuffer] at hi
  by_cases hb : i = hashBlock b
  · subst hb
    simp only [Function.update_self, List.mem_map] at hi
    obtain ⟨d, hd, rfl⟩ := hi
    refine ⟨d, HashTable.mem_entries.mpr ⟨_, hd⟩, ?_⟩
    split <;> rfl
  · simp only [Function.update_of_ne hb] at hi
    exact ⟨e, HashTable.mem_entries.mpr ⟨i, hi⟩, rfl⟩

/-! ## `get_write_access` -/

/-- What the node of a block not yet in the table begins with. -/
def seed (mgr : TxnMgr) (img : Image) (b : UInt64) : Option Block :=
  match findCheckpointed mgr b with
  | some d => some d.data
  | none => if mgr.dev.nblocks ≤ b then none else some (img b)

theorem run_findOrCreateDirty (mgr : TxnMgr) (b : UInt64) (c : Disk) :
    run faultless (findOrCreateDirty mgr b) c =
      (match findDirty mgr b with
        | some d => (some d, mgr)
        | none => match seed mgr c.view b with
          | some data => (some ⟨b, data⟩, insertDirty mgr ⟨b, data⟩)
          | none => (none, mgr), c) := by
  unfold findOrCreateDirty seed
  cases findDirty mgr b with
  | some d => rfl
  | none =>
      cases findCheckpointed mgr b with
      | some d => rfl
      | none =>
          by_cases hb : mgr.dev.nblocks ≤ b
          · simp only [run_bind, bdevRead, if_pos hb]
            rfl
          · have hlt : b < mgr.dev.nblocks := by simpa using hb
            simp only [run_bind, run_bdevRead c hlt, if_neg hb]
            rfl

theorem run_getWriteAccess (mgr : TxnMgr) (b : UInt64) (c : Disk) :
    run faultless (getWriteAccess mgr b) c =
      (match findDirty mgr b with
        | some d => (.ok d.data, mgr)
        | none => match seed mgr c.view b with
          | some data => (.ok data, insertDirty mgr ⟨b, data⟩)
          | none => (.error .enomem, mgr), c) := by
  rw [getWriteAccess, run_bind, run_findOrCreateDirty]
  cases findDirty mgr b with
  | some d => rfl
  | none => cases seed mgr c.view b <;> rfl

/-- The nodes on the checkpoint list, oldest first. -/
def ckptNodes (mgr : TxnMgr) : List DirtyBlock := mgr.ckpt.flatMap (·.nodes)

theorem findCheckpointed_eq (mgr : TxnMgr) (b : UInt64) :
    (findCheckpointed mgr b).map (·.data) = lastWrite (nodeWrites (ckptNodes mgr)) b := by
  have hnodes : ∀ (nodes : List DirtyBlock) (found : Option DirtyBlock),
      (nodes.foldl (fun found d => if d.blockno = b then some d else found) found).map (·.data) =
        (lastWrite (nodeWrites nodes) b).or (found.map (·.data)) := by
    intro nodes
    induction nodes with
    | nil => intro found; simp
    | cons d ds ih =>
        intro found
        rw [List.foldl_cons, ih, nodeWrites_cons, lastWrite, Option.or_assoc]
        split <;> simp
  have htxns : ∀ (ts : List CommittedTxn) (found : Option DirtyBlock),
      (ts.foldl (fun found t =>
        t.nodes.foldl (fun found d => if d.blockno = b then some d else found) found) found).map (·.data) =
        (lastWrite (nodeWrites (ts.flatMap (·.nodes))) b).or (found.map (·.data)) := by
    intro ts
    induction ts with
    | nil => intro found; simp
    | cons t ts ih =>
        intro found
        rw [List.foldl_cons, ih, hnodes, List.flatMap_cons, nodeWrites_append, lastWrite_append,
          Option.or_assoc]
  simpa [findCheckpointed, ckptNodes] using htxns mgr.ckpt none

theorem seed_eq (mgr : TxnMgr) (img : Image) (b : UInt64) :
    seed mgr img b = (lastWrite (nodeWrites (ckptNodes mgr)) b).or
      (if mgr.dev.nblocks ≤ b then none else some (img b)) := by
  rw [seed, ← findCheckpointed_eq]
  cases findCheckpointed mgr b <;> rfl

/-! ## What a freeze takes -/

theorem stagedContent_empty (h : mgr.buckets = fun _ => []) (b : UInt64) : stagedContent mgr b = none := by
  rw [stagedContent_eq_none, findDirty, h]
  rfl

/-- Apart from the table, its count and the ordered blocks only two flags change. -/
theorem takeGeneration_snd (mgr : TxnMgr) :
    (takeGeneration mgr).2 =
      { mgr with
        buckets := (takeGeneration mgr).2.buckets, ndirty := 0, orderedBlocks := [],
        commitRequested := false, freezing := false } := by
  unfold takeGeneration flattenAndClear
  split <;> rfl

theorem Staged.takeGeneration_eq (h : Staged mgr) :
    takeGeneration mgr =
      ((stagedNodes mgr, mgr.mode == .ordered && decide (0 < mgr.orderedBlocks.length)),
        { mgr with
          buckets := fun _ => [], ndirty := 0, orderedBlocks := [], commitRequested := false,
          freezing := false }) := by
  unfold takeGeneration flattenAndClear
  split
  · next hzero =>
      have hnil := h.stagedNodes_eq_nil.mpr hzero
      have hbuckets : mgr.buckets = fun _ => [] := by
        funext i
        refine List.eq_nil_iff_forall_not_mem.mpr fun d hd => ?_
        have hmem : d ∈ stagedNodes mgr := HashTable.mem_entries.mpr ⟨i, hd⟩
        rw [hnil] at hmem
        simp at hmem
      rw [hnil, ← hbuckets]
  · rfl

theorem stagedNodes_of_empty (h : mgr.buckets = fun _ => []) : stagedNodes mgr = [] := by
  simp [stagedNodes, h]

theorem staged_of_empty (hbuckets : mgr.buckets = fun _ => []) (hcount : mgr.ndirty = 0) :
    Staged mgr where
  table := hbuckets ▸ HashTable.wellFormed_empty
  count := by
    rw [hcount, stagedNodes_of_empty hbuckets]
    rfl

/-- Only the table and its count matter. -/
theorem Staged.of_table {mgr' : TxnMgr} (h : Staged mgr) (hbuckets : mgr'.buckets = mgr.buckets)
    (hcount : mgr'.ndirty = mgr.ndirty) : Staged mgr' where
  table := hbuckets ▸ h.table
  count := by
    rw [hcount, h.count]
    simp only [stagedNodes, hbuckets]

end Logfs
