import Logfs.HandleAtomicity

/-!
# Ordered data before the commit block

Handles that write file data in ordered mode, each `logfs_txn_write_data` in two steps:
the write to the device, then, under the lock, the block's number on the ordered list.
The commit thread flushes when the list it took is not empty.
-/
namespace Logfs
open Interaction WriteCache Transition

/-- The write of a `logfs_txn_write_data` call, the `index`-th write issued to the device. -/
structure DataWrite where
  handle : ℕ
  index : ℕ
  blockno : UInt64
  data : Block

/-- `past` and the fields after it only record what happened: `past` are the writes to the
device that a completed flush has followed, oldest first. -/
structure DataSys where
  sys : Sys
  /-- Calls between their write and their entry on the ordered list: handle and block. -/
  appending : List (ℕ × UInt64)
  past : List (UInt64 × Block)
  /-- The data writes of the running generation's handles. -/
  running : List DataWrite
  /-- The data writes of each generation taken, the last one first. -/
  taken : List (List DataWrite)
  /-- Those of the generations `logfs_journal_commit` was called for. -/
  begun : List (List DataWrite)

inductive DataAction
  | thread
  | start
  | access (id : ℕ) (blockno : UInt64)
  | bufWrite (id : ℕ) (blockno : UInt64) (data : Block)
  /-- The device write of a `logfs_txn_write_data` call. -/
  | dataWrite (id : ℕ) (blockno : UInt64) (data : Block)
  /-- The locked section of such a call. -/
  | append (i : ℕ)
  | stop (id : ℕ)
  | syncCall
  | syncReturn (i : ℕ)
  | destroy

/-- Is the thread in `logfs_journal_commit`? -/
def Pc.inCommit : Pc → Bool
  | .commit _ _ => true
  | _ => false

/-- What a step of the disk has flushed. -/
def flushedBetween (d d' : Disk) : List (UInt64 × Block) :=
  if d'.pending.isEmpty then d.pending else []

namespace DataSys

/-- All writes issued to the device. -/
def issued (s : DataSys) : List (UInt64 × Block) := s.past ++ s.sys.disk.pending

def threadAction (s : DataSys) : Option DataSys :=
  s.sys.threadAction.map fun sys =>
    { s with
      sys
      past := s.past ++ flushedBetween s.sys.disk sys.disk
      running := if endsFreeze s.sys.toCore then [] else s.running
      taken := if endsFreeze s.sys.toCore then s.running :: s.taken else s.taken
      begun := if !s.sys.pc.inCommit && sys.pc.inCommit then s.taken.head?.toList ++ s.begun else s.begun }

def bufWriteAction (s : DataSys) (id : ℕ) (blockno : UInt64) (data : Block) : Option DataSys :=
  (s.sys.bufWriteAction id blockno data).map fun sys => { s with sys }

/-- A write beyond the device is an error, and none is made. -/
def dataWriteAction (s : DataSys) (id : ℕ) (blockno : UInt64) (data : Block) : Option DataSys :=
  (s.sys.findHandle id).bind fun _ =>
    match run faultless (bdevWrite s.sys.mgr.dev blockno data).run s.sys.disk with
    | (.error _, _) => none
    | (.ok (), disk) => some { s with
        sys := { s.sys with disk }
        appending := s.appending ++ [(id, blockno)]
        running := s.running ++ [⟨id, s.issued.length, blockno, data⟩] }

def appendAction (s : DataSys) (i : ℕ) : Option DataSys :=
  s.appending[i]?.map fun (_, blockno) =>
    { s with
      sys := { s.sys with mgr := { s.sys.mgr with orderedBlocks := s.sys.mgr.orderedBlocks ++ [blockno] } }
      appending := s.appending.eraseIdx i }

/-- A handle is stopped by the thread that uses it, which has returned from its calls. -/
def stopAction (s : DataSys) (id : ℕ) : Option DataSys :=
  if s.appending.any fun c => c.1 == id then none
  else (s.sys.stopAction id).map fun sys => { s with sys }

def step (s : DataSys) : DataAction → Option DataSys
  | .thread => s.threadAction
  | .start => s.sys.startAction.map fun sys => { s with sys }
  | .access id blockno => (s.sys.grantAccess id blockno).map fun sys => { s with sys }
  | .bufWrite id blockno data => s.bufWriteAction id blockno data
  | .dataWrite id blockno data => s.dataWriteAction id blockno data
  | .append i => s.appendAction i
  | .stop id => s.stopAction id
  | .syncCall => s.sys.syncCallAction.map fun sys => { s with sys }
  | .syncReturn i => (s.sys.syncReturnAction i).map fun sys => { s with sys }
  | .destroy => s.sys.destroyAction.map fun sys => { s with sys }

def boot (j : Journal) (img : Image) : DataSys where
  sys := Sys.boot j img .ordered
  appending := []
  past := []
  running := []
  taken := []
  begun := []

end DataSys

/-! ## The invariant -/

/-- The write or a later one to the same block is on the image. -/
def DataSys.OnDevice (s : DataSys) (w : DataWrite) (img : Image) : Prop :=
  ∃ k data, w.index ≤ k ∧ s.issued[k]? = some (w.blockno, data) ∧ img w.blockno = data

/-- What ordered mode is for. Nothing of a transaction is written before
`logfs_journal_commit` is called for it, so one that can be replayed has begun. -/
structure FlushedFirst (s : DataSys) : Prop where
  /-- All through `logfs_journal_commit`, a completed flush has followed every data write of
  the generation being committed. -/
  flushed : s.sys.pc.inCommit = true → ∀ ws ∈ s.taken.head?, ∀ w ∈ ws, w.index < s.past.length
  /-- A crash at this point keeps them all, unless a later write to the block took its place. -/
  onDevice : ∀ ws ∈ s.begun, ∀ w ∈ ws, ∀ img, Survives s.sys.disk img → s.OnDevice w img
  /-- The data writes are the writes that were issued. -/
  real : ∀ ws ∈ s.running :: s.taken, ∀ w ∈ ws, s.issued[w.index]? = some (w.blockno, w.data)
  /-- What a handle writes is in one generation. -/
  together : (s.running :: s.taken).Pairwise fun ws vs => ∀ w ∈ ws, ∀ v ∈ vs, w.handle ≠ v.handle

/-- The generation's data writes may still be unflushed. -/
def Pc.needsFlush : Pc → Bool
  | .orderedFlush _ _ => true
  | _ => false

structure DataOk (img₀ : Image) (s : DataSys) : Prop where
  handles : HandlesOk s.sys
  mode : s.sys.mgr.mode = .ordered
  durable : s.sys.disk.durable = applyWrites img₀ s.past
  /-- Each data write of the running generation is on the list or about to be. -/
  listed : s.running.length = s.sys.mgr.orderedBlocks.length + s.appending.length
  calls : ∀ c ∈ s.appending, ∃ h ∈ s.sys.handles, h.id = c.1
  real : ∀ ws ∈ s.running :: s.taken, ∀ w ∈ ws, s.issued[w.index]? = some (w.blockno, w.data)
  known : ∀ ws ∈ s.running :: s.taken, ∀ w ∈ ws, w.handle < s.sys.nextHandle
  apart : ∀ h ∈ s.sys.handles, ∀ ws ∈ s.taken, ∀ w ∈ ws, w.handle ≠ h.id
  together : (s.running :: s.taken).Pairwise fun ws vs => ∀ w ∈ ws, ∀ v ∈ vs, w.handle ≠ v.handle
  flushed : s.sys.pc.needsFlush = false → ∀ ws ∈ s.taken.head?, ∀ w ∈ ws, w.index < s.past.length
  begun : ∀ ws ∈ s.begun, ∀ w ∈ ws, s.past[w.index]? = some (w.blockno, w.data)

/-! ## The thread and the disk -/

/-- A step of the thread writes one block, flushes, or leaves the disk alone. -/
theorem ThreadStep.disk {c c' : Core} (h : ThreadStep c c') :
    c'.disk = c.disk ∨ (∃ b data, c'.disk = c.disk.write b data) ∨ c'.disk = c.disk.flush := by
  have hop : ∀ {α : Type} {p q : DevM α} {d e : Disk}, Step faultless (p, d) (q, e) →
      e = d ∨ (∃ b data, e = d.write b data) ∨ e = d.flush := by
    intro α p q d e hnow
    cases hnow with
    | op o k s =>
        cases o with
        | read a => exact .inl rfl
        | write a b => exact .inr (.inl ⟨a, b, rfl⟩)
        | flush => exact .inr (.inr rfl)
  cases h with
  | advance op => exact hop op
  | commit op => exact hop op
  | writeHome => exact .inr (.inl ⟨_, _, rfl⟩)
  | orderedFlush | homeFlush => exact .inr (.inr rfl)
  | _ => exact .inl rfl

theorem flushedBetween_self (d : Disk) : flushedBetween d d = [] := by
  unfold flushedBetween
  split
  · next hnone => exact List.isEmpty_iff.mp hnone
  · rfl

/-- What such a step makes of the flushed writes and of all that were issued. -/
theorem flushed_step {img₀ : Image} {past : List (UInt64 × Block)} {d d' : Disk}
    (hpast : d.durable = applyWrites img₀ past)
    (hstep : d' = d ∨ (∃ b data, d' = d.write b data) ∨ d' = d.flush) :
    d'.durable = applyWrites img₀ (past ++ flushedBetween d d') ∧
      past ++ d.pending <+: past ++ flushedBetween d d' ++ d'.pending := by
  rcases hstep with rfl | ⟨b, data, rfl⟩ | rfl
  · rw [flushedBetween_self, List.append_nil]
    exact ⟨hpast, List.prefix_refl _⟩
  · have hnone : flushedBetween d (d.write b data) = [] := by simp [flushedBetween]
    rw [hnone, List.append_nil, pending_write, ← List.append_assoc]
    exact ⟨hpast, List.prefix_append _ _⟩
  · have hall : flushedBetween d d.flush = d.pending := rfl
    rw [hall, applyWrites_append, ← hpast]
    exact ⟨rfl, List.prefix_append _ _⟩

theorem ThreadStep.needsFlush {c c' : Core} (h : ThreadStep c c') :
    endsFreeze c = true ∨ c'.pc.needsFlush = false := by
  have hresume : ∀ j done caller, (resume j done caller).needsFlush = false := by
    intro j done caller
    cases caller <;> cases done <;> rfl
  cases h with
  | take ends => exact .inl ends
  | orderedFlush =>
      right
      unfold afterFreeze
      split <;> rfl
  | unlinkNone | writeHomeError | advanced => exact .inr (hresume _ _ _)
  | _ => exact .inr rfl

/-- Where the end of a freeze leads. -/
theorem ThreadStep.taken {c c' : Core} (h : ThreadStep c c') (hends : endsFreeze c = true) :
    c'.disk = c.disk ∧ c'.mgr = (takeGeneration c.mgr).2 ∧ c'.pc.inCommit = false ∧
      (c.mgr.mode = .ordered → c.mgr.orderedBlocks ≠ [] → c'.pc.needsFlush = true) := by
  cases h with
  | @take m d pc j ends up =>
      refine ⟨rfl, rfl, ?_, fun hmode hsome => ?_⟩
      · simp only [endFreeze, afterFreeze]
        split_ifs <;> rfl
      · have hflush : (takeGeneration m).1.2 = true := by
          have hlen := List.length_pos_iff.mpr hsome
          simp only at hmode hlen
          simp [takeGeneration, hmode, hlen]
        simp [endFreeze, hflush, Pc.needsFlush]
  | _ => simp_all [endsFreeze]

/-- The flush that ordered data waits for. -/
theorem ThreadStep.flushes {c c' : Core} (h : ThreadStep c c') (hpc : c.pc.needsFlush = true) :
    c'.disk = c.disk.flush := by
  cases h with
  | orderedFlush => rfl
  | take ends up =>
      rcases up with ⟨rfl, -⟩ | rfl
      · cases hpc
      · cases hpc
  | _ => cases hpc

theorem ThreadStep.mode {c c' : Core} (h : ThreadStep c c') : c'.mgr.mode = c.mgr.mode := by
  cases h with
  | take =>
      simp only [endFreeze]
      rw [takeGeneration_snd]
  | _ => rfl

theorem ThreadStep.orderedBlocks {c c' : Core} (h : ThreadStep c c') (hends : endsFreeze c = false) :
    c'.mgr.orderedBlocks = c.mgr.orderedBlocks := by
  cases h with
  | take ends => simp [hends] at ends
  | _ => rfl

theorem getElem?_of_prefix {α : Type} {xs ys : List α} (h : xs <+: ys) {k : ℕ} {x : α}
    (hk : xs[k]? = some x) : ys[k]? = some x := by
  obtain ⟨zs, rfl⟩ := h
  rw [List.getElem?_append_left (List.getElem?_eq_some_iff.mp hk).1]
  exact hk

/-! ## Steps -/

namespace DataOk
variable {img₀ : Image} {s s' : DataSys}

/-- The end of a freeze: no handle is live, so every data write is on the list. -/
theorem take (h : DataOk img₀ s) {c : Core} (hends : endsFreeze s.sys.toCore = true)
    (hstep : ThreadStep s.sys.toCore c) :
    DataOk img₀ { s with sys := s.sys.afterThread c, running := [], taken := s.running :: s.taken } := by
  have hnone := h.handles.none_live hends
  obtain ⟨hdisk, hmgr, -, hflush⟩ := hstep.taken hends
  have hordered : c.mgr.orderedBlocks = [] := by
    have htaken := congrArg TxnMgr.orderedBlocks (takeGeneration_snd s.sys.mgr)
    rw [hmgr]
    exact htaken
  have hcalls : s.appending = [] := by
    refine List.eq_nil_iff_forall_not_mem.mpr fun call hcall => ?_
    obtain ⟨g, hg, -⟩ := h.calls call hcall
    simp [hnone] at hg
  have hlisted := h.listed
  rw [hcalls, List.length_nil, Nat.add_zero] at hlisted
  refine ⟨h.handles.thread hstep, hstep.mode.trans h.mode, ?_, ?_, ?_, ?_, ?_, ?_, ?_, ?_, h.begun⟩
  · change c.disk.durable = _
    rw [hdisk]
    exact h.durable
  · change 0 = c.mgr.orderedBlocks.length + s.appending.length
    rw [hordered, hcalls]
    rfl
  · intro call hcall
    simp [hcalls] at hcall
  · have hissued : ({ s with sys := s.sys.afterThread c, running := [], taken := s.running :: s.taken } :
        DataSys).issued = s.issued := by
      change s.past ++ c.disk.pending = _
      rw [hdisk]
      rfl
    intro ws hws w hw
    rw [hissued]
    rcases List.mem_cons.mp hws with rfl | hws
    · simp at hw
    · exact h.real ws hws w hw
  · intro ws hws w hw
    rcases List.mem_cons.mp hws with rfl | hws
    · simp at hw
    · exact h.known ws hws w hw
  · intro g hg
    rw [show (s.sys.afterThread c).handles = [] from hnone] at hg
    simp at hg
  · exact List.pairwise_cons.mpr ⟨fun vs hvs w hw => by simp at hw, h.together⟩
  · intro hquiet ws hws w hw
    obtain rfl : s.running = ws := by simpa using hws
    have hempty : s.sys.mgr.orderedBlocks = [] := by
      by_contra hsome
      have hneeds := hflush h.mode hsome
      rw [show (s.sys.afterThread c).pc = c.pc from rfl, hneeds] at hquiet
      cases hquiet
    rw [hempty, List.length_nil, List.length_eq_zero_iff] at hlisted
    simp [hlisted] at hw

/-- Any other step of the thread. -/
theorem thread_other (h : DataOk img₀ s) {c : Core} (hends : endsFreeze s.sys.toCore = false)
    (hstep : ThreadStep s.sys.toCore c) :
    DataOk img₀ { s with
      sys := s.sys.afterThread c
      past := s.past ++ flushedBetween s.sys.disk c.disk
      begun := if !s.sys.pc.inCommit && c.pc.inCommit then s.taken.head?.toList ++ s.begun else s.begun } := by
  obtain ⟨hdurable, hgrow⟩ := flushed_step h.durable hstep.disk
  have hreal : ∀ ws ∈ s.running :: s.taken, ∀ w ∈ ws,
      (s.past ++ flushedBetween s.sys.disk c.disk ++ c.disk.pending)[w.index]? = some (w.blockno, w.data) :=
    fun ws hws w hw => getElem?_of_prefix hgrow (h.real ws hws w hw)
  have hflushed : ∀ ws ∈ s.taken.head?, ∀ w ∈ ws,
      w.index < (s.past ++ flushedBetween s.sys.disk c.disk).length := by
    intro ws hws w hw
    cases hpc : s.sys.pc.needsFlush with
    | false =>
        have hlt := h.flushed hpc ws hws w hw
        rw [List.length_append]
        omega
    | true =>
        have hall := hreal ws (List.mem_cons_of_mem _ (List.mem_of_mem_head? hws)) w hw
        rw [hstep.flushes hpc, Cache.flush, pending_settled, List.append_nil] at hall
        rw [hstep.flushes hpc]
        exact (List.getElem?_eq_some_iff.mp hall).1
  have hbegun : ∀ ws ∈ s.begun, ∀ w ∈ ws,
      (s.past ++ flushedBetween s.sys.disk c.disk)[w.index]? = some (w.blockno, w.data) :=
    fun ws hws w hw => getElem?_of_prefix (List.prefix_append _ _) (h.begun ws hws w hw)
  refine ⟨h.handles.thread hstep, hstep.mode.trans h.mode, hdurable, ?_, h.calls, hreal, h.known, h.apart,
    h.together, fun _ => hflushed, ?_⟩
  · change s.running.length = c.mgr.orderedBlocks.length + s.appending.length
    rw [hstep.orderedBlocks hends]
    exact h.listed
  · intro ws hws w hw
    dsimp only at hws
    split_ifs at hws
    · rcases List.mem_append.mp hws with hws | hws
      · have hhead := Option.mem_toList.mp hws
        have hlt := hflushed ws hhead w hw
        have hat := hreal ws (List.mem_cons_of_mem _ (List.mem_of_mem_head? hhead)) w hw
        rwa [List.getElem?_append_left hlt] at hat
      · exact hbegun ws hws w hw
    · exact hbegun ws hws w hw

theorem thread (h : DataOk img₀ s) (hnow : s.threadAction = some s') : DataOk img₀ s' := by
  obtain ⟨sys, hsys, rfl⟩ := Option.map_eq_some_iff.mp hnow
  obtain ⟨c, hc, rfl⟩ := Option.map_eq_some_iff.mp hsys
  have hstep := threadStep_sound hc
  change DataOk img₀ { s with
    sys := s.sys.afterThread c
    past := s.past ++ flushedBetween s.sys.disk c.disk
    running := if endsFreeze s.sys.toCore then [] else s.running
    taken := if endsFreeze s.sys.toCore then s.running :: s.taken else s.taken
    begun := if !s.sys.pc.inCommit && c.pc.inCommit then s.taken.head?.toList ++ s.begun else s.begun }
  by_cases hends : endsFreeze s.sys.toCore = true
  · obtain ⟨hdisk, -, hout, -⟩ := hstep.taken hends
    have hsame : flushedBetween s.sys.disk c.disk = [] := by
      rw [hdisk, flushedBetween_self]
    rw [hsame, hout, if_pos hends, if_pos hends, List.append_nil, Bool.and_false]
    exact h.take hends hstep
  · rw [if_neg hends, if_neg hends]
    exact h.thread_other (by simpa using hends) hstep

/-- What leaves the disk, the thread and the ordered list alone. -/
theorem of_sys (h : DataOk img₀ s) {sys : Sys} (hhandles : HandlesOk sys)
    (hids : sys.handles.map (·.id) = s.sys.handles.map (·.id)) (hnext : sys.nextHandle = s.sys.nextHandle)
    (hmode : sys.mgr.mode = s.sys.mgr.mode) (hordered : sys.mgr.orderedBlocks = s.sys.mgr.orderedBlocks)
    (hdisk : sys.disk = s.sys.disk) (hpc : sys.pc = s.sys.pc) : DataOk img₀ { s with sys } := by
  have hsame : ∀ id, (∃ g ∈ sys.handles, g.id = id) ↔ ∃ g ∈ s.sys.handles, g.id = id := by
    intro id
    have hmem : id ∈ sys.handles.map (·.id) ↔ id ∈ s.sys.handles.map (·.id) := by rw [hids]
    simpa using hmem
  refine ⟨hhandles, hmode.trans h.mode, ?_, ?_, ?_, ?_, ?_, ?_, h.together, ?_, h.begun⟩
  · change sys.disk.durable = _
    rw [hdisk]
    exact h.durable
  · change s.running.length = sys.mgr.orderedBlocks.length + _
    rw [hordered]
    exact h.listed
  · exact fun call hcall => (hsame call.1).mpr (h.calls call hcall)
  · intro ws hws w hw
    change (s.past ++ sys.disk.pending)[w.index]? = _
    rw [hdisk]
    exact h.real ws hws w hw
  · intro ws hws w hw
    change w.handle < sys.nextHandle
    rw [hnext]
    exact h.known ws hws w hw
  · intro g hg ws hws w hw he
    obtain ⟨g₀, hg₀, hid⟩ := (hsame g.id).mp ⟨g, hg, rfl⟩
    exact h.apart g₀ hg₀ ws hws w hw (he.trans hid.symm)
  · intro hquiet
    rw [show ({ s with sys } : DataSys).sys.pc = s.sys.pc from hpc] at hquiet
    exact h.flushed hquiet

theorem start (h : DataOk img₀ s) {sys : Sys} (hnow : s.sys.startAction = some sys) :
    DataOk img₀ { s with sys } := by
  simp only [Sys.startAction, txnStart] at hnow
  split_ifs at hnow with hdown hfreeze
  · simp at hnow
  · cases hnow
    refine ⟨h.handles.start, h.mode, h.durable, h.listed, ?_, h.real, ?_, ?_, h.together, h.flushed, h.begun⟩
    · intro call hcall
      obtain ⟨g, hg, hid⟩ := h.calls call hcall
      exact ⟨g, List.mem_cons_of_mem _ hg, hid⟩
    · exact fun ws hws w hw => Nat.lt_succ_of_lt (h.known ws hws w hw)
    · intro g hg ws hws w hw
      rcases List.mem_cons.mp hg with rfl | hg
      · exact (h.known ws (List.mem_cons_of_mem _ hws) w hw).ne
      · exact h.apart g hg ws hws w hw

theorem access (h : DataOk img₀ s) {id : ℕ} {b : UInt64} {sys : Sys}
    (hnow : s.sys.grantAccess id b = some sys) : DataOk img₀ { s with sys } := by
  obtain ⟨hlen, hids, hfresh⟩ := h.handles.giveBuffer id b
  obtain ⟨-, hcases⟩ := Sys.grantAccess_cases hnow
  have hhandles : HandlesOk { s.sys with handles := s.sys.giveBuffer id b } :=
    ⟨h.handles.count.trans hlen.symm, hids ▸ h.handles.ids, hfresh⟩
  rcases hcases with ⟨-, rfl⟩ | ⟨-, rfl⟩ | ⟨data, -, rfl⟩
  · exact h.of_sys hhandles hids rfl rfl rfl rfl rfl
  · exact h
  · exact h.of_sys ⟨hhandles.count, hhandles.ids, hhandles.fresh⟩ hids rfl rfl rfl rfl rfl

theorem bufWrite (h : DataOk img₀ s) {id : ℕ} {b : UInt64} {data : Block}
    (hnow : s.bufWriteAction id b data = some s') : DataOk img₀ s' := by
  obtain ⟨sys, hsys, rfl⟩ := Option.map_eq_some_iff.mp hnow
  obtain ⟨g, -, he⟩ := Option.bind_eq_some_iff.mp hsys
  split_ifs at he
  cases he
  exact h.of_sys ⟨h.handles.count, h.handles.ids, h.handles.fresh⟩ rfl rfl rfl rfl rfl rfl

/-- The device write of a call. -/
theorem dataWrite (h : DataOk img₀ s) {id : ℕ} {b : UInt64} {data : Block}
    (hnow : s.dataWriteAction id b data = some s') : DataOk img₀ s' := by
  obtain ⟨g, hfind, he⟩ := Option.bind_eq_some_iff.mp hnow
  obtain ⟨hlive, rfl⟩ := Sys.mem_of_findHandle hfind
  by_cases hlt : b < s.sys.mgr.dev.nblocks
  · rw [run_bdevWrite _ hlt] at he
    cases he
    have hissued : s.past ++ (s.sys.disk.write b data).pending = s.issued ++ [(b, data)] := by
      rw [pending_write, ← List.append_assoc]
      rfl
    refine ⟨⟨h.handles.count, h.handles.ids, h.handles.fresh⟩, h.mode, h.durable, ?_, ?_, ?_, ?_, h.apart, ?_,
      h.flushed, h.begun⟩
    · have hlisted := h.listed
      simp only [List.length_append, List.length_singleton]
      omega
    · intro call hcall
      rcases List.mem_append.mp hcall with hcall | hcall
      · exact h.calls call hcall
      · rw [List.mem_singleton.mp hcall]
        exact ⟨g, hlive, rfl⟩
    · intro ws hws w hw
      change (s.past ++ (s.sys.disk.write b data).pending)[w.index]? = _
      rw [hissued]
      have hold : ∀ ws ∈ s.running :: s.taken, ∀ w ∈ ws,
          (s.issued ++ [(b, data)])[w.index]? = some (w.blockno, w.data) :=
        fun ws hws w hw => getElem?_of_prefix (List.prefix_append _ _) (h.real ws hws w hw)
      rcases List.mem_cons.mp hws with rfl | hws
      · rcases List.mem_append.mp hw with hw | hw
        · exact hold _ List.mem_cons_self w hw
        · rw [List.mem_singleton.mp hw]
          simp
      · exact hold ws (List.mem_cons_of_mem _ hws) w hw
    · intro ws hws w hw
      rcases List.mem_cons.mp hws with rfl | hws
      · rcases List.mem_append.mp hw with hw | hw
        · exact h.known _ List.mem_cons_self w hw
        · rw [List.mem_singleton.mp hw]
          exact h.handles.fresh g hlive
      · exact h.known ws (List.mem_cons_of_mem _ hws) w hw
    · obtain ⟨hrunning, hrest⟩ := List.pairwise_cons.mp h.together
      refine List.pairwise_cons.mpr ⟨fun vs hvs w hw v hv => ?_, hrest⟩
      rcases List.mem_append.mp hw with hw | hw
      · exact hrunning vs hvs w hw v hv
      · rw [List.mem_singleton.mp hw]
        exact (h.apart g hlive vs hvs v hv).symm
  · rw [bdevWrite, if_pos (by simpa using hlt)] at he
    cases he

theorem append (h : DataOk img₀ s) {i : ℕ} (hnow : s.appendAction i = some s') : DataOk img₀ s' := by
  obtain ⟨⟨id, b⟩, hget, rfl⟩ := Option.map_eq_some_iff.mp hnow
  have hlt := (List.getElem?_eq_some_iff.mp hget).1
  refine ⟨⟨h.handles.count, h.handles.ids, h.handles.fresh⟩, h.mode, h.durable, ?_, ?_, h.real, h.known,
    h.apart, h.together, h.flushed, h.begun⟩
  · have hlisted := h.listed
    simp only [List.length_append, List.length_singleton, List.length_eraseIdx_of_lt hlt]
    omega
  · exact fun call hcall => h.calls call (List.mem_of_mem_eraseIdx hcall)

theorem stop (h : DataOk img₀ s) {id : ℕ} (hnow : s.stopAction id = some s') : DataOk img₀ s' := by
  simp only [DataSys.stopAction] at hnow
  split_ifs at hnow with hbusy
  obtain ⟨sys, hsys, rfl⟩ := Option.map_eq_some_iff.mp hnow
  obtain ⟨g, hfind, rfl⟩ := Option.map_eq_some_iff.mp hsys
  obtain ⟨hlive, rfl⟩ := Sys.mem_of_findHandle hfind
  refine ⟨h.handles.stop hlive, h.mode, h.durable, h.listed, ?_, h.real, h.known, ?_, h.together, h.flushed,
    h.begun⟩
  · intro call hcall
    obtain ⟨g', hg', hid⟩ := h.calls call hcall
    refine ⟨g', List.mem_filter.mpr ⟨hg', ?_⟩, hid⟩
    have hother : call.1 ≠ g.id := by
      intro he
      apply hbusy
      exact List.any_eq_true.mpr ⟨call, hcall, by simpa using he⟩
    rw [hid]
    simpa using hother
  · exact fun g' hg' => h.apart g' (List.mem_of_mem_filter hg')

theorem step (h : DataOk img₀ s) {a : DataAction} (hnow : s.step a = some s') : DataOk img₀ s' := by
  have hsame : HandlesOk { s.sys with mgr := { s.sys.mgr with commitRequested := true } } :=
    ⟨h.handles.count, h.handles.ids, h.handles.fresh⟩
  cases a with
  | thread => exact h.thread hnow
  | start =>
      obtain ⟨sys, hsys, rfl⟩ := Option.map_eq_some_iff.mp hnow
      exact h.start hsys
  | access id b =>
      obtain ⟨sys, hsys, rfl⟩ := Option.map_eq_some_iff.mp hnow
      exact h.access hsys
  | bufWrite id b data => exact h.bufWrite hnow
  | dataWrite id b data => exact h.dataWrite hnow
  | append i => exact h.append hnow
  | stop id => exact h.stop hnow
  | syncCall =>
      obtain ⟨sys, hsys, rfl⟩ := Option.map_eq_some_iff.mp hnow
      cases Sys.steps_syncCall hsys with
      | syncNow | syncWait =>
          exact h.of_sys ⟨hsame.count, hsame.ids, hsame.fresh⟩ rfl rfl rfl rfl rfl rfl
  | syncReturn i =>
      obtain ⟨sys, hsys, rfl⟩ := Option.map_eq_some_iff.mp hnow
      obtain ⟨call, -, he⟩ := Option.bind_eq_some_iff.mp hsys
      split_ifs at he
      cases he
      exact h.of_sys ⟨hsame.count, hsame.ids, hsame.fresh⟩ rfl rfl rfl rfl rfl rfl
  | destroy =>
      obtain ⟨sys, hsys, rfl⟩ := Option.map_eq_some_iff.mp hnow
      simp only [Sys.destroyAction] at hsys
      split_ifs at hsys
      cases hsys
      exact h.of_sys ⟨hsame.count, hsame.ids, hsame.fresh⟩ rfl rfl rfl rfl rfl rfl

theorem boot (j : Journal) (img : Image) : DataOk img (DataSys.boot j img) where
  handles := ⟨rfl, by simp [DataSys.boot, Sys.boot], by simp [DataSys.boot, Sys.boot]⟩
  mode := rfl
  durable := rfl
  listed := rfl
  calls c hc := by simp [DataSys.boot] at hc
  real := by simp [DataSys.boot]
  known := by simp [DataSys.boot]
  apart := by simp [DataSys.boot]
  together := by simp [DataSys.boot]
  flushed _ ws hws := by simp [DataSys.boot] at hws
  begun := by simp [DataSys.boot]

end DataOk

/-- In every interleaving, the data writes of a generation are flushed before its
transaction is written. -/
theorem flushedFirst_of_run (j : Journal) (img : Image) {s : DataSys}
    (hrun : Run DataSys.step (fun _ _ => True) (DataSys.boot j img) s) : FlushedFirst s := by
  have h : DataOk img s := hrun.invariant (.boot j img) fun _ _ _ _ hnow hs => hs.step hnow
  refine ⟨fun hcommit => h.flushed ?_, ?_, h.real, h.together⟩
  · generalize s.sys.pc = pc at hcommit
    cases pc with
    | commit => rfl
    | _ => cases hcommit
  · intro ws hws w hw i hi
    obtain ⟨k, data, hle, hk, he⟩ := hi.since h.durable (h.begun ws hws w hw)
    exact ⟨k, data, hle, hk, he⟩

/-- A handle writes data to block 30 and stages block 20; the transaction is written after
the flush. -/
theorem flushedFirst_committing : ∃ s, s.sys.pc.inCommit = true ∧ s.begun.length = 1 ∧ FlushedFirst s := by
  obtain ⟨s, hrun, hstate⟩ := exists_run_of_exec DataSys.step (fun _ _ => True)
    (DataSys.boot tinyJournal tinyImage)
    [.start, .dataWrite 0 30 zeroBlock, .access 0 20, .append 0, .stop 0, .thread, .thread, .thread, .thread]
    (fun s => s.sys.pc.inCommit && s.begun.length == 1) (by decide +kernel)
  simp only [Bool.and_eq_true, beq_iff_eq] at hstate
  exact ⟨s, hstate.1, hstate.2, flushedFirst_of_run _ _ hrun⟩

end Logfs
