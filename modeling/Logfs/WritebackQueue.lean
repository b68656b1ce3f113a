import Logfs.Lib.LinkedQueue
import Logfs.Lib.Transition
import Logfs.BlockDev
import Logfs.Txn

/-!
# The writeback queue

`writeback_queue_push`, `writeback_thread_main` and the end of `logfs_txnmgr_destroy` on the cells
of the queue. A section under `wb_lock` is one step. Allocations, the device write and `free` are
outside the lock, and steps of others may fall between any two of them.
-/
namespace Logfs
open Interaction WriteCache LinkedQueue Transition

/-- A caller of `writeback_queue_push`: in no call, or with its entry filled in and not queued. -/
inductive PushPc (P : Type)
  | returned
  | filled (e : P) (w : DirtyBlock)

inductive WbPc (P : Type)
  /-- Before `pthread_mutex_lock`. -/
  | unlocked
  /-- In `pthread_cond_timedwait`. -/
  | waiting
  | writing (e : P)
  | freeing (e : P)
  | flushing
  | exited

inductive DestroyPc
  | before
  | joining
  | returned

/-- The queue between its critical sections, for any number of callers `ι` and addresses `P`. -/
structure WbState (P ι : Type) where
  queue : Queue P DirtyBlock
  wbShutdown : Bool
  push : ι → PushPc P
  thread : WbPc P
  destroy : DestroyPc
  /-- What the thread has issued to the device. -/
  issued : List (DevOp UInt64 Block)
  /-- The blocks pushed, in the order of the lock. -/
  pushed : List DirtyBlock
  /-- An address was used that holds no entry. -/
  fault : Bool

inductive WbAction (P ι : Type)
  | malloc (i : ι) (e : P) (w : DirtyBlock)
  | append (i : ι)
  | thread
  | destroy

/-- A device that notes what it is asked and never fails. -/
def noting : Handler (DevRes (A := UInt64) (B := Block) Errno) (List (DevOp UInt64 Block))
  | .read b, ops => (.ok zeroBlock, ops ++ [.read b])
  | .write b buf, ops => (.ok (), ops ++ [.write b buf])
  | .flush, ops => (.ok (), ops ++ [.flush])

def DirtyBlock.op (w : DirtyBlock) : DevOp UInt64 Block := .write w.blockno w.data

section Model
variable {P ι : Type} [DecidableEq P] [DecidableEq ι]

namespace WbState

/-- The loop of `writeback_thread_main` from where it has the lock to where it lets go of it. -/
def locked (s : WbState P ι) : WbState P ι :=
  if s.queue.head = none then
    if s.wbShutdown then { s with thread := .flushing } else { s with thread := .waiting }
  else
    match s.queue.pop with
    | some (e, queue) => { s with queue := queue, thread := .writing e }
    | none => { s with fault := true }

/-- A wait may end at any time, signalled or not. -/
def writebackThreadMain (dev : BlockDev) (s : WbState P ι) : Option (WbState P ι) :=
  match s.thread with
  | .unlocked => some s.locked
  | .waiting => some s.locked
  | .writing e =>
      match s.queue.heap e with
      | some c => some { s with
          issued := (run noting (bdevWrite dev c.val.blockno c.val.data).run s.issued).2, thread := .freeing e }
      | none => some { s with fault := true }
  | .freeing e =>
      match s.queue.heap e with
      | some _ => some { s with queue := s.queue.free e, thread := .unlocked }
      | none => some { s with fault := true }
  | .flushing => some { s with issued := (run noting (bdevFlush dev).run s.issued).2, thread := .exited }
  | .exited => none

def step (dev : BlockDev) (s : WbState P ι) : WbAction P ι → Option (WbState P ι)
  | .malloc i e w =>
      match s.push i, s.queue.heap e with
      | .returned, none => some { s with
          queue := s.queue.alloc e w, push := Function.update s.push i (.filled e w) }
      | _, _ => none
  | .append i =>
      match s.push i with
      | .filled e w =>
          match s.queue.push e with
          | some queue => some { s with
              queue := queue, push := Function.update s.push i .returned, pushed := s.pushed ++ [w] }
          | none => some { s with fault := true }
      | .returned => none
  | .thread => s.writebackThreadMain dev
  | .destroy =>
      match s.destroy, s.thread with
      | .before, _ => some { s with wbShutdown := true, destroy := .joining }
      | .joining, .exited => some { s with destroy := .returned }
      | _, _ => none

/-- Shutdown is requested when every call has returned, no call begins after it, and no push is
for a block the device would refuse. -/
def allowed (dev : BlockDev) (s : WbState P ι) : WbAction P ι → Prop
  | .malloc _ _ w => s.wbShutdown = false ∧ w.blockno < dev.nblocks
  | .destroy => ∀ i, s.push i = .returned
  | _ => True

/-- The queue when the thread starts; `heap` are the other allocations of the process. -/
def start (heap : P → Option (Cell P DirtyBlock)) : WbState P ι where
  queue := ⟨heap, none, none⟩
  wbShutdown := false
  push := fun _ => .returned
  thread := .unlocked
  destroy := .before
  issued := []
  pushed := []
  fault := false

end WbState

/-! ## The invariant -/

/-- The entry the thread has taken out and not freed. -/
def WbPc.cell : WbPc P → Option P
  | .writing e | .freeing e => some e
  | _ => none

def WbPc.leaving : WbPc P → Bool
  | .flushing | .exited => true
  | _ => false

/-- The entry the thread is about to write. -/
def WbPc.unwritten : WbPc P → List P
  | .writing e => [e]
  | _ => []

def WbPc.flushed : WbPc P → List (DevOp UInt64 Block)
  | .exited => [.flush]
  | _ => []

/-- The blocks the thread has still to write. -/
def WbState.owed (s : WbState P ι) (cells : List P) : List DirtyBlock :=
  vals s.queue.heap (s.thread.unwritten ++ cells)

structure WbInv (dev : BlockDev) (s : WbState P ι) (cells : List P) : Prop where
  holds : Holds s.queue cells
  sound : s.fault = false
  /-- An entry that is not queued yet is its caller's alone. -/
  filled : ∀ i e w, s.push i = .filled e w →
    s.queue.heap e = some ⟨w, none⟩ ∧ e ∉ cells ∧ s.thread.cell ≠ some e ∧ w.blockno < dev.nblocks
  apart : ∀ i j e w w', s.push i = .filled e w → s.push j = .filled e w' → i = j
  hand : ∀ e, s.thread.cell = some e → e ∉ cells ∧ ∃ c, s.queue.heap e = some c
  account : s.issued ++ (s.owed cells).map DirtyBlock.op = s.pushed.map DirtyBlock.op ++ s.thread.flushed
  inRange : ∀ w ∈ s.pushed, w.blockno < dev.nblocks
  leaving : s.thread.leaving = true → cells = [] ∧ s.wbShutdown = true
  shut : s.wbShutdown = true → ∀ i, s.push i = .returned
  joined : s.destroy = .returned → s.thread = .exited

variable {dev : BlockDev} {s t : WbState P ι} {cells : List P}

omit [DecidableEq P] [DecidableEq ι] in
theorem wbInv_start (heap : P → Option (Cell P DirtyBlock)) : WbInv dev (WbState.start heap : WbState P ι) [] where
  holds := ⟨.nil, rfl⟩
  sound := rfl
  filled := fun _ _ _ h => nomatch h
  apart := fun _ _ _ _ _ h => nomatch h
  hand := fun _ h => nomatch h
  account := rfl
  inRange := fun _ h => nomatch h
  leaving := fun h => nomatch h
  shut := fun h => nomatch h
  joined := fun h => nomatch h

/-! ### Steps of the callers -/

omit [DecidableEq P] [DecidableEq ι] in
theorem WbInv.cell_ne (hinv : WbInv dev s cells) {e : P} (hfree : s.queue.heap e = none) :
    e ∉ cells ∧ s.thread.cell ≠ some e := by
  constructor
  · intro hmem
    obtain ⟨c, hc⟩ := hinv.holds.chain.allocated hmem
    cases hfree.symm.trans hc
  · intro hhand
    obtain ⟨c, hc⟩ := (hinv.hand e hhand).2
    cases hfree.symm.trans hc

omit [DecidableEq P] in
theorem WbPc.mem_unwritten {pc : WbPc P} {e : P} (he : e ∈ pc.unwritten) : pc.cell = some e := by
  cases pc <;> simp_all [WbPc.unwritten, WbPc.cell]

theorem WbInv.malloc {i : ι} {e : P} {w : DirtyBlock} (hinv : WbInv dev s cells)
    (hfree : s.queue.heap e = none) (hopen : s.wbShutdown = false) (hw : w.blockno < dev.nblocks) :
    WbInv dev { s with queue := s.queue.alloc e w, push := Function.update s.push i (.filled e w) } cells := by
  obtain ⟨hnew, hhand⟩ := hinv.cell_ne hfree
  have hheap : ∀ p, p ≠ e → (s.queue.alloc e w).heap p = s.queue.heap p := fun p hp => Function.update_of_ne hp ..
  have hother : ∀ {j x v}, s.push j = .filled x v → x ≠ e := by
    rintro j x v hj rfl
    cases hfree.symm.trans (hinv.filled j x v hj).1
  have hpush : ∀ {j x v}, Function.update s.push i (.filled e w) j = .filled x v →
      (j = i ∧ x = e ∧ v = w) ∨ (j ≠ i ∧ x ≠ e ∧ s.push j = .filled x v) := by
    intro j x v hj
    by_cases hji : j = i
    · subst hji
      rw [Function.update_self] at hj
      cases hj
      exact .inl ⟨rfl, rfl, rfl⟩
    · rw [Function.update_of_ne hji] at hj
      exact .inr ⟨hji, hother hj, hj⟩
  refine { hinv with
    holds := hinv.holds.alloc hnew, filled := ?_, apart := ?_, hand := ?_, account := ?_, shut := ?_ }
  · intro j x v hj
    rcases hpush hj with ⟨-, rfl, rfl⟩ | ⟨-, hx, hj⟩
    · exact ⟨Function.update_self .., hnew, hhand, hw⟩
    · exact ⟨(hheap x hx).trans (hinv.filled j x v hj).1, (hinv.filled j x v hj).2⟩
  · intro j k x v v' hj hk
    rcases hpush hj with ⟨hj, hx, -⟩ | ⟨-, hx, hj⟩ <;> rcases hpush hk with ⟨hk, hx', -⟩ | ⟨-, hx', hk⟩
    · exact hj.trans hk.symm
    · exact absurd hx hx'
    · exact absurd hx' hx
    · exact hinv.apart j k x v v' hj hk
  · intro x hx
    have hne : x ≠ e := fun h => hhand (h ▸ hx)
    exact ⟨(hinv.hand x hx).1, (hheap x hne).symm ▸ (hinv.hand x hx).2⟩
  · rw [← hinv.account]
    congr 2
    refine vals_congr fun p hp => hheap p ?_
    rintro rfl
    rcases List.mem_append.mp hp with hp | hp
    · exact hhand (WbPc.mem_unwritten hp)
    · exact hnew hp
  · intro hshut
    cases hopen.symm.trans hshut

theorem WbInv.append {i : ι} {e : P} {w : DirtyBlock} (hinv : WbInv dev s cells) (hi : s.push i = .filled e w) :
    ∃ queue, s.queue.push e = some queue ∧
      WbInv dev { s with
        queue := queue, push := Function.update s.push i .returned, pushed := s.pushed ++ [w] } (cells ++ [e]) := by
  obtain ⟨hcell, hnew, hhand, hw⟩ := hinv.filled i e w hi
  obtain ⟨queue, hpush, hholds, hvals, hframe⟩ := hinv.holds.push hcell hnew
  have hopen : s.wbShutdown ≠ true := fun hshut => by cases hi.symm.trans (hinv.shut hshut i)
  have hstay : s.thread.leaving ≠ true := fun h => hopen (hinv.leaving h).2
  have hstill : s.thread.flushed = [] := by
    cases hpc : s.thread with
    | exited => rw [hpc] at hstay; exact absurd rfl hstay
    | _ => rfl
  have hpushed : ∀ {j : ι} {x : P} {v : DirtyBlock},
      Function.update s.push i .returned j = .filled x v → j ≠ i ∧ s.push j = .filled x v := by
    intro j x v hj
    by_cases hji : j = i
    · subst hji
      rw [Function.update_self] at hj
      cases hj
    · rw [Function.update_of_ne hji] at hj
      exact ⟨hji, hj⟩
  refine ⟨queue, hpush, { hinv with
    holds := hholds, filled := ?_, apart := ?_, hand := ?_, account := ?_, inRange := ?_, leaving := ?_, shut := ?_ }⟩
  · intro j x v hj
    obtain ⟨hji, hj⟩ := hpushed hj
    obtain ⟨hx, hxcells, hxhand, hv⟩ := hinv.filled j x v hj
    have hxe : x ≠ e := by
      rintro rfl
      exact hji (hinv.apart j i x v w hj hi)
    exact ⟨(hframe x hxcells).trans hx, by simp [hxcells, hxe], hxhand, hv⟩
  · intro j k x v v' hj hk
    exact hinv.apart j k x v v' (hpushed hj).2 (hpushed hk).2
  · intro x hx
    obtain ⟨hxcells, c, hc⟩ := hinv.hand x hx
    have hxe : x ≠ e := fun h => hhand (h ▸ hx)
    exact ⟨by simp [hxcells, hxe], c, (hframe x hxcells).trans hc⟩
  · have hsame : vals queue.heap s.thread.unwritten = vals s.queue.heap s.thread.unwritten :=
      vals_congr fun p hp => hframe p (hinv.hand p (WbPc.mem_unwritten hp)).1
    have hold := hinv.account
    rw [hstill, List.append_nil, WbState.owed, vals_append] at hold
    change s.issued ++ (vals queue.heap (s.thread.unwritten ++ (cells ++ [e]))).map DirtyBlock.op =
      (s.pushed ++ [w]).map DirtyBlock.op ++ s.thread.flushed
    have hlast : (s.pushed ++ [w]).map DirtyBlock.op = s.pushed.map DirtyBlock.op ++ [w.op] := List.map_append
    rw [vals_append, hsame, hvals, hstill, List.append_nil, hlast, ← hold]
    simp
  · intro v hv
    rcases List.mem_append.mp hv with hv | hv
    · exact hinv.inRange v hv
    · rwa [List.mem_singleton.mp hv]
  · exact fun h => absurd h hstay
  · exact fun h => absurd h hopen

/-! ### Steps of the thread -/

omit [DecidableEq P] [DecidableEq ι] in
/-- Whatever the thread finds under the lock, it leaves with what it has to do. -/
theorem WbInv.locked (hinv : WbInv dev s cells) (hpc : s.thread = .unlocked ∨ s.thread = .waiting) :
    ∃ cells', WbInv dev s.locked cells' := by
  have hlive : s.destroy ≠ .returned := fun h => by
    rcases hpc with hpc | hpc <;> cases hpc.symm.trans (hinv.joined h)
  have hacc : s.issued ++ (vals s.queue.heap cells).map DirtyBlock.op = s.pushed.map DirtyBlock.op := by
    have hold := hinv.account
    rcases hpc with hpc | hpc <;> simpa [WbState.owed, hpc, WbPc.unwritten, WbPc.flushed] using hold
  unfold WbState.locked
  split_ifs with hhead hshut
  · have hnil := hinv.holds.head_eq_none.mp hhead
    exact ⟨cells, { hinv with
      filled := fun i e w hi => (hinv.filled i e w hi).imp_right fun h => ⟨h.1, nofun, h.2.2⟩
      hand := nofun, account := by simpa [WbState.owed, WbPc.unwritten, WbPc.flushed] using hacc
      leaving := fun _ => ⟨hnil, hshut⟩, joined := fun h => absurd h hlive }⟩
  · exact ⟨cells, { hinv with
      filled := fun i e w hi => (hinv.filled i e w hi).imp_right fun h => ⟨h.1, nofun, h.2.2⟩
      hand := nofun, account := by simpa [WbState.owed, WbPc.unwritten, WbPc.flushed] using hacc
      leaving := nofun, joined := fun h => absurd h hlive }⟩
  · cases cells with
    | nil => exact absurd (hinv.holds.head_eq_none.mpr rfl) hhead
    | cons e cells =>
        obtain ⟨c, queue, hcell, hpop, hholds, hheap⟩ := hinv.holds.pop
        have hnodup := List.nodup_cons.mp hinv.holds.chain.nodup
        rw [hpop]
        refine ⟨cells, { hinv with
          holds := hholds, filled := fun i x w hi => ?_, hand := ?_, account := ?_, leaving := nofun,
          joined := fun h => absurd h hlive }⟩
        · obtain ⟨hx, hxcells, -, hw⟩ := hinv.filled i x w hi
          obtain ⟨hxe, hxcells⟩ := not_or.mp (fun h => hxcells (List.mem_cons.mpr h))
          exact ⟨hheap ▸ hx, hxcells, fun h => hxe (Option.some.inj h).symm, hw⟩
        · rintro x ⟨⟩
          exact ⟨hnodup.1, c, hheap ▸ hcell⟩
        · simpa [WbState.owed, WbPc.unwritten, WbPc.flushed, hheap] using hacc

theorem run_noting_bdevWrite {w : DirtyBlock} {ops : List (DevOp UInt64 Block)} (hw : w.blockno < dev.nblocks) :
    (run noting (bdevWrite dev w.blockno w.data).run ops).2 = ops ++ [w.op] := by
  rw [bdevWrite, if_neg (by simpa using hw)]
  rfl

theorem op_injective : Function.Injective DirtyBlock.op := by
  rintro ⟨b, d⟩ ⟨b', d'⟩ h
  cases h
  rfl

omit [DecidableEq P] [DecidableEq ι] in
/-- The write is of the oldest block that is not written yet. -/
theorem WbInv.write {e : P} (hinv : WbInv dev s cells) (hpc : s.thread = .writing e) :
    ∃ c, s.queue.heap e = some c ∧ WbInv dev { s with
      issued := (run noting (bdevWrite dev c.val.blockno c.val.data).run s.issued).2, thread := .freeing e } cells := by
  obtain ⟨hnot, c, hc⟩ := hinv.hand e (by rw [hpc]; rfl)
  have hacc : s.issued ++ c.val.op :: (vals s.queue.heap cells).map DirtyBlock.op = s.pushed.map DirtyBlock.op := by
    have hold := hinv.account
    rw [WbState.owed, hpc, WbPc.unwritten, List.singleton_append, vals_cons hc] at hold
    simpa [WbPc.flushed] using hold
  have hrange : c.val.blockno < dev.nblocks := by
    have hmem : c.val.op ∈ s.pushed.map DirtyBlock.op := by rw [← hacc]; simp
    exact hinv.inRange _ ((List.mem_map_of_injective op_injective).mp hmem)
  refine ⟨c, hc, { hinv with
    filled := fun i x w hi => ?_, hand := ?_, account := ?_, leaving := nofun, joined := fun h => ?_ }⟩
  · obtain ⟨hx, hxcells, hxe, hw⟩ := hinv.filled i x w hi
    rw [hpc] at hxe
    exact ⟨hx, hxcells, hxe, hw⟩
  · rintro x ⟨⟩
    exact ⟨hnot, c, hc⟩
  · change (run noting (bdevWrite dev c.val.blockno c.val.data).run s.issued).2 ++
      (vals s.queue.heap cells).map DirtyBlock.op = s.pushed.map DirtyBlock.op ++ []
    rw [run_noting_bdevWrite hrange, List.append_nil, ← hacc, List.append_assoc, List.singleton_append]
  · cases hpc.symm.trans (hinv.joined h)

omit [DecidableEq ι] in
theorem WbInv.free {e : P} (hinv : WbInv dev s cells) (hpc : s.thread = .freeing e) :
    WbInv dev { s with queue := s.queue.free e, thread := .unlocked } cells := by
  obtain ⟨hnot, -⟩ := hinv.hand e (by rw [hpc]; rfl)
  have hheap : ∀ p, p ≠ e → (s.queue.free e).heap p = s.queue.heap p := fun p hp => Function.update_of_ne hp ..
  refine { hinv with
    holds := hinv.holds.free hnot, filled := fun i x w hi => ?_, hand := nofun, account := ?_, leaving := nofun,
    joined := fun h => ?_ }
  · obtain ⟨hx, hxcells, hxe, hw⟩ := hinv.filled i x w hi
    rw [hpc] at hxe
    exact ⟨(hheap x fun h => hxe (congrArg some h.symm)).trans hx, hxcells, nofun, hw⟩
  · have hold := hinv.account
    rw [WbState.owed, hpc] at hold
    rw [WbState.owed]
    exact (congrArg (fun vs => s.issued ++ vs.map DirtyBlock.op)
      (vals_congr fun p hp => hheap p fun h => hnot (h ▸ hp))).trans hold
  · cases hpc.symm.trans (hinv.joined h)

omit [DecidableEq P] [DecidableEq ι] in
theorem WbInv.flush (hinv : WbInv dev s cells) (hpc : s.thread = .flushing) :
    WbInv dev { s with issued := (run noting (bdevFlush dev).run s.issued).2, thread := .exited } cells := by
  obtain ⟨rfl, hshut⟩ := hinv.leaving (by rw [hpc]; rfl)
  refine { hinv with
    filled := fun i e w hi => (hinv.filled i e w hi).imp_right fun h => ⟨h.1, nofun, h.2.2⟩, hand := nofun,
    account := ?_, leaving := fun _ => ⟨rfl, hshut⟩, joined := fun _ => rfl }
  have hold := hinv.account
  rw [WbState.owed, hpc] at hold
  simp only [WbPc.unwritten, WbPc.flushed, List.append_nil, vals_nil, List.map_nil] at hold
  change s.issued ++ [.flush] ++ [] = _
  rw [hold, List.append_nil]
  rfl

/-! ## Every run -/

theorem WbInv.step {a : WbAction P ι} (hinv : WbInv dev s cells) (hok : s.allowed dev a)
    (hstep : s.step dev a = some t) : ∃ cells', WbInv dev t cells' := by
  cases a with
  | malloc i e w =>
      simp only [WbState.step] at hstep
      split at hstep
      · next hfree =>
          cases hstep
          exact ⟨cells, hinv.malloc hfree hok.1 hok.2⟩
      · cases hstep
  | append i =>
      simp only [WbState.step] at hstep
      split at hstep
      · next e w hi =>
          obtain ⟨queue, hpush, hnext⟩ := hinv.append hi
          rw [hpush] at hstep
          cases hstep
          exact ⟨_, hnext⟩
      · cases hstep
  | thread =>
      simp only [WbState.step, WbState.writebackThreadMain] at hstep
      split at hstep
      · next hpc =>
          cases hstep
          exact hinv.locked (.inl hpc)
      · next hpc =>
          cases hstep
          exact hinv.locked (.inr hpc)
      · next e hpc =>
          obtain ⟨c, hc, hnext⟩ := hinv.write hpc
          rw [hc] at hstep
          cases hstep
          exact ⟨cells, hnext⟩
      · next e hpc =>
          obtain ⟨-, c, hc⟩ := hinv.hand e (by rw [hpc]; rfl)
          rw [hc] at hstep
          cases hstep
          exact ⟨cells, hinv.free hpc⟩
      · next hpc =>
          cases hstep
          exact ⟨cells, hinv.flush hpc⟩
      · cases hstep
  | destroy =>
      simp only [WbState.step] at hstep
      split at hstep
      · next hbefore =>
          cases hstep
          exact ⟨cells, { hinv with
            leaving := fun h => ⟨(hinv.leaving h).1, rfl⟩, shut := fun _ => hok, joined := nofun }⟩
      · next hpc =>
          cases hstep
          exact ⟨cells, { hinv with joined := fun _ => hpc }⟩
      · cases hstep

/-- The writeback queue neither loses, duplicates nor reorders: when `logfs_txnmgr_destroy` returns,
the thread has written the blocks pushed, in the order of the lock, and flushed after them. On the way
no step uses an address that holds no entry. -/
theorem writebackQueue_exact {heap : P → Option (Cell P DirtyBlock)}
    (hrun : Run (WbState.step dev) (WbState.allowed dev) (WbState.start heap : WbState P ι) s) :
    s.fault = false ∧ (s.destroy = .returned → s.issued = s.pushed.map DirtyBlock.op ++ [.flush]) := by
  obtain ⟨cells, hinv⟩ := hrun.invariant (I := fun s => ∃ cells, WbInv dev s cells) ⟨[], wbInv_start heap⟩
    fun _ _ _ hok hnow ⟨cells, hinv⟩ => hinv.step hok hnow
  refine ⟨hinv.sound, fun hdone => ?_⟩
  have hexit := hinv.joined hdone
  obtain ⟨rfl, -⟩ := hinv.leaving (by rw [hexit]; rfl)
  simpa [WbState.owed, hexit, WbPc.unwritten, WbPc.flushed] using hinv.account

end Model

/-- Two callers; the second block is pushed while the thread writes the first. -/
theorem writebackQueue_exact_two : ∃ s : WbState ℕ Bool,
    Run (WbState.step ⟨128⟩) (WbState.allowed ⟨128⟩) (WbState.start fun _ => none) s ∧ s.destroy = .returned ∧
      s.issued = [.write 7 zeroBlock, .write 9 zeroBlock, .flush] := by
  have hrun : ∃ s : WbState ℕ Bool,
      Run (WbState.step ⟨128⟩) (WbState.allowed ⟨128⟩) (WbState.start fun _ => none) s ∧ s.destroy = .returned ∧
        s.pushed = [⟨7, zeroBlock⟩, ⟨9, zeroBlock⟩] :=
    ⟨_, .next (a := .destroy)
      (.next (a := .thread) (.next (a := .thread)
      (.next (a := .thread) (.next (a := .thread) (.next (a := .destroy)
      (.next (a := .thread) (.next (a := .thread) (.next (a := .thread)
      (.next (a := .append true) (.next (a := .thread)
      (.next (a := .append false) (.next (a := .thread)
      (.next (a := .malloc true 2 ⟨9, zeroBlock⟩) (.next (a := .malloc false 1 ⟨7, zeroBlock⟩) .init
        ⟨rfl, by decide⟩ rfl) ⟨rfl, by decide⟩ rfl) trivial rfl) trivial rfl) trivial rfl) trivial rfl) trivial rfl)
      trivial rfl) trivial rfl) (fun i => by cases i <;> rfl) rfl) trivial rfl) trivial rfl) trivial rfl) trivial rfl)
      (fun i => by cases i <;> rfl) rfl, rfl, rfl⟩
  obtain ⟨s, hrun, hdone, hpushed⟩ := hrun
  refine ⟨s, hrun, hdone, ?_⟩
  rw [(writebackQueue_exact hrun).2 hdone, hpushed]
  rfl

end Logfs
