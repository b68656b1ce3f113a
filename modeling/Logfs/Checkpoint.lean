import Logfs.CommitSteps
import Logfs.Recovery
import Logfs.Steps

/-!
# The commit thread's invariant

The transactions that are not home yet account for the part of the region between
tail and head, so a generation that fits the empty region always finds room and its
commit succeeds. The newest content of every block is in the staging table, in the
generation being committed, on the checkpoint list, still to be written home, or home,
in this order, and no step of the thread changes it.
-/
namespace Logfs
open Interaction WriteCache

/-! ## Transactions between tail and head -/

/-- What `do_commit` logs for the nodes. -/
def txnOf (nodes : List DirtyBlock) : Transaction := ⟨pendingBlocks nodes, []⟩

@[simp] theorem txnOf_len (nodes : List DirtyBlock) : (txnOf nodes).len = nodes.length + 2 := by
  simp [txnOf, Transaction.len, recordLen, pendingBlocks]
  omega

theorem txnOf_fits {nodes : List DirtyBlock} (h : nodes.length ≤ maxTagsPerDesc) :
    (txnOf nodes).Fits :=
  ⟨by simpa [txnOf, pendingBlocks] using h, Nat.zero_le _⟩

/-- Blocks of the region the transactions take up. -/
def ckptLen (log : List CommittedTxn) : ℕ := (log.map fun t => t.nodes.length + 2).sum

@[simp] theorem ckptLen_nil : ckptLen [] = 0 := rfl

@[simp] theorem ckptLen_cons (t : CommittedTxn) (ts : List CommittedTxn) :
    ckptLen (t :: ts) = t.nodes.length + 2 + ckptLen ts := by
  simp [ckptLen]

@[simp] theorem ckptLen_append (ts us : List CommittedTxn) :
    ckptLen (ts ++ us) = ckptLen ts + ckptLen us := by
  simp [ckptLen]

/-- The transactions follow one another from offset `off` and number `seq` to the journal's
head and next number. -/
def ChainFrom (j : Journal) : UInt64 → UInt64 → List CommittedTxn → Prop
  | off, seq, [] => off = j.head ∧ seq = j.nextSequence
  | off, seq, t :: ts =>
      t.descOffset = off ∧ t.sequence = seq ∧
        ChainFrom j (off + UInt64.ofNat (t.nodes.length + 2)) (seq + 1) ts

/-- The transactions fill the region from the tail to the head. -/
structure Chain (j : Journal) (log : List CommittedTxn) : Prop where
  links : ∃ seq, ChainFrom j j.tail seq log
  room : ckptLen log ≤ j.maxlen.toNat

variable {j : Journal} {log : List CommittedTxn}

theorem ChainFrom.head_eq {off seq : UInt64} (h : ChainFrom j off seq log) :
    j.head = off + UInt64.ofNat (ckptLen log) := by
  induction log generalizing off seq with
  | nil => simp [h.1]
  | cons t ts ih => rw [ih h.2.2, ckptLen_cons, UInt64.ofNat_add (t.nodes.length + 2), UInt64.add_assoc]

theorem ChainFrom.commit {off seq : UInt64} (h : ChainFrom j off seq log) (nodes : List DirtyBlock) :
    ChainFrom (committed j (txnOf nodes)) off seq (log ++ [⟨j.nextSequence, j.head, nodes⟩]) := by
  induction log generalizing off seq with
  | nil =>
      obtain ⟨rfl, rfl⟩ := h
      refine ⟨rfl, rfl, ?_, rfl⟩
      rw [committed, txnOf_len]
  | cons t ts ih => exact ⟨h.1, h.2.1, ih h.2.2⟩

/-- Where the tail is does not matter to the transactions. -/
theorem ChainFrom.of_tail {off seq : UInt64} (h : ChainFrom j off seq log) (tail : UInt64) :
    ChainFrom { j with tail } off seq log := by
  induction log generalizing off seq with
  | nil => exact h
  | cons u us ih => exact ⟨h.1, h.2.1, ih h.2.2⟩

namespace Chain

theorem freeSpace (h : Chain j log) :
    (journalFreeSpace j).toNat = j.maxlen.toNat - ckptLen log := by
  obtain ⟨seq, hlinks⟩ := h.links
  have hroom := h.room
  have hmax := j.maxlen.toNat_lt
  have hlen : (UInt64.ofNat (ckptLen log)).toNat = ckptLen log :=
    UInt64.toNat_ofNat_of_lt' (show ckptLen log < 18446744073709551616 by omega)
  have hused : j.head - j.tail = UInt64.ofNat (ckptLen log) := by
    rw [hlinks.head_eq, UInt64.add_comm, UInt64.add_sub_cancel]
  have hle : UInt64.ofNat (ckptLen log) ≤ j.maxlen := by
    rw [UInt64.le_iff_toNat_le, hlen]
    exact hroom
  rw [journalFreeSpace, hused, UInt64.toNat_sub_of_le _ _ hle, hlen]

theorem hasRoom (h : Chain j log) (nodes : List DirtyBlock) :
    j.HasRoom (txnOf nodes) ↔ ckptLen log + (nodes.length + 2) ≤ j.maxlen.toNat := by
  have hroom := h.room
  rw [Journal.HasRoom, h.freeSpace, txnOf_len]
  omega

theorem commit (h : Chain j log) {nodes : List DirtyBlock} (hroom : j.HasRoom (txnOf nodes)) :
    Chain (committed j (txnOf nodes)) (log ++ [⟨j.nextSequence, j.head, nodes⟩]) where
  links := h.links.imp fun _ hlinks => hlinks.commit nodes
  room := by
    have hle := (h.hasRoom nodes).mp hroom
    simpa [committed] using hle

/-- Dropping the oldest transaction moves the tail to where the next one begins. -/
theorem advance {m : TxnMgr} {t : CommittedTxn} (h : Chain j (t :: m.ckpt)) :
    Chain { j with tail := (newTail m j).1 } m.ckpt := by
  obtain ⟨seq, -, -, hrest⟩ := h.links
  have hroom := h.room
  rw [ckptLen_cons] at hroom
  refine ⟨?_, show ckptLen m.ckpt ≤ j.maxlen.toNat by omega⟩
  unfold newTail
  cases hckpt : m.ckpt with
  | nil =>
      rw [hckpt] at hrest
      exact ⟨_, rfl, rfl⟩
  | cons u us =>
      rw [hckpt] at hrest
      have hmoved := hrest.of_tail u.descOffset
      rw [← hrest.1] at hmoved
      exact ⟨_, hmoved⟩

end Chain

/-! ## Where the newest contents are -/

def Caller.nodes : Caller → List DirtyBlock
  | .reclaim nodes => nodes
  | _ => []

/-- The nodes of the generation being committed. -/
def Pc.inflight : Pc → List DirtyBlock
  | .orderedFlush _ nodes | .reclaim _ nodes | .commit _ nodes | .link _ nodes _ => nodes
  | .unlink _ caller | .writeHome _ _ _ caller | .nextTail _ _ caller | .advance _ _ caller =>
      caller.nodes
  | _ => []

/-- The nodes of the transaction being checkpointed that are still to be written home. -/
def Pc.unhomed : Pc → List DirtyBlock
  | .writeHome _ _ rest _ => rest
  | _ => []

/-- All nodes that are not home, the newer ones later. -/
def Core.nodes (c : Core) : List DirtyBlock :=
  c.pc.unhomed ++ ckptNodes c.mgr ++ c.pc.inflight ++ stagedNodes c.mgr

/-- The content last staged for each block. -/
def Core.content (c : Core) : Image := applyWrites c.disk.view (nodeWrites c.nodes)

@[simp] theorem inflight_afterFreeze (j : Journal) (nodes : List DirtyBlock) :
    (afterFreeze j nodes).inflight = nodes := by
  unfold afterFreeze
  split
  · rfl
  · next h => simpa [Pc.inflight] using h

@[simp] theorem unhomed_afterFreeze (j : Journal) (nodes : List DirtyBlock) :
    (afterFreeze j nodes).unhomed = [] := by
  unfold afterFreeze
  split <;> rfl

@[simp] theorem inflight_resume (j : Journal) (done : Bool) (caller : Caller) :
    (resume j done caller).inflight = caller.nodes := by
  cases caller <;> cases done <;> rfl

@[simp] theorem unhomed_resume (j : Journal) (done : Bool) (caller : Caller) :
    (resume j done caller).unhomed = [] := by
  cases caller <;> cases done <;> rfl

/-! ## The invariant -/

/-- A generation small enough for one descriptor and the region. -/
def FitsJournal (j : Journal) (nodes : List DirtyBlock) : Prop :=
  nodes.length ≤ maxTagsPerDesc ∧ nodes.length + 2 ≤ j.maxlen.toNat

/-- A caller of `checkpoint_oldest` waits for space it can get. -/
def Caller.Fits (j : Journal) : Caller → Prop
  | .reclaim nodes => FitsJournal j nodes
  | _ => True

/-- The thread's journal `j` is the mount's `j₀` with `log` between its tail and its head. -/
structure LogAt (j₀ : Journal) (m : TxnMgr) (j : Journal) (log : List CommittedTxn) : Prop where
  dev : m.dev = j₀.dev
  jdev : j.dev = j₀.dev
  first : j.first = j₀.first
  maxlen : j.maxlen = j₀.maxlen
  chain : Chain j log

/-- What holds of the program of a commit on the way: it ends as a commit that found room. -/
def Committing (j₀ j : Journal) (nodes : List DirtyBlock)
    (p : DevM (Except Errno (UInt64 × UInt64) × Journal)) (d : Disk) : Prop :=
  Meets faultless (HomeAs j₀ d.view)
    (fun r e => r = (.ok (j.nextSequence, j.head), committed j (txnOf nodes)) ∧ e.pending = []) p d

/-- What holds of the program of a tail advance on the way. -/
def Advancing (j₀ j : Journal) (m : TxnMgr) (p : DevM (Except Errno Unit × Journal)) (d : Disk) : Prop :=
  Meets faultless (HomeAs j₀ d.view)
    (fun r e => r = (.ok (), { j with tail := (newTail m j).1 }) ∧ e.pending = [] ∧
      (m.ckpt = [] → (jsuperOf e.view).start = journalEmpty)) p d

def PcOk (j₀ : Journal) (m : TxnMgr) (d : Disk) : Pc → Prop
  | .top j | .frozen j | .emptyCycle j | .lag j | .exited j => LogAt j₀ m j m.ckpt ∧ d.pending = []
  | .orderedFlush j nodes =>
      LogAt j₀ m j m.ckpt ∧ d.pending = [] ∧ (nodes ≠ [] → FitsJournal j₀ nodes)
  | .reclaim j nodes => LogAt j₀ m j m.ckpt ∧ d.pending = [] ∧ FitsJournal j₀ nodes
  | .unlink j caller => LogAt j₀ m j m.ckpt ∧ d.pending = [] ∧ caller.Fits j₀
  | .writeHome j t _ caller => LogAt j₀ m j (t :: m.ckpt) ∧ caller.Fits j₀
  | .nextTail j t caller => LogAt j₀ m j (t :: m.ckpt) ∧ d.pending = [] ∧ caller.Fits j₀
  | .advance p t caller =>
      ∃ j, LogAt j₀ m j (t :: m.ckpt) ∧ caller.Fits j₀ ∧ Advancing j₀ j m p d
  | .commit p nodes =>
      ∃ j, LogAt j₀ m j m.ckpt ∧ j.HasRoom (txnOf nodes) ∧ Committing j₀ j nodes p d
  | .link j' nodes rc =>
      ∃ j, LogAt j₀ m j m.ckpt ∧ j.HasRoom (txnOf nodes) ∧ d.pending = [] ∧
        rc = .ok (j.nextSequence, j.head) ∧ j' = committed j (txnOf nodes)

/-- No transaction is in the thread's hands. -/
def Pc.quiet : Pc → Bool
  | .writeHome .. | .nextTail .. | .advance .. | .commit .. | .link .. => false
  | _ => true

structure CoreOk (j₀ : Journal) (c : Core) : Prop where
  pc : PcOk j₀ c.mgr c.disk c.pc
  staged : Staged c.mgr
  nodes : ∀ d ∈ c.nodes, d.blockno < j₀.dev.nblocks
  /-- With nothing left to checkpoint the journal superblock says that the log is empty. -/
  emptied : c.mgr.ckpt = [] → c.pc.quiet = true → (jsuperOf c.disk.view).start = journalEmpty

/-- The journal after a mount: inside the device, and its log empty. -/
structure Opened (j : Journal) (img : Image) : Prop where
  placed : j.Placed
  empty : j.tail = j.head
  magic : (jsuperOf img).magic = journalMagic
  start : (jsuperOf img).start = journalEmpty

theorem Opened.fresh {dev : BlockDev} {first maxlen : UInt64}
    (hj : Journal.Placed ⟨dev, first, maxlen, 0, 0, 1⟩) (img : Image) :
    Opened ⟨dev, first, maxlen, 0, 0, 1⟩ (Function.update img jsuperBlockno
      (jsuperEncode ⟨dev, first, maxlen, 0, 0, 1⟩ journalEmpty 0)) :=
  ⟨hj, rfl, by simp [jsuperOf], by simp [jsuperOf]⟩

theorem opened_tiny : Opened tinyJournal tinyImage :=
  Opened.fresh ⟨by decide, by decide, by decide⟩ _

namespace LogAt
variable {j₀ : Journal} {m : TxnMgr}

theorem placed (h : LogAt j₀ m j log) (h₀ : j₀.Placed) : j.Placed where
  maxlen_pos := h.maxlen ▸ h₀.maxlen_pos
  fits := h.first ▸ h.maxlen ▸ h.jdev ▸ h₀.fits
  after_jsuper := h.first ▸ h₀.after_jsuper

theorem home (h : LogAt j₀ m j log) {b : UInt64} : Home j b ↔ Home j₀ b := by
  simp only [Home, InRegion, h.first, h.maxlen]

/-- Only the device matters of the manager. -/
theorem of_mgr {m' : TxnMgr} (h : LogAt j₀ m j log) (hdev : m'.dev = m.dev) : LogAt j₀ m' j log :=
  { h with dev := hdev.trans h.dev }

theorem committing (h : LogAt j₀ m j log) (h₀ : j₀.Placed) {nodes : List DirtyBlock}
    (hfits : nodes.length ≤ maxTagsPerDesc) (hroom : j.HasRoom (txnOf nodes)) (d : Disk) :
    Committing j₀ j nodes (journalCommit j (pendingBlocks nodes) []) d := by
  have hj := h.placed h₀
  have hmeets := meets_journalCommit (c := d) hj (txnOf_fits hfits) hroom
    (commitStates_home hj (txnOf nodes) d) (Q := fun r e =>
      r = (.ok (j.nextSequence, j.head), committed j (txnOf nodes)) ∧ e.pending = []) ⟨rfl, rfl⟩
  exact hmeets.mono (fun e he b hb => he b (h.home.mpr hb)) fun _ _ hQ => hQ

theorem advancing {t : CommittedTxn} (h : LogAt j₀ m j (t :: m.ckpt)) (h₀ : j₀.Placed) (d : Disk) :
    Advancing j₀ j m (journalAdvanceTail j (newTail m j).1 (newTail m j).2) d := by
  have hsuper : HomeAs j₀ d.view (d.write jsuperBlockno (jsuperEncode j
      (if (newTail m j).1 = j.head then journalEmpty else (newTail m j).1) (newTail m j).2)) := by
    intro b hb
    rw [view_write, Function.update_of_ne hb.1]
  refine meets_journalAdvanceTail (h.placed h₀) (fun _ _ => rfl) hsuper hsuper ⟨rfl, rfl, ?_⟩
  intro hnone
  simp [jsuperOf, newTail, hnone]

end LogAt

theorem Meets.rehome {α : Type} {j₀ : Journal} {p p' : DevM α} {d d' : Disk} {Q : α → Disk → Prop}
    (h : Meets faultless (HomeAs j₀ d.view) Q p d) (hstep : Step faultless (p, d) (p', d')) :
    HomeAs j₀ d.view d' ∧ Meets faultless (HomeAs j₀ d'.view) Q p' d' := by
  have hnext : Meets faultless (HomeAs j₀ d.view) Q p' d' := Interaction.Meets.step h hstep
  refine ⟨hnext.now, hnext.mono (fun e he b hb => ?_) fun _ _ hQ => hQ⟩
  rw [he b hb, hnext.now b hb]

/-! ## Steps of the thread -/

section Steps
variable {j₀ : Journal} {c c' : Core}

theorem endFreeze_of_staged (h : Staged c.mgr) (j : Journal) :
    endFreeze c j =
      { c with
        mgr :=
          { c.mgr with
            buckets := fun _ => [], ndirty := 0, orderedBlocks := [], commitRequested := false,
            freezing := false }
        pc := if c.mgr.mode == .ordered && decide (0 < c.mgr.orderedBlocks.length) then
            .orderedFlush j (stagedNodes c.mgr)
          else afterFreeze j (stagedNodes c.mgr) } := by
  simp only [endFreeze, h.takeGeneration_eq]

theorem ckptNodes_finishCommit (m : TxnMgr) (j : Journal) (nodes : List DirtyBlock)
    (seq off : UInt64) :
    ckptNodes (finishCommit m j nodes (.ok (seq, off))) = ckptNodes m ++ nodes := by
  simp [ckptNodes, finishCommit]

/-- A step of the thread either writes the next node home or leaves the nodes and the home
blocks as they are. -/
theorem CoreOk.nodes_step (h : CoreOk j₀ c) (hstep : ThreadStep c c') :
    (c'.nodes = c.nodes ∧ HomeAs j₀ c.disk.view c'.disk) ∨
      ∃ n, c.nodes = n :: c'.nodes ∧ c'.disk = c.disk.write n.blockno n.data := by
  cases hstep with
  | take ends up =>
      left
      have hpc : ∀ {pc : Pc} {j : Journal}, pc = .top j ∨ pc = .frozen j →
          pc.inflight = [] ∧ pc.unhomed = [] := by
        rintro _ _ (rfl | rfl) <;> exact ⟨rfl, rfl⟩
      obtain ⟨hin, hun⟩ := hpc (up.imp_left And.left)
      rw [endFreeze_of_staged h.staged]
      refine ⟨?_, fun _ _ => rfl⟩
      simp only [Core.nodes, hin, hun]
      split
      · simp [Pc.inflight, Pc.unhomed, ckptNodes, stagedNodes_of_empty]
      · rw [inflight_afterFreeze, unhomed_afterFreeze]
        simp [ckptNodes, stagedNodes_of_empty]
  | orderedFlush =>
      refine .inl ⟨?_, fun _ _ => rfl⟩
      rw [Core.nodes, inflight_afterFreeze, unhomed_afterFreeze]
      rfl
  | unlinkNone =>
      refine .inl ⟨?_, fun _ _ => rfl⟩
      rw [Core.nodes, inflight_resume, unhomed_resume]
      rfl
  | unlink oldest =>
      refine .inl ⟨?_, fun _ _ => rfl⟩
      simp [Core.nodes, Pc.inflight, Pc.unhomed, ckptNodes, oldest, stagedNodes]
  | writeHome => exact .inr ⟨_, rfl, rfl⟩
  | @writeHomeError m d j t n rest caller beyond =>
      have hlog : m.dev = j₀.dev := h.pc.1.dev
      rw [hlog] at beyond
      exact absurd (h.nodes _ (by simp [Core.nodes, Pc.unhomed])) beyond
  | homeFlush => exact .inl ⟨rfl, fun _ _ => rfl⟩
  | advance op =>
      obtain ⟨j, hlog, hfits, hadv⟩ := h.pc
      exact .inl ⟨rfl, (Meets.rehome hadv op).1⟩
  | advanced =>
      refine .inl ⟨?_, fun _ _ => rfl⟩
      rw [Core.nodes, inflight_resume, unhomed_resume]
      rfl
  | commit op =>
      obtain ⟨j, hlog, hroom, hcom⟩ := h.pc
      exact .inl ⟨rfl, (Meets.rehome hcom op).1⟩
  | link =>
      obtain ⟨j, hlog, hroom, hset, rfl, rfl⟩ := h.pc
      refine .inl ⟨?_, fun _ _ => rfl⟩
      simp only [Core.nodes, Pc.inflight, Pc.unhomed, ckptNodes_finishCommit]
      simp [finishCommit, stagedNodes]
  | _ => exact .inl ⟨rfl, fun _ _ => rfl⟩

/-- No step of the thread changes the newest content of a home block. -/
theorem CoreOk.content_step (h : CoreOk j₀ c) (hstep : ThreadStep c c') {b : UInt64}
    (hb : Home j₀ b) : c'.content b = c.content b := by
  rcases h.nodes_step hstep with ⟨hnodes, hhome⟩ | ⟨n, hnodes, hdisk⟩
  · rw [Core.content, Core.content, hnodes]
    exact applyWrites_congr (.inr (hhome b hb))
  · rw [Core.content, Core.content, hnodes, hdisk, view_write]
    rfl

theorem CoreOk.staged_step (h : CoreOk j₀ c) (hstep : ThreadStep c c') : Staged c'.mgr := by
  cases hstep with
  | take =>
      rw [endFreeze_of_staged h.staged]
      exact staged_of_empty rfl rfl
  | _ => exact h.staged.of_table rfl rfl

theorem pcOk_resume {m : TxnMgr} {d : Disk} {j : Journal} {caller : Caller} {done : Bool}
    (h₀ : j₀.Placed) (hlog : LogAt j₀ m j m.ckpt) (hset : d.pending = []) (hfits : caller.Fits j₀)
    (hdone : done = false → m.ckpt = []) : PcOk j₀ m d (resume j done caller) := by
  cases done with
  | true =>
      cases caller with
      | reclaim nodes => exact ⟨hlog, hset, hfits⟩
      | lag => exact ⟨hlog, hset⟩
      | drain => exact ⟨hlog, hset, trivial⟩
  | false =>
      cases caller with
      | reclaim nodes =>
          have hroom : j.HasRoom (txnOf nodes) := by
            rw [hlog.chain.hasRoom, hdone rfl, ckptLen_nil, hlog.maxlen, Nat.zero_add]
            exact hfits.2
          exact ⟨j, hlog, hroom, hlog.committing h₀ hfits.1 hroom d⟩
      | lag => exact ⟨hlog, hset⟩
      | drain => exact ⟨hlog, hset⟩

theorem pcOk_afterFreeze {m : TxnMgr} {d : Disk} {j : Journal} {nodes : List DirtyBlock}
    (hlog : LogAt j₀ m j m.ckpt) (hset : d.pending = []) (hfits : nodes ≠ [] → FitsJournal j₀ nodes) :
    PcOk j₀ m d (afterFreeze j nodes) := by
  unfold afterFreeze
  split
  · next hlen => exact ⟨hlog, hset, hfits (List.length_pos_iff.mp hlen)⟩
  · exact ⟨hlog, hset⟩

/-- What the loop of `do_commit` tests. -/
theorem space_iff_txnOf {j : Journal} {nodes : List DirtyBlock} (hfits : nodes.length ≤ maxTagsPerDesc) :
    ¬ journalFreeSpace j < journalSpaceNeeded nodes.length 0 ↔ j.HasRoom (txnOf nodes) := by
  have hlen : (txnOf nodes).data.length = nodes.length := by simp [txnOf, pendingBlocks]
  rw [← hlen]
  exact space_iff_hasRoom (txnOf_fits hfits)

theorem CoreOk.pc_step (h₀ : j₀.Placed) (h : CoreOk j₀ c) (hstep : ThreadStep c c')
    (hfits : endsFreeze c = true → stagedNodes c.mgr ≠ [] → FitsJournal j₀ (stagedNodes c.mgr)) :
    PcOk j₀ c'.mgr c'.disk c'.pc := by
  have hpc := h.pc
  cases hstep with
  | drain => exact ⟨hpc.1, hpc.2, trivial⟩
  | freeze => exact ⟨hpc.1.of_mgr rfl, hpc.2⟩
  | @take m d pc j ends up =>
      rw [endFreeze_of_staged h.staged]
      have htop : LogAt j₀ m j m.ckpt ∧ d.pending = [] := by
        rcases up with ⟨rfl, -⟩ | rfl <;> exact hpc
      dsimp only
      split
      · exact ⟨htop.1.of_mgr rfl, htop.2, hfits ends⟩
      · exact pcOk_afterFreeze (htop.1.of_mgr rfl) htop.2 (hfits ends)
  | orderedFlush => exact pcOk_afterFreeze hpc.1 rfl hpc.2.2
  | emptyCycle => exact ⟨hpc.1.of_mgr rfl, hpc.2⟩
  | noSpace => exact hpc
  | space room =>
      have hroom := (space_iff_txnOf hpc.2.2.1).mp room
      exact ⟨_, hpc.1, hroom, hpc.1.committing h₀ hpc.2.2.1 hroom _⟩
  | unlinkNone none => exact pcOk_resume h₀ hpc.1 hpc.2.1 hpc.2.2 fun _ => none
  | unlink oldest =>
      have hlog := hpc.1
      rw [oldest] at hlog
      exact ⟨hlog.of_mgr rfl, hpc.2.2⟩
  | writeHome => exact hpc
  | writeHomeError beyond =>
      have hlog := hpc.1.dev
      dsimp only at hlog
      rw [hlog] at beyond
      exact absurd (h.nodes _ (by simp [Core.nodes, Pc.unhomed])) beyond
  | homeFlush => exact ⟨hpc.1, rfl, hpc.2⟩
  | nextTail => exact ⟨_, hpc.1, hpc.2.2, hpc.1.advancing h₀ _⟩
  | advance op =>
      obtain ⟨j, hlog, hfit, hadv⟩ := hpc
      exact ⟨j, hlog, hfit, (Meets.rehome hadv op).2⟩
  | advanced =>
      obtain ⟨j, hlog, hfit, hadv⟩ := hpc
      obtain ⟨hret, hset, -⟩ := Interaction.Meets.run hadv
      simp only [run_ret, Prod.mk.injEq] at hret
      obtain ⟨rfl, rfl⟩ := hret
      refine pcOk_resume h₀ { hlog with chain := hlog.chain.advance } hset hfit ?_
      simp [Except.isOk, Except.toBool]
  | commit op =>
      obtain ⟨j, hlog, hroom, hcom⟩ := hpc
      exact ⟨j, hlog, hroom, (Meets.rehome hcom op).2⟩
  | committed =>
      obtain ⟨j, hlog, hroom, hcom⟩ := hpc
      obtain ⟨hret, hset⟩ := Interaction.Meets.run hcom
      simp only [run_ret, Prod.mk.injEq] at hret
      obtain ⟨rfl, rfl⟩ := hret
      exact ⟨j, hlog, hroom, hset, rfl, rfl⟩
  | link =>
      obtain ⟨j, hlog, hroom, hset, rfl, rfl⟩ := hpc
      refine ⟨?_, hset⟩
      exact { hlog with chain := hlog.chain.commit hroom }
  | lagging more => exact ⟨hpc.1, hpc.2, trivial⟩
  | caughtUp => exact hpc

theorem CoreOk.emptied_step (h : CoreOk j₀ c) (hstep : ThreadStep c c')
    (hnone : c'.mgr.ckpt = []) (hquiet : c'.pc.quiet = true) :
    (jsuperOf c'.disk.view).start = journalEmpty := by
  have hold := h.emptied
  cases hstep with
  | take ends up =>
      rw [endFreeze_of_staged h.staged] at hnone
      refine hold hnone ?_
      rcases up with ⟨rfl, -⟩ | rfl <;> rfl
  | unlinkNone none => exact hold none rfl
  | link =>
      obtain ⟨j, -, -, -, rfl, rfl⟩ := h.pc
      simp [finishCommit] at hnone
  | advanced =>
      obtain ⟨j, hlog, hfit, hadv⟩ := h.pc
      exact (Interaction.Meets.run hadv).2.2 hnone
  | writeHomeError beyond =>
      have hlog : LogAt j₀ _ _ _ := h.pc.1
      have hdev := hlog.dev
      dsimp only at hdev
      rw [hdev] at beyond
      exact absurd (h.nodes _ (by simp [Core.nodes, Pc.unhomed])) beyond
  | unlink | writeHome | homeFlush | nextTail | advance | commit | committed =>
      simp [Pc.quiet] at hquiet
  | _ => exact hold hnone rfl

/-- The invariant is kept while the generations taken fit the region. -/
theorem CoreOk.step (h₀ : j₀.Placed) (h : CoreOk j₀ c) (hstep : ThreadStep c c')
    (hfits : endsFreeze c = true → stagedNodes c.mgr ≠ [] → FitsJournal j₀ (stagedNodes c.mgr)) :
    CoreOk j₀ c' where
  pc := h.pc_step h₀ hstep hfits
  staged := h.staged_step hstep
  nodes d hd := by
    rcases h.nodes_step hstep with ⟨hnodes, -⟩ | ⟨n, hnodes, -⟩
    · exact h.nodes d (hnodes ▸ hd)
    · exact h.nodes d (hnodes ▸ List.mem_cons_of_mem n hd)
  emptied := h.emptied_step hstep

end Steps
end Logfs
