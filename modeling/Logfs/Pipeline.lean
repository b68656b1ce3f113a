import Logfs.Checkpoint
import Logfs.CrashImages
import Logfs.Fs

/-!
# Commits and checkpoints called one after the other

`do_commit` and `checkpoint_oldest` on generations given from outside, operation by
operation. The calls begin at the same places of the commit thread and take the same
steps as there.
-/
namespace Logfs
open Interaction WriteCache Transition

inductive Call
  | doCommit (nodes : List DirtyBlock)
  | checkpointOldest

/-- The journal between two calls. `do_commit` returns to `enforce_checkpoint_lag`. -/
def Pc.returned : Pc → Option Journal
  | .top j | .lag j => some j
  | _ => none

def Pc.idle : Pc → Bool
  | .top _ => true
  | _ => false

def Call.entry (j : Journal) : Call → Pc
  | .doCommit nodes => .reclaim j nodes
  | .checkpointOldest => .unlink j .lag

def Call.generations : Call → List (List DirtyBlock)
  | .doCommit nodes => [nodes]
  | .checkpointOldest => []

/-- `given` are the generations handed to `do_commit`, `logged` those for which
`logfs_journal_commit` returned 0; both only record the past. -/
structure Pipe extends Core where
  given : List (List DirtyBlock)
  logged : List (List DirtyBlock)

inductive PipeAction
  | call (f : Call)
  | thread

namespace Pipe

def step (s : Pipe) : PipeAction → Option Pipe
  | .call f => s.pc.returned.map fun j =>
      { s with pc := f.entry j, given := s.given ++ f.generations }
  | .thread =>
      if s.pc.idle then none
      else (threadStep s.toCore).map fun c =>
        { s with toCore := c, logged := s.logged ++ (committing s.toCore).toList }

def boot (j : Journal) (img : Image) (mode : DataMode) : Pipe where
  mgr := txnMgrCreate j j.dev mode
  disk := settled img
  pc := .top j
  given := []
  logged := []

/-- What a step can do. -/
inductive Steps (s : Pipe) : PipeAction → Pipe → Prop
  | call {f : Call} {j : Journal} (between : s.pc.returned = some j) :
      Steps s (.call f) { s with pc := f.entry j, given := s.given ++ f.generations }
  | thread {c : Core} (busy : s.pc.idle = false) (now : ThreadStep s.toCore c) :
      Steps s .thread { s with toCore := c, logged := s.logged ++ (committing s.toCore).toList }

theorem step_sound {s s' : Pipe} {a : PipeAction} (h : s.step a = some s') : Steps s a s' := by
  cases a with
  | call f =>
      obtain ⟨j, hj, rfl⟩ := Option.map_eq_some_iff.mp h
      exact .call hj
  | thread =>
      simp only [step] at h
      split_ifs at h with hidle
      obtain ⟨c, hnow, rfl⟩ := Option.map_eq_some_iff.mp h
      exact .thread (by simpa using hidle) (threadStep_sound hnow)

end Pipe

/-! ## What a generation may be -/

/-- At most as many blocks as a descriptor has tags for, all of them home blocks of the device. -/
structure Generation (j : Journal) (nodes : List DirtyBlock) : Prop where
  length_le : nodes.length ≤ maxTagsPerDesc
  home : ∀ d ∈ nodes, Home j d.blockno
  lt : ∀ d ∈ nodes, d.blockno < j.dev.nblocks

/-- The calls are given generations of home blocks. -/
def homeGenerations (j₀ : Journal) (_ : Pipe) : PipeAction → Prop
  | .call (.doCommit nodes) => Generation j₀ nodes
  | _ => True

/-- The transaction, if the region is large enough for it, ends at a 64-bit offset. -/
def Journal.OffsetsFit (j : Journal) (nodes : List DirtyBlock) : Prop :=
  nodes.length + 2 ≤ j.maxlen.toNat → j.head.toNat + nodes.length + 2 < 2 ^ 64

def offsetsFit (s : Pipe) : PipeAction → Prop
  | .call (.doCommit nodes) => ∀ j, s.pc.returned = some j → j.OffsetsFit nodes
  | _ => True

/-! ## The invariant -/

/-- `j` is in the region of `j₀`, on the same device. -/
structure SameRegion (j₀ j : Journal) : Prop where
  dev : j.dev = j₀.dev
  first : j.first = j₀.first
  maxlen : j.maxlen = j₀.maxlen

theorem SameRegion.home {j₀ j : Journal} (h : SameRegion j₀ j) {b : UInt64} : Home j b ↔ Home j₀ b := by
  simp only [Home, InRegion, h.first, h.maxlen]

theorem SameRegion.placed {j₀ j : Journal} (h : SameRegion j₀ j) (h₀ : j₀.Placed) : j.Placed where
  maxlen_pos := h.maxlen ▸ h₀.maxlen_pos
  fits := h.first ▸ h.maxlen ▸ h.dev ▸ h₀.fits
  after_jsuper := h.first ▸ h₀.after_jsuper

theorem SameRegion.symm {j₀ j : Journal} (h : SameRegion j₀ j) : SameRegion j j₀ :=
  ⟨h.dev.symm, h.first.symm, h.maxlen.symm⟩

theorem DiskLog.to_region {j k : Journal} {img : Image} {p : ℕ} {s : UInt64} {ts : List Transaction}
    (h : DiskLog j img p s ts) (hregion : SameRegion j k) : DiskLog k img p s ts where
  placed := hregion.placed h.placed
  room := hregion.maxlen ▸ h.room
  bound := h.bound
  holds := (LogHolds.of_region j k hregion.first hregion.maxlen).mpr h.holds
  starts := h.starts

/-- What else holds of journal, image and checkpoint list, kept by every whole commit and
every whole checkpoint. -/
structure Upkeep (j₀ : Journal) where
  gen : List DirtyBlock → Prop
  kept : List (List DirtyBlock) → Journal → Image → List CommittedTxn → Prop
  generation : ∀ {nodes}, gen nodes → Generation j₀ nodes
  commit : ∀ {gens j img log nodes}, SameRegion j₀ j → gen nodes →
    j.head.toNat + nodes.length + 2 < 2 ^ 64 → kept gens j img log →
      kept (gens ++ [nodes]) (committed j (txnOf nodes)) (commitImage j (txnOf nodes) img)
        (log ++ [⟨j.nextSequence, j.head, nodes⟩])
  checkpoint : ∀ {gens j img t log off seq}, SameRegion j₀ j → gen t.nodes →
    kept gens j img (t :: log) →
      kept gens { j with tail := off }
        (advanceImage j off seq (applyWrites img (nodeWrites t.nodes))) log

/-- The log on disk, the journal in memory and the checkpoint list agree. -/
structure OnDisk {j₀ : Journal} (u : Upkeep j₀) (gens : List (List DirtyBlock)) (j : Journal)
    (img : Image) (log : List CommittedTxn) : Prop where
  region : SameRegion j₀ j
  live : ∃ p s, LiveLog j img p s (log.map fun t => txnOf t.nodes) ∧
    ChainFrom j (UInt64.ofNat p) s log
  fits : ∀ t ∈ log, u.gen t.nodes
  kept : u.kept gens j img log

def Caller.Waits {j₀ : Journal} (u : Upkeep j₀) (j : Journal) : Caller → Prop
  | .reclaim nodes => u.gen nodes ∧ j.OffsetsFit nodes
  | .lag => True
  | .drain => False

/-- Where the calls are, and what has been written and flushed since the log and the
list last agreed. -/
def PipeAt {j₀ : Journal} (u : Upkeep j₀) (gens : List (List DirtyBlock)) (m : TxnMgr) (d : Disk) :
    Pc → Prop
  | .top j | .lag j => ∃ img, d = settled img ∧ OnDisk u gens j img m.ckpt
  | .reclaim j nodes =>
      ∃ img, d = settled img ∧ OnDisk u gens j img m.ckpt ∧ (Caller.reclaim nodes).Waits u j
  | .unlink j caller => ∃ img, d = settled img ∧ OnDisk u gens j img m.ckpt ∧ caller.Waits u j
  | .writeHome j t rest caller =>
      ∃ img done, t.nodes = done ++ rest ∧ d = (settled img).writes (nodeWrites done) ∧
        OnDisk u gens j img (t :: m.ckpt) ∧ caller.Waits u j
  | .nextTail j t caller =>
      ∃ img, d = settled (applyWrites img (nodeWrites t.nodes)) ∧
        OnDisk u gens j img (t :: m.ckpt) ∧ caller.Waits u j
  | .advance p t caller =>
      ∃ j img, OnDisk u gens j img (t :: m.ckpt) ∧ caller.Waits u j ∧
        Reaches faultless (journalAdvanceTail j (newTail m j).1 (newTail m j).2,
          settled (applyWrites img (nodeWrites t.nodes))) (p, d)
  | .commit p nodes =>
      ∃ j img, OnDisk u gens j img m.ckpt ∧ (Caller.reclaim nodes).Waits u j ∧
        (j.HasRoom (txnOf nodes) ∨ m.ckpt = []) ∧
        Reaches faultless (journalCommit j (pendingBlocks nodes) [], settled img) (p, d)
  | .link j nodes rc => ∃ img, d = settled img ∧ OnDisk u gens j img (finishCommit m j nodes rc).ckpt
  | _ => False

/-! ## Steps -/

section Steps
variable {j₀ j : Journal} {u : Upkeep j₀} {gens : List (List DirtyBlock)} {img : Image}
  {log : List CommittedTxn} {t : CommittedTxn} {nodes : List DirtyBlock}

/-- Where the tail goes when `rest` is what remains of the log. -/
def tailAt (j : Journal) : List CommittedTxn → UInt64 × UInt64
  | t :: _ => (t.descOffset, t.sequence)
  | [] => (j.head, j.nextSequence)

theorem ChainFrom.tailAt {off seq : UInt64} (h : ChainFrom j off seq log) :
    tailAt j log = (off, seq) := by
  cases log with
  | nil =>
      obtain ⟨rfl, rfl⟩ := h
      rfl
  | cons u us =>
      obtain ⟨rfl, rfl, -⟩ := h
      rfl

theorem ChainFrom.drop {p : ℕ} {seq : UInt64} {us vs : List CommittedTxn}
    (h : ChainFrom j (UInt64.ofNat p) seq (us ++ vs)) :
    ChainFrom j (UInt64.ofNat (p + ckptLen us)) (seq + UInt64.ofNat us.length) vs := by
  induction us generalizing p seq with
  | nil => simpa using h
  | cons u us ih =>
      obtain ⟨-, -, hrest⟩ := h
      rw [← UInt64.ofNat_add] at hrest
      have htail := ih hrest
      rwa [seq_succ, Nat.add_assoc, ← ckptLen_cons] at htail

theorem logLen_txns (log : List CommittedTxn) :
    logLen (log.map fun t => txnOf t.nodes) = ckptLen log := by
  induction log with
  | nil => rfl
  | cons t ts ih => rw [List.map_cons, logLen_cons, txnOf_len, ih, ckptLen_cons]

/-- Writes home leave the log alone. -/
theorem DiskLog.of_home {p : ℕ} {s : UInt64} {ts : List Transaction} (h : DiskLog j img p s ts)
    {ws : List (UInt64 × Block)} (hws : ∀ w ∈ ws, Home j w.1) :
    DiskLog j (applyWrites img ws) p s ts := by
  have hsuper : jsuperOf (applyWrites img ws) = jsuperOf img := by
    unfold jsuperOf
    rw [applyWrites_of_untouched]
    exact fun w hw => (hws w hw).1
  refine { h with holds := h.holds.congr fun i _ => ?_, starts := ⟨?_, ?_, ?_⟩ }
  · apply applyWrites_of_untouched
    intro w hw he
    exact (hws w hw).2 (he ▸ inRegion_slot h.placed _)
  · exact hsuper ▸ h.starts.magic
  · exact hsuper ▸ h.starts.start
  · exact hsuper ▸ h.starts.sequence

theorem LiveLog.of_home {p : ℕ} {s : UInt64} {ts : List Transaction} (h : LiveLog j img p s ts)
    {ws : List (UInt64 × Block)} (hws : ∀ w ∈ ws, Home j w.1) :
    LiveLog j (applyWrites img ws) p s ts :=
  { h with toDiskLog := h.toDiskLog.of_home hws }

theorem head_toNat {p : ℕ} {s : UInt64} {ts : List Transaction} (h : LiveLog j img p s ts) :
    j.head.toNat = p + logLen ts := by
  rw [h.head_eq, UInt64.toNat_ofNat_of_lt' h.bound]

/-! ## Lists of what the live log holds -/

/-- `log` lists the transactions of the live log. -/
def Chained (j : Journal) (img : Image) (log : List CommittedTxn) : Prop :=
  ∃ p s, LiveLog j img p s (log.map fun t => txnOf t.nodes) ∧ ChainFrom j (UInt64.ofNat p) s log

namespace Chained

theorem of_home (h : Chained j img log) {ws : List (UInt64 × Block)} (hws : ∀ w ∈ ws, Home j w.1) :
    Chained j (applyWrites img ws) log := by
  obtain ⟨p, s, hlive, hchain⟩ := h
  exact ⟨p, s, hlive.of_home hws, hchain⟩

theorem commit (h : Chained j img log) (hroom : j.HasRoom (txnOf nodes)) (hbound : j.OffsetsFit nodes) :
    Chained (committed j (txnOf nodes)) (commitImage j (txnOf nodes) img)
      (log ++ [⟨j.nextSequence, j.head, nodes⟩]) := by
  obtain ⟨p, s, hlive, hchain⟩ := h
  have hhead := head_toNat hlive
  have hfree := hlive.hasRoom.mp hroom
  rw [txnOf_len] at hfree
  have hend := hbound (by omega)
  refine ⟨p, s, ?_, hchain.commit nodes⟩
  rw [List.map_append]
  refine hlive.commit hroom ?_
  rw [txnOf_len]
  omega

/-- The tail moves to where the transactions that remain begin. -/
theorem advance (us : List CommittedTxn) {vs : List CommittedTxn} (h : Chained j img (us ++ vs)) :
    Chained { j with tail := (tailAt j vs).1 } (advanceImage j (tailAt j vs).1 (tailAt j vs).2 img) vs := by
  obtain ⟨p, s, hlive, hchain⟩ := h
  have hrest := hchain.drop
  have htail := hrest.tailAt
  rw [List.map_append] at hlive
  rw [htail]
  refine ⟨p + ckptLen us, s + UInt64.ofNat us.length, ?_, hrest.of_tail _⟩
  rw [← logLen_txns]
  exact hlive.advance _ rfl (by rw [List.length_map])

end Chained

namespace OnDisk

theorem homeWrites (h : OnDisk u gens j img log) (ht : u.gen nodes) :
    ∀ w ∈ nodeWrites nodes, Home j w.1 := by
  intro w hw
  obtain ⟨d, hd, rfl⟩ := List.mem_map.mp hw
  exact h.region.home.mpr ((u.generation ht).home d hd)

/-- A whole checkpoint of the oldest transaction. -/
theorem checkpoint {m : TxnMgr} (h : OnDisk u gens j img (t :: m.ckpt)) :
    OnDisk u gens { j with tail := (newTail m j).1 }
      (advanceImage j (newTail m j).1 (newTail m j).2 (applyWrites img (nodeWrites t.nodes)))
      m.ckpt := by
  have hgen := h.fits t List.mem_cons_self
  have hhome := Chained.of_home h.live (h.homeWrites hgen)
  have htail : newTail m j = tailAt j m.ckpt := rfl
  refine ⟨⟨h.region.dev, h.region.first, h.region.maxlen⟩, ?_,
    fun t' ht' => h.fits t' (List.mem_cons_of_mem t ht'), u.checkpoint h.region hgen h.kept⟩
  rw [htail]
  exact hhome.advance [t]

/-- A whole commit. -/
theorem commit (h : OnDisk u gens j img log) (hgen : u.gen nodes) (hroom : j.HasRoom (txnOf nodes))
    (hbound : j.OffsetsFit nodes) :
    OnDisk u (gens ++ [nodes]) (committed j (txnOf nodes)) (commitImage j (txnOf nodes) img)
      (log ++ [⟨j.nextSequence, j.head, nodes⟩]) := by
  have hend : j.head.toNat + nodes.length + 2 < 2 ^ 64 := by
    obtain ⟨p, s, hlive, -⟩ := h.live
    have hfree := hlive.hasRoom.mp hroom
    rw [txnOf_len] at hfree
    exact hbound (by omega)
  refine ⟨⟨h.region.dev, h.region.first, h.region.maxlen⟩, Chained.commit h.live hroom hbound, ?_,
    u.commit h.region hgen hend h.kept⟩
  intro t ht
  rcases List.mem_append.mp ht with ht | ht
  · exact h.fits t ht
  · rw [List.mem_singleton.mp ht]
    exact hgen

end OnDisk

/-- How `logfs_journal_commit` ends. -/
theorem run_journalCommit_nodes (hj : j.Placed) (hfits : nodes.length ≤ maxTagsPerDesc)
    (img : Image) :
    run faultless (journalCommit j (pendingBlocks nodes) []) (settled img) =
      if (txnOf nodes).len ≤ (journalFreeSpace j).toNat then
        ((.ok (j.nextSequence, j.head), committed j (txnOf nodes)),
          settled (commitImage j (txnOf nodes) img))
      else ((.error .enospc, j), settled img) := by
  split
  · next hroom => exact run_journalCommit hj (txnOf_fits hfits) hroom (settled img)
  · next hroom =>
      have hfull := journalCommit_of_no_room (txnOf_fits hfits) hroom
      rw [show journalCommit j (pendingBlocks nodes) [] = _ from hfull]
      rfl

theorem PipeAt.resume {m : TxnMgr} {caller : Caller} {done : Bool} (h : OnDisk u gens j img m.ckpt)
    (hcaller : caller.Waits u j) (hdone : done = false → m.ckpt = []) :
    PipeAt u gens m (settled img) (resume j done caller) := by
  cases caller with
  | reclaim nodes =>
      cases done with
      | true => exact ⟨img, rfl, h, hcaller⟩
      | false => exact ⟨j, img, h, hcaller, .inr (hdone rfl), .refl⟩
  | lag => cases done <;> exact ⟨img, rfl, h⟩
  | drain => exact hcaller.elim

variable {c c' : Core}

theorem append_uncommitted (h : committing c = none) : gens ++ (committing c).toList = gens := by
  rw [h, Option.toList_none, List.append_nil]

theorem PipeAt.step (h₀ : j₀.Placed) (hdev : c.mgr.dev = j₀.dev)
    (h : PipeAt u gens c.mgr c.disk c.pc) (hbusy : c.pc.idle = false) (hstep : ThreadStep c c') :
    PipeAt u (gens ++ (committing c).toList) c'.mgr c'.disk c'.pc := by
  cases hstep with
  | drain | freeze => exact absurd hbusy (by simp [Pc.idle])
  | take ends up =>
      rcases up with ⟨rfl, -⟩ | rfl
      · exact absurd hbusy (by simp [Pc.idle])
      · exact h.elim
  | orderedFlush | emptyCycle => exact h.elim
  | noSpace =>
      rw [append_uncommitted rfl]
      exact h
  | space hspace =>
      obtain ⟨img, rfl, hdisk, hwait⟩ := h
      have hroom := (space_iff_txnOf (u.generation hwait.1).length_le).mp hspace
      rw [append_uncommitted rfl]
      exact ⟨_, img, hdisk, hwait, .inl hroom, .refl⟩
  | unlinkNone hnone =>
      obtain ⟨img, rfl, hdisk, hwait⟩ := h
      rw [append_uncommitted rfl]
      exact PipeAt.resume hdisk hwait fun _ => hnone
  | unlink holdest =>
      obtain ⟨img, rfl, hdisk, hwait⟩ := h
      rw [holdest] at hdisk
      rw [append_uncommitted rfl]
      exact ⟨img, [], rfl, by simp, hdisk, hwait⟩
  | @writeHome m d j t n rest caller fits =>
      obtain ⟨img, done, hnodes, rfl, hdisk, hwait⟩ := h
      rw [append_uncommitted rfl]
      refine ⟨img, done ++ [n], by simp [hnodes], ?_, hdisk, hwait⟩
      simp [Cache.write, Cache.writes]
  | @writeHomeError m d j t n rest caller beyond =>
      obtain ⟨img, done, hnodes, rfl, hdisk, hwait⟩ := h
      have hlt := (u.generation (hdisk.fits t List.mem_cons_self)).lt n (by simp [hnodes])
      dsimp only at hdev
      rw [hdev] at beyond
      exact absurd hlt beyond
  | homeFlush =>
      obtain ⟨img, done, hnodes, rfl, hdisk, hwait⟩ := h
      rw [append_uncommitted rfl]
      rw [List.append_nil] at hnodes
      refine ⟨img, ?_, hdisk, hwait⟩
      rw [Cache.flush, view_writes, hnodes]
      rfl
  | nextTail =>
      obtain ⟨img, rfl, hdisk, hwait⟩ := h
      rw [append_uncommitted rfl]
      exact ⟨_, img, hdisk, hwait, .refl⟩
  | advance op =>
      obtain ⟨j, img, hdisk, hwait, hreach⟩ := h
      rw [append_uncommitted rfl]
      exact ⟨j, img, hdisk, hwait, hreach.tail op⟩
  | @advanced m d rc j' t caller =>
      obtain ⟨j, img, hdisk, hwait, hreach⟩ := h
      rw [append_uncommitted rfl]
      obtain ⟨hret, hd⟩ := ((meets_advance_crash (hdisk.region.placed h₀) _ _ _).reaches hreach).run
      simp only [run_ret, Prod.mk.injEq] at hret hd
      obtain ⟨rfl, rfl⟩ := hret
      rw [hd]
      refine PipeAt.resume hdisk.checkpoint ?_ (by simp [Except.isOk, Except.toBool])
      cases caller with
      | reclaim nodes => exact hwait
      | lag => trivial
      | drain => exact hwait
  | commit op =>
      obtain ⟨j, img, hdisk, hwait, hroom, hreach⟩ := h
      cases op with
      | op o k s =>
          rw [append_uncommitted rfl]
          exact ⟨j, img, hdisk, hwait, hroom, hreach.tail (.op o k _)⟩
  | @committed m d rc j' nodes =>
      obtain ⟨j, img, hdisk, hwait, hroom, hreach⟩ := h
      have hrun := reaches_run_eq faultless hreach
      rw [run_journalCommit_nodes (hdisk.region.placed h₀) (u.generation hwait.1).length_le] at hrun
      split at hrun
      · next hfree =>
          simp only [run_ret, Prod.mk.injEq] at hrun
          obtain ⟨⟨rfl, rfl⟩, hd⟩ := hrun
          exact ⟨_, hd, hdisk.commit hwait.1 hfree hwait.2⟩
      · simp only [run_ret, Prod.mk.injEq] at hrun
        obtain ⟨⟨rfl, rfl⟩, hd⟩ := hrun
        rw [append_uncommitted rfl]
        exact ⟨img, hd, hdisk⟩
  | link =>
      rw [append_uncommitted rfl]
      exact h
  | lagging more =>
      obtain ⟨img, rfl, hdisk⟩ := h
      rw [append_uncommitted rfl]
      exact ⟨img, rfl, hdisk, trivial⟩
  | caughtUp =>
      rw [append_uncommitted rfl]
      exact h

end Steps

/-! ## Runs -/

theorem ThreadStep.dev {c c' : Core} (h : ThreadStep c c') : c'.mgr.dev = c.mgr.dev := by
  cases h with
  | @take m =>
      have hdev := congrArg TxnMgr.dev (takeGeneration_snd m)
      exact hdev
  | _ => rfl

structure PipeOk {j₀ : Journal} (u : Upkeep j₀) (s : Pipe) : Prop where
  dev : s.mgr.dev = j₀.dev
  at_pc : PipeAt u s.logged s.mgr s.disk s.pc

/-- The calls are given generations of the kind `u` is about, and no offset ends past 64 bits. -/
def Upkeep.Accepts {j₀ : Journal} (u : Upkeep j₀) (s : Pipe) : PipeAction → Prop
  | .call (.doCommit nodes) => u.gen nodes ∧ ∀ j, s.pc.returned = some j → j.OffsetsFit nodes
  | _ => True

theorem PipeOk.between {j₀ j : Journal} {u : Upkeep j₀} {s : Pipe} (h : PipeOk u s)
    (hj : s.pc.returned = some j) : ∃ img, s.disk = settled img ∧ OnDisk u s.logged j img s.mgr.ckpt := by
  have hat := h.at_pc
  generalize s.pc = pc at hj hat
  cases pc with
  | top j' | lag j' =>
      obtain rfl : j' = j := by simpa [Pc.returned] using hj
      exact hat
  | _ => simp [Pc.returned] at hj

theorem PipeOk.step {j₀ : Journal} {u : Upkeep j₀} (h₀ : j₀.Placed) {s s' : Pipe} {a : PipeAction}
    (hok : u.Accepts s a) (hstep : Pipe.Steps s a s') (h : PipeOk u s) : PipeOk u s' := by
  cases hstep with
  | @call f j hj =>
      obtain ⟨img, hset, hdisk⟩ := h.between hj
      refine ⟨h.dev, ?_⟩
      cases f with
      | doCommit nodes => exact ⟨img, hset, hdisk, hok.1, hok.2 j hj⟩
      | checkpointOldest => exact ⟨img, hset, hdisk, trivial⟩
  | thread hbusy hnow => exact ⟨hnow.dev.trans h.dev, h.at_pc.step h₀ h.dev hbusy hnow⟩

theorem PipeOk.run {j₀ : Journal} {u : Upkeep j₀} (h₀ : j₀.Placed) {s s₀ : Pipe} (h : PipeOk u s₀)
    (hrun : Run Pipe.step u.Accepts s₀ s) : PipeOk u s :=
  hrun.invariant h fun _ _ _ hok hnow hs => hs.step h₀ hok (Pipe.step_sound hnow)

end Logfs
