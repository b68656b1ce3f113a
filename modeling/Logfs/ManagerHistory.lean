import Logfs.DataPath
import Logfs.Pipeline

/-!
# The manager behind the histories

The functions of `txn.h` as the file system calls them, with the commit thread and the writeback
thread at work between any two calls. Each content the manager or the device holds for a block is one
the block has had. Nothing is asked of the generations, so a commit may find no room and drop one.
-/
namespace Logfs
open Interaction WriteCache

/-! ## The manager at work -/

/-- The commit thread, and the entry the writeback thread has taken from its queue. -/
structure Serving extends Core where
  hand : Option DirtyBlock

/-- The steps of the other threads. -/
inductive Behind : Serving → Serving → Prop
  | commitThread {c c' : Core} {hand : Option DirtyBlock} (now : ThreadStep c c') :
      Behind ⟨c, hand⟩ ⟨c', hand⟩
  | takeEntry {c : Core} {w : DirtyBlock} {ws : List DirtyBlock} (queued : c.mgr.wb = w :: ws) :
      Behind ⟨c, none⟩ ⟨{ c with mgr := { c.mgr with wb := ws } }, some w⟩
  | writeEntry {c : Core} {w : DirtyBlock} : Behind ⟨c, some w⟩
      ⟨{ c with disk := (run faultless (bdevWrite c.mgr.dev w.blockno w.data).run c.disk).2 }, none⟩
  | commitSync {c : Core} {hand : Option DirtyBlock} :
      Behind ⟨c, hand⟩ ⟨{ c with mgr := (commitSyncRequest c.mgr).2 }, hand⟩

/-- The function of `txn.h` that a call names; `none` while the caller has to wait. -/
def managerCall : (o : TxnCall) → TxnMgr → Option (DevM (TxnRes o × TxnMgr))
  | .start, m => (txnStart m).map fun started => return ((), started.2)
  | .stop, m => some (return ((), txnStop m))
  | .readBlock b, m => some do
      let r ← (txnReadBlock m b).run
      return (r, m)
  | .getWriteAccess b, m => some (getWriteAccess m b)
  | .modify b data, m => some (return ((), writeBuffer m b data))
  | .dirtyMetadata b, m => some (dirtyMetadata m b)
  | .writeData b buf, m => some (txnWriteData m b buf)

/-- A call, after any steps of the other threads. -/
def managerTxn : Environment TxnRes Serving := fun o s r s' =>
  ∃ t p m disk, Relation.ReflTransGen Behind s t ∧ managerCall o t.mgr = some p ∧
    run faultless p t.disk = ((r, m), disk) ∧ s' = { t with mgr := m, disk := disk }

/-- A call that need not wait returns. -/
theorem exists_managerTxn {o : TxnCall} {s : Serving} (hopen : o = .start → s.mgr.freezing = false) :
    ∃ r s', managerTxn o s r s' := by
  have hcall : ∃ p, managerCall o s.mgr = some p := by
    cases o with
    | start => exact ⟨_, by rw [managerCall, txnStart, if_neg (by simp [hopen rfl])]; rfl⟩
    | _ => exact ⟨_, rfl⟩
  obtain ⟨p, hp⟩ := hcall
  exact ⟨_, _, s, p, _, _, .refl, hp, rfl, rfl⟩

/-- After a mount and `logfs_txnmgr_create`. -/
def Serving.boot (j : Journal) (d : Disk) (mode : DataMode) : Serving where
  mgr := txnMgrCreate j j.dev mode
  disk := d
  pc := .top j
  hand := none

/-! ## Programs of the journal -/

/-- Writes go to the journal's superblock or to its region. -/
def JournalOp (j : Journal) : DevOp UInt64 Block → Prop
  | .write b _ => ¬ Home j b
  | _ => True

/-- The journal is in the region of the mount's. A region without blocks has nothing in its log. -/
structure InPlace (j₀ j : Journal) : Prop where
  region : SameRegion j₀ j
  empty : j₀.maxlen = 0 → j.head = j.tail

/-- What `logfs_journal_commit` leaves; a region without blocks has no room for it. -/
def Logged {α : Type} (j₀ : Journal) (r : Except Errno α × Journal) : Prop :=
  InPlace j₀ r.2 ∧ (j₀.maxlen = 0 → ∃ e, r.1 = .error e)

section Journal
variable {j₀ j : Journal}

theorem confined_bdevWrite {b : UInt64} (hb : ¬ Home j₀ b) (dev : BlockDev) (buf : Block) :
    Confined (JournalOp j₀) (fun _ => True) (bdevWrite dev b buf).run := by
  unfold bdevWrite
  split
  · exact trivial
  · exact ⟨hb, fun _ => trivial⟩

theorem confined_bdevFlush (dev : BlockDev) :
    Confined (JournalOp j₀) (fun _ => True) (bdevFlush dev).run := ⟨trivial, fun _ => trivial⟩

theorem confined_jsuperWrite (off seq : UInt64) :
    Confined (JournalOp j₀) (fun _ => True) (jsuperWrite j off seq).run :=
  (confined_bdevWrite (fun h => h.1 rfl) _ _).exceptT_bind fun _ => confined_bdevFlush _

theorem confined_writeLogical (h₀ : j₀.Placed) (hregion : SameRegion j₀ j) (off : UInt64) (buf : Block) :
    Confined (JournalOp j₀) (fun _ => True) (writeLogical j off buf).run :=
  confined_bdevWrite (fun h => (hregion.home.mpr h).2 (inRegion_physOf (hregion.placed h₀) off)) _ _

theorem confined_writeBlocks (h₀ : j₀.Placed) (hregion : SameRegion j₀ j) (cursor : UInt64) (bs : List Block) :
    Confined (JournalOp j₀) (fun _ => True) (writeBlocks j cursor bs).run := by
  induction bs generalizing cursor with
  | nil => exact trivial
  | cons b bs ih => exact (confined_writeLogical h₀ hregion cursor b).exceptT_bind fun _ => ih _

theorem confined_writeTransaction (h₀ : j₀.Placed) (hregion : SameRegion j₀ j) (data : List PendingBlock)
    (revoke : List UInt64) : Confined (JournalOp j₀) (fun _ => True) (writeTransaction j data revoke).run := by
  refine (confined_writeBlocks h₀ hregion _ _).exceptT_bind fun cursor => ?_
  refine (confined_bdevFlush _).exceptT_bind fun _ => ?_
  refine (confined_writeLogical h₀ hregion cursor _).exceptT_bind fun _ => ?_
  exact (confined_bdevFlush _).exceptT_bind fun _ => trivial

/-- Without blocks there is no space. -/
theorem InPlace.freeSpace (h : InPlace j₀ j) (hnone : j₀.maxlen = 0) : journalFreeSpace j = 0 := by
  rw [journalFreeSpace, h.region.maxlen, hnone, h.empty hnone, UInt64.sub_self, UInt64.sub_self]

/-- A commit keeps to the journal, also when it fails. -/
theorem confined_journalCommit (h₀ : j₀.maxlen = 0 ∨ j₀.Placed) (h : InPlace j₀ j) (data : List PendingBlock)
    (revoke : List UInt64) : Confined (JournalOp j₀) (Logged j₀) (journalCommit j data revoke) := by
  unfold journalCommit
  dsimp only
  split
  · exact ⟨h, fun _ => ⟨_, rfl⟩⟩
  next hneeded =>
  split
  · exact ⟨h, fun _ => ⟨_, rfl⟩⟩
  next hroom =>
  have hsome : j₀.maxlen ≠ 0 := by
    intro hnone
    rw [h.freeSpace hnone, UInt64.not_lt] at hroom
    exact hneeded (UInt64.le_antisymm hroom (UInt64.zero_le))
  have hlogged : ∀ {α : Type} {r : Except Errno α × Journal}, SameRegion j₀ r.2 → Logged j₀ r :=
    fun hregion => ⟨⟨hregion, fun hnone => absurd hnone hsome⟩, fun hnone => absurd hnone hsome⟩
  refine (confined_writeTransaction (h₀.resolve_left hsome) h.region data revoke).seq fun r _ => ?_
  cases r with
  | error e => exact hlogged h.region
  | ok cursor =>
      have hmoved : ∀ seq, SameRegion j₀ { j with head := cursor, nextSequence := seq } :=
        fun _ => ⟨h.region.dev, h.region.first, h.region.maxlen⟩
      dsimp only
      split
      · refine (confined_jsuperWrite _ _).seq fun r _ => ?_
        cases r <;> exact hlogged (hmoved _)
      · exact hlogged (hmoved _)

theorem confined_journalAdvanceTail (hsome : j₀.maxlen ≠ 0) (h : InPlace j₀ j) (off seq : UInt64) :
    Confined (JournalOp j₀) (fun r => InPlace j₀ r.2) (journalAdvanceTail j off seq) := by
  refine (confined_jsuperWrite _ _).seq fun r _ => ?_
  cases r with
  | error e => exact h
  | ok _ => exact ⟨⟨h.region.dev, h.region.first, h.region.maxlen⟩, fun hnone => absurd hnone hsome⟩

/-- One operation of such a program leaves the home blocks alone. -/
theorem homeAs_of_journalOp {o : DevOp UInt64 Block} (ho : JournalOp j₀ o) (d : Disk) :
    HomeAs j₀ d.view (faultless (E := Errno) o d).2 := by
  intro b hb
  cases o with
  | read a => rfl
  | flush => exact congrFun (view_flush d) b
  | write a buf =>
      have hne : b ≠ a := by
        rintro rfl
        exact ho hb
      change (d.write a buf).view b = d.view b
      rw [view_write, Function.update_of_ne hne]

end Journal

/-! ## The commit thread -/

/-- The thread's journal is in the region of the mount's, and what it does with it stays there. -/
def Pc.Logging (j₀ : Journal) : Pc → Prop
  | .top j | .frozen j | .orderedFlush j _ | .emptyCycle j | .reclaim j _ | .unlink j _ | .lag j
  | .exited j => InPlace j₀ j
  | .writeHome j _ _ _ | .nextTail j _ _ => InPlace j₀ j ∧ j₀.maxlen ≠ 0
  | .advance p _ _ => Confined (JournalOp j₀) (fun r => InPlace j₀ r.2) p
  | .commit p _ => Confined (JournalOp j₀) (Logged j₀) p
  | .link j _ rc => Logged j₀ (rc, j)

section Thread
variable {j₀ j : Journal} {c c' : Core}

theorem logging_afterFreeze (h : InPlace j₀ j) (nodes : List DirtyBlock) : (afterFreeze j nodes).Logging j₀ := by
  unfold afterFreeze
  split <;> exact h

theorem logging_resume (h₀ : j₀.maxlen = 0 ∨ j₀.Placed) (h : InPlace j₀ j) (done : Bool) (caller : Caller) :
    (resume j done caller).Logging j₀ := by
  cases caller with
  | reclaim nodes =>
      cases done with
      | true => exact h
      | false => exact confined_journalCommit h₀ h _ _
  | lag => cases done <;> exact h
  | drain => cases done <;> exact h

theorem logging_endFreeze (h : InPlace j₀ j) (c : Core) : (endFreeze c j).pc.Logging j₀ := by
  unfold endFreeze
  dsimp only
  split
  · exact h
  · exact logging_afterFreeze h _

theorem ThreadStep.logging (h₀ : j₀.maxlen = 0 ∨ j₀.Placed) (hstep : ThreadStep c c')
    (hckpt : j₀.maxlen = 0 → c.mgr.ckpt = []) (h : c.pc.Logging j₀) : c'.pc.Logging j₀ := by
  cases hstep with
  | @take m d pc j ends up =>
      have hplace : InPlace j₀ j := by rcases up with ⟨rfl, -⟩ | rfl <;> exact h
      exact logging_endFreeze hplace _
  | orderedFlush => exact logging_afterFreeze h _
  | space => exact confined_journalCommit h₀ h _ _
  | unlinkNone => exact logging_resume h₀ h _ _
  | unlink oldest =>
      refine ⟨h, fun hnone => ?_⟩
      rw [hckpt hnone] at oldest
      cases oldest
  | writeHomeError => exact logging_resume h₀ h.1 _ _
  | nextTail => exact confined_journalAdvanceTail h.2 h.1 _ _
  | advance op => exact (Confined.step op h).1
  | advanced => exact logging_resume h₀ h _ _
  | commit op => exact (Confined.step op h).1
  | link => exact h.1
  | _ => exact h

/-- Without blocks in the journal nothing gets on the checkpoint list. -/
theorem ThreadStep.unlogged (hstep : ThreadStep c c') (hckpt : c.mgr.ckpt = []) (hnone : j₀.maxlen = 0)
    (h : c.pc.Logging j₀) : c'.mgr.ckpt = [] := by
  cases hstep with
  | @take m d pc j =>
      have htaken := congrArg TxnMgr.ckpt (takeGeneration_snd m)
      exact htaken.trans hckpt
  | unlink oldest =>
      rw [hckpt] at oldest
      cases oldest
  | link =>
      obtain ⟨e, rfl⟩ := h.2 hnone
      exact hckpt
  | _ => exact hckpt

/-- What a freeze takes was staged. -/
theorem mem_nodes_endFreeze {m : TxnMgr} {d : Disk} {pc : Pc} {n : DirtyBlock}
    (h : n ∈ (endFreeze ⟨m, d, pc⟩ j).nodes) : n ∈ ckptNodes m ∨ n ∈ stagedNodes m := by
  have htaken : ∀ n, n ∈ (flattenAndClear m m.ndirty).1 ∨ n ∈ stagedNodes (flattenAndClear m m.ndirty).2 →
      n ∈ stagedNodes m := by
    intro n hn
    unfold flattenAndClear at hn
    split at hn
    · simpa using hn
    · simpa [stagedNodes] using hn
  have hparts : ∀ pc : Pc, pc.unhomed = [] → pc.inflight = (flattenAndClear m m.ndirty).1 →
      n ∈ (Core.mk (takeGeneration m).2 d pc).nodes → n ∈ ckptNodes m ∨ n ∈ stagedNodes m := by
    intro pc hun hin hn
    rw [Core.nodes, hun, hin, takeGeneration_snd, List.nil_append, List.mem_append, List.mem_append] at hn
    rcases hn with (hn | hn) | hn
    · exact .inl hn
    · exact .inr (htaken n (.inl hn))
    · exact .inr (htaken n (.inr hn))
  unfold endFreeze at h
  dsimp only at h
  split at h
  · exact hparts (.orderedFlush j _) rfl rfl h
  · exact hparts _ (unhomed_afterFreeze _ _) (inflight_afterFreeze _ _) h

/-- A step of the thread brings no new contents into its hands. -/
theorem ThreadStep.mem_nodes (hstep : ThreadStep c c') {n : DirtyBlock} (hn : n ∈ c'.nodes) : n ∈ c.nodes := by
  cases hstep with
  | take ends up =>
      rw [Core.nodes]
      rcases mem_nodes_endFreeze hn with h | h
      · simp [h]
      · simp [h]
  | orderedFlush =>
      rw [Core.nodes, inflight_afterFreeze, unhomed_afterFreeze] at hn
      exact hn
  | unlinkNone =>
      rw [Core.nodes, inflight_resume, unhomed_resume] at hn
      exact hn
  | unlink oldest =>
      simpa [Core.nodes, Pc.inflight, Pc.unhomed, ckptNodes, oldest, stagedNodes] using hn
  | writeHome => exact List.mem_cons_of_mem _ hn
  | writeHomeError =>
      rw [Core.nodes, inflight_resume, unhomed_resume, List.nil_append, List.append_assoc] at hn
      rw [Core.nodes, List.append_assoc, List.append_assoc]
      exact List.mem_append_right _ hn
  | advanced =>
      rw [Core.nodes, inflight_resume, unhomed_resume] at hn
      exact hn
  | @link m d j nodes rc =>
      simp only [Core.nodes, Pc.inflight, Pc.unhomed, List.nil_append, List.append_nil, List.mem_append] at hn ⊢
      cases rc with
      | error e => exact hn.imp_left .inl
      | ok rc => simpa [ckptNodes, finishCommit, stagedNodes, or_assoc] using hn
  | _ => exact hn

/-- Outside the journal a step of the thread writes only what it has in its hands. -/
theorem ThreadStep.home_writes (hstep : ThreadStep c c') (h : c.pc.Logging j₀) :
    HomeAs j₀ c.disk.view c'.disk ∨ ∃ n ∈ c.nodes, c'.disk = c.disk.write n.blockno n.data := by
  cases hstep with
  | take => exact .inl fun _ _ => rfl
  | orderedFlush => exact .inl fun b _ => congrFun (view_flush _) b
  | homeFlush => exact .inl fun b _ => congrFun (view_flush _) b
  | writeHome => exact .inr ⟨_, List.mem_append_left _ (List.mem_append_left _ (List.mem_append_left _
      List.mem_cons_self)), rfl⟩
  | advance op =>
      obtain ⟨o, ho, hdisk⟩ := (Confined.step op h).2
      dsimp only at hdisk
      exact .inl (hdisk ▸ homeAs_of_journalOp ho _)
  | commit op =>
      obtain ⟨o, ho, hdisk⟩ := (Confined.step op h).2
      dsimp only at hdisk
      exact .inl (hdisk ▸ homeAs_of_journalOp ho _)
  | _ => exact .inl fun _ _ => rfl

end Thread

/-! ## What is held -/

def Serving.held (s : Serving) : List DirtyBlock := s.nodes ++ s.mgr.wb ++ s.hand.toList

/-- Each content in memory or on the device is one the block has had. Nothing is said of the journal's
blocks. -/
structure Within (j₀ : Journal) (s : Serving) (H : History) : Prop where
  held : ∀ n ∈ s.held, n.data ∈ H n.blockno
  disk : H.Has s.disk.view
  journal : ∀ b, ¬ Home j₀ b → H b = Set.univ
  logging : s.pc.Logging j₀
  unlogged : j₀.maxlen = 0 → s.mgr.ckpt = []

/-- The history of a mounted image. -/
def History.ofMount (j : Journal) (v : Image) : History := fun b => {data | Home j b → data = v b}

theorem within_boot {j : Journal} (hlog : j.head = j.tail) (d : Disk) (mode : DataMode) :
    Within j (Serving.boot j d mode) (.ofMount j d.view) where
  held n hn := by
    have hempty : (Serving.boot j d mode).held = [] := by
      simp [Serving.held, Serving.boot, Core.nodes, Pc.unhomed, Pc.inflight, ckptNodes, stagedNodes, txnMgrCreate]
    rw [hempty] at hn
    cases hn
  disk b _ := rfl
  journal b hb := Set.eq_univ_of_forall fun data h => absurd h hb
  logging := ⟨⟨rfl, rfl, rfl⟩, fun _ => hlog⟩
  unlogged _ := rfl

theorem History.mem_record {H : History} {b c : UInt64} {data old : Block} (h : old ∈ H c) :
    old ∈ H.record b data c := by
  by_cases hc : c = b
  · subst hc
    rw [History.record, Function.update_self]
    exact Set.mem_insert_of_mem _ h
  · rwa [History.record, Function.update_of_ne hc]

theorem History.record_self (H : History) (b : UInt64) (data : Block) : data ∈ H.record b data b := by
  rw [History.record, Function.update_self]
  exact Set.mem_insert _ _

namespace Within
variable {j₀ : Journal} {s s' : Serving} {H : History} {b : UInt64} {data : Block}

/-- More contents may be held, if the block has had them. -/
theorem record (h : Within j₀ s H) (b : UInt64) (data : Block) : Within j₀ s (H.record b data) where
  held n hn := History.mem_record (h.held n hn)
  disk := h.disk.record_same b data
  journal c hc := by
    refine Set.eq_univ_of_forall fun old => History.mem_record ?_
    rw [h.journal c hc]
    exact Set.mem_univ old
  logging := h.logging
  unlogged := h.unlogged

/-- A state with nothing new in memory or on the device. -/
theorem of_held (h : Within j₀ s H) (hheld : ∀ n ∈ s'.held, n ∈ s.held ∨ n.data ∈ H n.blockno)
    (hdisk : H.Has s'.disk.view) (hlogging : s'.pc.Logging j₀) (hckpt : j₀.maxlen = 0 → s'.mgr.ckpt = []) :
    Within j₀ s' H where
  held n hn := (hheld n hn).elim (h.held n) id
  disk := hdisk
  journal := h.journal
  logging := hlogging
  unlogged := hckpt

/-- The device after a write of a content the block has had. -/
theorem has_write (h : Within j₀ s H) (hdata : data ∈ H b) : H.Has (s.disk.write b data).view := by
  intro c
  rw [view_write]
  by_cases hc : c = b
  · subst hc
    rwa [Function.update_self]
  · rw [Function.update_of_ne hc]
    exact h.disk c

theorem has_bdevWrite (h : Within j₀ s H) (dev : BlockDev) (hdata : data ∈ H b) :
    H.Has (run faultless (bdevWrite dev b data).run s.disk).2.view := by
  by_cases hlt : b < dev.nblocks
  · rw [run_bdevWrite s.disk hlt]
    exact h.has_write hdata
  · rw [bdevWrite, if_pos (by simpa using hlt)]
    exact h.disk

/-! ## The other threads -/

theorem threadStep (h₀ : j₀.maxlen = 0 ∨ j₀.Placed) {c c' : Core} {hand : Option DirtyBlock}
    (h : Within j₀ ⟨c, hand⟩ H) (hstep : ThreadStep c c') : Within j₀ ⟨c', hand⟩ H := by
  have hwb : c'.mgr.wb = c.mgr.wb := by
    cases hstep with
    | @take m d pc j =>
        have htaken := congrArg TxnMgr.wb (takeGeneration_snd m)
        exact htaken
    | _ => rfl
  refine h.of_held (fun n hn => .inl ?_) ?_ (hstep.logging h₀ h.unlogged h.logging)
    fun hnone => hstep.unlogged (h.unlogged hnone) hnone h.logging
  · simp only [Serving.held, List.mem_append, hwb] at hn ⊢
    exact hn.imp_left (Or.imp_left hstep.mem_nodes)
  · rcases hstep.home_writes h.logging with hhome | ⟨n, hn, hdisk⟩
    · intro b
      by_cases hb : Home j₀ b
      · change c'.disk.view b ∈ H b
        rw [hhome b hb]
        exact h.disk b
      · rw [h.journal b hb]
        exact Set.mem_univ _
    · change H.Has c'.disk.view
      rw [hdisk]
      exact h.has_write (h.held n (List.mem_append_left _ (List.mem_append_left _ hn)))

theorem behind (h₀ : j₀.maxlen = 0 ∨ j₀.Placed) (h : Within j₀ s H) (hstep : Behind s s') : Within j₀ s' H := by
  cases hstep with
  | commitThread now => exact h.threadStep h₀ now
  | @takeEntry c w ws queued =>
      refine h.of_held (fun n hn => .inl ?_) h.disk h.logging h.unlogged
      simp only [Serving.held, queued, List.mem_append, List.mem_cons, Option.mem_toList] at hn ⊢
      rcases hn with (hn | hn) | hn
      · exact .inl (.inl hn)
      · exact .inl (.inr (.inr hn))
      · exact .inl (.inr (.inl (Option.some.inj hn).symm))
  | @writeEntry c w =>
      have hw : w.data ∈ H w.blockno := h.held w (List.mem_append_right _ (by simp))
      refine h.of_held (fun n hn => .inl ?_) (h.has_bdevWrite _ hw) h.logging h.unlogged
      rw [Serving.held, Option.toList_none, List.append_nil] at hn
      exact List.mem_append_left _ hn
  | commitSync => exact h.of_held (fun n hn => .inl hn) h.disk h.logging h.unlogged

theorem behind_all (h₀ : j₀.maxlen = 0 ∨ j₀.Placed) (h : Within j₀ s H) (hsteps : Relation.ReflTransGen Behind s s') :
    Within j₀ s' H := by
  induction hsteps with
  | refl => exact h
  | tail _ hstep ih => exact ih.behind h₀ hstep

/-! ## The calls -/

/-- Only the table of the manager changes, and only by contents the blocks have had. -/
theorem of_table (h : Within j₀ s H) {m : TxnMgr} (hckpt : m.ckpt = s.mgr.ckpt) (hwb : m.wb = s.mgr.wb)
    (hstaged : ∀ n ∈ stagedNodes m, n ∈ stagedNodes s.mgr ∨ n.data ∈ H n.blockno) :
    Within j₀ { s with mgr := m } H := by
  refine h.of_held (fun n hn => ?_) h.disk h.logging fun hnone => hckpt.trans (h.unlogged hnone)
  simp only [Serving.held, Core.nodes, ckptNodes, hckpt, hwb, List.mem_append] at hn ⊢
  rcases hn with ((hn | hn) | hn) | hn
  · exact .inl (.inl (.inl (.inl hn)))
  · exact (hstaged n hn).imp_left fun h => .inl (.inl (.inr h))
  · exact .inl (.inl (.inr hn))
  · exact .inl (.inr hn)

theorem staged_data (h : Within j₀ s H) {n : DirtyBlock} (hfind : findDirty s.mgr b = some n) : n.data ∈ H b := by
  have hkey : n.blockno = b := HashTable.key_of_find hfind
  have hmem := mem_stagedNodes_of_findDirty hfind
  rw [← hkey]
  exact h.held n (List.mem_append_left _ (List.mem_append_left _ (List.mem_append_right _ hmem)))

theorem checkpointed_data (h : Within j₀ s H) {n : DirtyBlock} (hfind : findCheckpointed s.mgr b = some n) :
    n.data ∈ H b := by
  have hlast : lastWrite (nodeWrites (ckptNodes s.mgr)) b = some n.data := by
    rw [← findCheckpointed_eq, hfind]
    rfl
  have hmem : ⟨b, n.data⟩ ∈ ckptNodes s.mgr := mem_nodeWrites.mp (mem_of_lastWrite hlast)
  exact h.held ⟨b, n.data⟩ (by simp [Serving.held, Core.nodes, hmem])

theorem seed_data (h : Within j₀ s H) (hseed : seed s.mgr s.disk.view b = some data) : data ∈ H b := by
  unfold seed at hseed
  cases hfind : findCheckpointed s.mgr b with
  | some n =>
      rw [hfind] at hseed
      cases hseed
      exact h.checkpointed_data hfind
  | none =>
      rw [hfind] at hseed
      dsimp only at hseed
      split_ifs at hseed
      cases hseed
      exact h.disk b

/-- A block gets a node with a content it has had, or has one already. -/
theorem findOrCreateDirty (h : Within j₀ s H) (b : UInt64) :
    ∃ found m, run faultless (findOrCreateDirty s.mgr b) s.disk = ((found, m), s.disk) ∧
      (∀ n, found = some n → n.data ∈ H b) ∧ Within j₀ { s with mgr := m } H := by
  rw [run_findOrCreateDirty]
  cases hfind : findDirty s.mgr b with
  | some n =>
      refine ⟨_, _, rfl, ?_, h⟩
      rintro _ ⟨⟩
      exact h.staged_data hfind
  | none =>
      cases hseed : seed s.mgr s.disk.view b with
      | none => exact ⟨_, _, rfl, by simp, h⟩
      | some data =>
          have hdata := h.seed_data hseed
          refine ⟨_, _, rfl, ?_, h.of_table rfl rfl fun n hn => ?_⟩
          · rintro _ ⟨⟩
            exact hdata
          · rcases mem_stagedNodes_insertDirty hn with rfl | hn
            · exact .inr hdata
            · exact .inl hn

theorem getWriteAccess (h : Within j₀ s H) (b : UInt64) :
    ∃ r m, run faultless (getWriteAccess s.mgr b) s.disk = ((r, m), s.disk) ∧
      (∀ data, r = .ok data → data ∈ H b) ∧ Within j₀ { s with mgr := m } H := by
  obtain ⟨found, m, hrun, hfound, hm⟩ := h.findOrCreateDirty b
  rw [Logfs.getWriteAccess, run_bind, hrun]
  cases found with
  | none => exact ⟨_, _, rfl, by simp, hm⟩
  | some n =>
      refine ⟨_, _, rfl, ?_, hm⟩
      rintro _ ⟨⟩
      exact hfound n rfl

theorem dirtyMetadata (h : Within j₀ s H) (b : UInt64) :
    ∃ r m, run faultless (dirtyMetadata s.mgr b) s.disk = ((r, m), s.disk) ∧ Within j₀ { s with mgr := m } H := by
  obtain ⟨found, m, hrun, -, hm⟩ := h.findOrCreateDirty b
  rw [Logfs.dirtyMetadata, run_bind, hrun]
  cases found with
  | none => exact ⟨_, _, rfl, hm⟩
  | some n => exact ⟨_, _, rfl, hm⟩

theorem writeBuffer (h : Within j₀ s H) (b : UInt64) (data : Block) :
    Within j₀ { s with mgr := writeBuffer s.mgr b data } (H.record b data) := by
  refine (h.record b data).of_table rfl rfl fun n hn => ?_
  obtain ⟨i, hi⟩ := HashTable.mem_entries.mp hn
  rw [Logfs.writeBuffer] at hi
  by_cases hbucket : i = hashBlock b
  · subst hbucket
    simp only [Function.update_self, List.mem_map] at hi
    obtain ⟨old, hold, rfl⟩ := hi
    split
    · next hb =>
        subst hb
        exact .inr (H.record_self _ _)
    · exact .inl (HashTable.mem_entries.mpr ⟨_, hold⟩)
  · simp only [Function.update_of_ne hbucket] at hi
    exact .inl (HashTable.mem_entries.mpr ⟨i, hi⟩)

theorem txnReadBlock (h : Within j₀ s H) (b : UInt64) :
    ∃ r, run faultless (txnReadBlock s.mgr b).run s.disk = (r, s.disk) ∧ ∀ data, r = .ok data → data ∈ H b := by
  unfold Logfs.txnReadBlock
  cases hfind : findDirty s.mgr b with
  | some n =>
      refine ⟨_, rfl, ?_⟩
      rintro _ ⟨⟩
      exact h.staged_data hfind
  | none =>
      cases hckpt : findCheckpointed s.mgr b with
      | some n =>
          refine ⟨_, rfl, ?_⟩
          rintro _ ⟨⟩
          exact h.checkpointed_data hckpt
      | none =>
          by_cases hlt : b < s.mgr.dev.nblocks
          · refine ⟨_, run_bdevRead s.disk hlt, ?_⟩
            rintro _ ⟨⟩
            exact h.disk b
          · refine ⟨.error .einval, ?_, by simp⟩
            rw [Option.or_none]
            dsimp only
            rw [bdevRead, if_pos (by simpa using hlt)]
            rfl

/-- In each mode the data goes to the table, to the device or to the queue. -/
theorem txnWriteData (h : Within j₀ s H) (b : UInt64) (buf : Block) :
    ∃ r m disk, run faultless (txnWriteData s.mgr b buf) s.disk = ((r, m), disk) ∧
      Within j₀ { s with mgr := m, disk := disk } (H.record b buf) := by
  unfold Logfs.txnWriteData
  cases s.mgr.mode with
  | journal =>
      obtain ⟨r, m, hrun, -, hm⟩ := h.getWriteAccess b
      rw [run_bind, hrun]
      cases r with
      | error e => exact ⟨_, _, _, rfl, hm.record b buf⟩
      | ok data =>
          obtain ⟨r', m', hrun', hm'⟩ := (hm.writeBuffer b buf).dirtyMetadata b
          exact ⟨r', m', _, hrun', hm'⟩
  | ordered =>
      have hdisk := (h.record b buf).has_bdevWrite s.mgr.dev (H.record_self b buf)
      rw [run_bind]
      cases hrun : run faultless (bdevWrite s.mgr.dev b buf).run s.disk with
      | mk r disk =>
          rw [hrun] at hdisk
          cases r with
          | error e => exact ⟨_, _, _, rfl, (h.record b buf).of_held (fun n hn => .inl hn) hdisk h.logging h.unlogged⟩
          | ok _ => exact ⟨_, _, _, rfl, (h.record b buf).of_held (fun n hn => .inl hn) hdisk h.logging h.unlogged⟩
  | writeback =>
      refine ⟨_, _, _, rfl, (h.record b buf).of_held (fun n hn => ?_) (h.record b buf).disk h.logging h.unlogged⟩
      simp only [Serving.held, List.mem_append, List.mem_singleton] at hn ⊢
      rcases hn with (hn | hn | rfl) | hn
      · exact .inl (.inl (.inl hn))
      · exact .inl (.inl (.inr hn))
      · exact .inr (H.record_self b buf)
      · exact .inl (.inr hn)

end Within

/-- Whatever the threads do, the manager keeps to the histories. -/
theorem managerTxn_refines {j₀ : Journal} (h₀ : j₀.maxlen = 0 ∨ j₀.Placed) :
    Refines managerTxn historyTxn (Within j₀) := by
  rintro o s r _ H hs ⟨t, p, m, disk, hbehind, hcall, hrun, rfl⟩
  have h := hs.behind_all h₀ hbehind
  cases o with
  | start =>
      obtain ⟨started, hstart, rfl⟩ := Option.map_eq_some_iff.mp hcall
      cases hrun
      unfold txnStart at hstart
      split_ifs at hstart
      cases hstart
      exact ⟨H, rfl, h.of_table rfl rfl fun n hn => .inl hn⟩
  | stop =>
      cases hcall
      cases hrun
      exact ⟨H, rfl, h.of_table rfl rfl fun n hn => .inl hn⟩
  | readBlock b =>
      obtain ⟨r', hread, hseen⟩ := h.txnReadBlock b
      cases hcall
      rw [run_bind, hread] at hrun
      cases hrun
      exact ⟨H, ⟨rfl, hseen⟩, h⟩
  | getWriteAccess b =>
      obtain ⟨r', m', haccess, hseen, hm⟩ := h.getWriteAccess b
      cases hcall
      rw [haccess] at hrun
      cases hrun
      exact ⟨H, ⟨rfl, hseen⟩, hm⟩
  | modify b data =>
      cases hcall
      cases hrun
      exact ⟨_, rfl, h.writeBuffer b data⟩
  | dirtyMetadata b =>
      obtain ⟨r', m', hdirty, hm⟩ := h.dirtyMetadata b
      cases hcall
      rw [hdirty] at hrun
      cases hrun
      exact ⟨H, rfl, hm⟩
  | writeData b buf =>
      obtain ⟨r', m', disk', hwrite, hm⟩ := h.txnWriteData b buf
      cases hcall
      rw [hwrite] at hrun
      cases hrun
      exact ⟨_, rfl, hm⟩

/-! ## Every call -/

/-- One call of the file system, served by the manager. -/
def ServedStep (sb : Super) (s s' : Serving) : Prop :=
  ∃ (c : UserCall) (now : UInt64) (r : Except Errno Reply), Outcome managerTxn (c.program sb now).run s r s'

theorem within_of_calls {j₀ : Journal} {sb : Super} {s s' : Serving} {H : History}
    (h₀ : j₀.maxlen = 0 ∨ j₀.Placed)
    (h : Within j₀ s H) (hcalls : Relation.ReflTransGen (ServedStep sb) s s') :
    ∃ H', AfterCalls sb H H' ∧ Within j₀ s' H' := by
  induction hcalls with
  | refl => exact ⟨H, .refl, h⟩
  | tail _ hstep ih =>
      obtain ⟨H₁, hcalls, h₁⟩ := ih
      obtain ⟨c, now, r, hout⟩ := hstep
      obtain ⟨H₂, hout₂, h₂⟩ := (managerTxn_refines h₀).outcome h₁ hout
      exact ⟨H₂, hcalls.tail ⟨c, now, r, hout₂⟩, h₂⟩

section Mounted
variable {host : Except Errno Unit} {totalBlocks journalLen now : UInt64} {mode : DataMode} {d d₁ d₂ : Disk}
  {sb : Super} {j : Journal}
  (hformat : run faultless (fsFormat host totalBlocks journalLen mode now).run d = (.ok (), d₁))
  (hmount : run faultless (fsMount ⟨totalBlocks⟩).run d₁ = (.ok (sb, j), d₂))
include hformat hmount

/-- The journal of a mounted image is between its superblock and the bitmaps, or has no blocks. -/
theorem placed_mounted : j.head = j.tail ∧ (j.maxlen = 0 ∨ j.Placed) := by
  obtain ⟨hsb, hacc, hlen, -, rfl, -⟩ := laidOut_mounted hformat hmount
  obtain ⟨-, -, hstart, hlength, -⟩ := toNat_formatSuper sb hsb
  obtain ⟨-, -, -, hds, htotal⟩ := boundaries_of_accepted hsb hacc hlen
  refine ⟨rfl, or_iff_not_imp_left.mpr fun hsome => ?_⟩
  constructor
  · exact Nat.pos_of_ne_zero fun h => hsome (UInt64.toNat_inj.mp h)
  · change sb.journalStart.toNat + sb.journalLen.toNat ≤ totalBlocks.toNat
    rw [hstart, hlength]
    omega
  · change 2 < sb.journalStart.toNat
    rw [hstart]
    decide

theorem home_table (hs : LayoutSound sb) {i : UInt32} (hi : InRange sb i) : Home j (inodeLocation sb i).1 := by
  obtain ⟨hsb, hacc, hlen, -, rfl, -⟩ := laidOut_mounted hformat hmount
  obtain ⟨-, -, hstart, hlength, -⟩ := toNat_formatSuper sb hsb
  obtain ⟨-, -, hit, -⟩ := boundaries_of_accepted hsb hacc hlen
  have htable := (hs.isIno hi).table_lt.1
  constructor
  · intro he
    rw [he, hit] at htable
    exact absurd htable (by simp [jsuperBlockno])
  · rintro ⟨-, hlt⟩
    change _ < sb.journalStart.toNat + sb.journalLen.toNat at hlt
    rw [hstart, hlength] at hlt
    omega

theorem bounded_ofMount (hfits : TableFits totalBlocks) :
    LayoutSound sb ∧ (History.ofMount j d₂.view).All (BlockBounded sb) := by
  obtain ⟨hs, hinit⟩ := bounded_mounted hformat hfits hmount
  refine ⟨hs, fun b data hdata i hi hb => ?_⟩
  have hhome : Home j b := hb ▸ home_table hformat hmount hs hi
  rw [hdata hhome]
  exact hinit b _ rfl i hi hb

/-- After any calls on a mounted image, in any data mode and with the threads at work all the time,
reads of regular files and writes keep to the block array and to the caller's buffer. -/
theorem safe_of_served (hfits : TableFits totalBlocks) {mode' : DataMode}
    {s : Serving} (hcalls : Relation.ReflTransGen (ServedStep sb) (Serving.boot j d₂ mode') s)
    {size offset : UInt64} (hsum : offset.toNat + size.toNat ≤ 2 ^ 63) (ino : UInt32) :
    (∀ t s', Outcome managerTxn (opReadTraced sb ino size offset).run s (.ok t) s' →
        isReg t.file.mode = true → t.Safe size.toNat) ∧
      ∀ buf now t s', Outcome managerTxn (opWriteTraced sb ino buf size offset now).run s (.ok t) s' →
        t.Safe size.toNat := by
  obtain ⟨hlog, h₀⟩ := placed_mounted hformat hmount
  obtain ⟨hs, hinit⟩ := bounded_ofMount hformat hmount hfits
  obtain ⟨H, hafter, hwithin⟩ := within_of_calls h₀ (within_boot hlog d₂ mode') hcalls
  have hbounded := bounded_of_calls hs hinit hafter
  constructor
  · intro t s' hout hreg
    obtain ⟨H', hread, -⟩ := (managerTxn_refines h₀).outcome hwithin hout
    exact opReadTraced_safe hsum hbounded hread hreg
  · intro buf now t s' hout
    exact hout.answers (answers_opWriteTraced hsum buf) t rfl

end Mounted
end Logfs
