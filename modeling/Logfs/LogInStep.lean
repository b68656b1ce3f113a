import Logfs.PipelineRuns
import Logfs.RecoveryCrash

/-!
# Log, checkpoint list and superblock in step

From a freshly recovered journal on, between any two calls of `do_commit` and
`checkpoint_oldest` the checkpoint list says what is in the log, and the journal
superblock where it begins.
-/
namespace Logfs
open Interaction WriteCache Transition

/-- The journal and image the recovery of a mount ends with. -/
def FreshlyRecovered (j : Journal) (img : Image) : Prop :=
  ∃ (j₀ : Journal) (c : Disk), j₀.Placed ∧ run faultless (mountRecover j₀) c = ((.ok (), j), settled img)

/-- The transactions of the list fill the offsets from tail to head and are numbered up to
the next sequence number; the superblock names the first, and all are still in the region. -/
structure InStep (j : Journal) (img : Image) (log : List CommittedTxn) : Prop where
  tiles : ∃ seq, ChainFrom j j.tail seq log
  length : j.tail.toNat + ckptLen log = j.head.toNat
  room : j.head.toNat - j.tail.toNat ≤ j.maxlen.toNat
  empty : log = [] ↔ (jsuperOf img).start = journalEmpty
  start : ∀ t ∈ log.head?, (jsuperOf img).start = j.tail ∧ (jsuperOf img).sequence = t.sequence
  holds : ∀ t ∈ log, HoldsAt j img t.descOffset.toNat ((txnOf t.nodes).record t.sequence)

/-- In every run the steps `ok` allows, all is in step between any two calls. -/
def StaysInStep (ok : Pipe → PipeAction → Prop) (j : Journal) (img : Image) (mode : DataMode) : Prop :=
  ∀ s j', Run Pipe.step ok (Pipe.boot j img mode) s → s.pc.returned = some j' →
    InStep j' s.disk.view s.mgr.ckpt

/-! ## After recovery -/

/-- Whatever recovery replays, it ends with an empty log. -/
theorem recovered_empty {j₀ j : Journal} {c d : Disk} (h₀ : j₀.Placed)
    (h : run faultless (mountRecover j₀) c = ((.ok (), j), d)) :
    SameRegion j₀ j ∧ j.tail = j.head ∧ (jsuperOf d.view).magic = journalMagic ∧
      (jsuperOf d.view).start = journalEmpty := by
  have hdecode : JournalSuper.decode (c.view jsuperBlockno) = jsuperOf c.view := rfl
  rw [mountRecover, run_bind, answer_recover, run_bind, run_bdevRead c (jsuper_lt h₀)] at h
  simp only [hdecode, run_ite] at h
  by_cases hmagic : (jsuperOf c.view).magic = journalMagic
  · by_cases hempty : (jsuperOf c.view).start = journalEmpty
    · simp only [hmagic, hempty, ne_eq, not_true, if_false, if_true, run_ret, run_bind, run_bdevFlush,
        Prog.pure_eq, Prod.mk.injEq, true_and] at h
      obtain ⟨rfl, rfl⟩ := h
      exact ⟨⟨rfl, rfl, rfl⟩, rfl, hmagic, hempty⟩
    · simp only [hmagic, hempty, ne_eq, not_true, if_false, run_bind, run_scanPass h₀] at h
      generalize hr : scanPassAt j₀ (jsuperOf c.view) c.view = r at h
      generalize run faultless ((replay j₀ r.revokes (loggedCopies r.txns)).answer
        (recoverInstall j₀.dev)) c = x at h
      obtain ⟨x, e⟩ := x
      have hplaced : (afterScan j₀ r).Placed := ⟨h₀.maxlen_pos, h₀.fits, h₀.after_jsuper⟩
      cases x with
      | error err => simp at h
      | ok _ =>
          simp only [run_bind, run_jsuperWrite e hplaced, run_ret, run_bdevFlush, Prog.pure_eq,
            Prod.mk.injEq, true_and] at h
          obtain ⟨rfl, rfl⟩ := h
          refine ⟨⟨rfl, rfl, rfl⟩, rfl, ?_, ?_⟩
          · simp [jsuperOf]
          · simp [jsuperOf]
  · simp [hmagic] at h

/-- An empty log begins at the journal's head. -/
theorem liveLog_empty {j : Journal} {img : Image} (hj : j.Placed) (htail : j.tail = j.head)
    (hmagic : (jsuperOf img).magic = journalMagic) (hstart : (jsuperOf img).start = journalEmpty) :
    LiveLog j img j.head.toNat j.nextSequence [] where
  placed := hj
  room := Nat.zero_le _
  bound := j.head.toNat_lt
  holds := trivial
  starts := ⟨hmagic, by simpa using hstart, fun h => absurd rfl h⟩
  tail_eq := by rw [htail, UInt64.ofNat_toNat]
  head_eq := by simp
  next_eq := by simp

/-- Nothing beyond the log itself is kept. -/
def Upkeep.bare (j₀ : Journal) : Upkeep j₀ where
  gen := Generation j₀
  kept _ _ _ _ := True
  generation := id
  commit _ _ _ _ := trivial
  checkpoint _ _ _ := trivial

theorem pipeOk_bare {j : Journal} {img : Image} (h : FreshlyRecovered j img) (mode : DataMode) :
    j.Placed ∧ PipeOk (Upkeep.bare j) (Pipe.boot j img mode) := by
  obtain ⟨j₀, c, h₀, hrun⟩ := h
  obtain ⟨hregion, htail, hmagic, hstart⟩ := recovered_empty h₀ hrun
  have hj := hregion.placed h₀
  refine ⟨hj, rfl, img, rfl, ⟨rfl, rfl, rfl⟩, ⟨j.head.toNat, j.nextSequence,
    liveLog_empty hj htail hmagic hstart, ?_⟩, ?_, trivial⟩
  · exact ⟨by simp, rfl⟩
  · intro t ht
    simp [Pipe.boot, txnMgrCreate] at ht

/-! ## The invariant between calls -/

section Between
variable {j₀ j : Journal} {img : Image} {log : List CommittedTxn}

/-- Each listed transaction is where its entry says. -/
theorem holds_of_chain {p : ℕ} {s : UInt64} (hbound : p + ckptLen log < 2 ^ 64)
    (h : LogHolds j img p s (log.map fun t => txnOf t.nodes)) (hchain : ChainFrom j (UInt64.ofNat p) s log) :
    ∀ t ∈ log, HoldsAt j img t.descOffset.toNat ((txnOf t.nodes).record t.sequence) := by
  induction log generalizing p s with
  | nil => simp
  | cons t ts ih =>
      obtain ⟨hoff, hseq, hrest⟩ := hchain
      rw [ckptLen_cons] at hbound
      intro t' ht'
      rcases List.mem_cons.mp ht' with rfl | ht'
      · rw [hoff, hseq, UInt64.toNat_ofNat_of_lt' (show p < 18446744073709551616 by omega)]
        exact h.1
      · rw [← UInt64.ofNat_add] at hrest
        have htail := h.2
        rw [txnOf_len] at htail
        exact ih (by omega) htail hrest t' ht'

theorem OnDisk.inStep {u : Upkeep j₀} {gens : List (List DirtyBlock)} (h : OnDisk u gens j img log) :
    InStep j img log := by
  obtain ⟨p, s, hlive, hchain⟩ := h.live
  have hbound := hlive.bound
  have hroom := hlive.room
  have hhead := head_toNat hlive
  rw [logLen_txns] at hbound hroom hhead
  have htail : j.tail.toNat = p := by
    rw [hlive.tail_eq, UInt64.toNat_ofNat_of_lt' (show p < 18446744073709551616 by omega)]
  have hlist : log = [] ↔ (log.map fun t => txnOf t.nodes) = [] := List.map_eq_nil_iff.symm
  refine ⟨⟨s, hlive.tail_eq ▸ hchain⟩, by omega, by omega, ?_, ?_, holds_of_chain hbound hlive.holds hchain⟩
  · rw [hlist]
    constructor
    · intro hnil
      rw [hlive.starts.start, if_pos hnil]
    · intro hstart
      by_contra hne
      exact hlive.start_ne_empty hne hstart
  · intro t ht
    cases log with
    | nil => simp at ht
    | cons t' ts =>
        obtain rfl : t' = t := by simpa using ht
        have hne : ((t' :: ts).map fun t => txnOf t.nodes) ≠ [] := by simp
        rw [hlive.starts.start, if_neg hne, hlive.starts.sequence hne, hlive.tail_eq, hchain.2.1]
        exact ⟨rfl, rfl⟩

end Between

/-- As long as no offset passes 64 bits, all stays in step. -/
theorem staysInStep_of_offsetsFit {j : Journal} {img : Image} (h : FreshlyRecovered j img)
    (mode : DataMode) :
    StaysInStep (fun s a => homeGenerations j s a ∧ offsetsFit s a) j img mode := by
  intro s j' hrun hret
  obtain ⟨hj, hboot⟩ := pipeOk_bare h mode
  have hok : PipeOk (Upkeep.bare j) s := by
    refine hboot.run hj (hrun.mono fun s a hguard => ?_)
    cases a with
    | call f =>
        cases f with
        | doCommit nodes => exact hguard
        | checkpointOldest => trivial
    | thread => trivial
  obtain ⟨img', hset, hdisk⟩ := hok.between hret
  rw [hset, view_settled]
  exact hdisk.inStep

/-! ## A region of three blocks -/

def shortJournal : Journal := ⟨⟨64⟩, 3, 3, 0, 0, 1⟩

/-- A formatted journal and zero blocks. -/
def shortImage : Image :=
  Function.update (fun _ => zeroBlock) jsuperBlockno (jsuperEncode shortJournal journalEmpty 0)

theorem placed_short : shortJournal.Placed := ⟨by decide, by decide, by decide⟩

theorem freshlyRecovered_short : FreshlyRecovered shortJournal shortImage := by
  have hmagic : (jsuperOf shortImage).magic = journalMagic := by simp [jsuperOf, shortImage]
  have hstart : (jsuperOf shortImage).start = journalEmpty := by simp [jsuperOf, shortImage]
  have hnone : installsOf shortJournal shortImage = [] := by
    rw [installsOf, foundByRecover, if_pos hstart]
    rfl
  refine ⟨shortJournal, settled shortImage, placed_short, ?_⟩
  rw [run_mountRecover (c := settled shortImage) placed_short hmagic (by simp [hnone, InstallsHome]),
    recoveredJournal, recoveredDisk, view_settled, if_pos hstart, if_pos hstart]
  rfl

theorem staysInStep_short :
    StaysInStep (fun s a => homeGenerations shortJournal s a ∧ offsetsFit s a) shortJournal shortImage
      .ordered := staysInStep_of_offsetsFit freshlyRecovered_short .ordered

/-- Three blocks at a time the head reaches the offset that marks an empty log; the next
transaction begins there, and the superblock says that there is none. -/
theorem not_staysInStep : FreshlyRecovered shortJournal shortImage ∧
    ¬ StaysInStep (homeGenerations shortJournal) shortJournal shortImage .ordered := by
  refine ⟨freshlyRecovered_short, fun h => ?_⟩
  have hgen : Generation shortJournal [⟨20, zeroBlock⟩] :=
    ⟨by decide, by simp only [List.forall_mem_singleton]; decide,
      by simp only [List.forall_mem_singleton]; decide⟩
  obtain ⟨n, hn⟩ : ∃ n, 3 * n = 2 ^ 64 - 1 := ⟨6148914691236517205, by decide⟩
  obtain ⟨hplaced, hdev, img, hset, hlog⟩ := pipeOk_bare freshlyRecovered_short .ordered
  have htop : Pipe.AtTop (Upkeep.bare shortJournal) (Pipe.boot shortJournal shortImage .ordered)
      shortJournal img := ⟨hdev, rfl, hset, hlog⟩
  obtain ⟨s, j, img', hrun, hend, hhead, -⟩ := htop.commits (homeGenerations shortJournal)
    hplaced rfl rfl hgen (fun _ _ _ => hgen) (fun _ => trivial) n (by omega)
  obtain ⟨m', j', img'', hlast, -, -, hempty⟩ := hend.lastCommit (homeGenerations shortJournal)
    hplaced rfl (hhead.trans hn) hgen hgen fun _ => trivial
  have hstep := h _ _ (hrun.trans hlast) rfl
  have hnil := hstep.empty.mpr hempty
  simp [Pipe.afterCommit, finishCommit] at hnil

end Logfs
