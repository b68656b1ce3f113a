import Logfs.OneMount

/-!
# Sessions on one image

Mounts, commits and tail advances of the journal, one after the other and operation by
operation, ended by a crash at any point or with an empty log, and followed by the next
mount of the same image.
-/
namespace Logfs
open Interaction WriteCache Transition

/-- `logfs_journal_open` and the recovery of the mount. -/
def openAndRecover (j₀ : Journal) : DevM (Except Errno Unit × Journal) := do
  match ← (journalOpen j₀.dev j₀.first j₀.maxlen).run with
  | .error e => return (.error e, j₀)
  | .ok j => mountRecover j

/-- What that recovery passes to `install`. -/
def installedBy (j₀ : Journal) (d : Disk) : List (UInt64 × Block) :=
  match run faultless (journalOpen j₀.dev j₀.first j₀.maxlen).run d with
  | (.error _, _) => []
  | (.ok j, d') => (run recording (journalRecover j) (d', [])).2.2

inductive SessionPhase
  /-- Between sessions. -/
  | down
  | recovering (p : DevM (Except Errno Unit × Journal))
  | up (j : Journal)
  | committing (j : Journal) (p : DevM (Except Errno (UInt64 × UInt64) × Journal)) (nodes : List DirtyBlock)
  /-- In `logfs_journal_advance_tail`, dropping the `n` oldest transactions. -/
  | advancing (j : Journal) (p : DevM (Except Errno Unit × Journal)) (n : ℕ)

/-- What a mount's recovery passed to `install`, and the transactions that were live then. -/
structure Mount where
  installed : List (UInt64 × Block)
  live : List CommittedTxn

/-- `live` and `mounts` only record the past: `live` are the transactions committed since the
log was last marked empty on disk that no tail advance has dropped, oldest first. -/
structure Sessions where
  disk : Disk
  phase : SessionPhase
  live : List CommittedTxn
  mounts : List Mount

inductive SessionAction
  | mount
  | commit (nodes : List DirtyBlock)
  | advanceTail (n : ℕ)
  /-- The next device operation of the call in progress, or its return. -/
  | op
  | crash (mask : List Bool)
  | unmount

instance (j : Journal) (img : Image) (p : ℕ) (bs : List Block) : Decidable (HoldsAt j img p bs) :=
  decidable_of_iff (∀ i : Fin bs.length, img (slot j (p + i)) = bs[i])
    ⟨fun h i b hb => by
      obtain ⟨hi, rfl⟩ := List.getElem?_eq_some_iff.mp hb
      exact h ⟨i, hi⟩, fun h i => h i bs[i] (by simp)⟩

namespace Sessions

/-- Is the whole record of the transaction being committed on the image? -/
def committedOn (img : Image) (j : Journal) (nodes : List DirtyBlock) : Bool :=
  decide ((txnOf nodes).len ≤ (journalFreeSpace j).toNat) &&
    decide (HoldsAt j img j.head.toNat ((txnOf nodes).record j.nextSequence))

/-- The transactions a crash leaves live. -/
def liveAfterCrash (phase : SessionPhase) (live : List CommittedTxn) (img : Image) : List CommittedTxn :=
  if (jsuperOf img).start = journalEmpty then []
  else match phase with
    | .committing j _ nodes =>
        if committedOn img j nodes then live ++ [⟨j.nextSequence, j.head, nodes⟩] else live
    | .advancing j _ n => if (jsuperOf img).start = j.tail then live else live.drop n
    | _ => live

def mountAction (j₀ : Journal) (s : Sessions) : Option Sessions :=
  match s.phase with
  | .down => some { s with
      phase := .recovering (openAndRecover j₀)
      mounts := s.mounts ++ [⟨installedBy j₀ s.disk, s.live⟩] }
  | _ => none

def commitAction (s : Sessions) (nodes : List DirtyBlock) : Option Sessions :=
  match s.phase with
  | .up j => some { s with phase := .committing j (journalCommit j (pendingBlocks nodes) []) nodes }
  | _ => none

def advanceTailAction (s : Sessions) (n : ℕ) : Option Sessions :=
  match s.phase with
  | .up j =>
      if n ≤ s.live.length then
        let (off, seq) := tailAt j (s.live.drop n)
        some { s with phase := .advancing j (journalAdvanceTail j off seq) n }
      else none
  | _ => none

def opAction (s : Sessions) : Option Sessions :=
  match s.phase with
  | .recovering (.op o k) =>
      let (r, disk) := faultless (E := Errno) o s.disk
      some { s with disk, phase := .recovering (k r) }
  | .recovering (.ret (.ok (), j)) => some { s with phase := .up j, live := [] }
  | .recovering (.ret (.error _, _)) => some { s with phase := .down }
  | .committing j (.op o k) nodes =>
      let (r, disk) := faultless (E := Errno) o s.disk
      some { s with disk, phase := .committing j (k r) nodes }
  | .committing _ (.ret (.ok (seq, off), j)) nodes =>
      some { s with phase := .up j, live := s.live ++ [⟨seq, off, nodes⟩] }
  | .committing _ (.ret (.error _, j)) _ => some { s with phase := .up j }
  | .advancing j (.op o k) n =>
      let (r, disk) := faultless (E := Errno) o s.disk
      some { s with disk, phase := .advancing j (k r) n }
  | .advancing _ (.ret (.ok (), j)) n => some { s with phase := .up j, live := s.live.drop n }
  | .advancing _ (.ret (.error _, j)) _ => some { s with phase := .up j }
  | _ => none

def crashAction (s : Sessions) (mask : List Bool) : Option Sessions :=
  match s.phase with
  | .down => none
  | phase =>
      let img := applyWrites s.disk.durable (keep mask s.disk.pending)
      some { s with disk := settled img, phase := .down, live := liveAfterCrash phase s.live img }

/-- A session that is not cut ends when nothing is left in the log. -/
def unmountAction (s : Sessions) : Option Sessions :=
  match s.phase, s.live with
  | .up _, [] => some { s with phase := .down }
  | _, _ => none

def step (j₀ : Journal) (s : Sessions) : SessionAction → Option Sessions
  | .mount => s.mountAction j₀
  | .commit nodes => s.commitAction nodes
  | .advanceTail n => s.advanceTailAction n
  | .op => s.opAction
  | .crash mask => s.crashAction mask
  | .unmount => s.unmountAction

def boot (img : Image) : Sessions := ⟨settled img, .down, [], []⟩

/-- What a step can do. -/
inductive Steps (j₀ : Journal) (s : Sessions) : SessionAction → Sessions → Prop
  | mount (phase : s.phase = .down) : Steps j₀ s .mount
      { s with phase := .recovering (openAndRecover j₀), mounts := s.mounts ++ [⟨installedBy j₀ s.disk, s.live⟩] }
  | commit {j : Journal} {nodes : List DirtyBlock} (phase : s.phase = .up j) : Steps j₀ s (.commit nodes)
      { s with phase := .committing j (journalCommit j (pendingBlocks nodes) []) nodes }
  | advanceTail {j : Journal} {n : ℕ} (phase : s.phase = .up j) (le : n ≤ s.live.length) :
      Steps j₀ s (.advanceTail n) { s with
        phase := .advancing j
          (journalAdvanceTail j (tailAt j (s.live.drop n)).1 (tailAt j (s.live.drop n)).2) n }
  | recoverOp {p q : DevM (Except Errno Unit × Journal)} {d : Disk} (phase : s.phase = .recovering p)
      (now : Step faultless (p, s.disk) (q, d)) :
      Steps j₀ s .op { s with disk := d, phase := .recovering q }
  | recovered {j : Journal} (phase : s.phase = .recovering (.ret (.ok (), j))) :
      Steps j₀ s .op { s with phase := .up j, live := [] }
  | recoverFailed {e : Errno} {j : Journal} (phase : s.phase = .recovering (.ret (.error e, j))) :
      Steps j₀ s .op { s with phase := .down }
  | commitOp {j : Journal} {p q : DevM (Except Errno (UInt64 × UInt64) × Journal)}
      {nodes : List DirtyBlock} {d : Disk} (phase : s.phase = .committing j p nodes)
      (now : Step faultless (p, s.disk) (q, d)) :
      Steps j₀ s .op { s with disk := d, phase := .committing j q nodes }
  | committed {j j' : Journal} {seq off : UInt64} {nodes : List DirtyBlock}
      (phase : s.phase = .committing j (.ret (.ok (seq, off), j')) nodes) :
      Steps j₀ s .op { s with phase := .up j', live := s.live ++ [⟨seq, off, nodes⟩] }
  | commitFailed {j j' : Journal} {e : Errno} {nodes : List DirtyBlock}
      (phase : s.phase = .committing j (.ret (.error e, j')) nodes) :
      Steps j₀ s .op { s with phase := .up j' }
  | advanceOp {j : Journal} {p q : DevM (Except Errno Unit × Journal)} {n : ℕ} {d : Disk}
      (phase : s.phase = .advancing j p n) (now : Step faultless (p, s.disk) (q, d)) :
      Steps j₀ s .op { s with disk := d, phase := .advancing j q n }
  | advanced {j j' : Journal} {n : ℕ} (phase : s.phase = .advancing j (.ret (.ok (), j')) n) :
      Steps j₀ s .op { s with phase := .up j', live := s.live.drop n }
  | advanceFailed {j j' : Journal} {e : Errno} {n : ℕ}
      (phase : s.phase = .advancing j (.ret (.error e, j')) n) :
      Steps j₀ s .op { s with phase := .up j' }
  | crash {mask : List Bool} {img : Image} (up : s.phase ≠ .down) (survives : Survives s.disk img) :
      Steps j₀ s (.crash mask)
        { s with disk := settled img, phase := .down, live := liveAfterCrash s.phase s.live img }
  | unmount {j : Journal} (phase : s.phase = .up j) (done : s.live = []) :
      Steps j₀ s .unmount { s with phase := .down }

theorem step_sound {j₀ : Journal} {s s' : Sessions} {a : SessionAction} (h : s.step j₀ a = some s') :
    Steps j₀ s a s' := by
  obtain ⟨disk, phase, live, mounts⟩ := s
  cases a with
  | mount =>
      cases phase <;> simp only [step, mountAction, reduceCtorEq] at h
      cases h
      exact .mount rfl
  | commit nodes =>
      cases phase <;> simp only [step, commitAction, reduceCtorEq] at h
      cases h
      exact .commit rfl
  | advanceTail n =>
      cases phase <;> simp only [step, advanceTailAction, reduceCtorEq] at h
      split_ifs at h with hle
      cases h
      exact .advanceTail rfl hle
  | op =>
      cases phase with
      | down | up j => simp [step, opAction] at h
      | recovering p =>
          rcases p with ⟨⟨e⟩ | ⟨⟨⟩⟩, j⟩ | ⟨o, k⟩ <;> cases h
          · exact .recoverFailed rfl
          · exact .recovered rfl
          · exact .recoverOp rfl (.op o k disk)
      | committing j p nodes =>
          rcases p with ⟨⟨e⟩ | ⟨seq, off⟩, j'⟩ | ⟨o, k⟩ <;> cases h
          · exact .commitFailed rfl
          · exact .committed rfl
          · exact .commitOp rfl (.op o k disk)
      | advancing j p n =>
          rcases p with ⟨⟨e⟩ | ⟨⟨⟩⟩, j'⟩ | ⟨o, k⟩ <;> cases h
          · exact .advanceFailed rfl
          · exact .advanced rfl
          · exact .advanceOp rfl (.op o k disk)
  | crash mask =>
      have hsurvives : Survives disk (applyWrites disk.durable (keep mask disk.pending)) :=
        ⟨_, keep_sublist mask _, rfl⟩
      cases phase with
      | down => cases h
      | _ =>
          cases h
          exact .crash nofun hsurvives
  | unmount =>
      cases phase <;> cases live <;> simp only [step, unmountAction, reduceCtorEq] at h
      cases h
      exact .unmount rfl rfl

end Sessions

/-! ## The mount -/

section Mount
variable {j₀ j : Journal} {img : Image}

theorem sameRegion_opened (j₀ : Journal) (img : Image) : SameRegion j₀ (openedJournal j₀ img) := by
  unfold openedJournal
  split <;> exact ⟨rfl, rfl, rfl⟩

theorem readOnly_journalOpen (dev : BlockDev) (first maxlen : UInt64) :
    ReadOnly (journalOpen dev first maxlen).run := by
  refine readOnly_except_bind (readOnly_bdevRead _ _) fun block => ?_
  dsimp only
  split
  · trivial
  · split <;> trivial

theorem installedBy_settled (h₀ : j₀.Placed) (hmagic : (jsuperOf img).magic = journalMagic) :
    installedBy j₀ (settled img) = installsOf j₀ img := by
  have hj := (sameRegion_opened j₀ img).placed h₀
  rw [installedBy, run_journalOpen _ (c := settled img) (jsuper_lt h₀) hmagic]
  dsimp only
  rw [view_settled, run_recover_recording (c := settled img) hj [] hmagic, List.nil_append]
  exact installsOf_region (sameRegion_opened j₀ img) img

/-- A mount ends with an empty log; cut before, it leaves what a crash of recovery leaves. -/
theorem meets_openAndRecover (h₀ : j₀.Placed) (hmagic : (jsuperOf img).magic = journalMagic)
    (hhome : InstallsHome j₀ (installsOf j₀ img)) :
    Meets faultless (fun d => ∀ i, Survives d i → RecoveryCrash (openedJournal j₀ img) img i)
      (fun r d => r.1 = .ok () ∧ ∃ i, d = settled i ∧ SameRegion j₀ r.2 ∧ Chained r.2 i [])
      (openAndRecover j₀) (settled img) := by
  have hregion := sameRegion_opened j₀ img
  have hj := hregion.placed h₀
  have hdev : (openedJournal j₀ img).dev = j₀.dev := hregion.dev
  have hhome' : InstallsHome (openedJournal j₀ img) (installsOf (openedJournal j₀ img) img) := by
    rw [installsOf_region hregion]
    intro w hw
    rw [hregion.home, hdev]
    exact hhome w hw
  have hmeets := meets_mountRecover_crash hj hmagic hhome'
  refine (readOnly_journalOpen _ _ _).meets_bind hmeets.now ?_
  rw [run_journalOpen _ (c := settled img) (jsuper_lt h₀) hmagic]
  refine hmeets.mono (fun _ hC => hC) ?_
  rintro r d ⟨rfl, rfl⟩
  have hrun := (hmeets.mono (fun _ hC => hC) fun _ _ hQ => hQ).run_eq
  obtain ⟨hregion', htail, hmagic', hstart⟩ := recovered_empty hj hrun
  refine ⟨rfl, _, rfl, ⟨hregion'.dev.trans hdev, hregion'.first.trans hregion.first,
    hregion'.maxlen.trans hregion.maxlen⟩, _, _, liveLog_empty (hregion'.placed hj) htail hmagic' hstart, ?_⟩
  exact ⟨by simp, rfl⟩

end Mount

/-! ## The invariant -/

/-- The journal in memory, the live transactions and the image agree. -/
structure OnLog (j₀ j : Journal) (img : Image) (log : List CommittedTxn) : Prop where
  region : SameRegion j₀ j
  chained : Chained j img log
  gens : ∀ t ∈ log, Generation j₀ t.nodes

/-- The image alone says where the live transactions are. -/
structure OnImage (j₀ : Journal) (img : Image) (log : List CommittedTxn) : Prop where
  held : ∃ p s, DiskLog j₀ img p s (log.map fun t => txnOf t.nodes)
  gens : ∀ t ∈ log, Generation j₀ t.nodes

/-- Where the session is, and what its device operations have done so far. -/
def SessionAt (j₀ : Journal) (d : Disk) (live : List CommittedTxn) : SessionPhase → Prop
  | .down => ∃ img, d = settled img ∧ OnImage j₀ img live
  | .recovering p =>
      ∃ img, OnImage j₀ img live ∧ installsOf j₀ img = nodeWrites (live.flatMap (·.nodes)) ∧
        Reaches faultless (openAndRecover j₀, settled img) (p, d)
  | .up j => ∃ img, d = settled img ∧ OnLog j₀ j img live
  | .committing j p nodes =>
      ∃ img, OnLog j₀ j img live ∧ j.OffsetsFit nodes ∧ Generation j₀ nodes ∧
        Reaches faultless (journalCommit j (pendingBlocks nodes) [], settled img) (p, d)
  | .advancing j p n =>
      ∃ img, OnLog j₀ j img live ∧ n ≤ live.length ∧
        Reaches faultless (journalAdvanceTail j (tailAt j (live.drop n)).1 (tailAt j (live.drop n)).2,
          settled img) (p, d)

section Crash
variable {j₀ j : Journal} {img i : Image} {live log : List CommittedTxn} {nodes : List DirtyBlock}
  {p : ℕ} {s : UInt64} {ts : List Transaction}

theorem OnImage.empty_iff (h : OnImage j₀ img log) : log = [] ↔ (jsuperOf img).start = journalEmpty := by
  obtain ⟨p, s, hdisk⟩ := h.held
  constructor
  · rintro rfl
    exact hdisk.start_eq_empty
  · intro hstart
    by_contra hne
    exact hdisk.start_ne_empty (by simpa using hne) hstart

/-- Whatever is live when the log is not marked empty. -/
theorem OnImage.cut (h : OnImage j₀ img log) {log' : List CommittedTxn}
    (hsame : (jsuperOf img).start ≠ journalEmpty → log' = log) :
    OnImage j₀ img (if (jsuperOf img).start = journalEmpty then [] else log') := by
  split
  · next hempty => exact h.empty_iff.mpr hempty ▸ h
  · next hne =>
      rw [hsame hne]
      exact h

theorem OnImage.magic (h : OnImage j₀ img log) : (jsuperOf img).magic = journalMagic := by
  obtain ⟨p, s, hdisk⟩ := h.held
  exact hdisk.starts.magic

theorem OnImage.of_empty (h₀ : j₀.Placed) (hmagic : (jsuperOf img).magic = journalMagic)
    (hstart : (jsuperOf img).start = journalEmpty) : OnImage j₀ img [] where
  held := ⟨0, 0, h₀, Nat.zero_le _, by decide, trivial, hmagic, by simpa using hstart, fun h => absurd rfl h⟩
  gens t ht := by simp at ht

theorem OnLog.onImage (h : OnLog j₀ j img log) : OnImage j₀ img log := by
  obtain ⟨p, s, hlive, -⟩ := h.chained
  exact ⟨⟨p, s, hlive.toDiskLog.to_region h.region.symm⟩, h.gens⟩

theorem OnImage.installsHome (h : OnImage j₀ img live)
    (hinstalls : installsOf j₀ img = nodeWrites (live.flatMap (·.nodes))) :
    InstallsHome j₀ (installsOf j₀ img) := by
  rw [hinstalls]
  intro w hw
  obtain ⟨d, hd, rfl⟩ := List.mem_map.mp hw
  obtain ⟨t, ht, hdt⟩ := List.mem_flatMap.mp hd
  exact ⟨(h.gens t ht).home d hdt, (h.gens t ht).lt d hdt⟩

/-- A crash of recovery leaves the log, or leaves it marked empty. -/
theorem OnImage.recoveryCrash (h₀ : j₀.Placed) (hregion : SameRegion j₀ j) (h : OnImage j₀ img live)
    (hinstalls : installsOf j₀ img = nodeWrites (live.flatMap (·.nodes)))
    (hcrash : RecoveryCrash j img i) :
    OnImage j₀ i (if (jsuperOf i).start = journalEmpty then [] else live) := by
  have hhome := h.installsHome hinstalls
  cases hcrash with
  | @home ws hsub =>
      obtain ⟨p, s, hdisk⟩ := h.held
      have hws : ∀ w ∈ ws, Home j₀ w.1 := by
        intro w hw
        rw [installsOf_region hregion] at hsub
        exact (hhome w (hsub.subset hw)).1
      have hafter : OnImage j₀ (applyWrites img ws) live := ⟨⟨p, s, hdisk.of_home hws⟩, h.gens⟩
      exact hafter.cut fun _ => rfl
  | @emptied ws hsub =>
      obtain ⟨hmagic, hstart⟩ := jsuperOf_emptied (applyWrites img ws) j
      rw [if_pos hstart]
      exact .of_empty h₀ hmagic hstart

/-- With the whole record behind it the log is one transaction longer. -/
theorem DiskLog.extend {t : Transaction} (hlive : LiveLog j img p s ts) (h : DiskLog j i p s ts)
    (hts : ts ≠ []) (hroom : j.HasRoom t) (hbound : p + logLen ts + t.len < 2 ^ 64)
    (hheld : HoldsAt j i j.head.toNat (t.record j.nextSequence)) : DiskLog j i p s (ts ++ [t]) := by
  have hfree := hlive.hasRoom.mp hroom
  rw [head_toNat hlive, hlive.next_eq] at hheld
  have hstarts := h.starts
  refine ⟨h.placed, ?_, ?_, LogHolds.append.mpr ⟨h.holds, hheld, trivial⟩, hstarts.magic, ?_, ?_⟩
  · simpa using hfree
  · simp only [logLen_append, logLen_cons, logLen_nil]
    omega
  · rw [hstarts.start, if_neg hts, if_neg (by simp)]
  · exact fun _ => hstarts.sequence hts

open Sessions in
/-- A crash of a commit leaves the log with the new transaction or without it. -/
theorem OnLog.commitCrash (h₀ : j₀.Placed) (h : OnLog j₀ j img live) (hgen : Generation j₀ nodes)
    (hoff : j.OffsetsFit nodes) (hroom : j.HasRoom (txnOf nodes)) (hi : CommitCrash j (txnOf nodes) img i) :
    OnImage j₀ i (if (jsuperOf i).start = journalEmpty then []
      else if committedOn i j nodes then live ++ [⟨j.nextSequence, j.head, nodes⟩] else live) := by
  obtain ⟨p, s, hlive, -⟩ := h.chained
  have hhead := head_toNat hlive
  have hfree := hlive.hasRoom.mp hroom
  rw [txnOf_len] at hfree
  have hend := hoff (by omega)
  have hbound : p + logLen (live.map fun t => txnOf t.nodes) + (txnOf nodes).len < 2 ^ 64 := by
    rw [txnOf_len]
    omega
  have hlog : (live.map fun t => txnOf t.nodes) ++ [txnOf nodes] =
      (live ++ [(⟨j.nextSequence, j.head, nodes⟩ : CommittedTxn)]).map fun t => txnOf t.nodes := by simp
  have hgens : ∀ t ∈ live ++ [(⟨j.nextSequence, j.head, nodes⟩ : CommittedTxn)], Generation j₀ t.nodes := by
    intro t ht
    rcases List.mem_append.mp ht with ht | ht
    · exact h.gens t ht
    · rw [List.mem_singleton.mp ht]
      exact hgen
  have hcommitted : committedOn i j nodes = true ↔
      HoldsAt j i j.head.toNat ((txnOf nodes).record j.nextSequence) := by
    simp only [committedOn, Bool.and_eq_true, decide_eq_true_eq]
    exact and_iff_right hroom
  split
  · next hempty =>
      refine .of_empty h₀ ?_ hempty
      rcases hlive.commitCrash hroom hbound hi with ⟨hdisk, -⟩ | ⟨hdisk, -⟩
      · exact hdisk.starts.magic
      · exact hdisk.starts.magic
  · next hne =>
      rcases hlive.commitCrash hroom hbound hi with ⟨hdisk, -⟩ | ⟨hdisk, -⟩
      · split
        · next hheld =>
            have hts : (live.map fun t => txnOf t.nodes) ≠ [] :=
              fun hts => hne (by rw [hdisk.starts.start, if_pos hts])
            have hlonger := DiskLog.extend hlive hdisk hts hroom hbound (hcommitted.mp hheld)
            rw [hlog] at hlonger
            exact ⟨⟨p, s, hlonger.to_region h.region.symm⟩, hgens⟩
        · exact ⟨⟨p, s, hdisk.to_region h.region.symm⟩, h.gens⟩
      · have hheld := (LogHolds.append.mp hdisk.holds).2.1
        rw [← hhead, ← hlive.next_eq] at hheld
        rw [if_pos (hcommitted.mpr hheld)]
        rw [hlog] at hdisk
        exact ⟨⟨p, s, hdisk.to_region h.region.symm⟩, hgens⟩

theorem OnLog.advanced (h : OnLog j₀ j img live) (n : ℕ) :
    OnLog j₀ { j with tail := (tailAt j (live.drop n)).1 }
      (advanceImage j (tailAt j (live.drop n)).1 (tailAt j (live.drop n)).2 img) (live.drop n) where
  region := ⟨h.region.dev, h.region.first, h.region.maxlen⟩
  chained := Chained.advance (live.take n) (by rw [List.take_append_drop]; exact h.chained)
  gens t ht := h.gens t (List.mem_of_mem_drop ht)

/-- The tail stays where it is only if nothing is dropped. -/
theorem OnLog.drop_eq (h : OnLog j₀ j img live) {n : ℕ} (hn : n ≤ live.length)
    (htail : (tailAt j (live.drop n)).1 = j.tail) : live.drop n = live := by
  obtain ⟨p, s, hlive, hchain⟩ := h.chained
  have hbound := hlive.bound
  rw [logLen_txns] at hbound
  rw [← List.take_append_drop n live] at hchain
  have hlen : ckptLen (live.take n) + ckptLen (live.drop n) = ckptLen live := by
    rw [← ckptLen_append, List.take_append_drop]
  rw [hchain.drop.tailAt, hlive.tail_eq, ofNat_inj (by omega) (by omega)] at htail
  have hzero : n = 0 := by
    have hle := length_le_logLen ((live.take n).map fun t => txnOf t.nodes)
    rw [logLen_txns, List.length_map, List.length_take, Nat.min_eq_left hn] at hle
    omega
  rw [hzero, List.drop_zero]

theorem OnLog.tail_eq (h : OnLog j₀ j img live) (hne : live ≠ []) : (jsuperOf img).start = j.tail := by
  obtain ⟨p, s, hlive, -⟩ := h.chained
  rw [hlive.starts.start, if_neg (by simpa using hne), hlive.tail_eq]

/-- A crash of a tail advance leaves the log as it was or as it will be. -/
theorem OnLog.advanceCrash (h : OnLog j₀ j img live) {n : ℕ} (hn : n ≤ live.length)
    (hi : i = img ∨ i = advanceImage j (tailAt j (live.drop n)).1 (tailAt j (live.drop n)).2 img) :
    OnImage j₀ i (if (jsuperOf i).start = journalEmpty then []
      else if (jsuperOf i).start = j.tail then live else live.drop n) := by
  rcases hi with rfl | rfl
  · have hold := h.onImage
    refine hold.cut fun hne => ?_
    rw [if_pos (h.tail_eq fun hnil => hne (hold.empty_iff.mp hnil))]
  · have hafter := h.advanced n
    have hnew := hafter.onImage
    refine hnew.cut fun hne => ?_
    have hstart := hafter.tail_eq fun hnil => hne (hnew.empty_iff.mp hnil)
    split
    · next htail => exact (h.drop_eq hn (hstart.symm.trans htail)).symm
    · rfl

/-- Without room a commit leaves the image alone. -/
theorem OnLog.noRoomCrash (h : OnLog j₀ j img live)
    (hroom : ¬ j.HasRoom (txnOf nodes)) :
    OnImage j₀ img (if (jsuperOf img).start = journalEmpty then []
      else if Sessions.committedOn img j nodes then live ++ [⟨j.nextSequence, j.head, nodes⟩]
      else live) := by
  have hno : Sessions.committedOn img j nodes = false := by
    rw [Sessions.committedOn, Bool.and_eq_false_iff]
    left
    exact decide_eq_false hroom
  refine h.onImage.cut fun _ => ?_
  rw [hno]
  rfl

/-- How a commit goes on, with room for it and without. -/
theorem reaches_journalCommit {p : DevM (Except Errno (UInt64 × UInt64) × Journal)} {d : Disk}
    (hj : j.Placed) (hfits : nodes.length ≤ maxTagsPerDesc)
    (hreach : Reaches faultless (journalCommit j (pendingBlocks nodes) [], settled img) (p, d)) :
    (j.HasRoom (txnOf nodes) → ∀ i, Survives d i → CommitCrash j (txnOf nodes) img i) ∧
      (¬ j.HasRoom (txnOf nodes) → d = settled img) := by
  constructor
  · intro hroom
    have hmeets := meets_journalCommit hj (txnOf_fits hfits) hroom
      (commitStates_crash j (txnOf nodes) img) (Q := fun _ _ => True) trivial
    exact (hmeets.reaches hreach).now
  · intro hroom
    have hmeets : Meets faultless (fun d => d = settled img) (fun _ _ => True)
        (journalCommit j (pendingBlocks nodes) []) (settled img) := by
      rw [show journalCommit j (pendingBlocks nodes) [] = _ from
        journalCommit_of_no_room (txnOf_fits hfits) hroom]
      exact .ret rfl trivial
    exact (hmeets.reaches hreach).now

theorem SessionAt.crash (h₀ : j₀.Placed) {d : Disk} {phase : SessionPhase} (h : SessionAt j₀ d live phase)
    (hup : phase ≠ .down) (hi : Survives d i) : OnImage j₀ i (Sessions.liveAfterCrash phase live i) := by
  unfold Sessions.liveAfterCrash
  cases phase with
  | down => exact absurd rfl hup
  | recovering p =>
      obtain ⟨img, himage, hinstalls, hreach⟩ := h
      have hmeets := meets_openAndRecover h₀ himage.magic (himage.installsHome hinstalls)
      have hcrash := (hmeets.reaches hreach).now i hi
      exact himage.recoveryCrash h₀ (sameRegion_opened j₀ img) hinstalls hcrash
  | up j =>
      obtain ⟨img, rfl, hlog⟩ := h
      rw [survives_settled.mp hi]
      exact hlog.onImage.cut fun _ => rfl
  | committing j p nodes =>
      obtain ⟨img, hlog, hoff, hgen, hreach⟩ := h
      obtain ⟨hwith, hwithout⟩ := reaches_journalCommit (hlog.region.placed h₀) hgen.length_le hreach
      by_cases hroom : j.HasRoom (txnOf nodes)
      · exact hlog.commitCrash h₀ hgen hoff hroom (hwith hroom i hi)
      · rw [hwithout hroom] at hi
        rw [survives_settled.mp hi]
        exact hlog.noRoomCrash hroom
  | advancing j p n =>
      obtain ⟨img, hlog, hn, hreach⟩ := h
      have hmeets := meets_advance_crash (hlog.region.placed h₀) (tailAt j (live.drop n)).1
        (tailAt j (live.drop n)).2 img
      exact hlog.advanceCrash hn ((hmeets.reaches hreach).now i hi)

end Crash

end Logfs
