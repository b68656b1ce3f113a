import Logfs.CrashAtomicity

/-!
# Commits and tail advances of one mount

The log of a freshly formatted region under `logfs_journal_commit` and
`logfs_journal_advance_tail` in any order. Recovery knows where the log begins but not
where it ends: it stops at the first blocks that do not pass its checks, and what is
behind the head are blocks of an earlier lap, with whatever bytes they were given.
-/
namespace Logfs
open Interaction WriteCache Transition

/-- `live` are the transactions committed and not dropped by a tail advance, oldest first;
it only records the past. -/
structure OneMount where
  journal : Journal
  disk : Disk
  live : List CommittedTxn

inductive LogCall
  | commit (nodes : List DirtyBlock)
  /-- The tail moves past the `n` oldest transactions. -/
  | advanceTail (n : ℕ)

namespace OneMount

def commitCall (s : OneMount) (nodes : List DirtyBlock) : Option OneMount :=
  match run faultless (journalCommit s.journal (pendingBlocks nodes) []) s.disk with
  | ((.ok (seq, off), j), d) => some ⟨j, d, s.live ++ [⟨seq, off, nodes⟩]⟩
  | ((.error _, _), _) => none

def advanceTailCall (s : OneMount) (n : ℕ) : Option OneMount :=
  if n ≤ s.live.length then
    let (off, seq) := tailAt s.journal (s.live.drop n)
    match run faultless (journalAdvanceTail s.journal off seq) s.disk with
    | ((.ok (), j), d) => some ⟨j, d, s.live.drop n⟩
    | ((.error _, _), _) => none
  else none

/-- Only calls that succeed. -/
def step (s : OneMount) : LogCall → Option OneMount
  | .commit nodes => s.commitCall nodes
  | .advanceTail n => s.advanceTailCall n

def boot (j : Journal) (img : Image) : OneMount := ⟨j, settled img, []⟩

/-- What `logfs_journal_recover` would install. -/
def recovered (s : OneMount) : List (UInt64 × Block) :=
  (run recording (journalRecover s.journal) (s.disk, [])).2.2

end OneMount

/-- In every run the steps `ok` allows, recovery installs what the live transactions hold, in
commit order, and nothing else. -/
def NothingForged (ok : OneMount → LogCall → Prop) (j : Journal) (img : Image) : Prop :=
  ∀ s, Run OneMount.step ok (OneMount.boot j img) s →
    s.recovered = nodeWrites (s.live.flatMap (·.nodes))

/-- Whatever the blocks hold and wherever they go. -/
def anyPayload : OneMount → LogCall → Prop := fun _ _ => True

/-- Behind the new transaction's commit block there is nothing that passes for a transaction
with the next number, and the transaction ends at a 64-bit offset. -/
def nothingBehind (s : OneMount) : LogCall → Prop
  | .commit nodes => s.journal.OffsetsFit nodes ∧
      scanAt (logView s.journal (commitImage s.journal (txnOf nodes) s.disk.view))
        (s.journal.head + UInt64.ofNat (nodes.length + 2)) (s.journal.nextSequence + 1) = none
  | .advanceTail _ => True

/-! ## Calls -/

section Calls
variable {j₀ j : Journal} {s s' : OneMount} {img : Image} {nodes : List DirtyBlock} {f : LogCall}

/-- A commit that succeeds found room, and its blocks fit one descriptor. -/
theorem fits_of_commit {r : UInt64 × UInt64} {j' : Journal} {c d : Disk}
    (h : run faultless (journalCommit j (pendingBlocks nodes) []) c = ((.ok r, j'), d)) :
    nodes.length ≤ maxTagsPerDesc ∧ j.HasRoom (txnOf nodes) := by
  obtain ⟨hfits, hroom⟩ := fits_of_journalCommit (t := txnOf nodes) h
  have hlen := hfits.data_le
  exact ⟨by simpa [txnOf, pendingBlocks] using hlen, hroom⟩

/-- What a call can do. -/
inductive OneMount.Steps (s : OneMount) : LogCall → OneMount → Prop
  | commit {nodes : List DirtyBlock} (fits : nodes.length ≤ maxTagsPerDesc)
      (room : s.journal.HasRoom (txnOf nodes)) :
      Steps s (.commit nodes) ⟨committed s.journal (txnOf nodes),
        settled (commitImage s.journal (txnOf nodes) s.disk.view),
        s.live ++ [⟨s.journal.nextSequence, s.journal.head, nodes⟩]⟩
  | advanceTail {n : ℕ} (le : n ≤ s.live.length) :
      Steps s (.advanceTail n) ⟨{ s.journal with tail := (tailAt s.journal (s.live.drop n)).1 },
        settled (advanceImage s.journal (tailAt s.journal (s.live.drop n)).1
          (tailAt s.journal (s.live.drop n)).2 s.disk.view),
        s.live.drop n⟩

theorem OneMount.step_sound (hj : s.journal.Placed) (h : s.step f = some s') : Steps s f s' := by
  cases f with
  | commit nodes =>
      simp only [step, commitCall] at h
      split at h
      · next seq off j d hrun =>
          obtain ⟨hfits, hroom⟩ := fits_of_commit hrun
          have hends := run_journalCommit hj (txnOf_fits hfits) hroom s.disk
          obtain ⟨⟨hr, rfl⟩, rfl⟩ := by simpa using hrun.symm.trans hends
          obtain ⟨rfl, rfl⟩ := by simpa using hr
          cases h
          exact .commit hfits hroom
      · cases h
  | advanceTail n =>
      simp only [step, advanceTailCall, run_journalAdvanceTail hj, Option.ite_none_right_eq_some,
        Option.some.injEq] at h
      obtain ⟨hle, rfl⟩ := h
      rw [Cache.flush, view_write]
      exact .advanceTail hle

theorem OneMount.step_commit (hj : s.journal.Placed) (hfits : nodes.length ≤ maxTagsPerDesc)
    (hroom : s.journal.HasRoom (txnOf nodes)) :
    s.step (.commit nodes) = some ⟨committed s.journal (txnOf nodes),
      settled (commitImage s.journal (txnOf nodes) s.disk.view),
      s.live ++ [⟨s.journal.nextSequence, s.journal.head, nodes⟩]⟩ := by
  have hrun := run_journalCommit hj (txnOf_fits hfits) hroom s.disk
  simp only [txnOf] at hrun
  simp only [step, commitCall, hrun]
  rfl

theorem OneMount.step_advanceTail (hj : s.journal.Placed) {n : ℕ} (hle : n ≤ s.live.length) :
    s.step (.advanceTail n) = some ⟨{ s.journal with tail := (tailAt s.journal (s.live.drop n)).1 },
      settled (advanceImage s.journal (tailAt s.journal (s.live.drop n)).1
        (tailAt s.journal (s.live.drop n)).2 s.disk.view),
      s.live.drop n⟩ := by
  simp only [step, advanceTailCall, run_journalAdvanceTail hj, if_pos hle, Cache.flush, view_write]
  rfl

/-! ## The invariant -/

structure OneMount.Ok (j₀ : Journal) (s : OneMount) : Prop where
  region : SameRegion j₀ s.journal
  chained : Chained s.journal s.disk.view s.live
  fits : ∀ t ∈ s.live, t.nodes.length ≤ maxTagsPerDesc
  ends : s.live ≠ [] →
    scanAt (logView s.journal s.disk.view) s.journal.head s.journal.nextSequence = none

/-- The superblock is outside of the log. -/
theorem logView_advanceImage (hj : j.Placed) (off seq : UInt64) :
    logView j (advanceImage j off seq img) = logView j img := by
  funext p
  exact Function.update_of_ne ((inRegion_physOf hj p).ne_jsuper hj) _ _

theorem OneMount.Ok.step (h₀ : j₀.Placed) (hok : nothingBehind s f) (hstep : Steps s f s')
    (h : Ok j₀ s) : Ok j₀ s' := by
  have hj := h.region.placed h₀
  cases hstep with
  | @commit nodes hfits hroom =>
      obtain ⟨hbound, hend⟩ := hok
      refine ⟨⟨h.region.dev, h.region.first, h.region.maxlen⟩, h.chained.commit hroom hbound, ?_, ?_⟩
      · intro t ht
        rcases List.mem_append.mp ht with ht | ht
        · exact h.fits t ht
        · rw [List.mem_singleton.mp ht]
          exact hfits
      · intro _
        rw [← txnOf_len] at hend
        exact hend
  | @advanceTail n hle =>
      refine ⟨⟨h.region.dev, h.region.first, h.region.maxlen⟩, ?_, ?_, ?_⟩
      · exact Chained.advance (s.live.take n) (by rw [List.take_append_drop]; exact h.chained)
      · exact fun t ht => h.fits t (List.mem_of_mem_drop ht)
      · intro hne
        have hend := h.ends fun he => hne (by simp [he])
        have hview : logView s.journal (advanceImage s.journal (tailAt s.journal (s.live.drop n)).1
            (tailAt s.journal (s.live.drop n)).2 s.disk.view) = logView s.journal s.disk.view :=
          logView_advanceImage hj _ _
        rw [← hview] at hend
        exact hend

/-- What the scan finds is what the list says. -/
theorem OneMount.Ok.recovered (h₀ : j₀.Placed) (h : Ok j₀ s) :
    s.recovered = nodeWrites (s.live.flatMap (·.nodes)) := by
  have hj := h.region.placed h₀
  obtain ⟨p, q, hlive, -⟩ := h.chained
  rw [OneMount.recovered, run_recover_recording hj [] hlive.starts.magic, List.nil_append,
    ← writesOf_txns]
  apply hlive.toDiskLog.installs
  · intro t ht
    obtain ⟨c, hc, rfl⟩ := List.mem_map.mp ht
    exact txnOf_fits (h.fits c hc)
  · intro t ht
    obtain ⟨c, -, rfl⟩ := List.mem_map.mp ht
    rfl
  · intro hne
    have hend := h.ends (by simpa using hne)
    rwa [hlive.head_eq, hlive.next_eq] at hend

theorem FreshRegion.chained (h : FreshRegion j img) : Chained j img [] := by
  obtain ⟨hhead, htail, -⟩ := h.opened
  refine ⟨_, _, liveLog_empty h.placed (htail.trans hhead.symm) h.magic h.start, ?_⟩
  exact ⟨by simp, rfl⟩

theorem OneMount.Ok.boot (h : FreshRegion j img) : Ok j (OneMount.boot j img) where
  region := ⟨rfl, rfl, rfl⟩
  chained := h.chained
  fits t ht := by simp [OneMount.boot] at ht
  ends hne := absurd rfl hne

end Calls

/-- As long as each commit leaves nothing behind it that passes for the next transaction,
recovery installs the live transactions and nothing else. -/
theorem nothingForged_of_nothingBehind {j : Journal} {img : Image} (h : FreshRegion j img) :
    NothingForged nothingBehind j img := by
  intro s hrun
  have hok : OneMount.Ok j s := hrun.invariant (.boot h) fun _ _ _ hguard hnow hs =>
    hs.step h.placed hguard (OneMount.step_sound (hs.region.placed h.placed) hnow)
  exact hok.recovered h.placed

/-! ## Blocks of an earlier lap -/

section Lap
variable {j : Journal} {img : Image} {p : ℕ}

theorem slot_lap (hj : j.Placed) (hp : p + j.maxlen.toNat < 2 ^ 64) :
    slot j (p + j.maxlen.toNat) = slot j p := by
  apply UInt64.toNat_inj.mp
  rw [toNat_slot hj hp, toNat_slot hj (by omega), Nat.add_mod_right]

/-- A lap later the same blocks come by again. -/
theorem HoldsAt.lap (hj : j.Placed) {bs : List Block} (hp : p + bs.length + j.maxlen.toNat < 2 ^ 64)
    (h : HoldsAt j img p bs) : HoldsAt j img (p + j.maxlen.toNat) bs := by
  intro i b hb
  have hi := (List.getElem?_eq_some_iff.mp hb).1
  rw [Nat.add_right_comm, slot_lap hj (by omega)]
  exact h i b hb

/-- What stands less than a lap behind the head is still there after a commit. -/
theorem HoldsAt.commitImage (hj : j.Placed) {t : Transaction} {bs : List Block}
    (hbefore : p + bs.length ≤ j.head.toNat) (hlap : j.head.toNat + t.len ≤ p + j.maxlen.toNat)
    (hbound : j.head.toNat + t.len ≤ 2 ^ 64) (h : HoldsAt j img p bs) :
    HoldsAt j (Logfs.commitImage j t img) p bs := by
  rw [← Transaction.length_record j.nextSequence] at hlap hbound
  have hlogged : HoldsAt j (applyWrites img (logWrites j (UInt64.ofNat j.head.toNat)
      (t.record j.nextSequence))) p bs := h.of_logWrites hj hbefore hlap hbound
  rw [UInt64.ofNat_toNat, ← recordedImage_eq] at hlogged
  rw [commitImage_eq]
  refine hlogged.congr fun i _ => applyWrites_of_untouched (fun w hw => ?_) _
  unfold startWrite at hw
  split at hw
  · rw [List.mem_singleton.mp hw]
    exact ((inRegion_slot hj _).ne_jsuper hj).symm
  · simp at hw

end Lap

/-! ## A region of seven blocks -/

def lapJournal : Journal := ⟨⟨64⟩, 3, 7, 0, 0, 1⟩

def lapImage : Image :=
  Function.update (fun _ => zeroBlock) jsuperBlockno (jsuperEncode lapJournal journalEmpty 0)

theorem freshRegion_lap : FreshRegion lapJournal lapImage where
  placed := ⟨by decide, by decide, by decide⟩
  opened := ⟨rfl, rfl, rfl⟩
  zero b hb := Function.update_of_ne (hb.ne_jsuper ⟨by decide, by decide, by decide⟩) _ _
  magic := by simp [jsuperOf, lapImage]
  start := by simp [jsuperOf, lapImage]

theorem nothingForged_lap : NothingForged nothingBehind lapJournal lapImage :=
  nothingForged_of_nothingBehind freshRegion_lap

/-- What would write block 20. -/
def forged : Transaction := ⟨[⟨20, zeroBlock⟩], []⟩

/-- Five blocks, the last three of them with the bytes of a whole transaction. -/
def forgery : List DirtyBlock :=
  [⟨30, zeroBlock⟩, ⟨31, zeroBlock⟩, ⟨32, descBuf 3 forged.data⟩, ⟨33, zeroBlock⟩,
    ⟨34, commitBuf 3 forged.data []⟩]

theorem record_forgery : (txnOf forgery).record 1 =
    [descBuf 1 (pendingBlocks forgery), zeroBlock, zeroBlock] ++
      (forged.record 3 ++ [commitBuf 1 (pendingBlocks forgery) []]) := by
  simp [Transaction.record, record, logBlocks, revokeBuf, txnOf, pendingBlocks, forgery, forged]

/-- The journal after the commit of the five blocks, after the tail advance, and after the
second commit. -/
def lapFull : Journal := ⟨⟨64⟩, 3, 7, 7, 0, 2⟩
def lapDropped : Journal := ⟨⟨64⟩, 3, 7, 7, 7, 2⟩
def lapAgain : Journal := ⟨⟨64⟩, 3, 7, 10, 7, 3⟩

/-- The five blocks take up the whole region. Once they are dropped, a transaction of one
block ends right before the forged one, which recovery takes for its successor. -/
theorem not_nothingForged : FreshRegion lapJournal lapImage ∧
    ¬ NothingForged anyPayload lapJournal lapImage := by
  refine ⟨freshRegion_lap, fun h => ?_⟩
  have hj : lapJournal.Placed := freshRegion_lap.placed
  -- the first lap
  have hlive0 : LiveLog lapJournal lapImage 0 1 [] :=
    liveLog_empty hj rfl freshRegion_lap.magic freshRegion_lap.start
  have hroom1 : lapJournal.HasRoom (txnOf forgery) := hlive0.hasRoom.mpr (by decide)
  have hstep1 : (OneMount.boot lapJournal lapImage).step (.commit forgery) =
      some ⟨lapFull, settled (commitImage lapJournal (txnOf forgery) lapImage), [⟨1, 0, forgery⟩]⟩ :=
    OneMount.step_commit hj (by decide) hroom1
  have hlive1 : LiveLog lapFull (commitImage lapJournal (txnOf forgery) lapImage) 0 1 [txnOf forgery] :=
    hlive0.commit hroom1 (by decide)
  generalize commitImage lapJournal (txnOf forgery) lapImage = img1 at hstep1 hlive1
  have hheld1 := hlive1.holds.1
  rw [record_forgery, HoldsAt.append] at hheld1
  -- the tail advance
  have hstep2 : OneMount.step ⟨lapFull, settled img1, [⟨1, 0, forgery⟩]⟩ (.advanceTail 1) =
      some ⟨lapDropped, settled (advanceImage lapFull 7 2 img1), []⟩ :=
    OneMount.step_advanceTail hlive1.placed le_rfl
  have hlive2 : LiveLog lapDropped (advanceImage lapFull 7 2 img1) 7 2 [] :=
    hlive1.advance [txnOf forgery] rfl rfl
  have hheld2 : HoldsAt lapDropped (advanceImage lapFull 7 2 img1) 3
      (forged.record 3 ++ [commitBuf 1 (pendingBlocks forgery) []]) :=
    hheld1.2.congr fun i _ => Function.update_of_ne ((inRegion_slot hlive1.placed _).ne_jsuper hj) _ _
  generalize advanceImage lapFull 7 2 img1 = img2 at hstep2 hlive2 hheld2
  -- the second lap
  have hroom3 : lapDropped.HasRoom (txnOf [⟨40, zeroBlock⟩]) := hlive2.hasRoom.mpr (by decide)
  have hstep3 : OneMount.step ⟨lapDropped, settled img2, []⟩ (.commit [⟨40, zeroBlock⟩]) =
      some ⟨lapAgain, settled (commitImage lapDropped (txnOf [⟨40, zeroBlock⟩]) img2),
        [⟨2, 7, [⟨40, zeroBlock⟩]⟩]⟩ := OneMount.step_commit hlive2.placed (by decide) hroom3
  have hlive3 : LiveLog lapAgain (commitImage lapDropped (txnOf [⟨40, zeroBlock⟩]) img2) 7 2
      [txnOf [⟨40, zeroBlock⟩]] := hlive2.commit hroom3 (by decide)
  have hheld3 : HoldsAt lapAgain (commitImage lapDropped (txnOf [⟨40, zeroBlock⟩]) img2) 10
      (forged.record 3 ++ [commitBuf 1 (pendingBlocks forgery) []]) :=
    (hheld2.commitImage hlive2.placed (by decide) (by decide) (by decide)).lap hlive2.placed (by decide)
  generalize commitImage lapDropped (txnOf [⟨40, zeroBlock⟩]) img2 = img3 at hstep3 hlive3 hheld3
  have hinstalls := h _ (.next (.next (.next .init trivial hstep1) trivial hstep2) trivial hstep3)
  -- recovery's scan
  rw [HoldsAt.append] at hheld3
  have hend : DiskLog.Ends lapAgain img3 7 2 [txnOf [⟨40, zeroBlock⟩], forged] := by
    have hcommit : logView lapAgain img3 13 = commitBuf 1 (pendingBlocks forgery) [] :=
      hheld3.2.logView (i := 0) rfl
    have hmagic : (DescBlock.decode (commitBuf 1 (pendingBlocks forgery) [])).magic = commitMagic :=
      magicOf_commitBuf 1 (pendingBlocks forgery) []
    change scanAt (logView lapAgain img3) 13 4 = none
    simp [scanAt, hcommit, hmagic, commitMagic, descMagic]
  have hlog : DiskLog lapAgain img3 7 2 [txnOf [⟨40, zeroBlock⟩], forged] := by
    refine ⟨hlive3.placed, by decide, by decide, ⟨hlive3.holds.1, hheld3.1, trivial⟩, ?_⟩
    exact ⟨hlive3.starts.magic, hlive3.starts.start, fun _ => hlive3.starts.sequence (by simp)⟩
  have hfits : ∀ t ∈ [txnOf [⟨40, zeroBlock⟩], forged], t.Fits := by
    simp only [List.forall_mem_cons, List.not_mem_nil, false_implies, implies_true, and_true]
    exact ⟨⟨by decide, by decide⟩, ⟨by decide, by decide⟩⟩
  have hfound := hlog.installs hfits (by simp [forged, txnOf]) fun _ => hend
  rw [OneMount.recovered, run_recover_recording (c := settled img3) hlive3.placed []
    hlive3.starts.magic, List.nil_append, view_settled, hfound] at hinstalls
  have hlength := congrArg List.length hinstalls
  simp [writesOf, forged, nodeWrites, txnOf, pendingBlocks] at hlength

end Logfs
