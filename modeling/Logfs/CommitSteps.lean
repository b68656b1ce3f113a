import Logfs.LogScan

/-!
# The states a commit passes through

`logfs_journal_commit` and `logfs_journal_advance_tail` operation by operation, on a
device that does not fail: which of their writes are issued at each point and which
of them are flushed.
-/
namespace Logfs
open Interaction WriteCache

variable {j : Journal} {C : Disk → Prop}

/-- What is in the log before the commit block is written. -/
def loggedImage (j : Journal) (t : Transaction) (img : Image) : Image :=
  applyWrites img (logWrites j j.head (logBlocks j.nextSequence t.data t.revoke))

/-- The write of the commit block. -/
def commitWrites (j : Journal) (t : Transaction) : List (UInt64 × Block) :=
  logWrites j (j.head + UInt64.ofNat (logBlocks j.nextSequence t.data t.revoke).length)
    [commitBuf j.nextSequence t.data t.revoke]

def recordedImage (j : Journal) (t : Transaction) (img : Image) : Image :=
  applyWrites (loggedImage j t img) (commitWrites j t)

theorem recordedImage_eq (j : Journal) (t : Transaction) (img : Image) :
    recordedImage j t img = applyWrites img (logWrites j j.head (t.record j.nextSequence)) := by
  rw [Transaction.record, record, logWrites_append, applyWrites_append]
  rfl

theorem commitImage_eq (j : Journal) (t : Transaction) (img : Image) :
    commitImage j t img = applyWrites (recordedImage j t img) (startWrite j) := by
  rw [recordedImage_eq, ← applyWrites_append]
  rfl

/-- Each of the three parts of a commit begins when the one before is flushed. -/
structure CommitStates (j : Journal) (t : Transaction) (c : Disk) (C : Disk → Prop) : Prop where
  logged : ∀ us, us <+: logWrites j j.head (logBlocks j.nextSequence t.data t.revoke) →
    C (c.writes us)
  recorded : ∀ us, us <+: commitWrites j t → C ((settled (loggedImage j t c.view)).writes us)
  started : ∀ us, us <+: startWrite j → C ((settled (recordedImage j t c.view)).writes us)
  ended : C (settled (commitImage j t c.view))

theorem meets_bdevWrite {dev : BlockDev} {b : UInt64} (h : b < dev.nblocks) {buf : Block} {c : Disk}
    {Q : Except Errno Unit → Disk → Prop} (hC : C c) (hC' : C (c.write b buf))
    (hQ : Q (.ok ()) (c.write b buf)) : Meets faultless C Q (bdevWrite dev b buf).run c := by
  rw [bdevWrite, if_neg (by simpa using h)]
  exact .op hC (.ret hC' hQ)

theorem meets_bdevFlush {dev : BlockDev} {c : Disk} {Q : Except Errno Unit → Disk → Prop} (hC : C c)
    (hC' : C (settled c.view)) (hQ : Q (.ok ()) (settled c.view)) :
    Meets faultless C Q (bdevFlush dev).run c := .op hC (.ret hC' hQ)

theorem meets_except_bind {α β : Type} {p : DevEM α} {f : α → DevEM β} {c : Disk}
    {R : Except Errno β → Disk → Prop}
    (hp : Meets faultless C (fun r d => ∃ a, r = .ok a ∧ Meets faultless C R (f a).run d) p.run c) :
    Meets faultless C R (p >>= f).run c := by
  rw [ExceptT.run_bind]
  refine Meets.seq hp ?_
  rintro r d ⟨a, rfl, hf⟩
  exact hf

theorem meets_writeBlocks (hj : j.Placed) {cursor : UInt64} {bs : List Block} {c : Disk}
    {Q : Except Errno UInt64 → Disk → Prop}
    (hC : ∀ us, us <+: logWrites j cursor bs → C (c.writes us))
    (hQ : Q (.ok (cursor + UInt64.ofNat bs.length)) (c.writes (logWrites j cursor bs))) :
    Meets faultless C Q (writeBlocks j cursor bs).run c := by
  induction bs generalizing cursor c with
  | nil =>
      have hnow : C c := by simpa using hC [] List.nil_prefix
      exact .ret hnow (by simpa [logWrites] using hQ)
  | cons b bs ih =>
      have hnow : C c := by simpa using hC [] List.nil_prefix
      have hnext : C (c.write (physOf j cursor) b) := by
        simpa [← write_writes] using hC [_] (List.prefix_append [_] _)
      rw [writeBlocks]
      refine meets_except_bind (meets_bdevWrite (physOf_lt hj cursor) hnow hnext ⟨(), rfl, ?_⟩)
      refine ih ?_ ?_
      · intro us hus
        rw [write_writes]
        exact hC _ ((List.prefix_cons_inj _).mpr hus)
      · rw [write_writes, seq_succ]
        exact hQ

theorem meets_writeTransaction (hj : j.Placed) {t : Transaction} {c : Disk}
    {Q : Except Errno UInt64 → Disk → Prop} (hC : CommitStates j t c C)
    (hQ : Q (.ok (j.head + UInt64.ofNat t.len)) (settled (recordedImage j t c.view))) :
    Meets faultless C Q (writeTransaction j t.data t.revoke).run c := by
  have hlogged := hC.recorded [] List.nil_prefix
  have hcommit := hC.recorded _ (List.prefix_refl _)
  have hrecorded := hC.started [] List.nil_prefix
  rw [writes_nil] at hlogged hrecorded
  have hend : j.head + UInt64.ofNat (logBlocks j.nextSequence t.data t.revoke).length + 1 =
      j.head + UInt64.ofNat t.len := by
    rw [Transaction.len, ← length_logBlocks j.nextSequence t.data t.revoke, UInt64.ofNat_add,
      ← UInt64.add_assoc]
    rfl
  rw [writeTransaction]
  refine meets_except_bind (meets_writeBlocks hj hC.logged ⟨_, rfl, ?_⟩)
  have hlast := hC.logged _ (List.prefix_refl _)
  rw [loggedImage, ← view_writes] at hlogged
  refine meets_except_bind (meets_bdevFlush hlast hlogged ⟨(), rfl, ?_⟩)
  rw [view_writes, ← loggedImage] at hlogged ⊢
  refine meets_except_bind (meets_bdevWrite (physOf_lt hj _) hlogged hcommit ⟨(), rfl, ?_⟩)
  have hview : ((settled (loggedImage j t c.view)).write
      (physOf j (j.head + UInt64.ofNat (logBlocks j.nextSequence t.data t.revoke).length))
      (commitBuf j.nextSequence t.data t.revoke)).view = recordedImage j t c.view := by
    rw [view_write]
    rfl
  refine meets_except_bind (meets_bdevFlush hcommit (hview ▸ hrecorded) ⟨(), rfl, ?_⟩)
  rw [hend, hview]
  exact .ret hrecorded hQ

theorem meets_journalCommit (hj : j.Placed) {t : Transaction} (hfits : t.Fits) (hroom : j.HasRoom t)
    {c : Disk} {Q : Except Errno (UInt64 × UInt64) × Journal → Disk → Prop}
    (hC : CommitStates j t c C)
    (hQ : Q (.ok (j.nextSequence, j.head), committed j t) (settled (commitImage j t c.view))) :
    Meets faultless C Q (journalCommit j t.data t.revoke) c := by
  have hspace := (space_iff_hasRoom hfits).mpr hroom
  have hend := hC.ended
  rw [journalCommit]
  simp only [if_neg (spaceNeeded_ne_zero hfits), if_neg hspace]
  refine Meets.bind (meets_writeTransaction hj hC ?_)
  dsimp only
  rw [commitImage_eq] at hQ hend
  by_cases he : j.tail = j.head
  · have hj' : (committed j t).Placed := ⟨hj.maxlen_pos, hj.fits, hj.after_jsuper⟩
    have hstart : startWrite j = [(jsuperBlockno, jsuperEncode j j.head j.nextSequence)] := if_pos he
    have hnow := hC.started [] List.nil_prefix
    have hsuper := hC.started _ (List.prefix_refl _)
    rw [hstart] at hsuper hQ hend
    rw [writes_nil] at hnow
    rw [if_pos he, ← committed, jsuperWrite_ops hj']
    exact .op hnow (.op hsuper (.ret hend hQ))
  · have hstart : startWrite j = [] := if_neg he
    rw [hstart] at hQ hend
    rw [if_neg he]
    exact .ret hend hQ

theorem meets_journalAdvanceTail (hj : j.Placed) {off seq : UInt64} {c : Disk}
    {Q : Except Errno Unit × Journal → Disk → Prop} (hnow : C c)
    (hsuper : C (c.write jsuperBlockno
      (jsuperEncode j (if off = j.head then journalEmpty else off) seq)))
    (hend : C (c.write jsuperBlockno
      (jsuperEncode j (if off = j.head then journalEmpty else off) seq)).flush)
    (hQ : Q (.ok (), { j with tail := off }) (c.write jsuperBlockno
      (jsuperEncode j (if off = j.head then journalEmpty else off) seq)).flush) :
    Meets faultless C Q (journalAdvanceTail j off seq) c := by
  rw [journalAdvanceTail, jsuperWrite_ops hj]
  exact .op hnow (.op hsuper (.ret hend hQ))

/-! ## Home blocks during a commit -/

theorem home_of_log (hj : j.Placed) {cursor : UInt64} {bs : List Block} {us : List (UInt64 × Block)}
    (hus : us <+: logWrites j cursor bs) (img : Image) {b : UInt64} (hb : Home j b) :
    applyWrites img us b = img b := by
  refine applyWrites_of_untouched (fun w hw he => ?_) img
  have hin := mem_logWrites_inRegion hj (hus.subset hw)
  exact hb.2 (he ▸ hin)

theorem home_of_start {us : List (UInt64 × Block)} (hus : us <+: startWrite j) (img : Image)
    {b : UInt64} (hb : Home j b) : applyWrites img us b = img b := by
  refine applyWrites_of_untouched (fun w hw he => ?_) img
  have hmem := hus.subset hw
  unfold startWrite at hmem
  split at hmem
  · rw [List.mem_singleton.mp hmem] at he
    exact hb.1 he.symm
  · simp at hmem

/-- The blocks that are neither the journal's superblock nor in its region are as in `img`. -/
def HomeAs (j : Journal) (img : Image) (c : Disk) : Prop := ∀ b, Home j b → c.view b = img b

theorem commitStates_home (hj : j.Placed) (t : Transaction) (c : Disk) :
    CommitStates j t c (HomeAs j c.view) where
  logged us hus b hb := by
    rw [view_writes, home_of_log hj hus _ hb]
  recorded us hus b hb := by
    rw [view_writes, home_of_log hj hus _ hb, view_settled, loggedImage,
      home_of_log hj (List.prefix_refl _) _ hb]
  started us hus b hb := by
    rw [view_writes, home_of_start hus _ hb, view_settled, recordedImage_eq,
      home_of_log hj (List.prefix_refl _) _ hb]
  ended b hb := by
    rw [view_settled, commitImage_home hj hb]

end Logfs
