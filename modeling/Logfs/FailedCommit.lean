import Logfs.Lib.FlakyDevice
import Logfs.LogInStep

/-!
# Commits that fail

`logfs_journal_commit` and `logfs_journal_advance_tail`, called in any order on a device
that fails by any pattern. A commit that fails before its commit block is flushed has
written to the free part of the region only. When it fails behind that, at the journal
superblock, head and sequence number have already moved on.
-/
namespace Logfs
open Interaction WriteCache Transition

/-! ## The calls on a failing device -/

/-- The device's next `n` operations succeed. -/
def UpFor (pattern : ℕ → Outcome) (d : Flaky UInt64 Block) (n : ℕ) : Prop :=
  ∀ k < n, pattern (d.answered + k) = .done

instance (pattern : ℕ → Outcome) (d : Flaky UInt64 Block) (n : ℕ) : Decidable (UpFor pattern d n) := by
  unfold UpFor; infer_instance

section Programs
variable {pattern : ℕ → Outcome} {j : Journal} {d d' : Flaky UInt64 Block} {m n : ℕ}

theorem UpFor.add (h : UpFor pattern d m) (hd : d'.answered = d.answered + m)
    (h' : UpFor pattern d' n) : UpFor pattern d (m + n) := by
  intro k hk
  by_cases hkm : k < m
  · exact h k hkm
  · have hlater := h' (k - m) (by omega)
    rwa [hd, show d.answered + m + (k - m) = d.answered + k by omega] at hlater

theorem UpFor.drop (h : UpFor pattern d (m + n)) (hd : d'.answered = d.answered + m) :
    UpFor pattern d' n := by
  intro k hk
  have hlater := h (m + k) (by omega)
  rwa [← Nat.add_assoc, ← hd] at hlater

theorem upFor_one : UpFor pattern d 1 ↔ pattern d.answered = .done := by
  simp [UpFor]

/-- From `d` the device carried out `n` operations, all with success. -/
structure Did (pattern : ℕ → Outcome) (d d' : Flaky UInt64 Block) (n : ℕ) : Prop where
  up : UpFor pattern d n
  answered : d'.answered = d.answered + n

theorem Did.trans {d'' : Flaky UInt64 Block} (h : Did pattern d d' m)
    (h' : Did pattern d' d'' n) : Did pattern d d'' (m + n) where
  up := h.up.add h.answered h'.up
  answered := by rw [h'.answered, h.answered, Nat.add_assoc]

theorem run_failing_write {dev : BlockDev} {b : UInt64} (hb : b < dev.nblocks) (buf : Block)
    (d : Flaky UInt64 Block) :
    (∃ d', run (flaky pattern .eio) (bdevWrite dev b buf).run d = (.ok (), d') ∧
        Did pattern d d' 1 ∧ d'.cache = d.cache.write b buf) ∨
      ∃ d' applied, run (flaky pattern .eio) (bdevWrite dev b buf).run d = (.error .eio, d') ∧
        pattern d.answered = .failed applied ∧
        d'.cache = if applied then d.cache.write b buf else d.cache := by
  rw [bdevWrite, if_neg (by simpa using hb)]
  rcases flaky_write pattern Errno.eio b buf d with ⟨hp, hok⟩ | ⟨applied, hp, hfail⟩
  · exact .inl ⟨_, hok, ⟨upFor_one.mpr hp, rfl⟩, rfl⟩
  · exact .inr ⟨_, applied, hfail, hp, rfl⟩

theorem run_failing_flush (dev : BlockDev) (d : Flaky UInt64 Block) :
    (∃ d', run (flaky pattern .eio) (bdevFlush dev).run d = (.ok (), d') ∧
        Did pattern d d' 1 ∧ d'.cache = d.cache.flush) ∨
      ∃ d', run (flaky pattern .eio) (bdevFlush dev).run d = (.error .eio, d') ∧
        ¬ UpFor pattern d 1 ∧ d'.cache = d.cache := by
  rcases flaky_flush pattern Errno.eio d with ⟨hp, hok⟩ | ⟨applied, hp, hfail⟩
  · exact .inl ⟨_, hok, ⟨upFor_one.mpr hp, rfl⟩, rfl⟩
  · exact .inr ⟨_, hfail, by simp [upFor_one, hp], rfl⟩

/-- Either all blocks are written, or some are and the rest is not tried. -/
theorem run_failing_writeBlocks (hj : j.Placed) (cursor : UInt64) (bs : List Block)
    (d : Flaky UInt64 Block) :
    (∃ d', run (flaky pattern .eio) (writeBlocks j cursor bs).run d =
          (.ok (cursor + UInt64.ofNat bs.length), d') ∧
        Did pattern d d' bs.length ∧ d'.cache = d.cache.writes (logWrites j cursor bs)) ∨
      ∃ d' ws, run (flaky pattern .eio) (writeBlocks j cursor bs).run d = (.error .eio, d') ∧
        ws ⊆ logWrites j cursor bs ∧ d'.cache = d.cache.writes ws := by
  induction bs generalizing cursor d with
  | nil =>
      refine .inl ⟨d, ?_, ⟨fun k hk => absurd hk k.not_lt_zero, rfl⟩, by simp [logWrites]⟩
      simp [writeBlocks]
  | cons b bs ih =>
      rw [writeBlocks, run_except_bind, writeLogical]
      rcases run_failing_write (physOf_lt hj cursor) b d with
        ⟨d1, hrun, hdid, hcache⟩ | ⟨d1, applied, hrun, -, hcache⟩
      · rw [hrun]
        rcases ih (cursor + 1) d1 with ⟨d2, hrest, hdid', hcache'⟩ | ⟨d2, ws, hrest, hsub, hcache'⟩
        · refine .inl ⟨d2, ?_, ?_, ?_⟩
          · simp only [hrest, seq_succ, List.length_cons]
          · simpa [Nat.add_comm] using hdid.trans hdid'
          · rw [hcache', hcache, write_writes, logWrites]
        · refine .inr ⟨d2, (physOf j cursor, b) :: ws, hrest, List.cons_subset_cons _ hsub, ?_⟩
          rw [hcache', hcache, write_writes]
      · rw [hrun]
        refine .inr ⟨d1, if applied then [(physOf j cursor, b)] else [], rfl, ?_, ?_⟩
        · rw [logWrites]
          split <;> simp
        · rw [hcache]
          split
          · rfl
          · rw [writes_nil]

/-- The blocks of a transaction and the two flushes. -/
theorem run_failing_writeTransaction (hj : j.Placed) (t : Transaction) (d : Flaky UInt64 Block) :
    (∃ d', run (flaky pattern .eio) (writeTransaction j t.data t.revoke).run d =
          (.ok (j.head + UInt64.ofNat t.len), d') ∧
        Did pattern d d' (t.len + 2) ∧
        d'.cache = settled (applyWrites d.cache.view
          (logWrites j j.head (t.record j.nextSequence)))) ∨
      ∃ d' ws, run (flaky pattern .eio) (writeTransaction j t.data t.revoke).run d = (.error .eio, d') ∧
        ws ⊆ logWrites j j.head (t.record j.nextSequence) ∧
        d'.cache.view = applyWrites d.cache.view ws := by
  have hlen := length_logBlocks j.nextSequence t.data t.revoke
  have hrecord : logWrites j j.head (t.record j.nextSequence) =
      logWrites j j.head (logBlocks j.nextSequence t.data t.revoke) ++
        [(physOf j (j.head + UInt64.ofNat (logBlocks j.nextSequence t.data t.revoke).length),
          commitBuf j.nextSequence t.data t.revoke)] := logWrites_append j j.head _ _
  rw [hrecord, writeTransaction, run_except_bind]
  rcases run_failing_writeBlocks hj j.head (logBlocks j.nextSequence t.data t.revoke) d with
    ⟨d1, hrun1, hdid1, hcache1⟩ | ⟨d1, ws, hrun1, hsub, hcache1⟩
  · rw [hrun1]
    simp only
    rw [run_except_bind]
    rcases run_failing_flush j.dev d1 with ⟨d2, hrun2, hdid2, hcache2⟩ | ⟨d2, hrun2, -, hcache2⟩
    · rw [hrun2]
      simp only
      rw [run_except_bind, writeLogical]
      rcases run_failing_write (physOf_lt hj _) (commitBuf j.nextSequence t.data t.revoke) d2 with
        ⟨d3, hrun3, hdid3, hcache3⟩ | ⟨d3, applied, hrun3, -, hcache3⟩
      · rw [hrun3]
        simp only
        rw [run_except_bind]
        rcases run_failing_flush j.dev d3 with ⟨d4, hrun4, hdid4, hcache4⟩ | ⟨d4, hrun4, -, hcache4⟩
        · rw [hrun4]
          refine .inl ⟨d4, ?_, ?_, ?_⟩
          · rw [Transaction.len, ← hlen, UInt64.ofNat_add, ← UInt64.add_assoc]
            rfl
          · have hall := ((hdid1.trans hdid2).trans hdid3).trans hdid4
            rwa [show (logBlocks j.nextSequence t.data t.revoke).length + 1 + 1 + 1 = t.len + 2 by
              rw [Transaction.len, ← hlen]] at hall
          · rw [hcache4, hcache3, hcache2, hcache1, Cache.flush, Cache.flush]
            simp [applyWrites_append]
        · rw [hrun4]
          refine .inr ⟨d4, _, rfl, List.Subset.refl _, ?_⟩
          rw [hcache4, hcache3, hcache2, hcache1]
          simp [applyWrites_append]
      · rw [hrun3]
        refine .inr ⟨d3, logWrites j j.head (logBlocks j.nextSequence t.data t.revoke) ++
          if applied then [(physOf j (j.head + UInt64.ofNat
            (logBlocks j.nextSequence t.data t.revoke).length),
              commitBuf j.nextSequence t.data t.revoke)] else [], rfl, ?_, ?_⟩
        · split <;> simp
        · rw [hcache3]
          split
          · rw [view_write, hcache2, view_flush, hcache1, view_writes, applyWrites_append]
            rfl
          · rw [hcache2, view_flush, hcache1, view_writes, List.append_nil]
    · rw [hrun2]
      refine .inr ⟨d2, _, rfl, List.subset_append_left _ _, ?_⟩
      rw [hcache2, hcache1, view_writes]
  · rw [hrun1]
    refine .inr ⟨d1, ws, rfl, List.Subset.trans hsub (List.subset_append_left _ _), ?_⟩
    rw [hcache1, view_writes]

/-- The superblock's write and flush: both succeed, or the write may have been taken up. -/
theorem run_failing_jsuperWrite (hj : j.Placed) (off seq : UInt64) (d : Flaky UInt64 Block) :
    (∃ d', run (flaky pattern .eio) (jsuperWrite j off seq).run d = (.ok (), d') ∧
        UpFor pattern d 2 ∧
        d'.cache = settled (Function.update d.cache.view jsuperBlockno (jsuperEncode j off seq))) ∨
      ∃ d', run (flaky pattern .eio) (jsuperWrite j off seq).run d = (.error .eio, d') ∧
        ¬ UpFor pattern d 2 ∧
        (d'.cache.view = d.cache.view ∨ pattern d.answered ≠ .failed false ∧
          d'.cache.view = Function.update d.cache.view jsuperBlockno (jsuperEncode j off seq)) := by
  rw [jsuperWrite, bdevWriteFua, run_except_bind]
  rcases run_failing_write (jsuper_lt hj) (jsuperEncode j off seq) d with
    ⟨d1, hrun1, hdid1, hcache1⟩ | ⟨d1, applied, hrun1, hp, hcache1⟩
  · rw [hrun1]
    rcases run_failing_flush j.dev d1 with ⟨d2, hrun2, hdid2, hcache2⟩ | ⟨d2, hrun2, hdown, hcache2⟩
    · refine .inl ⟨d2, hrun2, (hdid1.trans hdid2).up, ?_⟩
      rw [hcache2, hcache1, Cache.flush, view_write]
    · refine .inr ⟨d2, hrun2, fun hup => hdown (hup.drop hdid1.answered), .inr ⟨?_, ?_⟩⟩
      · rw [upFor_one.mp hdid1.up]
        intro heq
        cases heq
      · rw [hcache2, hcache1, view_write]
  · rw [hrun1]
    refine .inr ⟨d1, rfl, fun hup => ?_, ?_⟩
    · have hfirst := hup 0 (by decide)
      rw [Nat.add_zero, hp] at hfirst
      cases hfirst
    · cases applied with
      | false => exact .inl (by rw [hcache1]; rfl)
      | true =>
          refine .inr ⟨?_, by rw [hcache1, if_pos rfl, view_write]⟩
          rw [hp]
          intro heq
          cases heq

/-- A commit whose superblock write succeeds when it comes to it: either it returned an error,
left the journal alone and wrote some of the transaction's blocks, or everything is down. -/
theorem run_failing_journalCommit (hj : j.Placed) (t : Transaction) (d : Flaky UInt64 Block)
    (hsuper : t.Fits → j.HasRoom t → j.tail = j.head → UpFor pattern d (t.len + 2) →
      UpFor pattern d (t.len + 4)) :
    (∃ d' e ws, run (flaky pattern .eio) (journalCommit j t.data t.revoke) d = ((.error e, j), d') ∧
        ws ⊆ logWrites j j.head (t.record j.nextSequence) ∧ (ws ≠ [] → t.Fits ∧ j.HasRoom t) ∧
        d'.cache.view = applyWrites d.cache.view ws) ∨
      ∃ d', run (flaky pattern .eio) (journalCommit j t.data t.revoke) d =
          ((.ok (j.nextSequence, j.head), committed j t), d') ∧
        t.Fits ∧ j.HasRoom t ∧ d'.cache = settled (commitImage j t d.cache.view) := by
  have hrefused : ∀ e, journalCommit j t.data t.revoke = .ret (.error e, j) →
      ∃ d' e ws, run (flaky pattern .eio) (journalCommit j t.data t.revoke) d = ((.error e, j), d') ∧
        ws ⊆ logWrites j j.head (t.record j.nextSequence) ∧ (ws ≠ [] → t.Fits ∧ j.HasRoom t) ∧
        d'.cache.view = applyWrites d.cache.view ws := by
    intro e he
    rw [he]
    exact ⟨d, e, [], rfl, List.nil_subset _, fun h => absurd rfl h, rfl⟩
  by_cases hfits : t.Fits
  swap
  · exact .inl (hrefused .einval (journalCommit_of_not_fits hfits))
  by_cases hroom : j.HasRoom t
  · have hspace := (space_iff_hasRoom hfits).mpr hroom
    rw [journalCommit]
    simp only [if_neg (spaceNeeded_ne_zero hfits), if_neg hspace, run_bind]
    rcases run_failing_writeTransaction hj t d with
      ⟨d1, hrun1, hdid, hcache1⟩ | ⟨d1, ws, hrun1, hsub, hview⟩
    · rw [hrun1]
      dsimp only
      by_cases he : j.tail = j.head
      · have hj' : (committed j t).Placed := ⟨hj.maxlen_pos, hj.fits, hj.after_jsuper⟩
        have hup := (hsuper hfits hroom he hdid.up).drop (m := t.len + 2) (n := 2) hdid.answered
        rw [if_pos he, run_bind, ← committed]
        rcases run_failing_jsuperWrite hj' j.head j.nextSequence d1 with
          ⟨d2, hrun2, -, hcache2⟩ | ⟨d2, -, hdown, -⟩
        · rw [hrun2]
          refine .inr ⟨d2, rfl, hfits, hroom, ?_⟩
          rw [hcache2, hcache1, commitImage, startWrite, if_pos he, applyWrites_append]
          rfl
        · exact absurd hup hdown
      · rw [if_neg he]
        refine .inr ⟨d1, rfl, hfits, hroom, ?_⟩
        rw [hcache1, commitImage, startWrite, if_neg he, List.append_nil]
    · rw [hrun1]
      exact .inl ⟨d1, _, ws, rfl, hsub, fun _ => ⟨hfits, hroom⟩, hview⟩
  · exact .inl (hrefused .enospc (journalCommit_of_no_room hfits hroom))

variable (pattern) in
theorem run_failing_advanceTail (hj : j.Placed) (off seq : UInt64) (d : Flaky UInt64 Block) :
    (∃ d', run (flaky pattern .eio) (journalAdvanceTail j off seq) d =
          ((.ok (), { j with tail := off }), d') ∧
        d'.cache.view = advanceImage j off seq d.cache.view) ∨
      ∃ d', run (flaky pattern .eio) (journalAdvanceTail j off seq) d = ((.error .eio, j), d') ∧
        ¬ UpFor pattern d 2 ∧ (d'.cache.view = d.cache.view ∨ pattern d.answered ≠ .failed false ∧
          d'.cache.view = advanceImage j off seq d.cache.view) := by
  rw [journalAdvanceTail]
  simp only [run_bind]
  rcases run_failing_jsuperWrite hj (if off = j.head then journalEmpty else off) seq d with
    ⟨d1, hrun, -, hcache⟩ | ⟨d1, hrun, hdown, hview⟩
  · exact .inl ⟨d1, by rw [hrun]; rfl, by rw [hcache, view_settled, advanceImage]⟩
  · exact .inr ⟨d1, by rw [hrun]; rfl, hdown, hview⟩

end Programs

/-! ## Runs of calls -/

/-- A transaction with what `logfs_journal_commit` reported of it. -/
structure LiveTxn where
  txn : Transaction
  sequence : UInt64
  descOffset : UInt64

/-- `live` only records the past. -/
structure JournalCalls where
  journal : Journal
  dev : Flaky UInt64 Block
  /-- Committed with 0, and the tail has not been moved past it; oldest first. -/
  live : List LiveTxn

inductive JournalCall
  | commit (t : Transaction)
  /-- The tail goes to the transaction `n` places behind the oldest live one, or to the head. -/
  | advance (n : ℕ)

namespace JournalCalls

/-- The arguments of `logfs_journal_advance_tail` when these transactions remain. -/
def tailFor (j : Journal) : List LiveTxn → UInt64 × UInt64
  | [] => (j.head, j.nextSequence)
  | t :: _ => (t.descOffset, t.sequence)

def step (pattern : ℕ → Outcome) (s : JournalCalls) : JournalCall → Option JournalCalls
  | .commit t =>
      match run (flaky pattern .eio) (journalCommit s.journal t.data t.revoke) s.dev with
      | ((.ok (sequence, descOffset), j), d) => some ⟨j, d, s.live ++ [⟨t, sequence, descOffset⟩]⟩
      | ((.error _, j), d) => some ⟨j, d, s.live⟩
  | .advance n =>
      let newTail := tailFor s.journal (s.live.drop n)
      match run (flaky pattern .eio) (journalAdvanceTail s.journal newTail.1 newTail.2) s.dev with
      | ((.ok (), j), d) => some ⟨j, d, s.live.drop n⟩
      | ((.error _, j), d) => some ⟨j, d, s.live⟩

/-- An empty log, as `logfs_journal_open` or `logfs_journal_recover` leaves it. -/
def start (j : Journal) (img : Image) : JournalCalls := ⟨j, .fresh img, []⟩

end JournalCalls

/-- The journal is at rest on the image: its log is empty, there and in memory. -/
structure AtRest (j : Journal) (img : Image) : Prop where
  placed : j.Placed
  tail_eq : j.tail = j.head
  magic : (jsuperOf img).magic = journalMagic
  start : (jsuperOf img).start = journalEmpty

/-- Recovery of the image, with the log in the region of `j`, finds the transaction and calls the
callback for each of its blocks that no newer transaction revokes. -/
def Replayed (j : Journal) (img : Image) (t : LiveTxn) : Prop :=
  ∀ k, SameRegion j k → ∃ k' d calls,
    run recording (journalRecover k) (settled img, []) = ((.ok (), k'), (d, calls)) ∧
      recoveredTxn t.descOffset.toNat t.sequence t.txn.data ∈ (foundByRecover k img).txns ∧
      ∀ b ∈ t.txn.data, isRevoked (foundByRecover k img).revokes b.targetBlock t.sequence = false →
        (b.targetBlock, b.data) ∈ calls

/-- A commit of `t` in this state either leaves the journal as it is or, when it returns 0, is
replayed after a crash right after it. -/
def JournalCalls.Harmless (pattern : ℕ → Outcome) (s : JournalCalls) (t : Transaction) : Prop :=
  match run (flaky pattern .eio) (journalCommit s.journal t.data t.revoke) s.dev with
  | ((.error _, j), _) =>
      j.head = s.journal.head ∧ j.tail = s.journal.tail ∧ j.nextSequence = s.journal.nextSequence
  | ((.ok (sequence, descOffset), j), d) =>
      ∀ img, Survives d.cache img → Replayed j img ⟨t, sequence, descOffset⟩

/-- The law for all calls, with every pattern of failures. -/
def NoLastingHarm : Prop :=
  ∀ j img pattern s, AtRest j img → Run (JournalCalls.step pattern) (fun _ _ => True) (.start j img) s →
    ∀ t, s.Harmless pattern t

/-- No write or flush of the journal superblock fails: that of a commit into an empty log, and,
unless the write is not taken up at all, that of an advance that empties the log. And transactions
have logged blocks or revokes, not both, and end at a 64-bit offset. -/
def superLands (pattern : ℕ → Outcome) (s : JournalCalls) : JournalCall → Prop
  | .commit t => t.Fits → s.journal.HasRoom t →
      t.Readable ∧ s.journal.head.toNat + t.len < 2 ^ 64 ∧
        (s.journal.tail = s.journal.head → UpFor pattern s.dev (t.len + 2) →
          UpFor pattern s.dev (t.len + 4))
  | .advance n => s.live ≠ [] → s.live.length ≤ n →
      UpFor pattern s.dev 2 ∨ pattern s.dev.answered = .failed false

/-! ## The log between calls -/

section Log
variable {j k : Journal} {img img' : Image} {p q : ℕ} {s : UInt64} {t : Transaction}
  {ts us vs : List Transaction}

theorem StartsAt.congr (h : StartsAt img p s ts) (hsuper : img' jsuperBlockno = img jsuperBlockno) :
    StartsAt img' p s ts := by
  have hjs : jsuperOf img' = jsuperOf img := congrArg JournalSuper.decode hsuper
  exact ⟨hjs ▸ h.magic, hjs ▸ h.start, hjs ▸ h.sequence⟩

theorem DiskLog.congr (h : DiskLog j img p s ts) (hsuper : img' jsuperBlockno = img jsuperBlockno)
    (hlog : ∀ i < logLen ts, img' (slot j (p + i)) = img (slot j (p + i))) : DiskLog j img' p s ts :=
  ⟨h.placed, h.room, h.bound, h.holds.congr hlog, h.starts.congr hsuper⟩

theorem advanceImage_slot (hj : j.Placed) (off seq : UInt64) (n : ℕ) :
    advanceImage j off seq img (slot j n) = img (slot j n) :=
  Function.update_of_ne ((inRegion_slot hj n).ne_jsuper hj) _ _

/-- The log is live under a superblock written from memory, whatever superblock is there. -/
theorem LiveLog.rewritten (h : LiveLog j img' p s ts)
    (hlog : ∀ i < logLen ts, img (slot j (p + i)) = img' (slot j (p + i))) :
    LiveLog j (advanceImage j j.tail s img) p s ts where
  placed := h.placed
  room := h.room
  bound := h.bound
  holds := h.holds.congr fun i hi => by rw [advanceImage_slot h.placed, hlog i hi]
  starts := by
    have hjs : jsuperOf (advanceImage j j.tail s img) =
        { magic := journalMagic, blockSize := 4096, maxlen := j.maxlen, first := j.first,
          sequence := s, start := if j.tail = j.head then journalEmpty else j.tail } := by
      rw [jsuperOf, advanceImage, Function.update_self, decode_jsuperEncode]
    refine ⟨by rw [hjs], ?_, fun _ => by rw [hjs]⟩
    rw [hjs]
    simp only [h.tail_eq_head]
    rw [h.tail_eq]
  tail_eq := h.tail_eq
  head_eq := h.head_eq
  next_eq := h.next_eq

/-- The log is live but for the superblock, which points to the transactions `vs` of it. -/
structure KeptLog (j : Journal) (img : Image) (q : ℕ) (s : UInt64) (us vs : List Transaction) : Prop where
  log : LiveLog j (advanceImage j j.tail s img) q s (us ++ vs)
  disk : DiskLog j img (q + logLen us) (s + UInt64.ofNat us.length) vs
  inside : vs = [] → us = []

namespace KeptLog

theorem of_atRest (h : AtRest j img) : KeptLog j img j.head.toNat j.nextSequence [] [] where
  log := (liveLog_empty h.placed h.tail_eq h.magic h.start).rewritten fun _ _ => rfl
  disk := by simpa using (liveLog_empty h.placed h.tail_eq h.magic h.start).toDiskLog
  inside _ := rfl

/-- Blocks of a commit that failed are behind the log, and none is the superblock. -/
theorem failed (h : KeptLog j img q s us vs) {ws : List (UInt64 × Block)} {r : UInt64}
    (hsub : ws ⊆ logWrites j j.head (t.record r))
    (hfree : ws ≠ [] → j.HasRoom t ∧ j.head.toNat + t.len < 2 ^ 64) :
    KeptLog j (applyWrites img ws) q s us vs := by
  by_cases hws : ws = []
  · rw [hws]
    exact h
  obtain ⟨hroom, hend⟩ := hfree hws
  have hj := h.log.placed
  have hbound := h.log.bound
  have hlap := h.log.hasRoom.mp hroom
  have hhead : j.head.toNat = q + logLen (us ++ vs) := by
    rw [h.log.head_eq, UInt64.toNat_ofNat_of_lt' hbound]
  have hlog : ∀ i < logLen (us ++ vs), applyWrites img ws (slot j (q + i)) = img (slot j (q + i)) := by
    intro i hi
    refine applyWrites_of_untouched (fun w hw he => ?_) img
    have hmem := hsub hw
    rw [h.log.head_eq] at hmem
    obtain ⟨k, hk, hslot, -⟩ := mem_logWrites hmem
    rw [Transaction.length_record] at hk
    rw [hslot] at he
    exact slot_ne hj (m := q + i) (n := q + logLen (us ++ vs) + k) (by omega) (by omega) (by omega)
      he.symm
  have hsuper : applyWrites img ws jsuperBlockno = img jsuperBlockno :=
    applyWrites_of_untouched (fun w hw => (mem_logWrites_inRegion hj (hsub hw)).ne_jsuper hj) img
  refine ⟨h.log.rewritten fun i hi => ?_, h.disk.congr hsuper fun i hi => ?_, h.inside⟩
  · rw [advanceImage_slot hj, hlog i hi]
  · rw [Nat.add_assoc]
    exact hlog _ (by rw [logLen_append]; omega)

/-- A commit appends its transaction, and the superblock points to it or to one before it. -/
theorem commit (h : KeptLog j img q s us vs) (hroom : j.HasRoom t)
    (hend : j.head.toNat + t.len < 2 ^ 64) :
    KeptLog (committed j t) (commitImage j t img) q s us (vs ++ [t]) := by
  have hj := h.log.placed
  have hhead : j.head.toNat = q + logLen (us ++ vs) := by
    rw [h.log.head_eq, UInt64.toNat_ofNat_of_lt' h.log.bound]
  have hlive := h.log.commit hroom (by omega)
  rw [List.append_assoc] at hlive
  have hsame : ∀ n, commitImage j t img (slot j n) =
      commitImage j t (advanceImage j j.tail s img) (slot j n) := by
    intro n
    exact applyWrites_congr (.inr (advanceImage_slot hj _ _ n).symm)
  refine ⟨hlive.rewritten fun i _ => hsame _, ?_, fun he => by simp at he⟩
  by_cases hvs : vs = []
  · obtain rfl := h.inside hvs
    subst hvs
    have hdisk : DiskLog j img q s [] := by simpa using h.disk
    have hfirst : LiveLog j img q s [] := ⟨hdisk, h.log.tail_eq, h.log.head_eq, h.log.next_eq⟩
    rw [hhead, List.append_nil] at hend
    simpa using (hfirst.commit hroom hend).toDiskLog
  · have hholds := (LogHolds.append.mp hlive.holds).2
    have hroom' := hlive.room
    have hbound := hlive.bound
    rw [logLen_append] at hroom' hbound
    refine ⟨hlive.placed, by omega, by omega, hholds.congr fun i _ => hsame _, ?_⟩
    have hne : us ++ vs ≠ [] := fun he => hvs (List.append_eq_nil_iff.mp he).2
    have hstart : startWrite j = [] := by
      rw [startWrite, if_neg]
      exact fun he => hne (h.log.tail_eq_head.mp he)
    have hsuper : commitImage j t img jsuperBlockno = img jsuperBlockno := by
      rw [commitImage, hstart, List.append_nil]
      exact applyWrites_of_untouched (fun w hw => (mem_logWrites_inRegion hj hw).ne_jsuper hj) img
    have hjs : jsuperOf (commitImage j t img) = jsuperOf img := congrArg JournalSuper.decode hsuper
    refine ⟨hjs ▸ h.disk.starts.magic, ?_, fun _ => hjs ▸ h.disk.starts.sequence hvs⟩
    rw [hjs, h.disk.starts.start, if_neg hvs, if_neg (by simp)]

section Advance
variable {ts₀ ts₁ : List Transaction} {off seq : UInt64}

theorem live_advanced (h : KeptLog j img q s us vs) (hts : us ++ vs = ts₀ ++ ts₁)
    (hoff : off = UInt64.ofNat (q + logLen ts₀)) (hseq : seq = s + UInt64.ofNat ts₀.length) :
    LiveLog { j with tail := off } (advanceImage j off seq img) (q + logLen ts₀) seq ts₁ := by
  have hlog := h.log
  rw [hts] at hlog
  have hadv := hlog.advance ts₀ hoff hseq
  rwa [show advanceImage j off seq (advanceImage j j.tail s img) = advanceImage j off seq img from
    Function.update_idem ..] at hadv

/-- The tail has moved past `ts₀`. -/
theorem advanced (h : KeptLog j img q s us vs) (hts : us ++ vs = ts₀ ++ ts₁)
    (hoff : off = UInt64.ofNat (q + logLen ts₀)) (hseq : seq = s + UInt64.ofNat ts₀.length) :
    KeptLog { j with tail := off } (advanceImage j off seq img) (q + logLen ts₀) seq [] ts₁ where
  log := (h.live_advanced hts hoff hseq).rewritten fun _ _ => rfl
  disk := by simpa using (h.live_advanced hts hoff hseq).toDiskLog
  inside _ := rfl

/-- The superblock has moved past `ts₀`, the tail in memory has not. -/
theorem halfAdvanced (h : KeptLog j img q s us vs) (hts : us ++ vs = ts₀ ++ ts₁)
    (hoff : off = UInt64.ofNat (q + logLen ts₀)) (hseq : seq = s + UInt64.ofNat ts₀.length)
    (hinside : ts₁ = [] → ts₀ = []) : KeptLog j (advanceImage j off seq img) q s ts₀ ts₁ where
  log := by
    rw [← hts]
    exact h.log.rewritten fun i _ => by
      rw [advanceImage_slot h.log.placed, advanceImage_slot h.log.placed]
  disk := hseq ▸ (h.live_advanced hts hoff hseq).toDiskLog.to_region ⟨rfl, rfl, rfl⟩
  inside := hinside

end Advance
end KeptLog

/-! ## Recovery after a crash -/

/-- The scan accepts the readable transactions at its start, whatever comes behind. -/
theorem scanAll_readable {fuel : ℕ} (last : UInt64) (hfuel : ts.length ≤ fuel)
    (hfits : ∀ t ∈ ts, t.Fits) (hread : ∀ t ∈ ts, t.Readable) (h : LogHolds j img p s ts) :
    recoveredLog p s ts <+: (scanAll (logView j img) fuel (UInt64.ofNat p) s last).txns := by
  induction ts generalizing fuel p s last with
  | nil => exact List.nil_prefix
  | cons t ts ih =>
      obtain ⟨fuel, rfl⟩ : ∃ k, fuel = k + 1 := ⟨fuel - 1, by simp at hfuel; omega⟩
      have hhead := scanAt_record (hfits t List.mem_cons_self) (hread t List.mem_cons_self) h.1
      have hrest : ts.length ≤ fuel := by simpa using hfuel
      have htail := ih s hrest (fun u hu => hfits u (List.mem_cons_of_mem t hu))
        (fun u hu => hread u (List.mem_cons_of_mem t hu)) h.2
      rw [scanAll, hhead, recoveredLog]
      exact (List.prefix_cons_inj _).mpr htail

theorem recoveredTxn_mem (p : ℕ) (s : UInt64) (vs : List Transaction) (t : Transaction) :
    recoveredTxn (p + logLen vs) (s + UInt64.ofNat vs.length) t.data ∈ recoveredLog p s (vs ++ [t]) := by
  induction vs generalizing p s with
  | nil => simp [recoveredLog]
  | cons v vs ih =>
      rw [List.cons_append, recoveredLog, logLen_cons, List.length_cons, ← seq_succ, ← Nat.add_assoc]
      exact List.mem_cons_of_mem _ (ih _ _)

/-- A found transaction's logged copies are installed, but for the revoked ones. -/
theorem mem_installs {rd : UInt64 → Block} {revokes : List RevokeEntry} {txns : List RecoveredTxn}
    {u : RecoveredTxn} (hu : u ∈ txns) {b off : UInt64} (hb : (b, off) ∈ u.blocks)
    (hrev : isRevoked revokes b u.sequence = false) :
    (b, rd off) ∈ installs rd revokes (loggedCopies txns) := by
  refine List.mem_map.mpr ⟨⟨u.sequence, b, off⟩, List.mem_filter.mpr ⟨?_, by simpa using hrev⟩, rfl⟩
  exact List.mem_flatMap.mpr ⟨u, hu, List.mem_map.mpr ⟨(b, off), hb, rfl⟩⟩

/-- The last transaction of a log is replayed. -/
theorem DiskLog.replayed (h : DiskLog j img p s (vs ++ [t])) (hfits : ∀ u ∈ vs ++ [t], u.Fits)
    (hread : ∀ u ∈ vs ++ [t], u.Readable) :
    Replayed j img ⟨t, s + UInt64.ofNat vs.length, UInt64.ofNat (p + logLen vs)⟩ := by
  intro k hregion
  have hlog := h.to_region hregion
  have hstart := hlog.start_ne_empty (by simp)
  have hlen := length_le_logLen (vs ++ [t])
  have hroom := hlog.room
  have hbound := hlog.bound
  rw [logLen_append] at hbound
  have hoff : (UInt64.ofNat (p + logLen vs)).toNat = p + logLen vs :=
    UInt64.toNat_ofNat_of_lt' (show p + logLen vs < 18446744073709551616 by omega)
  have hfound : recoveredTxn (p + logLen vs) (s + UInt64.ofNat vs.length) t.data ∈
      (foundByRecover k img).txns := by
    rw [foundByRecover, if_neg hstart, scanPassAt, hlog.starts.start, if_neg (by simp),
      hlog.starts.sequence (by simp)]
    exact (scanAll_readable _ (by omega) hfits hread hlog.holds).subset (recoveredTxn_mem p s vs t)
  have hrun := run_recover_recording hlog.placed (c := settled img) [] hlog.starts.magic
  refine ⟨_, _, _, hrun, by rwa [hoff], fun b hb hrev => ?_⟩
  obtain ⟨i, hi⟩ := List.mem_iff_getElem?.mp hb
  have hcopy : (b.targetBlock, UInt64.ofNat (p + logLen vs + 1 + i)) ∈
      (recoveredTxn (p + logLen vs) (s + UInt64.ofNat vs.length) t.data).blocks := by
    refine List.mem_iff_getElem?.mpr ⟨i, ?_⟩
    simp [recoveredTxn, hi]
  have hdata : logView k img (UInt64.ofNat (p + logLen vs + 1 + i)) = b.data :=
    logView_data (hread t (by simp)) (LogHolds.append.mp hlog.holds).2.1 hi
  rw [List.nil_append, view_settled, installsOf, ← hdata]
  exact mem_installs hfound hcopy hrev

end Log

/-! ## The law -/

/-- What the commits of a log beginning at position `p` with number `s` reported. -/
def reported : ℕ → UInt64 → List Transaction → List LiveTxn
  | _, _, [] => []
  | p, s, t :: ts => ⟨t, s, UInt64.ofNat p⟩ :: reported (p + t.len) (s + 1) ts

theorem reported_append (p : ℕ) (s : UInt64) (ts us : List Transaction) :
    reported p s (ts ++ us) =
      reported p s ts ++ reported (p + logLen ts) (s + UInt64.ofNat ts.length) us := by
  induction ts generalizing p s with
  | nil => simp [reported]
  | cons t ts ih =>
      simp only [List.cons_append, reported, ih, logLen_cons, List.length_cons, ← seq_succ, Nat.add_assoc]

theorem length_reported (p : ℕ) (s : UInt64) (ts : List Transaction) :
    (reported p s ts).length = ts.length := by
  induction ts generalizing p s with
  | nil => rfl
  | cons t ts ih => rw [reported, List.length_cons, ih, List.length_cons]

theorem reported_drop (p : ℕ) (s : UInt64) (ts : List Transaction) (n : ℕ) :
    (reported p s ts).drop n =
      reported (p + logLen (ts.take n)) (s + UInt64.ofNat (ts.take n).length) (ts.drop n) := by
  have hall := reported_append p s (ts.take n) (ts.drop n)
  rw [List.take_append_drop] at hall
  by_cases hn : n ≤ ts.length
  · rw [hall, List.drop_left' (by rw [length_reported, List.length_take]; omega)]
  · rw [List.drop_eq_nil_of_le (by rw [length_reported]; omega),
      List.drop_eq_nil_of_le (by omega : ts.length ≤ n)]
    rfl

theorem tailFor_reported {j : Journal} {img : Image} {q : ℕ} {s : UInt64} {ts : List Transaction}
    (h : LiveLog j img q s ts) (n : ℕ) :
    JournalCalls.tailFor j ((reported q s ts).drop n) =
      (UInt64.ofNat (q + logLen (ts.take n)), s + UInt64.ofNat (ts.take n).length) := by
  rw [reported_drop]
  cases hdrop : ts.drop n with
  | nil =>
      have htake : ts.take n = ts := List.take_of_length_le (List.drop_eq_nil_iff.mp hdrop)
      rw [reported, JournalCalls.tailFor, htake, h.head_eq, h.next_eq]
  | cons t rest => rfl

structure JournalCalls.Ok (s : JournalCalls) (q : ℕ) (r : UInt64) (us vs : List Transaction) : Prop where
  kept : KeptLog s.journal s.dev.cache.view q r us vs
  live : s.live = reported q r (us ++ vs)
  fits : ∀ t ∈ us ++ vs, t.Fits
  readable : ∀ t ∈ us ++ vs, t.Readable

namespace JournalCalls.Ok
variable {pattern : ℕ → Outcome} {s s' : JournalCalls} {q : ℕ} {r : UInt64} {us vs : List Transaction}
  {t : Transaction} {n : ℕ}

theorem head_toNat (h : s.Ok q r us vs) : s.journal.head.toNat = q + logLen (us ++ vs) := by
  rw [h.kept.log.head_eq, UInt64.toNat_ofNat_of_lt' h.kept.log.bound]

/-- The two outcomes of a commit the guard allows, and the log after each of them. -/
theorem commit (h : s.Ok q r us vs) (hok : superLands pattern s (.commit t)) :
    (∃ d e, run (flaky pattern .eio) (journalCommit s.journal t.data t.revoke) s.dev =
          ((.error e, s.journal), d) ∧ Ok ⟨s.journal, d, s.live⟩ q r us vs) ∨
      ∃ d, run (flaky pattern .eio) (journalCommit s.journal t.data t.revoke) s.dev =
          ((.ok (s.journal.nextSequence, s.journal.head), committed s.journal t), d) ∧
        d.cache = settled (commitImage s.journal t s.dev.cache.view) ∧
        Ok ⟨committed s.journal t, d, s.live ++ [⟨t, s.journal.nextSequence, s.journal.head⟩]⟩
          q r us (vs ++ [t]) := by
  rcases run_failing_journalCommit h.kept.log.placed t s.dev
    (fun hfits hroom => (hok hfits hroom).2.2) with
    ⟨d, e, ws, hrun, hsub, hfree, hview⟩ | ⟨d, hrun, hfits, hroom, hcache⟩
  · refine .inl ⟨d, e, hrun, ?_, h.live, h.fits, h.readable⟩
    change KeptLog s.journal d.cache.view q r us vs
    rw [hview]
    exact h.kept.failed hsub fun hne =>
      ⟨(hfree hne).2, (hok (hfree hne).1 (hfree hne).2).2.1⟩
  · obtain ⟨hread, hend, -⟩ := hok hfits hroom
    refine .inr ⟨d, hrun, hcache, ?_, ?_, ?_, ?_⟩
    · change KeptLog (committed s.journal t) d.cache.view q r us (vs ++ [t])
      rw [hcache, view_settled]
      exact h.kept.commit hroom hend
    · rw [← List.append_assoc, reported_append, ← h.live, h.kept.log.next_eq, h.kept.log.head_eq]
      rfl
    · rw [← List.append_assoc, List.forall_mem_append]
      exact ⟨h.fits, List.forall_mem_singleton.mpr hfits⟩
    · rw [← List.append_assoc, List.forall_mem_append]
      exact ⟨h.readable, List.forall_mem_singleton.mpr hread⟩

theorem harmless (h : s.Ok q r us vs) (hok : superLands pattern s (.commit t)) :
    s.Harmless pattern t := by
  rcases h.commit hok with ⟨d, e, hrun, -⟩ | ⟨d, hrun, hcache, hnext⟩
  · rw [Harmless, hrun]
    exact ⟨rfl, rfl, rfl⟩
  · rw [Harmless, hrun]
    intro img hsurv
    rw [hcache, survives_settled] at hsurv
    have hdisk := hnext.kept.disk
    rw [hcache, view_settled, ← hsurv] at hdisk
    have hreplayed := hdisk.replayed (fun u hu => hnext.fits u (List.mem_append_right us hu))
      fun u hu => hnext.readable u (List.mem_append_right us hu)
    rw [Nat.add_assoc, ← logLen_append, ← h.kept.log.head_eq, UInt64.add_assoc, ← UInt64.ofNat_add,
      ← List.length_append, ← h.kept.log.next_eq] at hreplayed
    exact hreplayed

theorem drop (h : s.Ok q r us vs) {j : Journal} {d : Flaky UInt64 Block} {q' : ℕ} {r' : UInt64}
    (hq : q' = q + logLen ((us ++ vs).take n)) (hr : r' = r + UInt64.ofNat ((us ++ vs).take n).length)
    (hkept : KeptLog j d.cache.view q' r' [] ((us ++ vs).drop n)) :
    Ok ⟨j, d, s.live.drop n⟩ q' r' [] ((us ++ vs).drop n) where
  kept := hkept
  live := by rw [h.live, reported_drop, hq, hr, List.nil_append]
  fits t ht := h.fits t (List.mem_of_mem_drop ht)
  readable t ht := h.readable t (List.mem_of_mem_drop ht)

theorem advance (h : s.Ok q r us vs) (hok : superLands pattern s (.advance n))
    (hstep : s.step pattern (.advance n) = some s') : ∃ q r us vs, s'.Ok q r us vs := by
  have hts := (List.take_append_drop n (us ++ vs)).symm
  have htail := tailFor_reported h.kept.log n
  rw [← h.live] at htail
  rcases run_failing_advanceTail pattern h.kept.log.placed
    (tailFor s.journal (s.live.drop n)).1 (tailFor s.journal (s.live.drop n)).2 s.dev with
    ⟨d, hrun, hview⟩ | ⟨d, hrun, hdown, hview⟩
  · simp only [step, hrun, Option.some.injEq] at hstep
    subst hstep
    refine ⟨_, _, _, _, h.drop rfl rfl ?_⟩
    rw [htail] at hview ⊢
    rw [hview]
    exact h.kept.advanced hts rfl rfl
  · simp only [step, hrun, Option.some.injEq] at hstep
    subst hstep
    rcases hview with hview | ⟨htaken, hview⟩
    · refine ⟨q, r, us, vs, ?_, h.live, h.fits, h.readable⟩
      change KeptLog s.journal d.cache.view q r us vs
      exact hview ▸ h.kept
    · refine ⟨q, r, (us ++ vs).take n, (us ++ vs).drop n, ?_, ?_, ?_, ?_⟩
      · change KeptLog s.journal d.cache.view q r _ _
        rw [hview, htail]
        refine h.kept.halfAdvanced hts rfl rfl fun hnil => ?_
        -- otherwise the superblock would say that the log is empty, and memory that it is not
        by_contra hne
        have hlen : s.live.length = (us ++ vs).length := by rw [h.live, length_reported]
        have hlive : s.live ≠ [] := by
          intro he
          rw [he, List.length_nil] at hlen
          exact hne (by rw [List.eq_nil_of_length_eq_zero hlen.symm, List.take_nil])
        rcases hok hlive (by rw [hlen]; exact List.drop_eq_nil_iff.mp hnil) with hup | hfailed
        · exact hdown hup
        · exact htaken hfailed
      · rw [← hts]
        exact h.live
      · rw [← hts]
        exact h.fits
      · rw [← hts]
        exact h.readable

theorem step (h : s.Ok q r us vs) {a : JournalCall} (hok : superLands pattern s a)
    (hstep : s.step pattern a = some s') : ∃ q r us vs, s'.Ok q r us vs := by
  cases a with
  | advance n => exact h.advance hok hstep
  | commit t =>
      rcases h.commit hok with ⟨d, e, hrun, hnext⟩ | ⟨d, hrun, -, hnext⟩
      · simp only [JournalCalls.step, hrun, Option.some.injEq] at hstep
        exact ⟨_, _, _, _, hstep ▸ hnext⟩
      · simp only [JournalCalls.step, hrun, Option.some.injEq] at hstep
        exact ⟨_, _, _, _, hstep ▸ hnext⟩

theorem start {j : Journal} {img : Image} (h : AtRest j img) :
    (JournalCalls.start j img).Ok j.head.toNat j.nextSequence [] [] :=
  ⟨.of_atRest h, rfl, fun _ ht => absurd ht List.not_mem_nil, fun _ ht => absurd ht List.not_mem_nil⟩

end JournalCalls.Ok

/-- When the superblock's write and flush do not fail, no failed commit does lasting harm. -/
theorem noLastingHarm_of_superLands {j : Journal} {img : Image} {pattern : ℕ → Outcome} {s : JournalCalls}
    (hrest : AtRest j img) (hrun : Run (JournalCalls.step pattern) (superLands pattern) (.start j img) s)
    {t : Transaction} (hok : superLands pattern s (.commit t)) : s.Harmless pattern t := by
  have hinv : ∃ q r us vs, s.Ok q r us vs := by
    refine hrun.invariant (I := fun s => ∃ q r us vs, s.Ok q r us vs) ⟨_, _, _, _, .start hrest⟩ ?_
    rintro s s' a hguard hnow ⟨q, r, us, vs, h⟩
    exact h.step hguard hnow
  obtain ⟨q, r, us, vs, h⟩ := hinv
  exact h.harmless hok

theorem atRest_tiny : AtRest tinyJournal tinyImage where
  placed := ⟨by decide, by decide, by decide⟩
  tail_eq := rfl
  magic := by simp [jsuperOf, tinyImage]
  start := by simp [jsuperOf, tinyImage]

def oneBlock (b : UInt64) : Transaction := ⟨[⟨b, zeroBlock⟩], []⟩

/-- The device fails at one operation, the `n`-th. -/
def failsAt (n : ℕ) : ℕ → Outcome := fun i => if i = n then .failed false else .done

instance (t : Transaction) : Decidable t.Fits :=
  decidable_of_iff (t.data.length ≤ maxTagsPerDesc ∧ t.revoke.length ≤ maxRevokesPerBlock)
    ⟨fun h => ⟨h.1, h.2⟩, fun h => ⟨h.data_le, h.revoke_le⟩⟩

instance (j : Journal) (t : Transaction) : Decidable (j.HasRoom t) := by
  unfold Journal.HasRoom; infer_instance

instance (pattern : ℕ → Outcome) (s : JournalCalls) (a : JournalCall) : Decidable (superLands pattern s a) := by
  cases a <;> unfold superLands <;> infer_instance

/-- The first commit fails at its logged block, the second returns 0. -/
theorem noLastingHarm_of_superLands_tiny :
    ∃ s : JournalCalls, (s.live.map fun t => (t.sequence, t.descOffset)) = [(1, 0)] ∧
      s.Harmless (failsAt 1) (oneBlock 22) := by
  obtain ⟨s, hrun, hstate⟩ := exists_run_of_exec (JournalCalls.step (failsAt 1)) (superLands (failsAt 1))
    (.start tinyJournal tinyImage) [.commit (oneBlock 20), .commit (oneBlock 21)]
    (fun s => decide ((s.live.map fun t => (t.sequence, t.descOffset)) = [(1, 0)]) &&
      decide (superLands (failsAt 1) s (.commit (oneBlock 22)))) (by decide +kernel)
  rw [Bool.and_eq_true, decide_eq_true_eq, decide_eq_true_eq] at hstate
  exact ⟨s, hstate.1, noLastingHarm_of_superLands atRest_tiny hrun hstate.2⟩

/-- The superblock's write fails in the commit that ends the log's empty state: head and sequence
number have moved on, and the next commit, which returns 0, is not found. -/
theorem not_noLastingHarm : ¬ NoLastingHarm ∧
    ∃ s, Run (JournalCalls.step (failsAt 5)) (fun _ _ => True) (.start tinyJournal tinyImage) s ∧
      s.journal.head = 3 ∧ s.live = [] ∧ ¬ s.Harmless (failsAt 5) (oneBlock 21) := by
  constructor
  · intro h
    have hharm := h tinyJournal tinyImage (failsAt 5) _ atRest_tiny .init (oneBlock 20)
    exact absurd hharm.1 (by decide)
  · refine ⟨_, .next .init (a := .commit (oneBlock 20)) trivial rfl, rfl, rfl, fun hharm => ?_⟩
    obtain ⟨k, d, calls, -, hfound, -⟩ := hharm _ (survives_view _) tinyJournal ⟨rfl, rfl, rfl⟩
    rw [foundByRecover, if_pos (by decide +kernel)] at hfound
    simp at hfound

end Logfs
