import Logfs.LogRecord

/-!
# Logs of several transactions

Transactions laid out one after the other, the scan over them, and the two
programs that write and read them: `logfs_journal_commit` and
`logfs_journal_recover` on a device that does not fail.
-/
namespace Logfs
open Interaction WriteCache ByteBuffer

structure Transaction where
  data : List PendingBlock
  revoke : List UInt64

namespace Transaction

def len (t : Transaction) : ℕ := recordLen t.data.length t.revoke.length

def Fits (t : Transaction) : Prop := Logfs.Fits t.data t.revoke

/-- Writer and reader agree on where the blocks of such a transaction are. -/
def Readable (t : Transaction) : Prop := t.data = [] ∨ t.revoke = []

instance (t : Transaction) : Decidable t.Readable := by
  unfold Readable
  exact decidable_of_iff (t.data.length = 0 ∨ t.revoke.length = 0) (by simp)

/-- No logged content begins with a record magic. -/
def Plain (t : Transaction) : Prop := ∀ d ∈ t.data, ¬ IsRecord d.data

def record (s : UInt64) (t : Transaction) : List Block := Logfs.record s t.data t.revoke

@[simp] theorem length_record (s : UInt64) (t : Transaction) : (t.record s).length = t.len :=
  Logfs.length_record s t.data t.revoke

theorem len_pos (t : Transaction) : 2 ≤ t.len := by
  unfold len recordLen
  omega

end Transaction

def logLen (ts : List Transaction) : ℕ := (ts.map Transaction.len).sum

@[simp] theorem logLen_nil : logLen [] = 0 := rfl

@[simp] theorem logLen_cons (t : Transaction) (ts : List Transaction) :
    logLen (t :: ts) = t.len + logLen ts := by
  simp [logLen]

@[simp] theorem logLen_append (ts us : List Transaction) :
    logLen (ts ++ us) = logLen ts + logLen us := by
  simp [logLen]

theorem length_le_logLen (ts : List Transaction) : 2 * ts.length ≤ logLen ts := by
  induction ts with
  | nil => simp
  | cons t ts ih =>
      have ht := t.len_pos
      simp only [List.length_cons, logLen_cons]
      omega

/-- The transactions stand one after the other from position `p` on, numbered from `s` on. -/
def LogHolds (j : Journal) (img : Image) : ℕ → UInt64 → List Transaction → Prop
  | _, _, [] => True
  | p, s, t :: ts => HoldsAt j img p (t.record s) ∧ LogHolds j img (p + t.len) (s + 1) ts

def recoveredLog : ℕ → UInt64 → List Transaction → List RecoveredTxn
  | _, _, [] => []
  | p, s, t :: ts => recoveredTxn p s t.data :: recoveredLog (p + t.len) (s + 1) ts

def recoveredLogRevokes : UInt64 → List Transaction → List RevokeEntry
  | _, [] => []
  | s, t :: ts => recoveredRevokes s t.revoke ++ recoveredLogRevokes (s + 1) ts

/-- The last sequence number accepted, `last` when none is. -/
def lastSeq : UInt64 → UInt64 → List Transaction → UInt64
  | _, last, [] => last
  | s, _, _ :: ts => lastSeq (s + 1) s ts

theorem length_recoveredLog (p : ℕ) (s : UInt64) (ts : List Transaction) :
    (recoveredLog p s ts).length = ts.length := by
  induction ts generalizing p s with
  | nil => rfl
  | cons t ts ih => simp [recoveredLog, ih]

theorem seq_succ (s : UInt64) (n : ℕ) :
    s + 1 + UInt64.ofNat n = s + UInt64.ofNat (n + 1) := by
  rw [UInt64.ofNat_add, UInt64.add_assoc, UInt64.add_comm (UInt64.ofNat n)]
  rfl

theorem lastSeq_succ {s last : UInt64} {ts : List Transaction} (h : ts ≠ [] ∨ last + 1 = s) :
    lastSeq s last ts + 1 = s + UInt64.ofNat ts.length := by
  induction ts generalizing s last with
  | nil => simpa [lastSeq] using h
  | cons t ts ih => rw [lastSeq, ih (.inr rfl), seq_succ, List.length_cons]

variable {j : Journal} {img : Image}

theorem LogHolds.append {p : ℕ} {s : UInt64} {ts us : List Transaction} :
    LogHolds j img p s (ts ++ us) ↔
      LogHolds j img p s ts ∧ LogHolds j img (p + logLen ts) (s + UInt64.ofNat ts.length) us := by
  induction ts generalizing p s with
  | nil => simp [LogHolds]
  | cons t ts ih =>
      simp only [List.cons_append, LogHolds, ih, logLen_cons, List.length_cons, ← seq_succ,
        and_assoc, Nat.add_assoc]

theorem LogHolds.congr {img' : Image} {p : ℕ} {s : UInt64} {ts : List Transaction}
    (h : LogHolds j img p s ts) (he : ∀ i < logLen ts, img' (slot j (p + i)) = img (slot j (p + i))) :
    LogHolds j img' p s ts := by
  induction ts generalizing p s with
  | nil => trivial
  | cons t ts ih =>
      simp only [logLen_cons] at he
      refine ⟨h.1.congr fun i hi => he i (by simp at hi; omega), ih h.2 fun i hi => ?_⟩
      have := he (t.len + i) (by omega)
      rwa [← Nat.add_assoc] at this

/-- Writing at the head leaves the transactions less than a lap behind it alone. -/
theorem LogHolds.of_logWrites (hj : j.Placed) {p q : ℕ} {s : UInt64} {ts : List Transaction}
    {bs : List Block} (h : LogHolds j img q s ts) (hbefore : q + logLen ts ≤ p)
    (hlap : p + bs.length ≤ q + j.maxlen.toNat) (hp : p + bs.length ≤ 2 ^ 64) :
    LogHolds j (applyWrites img (logWrites j (UInt64.ofNat p) bs)) q s ts := by
  apply h.congr
  intro i hi
  apply applyWrites_of_untouched
  intro w hw he
  obtain ⟨k, hk, hslot, -⟩ := mem_logWrites hw
  rw [hslot] at he
  exact slot_ne hj (m := q + i) (n := p + k) (by omega) (by omega) (by omega) he.symm

/-! ## The scan -/

theorem scanAt_record {p : ℕ} {s : UInt64} {t : Transaction} (hfits : t.Fits)
    (hread : t.Readable) (h : HoldsAt j img p (t.record s)) :
    scanAt (logView j img) (UInt64.ofNat p) s =
      some ⟨recoveredTxn p s t.data, recoveredRevokes s t.revoke, UInt64.ofNat (p + t.len)⟩ := by
  obtain ⟨data, revoke⟩ := t
  by_cases hrevoke : revoke = []
  · subst hrevoke
    exact scanAt_record_data hfits.data_le h
  · obtain rfl : data = [] := hread.resolve_right hrevoke
    exact scanAt_record_revoke hfits.revoke_le (List.length_pos_iff.mpr hrevoke) h

/-- The scan accepts exactly the readable transactions up to the first position where
one iteration breaks. -/
theorem scanAll_log {fuel p : ℕ} {s : UInt64} (last : UInt64) {ts : List Transaction}
    (hfuel : ts.length < fuel) (hfits : ∀ t ∈ ts, t.Fits) (hread : ∀ t ∈ ts, t.Readable)
    (h : LogHolds j img p s ts)
    (hend : scanAt (logView j img) (UInt64.ofNat (p + logLen ts))
      (s + UInt64.ofNat ts.length) = none) :
    scanAll (logView j img) fuel (UInt64.ofNat p) s last =
      ⟨recoveredLog p s ts, recoveredLogRevokes s ts, UInt64.ofNat (p + logLen ts),
        lastSeq s last ts⟩ := by
  induction ts generalizing fuel p s last with
  | nil =>
      obtain ⟨fuel, rfl⟩ : ∃ k, fuel = k + 1 := ⟨fuel - 1, by simp at hfuel; omega⟩
      simp only [logLen_nil, List.length_nil, Nat.add_zero] at hend
      have hend' : scanAt (logView j img) (UInt64.ofNat p) s = none := by simpa using hend
      simp [scanAll, hend', recoveredLog, recoveredLogRevokes, lastSeq]
  | cons t ts ih =>
      obtain ⟨fuel, rfl⟩ : ∃ k, fuel = k + 1 := ⟨fuel - 1, by simp at hfuel; omega⟩
      have hhead := scanAt_record (hfits t List.mem_cons_self) (hread t List.mem_cons_self) h.1
      simp only [List.length_cons, logLen_cons, ← seq_succ, ← Nat.add_assoc] at hend hfuel
      have htail := ih s (show ts.length < fuel by omega) (fun u hu => hfits u (List.mem_cons_of_mem t hu))
        (fun u hu => hread u (List.mem_cons_of_mem t hu)) h.2 hend
      rw [scanAll, hhead]
      simp only [recoveredTxn] at htail ⊢
      rw [htail]
      simp [recoveredLog, recoveredLogRevokes, lastSeq, recoveredTxn, Nat.add_assoc]

/-! ## Commit -/

theorem logWrites_append (j : Journal) (cursor : UInt64) (as bs : List Block) :
    logWrites j cursor (as ++ bs) =
      logWrites j cursor as ++ logWrites j (cursor + UInt64.ofNat as.length) bs := by
  induction as generalizing cursor with
  | nil => simp [logWrites]
  | cons a as ih => rw [List.cons_append, logWrites, ih, seq_succ]; rfl

/-- The journal after a commit that returned 0. -/
def committed (j : Journal) (t : Transaction) : Journal :=
  { j with head := j.head + UInt64.ofNat t.len, nextSequence := j.nextSequence + 1 }

/-- The superblock write of the commit that ends the log's empty state. -/
def startWrite (j : Journal) : List (UInt64 × Block) :=
  if j.tail = j.head then [(jsuperBlockno, jsuperEncode j j.head j.nextSequence)] else []

def commitImage (j : Journal) (t : Transaction) (img : Image) : Image :=
  applyWrites img (logWrites j j.head (t.record j.nextSequence) ++ startWrite j)

theorem mem_logWrites_inRegion (hj : j.Placed) {cursor : UInt64} {bs : List Block}
    {w : UInt64 × Block} (hw : w ∈ logWrites j cursor bs) : InRegion j w.1 := by
  induction bs generalizing cursor with
  | nil => simp [logWrites] at hw
  | cons b bs ih =>
      rcases List.mem_cons.mp hw with rfl | hw
      · exact inRegion_physOf hj cursor
      · exact ih hw

/-- A commit writes to the region and the journal superblock only. -/
theorem commitImage_home (hj : j.Placed) {t : Transaction} {img : Image} {b : UInt64}
    (hb : Home j b) : commitImage j t img b = img b := by
  refine applyWrites_of_untouched (fun w hw he => ?_) img
  rcases List.mem_append.mp hw with hw | hw
  · exact hb.2 (he ▸ mem_logWrites_inRegion hj hw)
  · unfold startWrite at hw
    split at hw
    · rw [List.mem_singleton.mp hw] at he
      exact hb.1 he.symm
    · simp at hw

theorem run_writeTransaction (hj : j.Placed) (t : Transaction) (c : Disk) :
    run faultless (writeTransaction j t.data t.revoke).run c =
      (.ok (j.head + UInt64.ofNat t.len),
        settled (applyWrites c.view (logWrites j j.head (t.record j.nextSequence)))) := by
  have hlen := length_logBlocks j.nextSequence t.data t.revoke
  rw [writeTransaction, run_except_bind, run_writeBlocks c hj]
  simp only [run_except_bind, run_bdevFlush, run_writeLogical _ hj]
  have hend : j.head + UInt64.ofNat (logBlocks j.nextSequence t.data t.revoke).length + 1 =
      j.head + UInt64.ofNat t.len := by
    rw [Transaction.len, ← hlen, UInt64.ofNat_add, ← UInt64.add_assoc]
    rfl
  simp only [ExceptT.run_pure, Prog.pure_eq, run_ret, hend, Cache.flush, view_write, view_writes,
    view_settled, Transaction.record, record, logWrites_append, applyWrites_append]
  rfl

/-- There is room for the transaction in the free part of the region. -/
def Journal.HasRoom (j : Journal) (t : Transaction) : Prop :=
  t.len ≤ (journalFreeSpace j).toNat

/-! ### What a commit tests first -/

section Tests
variable {t : Transaction}

theorem spaceNeeded_eq_len (hfits : t.Fits) :
    (journalSpaceNeeded t.data.length t.revoke.length).toNat = t.len := toNat_journalSpaceNeeded hfits

theorem spaceNeeded_ne_zero (hfits : t.Fits) : journalSpaceNeeded t.data.length t.revoke.length ≠ 0 := by
  intro hzero
  have hneed := spaceNeeded_eq_len hfits
  have hlen := t.len_pos
  rw [hzero, UInt64.toNat_zero] at hneed
  omega

theorem space_iff_hasRoom (hfits : t.Fits) :
    ¬ journalFreeSpace j < journalSpaceNeeded t.data.length t.revoke.length ↔ j.HasRoom t := by
  rw [UInt64.lt_iff_toNat_lt, spaceNeeded_eq_len hfits, Nat.not_lt, Journal.HasRoom]

theorem journalCommit_of_not_fits (hfits : ¬ t.Fits) :
    journalCommit j t.data t.revoke = .ret (.error .einval, j) := by
  have hbig : maxTagsPerDesc < t.data.length ∨ maxRevokesPerBlock < t.revoke.length := by
    by_contra hsmall
    push Not at hsmall
    exact hfits ⟨hsmall.1, hsmall.2⟩
  rw [journalCommit, journalSpaceNeeded, if_pos hbig]
  rfl

/-- With too little room a commit writes nothing. -/
theorem journalCommit_of_no_room (hfits : t.Fits) (hroom : ¬ j.HasRoom t) :
    journalCommit j t.data t.revoke = .ret (.error .enospc, j) := by
  have hfull := not_not.mp (mt (space_iff_hasRoom hfits).mp hroom)
  rw [journalCommit, if_neg (spaceNeeded_ne_zero hfits), if_pos hfull]
  rfl

/-- A commit that returned 0 had a transaction of at most one descriptor, and room for it. -/
theorem fits_of_journalCommit {c d : Disk} {j' : Journal} {r : UInt64 × UInt64}
    (hok : run faultless (journalCommit j t.data t.revoke) c = ((.ok r, j'), d)) :
    t.Fits ∧ j.HasRoom t := by
  by_cases hfits : t.Fits
  · refine ⟨hfits, ?_⟩
    by_contra hroom
    rw [journalCommit_of_no_room hfits hroom] at hok
    cases hok
  · rw [journalCommit_of_not_fits hfits] at hok
    cases hok

end Tests

theorem run_journalCommit (hj : j.Placed) {t : Transaction} (hfits : t.Fits) (hroom : j.HasRoom t)
    (c : Disk) :
    run faultless (journalCommit j t.data t.revoke) c =
      ((.ok (j.nextSequence, j.head), committed j t), settled (commitImage j t c.view)) := by
  have hspace := (space_iff_hasRoom hfits).mpr hroom
  rw [journalCommit]
  simp only [if_neg (spaceNeeded_ne_zero hfits), if_neg hspace, run_bind, run_writeTransaction hj, run_ite,
    Prog.pure_eq, run_ret]
  by_cases he : j.tail = j.head
  · have hj' : (committed j t).Placed := ⟨hj.maxlen_pos, hj.fits, hj.after_jsuper⟩
    rw [if_pos he, ← committed, run_jsuperWrite _ hj']
    simp [commitImage, startWrite, he, applyWrites_append, Cache.flush, jsuperEncode, committed]
  · rw [if_neg he]
    simp [commitImage, startWrite, he, committed]

theorem run_journalAdvanceTail (hj : j.Placed) (off seq : UInt64) (c : Disk) :
    run faultless (journalAdvanceTail j off seq) c =
      ((.ok (), { j with tail := off }),
        (c.write jsuperBlockno (jsuperEncode j (if off = j.head then journalEmpty else off) seq)).flush)
      := by
  rw [journalAdvanceTail]
  simp only [run_bind, run_jsuperWrite c hj]
  rfl

end Logfs
