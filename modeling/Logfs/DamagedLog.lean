import Logfs.RecordFormat

/-!
# Recovery of a damaged log

One transaction of a log is damaged after it was committed: its commit block is
overwritten with something that is not its commit record, or some of its logged blocks
with contents of another checksum. `logfs_journal_recover` goes as far as that
transaction and takes up the log there.
-/
namespace Logfs
open Interaction WriteCache ByteBuffer

variable {j : Journal} {img img' : Image} {p : ℕ} {s : UInt64} {t : Transaction}

/-- `b` is a commit record with this sequence number and checksum. -/
def IsCommitRecord (s : UInt64) (sum : UInt32) (b : Block) : Prop :=
  (CommitBlock.decode b).magic = commitMagic ∧ (CommitBlock.decode b).sequence = s ∧
    (CommitBlock.decode b).checksum = sum

/-- The checksum of a transaction without revokes whose logged blocks are `data`. -/
def dataChecksum (s : UInt64) (t : Transaction) (data : List Block) : UInt32 :=
  checksumTransaction (descBuf s t.data) none data

/-- The ways to damage the transaction whose descriptor is at position `p`. -/
inductive Damages (j : Journal) (p : ℕ) (s : UInt64) (t : Transaction) (img : Image) : Image → Prop
  | commit {b : Block} (hrevoke : magicOf b ≠ revokeMagic)
      (hcommit : ¬ IsCommitRecord s (dataChecksum s t (t.data.map (·.data))) b) :
      Damages j p s t img (Function.update img (slot j (p + 1 + t.data.length)) b)
  | data {bs : List Block} (hlen : bs.length = t.data.length)
      (hsum : dataChecksum s t bs ≠ dataChecksum s t (t.data.map (·.data))) :
      Damages j p s t img (applyWrites img (logWrites j (UInt64.ofNat (p + 1)) bs))

/-! ## The damaged record -/

theorem record_of_noRevoke (hrevoke : t.revoke = []) :
    t.record s = [descBuf s t.data] ++ t.data.map (·.data) ++ [commitBuf s t.data t.revoke] := by
  simp [Transaction.record, record, logBlocks, hrevoke, revokeBuf]

theorem len_of_noRevoke (hrevoke : t.revoke = []) : t.len = t.data.length + 2 := by
  simp only [Transaction.len, recordLen, hrevoke, List.length_nil, Nat.lt_irrefl, if_false]
  omega

theorem isCommitRecord_commitBuf {sum : UInt32} (hrevoke : t.revoke = []) :
    IsCommitRecord s sum (commitBuf s t.data t.revoke) ↔
      dataChecksum s t (t.data.map (·.data)) = sum := by
  simp [IsCommitRecord, hrevoke, revokeBuf, dataChecksum]

/-- Other contents in the place of the logged blocks leave the rest of the record as it was. -/
theorem holdsAt_altered (hj : j.Placed) (hrevoke : t.revoke = []) (hlap : t.len ≤ j.maxlen.toNat)
    (hbound : p + t.len < 2 ^ 64) (h : HoldsAt j img p (t.record s)) {bs : List Block}
    (hlen : bs.length = t.data.length) :
    HoldsAt j (applyWrites img (logWrites j (UInt64.ofNat (p + 1)) bs)) p
      ([descBuf s t.data] ++ bs ++ [commitBuf s t.data t.revoke]) := by
  rw [len_of_noRevoke hrevoke] at hlap hbound
  rw [record_of_noRevoke hrevoke] at h
  have hfst := (HoldsAt.append.mp (HoldsAt.append.mp h).1).1
  refine HoldsAt.append.mpr ⟨HoldsAt.append.mpr ⟨?_, ?_⟩, ?_⟩
  · exact hfst.of_logWrites hj (by simp) (by omega) (by omega)
  · exact holdsAt_logWrites hj (by omega) (by omega)
  · have hlast := (HoldsAt.append.mp h).2
    simp only [List.length_append, List.length_singleton, List.length_map, hlen] at hlast ⊢
    refine hlast.congr fun i hi => applyWrites_of_untouched (fun w hw he => ?_) img
    obtain ⟨k, hk, hslot, -⟩ := mem_logWrites hw
    simp only [List.length_singleton] at hi
    rw [hslot] at he
    exact slot_ne hj (by omega) (by omega) (by omega) he

/-- What stands where the transaction was: its descriptor, some blocks, and something that is
neither a revoke block nor the commit record of that descriptor and those blocks. -/
theorem Damages.holds (hd : Damages j p s t img img') (hj : j.Placed) (hrevoke : t.revoke = [])
    (hlap : t.len ≤ j.maxlen.toNat) (hbound : p + t.len < 2 ^ 64)
    (h : HoldsAt j img p (t.record s)) :
    ∃ data b, data.length = t.data.length ∧ HoldsAt j img' p ([descBuf s t.data] ++ data ++ [b]) ∧
      magicOf b ≠ revokeMagic ∧ ¬ IsCommitRecord s (dataChecksum s t data) b := by
  cases hd with
  | commit hnr hnc =>
      rw [len_of_noRevoke hrevoke] at hlap hbound
      rw [record_of_noRevoke hrevoke] at h
      refine ⟨t.data.map (·.data), _, by simp, ?_, hnr, hnc⟩
      refine HoldsAt.append.mpr ⟨(HoldsAt.append.mp h).1.congr fun i hi => ?_, fun i b hb => ?_⟩
      · simp only [List.length_append, List.length_singleton, List.length_map] at hi
        exact Function.update_of_ne (slot_ne hj (by omega) (by omega) (by omega)) _ _
      · obtain ⟨rfl, rfl⟩ : i = 0 ∧ _ = b := by simpa [List.getElem?_singleton] using hb
        have hpos : p + ([descBuf s t.data] ++ t.data.map (·.data)).length + 0 =
            p + 1 + t.data.length := by
          simp only [List.length_append, List.length_singleton, List.length_map]
          omega
        rw [hpos, Function.update_self]
  | @data bs hlen hsum =>
      refine ⟨bs, commitBuf s t.data t.revoke, hlen, ?_, ?_, ?_⟩
      · exact holdsAt_altered hj hrevoke hlap hbound h hlen
      · rw [magicOf_commitBuf]
        decide
      · rw [isCommitRecord_commitBuf hrevoke]
        exact fun he => hsum he.symm

theorem scanAt_none_of_holds {data : List Block} {b : Block} (hfits : t.Fits)
    (hlen : data.length = t.data.length)
    (h : HoldsAt j img p ([descBuf s t.data] ++ data ++ [b])) (hnr : magicOf b ≠ revokeMagic)
    (hnc : ¬ IsCommitRecord s (dataChecksum s t data) b) :
    scanAt (logView j img) (UInt64.ofNat p) s = none := by
  have hdesc : logView j img (UInt64.ofNat p) = descBuf s t.data := h.logView (i := 0) (by simp)
  have hpeek : logView j img (UInt64.ofNat (p + 1 + t.data.length)) = b := by
    rw [Nat.add_assoc, Nat.add_comm 1, ← hlen]
    exact h.logView (by simp)
  have hdata : (List.range t.data.length).map
      (fun i => logView j img (UInt64.ofNat (p + 1 + i))) = data := by
    apply List.ext_getElem
    · simp [hlen]
    · intro i hi hi'
      simp only [List.getElem_map, List.getElem_range]
      rw [Nat.add_assoc, Nat.add_comm 1]
      exact h.logView (by simp [List.getElem?_append_left, hi'])
  rw [scanAt_desc hfits.data_le hdesc]
  simp only [hpeek, if_neg hnr, Option.isSome_none, Bool.false_eq_true, if_false, Nat.add_zero,
    hdata]
  by_cases hhead : (CommitBlock.decode b).magic ≠ commitMagic ∨ (CommitBlock.decode b).sequence ≠ s
  · rw [if_pos hhead]
  · rw [if_neg hhead, if_pos]
    intro hsum
    push Not at hhead
    exact hnc ⟨hhead.1, hhead.2, hsum.symm⟩

/-- Damage stays within the transaction's blocks. -/
theorem Damages.eq_of_before (hd : Damages j p s t img img') (hj : j.Placed)
    (hrevoke : t.revoke = []) (hbound : p + t.len < 2 ^ 64) {n : ℕ} (hn : n < p)
    (hlap : p + t.len ≤ n + j.maxlen.toNat) : img' (slot j n) = img (slot j n) := by
  rw [len_of_noRevoke hrevoke] at hlap hbound
  cases hd with
  | commit _ _ => exact Function.update_of_ne (slot_ne hj (by omega) (by omega) (by omega)) _ _
  | data hlen _ =>
      refine applyWrites_of_untouched (fun w hw he => ?_) img
      obtain ⟨k, hk, hslot, -⟩ := mem_logWrites hw
      rw [hslot] at he
      exact slot_ne hj (by omega) (by omega) (by omega) he.symm

theorem Damages.jsuper (hd : Damages j p s t img img') (hj : j.Placed) :
    img' jsuperBlockno = img jsuperBlockno := by
  cases hd with
  | commit _ _ => exact Function.update_of_ne ((inRegion_slot hj _).ne_jsuper hj).symm _ _
  | data _ _ =>
      refine applyWrites_of_untouched (fun w hw => ?_) img
      exact (mem_logWrites_inRegion hj hw).ne_jsuper hj

/-! ## Recovery -/

/-- Recovery replays the transactions before the damaged one and takes up the log at its
descriptor, with its sequence number. -/
theorem recovered_damaged {us vs : List Transaction} {c : Disk}
    (h : LiveLog j img 0 1 (us ++ t :: vs)) (hfits : ∀ u ∈ us ++ t :: vs, u.Fits)
    (hrevoke : ∀ u ∈ us ++ t :: vs, u.revoke = [])
    (hd : Damages j (logLen us) (1 + UInt64.ofNat us.length) t img c.view) :
    ∃ e, run recording (journalRecover j) (c, []) =
        ((.ok (), { j with head := UInt64.ofNat (logLen us), tail := UInt64.ofNat (logLen us),
                           nextSequence := 1 + UInt64.ofNat us.length }), (e, writesOf us)) ∧
      (jsuperOf e.view).start = journalEmpty := by
  have hj := h.placed
  have hroom := h.room
  have hbound := h.bound
  simp only [logLen_append, logLen_cons] at hroom hbound
  have hrev : t.revoke = [] := hrevoke t (by simp)
  obtain ⟨hbefore, hhere, -⟩ := LogHolds.append.mp h.holds
  rw [Nat.zero_add] at hhere
  -- the scan breaks at the damaged transaction
  obtain ⟨data, b, hlen, hholds, hnr, hnc⟩ := hd.holds hj hrev (by omega) (by omega) hhere
  have hend := scanAt_none_of_holds (hfits t (by simp)) hlen hholds hnr hnc
  -- and finds everything before it as it was committed
  have hkept : LogHolds j c.view 0 1 us := hbefore.congr fun i hi =>
    hd.eq_of_before hj hrev (by omega) (by omega) (by omega)
  have hsuper : jsuperOf c.view = jsuperOf img := congrArg JournalSuper.decode (hd.jsuper hj)
  have hne : us ++ t :: vs ≠ [] := by simp
  have hstart : (jsuperOf c.view).start = UInt64.ofNat 0 := by
    rw [hsuper, h.starts.start, if_neg hne]
  have hread : ∀ u ∈ us, u.revoke = [] := fun u hu => hrevoke u (List.mem_append_left _ hu)
  have hnonempty : ¬ (jsuperOf c.view).start = journalEmpty := by
    rw [hstart]
    decide
  have hscan := scanPassAt_log hstart (by rw [hsuper, h.starts.sequence hne]) (by omega)
    (fun u hu => hfits u (List.mem_append_left _ hu)) (fun u hu => .inr (hread u hu)) hkept
    (by rwa [Nat.zero_add])
  have hrun := run_recover_recording hj (c := c) [] (by rw [hsuper, h.starts.magic])
  rw [installsOf, recoveredJournal, foundByRecover, if_neg hnonempty, if_neg hnonempty,
    if_neg hnonempty, hscan] at hrun
  refine ⟨(c.write jsuperBlockno (jsuperEncode j journalEmpty 0)).flush, ?_, ?_⟩
  · simp only at hrun
    rw [hrun, recoveredLogRevokes_of_none hread,
      installs_recoveredLog (fun u hu => .inr (hread u hu)) hkept, lastSeq_succ (.inr (by decide)),
      Nat.zero_add, List.nil_append]
  · simp [jsuperOf, Cache.flush]

/-! ## Commits that returned 0 -/

theorem commitAll_cons_ok {ts : List Transaction} {c d : Disk} {j' : Journal}
    (hok : run faultless (commitAll j (t :: ts)).run c = (.ok j', d)) :
    ∃ r k e, run faultless (journalCommit j t.data t.revoke) c = ((.ok r, k), e) ∧
      run faultless (commitAll k ts).run e = (.ok j', d) := by
  rw [commitAll, run_except_bind, run_liftM_except] at hok
  generalize run faultless (journalCommit j t.data t.revoke) c = out at hok ⊢
  obtain ⟨⟨r, k⟩, e⟩ := out
  cases r with
  | error err => cases hok
  | ok r => exact ⟨r, k, e, rfl, hok⟩

/-- A series of commits that all returned 0 appends its transactions to the log. -/
theorem liveLog_of_commitAll {ts us : List Transaction} {c d : Disk} {j' : Journal}
    (h : LiveLog j c.view p s ts) (hbound : p + j.maxlen.toNat < 2 ^ 64)
    (hok : run faultless (commitAll j us).run c = (.ok j', d)) :
    LiveLog j' d.view p s (ts ++ us) ∧ j'.dev = j.dev ∧ j'.first = j.first ∧
      j'.maxlen = j.maxlen ∧ ∀ u ∈ us, u.Fits := by
  induction us generalizing j ts c with
  | nil =>
      cases hok
      exact ⟨by simpa using h, rfl, rfl, rfl, by simp⟩
  | cons u us ih =>
      obtain ⟨r, k, e, hcommit, hrest⟩ := commitAll_cons_ok hok
      obtain ⟨hfits, hroom⟩ := fits_of_journalCommit hcommit
      have hlen := h.hasRoom.mp hroom
      rw [run_journalCommit h.placed hfits hroom] at hcommit
      simp only [Prod.mk.injEq] at hcommit
      obtain ⟨⟨-, rfl⟩, rfl⟩ := hcommit
      obtain ⟨hlive, hdev, hfirst, hmaxlen, hall⟩ :=
        ih (c := settled (commitImage j u c.view)) (h.commit hroom (by omega)) hbound hrest
      exact ⟨by simpa using hlive, hdev, hfirst, hmaxlen, List.forall_mem_cons.mpr ⟨hfits, hall⟩⟩

/-- The log after a series of commits into a freshly formatted region that all returned 0. -/
theorem liveLog_of_formatAndCommit (dev : BlockDev) (first maxlen : UInt64) {ts : List Transaction}
    {c d : Disk} (hj : Journal.Placed ⟨dev, first, maxlen, 0, 0, 1⟩)
    (hok : run faultless (formatAndCommit dev first maxlen ts).run c = (.ok j, d)) :
    LiveLog j d.view 0 1 ts ∧ j.dev = dev ∧ j.first = first ∧ j.maxlen = maxlen ∧ ∀ u ∈ ts, u.Fits := by
  have hfit : first.toNat + maxlen.toNat ≤ dev.nblocks.toNat := hj.fits
  have hfirst : 2 < first.toNat := hj.after_jsuper
  have hdev := dev.nblocks.toNat_lt
  rw [run_formatAndCommit_eq dev first maxlen _ hj] at hok
  simpa using liveLog_of_commitAll (c := settled (formattedImage dev first maxlen c.view))
    (liveLog_format hj c.view) (by simp; omega) hok

/-- After the commits of `us ++ t :: vs` into a freshly formatted region all returned 0, and
whatever damage of `t`, recovery returns 0, installs exactly what `us` wrote in order, takes up
the log at the descriptor and with the sequence number of `t`, and marks the log empty. -/
theorem recover_stops_at_damage (dev : BlockDev) (first maxlen : UInt64)
    (us vs : List Transaction) (t : Transaction) {c d : Disk}
    (hj : Journal.Placed ⟨dev, first, maxlen, 0, 0, 1⟩)
    (hrevoke : ∀ u ∈ us ++ t :: vs, u.revoke = [])
    (hok : run faultless (formatAndCommit dev first maxlen (us ++ t :: vs)).run c = (.ok j, d))
    (c' : Disk)
    (hd : Damages j (logLen us) (1 + UInt64.ofNat us.length) t d.view c'.view) :
    ∃ e, run recording (journalRecover j) (c', []) =
        ((.ok (), ⟨dev, first, maxlen, UInt64.ofNat (logLen us), UInt64.ofNat (logLen us),
          1 + UInt64.ofNat us.length⟩), (e, writesOf us)) ∧
      (jsuperOf e.view).start = journalEmpty := by
  obtain ⟨hlive, rfl, rfl, rfl, hfits⟩ := liveLog_of_formatAndCommit dev first maxlen hj hok
  exact recovered_damaged hlive hfits hrevoke hd

/-- Two transactions of one zero block each, on a device of 64 zero blocks. -/
theorem run_formatAndCommit_pair : ∃ j d,
    run faultless (formatAndCommit ⟨64⟩ 3 8 [⟨[⟨20, zeroBlock⟩], []⟩, ⟨[⟨21, zeroBlock⟩], []⟩]).run
      (settled fun _ => zeroBlock) = (.ok j, d) := by
  have hplain : ∀ t ∈ [(⟨[⟨20, zeroBlock⟩], []⟩ : Transaction), ⟨[⟨21, zeroBlock⟩], []⟩], t.Plain := by
    simp [Transaction.Plain, IsRecord, descMagic, commitMagic, revokeMagic]
  obtain ⟨j, d, hrun, -⟩ := run_formatAndCommit ⟨64⟩ 3 8 [⟨[⟨20, zeroBlock⟩], []⟩, ⟨[⟨21, zeroBlock⟩], []⟩]
    (c := settled fun _ => zeroBlock) ⟨by decide, by decide, by decide⟩ (fun _ _ => rfl) (by decide)
    (by simp only [List.forall_mem_cons]; exact ⟨⟨by decide, by decide⟩, ⟨by decide, by decide⟩, by simp⟩)
    hplain
  exact ⟨j, d, hrun⟩

/-- The second of two transactions of one block each, with its commit block overwritten by
zeros, on a device of 64 zero blocks. -/
theorem recover_stops_at_zeroed_commit :
    ∃ j d, run faultless (formatAndCommit ⟨64⟩ 3 8 [⟨[⟨20, zeroBlock⟩], []⟩, ⟨[⟨21, zeroBlock⟩], []⟩]).run
        (settled fun _ => zeroBlock) = (.ok j, d) ∧
      ∃ e, run recording (journalRecover j)
          (settled (Function.update d.view (slot j 5) zeroBlock), []) =
          ((.ok (), ⟨⟨64⟩, 3, 8, 3, 3, 2⟩), (e, [(20, zeroBlock)])) ∧
        (jsuperOf e.view).start = journalEmpty := by
  have hj : Journal.Placed ⟨⟨64⟩, 3, 8, 0, 0, 1⟩ := ⟨by decide, by decide, by decide⟩
  obtain ⟨j, d, hrun⟩ := run_formatAndCommit_pair
  refine ⟨j, d, hrun, ?_⟩
  refine recover_stops_at_damage ⟨64⟩ 3 8 [⟨[⟨20, zeroBlock⟩], []⟩] [] ⟨[⟨21, zeroBlock⟩], []⟩ hj
    (by simp) hrun _ ?_
  rw [view_settled]
  refine .commit (b := zeroBlock) (by simp [revokeMagic]) fun hcommit => ?_
  have hmagic : magicOf zeroBlock = commitMagic := hcommit.1
  simp [commitMagic] at hmagic

end Logfs
