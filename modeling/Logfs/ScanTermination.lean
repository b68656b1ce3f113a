import Logfs.RecoveryCrash

/-!
# The scan loop ends

The loop of `logfs_journal_recover` has no counter and follows record lengths read
from the disk. Its rounds are bounded because each accepted transaction has its
descriptor in a block of its own: a block carries one sequence number, and the loop
expects a higher one every time. Nothing is assumed of what the disk holds or of
where the region lies.
-/
namespace Logfs
open Interaction WriteCache ByteBuffer

variable {j : Journal} {c : Disk}

/-- A successful read answers with the content of a block, whatever the block. -/
theorem run_readLogical_ok {off : UInt64} {b : Block}
    (hok : (run faultless (readLogical j off).run c).1 = .ok b) : b = c.view (physOf j off) := by
  rw [readLogical, bdevRead] at hok
  split at hok
  · cases hok
  · exact (Except.ok.inj hok).symm

/-! ## One iteration -/

theorem answers_scanTxn (j : Journal) (scan expectSeq : UInt64) :
    (scanTxn j scan expectSeq).Answers fun r => ∀ s, r = some s → s.txn.sequence = expectSeq := by
  have hnone : (Prog.ret none : DevM (Option Scanned)).Answers fun r =>
      ∀ s, r = some s → s.txn.sequence = expectSeq := fun _ hs => nomatch hs
  refine .bind _ fun r => ?_
  cases r with
  | error e => exact hnone
  | ok desc =>
      refine .ite (fun _ => hnone) fun hdesc => .bind _ fun peek => .bind _ fun commit => ?_
      push Not at hdesc
      cases commit with
      | error e => exact hnone
      | ok commit =>
          refine .ite (fun _ => hnone) fun _ => .bind _ fun data => ?_
          cases data with
          | error e => exact hnone
          | ok data =>
              refine .ite (fun _ => hnone) fun _ s hs => ?_
              obtain rfl := Option.some.inj hs
              exact hdesc.2.1

theorem scanTxn_sequence {scan expectSeq : UInt64} {s : Scanned}
    (h : (run faultless (scanTxn j scan expectSeq) c).1 = some s) :
    (DescBlock.decode (c.view (physOf j scan))).sequence = expectSeq ∧
      s.txn.sequence = expectSeq := by
  refine ⟨?_, (answers_scanTxn j scan expectSeq).run faultless c s h⟩
  rw [scanTxn, run_bind] at h
  cases hread : (run faultless (readLogical j scan).run c).1 with
  | error e => simp [hread] at h
  | ok descBlock =>
      obtain rfl := run_readLogical_ok hread
      simp only [hread] at h
      by_contra hne
      rw [if_pos (.inr (.inl hne))] at h
      cases h

theorem run_scanTxn_snd (j : Journal) (scan expectSeq : UInt64) (c : Disk) :
    (run faultless (scanTxn j scan expectSeq) c).2 = c :=
  (readOnly_scanTxn j scan expectSeq).run_snd c

/-! ## The loop without a bound on its rounds -/

/-- The loop accepts `n` transactions in a row. -/
inductive Accepts (j : Journal) (c : Disk) : ℕ → UInt64 → UInt64 → Prop
  | zero (scan expectSeq : UInt64) : Accepts j c 0 scan expectSeq
  | succ {n : ℕ} {scan expectSeq : UInt64} {s : Scanned}
      (now : (run faultless (scanTxn j scan expectSeq) c).1 = some s)
      (rest : Accepts j c n s.next (s.txn.sequence + 1)) : Accepts j c (n + 1) scan expectSeq

/-- The loop breaks after finitely many iterations, with the given result. -/
inductive Breaks (j : Journal) (c : Disk) : UInt64 → UInt64 → UInt64 → ScanResult → Prop
  | stop {scan expectSeq lastValidSeq : UInt64}
      (now : (run faultless (scanTxn j scan expectSeq) c).1 = none) :
      Breaks j c scan expectSeq lastValidSeq ⟨[], [], scan, lastValidSeq⟩
  | accept {scan expectSeq lastValidSeq : UInt64} {s : Scanned} {r : ScanResult}
      (now : (run faultless (scanTxn j scan expectSeq) c).1 = some s)
      (rest : Breaks j c s.next (s.txn.sequence + 1) s.txn.sequence r) :
      Breaks j c scan expectSeq lastValidSeq
        { r with txns := s.txn :: r.txns, revokes := s.revokes ++ r.revokes }

theorem Breaks.accepts {scan expectSeq last : UInt64} {r : ScanResult}
    (h : Breaks j c scan expectSeq last r) : Accepts j c r.txns.length scan expectSeq := by
  induction h with
  | stop _ => exact .zero _ _
  | accept now _ ih => exact .succ now ih

/-- The descriptors of transactions accepted in a row carry consecutive sequence numbers. -/
theorem Accepts.descriptors {n : ℕ} {scan expectSeq : UInt64} (h : Accepts j c n scan expectSeq) :
    ∃ offs : Fin n → UInt64, ∀ i,
      (DescBlock.decode (c.view (physOf j (offs i)))).sequence =
        expectSeq + UInt64.ofNat i.val := by
  induction h with
  | zero => exact ⟨Fin.elim0, fun i => i.elim0⟩
  | @succ n scan expectSeq s now rest ih =>
      obtain ⟨hdesc, htxn⟩ := scanTxn_sequence now
      obtain ⟨offs, hoffs⟩ := ih
      refine ⟨Fin.cons scan offs, Fin.cases ?_ fun i => ?_⟩
      · simpa using hdesc
      · rw [Fin.cons_succ, hoffs, htxn, seq_succ]
        rfl

/-- A region of `maxlen` blocks has room for no more than `maxlen` descriptors. -/
theorem Accepts.le_maxlen {n : ℕ} {scan expectSeq : UInt64} (hpos : 0 < j.maxlen.toNat)
    (h : Accepts j c n scan expectSeq) : n ≤ j.maxlen.toNat := by
  by_contra hlt
  obtain ⟨offs, hoffs⟩ := h.descriptors
  have hmax := j.maxlen.toNat_lt
  -- two of the first `maxlen + 1` descriptors would be in one block
  let pos : Fin (j.maxlen.toNat + 1) → Fin j.maxlen.toNat := fun i =>
    ⟨(offs ⟨i, by omega⟩).toNat % j.maxlen.toNat, Nat.mod_lt _ hpos⟩
  obtain ⟨a, b, hab, heq⟩ := Fintype.exists_ne_map_eq_of_card_lt pos (by simp)
  have hmod : offs ⟨a, by omega⟩ % j.maxlen = offs ⟨b, by omega⟩ % j.maxlen := by
    apply UInt64.toNat_inj.mp
    rw [UInt64.toNat_mod, UInt64.toNat_mod]
    exact congrArg Fin.val heq
  have ha := hoffs ⟨a, by omega⟩
  have hb := hoffs ⟨b, by omega⟩
  rw [physOf, hmod, ← physOf, hb] at ha
  have hnat := congrArg UInt64.toNat ((UInt64.add_right_inj _).mp ha)
  rw [UInt64.toNat_ofNat_of_lt' (show b.val < 18446744073709551616 by omega),
    UInt64.toNat_ofNat_of_lt' (show a.val < 18446744073709551616 by omega)] at hnat
  exact hab (Fin.ext hnat.symm)

/-! ## The bounded loop of the model -/

/-- Either the rounds are all used up by accepted transactions, or the loop broke in time. -/
theorem scanLoop_accepts_or_breaks (j : Journal) (c : Disk) (fuel : ℕ)
    (scan expectSeq last : UInt64) :
    Accepts j c fuel scan expectSeq ∨
      Breaks j c scan expectSeq last (run faultless (scanLoop j fuel scan expectSeq last) c).1 := by
  induction fuel generalizing scan expectSeq last with
  | zero => exact .inl (.zero _ _)
  | succ fuel ih =>
      rw [scanLoop, run_bind, run_scanTxn_snd]
      cases hs : (run faultless (scanTxn j scan expectSeq) c).1 with
      | none => exact .inr (.stop hs)
      | some s =>
          refine (ih s.next (s.txn.sequence + 1) s.txn.sequence).imp (.succ hs) fun hrest => ?_
          rw [run_bind]
          exact .accept hs hrest

/-- The scan from any start position accepts at most `maxlen` transactions, and the loop
breaks with the result of `scanPass`. -/
theorem scan_terminates (hpos : 0 < j.maxlen.toNat) (js : JournalSuper) (c : Disk) :
    (∀ n, Accepts j c n js.start js.sequence → n ≤ j.maxlen.toNat) ∧
      ∃ r, run faultless (scanPass j js) c = (r, c) ∧ r.txns.length ≤ j.maxlen.toNat ∧
        Breaks j c js.start js.sequence (if js.sequence = 0 then 0 else js.sequence - 1) r := by
  refine ⟨fun n hn => hn.le_maxlen hpos, _, Prod.ext rfl ((readOnly_scanPass j js).run_snd c), ?_⟩
  have hbreaks := (scanLoop_accepts_or_breaks j c (j.maxlen.toNat + 1) js.start js.sequence
    (if js.sequence = 0 then 0 else js.sequence - 1)).resolve_left fun hall => by
      have hle := hall.le_maxlen hpos
      omega
  exact ⟨hbreaks.accepts.le_maxlen hpos, hbreaks⟩

/-- A start two blocks before the 64-bit offset wraps. -/
def wrapSuper : JournalSuper :=
  { magic := journalMagic, blockSize := 4096, maxlen := 8, first := 3, sequence := 5,
    start := 2 ^ 64 - 2 }

theorem scan_terminates_wrap : 0 < smallJournal.maxlen.toNat ∧
    ∃ r, run faultless (scanPass smallJournal wrapSuper) (settled fun _ => zeroBlock) =
      (r, settled fun _ => zeroBlock) ∧ r.txns.length ≤ smallJournal.maxlen.toNat := by
  have hpos : 0 < smallJournal.maxlen.toNat := by decide
  obtain ⟨-, r, hrun, hlen, -⟩ := scan_terminates hpos wrapSuper (settled fun _ => zeroBlock)
  exact ⟨hpos, r, hrun, hlen⟩

end Logfs
