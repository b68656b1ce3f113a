import Logfs.Checksum
import Logfs.DamagedLog

/-!
# Short alterations of logged blocks

Bytes that differ within four consecutive positions lead the register to different states, and
nothing that follows brings the states together again. So the checksum tells.
-/
namespace Logfs
open Interaction WriteCache ShiftRegister

/-- At least one byte differs, and none outside four consecutive positions. -/
structure Burst (us vs : List UInt8) : Prop where
  length : vs.length = us.length
  ne : vs ≠ us
  window : ∃ k, ∀ n, n < k ∨ k + 4 ≤ n → vs[n]? = us[n]?

variable {us vs : List UInt8}

/-- What comes before the window, what is in it, and what comes after. -/
theorem Burst.split (h : Burst us vs) : ∃ as ms ms' zs, us = as ++ (ms ++ zs) ∧ vs = as ++ (ms' ++ zs) ∧
    ms'.length = ms.length ∧ ms.length ≤ 4 ∧ ms' ≠ ms := by
  obtain ⟨k, hk⟩ := h.window
  have hlen := h.length
  have hbefore : vs.take k = us.take k := by
    apply List.ext_getElem?
    intro n
    by_cases hn : n < k
    · rw [List.getElem?_take_of_lt hn, List.getElem?_take_of_lt hn, hk n (.inl hn)]
    · rw [List.getElem?_eq_none (by simp; omega), List.getElem?_eq_none (by simp; omega)]
  have hafter : (vs.drop k).drop 4 = (us.drop k).drop 4 := by
    apply List.ext_getElem?
    intro n
    rw [List.getElem?_drop, List.getElem?_drop, List.getElem?_drop, List.getElem?_drop,
      hk _ (.inr (by omega))]
  have hus : us = us.take k ++ ((us.drop k).take 4 ++ (us.drop k).drop 4) := by simp
  have hvs : vs = us.take k ++ ((vs.drop k).take 4 ++ (us.drop k).drop 4) := by
    rw [← hbefore, ← hafter]
    simp
  refine ⟨us.take k, (us.drop k).take 4, (vs.drop k).take 4, (us.drop k).drop 4, hus, hvs, ?_, ?_, ?_⟩
  · simp [hlen]
  · simp
  · intro heq
    rw [heq] at hvs
    exact h.ne (hvs.trans hus.symm)

/-! ## The register -/

theorem crc32Taps_top : crc32Taps.getLsbD (32 - 1) = true := by decide

theorem bitsOf_injective : Function.Injective bitsOf := by
  intro p q h
  apply UInt8.toBitVec_inj.mp
  apply BitVec.eq_of_getLsbD_eq
  intro i hi
  exact congrFun (List.ofFn_injective h) ⟨i, hi⟩

theorem flatMap_bitsOf_ne (hlen : vs.length = us.length) (hne : vs ≠ us) :
    vs.flatMap bitsOf ≠ us.flatMap bitsOf := by
  induction us generalizing vs with
  | nil => exact absurd (List.length_eq_zero_iff.mp hlen) hne
  | cons u us ih =>
      obtain ⟨v, vs, rfl⟩ := List.exists_cons_of_length_eq_add_one hlen
      intro h
      rw [List.flatMap_cons, List.flatMap_cons] at h
      obtain ⟨hhead, htail⟩ := List.append_inj h (by simp)
      obtain rfl := bitsOf_injective hhead
      exact ih (by simpa using hlen) (fun heq => hne (heq ▸ rfl)) htail

/-- What comes before the window leads to one state; the window leads on to two that differ, and
what comes after keeps them apart. -/
theorem Burst.crc32Update_ne (h : Burst us vs) (crc : UInt32) : crc32Update crc vs ≠ crc32Update crc us := by
  obtain ⟨as, ms, ms', zs, rfl, rfl, hlen, hshort, hne⟩ := h.split
  intro heq
  have hbits := congrArg UInt32.toBitVec heq
  simp only [toBitVec_crc32Update, List.flatMap_append, List.foldl_append] at hbits
  have hwindow := foldl_feed_injective crc32Taps_top _ hbits
  have hlength : ∀ bytes : List UInt8, (bytes.flatMap bitsOf).length = 8 * bytes.length := by
    intro bytes
    simp [List.length_flatMap, Nat.mul_comm]
  refine foldl_feed_ne crc32Taps_top ?_ ?_ (flatMap_bitsOf_ne hlen hne) _ hwindow
  · rw [hlength]
    omega
  · rw [hlength, hlength, hlen]

theorem Burst.dataChecksum_ne {t : Transaction} {data bs : List Block}
    (h : Burst (data.flatMap List.ofFn) (bs.flatMap List.ofFn)) (s : UInt64) :
    dataChecksum s t bs ≠ dataChecksum s t data := by
  have hsum : ∀ blocks, dataChecksum s t blocks = crc32Final (crc32Update
      (crc32Update crc32Init (List.ofFn (descBuf s t.data))) (blocks.flatMap List.ofFn)) := by
    intro blocks
    rw [dataChecksum, checksumTransaction_eq, crc32Update_pieces, List.map_cons, List.flatten_cons,
      crc32Update_append, List.flatMap_def]
    rfl
  rw [hsum, hsum]
  exact fun he => h.crc32Update_ne _ ((UInt32.xor_left_inj _).mp he)

theorem Burst.length_blocks {data bs : List Block}
    (h : Burst (data.flatMap List.ofFn) (bs.flatMap List.ofFn)) : bs.length = data.length := by
  have hlen := h.length
  simp only [List.length_flatMap, List.length_ofFn, List.map_const', List.sum_replicate, smul_eq_mul] at hlen
  exact Nat.eq_of_mul_eq_mul_right (by decide) hlen

/-! ## Recovery -/

variable {j : Journal}

/-- After the commits of `us ++ t :: vs` into a freshly formatted region all returned 0, and a
short alteration of the blocks `t` logged: the descriptor and the commit record of `t` stand as
they were written, but the record's checksum is not that of the blocks. Recovery installs what
`us` wrote and nothing else, and takes up the log at the descriptor of `t`. -/
theorem recover_stops_at_burst (dev : BlockDev) (first maxlen : UInt64) (us vs : List Transaction)
    (t : Transaction) {c d : Disk} (hj : Journal.Placed ⟨dev, first, maxlen, 0, 0, 1⟩)
    (hrevoke : ∀ u ∈ us ++ t :: vs, u.revoke = [])
    (hok : run faultless (formatAndCommit dev first maxlen (us ++ t :: vs)).run c = (.ok j, d))
    {bs : List Block} (hburst : Burst (t.data.flatMap fun b => List.ofFn b.data) (bs.flatMap List.ofFn))
    (c' : Disk)
    (hc' : c'.view = applyWrites d.view (logWrites j (UInt64.ofNat (logLen us + 1)) bs)) :
    HoldsAt j c'.view (logLen us) ([descBuf (1 + UInt64.ofNat us.length) t.data] ++ bs ++
        [commitBuf (1 + UInt64.ofNat us.length) t.data t.revoke]) ∧
      checksumTransaction (descBuf (1 + UInt64.ofNat us.length) t.data) none bs ≠
        (CommitBlock.decode (commitBuf (1 + UInt64.ofNat us.length) t.data t.revoke)).checksum ∧
      ∃ e, run recording (journalRecover j) (c', []) =
          ((.ok (), ⟨dev, first, maxlen, UInt64.ofNat (logLen us), UInt64.ofNat (logLen us),
            1 + UInt64.ofNat us.length⟩), (e, writesOf us)) ∧
        (jsuperOf e.view).start = journalEmpty := by
  have hrev : t.revoke = [] := hrevoke t (by simp)
  have hbytes : (t.data.map (·.data)).flatMap List.ofFn = t.data.flatMap fun b => List.ofFn b.data := by
    rw [List.flatMap_map]
  rw [← hbytes] at hburst
  have hlen : bs.length = t.data.length := by simpa using hburst.length_blocks
  have hsum := hburst.dataChecksum_ne (t := t) (1 + UInt64.ofNat us.length)
  obtain ⟨hlive, -⟩ := liveLog_of_formatAndCommit dev first maxlen hj hok
  have hroom := hlive.room
  have hbound := hlive.bound
  simp only [logLen_append, logLen_cons] at hroom hbound
  have hhere := (LogHolds.append.mp hlive.holds).2.1
  rw [Nat.zero_add] at hhere
  refine ⟨?_, ?_, ?_⟩
  · rw [hc']
    exact holdsAt_altered hlive.placed hrev (by omega) (by omega) hhere hlen
  · rw [commitBuf, CommitBlock.decode_encode, hrev]
    exact hsum
  · refine recover_stops_at_damage dev first maxlen us vs t hj hrevoke hok c' ?_
    rw [hc']
    exact .data hlen hsum

theorem burst_oneBlock : Burst (List.ofFn zeroBlock) (List.ofFn (Function.update zeroBlock 7 1)) where
  length := by rw [List.length_ofFn, List.length_ofFn]
  ne h := by
    have hbyte := congrFun (List.ofFn_injective h) 7
    rw [Function.update_self] at hbyte
    exact absurd hbyte (by decide)
  window := by
    refine ⟨7, fun n hn => ?_⟩
    rw [List.getElem?_ofFn, List.getElem?_ofFn]
    split
    · next hlt => rw [Function.update_of_ne (fun he => by rw [Fin.ext_iff] at he; change n = 7 at he; omega)]
    · rfl

/-- The second of two transactions of one zero block each, with byte 7 of its block set to 1, on a
device of 64 zero blocks. -/
theorem recover_stops_at_oneByte :
    ∃ j d, run faultless (formatAndCommit ⟨64⟩ 3 8 [⟨[⟨20, zeroBlock⟩], []⟩, ⟨[⟨21, zeroBlock⟩], []⟩]).run
        (settled fun _ => zeroBlock) = (.ok j, d) ∧
      ∃ e, run recording (journalRecover j) (settled (applyWrites d.view
          (logWrites j (UInt64.ofNat (logLen [⟨[⟨20, zeroBlock⟩], []⟩] + 1)) [Function.update zeroBlock 7 1])), []) =
          ((.ok (), ⟨⟨64⟩, 3, 8, 3, 3, 2⟩), (e, [(20, zeroBlock)])) := by
  have hj : Journal.Placed ⟨⟨64⟩, 3, 8, 0, 0, 1⟩ := ⟨by decide, by decide, by decide⟩
  obtain ⟨j, d, hrun⟩ := run_formatAndCommit_pair
  refine ⟨j, d, hrun, ?_⟩
  have hburst : Burst (([⟨21, zeroBlock⟩] : List PendingBlock).flatMap fun b => List.ofFn b.data)
      ([Function.update zeroBlock 7 1].flatMap List.ofFn) := by
    rw [List.flatMap_singleton, List.flatMap_singleton]
    exact burst_oneBlock
  obtain ⟨-, -, e, he, -⟩ := recover_stops_at_burst ⟨64⟩ 3 8 [⟨[⟨20, zeroBlock⟩], []⟩] [] ⟨[⟨21, zeroBlock⟩], []⟩ hj
    (by simp) hrun hburst _ (view_settled _)
  exact ⟨e, he⟩

end Logfs
