import Mathlib.Logic.Function.Iterate
import Mathlib.Data.List.Basic

/-!
# Shift registers with feedback

A register of `w` bits that moves down one place at a time and takes its taps in where the bit
that leaves it is set, as in a reflected cyclic redundancy check. It is linear, so the bits of a
message may enter one by one or several at once.
-/
namespace ShiftRegister

variable {w : ℕ} (taps : BitVec w)

/-- One place down. -/
def shift (c : BitVec w) : BitVec w :=
  if c.getLsbD 0 then taps ^^^ (c >>> 1) else c >>> 1

/-- One place down, with a bit of a message at the low end. -/
def feed (c : BitVec w) (b : Bool) : BitVec w :=
  if c.getLsbD 0 ^^ b then taps ^^^ (c >>> 1) else c >>> 1

/-- The bits as a register, the first of them at the low end. -/
def word (w : ℕ) : List Bool → BitVec w
  | [] => 0#w
  | b :: bs => (BitVec.ofBool b).setWidth w ^^^ (word w bs <<< 1)

/-! ## Linearity -/

theorem shift_xor (a b : BitVec w) : shift taps (a ^^^ b) = shift taps a ^^^ shift taps b := by
  simp only [shift, BitVec.getLsbD_xor, BitVec.ushiftRight_xor_distrib]
  cases a.getLsbD 0 <;> cases b.getLsbD 0
  · rfl
  · simp only [Bool.false_xor, if_true, Bool.false_eq_true, if_false]
    rw [BitVec.xor_comm (a >>> 1), BitVec.xor_comm (a >>> 1), BitVec.xor_assoc]
  · simp only [Bool.xor_false, if_true, Bool.false_eq_true, if_false]
    rw [BitVec.xor_assoc]
  · simp only [Bool.xor_self, Bool.false_eq_true, if_false, if_true]
    rw [BitVec.xor_comm taps (a >>> 1), BitVec.xor_assoc, ← BitVec.xor_assoc taps, BitVec.xor_self,
      BitVec.zero_xor]

theorem iterate_shift_xor (n : ℕ) (a b : BitVec w) :
    (shift taps)^[n] (a ^^^ b) = (shift taps)^[n] a ^^^ (shift taps)^[n] b := by
  induction n generalizing a b with
  | zero => rfl
  | succ n ih => rw [Function.iterate_succ_apply, shift_xor, ih]; rfl

/-- The lowest `n` bits are clear: they leave the register and nothing is taken in. -/
theorem iterate_shift_of_clear {n : ℕ} {c : BitVec w} (h : ∀ i < n, c.getLsbD i = false) :
    (shift taps)^[n] c = c >>> n := by
  induction n with
  | zero => simp
  | succ n ih =>
      have hlow : (c >>> n).getLsbD 0 = false := by simpa using h n (by omega)
      rw [Function.iterate_succ_apply', ih fun i hi => h i (by omega), shift, hlow, BitVec.shiftRight_add]
      rfl

/-- The lowest `n` bits decide what is taken in; the rest of the register only moves down. -/
theorem iterate_shift_split (n : ℕ) (c mask : BitVec w) (hmask : ∀ i < w, mask.getLsbD i = decide (i < n)) :
    (shift taps)^[n] c = (shift taps)^[n] (c &&& mask) ^^^ (c >>> n) := by
  have hsplit : c = (c &&& mask) ^^^ (c &&& ~~~mask) := by
    apply BitVec.eq_of_getLsbD_eq
    intro i hi
    rw [BitVec.getLsbD_xor, BitVec.getLsbD_and, BitVec.getLsbD_and, BitVec.getLsbD_not, decide_eq_true hi]
    cases c.getLsbD i <;> cases mask.getLsbD i <;> rfl
  have hhigh : (shift taps)^[n] (c &&& ~~~mask) = c >>> n := by
    rw [iterate_shift_of_clear]
    · apply BitVec.eq_of_getLsbD_eq
      intro i hi
      rw [BitVec.getLsbD_ushiftRight, BitVec.getLsbD_ushiftRight, BitVec.getLsbD_and, BitVec.getLsbD_not]
      by_cases hin : n + i < w
      · rw [hmask _ hin]
        simp [hin]
      · rw [BitVec.getLsbD_of_ge c _ (by omega), Bool.false_and]
    · intro i hi
      rw [BitVec.getLsbD_and, BitVec.getLsbD_not]
      by_cases hiw : i < w
      · rw [hmask i hiw]
        simp [hi]
      · rw [BitVec.getLsbD_of_ge c _ (by omega), Bool.false_and]
  conv => lhs; rw [hsplit]
  rw [iterate_shift_xor, hhigh]

/-! ## Messages -/

theorem getLsbD_word {bs : List Bool} (hlen : bs.length ≤ w) (i : ℕ) :
    (word w bs).getLsbD i = bs.getD i false := by
  induction bs generalizing i with
  | nil => simp [word]
  | cons b bs ih =>
      rw [List.length_cons] at hlen
      cases i with
      | zero => cases b <;> simp [word, show 0 < w by omega]
      | succ i =>
          by_cases hi : i + 1 < w
          · have hrest := ih (by omega) i
            rw [word, BitVec.getLsbD_xor, BitVec.getLsbD_shiftLeft, BitVec.getLsbD_setWidth]
            simp only [hi, Nat.add_sub_cancel, hrest]
            simp
          · have hout : (b :: bs)[i + 1]? = none := List.getElem?_eq_none (by rw [List.length_cons]; omega)
            rw [BitVec.getLsbD_of_ge _ _ (by omega), List.getD_eq_getElem?_getD, hout]
            rfl

theorem word_injective {bs bs' : List Bool} (hlen : bs.length ≤ w) (heq : bs'.length = bs.length)
    (h : word w bs = word w bs') : bs = bs' := by
  apply List.ext_getElem heq.symm
  intro i hi hi'
  have hbit := congrArg (fun c => c.getLsbD i) h
  simpa [getLsbD_word, hlen, heq, hi, hi'] using hbit

theorem feed_eq_shift (hw : 0 < w) (c : BitVec w) (b : Bool) :
    feed taps c b = shift taps (c ^^^ (BitVec.ofBool b).setWidth w) := by
  have hmoved : (c ^^^ (BitVec.ofBool b).setWidth w) >>> 1 = c >>> 1 := by
    ext i hi
    simp
  have hbit : (c ^^^ (BitVec.ofBool b).setWidth w).getLsbD 0 = (c.getLsbD 0 ^^ b) := by
    cases b <;> simp [hw]
  rw [feed, shift, hmoved, hbit]

/-- A message no longer than the register may enter at once. -/
theorem foldl_feed {bs : List Bool} (hlen : bs.length ≤ w) (c : BitVec w) :
    bs.foldl (feed taps) c = (shift taps)^[bs.length] (c ^^^ word w bs) := by
  induction bs generalizing c with
  | nil => simp [word]
  | cons b bs ih =>
      rw [List.length_cons] at hlen
      have hback : shift taps (word w bs <<< 1) = word w bs := by
        rw [shift, if_neg (by simp)]
        apply BitVec.eq_of_getLsbD_eq
        intro i hi
        rw [BitVec.getLsbD_ushiftRight, BitVec.getLsbD_shiftLeft, Nat.add_comm 1 i, Nat.add_sub_cancel]
        by_cases hi' : i + 1 < w
        · simp [hi']
        · have hout : bs[i]? = none := List.getElem?_eq_none (by omega)
          rw [getLsbD_word (by omega), List.getD_eq_getElem?_getD, hout]
          simp
      rw [List.foldl_cons, ih (by omega), feed_eq_shift taps (by omega), List.length_cons,
        Function.iterate_succ_apply, word, ← BitVec.xor_assoc, shift_xor taps _ (word w bs <<< 1), hback]

/-! ## Nothing is lost -/

section Injective
variable {taps} (htop : taps.getLsbD (w - 1) = true)
include htop

/-- The top bit tells whether the taps were taken in. -/
theorem shift_injective : Function.Injective (shift taps) := by
  intro a b h
  have hw : 0 < w := by
    by_contra hzero
    simp [show w = 0 by omega] at htop
  have htopbit : ∀ c : BitVec w, (shift taps c).getLsbD (w - 1) = c.getLsbD 0 := by
    intro c
    have hout : c.getLsbD (1 + (w - 1)) = false := BitVec.getLsbD_of_ge c _ (by omega)
    unfold shift
    split
    · next hlow => simp [htop, hout, hlow]
    · next hlow => simpa [hout] using hlow
  have hlow : a.getLsbD 0 = b.getLsbD 0 := by rw [← htopbit a, ← htopbit b, h]
  have hmoved : a >>> 1 = b >>> 1 := by
    unfold shift at h
    rw [← hlow] at h
    split at h
    · exact (BitVec.xor_right_inj _).mp h
    · exact h
  apply BitVec.eq_of_getLsbD_eq
  intro i hi
  cases i with
  | zero => exact hlow
  | succ i =>
      have hbit := congrArg (fun c => c.getLsbD i) hmoved
      simpa [Nat.add_comm] using hbit

/-- From one register, two messages no longer than it lead to different registers. -/
theorem foldl_feed_ne {bs bs' : List Bool} (hlen : bs.length ≤ w) (heq : bs'.length = bs.length)
    (hne : bs ≠ bs') (c : BitVec w) : bs.foldl (feed taps) c ≠ bs'.foldl (feed taps) c := by
  intro h
  rw [foldl_feed taps hlen, foldl_feed taps (by omega), heq] at h
  exact hne (word_injective hlen heq ((BitVec.xor_right_inj _).mp ((shift_injective htop).iterate _ h)))

/-- Registers that differ go on differing under one message. -/
theorem foldl_feed_injective (bs : List Bool) : Function.Injective (bs.foldl (feed taps)) := by
  have hw : 0 < w := by
    by_contra hzero
    simp [show w = 0 by omega] at htop
  induction bs with
  | nil => exact Function.injective_id
  | cons b bs ih =>
      intro c c' h
      have hfed := ih h
      rw [feed_eq_shift taps hw, feed_eq_shift taps hw] at hfed
      exact (BitVec.xor_left_inj _).mp (shift_injective htop hfed)

end Injective
end ShiftRegister
