import Logfs.Journal
import Logfs.Lib.ShiftRegister

/-!
# The checksum bit by bit

`crc32.c` takes eight places at once from its table, and `checksum_transaction` one block at a
time. Neither makes a difference to the remainder.
-/
namespace Logfs
open ShiftRegister

/-- The reflected polynomial. -/
def crc32Taps : BitVec 32 := 0xEDB88320#32

/-- The bits of a byte, the lowest first. -/
def bitsOf (p : UInt8) : List Bool := List.ofFn fun i : Fin 8 => p.toBitVec.getLsbD i

/-- CRC-32 as it is defined: the register starts with ones, takes the message in bit by bit, and
is complemented at the end. -/
def bitwiseCrc32 (bytes : List UInt8) : UInt32 :=
  .ofBitVec ((bytes.flatMap bitsOf).foldl (feed crc32Taps) (BitVec.allOnes 32) ^^^ BitVec.allOnes 32)

@[simp] theorem length_bitsOf (p : UInt8) : (bitsOf p).length = 8 := List.length_ofFn

theorem word_bitsOf (p : UInt8) : word 32 (bitsOf p) = p.toUInt32.toBitVec := by
  apply BitVec.eq_of_getLsbD_eq
  intro i hi
  rw [getLsbD_word (by simp), UInt8.toBitVec_toUInt32, BitVec.getLsbD_setWidth, List.getD_eq_getElem?_getD]
  by_cases hi8 : i < 8
  · rw [bitsOf, List.getElem?_ofFn, dif_pos hi8]
    simp [hi]
  · rw [List.getElem?_eq_none (by simpa using hi8), BitVec.getLsbD_of_ge _ _ (by omega)]
    simp

/-! ## The table -/

theorem toBitVec_crc32Round (c : UInt32) : (crc32Round c).toBitVec = shift crc32Taps c.toBitVec := by
  have hlow : c &&& 1 ≠ 0 ↔ c.toBitVec.getLsbD 0 = true := by
    rw [ne_eq, ← UInt32.toBitVec_inj, UInt32.toBitVec_and]
    change ¬ c.toBitVec &&& 1#32 = 0#32 ↔ _
    rw [BitVec.and_one_eq_setWidth_ofBool_getLsbD]
    cases c.toBitVec.getLsbD 0 <;> decide
  unfold crc32Round shift
  by_cases hset : c.toBitVec.getLsbD 0 = true
  · rw [if_pos (hlow.mpr hset), if_pos hset]
    rfl
  · rw [if_neg (mt hlow.mp hset), if_neg hset]
    rfl

theorem toBitVec_crc32Table (i : UInt32) : (crc32Table i).toBitVec = (shift crc32Taps)^[8] i.toBitVec := by
  have hiterate : ∀ n : ℕ, (crc32Round^[n] i).toBitVec = (shift crc32Taps)^[n] i.toBitVec := by
    intro n
    induction n with
    | zero => rfl
    | succ n ih => rw [Function.iterate_succ_apply', Function.iterate_succ_apply', toBitVec_crc32Round, ih]
  exact hiterate 8

/-- One step of the table is eight steps of the register, from every state. -/
theorem toBitVec_crc32Step (crc : UInt32) (p : UInt8) :
    (crc32Table ((crc ^^^ p.toUInt32) &&& 0xFF) ^^^ (crc >>> 8)).toBitVec =
      (bitsOf p).foldl (feed crc32Taps) crc.toBitVec := by
  have hmask : ∀ i < 32, (0xFF#32).getLsbD i = decide (i < 8) := by decide
  have hmoved : (crc ^^^ p.toUInt32).toBitVec >>> 8 = crc.toBitVec >>> 8 := by
    rw [UInt32.toBitVec_xor, BitVec.ushiftRight_xor_distrib]
    have hbyte : p.toUInt32.toBitVec >>> 8 = 0#32 := by
      apply BitVec.eq_of_getLsbD_eq
      intro i hi
      rw [BitVec.getLsbD_ushiftRight, UInt8.toBitVec_toUInt32, BitVec.getLsbD_setWidth,
        BitVec.getLsbD_of_ge p.toBitVec _ (by omega)]
      simp
    rw [hbyte, BitVec.xor_zero]
  rw [foldl_feed _ (by simp), length_bitsOf, word_bitsOf, ← UInt32.toBitVec_xor,
    iterate_shift_split _ 8 _ _ hmask, hmoved, UInt32.toBitVec_xor, toBitVec_crc32Table]
  rfl

/-! ## Messages -/

theorem toBitVec_crc32Update (crc : UInt32) (buf : List UInt8) :
    (crc32Update crc buf).toBitVec = (buf.flatMap bitsOf).foldl (feed crc32Taps) crc.toBitVec := by
  induction buf generalizing crc with
  | nil => rfl
  | cons p buf ih =>
      rw [List.flatMap_cons, List.foldl_append, ← toBitVec_crc32Step, ← ih]
      rfl

theorem crc32_eq_bitwise (bytes : List UInt8) :
    crc32Final (crc32Update crc32Init bytes) = bitwiseCrc32 bytes := by
  apply UInt32.toBitVec_inj.mp
  rw [crc32Final, UInt32.toBitVec_xor, toBitVec_crc32Update]
  rfl

theorem crc32Update_append (crc : UInt32) (us vs : List UInt8) :
    crc32Update crc (us ++ vs) = crc32Update (crc32Update crc us) vs := List.foldl_append

/-- The pieces of a message, one call for each. -/
theorem crc32Update_pieces (crc : UInt32) (pieces : List (List UInt8)) :
    pieces.foldl crc32Update crc = crc32Update crc pieces.flatten := by
  induction pieces generalizing crc with
  | nil => rfl
  | cons piece pieces ih => rw [List.foldl_cons, ih, List.flatten_cons, crc32Update_append]

theorem checksumTransaction_eq (descBlock : Block) (revokeBlock : Option Block) (data : List Block) :
    checksumTransaction descBlock revokeBlock data = crc32Final
      (((descBlock :: (revokeBlock.toList ++ data)).map List.ofFn).foldl crc32Update crc32Init) := by
  cases revokeBlock <;> simp only [checksumTransaction, Option.toList, List.map_cons, List.nil_append,
    List.cons_append, List.foldl_cons, List.foldl_map]

/-- The table gives the CRC-32 that is computed bit by bit, in whatever pieces the message comes;
so the checksum of a transaction is the CRC of its blocks one after the other. -/
theorem crc32_bitwise_and_streams :
    (∀ pieces : List (List UInt8),
      crc32Final (pieces.foldl crc32Update crc32Init) = bitwiseCrc32 pieces.flatten) ∧
    (∀ (crc : UInt32) (pieces : List (List UInt8)),
      pieces.foldl crc32Update crc = crc32Update crc pieces.flatten) ∧
    ∀ (descBlock : Block) (revokeBlock : Option Block) (data : List Block),
      checksumTransaction descBlock revokeBlock data =
        bitwiseCrc32 ((descBlock :: (revokeBlock.toList ++ data)).flatMap List.ofFn) := by
  have hpieces : ∀ pieces : List (List UInt8),
      crc32Final (pieces.foldl crc32Update crc32Init) = bitwiseCrc32 pieces.flatten := by
    intro pieces
    rw [crc32Update_pieces, crc32_eq_bitwise]
  refine ⟨hpieces, crc32Update_pieces, fun descBlock revokeBlock data => ?_⟩
  rw [checksumTransaction_eq, hpieces, List.flatMap_def]

end Logfs
