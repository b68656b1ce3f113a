import Logfs.BurstErrors
import Logfs.FormattedVolume

/-!
# A damaged superblock

Every byte of the superblock's fields goes into its checksum, so a mount refuses a superblock whose fields
were damaged in a burst.
-/
namespace Logfs
open Interaction WriteCache ByteBuffer

/-! ## Writing back what was read -/

section Bytes
variable {α : Type} [Scalar α] {x b : Block} {off : ℕ}

/-- The block `x` has the first `n` bytes of `b`, and zeros. -/
structure CopyUpTo (n : ℕ) (x b : Block) : Prop where
  same : ∀ i < n, byteAt x i = byteAt b i
  rest : ∀ i, n ≤ i → byteAt x i = 0

theorem CopyUpTo.zero (b : Block) : CopyUpTo 0 zeroBlock b :=
  ⟨fun i hi => absurd hi (Nat.not_lt_zero i), fun i _ => byteAt_zeros i⟩

/-- Writing back a field that was read goes on with the copy. -/
theorem CopyUpTo.store (h : CopyUpTo off x b) (hfit : off + Scalar.width α ≤ 4096)
    (hround : Scalar.toNat (load α b off) = get (Scalar.width α) b off) :
    CopyUpTo (off + Scalar.width α) (ByteBuffer.store x off (load α b off)) b := by
  have hbytes : leBytes (Scalar.width α) (get (Scalar.width α) b off) = slice b off (Scalar.width α) := by
    have hback := leBytes_leNat (slice b off (Scalar.width α))
    rwa [length_slice] at hback
  rw [ByteBuffer.store, hround, put, hbytes]
  constructor
  · intro i hi
    rw [byteAt_splice, length_slice]
    split
    · next hin =>
        rw [List.getD_eq_getElem?_getD, getElem?_slice, if_pos (by omega), Option.getD_some]
        congr 1
        omega
    · next hout => exact h.same i (by omega)
  · intro i hi
    rw [byteAt_splice, length_slice, if_neg (by omega)]
    exact h.rest i (by omega)

theorem get_lt (w : ℕ) (b : Block) (off : ℕ) : get w b off < 256 ^ w := by
  have hlt := leNat_lt (slice b off w)
  rwa [length_slice] at hlt

theorem toNat_load_uint32 (b : Block) (off : ℕ) : Scalar.toNat (load UInt32 b off) = get 4 b off := by
  have hlt : get 4 b off < UInt32.size := (get_lt 4 b off).trans_eq (by decide)
  rw [load]
  exact UInt32.toNat_ofNat_of_lt' hlt

theorem toNat_load_uint64 (b : Block) (off : ℕ) : Scalar.toNat (load UInt64 b off) = get 8 b off := by
  have hlt : get 8 b off < UInt64.size := (get_lt 8 b off).trans_eq (by decide)
  rw [load]
  exact UInt64.toNat_ofNat_of_lt' hlt

theorem CopyUpTo.store32 (h : CopyUpTo off x b) (hfit : off + 4 ≤ 4096) :
    CopyUpTo (off + 4) (ByteBuffer.store x off (load UInt32 b off)) b := h.store hfit (toNat_load_uint32 b off)

theorem CopyUpTo.store64 (h : CopyUpTo off x b) (hfit : off + 8 ≤ 4096) :
    CopyUpTo (off + 8) (ByteBuffer.store x off (load UInt64 b off)) b := h.store hfit (toNat_load_uint64 b off)

end Bytes

/-! ## The checksum -/

/-- The bytes that go into the checksum: those of the struct, with the checksum as zero. -/
def summed (b : Block) : List UInt8 := slice (store b 96 (0 : UInt32)) 0 superSize

theorem getElem?_summed (b : Block) (n : ℕ) : (summed b)[n]? =
    if n < superSize then some (if 96 ≤ n ∧ n < 100 then 0 else byteAt b n) else none := by
  have hbytes : leBytes 4 0 = List.replicate 4 0 := by decide
  rw [summed, getElem?_slice, Nat.zero_add, ByteBuffer.store]
  change (if n < superSize then some (byteAt (splice b 96 (leBytes 4 0)) n) else none) = _
  rw [hbytes, byteAt_splice, List.length_replicate]
  by_cases hlt : n < superSize
  · have hbig : n < 4096 := lt_trans hlt (by decide)
    rw [if_pos hlt, if_pos hlt]
    by_cases hfield : 96 ≤ n ∧ n < 100
    · rw [if_pos ⟨hbig, hfield⟩, if_pos hfield, List.getD_eq_getElem?_getD,
        List.getElem?_replicate_of_lt (by omega), Option.getD_some]
    · rw [if_neg (fun h => hfield h.2), if_neg hfield]
  · rw [if_neg hlt, if_neg hlt]

theorem decode_unsummed (b : Block) :
    ({ Super.decode b with checksum := 0 } : Super) = Super.decode (store b 96 (0 : UInt32)) := by
  simp [Super.decode, load_store_of_disjoint]

/-- The fields that were read stand in the block as they were. -/
theorem copy_decode (b : Block) : CopyUpTo superSize (Super.decode b).encode b := by
  have hids := ((((CopyUpTo.zero b).store32 (by decide)).store32 (by decide)).store32 (by decide)).store32 (by decide)
  have hregion := ((hids.store64 (by decide)).store64 (by decide)).store64 (by decide)
  have htable := (((hregion.store64 (by decide)).store64 (by decide)).store64 (by decide)).store64 (by decide)
  have hdata := (htable.store64 (by decide)).store64 (by decide)
  exact (((hdata.store32 (by decide)).store32 (by decide)).store32 (by decide)).store32 (by decide)

theorem superChecksum_decode (b : Block) :
    superChecksum (Super.decode b) = crc32Final (crc32Update crc32Init (summed b)) := by
  have hbytes : slice ({ Super.decode b with checksum := 0 } : Super).encode 0 superSize = summed b := by
    rw [decode_unsummed]
    apply slice_congr
    intro k hk
    exact (copy_decode _).same (0 + k) (by omega)
  rw [superChecksum, hbytes]

/-- What the checksum covers is damaged in a burst, and the checksum itself is as it was. -/
structure Damaged (b b' : Block) : Prop where
  burst : Burst (summed b) (summed b')
  checksum : load UInt32 b' 96 = load UInt32 b 96

/-- The stored checksum is still that of the old fields. -/
theorem Damaged.checksum_ne {sb : Super} {b' : Block} (h : Damaged sb.encode b')
    (hsum : sb.checksum = superChecksum sb) : (Super.decode b').checksum ≠ superChecksum (Super.decode b') := by
  have hstored : (Super.decode b').checksum = superChecksum (Super.decode sb.encode) := by
    have hsame : (Super.decode b').checksum = (Super.decode sb.encode).checksum := h.checksum
    rw [hsame, Super.decode_encode]
    exact hsum
  rw [hstored, superChecksum_decode, superChecksum_decode]
  intro heq
  exact h.burst.crc32Update_ne _ ((UInt32.xor_left_inj _).mp heq.symm)

/-! ## The mount -/

/-- The mount of such a device fails after its first read. -/
theorem run_fsMount_damaged {sb : Super} {dev : BlockDev} {e : Disk} (hdev : superBlockno < dev.nblocks)
    (hsum : sb.checksum = superChecksum sb) (h : Damaged sb.encode (e.view superBlockno)) :
    run faultless (fsMount dev).run e =
      (.error (if (Super.decode (e.view superBlockno)).magic = superMagic then .euclean else .einval), e) := by
  have hne := h.checksum_ne hsum
  unfold fsMount
  rw [run_except_bind, run_bdevRead e hdev]
  by_cases hmagic : (Super.decode (e.view superBlockno)).magic = superMagic
  · simp only [hmagic, ne_eq, not_true, if_false, if_true, hne, not_false_eq_true]
    rfl
  · simp only [hmagic, ne_eq, not_false_eq_true, if_true, if_false]
    rfl

section Mounted
variable {host : Except Errno Unit} {totalBlocks journalLen now : UInt64} {mode : DataMode} {d d₁ d₂ e : Disk}
  {sb : Super} {j : Journal}

/-- A volume that could be mounted is refused once its superblock is damaged, whatever else is on the device,
and nothing is written. -/
theorem refused_of_damaged
    (hformat : run faultless (fsFormat host totalBlocks journalLen mode now).run d = (.ok (), d₁))
    (hmount : run faultless (fsMount ⟨totalBlocks⟩).run d₁ = (.ok (sb, j), d₂)) {dev : BlockDev}
    (hdev : superBlockno < dev.nblocks) (h : Damaged (d₂.view superBlockno) (e.view superBlockno)) :
    run faultless (fsMount dev).run e =
      (.error (if (Super.decode (e.view superBlockno)).magic = superMagic then .euclean else .einval), e) := by
  obtain ⟨hsb, -, -, -, -, hlaid⟩ := laidOut_mounted hformat hmount
  rw [hlaid.super] at h
  exact run_fsMount_damaged hdev (by rw [hsb, superChecksum_formatSuper]) h

end Mounted

/-- One byte the checksum covers is changed. -/
theorem damaged_update (b : Block) {k : Fin 4096} {x : UInt8} (hk : k.val < 96 ∨ 100 ≤ k.val ∧ k.val < superSize)
    (hne : x ≠ b k) : Damaged b (Function.update b k x) := by
  have hother : ∀ i, i ≠ k.val → byteAt (Function.update b k x) i = byteAt b i := by
    intro i hi
    unfold byteAt
    split
    · rw [Function.update_of_ne]
      intro heq
      exact hi (congrArg Fin.val heq)
    · rfl
  refine ⟨⟨by rw [summed, summed, length_slice, length_slice], fun heq => ?_, k, fun n hn => ?_⟩, ?_⟩
  · have hbyte := congrArg (fun us : List UInt8 => us[k.val]?) heq
    have hcovered : k.val < superSize := by
      unfold superSize at *
      omega
    simp only [getElem?_summed, if_pos hcovered, if_neg (show ¬ (96 ≤ k.val ∧ k.val < 100) by omega)] at hbyte
    have hnew : byteAt (Function.update b k x) k = x := by simp [byteAt]
    have hold : byteAt b k = b k := by simp [byteAt]
    rw [hnew, hold] at hbyte
    exact hne (Option.some.inj hbyte)
  · rw [getElem?_summed, getElem?_summed, hother n (by omega)]
  · rw [load, load, ByteBuffer.get, ByteBuffer.get]
    congr 2
    apply slice_congr
    intro n hn
    have hfour : n < 4 := hn
    exact hother (96 + n) (by omega)

/-- The low byte of the reserved field is set. -/
theorem refused_small : ∃ e : Disk, Damaged (smallDisk.flush.view superBlockno) (e.view superBlockno) ∧
    run faultless (fsMount ⟨128⟩).run e =
      (.error (if (Super.decode (e.view superBlockno)).magic = superMagic then .euclean else .einval), e) := by
  have hdamaged : Damaged (smallDisk.flush.view superBlockno)
      ((settled (Function.update smallDisk.flush.view superBlockno
        (Function.update (smallDisk.flush.view superBlockno) 100 1))).view superBlockno) := by
    rw [view_settled, Function.update_self]
    exact damaged_update _ (.inr ⟨by decide, by decide⟩) (by decide +kernel)
  exact ⟨_, hdamaged, refused_of_damaged run_format_small run_fsMount_small (by decide) hdamaged⟩

end Logfs
