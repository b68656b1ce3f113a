import Logfs.Observers

/-!
# Writes to a full volume

How far the loop of `logfs_op_write` comes with the blocks that are left, and what it has then
written to the blocks the file already had.
-/
namespace Logfs
open Interaction ByteBuffer

variable {sb : Super} {V V' : Vol} {live : Set UInt32}

/-! ## How far a write gets -/

/-- The positions of the bitmap whose blocks are not in use. -/
def Vol.freeBlocks (sb : Super) (V : Vol) : Finset ℕ :=
  (blockBits sb).toFinset.filter fun i => V.blockUsed (sb.dataStart + UInt64.ofNat i) = false

def Vol.freeCount (sb : Super) (V : Vol) : ℕ := (V.freeBlocks sb).card

theorem freeCount_of_full (h : V.nextBlock sb = none) : V.freeCount sb = 0 := by
  rw [Vol.nextBlock, Option.map_eq_none_iff, List.find?_eq_none] at h
  rw [Vol.freeCount, Finset.card_eq_zero, Vol.freeBlocks, Finset.filter_eq_empty_iff]
  intro i hi
  simpa using h i (List.mem_toFinset.mp hi)

theorem freeCount_markBlock (hs : RegionsSound sb) {b : UInt64} (h : V.nextBlock sb = some b) :
    (V.markBlock b true).freeCount sb + 1 = V.freeCount sb := by
  obtain ⟨k, hk, rfl⟩ := Option.map_eq_some_iff.mp h
  have hmem := List.mem_of_find?_eq_some hk
  have hfree : k ∈ V.freeBlocks sb := by
    rw [Vol.freeBlocks, Finset.mem_filter]
    exact ⟨List.mem_toFinset.mpr hmem, by simpa using List.find?_some hk⟩
  have herase : (V.markBlock (sb.dataStart + UInt64.ofNat k) true).freeBlocks sb =
      (V.freeBlocks sb).erase k := by
    ext i
    simp only [Vol.freeBlocks, Finset.mem_erase, Finset.mem_filter, List.mem_toFinset,
      Vol.blockUsed_markBlock]
    by_cases hik : i = k
    · simp [hik]
    · by_cases hi : i ∈ blockBits sb
      · have hne : sb.dataStart + UInt64.ofNat i ≠ sb.dataStart + UInt64.ofNat k := by
          intro he
          have hto := (blockBit_number hs hi).2
          rw [he, (blockBit_number hs hmem).2] at hto
          exact hik hto.symm
        simp [hik, hi, hne]
      · simp [hi]
  rw [Vol.freeCount, herase, Finset.card_erase_add_one hfree, Vol.freeCount]

/-- How many of the `n` blocks of the file from index `first` on are holes. -/
def holesIn (inode : Inode) (first n : ℕ) : ℕ :=
  (List.range' first n).countP fun b => blockAt inode b = 0

/-- How many blocks of a file the `n` bytes from `pos` on lie in. -/
def spanned (pos n : ℕ) : ℕ := if n = 0 then 0 else (pos + n - 1) / blockSize - pos / blockSize + 1

/-- A write of `n` bytes to `pos` with `free` blocks left comes as far as position `p`. -/
def Reaches (inode : Inode) (pos n free p : ℕ) : Prop :=
  pos ≤ p ∧ p < pos + n ∧ holesIn inode (pos / blockSize) (p / blockSize - pos / blockSize) ≤ free

instance (inode : Inode) (pos n free p : ℕ) : Decidable (Reaches inode pos n free p) := by
  unfold Reaches
  infer_instance

section Holes
variable {inode inode' : Inode} {pos n free p : ℕ}

theorem holesIn_succ (first : ℕ) :
    holesIn inode first (n + 1) = (if blockAt inode first = 0 then 1 else 0) + holesIn inode (first + 1) n := by
  rw [holesIn, List.range'_succ, List.countP_cons, holesIn, Nat.add_comm]
  simp

theorem holesIn_congr {first : ℕ} (h : ∀ b, first ≤ b → blockAt inode' b = blockAt inode b) :
    holesIn inode' first n = holesIn inode first n := by
  apply List.countP_congr
  intro b hb
  rw [h b (List.mem_range'_1.mp hb).1]

variable (pos) in
/-- The first chunk ends with the bytes or with its block. -/
theorem chunk_bounds (hn : 0 < n) : 0 < chunkAt pos n ∧ chunkAt pos n ≤ n ∧
    pos % blockSize + chunkAt pos n ≤ blockSize ∧
    (chunkAt pos n < n → (pos + chunkAt pos n) / blockSize = pos / blockSize + 1 ∧
      pos + chunkAt pos n = (pos / blockSize + 1) * blockSize) := by
  simp only [chunkAt, blockSize]
  omega

theorem spanned_round (hn : 0 < n) :
    spanned pos n = spanned (pos + chunkAt pos n) (n - chunkAt pos n) + 1 := by
  obtain ⟨-, hle, hin, hnext⟩ := chunk_bounds pos hn
  simp only [spanned, if_neg hn.ne', blockSize] at hin hnext ⊢
  by_cases hlast : n - chunkAt pos n = 0
  · rw [if_pos hlast]
    omega
  · rw [if_neg hlast]
    obtain ⟨hblock, hstart⟩ := hnext (by omega)
    omega

/-- The first chunk may fill the hole at its block. -/
theorem holesIn_round (hn : 0 < n) (hsame : ∀ b, pos / blockSize < b → blockAt inode' b = blockAt inode b) :
    holesIn inode (pos / blockSize) (spanned pos n) = (if blockAt inode (pos / blockSize) = 0 then 1 else 0) +
      holesIn inode' ((pos + chunkAt pos n) / blockSize)
        (spanned (pos + chunkAt pos n) (n - chunkAt pos n)) := by
  rw [spanned_round hn, holesIn_succ]
  congr 1
  by_cases hlast : n - chunkAt pos n = 0
  · simp [spanned, hlast, holesIn]
  · obtain ⟨-, hle, -, hnext⟩ := chunk_bounds pos hn
    rw [(hnext (by omega)).1]
    exact (holesIn_congr fun b hb => hsame b hb).symm

theorem not_reaches_round (hn : 0 < n) (hp : p / blockSize = pos / blockSize) :
    ¬ Reaches inode' (pos + chunkAt pos n) (n - chunkAt pos n) free p := by
  rintro ⟨hge, hlt, -⟩
  obtain ⟨-, hle, -, hnext⟩ := chunk_bounds pos hn
  have hblock := Nat.div_le_div_right (c := blockSize) hge
  rw [(hnext (by omega)).1] at hblock
  omega

theorem reaches_round (hn : 0 < n) (hsame : ∀ b, pos / blockSize < b → blockAt inode' b = blockAt inode b)
    (hp : p / blockSize ≠ pos / blockSize) :
    Reaches inode' (pos + chunkAt pos n) (n - chunkAt pos n) free p ↔
      Reaches inode pos n (free + if blockAt inode (pos / blockSize) = 0 then 1 else 0) p := by
  obtain ⟨hpos, hle, hin, hnext⟩ := chunk_bounds pos hn
  have hafter : pos ≤ p → p < pos + n → pos + chunkAt pos n ≤ p ∧ chunkAt pos n < n := by
    intro hge hlt
    have hblock := Nat.div_le_div_right (c := blockSize) hge
    have hbelow : pos + chunkAt pos n ≤ p := by
      have hdiv := Nat.div_add_mod pos blockSize
      have hstart := Nat.div_mul_le_self p blockSize
      have hmul : (pos / blockSize + 1) * blockSize ≤ p / blockSize * blockSize :=
        Nat.mul_le_mul_right _ (by omega)
      rw [Nat.add_mul, Nat.one_mul] at hmul
      rw [Nat.mul_comm] at hdiv
      omega
    omega
  have hcount : chunkAt pos n < n → pos / blockSize < p / blockSize →
      holesIn inode (pos / blockSize) (p / blockSize - pos / blockSize) =
        (if blockAt inode (pos / blockSize) = 0 then 1 else 0) +
          holesIn inode' ((pos + chunkAt pos n) / blockSize)
            (p / blockSize - (pos + chunkAt pos n) / blockSize) := by
    intro hlt hblock
    rw [(hnext hlt).1, show p / blockSize - pos / blockSize = p / blockSize - (pos / blockSize + 1) + 1 by omega,
      holesIn_succ]
    congr 1
    exact (holesIn_congr fun b hb => hsame b hb).symm
  constructor
  · rintro ⟨hge, hlt, hfit⟩
    have hblock := Nat.div_le_div_right (c := blockSize) hge
    refine ⟨by omega, by omega, ?_⟩
    rw [hcount (by omega) (by rw [(hnext (by omega)).1] at hblock; omega)]
    omega
  · rintro ⟨hge, hlt, hfit⟩
    obtain ⟨hge', hlt'⟩ := hafter hge hlt
    have hblock := Nat.div_le_div_right (c := blockSize) hge
    rw [hcount hlt' (by omega)] at hfit
    exact ⟨hge', by omega, by omega⟩

end Holes

/-! ## What a write leaves -/

/-- The blocks the inode has, after a write that came as far as it could. -/
def Landed (V V' : Vol) (inode : Inode) (pos : ℕ) (buf : List UInt8) (free : ℕ) : Prop :=
  ∀ k : Fin ndirBlocks, inode.blocks k ≠ 0 → ∀ j < blockSize,
    byteAt (V'.block (inode.blocks k)) j =
      if Reaches inode pos buf.length free (k.val * blockSize + j) then
        buf.getD (k.val * blockSize + j - pos) 0
      else byteAt (V.block (inode.blocks k)) j

section Bytes
variable {inode inode' : Inode} {pos free : ℕ} {buf : List UInt8} {V₁ : Vol}

theorem byteAt_chunkBuf (b : UInt64) {bytes : List UInt8} {j : ℕ} (hj : j < blockSize) : byteAt (V.chunkBuf b pos bytes) j =
      if pos % blockSize ≤ j ∧ j < pos % blockSize + bytes.length then bytes.getD (j - pos % blockSize) 0
      else byteAt (V.block b) j := by
  rw [Vol.chunkBuf, byteAt_splice]
  by_cases hcovered : pos % blockSize ≤ j ∧ j < pos % blockSize + bytes.length
  · rw [if_pos hcovered, if_pos ⟨hj, hcovered⟩]
  · rw [if_neg hcovered, if_neg fun hc => hcovered hc.2, if_pos]
    -- a chunk that is the whole block covers every byte
    by_contra hwhole
    omega

/-- One round of the loop, then the others. -/
theorem landed_round (hne : buf ≠ [])
    (hsame : ∀ b, pos / blockSize < b → blockAt inode' b = blockAt inode b)
    (hhead : ∀ k : Fin ndirBlocks, k.val = pos / blockSize → inode.blocks k ≠ 0 →
      inode'.blocks k = inode.blocks k ∧ V₁.block (inode.blocks k) =
        V.chunkBuf (inode.blocks k) pos (buf.take (chunkAt pos buf.length)))
    (hothers : ∀ k : Fin ndirBlocks, k.val ≠ pos / blockSize → inode.blocks k ≠ 0 →
      inode'.blocks k = inode.blocks k ∧ V₁.block (inode.blocks k) = V.block (inode.blocks k))
    (hrest : Landed V₁ V' inode' (pos + chunkAt pos buf.length) (buf.drop (chunkAt pos buf.length)) free) :
    Landed V V' inode pos buf (free + if blockAt inode (pos / blockSize) = 0 then 1 else 0) := by
  intro k hk j hj
  have hlen := List.length_pos_iff.mpr hne
  obtain ⟨-, hle, -, hnext⟩ := chunk_bounds pos hlen
  have hdiv : (k.val * blockSize + j) / blockSize = k.val := by
    rw [blockSize] at *
    omega
  by_cases hfirst : k.val = pos / blockSize
  · obtain ⟨heq, hblock⟩ := hhead k hfirst hk
    have hbyte := hrest k (heq ▸ hk) j hj
    rw [List.length_drop, heq, if_neg (not_reaches_round hlen (hdiv.trans hfirst)), hblock,
      byteAt_chunkBuf _ hj, List.length_take,
      min_eq_left hle] at hbyte
    have hstart := Nat.div_add_mod pos blockSize
    rw [Nat.mul_comm, ← hfirst] at hstart
    have hcovered : Reaches inode pos buf.length (free + if blockAt inode (pos / blockSize) = 0 then 1 else 0)
        (k.val * blockSize + j) ↔
        pos % blockSize ≤ j ∧ j < pos % blockSize + chunkAt pos buf.length := by
      rw [Reaches, hdiv, hfirst, Nat.sub_self, ← hfirst]
      constructor
      · rintro ⟨hge, hlt, -⟩
        refine ⟨by omega, ?_⟩
        by_contra hout
        have hmore := (hnext (by omega)).2
        rw [← hfirst, Nat.add_mul, Nat.one_mul] at hmore
        omega
      · rintro ⟨hge, hlt⟩
        exact ⟨by omega, by omega, Nat.zero_le _⟩
    rw [hbyte]
    by_cases hc : pos % blockSize ≤ j ∧ j < pos % blockSize + chunkAt pos buf.length
    · rw [if_pos hc, if_pos (hcovered.mpr hc), List.getD_eq_getElem?_getD, List.getElem?_take_of_lt (by omega),
        ← List.getD_eq_getElem?_getD]
      congr 1
      omega
    · rw [if_neg hc, if_neg fun hr => hc (hcovered.mp hr)]
  · obtain ⟨heq, hblock⟩ := hothers k hfirst hk
    have hbyte := hrest k (heq ▸ hk) j hj
    rw [List.length_drop, heq, hblock] at hbyte
    have hiff : Reaches inode' _ _ free (k.val * blockSize + j) ↔ _ :=
      reaches_round hlen hsame (by rw [hdiv]; exact hfirst)
    rw [hbyte]
    by_cases hr : Reaches inode' (pos + chunkAt pos buf.length) (buf.length - chunkAt pos buf.length) free
        (k.val * blockSize + j)
    · have hge := hr.1
      rw [if_pos hr, if_pos (hiff.mp hr), List.getD_eq_getElem?_getD, List.getElem?_drop,
        ← List.getD_eq_getElem?_getD]
      congr 1
      omega
    · rw [if_neg hr, if_neg fun hr' => hr (hiff.mpr hr')]

end Bytes

/-- A write that stops at once has left nothing: its hole comes before every block that is there. -/
theorem landed_of_full {inode : Inode} {pos : ℕ} {buf : List UInt8}
    (hhole : blockAt inode (pos / blockSize) = 0) : Landed V V inode pos buf 0 := by
  intro k hk j hj
  rw [if_neg]
  rintro ⟨hge, -, hfit⟩
  have hdiv : (k.val * blockSize + j) / blockSize = k.val := by
    rw [blockSize] at *
    omega
  have hle := Nat.div_le_div_right (c := blockSize) hge
  have hne : k.val ≠ pos / blockSize := by
    intro he
    rw [← he, blockAt_eq inode k.isLt] at hhole
    exact hk hhole
  rw [hdiv] at hfit hle
  rw [show k.val - pos / blockSize = k.val - pos / blockSize - 1 + 1 by omega, holesIn_succ, if_pos hhole] at hfit
  omega

/-- With enough free blocks for its holes a write gets through; else it ends at the first hole it
finds no block for. -/
def WriteEnds (sb : Super) (V₀ V : Vol) (live : Set UInt32) (i : UInt32) (bound : ℕ) (inode : Inode)
    (pos : ℕ) (buf : List UInt8) (p : TxnEM Inode) : Prop :=
  (holesIn inode (pos / blockSize) (spanned pos buf.length) ≤ V.freeCount sb ∧
    ∃ inode' V', Does sb latest p V (.ok inode') V') ∨
  (V.freeCount sb < holesIn inode (pos / blockSize) (spanned pos buf.length) ∧
    ∃ inode' V', Does sb latest p V (.error .enospc) V' ∧ Writing sb V₀ V' live i bound inode' ∧
      Landed V V' inode pos buf (V.freeCount sb))

theorem Supplied.freeCount {V₁ : Vol} {inode inode₁ : Inode} {b : ℕ} (hs : RegionsSound sb)
    (hsup : Supplied sb V V₁ inode inode₁ b) :
    V.freeCount sb = V₁.freeCount sb + if blockAt inode b = 0 then 1 else 0 := by
  by_cases hhole : blockAt inode b = 0
  · obtain ⟨hnext, hV₁⟩ := hsup.hole hhole
    rw [if_pos hhole, hV₁]
    exact (freeCount_markBlock hs hnext).symm
  · rw [if_neg hhole, (hsup.there hhole).2]
    rfl

/-- One round, into a block that is there or a new one, then the others. -/
theorem ends_round (hs : RegionsSound sb) {V₀ V₁ : Vol} {i : UInt32} {bound pos : ℕ} {inode inode₁ : Inode}
    {buf : List UInt8} {rest : Inode → TxnEM Inode} (hne : buf ≠ [])
    (hsup : Supplied sb V V₁ inode inode₁ (pos / blockSize))
    (hw : Writing sb V₀ (V₁.writeAt latest (blockAt inode₁ (pos / blockSize)) pos
      (buf.take (chunkAt pos buf.length))) live i bound inode₁)
    (hdone : Does sb latest (writeChunk sb inode pos (buf.take (chunkAt pos buf.length))) V (.ok inode₁)
      (V₁.writeAt latest (blockAt inode₁ (pos / blockSize)) pos (buf.take (chunkAt pos buf.length))))
    (hrest : WriteEnds sb V₀ (V₁.writeAt latest (blockAt inode₁ (pos / blockSize)) pos
      (buf.take (chunkAt pos buf.length))) live i bound inode₁ (pos + chunkAt pos buf.length)
      (buf.drop (chunkAt pos buf.length)) (rest inode₁)) :
    WriteEnds sb V₀ V live i bound inode pos buf (do
      let inode ← writeChunk sb inode pos (buf.take (chunkAt pos buf.length))
      rest inode) := by
  have hsame : ∀ b, pos / blockSize < b → blockAt inode₁ b = blockAt inode b :=
    fun b hlt => hsup.others b hlt.ne'
  have hfree := hsup.freeCount hs
  unfold WriteEnds at hrest ⊢
  rw [holesIn_round (List.length_pos_iff.mpr hne) hsame]
  rw [List.length_drop] at hrest
  change (_ ≤ V₁.freeCount sb ∧ _) ∨ (V₁.freeCount sb < _ ∧ _) at hrest
  rcases hrest with ⟨hfit, inode', V', hrun⟩ | ⟨hfull, inode', V', hrun, hw', hland⟩
  · exact .inl ⟨by omega, inode', V', hdone.bind hrun⟩
  · refine .inr ⟨by omega, inode', V', hdone.bind hrun, hw', ?_⟩
    rw [hfree]
    refine landed_round hne hsame ?_ ?_ hland
    · intro k hk hthere
      have hat : blockAt inode (pos / blockSize) = inode.blocks k := by
        rw [← hk]
        exact blockAt_eq inode k.isLt
      obtain ⟨rfl, rfl⟩ := hsup.there (by rwa [hat])
      refine ⟨rfl, ?_⟩
      rw [Vol.writeAt, Vol.block_setBlock, hat, if_pos rfl]
      rfl
    · intro k hk hthere
      have hkept := hsup.others k.val hk
      have hapart := hw.blockAt_apart hk (hsup.data.ne_zero hs)
      rw [hkept] at hapart
      rw [blockAt_eq _ k.isLt, blockAt_eq _ k.isLt] at hkept
      rw [blockAt_eq inode k.isLt] at hapart
      refine ⟨hkept, ?_⟩
      rw [Vol.writeAt, Vol.block_setBlock, if_neg hapart, hsup.block]

section Write
variable (hs : RegionsSound sb) {V₀ : Vol} (h : Owned sb V₀ live) {i : UInt32} {bound : ℕ} {inode : Inode}
include hs h

theorem does_writeLoop_full (rounds : ℕ) {pos : ℕ} {buf : List UInt8} (hrounds : buf.length ≤ rounds)
    (hw : Writing sb V₀ V live i bound inode) (hbound : pos + buf.length ≤ bound)
    (hmax : pos + buf.length ≤ maxFileSize) :
    WriteEnds sb V₀ V live i bound inode pos buf (writeLoop sb rounds inode pos buf) := by
  induction rounds generalizing V inode pos buf with
  | zero =>
      obtain rfl := List.length_eq_zero_iff.mp (Nat.le_zero.mp hrounds)
      exact .inl ⟨Nat.zero_le _, inode, V, .pure _⟩
  | succ rounds ih =>
      unfold writeLoop
      by_cases hnil : buf = []
      · subst hnil
        rw [if_pos rfl]
        exact .inl ⟨Nat.zero_le _, inode, V, .pure _⟩
      · rw [if_neg hnil]
        have hlen := List.length_pos_iff.mpr hnil
        obtain ⟨hpos, hle, hin, -⟩ := chunk_bounds pos hlen
        rcases does_writeChunk latest hs h hw pos (buf.take (chunkAt pos buf.length)) (by omega) (by omega) with
          ⟨⟨hhole, hnext⟩, hfull⟩ | ⟨V₁, inode₁, hsup, hw₁, hdone⟩
        · have hfree := freeCount_of_full hnext
          have hcost : 0 < holesIn inode (pos / blockSize) (spanned pos buf.length) := by
            rw [spanned_round hlen, holesIn_succ, if_pos hhole]
            omega
          refine .inr ⟨by omega, inode, V, hfull.bind_error, hw, ?_⟩
          rw [hfree]
          exact landed_of_full hhole
        · refine ends_round hs hnil hsup hw₁ hdone ?_
          exact ih (by rw [List.length_drop]; omega) hw₁ (by rw [List.length_drop]; omega)
            (by rw [List.length_drop]; omega)

end Write

end Logfs
