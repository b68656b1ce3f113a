import Logfs.PartialWrites
import Logfs.FsRuns

/-!
# The bytes of a file

A file is its bytes by position. The loop of `logfs_op_write` puts its buffer over them chunk by
chunk, the loop of `logfs_op_read` takes them out again, and the two need not cut a range at the
same places.
-/
namespace Logfs
open Interaction ByteBuffer

/-! ## Bytes put over others -/

/-- The bytes `f` with `bytes` over them from `pos` on. -/
def overlay (f : ℕ → UInt8) (pos : ℕ) (bytes : List UInt8) (p : ℕ) : UInt8 :=
  if pos ≤ p ∧ p < pos + bytes.length then bytes.getD (p - pos) 0 else f p

section Overlay
variable {f : ℕ → UInt8} {pos p : ℕ} {bytes : List UInt8}

@[simp] theorem overlay_nil : overlay f pos [] = f := by
  funext p
  exact if_neg (by simp)

theorem overlay_outside (hp : ¬ (pos ≤ p ∧ p < pos + bytes.length)) : overlay f pos bytes p = f p := if_neg hp

theorem overlay_inside {k : ℕ} (hk : k < bytes.length) : overlay f pos bytes (pos + k) = bytes.getD k 0 := by
  rw [overlay, if_pos (by omega), Nat.add_sub_cancel_left]

/-- A buffer goes over in two parts as it does in one. -/
theorem overlay_take_drop {n : ℕ} (hn : n ≤ bytes.length) :
    overlay (overlay f pos (bytes.take n)) (pos + n) (bytes.drop n) = overlay f pos bytes := by
  funext p
  simp only [overlay, List.length_take, List.length_drop, min_eq_left hn, List.getD_eq_getElem?_getD,
    List.getElem?_drop]
  by_cases hrest : pos + n ≤ p ∧ p < pos + n + (bytes.length - n)
  · rw [if_pos hrest, if_pos (by omega)]
    congr 2
    omega
  · rw [if_neg hrest]
    by_cases hfirst : pos ≤ p ∧ p < pos + n
    · rw [if_pos hfirst, if_pos (by omega), List.getElem?_take_of_lt (by omega)]
    · rw [if_neg hfirst, if_neg (by omega)]

/-- The bytes that were put over are the buffer. -/
theorem map_overlay : ((List.range bytes.length).map fun k => overlay f pos bytes (pos + k)) = bytes := by
  apply List.ext_getElem
  · simp
  · intro k _ hk
    rw [List.getElem_map, List.getElem_range, overlay_inside hk, List.getD_eq_getElem _ _ hk]

end Overlay

/-! ## The bytes of an inode -/

/-- The byte at each position of the blocks of an inode, where a hole is zero. -/
def Vol.bytesIn (V : Vol) (inode : Inode) (p : ℕ) : UInt8 :=
  if blockAt inode (p / blockSize) = 0 then 0 else byteAt (V.block (blockAt inode (p / blockSize))) (p % blockSize)

variable {sb : Super} {V V' : Vol} {live : Set UInt32} {content : Block → Block → Block} {i : UInt32}

theorem byteOf_eq_bytesIn (i : UInt32) (p : ℕ) : V.byteOf i p = V.bytesIn (V.inode i) p := rfl

theorem bytesIn_congr {inode : Inode} (h : ∀ k, blockAt inode k ≠ 0 → V'.block (blockAt inode k) = V.block (blockAt inode k)) :
    V'.bytesIn inode = V.bytesIn inode := by
  funext p
  unfold Vol.bytesIn
  split
  · rfl
  · next hne => rw [h _ hne]

/-- A chunk in one of the inode's blocks goes over its bytes. -/
theorem bytesIn_writeAt {inode : Inode} {pos : ℕ} {bytes : List UInt8}
    (hne : blockAt inode (pos / blockSize) ≠ 0)
    (hapart : ∀ k, k ≠ pos / blockSize → blockAt inode k ≠ blockAt inode (pos / blockSize))
    (hin : pos % blockSize + bytes.length ≤ blockSize) :
    (V.writeAt latest (blockAt inode (pos / blockSize)) pos bytes).bytesIn inode = overlay (V.bytesIn inode) pos bytes := by
  funext p
  have hpos := Nat.div_add_mod pos blockSize
  have hp := Nat.div_add_mod p blockSize
  have hmod := Nat.mod_lt p (show 0 < blockSize by decide)
  by_cases hsame : p / blockSize = pos / blockSize
  · rw [hsame] at hp
    rw [Vol.bytesIn, hsame, if_neg hne, Vol.writeAt, Vol.block_setBlock, if_pos rfl]
    refine (byteAt_chunkBuf _ hmod).trans ?_
    unfold overlay
    by_cases hover : pos % blockSize ≤ p % blockSize ∧ p % blockSize < pos % blockSize + bytes.length
    · rw [if_pos hover, if_pos (by omega)]
      congr 1
      omega
    · rw [if_neg hover, if_neg (by omega), Vol.bytesIn, hsame, if_neg hne]
  · have hout : ¬ (pos ≤ p ∧ p < pos + bytes.length) := by
      rintro ⟨hge, hlt⟩
      refine hsame (Nat.div_eq_of_lt_le ?_ ?_)
      · rw [Nat.mul_comm]
        omega
      · rw [Nat.add_mul, Nat.one_mul, Nat.mul_comm]
        omega
    rw [overlay_outside hout]
    unfold Vol.bytesIn
    split
    · rfl
    · rw [Vol.writeAt, Vol.block_setBlock, if_neg (hapart _ hsame)]

/-! ## The read loop -/

theorem chunkBytes_eq {inode : Inode} {pos size : ℕ} (hin : pos % blockSize + size ≤ blockSize) :
    V.chunkBytes inode pos size = (List.range size).map fun k => V.bytesIn inode (pos + k) := by
  have hsame : ∀ k < size, (pos + k) / blockSize = pos / blockSize ∧ (pos + k) % blockSize = pos % blockSize + k := by
    intro k hk
    rw [blockSize] at *
    omega
  unfold Vol.chunkBytes
  split
  · next hzero =>
      refine (List.eq_replicate_iff.mpr ⟨by simp, ?_⟩).symm
      simp only [List.mem_map, List.mem_range]
      rintro _ ⟨k, hk, rfl⟩
      rw [Vol.bytesIn, (hsame k hk).1, if_pos hzero]
  · next hne =>
      refine List.map_congr_left fun k hk => ?_
      obtain ⟨hdiv, hmod⟩ := hsame k (List.mem_range.mp hk)
      rw [Vol.bytesIn, hdiv, hmod, if_neg hne]

variable (content) in
theorem does_readLoop {inode : Inode} (hdata : ∀ b, blockAt inode b ≠ 0 → IsData sb (blockAt inode b)) (rounds : ℕ)
    {pos size : ℕ} (hrounds : size ≤ rounds) :
    Does sb content (readLoop inode rounds pos size) V
      (.ok ((List.range size).map fun k => V.bytesIn inode (pos + k))) V := by
  induction rounds generalizing pos size with
  | zero =>
      obtain rfl := Nat.le_zero.mp hrounds
      exact .pure _
  | succ rounds ih =>
      unfold readLoop
      by_cases hzero : size = 0
      · subst hzero
        exact .pure _
      · rw [if_neg hzero]
        obtain ⟨hpos, hle, hin, -⟩ := chunk_bounds pos (Nat.pos_of_ne_zero hzero)
        refine (does_readChunk content _ (hdata _)).bind ((ih (by omega)).bind ?_)
        have hsplit : (List.range size).map (fun k => V.bytesIn inode (pos + k)) =
            V.chunkBytes inode pos (chunkAt pos size) ++
              (List.range (size - chunkAt pos size)).map fun k => V.bytesIn inode (pos + chunkAt pos size + k) := by
          rw [chunkBytes_eq hin]
          conv => lhs; rw [← Nat.add_sub_of_le hle, List.range_add, List.map_append, List.map_map]
          simp only [Function.comp_def, Nat.add_assoc]
        rw [hsplit]
        exact .pure _

variable (content) in
/-- A read answers the bytes of the range, as far as the file goes. -/
theorem does_opRead (hs : RegionsSound sb) (h : Owned sb V live) (hi : i ∈ live) (size offset : ℕ) :
    Does sb content (opRead sb i size offset) V
      (.ok ((List.range (min size ((V.inode i).size.toNat - offset))).map fun k => V.byteOf i (offset + k))) V := by
  refine (does_inodeRead content hs (h.inUse hi).1).bind ?_
  split
  · next hend =>
      rw [Nat.sub_eq_zero_of_le hend, Nat.min_zero]
      exact .pure _
  · exact does_readLoop content (fun b hne => blockAt_data h hi hne) _ le_rfl

variable (content) in
theorem does_readByte (hs : RegionsSound sb) (h : Owned sb V live) (hi : i ∈ live) {pos : ℕ}
    (hpos : pos < (V.inode i).size.toNat) :
    Does sb content (opRead sb i 1 pos) V (.ok [V.byteOf i pos]) V := by
  have hread := does_opRead content hs h hi 1 pos
  rwa [Nat.min_eq_left (by omega), List.range_one, List.map_singleton, Nat.add_zero] at hread

/-! ## The blocks a write takes -/

/-- The free blocks in the order `logfs_alloc_block` finds them. -/
def Vol.freeList (sb : Super) (V : Vol) : List UInt64 :=
  ((blockBits sb).map fun k => sb.dataStart + UInt64.ofNat k).filter fun b => !V.blockUsed b

theorem nextBlock_eq_head : V.nextBlock sb = (V.freeList sb).head? := by
  rw [Vol.freeList, List.head?_filter, List.find?_map]
  rfl

theorem nodup_freeList (hs : RegionsSound sb) : (V.freeList sb).Nodup := by
  refine List.Nodup.filter _ (List.Nodup.map_on (fun k hk l hl heq => ?_) List.nodup_range)
  rw [← (blockBit_number hs hk).2, heq, (blockBit_number hs hl).2]

theorem freeList_markBlock (hs : RegionsSound sb) {b : UInt64} (hnext : V.nextBlock sb = some b) :
    V.freeList sb = b :: (V.markBlock b true).freeList sb := by
  rw [nextBlock_eq_head, List.head?_eq_some_iff] at hnext
  obtain ⟨bs, hlist⟩ := hnext
  have hnodup := nodup_freeList (V := V) hs
  rw [hlist] at hnodup
  have hmark : (V.markBlock b true).freeList sb = (V.freeList sb).filter fun c => c != b := by
    rw [Vol.freeList, Vol.freeList, List.filter_filter]
    refine List.filter_congr fun c _ => ?_
    rw [Vol.blockUsed_markBlock]
    by_cases hc : c = b <;> simp [hc]
  rw [hmark, hlist, List.filter_cons_of_neg (by simp), List.filter_eq_self.mpr]
  rintro c hc
  rw [bne_iff_ne]
  rintro rfl
  exact (List.nodup_cons.mp hnodup).1 hc

theorem Supplied.freeList {V₁ : Vol} {inode inode₁ : Inode} {b : ℕ} (hs : RegionsSound sb)
    (hsup : Supplied sb V V₁ inode inode₁ b) (hhole : blockAt inode b = 0) :
    V.freeList sb = blockAt inode₁ b :: V₁.freeList sb := by
  obtain ⟨hnext, hV₁⟩ := hsup.hole hhole
  rw [hV₁]
  exact freeList_markBlock hs hnext

/-- The block of index `k` holds some of the `n` bytes from `pos` on. -/
def Meets (pos n k : ℕ) : Prop := pos / blockSize ≤ k ∧ k < pos / blockSize + spanned pos n

theorem meets_round {pos n k : ℕ} (hn : 0 < n) :
    Meets pos n k ↔ k = pos / blockSize ∨ k ≠ pos / blockSize ∧ Meets (pos + chunkAt pos n) (n - chunkAt pos n) k := by
  obtain ⟨-, hle, -, hnext⟩ := chunk_bounds pos hn
  rw [Meets, Meets, spanned_round hn]
  by_cases hlast : chunkAt pos n < n
  · rw [(hnext hlast).1]
    omega
  · rw [show spanned (pos + chunkAt pos n) (n - chunkAt pos n) = 0 from if_pos (by omega)]
    omega

/-- `inode'` has the blocks of `inode`, and the first free blocks for the holes among the `n` bytes
from `pos` on. -/
structure Extends (sb : Super) (V : Vol) (inode inode' : Inode) (pos n : ℕ) : Prop where
  kept : ∀ k, blockAt inode k ≠ 0 → blockAt inode' k = blockAt inode k
  outside : ∀ k, blockAt inode k = 0 → ¬ Meets pos n k → blockAt inode' k = 0
  fresh : ∀ k, blockAt inode k = 0 → Meets pos n k →
    (V.freeList sb)[holesIn inode (pos / blockSize) (k - pos / blockSize)]? = some (blockAt inode' k)

theorem Extends.done {inode : Inode} {pos : ℕ} : Extends sb V inode inode pos 0 where
  kept _ _ := rfl
  outside _ hzero _ := hzero
  fresh k _ hmeet := by
    rw [Meets, spanned, if_pos rfl] at hmeet
    omega

/-- One round, into a block that is there or a new one, then the others. -/
theorem Extends.round {V₁ : Vol} {inode inode₁ inode' : Inode} {pos n : ℕ} (hn : 0 < n)
    (hothers : ∀ k, k ≠ pos / blockSize → blockAt inode₁ k = blockAt inode k)
    (hhead : blockAt inode₁ (pos / blockSize) ≠ 0)
    (hthere : blockAt inode (pos / blockSize) ≠ 0 →
      blockAt inode₁ (pos / blockSize) = blockAt inode (pos / blockSize) ∧ V₁.freeList sb = V.freeList sb)
    (hhole : blockAt inode (pos / blockSize) = 0 →
      V.freeList sb = blockAt inode₁ (pos / blockSize) :: V₁.freeList sb)
    (hrest : Extends sb V₁ inode₁ inode' (pos + chunkAt pos n) (n - chunkAt pos n)) :
    Extends sb V inode inode' pos n where
  kept := by
    intro k hk
    by_cases hfirst : k = pos / blockSize
    · subst hfirst
      rw [hrest.kept _ hhead, (hthere hk).1]
    · rw [hrest.kept k (by rwa [hothers k hfirst]), hothers k hfirst]
  outside := by
    intro k hk hnot
    rw [meets_round hn] at hnot
    have hfirst : k ≠ pos / blockSize := fun h => hnot (.inl h)
    exact hrest.outside k (by rwa [hothers k hfirst]) fun h => hnot (.inr ⟨hfirst, h⟩)
  fresh := by
    intro k hk hmeet
    rcases (meets_round hn).mp hmeet with rfl | ⟨hne, hmeet'⟩
    · rw [Nat.sub_self, hhole hk, hrest.kept _ hhead]
      rfl
    · have hafter := hrest.fresh k (by rwa [hothers k hne]) hmeet'
      have hlt : chunkAt pos n < n := by
        by_contra hlast
        rw [Meets, spanned, if_pos (by omega)] at hmeet'
        omega
      obtain ⟨-, -, -, hnext⟩ := chunk_bounds pos hn
      rw [(hnext hlt).1] at hafter
      have hge := hmeet.1
      have hcount : holesIn inode (pos / blockSize) (k - pos / blockSize) =
          (if blockAt inode (pos / blockSize) = 0 then 1 else 0) +
            holesIn inode₁ (pos / blockSize + 1) (k - (pos / blockSize + 1)) := by
        rw [show k - pos / blockSize = k - (pos / blockSize + 1) + 1 by omega, holesIn_succ]
        congr 1
        exact (holesIn_congr fun b hb => hothers b (by omega)).symm
      rw [hcount, ← hafter]
      by_cases hzero : blockAt inode (pos / blockSize) = 0
      · rw [if_pos hzero, hhole hzero, Nat.add_comm]
        rfl
      · rw [if_neg hzero, Nat.zero_add, (hthere hzero).2]

/-! ## The write loop -/

section Write
variable (hs : RegionsSound sb) {V₀ : Vol} (h : Owned sb V₀ live) {bound : ℕ} {inode : Inode}
include hs h

/-- With enough free blocks the loop puts the buffer over the bytes of the inode it ends with. -/
theorem does_writeLoop_bytes (rounds : ℕ) {pos : ℕ} {buf : List UInt8} (hrounds : buf.length ≤ rounds)
    (hw : Writing sb V₀ V live i bound inode) (hbound : pos + buf.length ≤ bound)
    (hmax : pos + buf.length ≤ maxFileSize)
    (hfit : holesIn inode (pos / blockSize) (spanned pos buf.length) ≤ V.freeCount sb) :
    ∃ inode' V', Does sb latest (writeLoop sb rounds inode pos buf) V (.ok inode') V' ∧
      Writing sb V₀ V' live i bound inode' ∧ Extends sb V inode inode' pos buf.length ∧
      V'.bytesIn inode' = overlay (V.bytesIn inode') pos buf := by
  induction rounds generalizing V inode pos buf with
  | zero =>
      obtain rfl := List.length_eq_zero_iff.mp (Nat.le_zero.mp hrounds)
      exact ⟨inode, V, .pure _, hw, .done, overlay_nil.symm⟩
  | succ rounds ih =>
      unfold writeLoop
      by_cases hnil : buf = []
      · subst hnil
        rw [if_pos rfl]
        exact ⟨inode, V, .pure _, hw, .done, overlay_nil.symm⟩
      · rw [if_neg hnil]
        have hlen := List.length_pos_iff.mpr hnil
        obtain ⟨hpos, hle, hin, -⟩ := chunk_bounds pos hlen
        rcases does_writeChunk latest hs h hw pos (buf.take (chunkAt pos buf.length)) (by omega) (by omega) with
          ⟨⟨hhole, hnext⟩, -⟩ | ⟨V₁, inode₁, hsup, hw₁, hdone⟩
        · rw [freeCount_of_full hnext, spanned_round hlen, holesIn_succ, if_pos hhole] at hfit
          omega
        · have hhead := hsup.data.ne_zero hs
          have hfit' : holesIn inode₁ ((pos + chunkAt pos buf.length) / blockSize)
              (spanned (pos + chunkAt pos buf.length) (buf.length - chunkAt pos buf.length)) ≤ V₁.freeCount sb := by
            rw [holesIn_round hlen fun b hlt => hsup.others b hlt.ne', hsup.freeCount hs] at hfit
            omega
          obtain ⟨inode', V', hloop, hw', hext, hbytes⟩ := @ih _ inode₁ (pos + chunkAt pos buf.length)
            (buf.drop (chunkAt pos buf.length)) (by rw [List.length_drop]; omega) hw₁ (by rw [List.length_drop]; omega)
            (by rw [List.length_drop]; omega) (by rw [List.length_drop]; exact hfit')
          rw [List.length_drop] at hext
          have hext₁ : Extends sb V₁ inode₁ inode' (pos + chunkAt pos buf.length)
              (buf.length - chunkAt pos buf.length) := ⟨hext.kept, hext.outside, hext.fresh⟩
          have hhead' := hext₁.kept _ hhead
          have hover : (V₁.writeAt latest (blockAt inode₁ (pos / blockSize)) pos
              (buf.take (chunkAt pos buf.length))).bytesIn inode' =
              overlay (V₁.bytesIn inode') pos (buf.take (chunkAt pos buf.length)) := by
            rw [← hhead']
            exact bytesIn_writeAt (by rwa [hhead']) (fun k hk => hw'.blockAt_apart hk (by rwa [hhead']))
              (by rw [List.length_take, min_eq_left hle]; exact hin)
          refine ⟨inode', V', hdone.bind hloop, hw', .round hlen hsup.others hhead ?_ (hsup.freeList hs) hext₁, ?_⟩
          · intro hne
            obtain ⟨rfl, rfl⟩ := hsup.there hne
            exact ⟨rfl, rfl⟩
          · rw [hbytes]
            refine (congrArg (overlay · _ _) hover).trans ?_
            rw [overlay_take_drop hle, bytesIn_congr fun k _ => congrFun hsup.block _]

end Write

/-! ## The whole call -/

theorem byteOf_of_landed {free pos : ℕ} {buf : List UInt8} (hinode : V'.inode i = V.inode i)
    (hland : Landed V V' (V.inode i) pos buf free) {p : ℕ}
    (hp : blockAt (V.inode i) (p / blockSize) ≠ 0) : V'.byteOf i p =
      if Reaches (V.inode i) pos buf.length free p then buf.getD (p - pos) 0 else V.byteOf i p := by
  have hb : p / blockSize < ndirBlocks := by
    by_contra hout
    exact hp (dif_neg hout)
  have hdiv : p / blockSize * blockSize + p % blockSize = p := by
    rw [Nat.mul_comm]
    exact Nat.div_add_mod p blockSize
  have hbyte := hland ⟨_, hb⟩ (by rwa [← blockAt_eq _ hb]) (p % blockSize) (Nat.mod_lt _ (by decide))
  rw [Vol.byteOf, Vol.byteOf, hinode, if_neg hp, if_neg hp, blockAt_eq _ hb, hbyte]
  simp only [hdiv]

/-- What a write that gets through does to a volume. -/
structure Wrote (sb : Super) (V V' : Vol) (live : Set UInt32) (i : UInt32) (buf : List UInt8) (offset : ℕ)
    (now : UInt64) : Prop where
  owned : Owned sb V' live
  blocks : Extends sb V (V.inode i) (V'.inode i) offset buf.length
  bytes : V'.byteOf i = overlay (V.bytesIn (V'.inode i)) offset buf
  size : (V'.inode i).size.toNat = max (V.inode i).size.toNat (offset + buf.length)
  fields : V'.inode i =
    { V.inode i with blocks := (V'.inode i).blocks, size := (V'.inode i).size, mtime := now }
  others : ∀ j, j ≠ i → V'.inode j = V.inode j
  kept : ∀ b, V.blockUsed b = true → (∀ k, (V.inode i).blocks k ≠ b) → V'.block b = V.block b

section Call
variable (hs : RegionsSound sb) (h : Owned sb V live) (hi : i ∈ live) (hfile : isDir (V.inode i).mode = false)
include hs h hi hfile

omit hs hfile in
/-- The other files' blocks are not written. -/
theorem kept_others (hkept : ∀ b, V.blockUsed b = true → (∀ k, (V.inode i).blocks k ≠ b) → V'.block b = V.block b)
    {j : UInt32} (hj : j ∈ live) (hji : j ≠ i) {k : Fin ndirBlocks} (hk : (V.inode j).blocks k ≠ 0) :
    V'.block ((V.inode j).blocks k) = V.block ((V.inode j).blocks k) :=
  hkept _ (h.placed hj hk).2 fun _ heq => hji (h.apart hj hi heq.symm hk).1

theorem does_opWrite_bytes {buf : List UInt8} {offset : ℕ} (hmax : offset + buf.length ≤ maxFileSize)
    (hfit : holesIn (V.inode i) (offset / blockSize) (spanned offset buf.length) ≤ V.freeCount sb) (now : UInt64) :
    ∃ V', Does sb latest (opWrite sb i buf offset now) V (.ok buf.length) V' ∧ Wrote sb V V' live i buf offset now := by
  have hino := (h.inUse hi).1
  obtain ⟨inode, V₁, hloop, hw, hext, hbytes⟩ := does_writeLoop_bytes hs h buf.length le_rfl
    (h.writing hi (offset + buf.length)) le_rfl hmax hfit
  obtain ⟨hsize, howned⟩ := hw.grown hi hfile h hmax now
  have hinode : (V₁.setInode i { inode with size := grownSize inode (offset + buf.length), mtime := now }).inode i =
      { inode with size := grownSize inode (offset + buf.length), mtime := now } := by
    rw [Vol.inode_setInode, if_pos rfl]
  refine ⟨V₁.setInode i { inode with size := grownSize inode (offset + buf.length), mtime := now }, ?_, howned, ?_,
    ?_, ?_, ?_, ?_, hw.kept⟩
  · unfold opWrite
    rw [if_neg (by omega)]
    exact .withHandle ((does_inodeRead latest hs hino).bind (hloop.bind ((does_inodeWrite hs hino _).bind (.pure _))))
  · rw [hinode]
    exact ⟨hext.kept, hext.outside, hext.fresh⟩
  · funext p
    rw [byteOf_eq_bytesIn, hinode]
    exact congrFun hbytes p
  · rw [hinode]
    exact hsize
  · rw [hinode]
    exact congrArg (fun x : Inode => { x with size := grownSize inode (offset + buf.length), mtime := now }) hw.fields
  · intro j hji
    rw [Vol.inode_setInode, if_neg hji, hw.stored]

omit hfile in
/-- On a volume with too few free blocks a write leaves its inode as it was. -/
theorem does_opWrite_full {buf : List UInt8} {offset : ℕ} (hmax : offset + buf.length ≤ maxFileSize)
    (hfull : V.freeCount sb < holesIn (V.inode i) (offset / blockSize) (spanned offset buf.length)) (now : UInt64) :
    ∃ V', Does sb latest (opWrite sb i buf offset now) V (.error .enospc) V' ∧ V'.inode = V.inode ∧
      Owned sb V' live ∧ Landed V V' (V.inode i) offset buf (V.freeCount sb) ∧
      ∀ b, V.blockUsed b = true → (∀ k, (V.inode i).blocks k ≠ b) → V'.block b = V.block b := by
  rcases does_writeLoop_full hs h buf.length le_rfl (h.writing hi (offset + buf.length)) le_rfl hmax with
    ⟨hfit, -⟩ | ⟨-, inode, V', hloop, hw, hland⟩
  · omega
  · refine ⟨V', ?_, hw.stored, hw.owned h, hland, hw.kept⟩
    unfold opWrite
    rw [if_neg (by omega)]
    exact .withHandle ((does_inodeRead latest hs (h.inUse hi).1).bind hloop.bind_error)

end Call

end Logfs
