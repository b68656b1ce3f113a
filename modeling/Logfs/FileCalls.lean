import Logfs.DirAdd

/-!
# Blocks of a file

What `truncate_blocks` and the loop of `logfs_op_write` do to a volume.
-/
namespace Logfs
open Interaction ByteBuffer

variable {sb : Super} {content : Block → Block → Block} {V V' : Vol} {live : Set UInt32}

/-! ## Blocks given up -/

/-- None of the blocks is in use any more. -/
def Vol.freeAll (V : Vol) (bs : List UInt64) : Vol :=
  { V with blockUsed := fun b => V.blockUsed b && !bs.contains b }

@[simp] theorem inode_freeAll (bs : List UInt64) : (V.freeAll bs).inode = V.inode := rfl

@[simp] theorem inodeUsed_freeAll (bs : List UInt64) : (V.freeAll bs).inodeUsed = V.inodeUsed := rfl

@[simp] theorem block_freeAll (bs : List UInt64) : (V.freeAll bs).block = V.block := rfl

theorem blockUsed_freeAll {bs : List UInt64} {b : UInt64} (h : b ∉ bs) :
    (V.freeAll bs).blockUsed b = V.blockUsed b := by
  simp [Vol.freeAll, h]

theorem freeAll_cons (b : UInt64) (bs : List UInt64) :
    V.freeAll (b :: bs) = (V.markBlock b false).freeAll bs := by
  simp only [Vol.freeAll, Vol.markBlock, Vol.mk.injEq, true_and, and_true]
  ext1 c
  rw [Function.update_apply]
  by_cases hcb : c = b <;> simp [hcb]

/-- The blocks of the inode at the indices that are not holes. -/
def blocksAt (inode : Inode) (ks : List (Fin ndirBlocks)) : List UInt64 :=
  (ks.map inode.blocks).filter fun b => b != 0

theorem mem_blocksAt {inode : Inode} {ks : List (Fin ndirBlocks)} {b : UInt64} :
    b ∈ blocksAt inode ks ↔ ∃ k ∈ ks, inode.blocks k = b ∧ b ≠ 0 := by
  simp only [blocksAt, List.mem_filter, List.mem_map, bne_iff_ne]
  constructor
  · rintro ⟨⟨k, hk, rfl⟩, hne⟩
    exact ⟨k, hk, rfl, hne⟩
  · rintro ⟨k, hk, rfl, hne⟩
    exact ⟨⟨k, hk, rfl⟩, hne⟩

variable (content) in
theorem does_truncateLoop (hs : RegionsSound sb) {inode : Inode} {ks : List (Fin ndirBlocks)}
    (hnodup : ks.Nodup) (hdata : ∀ k ∈ ks, inode.blocks k ≠ 0 → IsData sb (inode.blocks k)) :
    Does sb content (truncateLoop sb inode ks) V
      (.ok { inode with blocks := fun k => if k ∈ ks then 0 else inode.blocks k })
      (V.freeAll (blocksAt inode ks)) := by
  induction ks generalizing V inode with
  | nil =>
      have hV : V.freeAll (blocksAt inode []) = V := by simp [Vol.freeAll, blocksAt]
      rw [hV]
      simp only [List.not_mem_nil, if_false]
      exact .pure _
  | cons k ks ih =>
      obtain ⟨hk, hnodup⟩ := List.nodup_cons.mp hnodup
      have hrest : ∀ l ∈ ks, inode.blocks l ≠ 0 → IsData sb (inode.blocks l) :=
        fun l hl => hdata l (List.mem_cons_of_mem _ hl)
      unfold truncateLoop
      by_cases hzero : inode.blocks k = 0
      · have hsame : blocksAt inode (k :: ks) = blocksAt inode ks := by simp [blocksAt, hzero]
        have hcut : (fun l => if l ∈ k :: ks then 0 else inode.blocks l) =
            fun l => if l ∈ ks then 0 else inode.blocks l := by
          ext1 l
          by_cases hl : l = k
          · simp [hl, hzero]
          · simp [hl]
        rw [if_pos hzero, hsame, hcut]
        exact ih hnodup hrest
      · rw [if_neg hzero]
        have hne : ∀ l ∈ ks, Function.update inode.blocks k 0 l = inode.blocks l := by
          intro l hl
          rw [Function.update_of_ne]
          rintro rfl
          exact hk hl
        have htail : blocksAt { inode with blocks := Function.update inode.blocks k 0 } ks =
            blocksAt inode ks := by
          rw [blocksAt, blocksAt, List.map_congr_left hne]
        have hhead : blocksAt inode (k :: ks) = inode.blocks k :: blocksAt inode ks := by
          simp [blocksAt, hzero]
        have hcut : (fun l => if l ∈ k :: ks then 0 else inode.blocks l) =
            fun l => if l ∈ ks then 0 else Function.update inode.blocks k 0 l := by
          ext1 l
          by_cases hl : l = k
          · simp [hl]
          · simp [hl]
        rw [hhead, freeAll_cons, hcut, ← htail]
        refine (does_freeBlock hs (hdata k (List.mem_cons_self ..) hzero)).bind (ih hnodup ?_)
        intro l hl
        change Function.update inode.blocks k 0 l ≠ 0 → IsData sb (Function.update inode.blocks k 0 l)
        rw [hne l hl]
        exact hrest l hl

/-- The inode without its blocks from index `keep` on. -/
def Inode.cut (inode : Inode) (keep : ℕ) : Inode :=
  { inode with blocks := fun k => if keep ≤ k.val then 0 else inode.blocks k }

def Inode.tail (inode : Inode) (keep : ℕ) : List UInt64 :=
  blocksAt inode ((List.finRange ndirBlocks).filter fun b => keep ≤ b.val)

theorem Inode.mem_tail {inode : Inode} {keep : ℕ} {b : UInt64} :
    b ∈ inode.tail keep ↔ ∃ k : Fin ndirBlocks, keep ≤ k.val ∧ inode.blocks k = b ∧ b ≠ 0 := by
  simp [Inode.tail, mem_blocksAt]

theorem does_truncateBlocks (hs : RegionsSound sb) {inode : Inode} {keep : ℕ}
    (hdata : ∀ k, inode.blocks k ≠ 0 → IsData sb (inode.blocks k)) :
    Does sb content (truncateBlocks sb inode keep) V (.ok (inode.cut keep)) (V.freeAll (inode.tail keep)) := by
  have hloop : Does sb content (truncateLoop sb inode ((List.finRange ndirBlocks).filter
      fun b => keep ≤ b.val)) V _ _ := does_truncateLoop content hs
    ((List.nodup_finRange _).filter _) fun k _ => hdata k
  simpa [truncateBlocks, Inode.cut, Inode.tail] using hloop

theorem Inode.cut_ne_zero {inode : Inode} {keep : ℕ} {k : Fin ndirBlocks}
    (h : (inode.cut keep).blocks k ≠ 0) :
    k.val < keep ∧ (inode.cut keep).blocks k = inode.blocks k := by
  simp only [Inode.cut] at h ⊢
  by_cases hk : keep ≤ k.val
  · rw [if_pos hk] at h
    exact absurd rfl h
  · exact ⟨by omega, if_neg hk⟩

theorem Owned.MayOwn.cut {i : UInt32} {inode : Inode} (h : Owned.MayOwn sb V live i inode.blocks)
    (keep : ℕ) : Owned.MayOwn sb V live i (inode.cut keep).blocks where
  placed := by
    intro k hk
    have heq := (Inode.cut_ne_zero hk).2
    rw [heq] at hk ⊢
    exact h.placed k hk
  apart := by
    intro k l heq hk
    have hl : (inode.cut keep).blocks l ≠ 0 := heq ▸ hk
    rw [(Inode.cut_ne_zero hk).2] at heq hk
    rw [(Inode.cut_ne_zero hl).2] at heq
    exact h.apart k l heq hk
  others := by
    intro j hj hji k l hk
    have heq := (Inode.cut_ne_zero hk).2
    rw [heq] at hk ⊢
    exact h.others j hj hji k l hk

/-- Blocks that no live inode has may be given up. -/
theorem Owned.freeAll (h : Owned sb V live) {bs : List UInt64}
    (hbs : ∀ i ∈ live, ∀ k, (V.inode i).blocks k ≠ 0 → (V.inode i).blocks k ∉ bs) :
    Owned sb (V.freeAll bs) live := by
  refine h.congr (fun _ _ => rfl) (fun i hi => (h.inUse hi).2) ?_
  intro i hi k hk
  rw [blockUsed_freeAll (hbs i hi k hk)]
  exact (h.placed hi hk).2

/-- The inode whose blocks are given up is live no longer. -/
theorem Owned.freeTail (h : Owned sb V live) {i : UInt32} (hi : i ∈ live) {inode : Inode}
    (hblocks : inode.blocks = (V.inode i).blocks) :
    Owned sb (V.freeAll (inode.tail 0)) (live \ {i}) := by
  apply (h.subset Set.sdiff_subset).freeAll
  rintro j ⟨hj, hji⟩ k hne
  rw [Inode.mem_tail]
  rintro ⟨l, -, heq, -⟩
  rw [hblocks] at heq
  exact hji (h.apart hj hi heq.symm hne).1

/-- A file keeps its blocks before index `keep` and gives up the others. -/
theorem Owned.cutFile (h : Owned sb V live) {i : UInt32} (hi : i ∈ live) {keep : ℕ} {inode : Inode}
    (hblocks : inode.blocks = ((V.inode i).cut keep).blocks) (hshape : Shaped inode) :
    Owned sb ((V.freeAll ((V.inode i).tail keep)).setInode i inode) live := by
  have hset : Owned sb (V.setInode i inode) live := by
    apply h.setInode_live hi ?_ hshape
    rw [hblocks]
    exact (h.mayOwn hi).cut keep
  apply hset.freeAll
  intro j hj k hk
  rw [Inode.mem_tail]
  rintro ⟨l, hl, heq, hne⟩
  rw [Vol.inode_setInode] at heq hk
  by_cases hji : j = i
  · rw [if_pos hji, hblocks] at heq hk
    obtain ⟨hlt, hcut⟩ := Inode.cut_ne_zero hk
    rw [hcut] at heq hk
    have hkl := (h.apart hi hi heq (heq ▸ hk)).2
    rw [hkl] at hl
    omega
  · rw [if_neg hji] at heq hk
    exact hji (h.apart hj hi heq.symm hk).1

theorem Owned.clearInode (h : Owned sb V live) {i : UInt32} (hi : i ∉ live) :
    Owned sb (V.markInode i false) live := by
  refine h.congr (fun _ _ => rfl) ?_ fun _ hj _ hne => (h.placed hj hne).2
  intro j hj
  rw [Vol.inodeUsed_markInode, if_neg]
  · exact (h.inUse hj).2
  · rintro rfl
    exact hi hj

/-! ## Blocks written -/

/-- `V` is reached from `V₀` while file `i` is being written up to position `bound`, and `inode` is
what its inode will be, but for its size and time. -/
structure Writing (sb : Super) (V₀ V : Vol) (live : Set UInt32) (i : UInt32) (bound : ℕ)
    (inode : Inode) : Prop where
  stored : V.inode = V₀.inode
  inodeUsed : V.inodeUsed = V₀.inodeUsed
  blockUsed : ∀ b, V₀.blockUsed b = true → V.blockUsed b = true
  kept : ∀ b, V₀.blockUsed b = true → (∀ k, (V₀.inode i).blocks k ≠ b) → V.block b = V₀.block b
  fields : inode = { V₀.inode i with blocks := inode.blocks }
  own : Owned.MayOwn sb V live i inode.blocks
  blocks : ∀ k, inode.blocks k = (V₀.inode i).blocks k ∨
    (V₀.inode i).blocks k = 0 ∧ V₀.blockUsed (inode.blocks k) = false ∧ k.val * blockSize < bound

theorem Owned.writing (h : Owned sb V live) {i : UInt32} (hi : i ∈ live) (bound : ℕ) :
    Writing sb V V live i bound (V.inode i) where
  stored := rfl
  inodeUsed := rfl
  blockUsed _ hb := hb
  kept _ _ _ := rfl
  fields := rfl
  own := h.mayOwn hi
  blocks _ := .inl rfl

namespace Writing
variable {V₀ : Vol} {i : UInt32} {bound : ℕ} {inode : Inode}

theorem owned (hw : Writing sb V₀ V live i bound inode) (h : Owned sb V₀ live) : Owned sb V live :=
  h.congr (fun j _ => by rw [hw.stored]) (fun j hj => by rw [hw.inodeUsed]; exact (h.inUse hj).2)
    fun j hj k hne => hw.blockUsed _ (h.placed hj hne).2

/-- A block is taken for a hole. -/
theorem add (hw : Writing sb V₀ V live i bound inode) (h : Owned sb V₀ live) {b : UInt64}
    (hb : IsData sb b) (hfree : V.blockUsed b = false) {k : Fin ndirBlocks} (hzero : inode.blocks k = 0)
    (hk : k.val * blockSize < bound) :
    Writing sb V₀ (V.markBlock b true) live i bound
      { inode with blocks := Function.update inode.blocks k b } where
  stored := hw.stored
  inodeUsed := hw.inodeUsed
  blockUsed := by
    intro c hc
    rw [Vol.blockUsed_markBlock, hw.blockUsed c hc, ite_self]
  kept := hw.kept
  fields := by
    rw [hw.fields]
  own := hw.own.add (hw.owned h) hb hfree k
  blocks := by
    intro l
    have hfree₀ : V₀.blockUsed b = false := by
      by_contra hused
      rw [hw.blockUsed b (by simpa using hused)] at hfree
      cases hfree
    by_cases hl : l = k
    · subst hl
      refine .inr ⟨?_, by simpa using hfree₀, hk⟩
      rcases hw.blocks l with heq | ⟨hz, -⟩
      · rw [← heq, hzero]
      · exact hz
    · simpa [Function.update_of_ne hl] using hw.blocks l

/-- One of the inode's blocks is written. -/
theorem setBlock (hw : Writing sb V₀ V live i bound inode) {k : Fin ndirBlocks}
    (data : Block) : Writing sb V₀ (V.setBlock (inode.blocks k) data) live i bound inode where
  stored := hw.stored
  inodeUsed := hw.inodeUsed
  blockUsed := hw.blockUsed
  kept := by
    intro b hb hne
    rw [Vol.block_setBlock, if_neg]
    · exact hw.kept b hb hne
    · rintro rfl
      rcases hw.blocks k with heq | ⟨-, hfree, -⟩
      · exact hne k heq.symm
      · rw [hb] at hfree
        cases hfree
  fields := hw.fields
  own := hw.own.setBlock _ _
  blocks := hw.blocks

end Writing

theorem blockAt_eq (inode : Inode) {b : ℕ} (h : b < ndirBlocks) :
    blockAt inode b = inode.blocks ⟨b, h⟩ := dif_pos h

theorem setBlockAt_eq (inode : Inode) {b : ℕ} (h : b < ndirBlocks) (blockno : UInt64) :
    setBlockAt inode b blockno = { inode with blocks := Function.update inode.blocks ⟨b, h⟩ blockno } := by
  rw [setBlockAt]
  congr 1
  ext1 k
  rw [Function.update_apply]
  simp only [Fin.ext_iff]

theorem block_lt {pos : ℕ} (h : pos < maxFileSize) : pos / blockSize < ndirBlocks :=
  Nat.div_lt_of_lt_mul (by rwa [Nat.mul_comm])

theorem blockAt_setBlockAt_self (inode : Inode) {b : ℕ} (h : b < ndirBlocks) (blockno : UInt64) :
    blockAt (setBlockAt inode b blockno) b = blockno := by
  rw [blockAt_eq _ h, setBlockAt_eq inode h]
  exact Function.update_self ..

theorem blockAt_setBlockAt {inode : Inode} {b c : ℕ} (hne : c ≠ b) (blockno : UInt64) :
    blockAt (setBlockAt inode b blockno) c = blockAt inode c := by
  unfold blockAt setBlockAt
  split_ifs
  · exact if_neg hne
  · rfl

theorem Writing.blockAt_apart {V₀ : Vol} {i : UInt32} {bound : ℕ} {inode : Inode}
    (hw : Writing sb V₀ V live i bound inode) {k l : ℕ} (hkl : l ≠ k) (hk : blockAt inode k ≠ 0) :
    blockAt inode l ≠ blockAt inode k := by
  intro heq
  have hl : blockAt inode l ≠ 0 := heq ▸ hk
  have hkb : k < ndirBlocks := by
    by_contra hout
    exact hk (dif_neg hout)
  have hlb : l < ndirBlocks := by
    by_contra hout
    exact hl (dif_neg hout)
  rw [blockAt_eq _ hkb, blockAt_eq _ hlb] at heq
  rw [blockAt_eq _ hlb] at hl
  exact hkl (congrArg Fin.val (hw.own.apart _ _ heq hl))

/-! A hole gets the next free block; a block that is there stays. -/

section Ensure
variable {inode : Inode} {b : ℕ}

theorem does_ensureBlock_hole (hs : RegionsSound sb) (hhole : blockAt inode b = 0) {nb : UInt64}
    (hnext : V.nextBlock sb = some nb) :
    Does sb content (ensureBlock sb inode b) V (.ok (setBlockAt inode b nb)) (V.markBlock nb true) := by
  unfold ensureBlock
  rw [if_pos hhole]
  exact (does_allocBlock hs hnext).bind (.pure _)

theorem does_ensureBlock_full (hs : RegionsSound sb) (hhole : blockAt inode b = 0)
    (hnext : V.nextBlock sb = none) : Does sb content (ensureBlock sb inode b) V (.error .enospc) V := by
  unfold ensureBlock
  rw [if_pos hhole]
  exact (does_allocBlock_full hs hnext).bind_error

theorem does_ensureBlock_there (hthere : blockAt inode b ≠ 0) :
    Does sb content (ensureBlock sb inode b) V (.ok inode) V := by
  unfold ensureBlock
  rw [if_neg hthere]
  exact .pure _

end Ensure

/-- The buffer `logfs_op_write` hands to `logfs_txn_write_data` for a chunk at `pos`. -/
def Vol.chunkBuf (V : Vol) (b : UInt64) (pos : ℕ) (bytes : List UInt8) : Block :=
  splice (if pos % blockSize ≠ 0 ∨ bytes.length ≠ blockSize then V.block b else zeroBlock)
    (pos % blockSize) bytes

/-- The volume after a chunk was written to a block. -/
def Vol.writeAt (V : Vol) (content : Block → Block → Block) (b : UInt64) (pos : ℕ) (bytes : List UInt8) :
    Vol :=
  V.setBlock b (content (V.block b) (V.chunkBuf b pos bytes))

theorem does_chunkBase {b : UInt64} (hb : IsData sb b) (pos size : ℕ) :
    Does sb content (chunkBase b pos size) V
      (.ok (if pos % blockSize ≠ 0 ∨ size ≠ blockSize then V.block b else zeroBlock)) V := by
  unfold chunkBase
  split
  · exact does_readBlock content hb
  · exact .pure _

/-- A chunk goes to the block that is there, or to the new one. -/
theorem does_writeChunk_of (hs : RegionsSound sb) {inode inode' : Inode} {pos : ℕ} (bytes : List UInt8)
    (hensure : Does sb content (ensureBlock sb inode (pos / blockSize)) V (.ok inode') V')
    (hdata : IsData sb (blockAt inode' (pos / blockSize))) :
    Does sb content (writeChunk sb inode pos bytes) V (.ok inode')
      (V'.writeAt content (blockAt inode' (pos / blockSize)) pos bytes) := by
  refine hensure.bind ?_
  exact (does_chunkBase hdata _ _).bind ((does_writeData hdata hs _).bind (.pure _))

section Chunk
variable {inode : Inode} {pos : ℕ} {nb : UInt64} (hs : RegionsSound sb)
include hs

theorem does_writeChunk_hole (hhole : blockAt inode (pos / blockSize) = 0) (hpos : pos < maxFileSize)
    (hnext : V.nextBlock sb = some nb) (bytes : List UInt8) :
    Does sb content (writeChunk sb inode pos bytes) V (.ok (setBlockAt inode (pos / blockSize) nb))
      ((V.markBlock nb true).writeAt content nb pos bytes) := by
  have hnew := blockAt_setBlockAt_self inode (block_lt hpos) nb
  have hensure : Does sb content (ensureBlock sb inode (pos / blockSize)) V _ _ :=
    does_ensureBlock_hole hs hhole hnext
  have hchunk := does_writeChunk_of hs bytes hensure (by rw [hnew]; exact (nextBlock_free hs hnext).1)
  rwa [hnew] at hchunk

theorem does_writeChunk_full (hhole : blockAt inode (pos / blockSize) = 0) (hnext : V.nextBlock sb = none)
    (bytes : List UInt8) : Does sb content (writeChunk sb inode pos bytes) V (.error .enospc) V :=
  Interaction.Acts.bind_error (does_ensureBlock_full hs hhole hnext)

theorem does_writeChunk_there (hdata : IsData sb (blockAt inode (pos / blockSize))) (bytes : List UInt8) :
    Does sb content (writeChunk sb inode pos bytes) V (.ok inode)
      (V.writeAt content (blockAt inode (pos / blockSize)) pos bytes) :=
  does_writeChunk_of hs bytes (does_ensureBlock_there (hdata.ne_zero hs)) hdata

end Chunk

section Write
variable (hs : RegionsSound sb) {V₀ : Vol} (h : Owned sb V₀ live) {i : UInt32} {bound : ℕ} {inode : Inode}
include hs h

/-- `inode₁` and `V₁` are what `ensure_block` leaves when it returns 0. -/
structure Supplied (sb : Super) (V V₁ : Vol) (inode inode₁ : Inode) (b : ℕ) : Prop where
  others : ∀ k, k ≠ b → blockAt inode₁ k = blockAt inode k
  data : IsData sb (blockAt inode₁ b)
  there : blockAt inode b ≠ 0 → inode₁ = inode ∧ V₁ = V
  hole : blockAt inode b = 0 →
    V.nextBlock sb = some (blockAt inode₁ b) ∧ V₁ = V.markBlock (blockAt inode₁ b) true

omit hs h in
theorem Supplied.block {V₁ : Vol} {inode₁ : Inode} {b : ℕ} (hsup : Supplied sb V V₁ inode inode₁ b) :
    V₁.block = V.block := by
  by_cases hhole : blockAt inode b = 0
  · rw [(hsup.hole hhole).2]
    rfl
  · rw [(hsup.there hhole).2]

variable (content) in
/-- A hole is filled, unless the volume is full. -/
theorem does_ensureBlock (hw : Writing sb V₀ V live i bound inode) {b : ℕ} (hb : b < ndirBlocks)
    (hbound : b * blockSize < bound) :
    (blockAt inode b = 0 ∧ V.nextBlock sb = none) ∧ Does sb content (ensureBlock sb inode b) V (.error .enospc) V ∨
      ∃ V₁ inode₁, Supplied sb V V₁ inode inode₁ b ∧ Writing sb V₀ V₁ live i bound inode₁ ∧
        Does sb content (ensureBlock sb inode b) V (.ok inode₁) V₁ := by
  by_cases hhole : blockAt inode b = 0
  · have hzero : inode.blocks ⟨b, hb⟩ = 0 := by rwa [blockAt_eq inode hb] at hhole
    cases hnext : V.nextBlock sb with
    | none => exact .inl ⟨⟨hhole, rfl⟩, does_ensureBlock_full hs hhole hnext⟩
    | some nb =>
        obtain ⟨hnb, hfree⟩ := nextBlock_free hs hnext
        have hnew := blockAt_setBlockAt_self inode hb nb
        refine .inr ⟨_, _, ⟨fun k hk => blockAt_setBlockAt hk nb, ?_, fun hne => absurd hhole hne, fun _ => ?_⟩,
          ?_, does_ensureBlock_hole hs hhole hnext⟩
        · rwa [hnew]
        · rw [hnew]
          exact ⟨hnext, rfl⟩
        · rw [setBlockAt_eq inode hb]
          exact hw.add h hnb hfree hzero hbound
  · have hdata : IsData sb (blockAt inode b) := by
      rw [blockAt_eq inode hb] at hhole ⊢
      exact (hw.own.placed _ hhole).1
    exact .inr ⟨V, inode, ⟨fun _ _ => rfl, hdata, fun _ => ⟨rfl, rfl⟩, fun hzero => absurd hzero hhole⟩, hw,
      does_ensureBlock_there hhole⟩

variable (content) in
theorem does_writeChunk (hw : Writing sb V₀ V live i bound inode) (pos : ℕ) (bytes : List UInt8)
    (hpos : pos < bound) (hmax : pos < maxFileSize) :
    (blockAt inode (pos / blockSize) = 0 ∧ V.nextBlock sb = none) ∧
        Does sb content (writeChunk sb inode pos bytes) V (.error .enospc) V ∨
      ∃ V₁ inode₁, Supplied sb V V₁ inode inode₁ (pos / blockSize) ∧
        Writing sb V₀ (V₁.writeAt content (blockAt inode₁ (pos / blockSize)) pos bytes) live i bound inode₁ ∧
        Does sb content (writeChunk sb inode pos bytes) V (.ok inode₁)
          (V₁.writeAt content (blockAt inode₁ (pos / blockSize)) pos bytes) := by
  have hb := block_lt hmax
  have hle : pos / blockSize * blockSize < bound := lt_of_le_of_lt (Nat.div_mul_le_self _ _) hpos
  rcases does_ensureBlock content hs h hw hb hle with ⟨hnone, hfull⟩ | ⟨V₁, inode₁, hsup, hw₁, hensure⟩
  · exact .inl ⟨hnone, Interaction.Acts.bind_error hfull⟩
  · refine .inr ⟨V₁, inode₁, hsup, ?_, does_writeChunk_of hs bytes hensure hsup.data⟩
    rw [blockAt_eq inode₁ hb]
    exact hw₁.setBlock _

variable (content) in
/-- The loop ends with all bytes written, or part of the way on a full volume. -/
theorem does_writeLoop (rounds : ℕ) {pos : ℕ} {buf : List UInt8}
    (hw : Writing sb V₀ V live i bound inode) (hbound : pos + buf.length ≤ bound)
    (hmax : pos + buf.length ≤ maxFileSize) :
    (∃ V' inode', Does sb content (writeLoop sb rounds inode pos buf) V (.error .enospc) V' ∧
        Writing sb V₀ V' live i bound inode') ∨
      ∃ V' inode', Does sb content (writeLoop sb rounds inode pos buf) V (.ok inode') V' ∧
        Writing sb V₀ V' live i bound inode' := by
  induction rounds generalizing V inode pos buf with
  | zero => exact .inr ⟨V, inode, .pure _, hw⟩
  | succ rounds ih =>
      unfold writeLoop
      by_cases hnil : buf = []
      · rw [if_pos hnil]
        exact .inr ⟨V, inode, .pure _, hw⟩
      · rw [if_neg hnil]
        have hlen := List.length_pos_iff.mpr hnil
        have hchunk : chunkAt pos buf.length ≤ buf.length := min_le_right _ _
        rcases does_writeChunk content hs h hw pos (buf.take (chunkAt pos buf.length)) (by omega) (by omega) with
          ⟨-, hfull⟩ | ⟨V₁, inode', -, hw', hdone⟩
        · exact .inl ⟨V, inode, hfull.bind_error, hw⟩
        · have hrest := @ih _ inode' (pos + chunkAt pos buf.length) (buf.drop (chunkAt pos buf.length)) hw'
            (by rw [List.length_drop]; omega)
            (by rw [List.length_drop]; omega)
          rcases hrest with ⟨V'', inode'', hrun, hw''⟩ | ⟨V'', inode'', hrun, hw''⟩
          · exact .inl ⟨V'', inode'', hdone.bind hrun, hw''⟩
          · exact .inr ⟨V'', inode'', hdone.bind hrun, hw''⟩

end Write
end Logfs
