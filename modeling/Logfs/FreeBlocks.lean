import Logfs.FailsUnseen

/-!
# Blocks that are not in use

The same calls on two volumes that differ in such blocks only.
-/
namespace Logfs
open Interaction WriteCache ByteBuffer NameTree Transition

variable {sb : Super} {V V' : Vol} {live : Set UInt32} {α β : Type}

/-- The volumes differ in blocks that are not in use only. -/
structure Blind (V V' : Vol) : Prop where
  inodeUsed : V'.inodeUsed = V.inodeUsed
  blockUsed : V'.blockUsed = V.blockUsed
  inode : V'.inode = V.inode
  block : ∀ b, V.blockUsed b = true → V'.block b = V.block b

namespace Blind
variable (h : Blind V V')
include h

theorem sees (hown : Owned sb V live) : Sees V V' live := .of_used hown (fun i _ => congrFun h.inode i) h.block

/-- The blocks of a live inode are in use. -/
theorem blocks (hown : Owned sb V live) {i : UInt32} (hi : i ∈ live) :
    ∀ b ∈ List.ofFn (V.inode i).blocks, b ≠ 0 → V'.block b = V.block b := by
  intro b hb hne
  obtain ⟨k, rfl⟩ := (List.mem_ofFn' _ _).mp hb
  exact h.block _ (hown.placed hi hne).2

theorem nextIno : V'.nextIno sb = V.nextIno sb := by
  rw [Vol.nextIno, h.inodeUsed]
  rfl

theorem nextBlock : V'.nextBlock sb = V.nextBlock sb := by
  rw [Vol.nextBlock, h.blockUsed]
  rfl

theorem markInode (i : UInt32) (used : Bool) : Blind (V.markInode i used) (V'.markInode i used) where
  inodeUsed := by rw [Vol.markInode, Vol.markInode, h.inodeUsed]
  blockUsed := h.blockUsed
  inode := h.inode
  block := h.block

theorem setInode (i : UInt32) (inode : Inode) : Blind (V.setInode i inode) (V'.setInode i inode) where
  inodeUsed := h.inodeUsed
  blockUsed := h.blockUsed
  inode := by rw [Vol.setInode, Vol.setInode, h.inode]
  block := h.block

theorem setBlock (b : UInt64) (data : Block) : Blind (V.setBlock b data) (V'.setBlock b data) where
  inodeUsed := h.inodeUsed
  blockUsed := h.blockUsed
  inode := h.inode
  block := by
    intro c hc
    rw [Vol.block_setBlock, Vol.block_setBlock, h.block c hc]

/-- A new block is written as a whole. -/
theorem takeBlock (b : UInt64) (data : Block) :
    Blind ((V.markBlock b true).setBlock b data) ((V'.markBlock b true).setBlock b data) where
  inodeUsed := h.inodeUsed
  blockUsed := by
    change (V'.markBlock b true).blockUsed = (V.markBlock b true).blockUsed
    rw [Vol.markBlock, Vol.markBlock, h.blockUsed]
  inode := h.inode
  block := by
    intro c hc
    rw [Vol.block_setBlock, Vol.block_setBlock]
    by_cases hcb : c = b
    · rw [if_pos hcb, if_pos hcb]
    · rw [if_neg hcb, if_neg hcb]
      apply h.block
      rwa [Vol.blockUsed_setBlock, Vol.blockUsed_markBlock, if_neg hcb] at hc

theorem grow (d : UInt32) (k : Fin ndirBlocks) (b : UInt64) (data : Block) :
    Blind (V.grow d k b data) (V'.grow d k b data) := by
  unfold Vol.grow
  rw [h.inode]
  exact (h.takeBlock b data).setInode d _

theorem freeAll (bs : List UInt64) : Blind (V.freeAll bs) (V'.freeAll bs) where
  inodeUsed := h.inodeUsed
  blockUsed := by rw [Vol.freeAll, Vol.freeAll, h.blockUsed]
  inode := h.inode
  block := by
    intro b hb
    exact h.block b (Bool.and_eq_true_iff.mp hb).1

end Blind

/-! ## Programs on both volumes -/

/-- The program answers the same on both volumes and leaves two that differ as little. -/
def Both (sb : Super) (p : TxnEM α) (V V' : Vol) : Prop :=
  ∃ r W W', Does sb latest p V r W ∧ Does sb latest p V' r W' ∧ Blind W W'

namespace Both
variable {p : TxnEM α} {f : α → TxnEM β}

theorem throw (h : Blind V V') (e : Errno) : Both sb (throw e : TxnEM α) V V' :=
  ⟨_, V, V', .throw e, .throw e, h⟩

theorem error {e : Errno} (hV : Does sb latest p V (.error e) V) (hV' : Does sb latest p V' (.error e) V')
    (h : Blind V V') : Both sb (p >>= f) V V' :=
  ⟨_, V, V', hV.bind_error, hV'.bind_error, h⟩

theorem after {W W' : Vol} {a : α} (hV : Does sb latest p V (.ok a) W) (hV' : Does sb latest p V' (.ok a) W')
    (h : Both sb (f a) W W') : Both sb (p >>= f) V V' := by
  obtain ⟨r, U, U', hU, hU', hblind⟩ := h
  exact ⟨r, U, U', hV.bind hU, hV'.bind hU', hblind⟩

theorem bind (hp : Both sb p V V') (hf : ∀ a W W', Blind W W' → Both sb (f a) W W') :
    Both sb (p >>= f) V V' := by
  obtain ⟨r, W, W', hW, hW', hblind⟩ := hp
  cases r with
  | error e => exact ⟨_, W, W', hW.bind_error, hW'.bind_error, hblind⟩
  | ok a => exact .after hW hW' (hf a W W' hblind)

/-- A first part that only reads. -/
theorem read {Q : α → Prop} (h : Blind V V') (hp : Alike sb latest p V V' Q)
    (hf : ∀ a, Q a → Both sb (f a) V V') : Both sb (p >>= f) V V' := by
  obtain ⟨r, hV, hV', hQ⟩ := hp
  cases r with
  | error e => exact .error hV hV' h
  | ok a => exact .after hV hV' (hf a (hQ a rfl))

theorem withHandle (h : Both sb p V V') : Both sb p.withHandle V V' := by
  obtain ⟨r, W, W', hW, hW', hblind⟩ := h
  exact ⟨r, W, W', hW.withHandle, hW'.withHandle, hblind⟩

theorem reply {f : α → β} (h : Both sb p V V') : Both sb (do let a ← p; return f a) V V' :=
  h.bind fun _ W W' hblind => ⟨_, W, W', .pure _, .pure _, hblind⟩

end Both

theorem Alike.result {p : TxnEM α} {Q : α → Prop} (h : Alike sb latest p V V' Q) :
    Alike sb latest p.result V V' fun _ => True := by
  obtain ⟨r, hV, hV', -⟩ := h
  exact ⟨_, hV.result, hV'.result, fun _ _ => trivial⟩

/-! ## Directories -/

section Calls
variable (hs : LayoutSound sb) (hblind : Blind V V') {d i : UInt32}
include hs hblind

theorem both_inodeWrite (hi : IsIno sb i) (inode : Inode) : Both sb (inodeWrite sb i inode) V V' :=
  ⟨_, _, _, does_inodeWrite hs hi inode, does_inodeWrite hs hi inode, hblind.setInode i inode⟩

theorem both_freeInode (hi : IsIno sb i) : Both sb (freeInode sb i) V V' :=
  ⟨_, _, _, does_freeInode hs hi, does_freeInode hs hi, hblind.markInode i false⟩

theorem alike_inodeRead (hi : IsIno sb i) : Alike sb latest (inodeRead sb i) V V' (· = V.inode i) := by
  have hV' := does_inodeRead latest (V := V') hs hi
  rw [hblind.inode] at hV'
  exact ⟨_, does_inodeRead latest hs hi, hV', fun _ he => by cases he; rfl⟩

theorem both_truncateBlocks {inode : Inode} {keep : ℕ}
    (hdata : ∀ k, inode.blocks k ≠ 0 → IsData sb (inode.blocks k)) :
    Both sb (truncateBlocks sb inode keep) V V' :=
  ⟨_, _, _, does_truncateBlocks hs hdata, does_truncateBlocks hs hdata, hblind.freeAll _⟩

/-- The last change of `mkdir` and of `rmdir`. -/
theorem both_adjust (hi : IsIno sb i) (f : Inode → Inode) : Both sb (do
    let inode ← inodeRead sb i
    inodeWrite sb i (f inode)) V V' := by
  refine .read hblind (alike_inodeRead hs hblind hi) ?_
  rintro inode rfl
  exact both_inodeWrite hs hblind hi _

theorem both_dirRemove (hd : IsIno sb d) (name : List UInt8)
    (hdata : ∀ b ∈ List.ofFn (V.inode d).blocks, b ≠ 0 → IsData sb b)
    (hsame : ∀ b ∈ List.ofFn (V.inode d).blocks, b ≠ 0 → V'.block b = V.block b) :
    Both sb (dirRemove sb d name) V V' := by
  refine .read hblind (alike_inodeRead hs hblind hd) ?_
  rintro dir rfl
  cases isDir (V.inode d).mode with
  | false => exact .throw hblind _
  | true =>
      simp only [Bool.not_true, Bool.false_eq_true, if_false]
      refine .read hblind (alike_findEntry hdata hsame) ?_
      rintro r rfl
      cases hscan : V.scan (Dirent.isNamed name) (List.ofFn (V.inode d).blocks) with
      | none => exact .throw hblind _
      | some r =>
          obtain ⟨b, e, ent⟩ := r
          obtain ⟨hmem, hne, -⟩ := scan_some hscan
          have hb := hdata b hmem hne
          have haccess : Does sb latest (TxnEM.getWriteAccess b) V' (.ok (V'.block b)) V' :=
            does_getWriteAccess hb
          rw [hsame b hmem hne] at haccess
          exact .after (does_getWriteAccess hb) haccess
            ⟨_, _, _, does_stage hb hs _, does_stage hb hs _, hblind.setBlock b _⟩

variable (h : Owned sb V live) (hd : d ∈ live)
include h hd

theorem both_dirAddLoop (name : List UInt8) (ino : UInt32) (ty : UInt8) (ks : List (Fin ndirBlocks)) :
    Both sb (dirAddLoop sb d (V.inode d) name ino ty ks) V V' := by
  induction ks with
  | nil => exact .throw hblind _
  | cons k ks ih =>
      by_cases hzero : (V.inode d).blocks k = 0
      · cases hnext : V.nextBlock sb with
        | none =>
            exact ⟨_, _, _, does_dirAddLoop_full hs hzero hnext,
              does_dirAddLoop_full hs hzero (hblind.nextBlock.trans hnext), hblind⟩
        | some b =>
            -- the new block is not read before it is written
            have hd' := (h.inUse hd).1
            exact ⟨_, _, _, does_dirAddLoop_grow hs hd' rfl hzero hnext,
              does_dirAddLoop_grow hs hd' (congrFun hblind.inode d) hzero (hblind.nextBlock.trans hnext),
              hblind.grow d k b _⟩
      · obtain ⟨hb, hused⟩ := h.placed hd hzero
        have hdata := hblind.block _ hused
        cases hfind : findInBlock (fun ent => ent.ino == 0) (V.block ((V.inode d).blocks k)) with
        | none =>
            obtain ⟨r, W, W', hW, hW', hlast⟩ := ih
            exact ⟨r, W, W', does_dirAddLoop_next hzero hb hfind hW,
              does_dirAddLoop_next hzero hb (by rw [hdata]; exact hfind) hW', hlast⟩
        | some e =>
            have hV' : Does sb latest (dirAddLoop sb d (V.inode d) name ino ty (k :: ks)) V' (.ok ()) _ :=
              does_dirAddLoop_reuse hs hzero hb (by rw [hdata]; exact hfind)
            rw [hdata] at hV'
            exact ⟨_, _, _, does_dirAddLoop_reuse hs hzero hb hfind, hV', hblind.setBlock _ _⟩

theorem both_dirAdd (hn : Named V live) (name : List UInt8) (ino : UInt32) (ty : UInt8) :
    Both sb (dirAdd sb d name ino ty) V V' := by
  have hsee := hblind.sees h
  refine .read hblind (hsee.alike_inodeRead hs h hd) ?_
  rintro dir rfl
  cases isDir (V.inode d).mode with
  | false => exact .throw hblind _
  | true =>
      simp only [Bool.not_true, Bool.false_eq_true, if_false]
      by_cases hname : name.length = 0 ∨ nameMax < name.length
      · rw [if_pos hname]
        exact .throw hblind _
      · rw [if_neg hname]
        refine .read hblind (hsee.alike_dirLookup latest hs h hn hd name).result fun r _ => ?_
        cases r with
        | ok found => exact .throw hblind _
        | error e => exact both_dirAddLoop hs hblind h hd name ino ty _

end Calls

theorem alike_dirIsEmpty (hs : LayoutSound sb) (h : Owned sb V live) (hsee : Sees V V' live) {d : UInt32}
    (hd : d ∈ live) : Alike sb latest (dirIsEmpty sb d) V V' fun _ => True := by
  exact hsee.alike_inDir hs h hd fun hdir =>
    (alike_findEntry (h.blocks_data hd) fun b => hsee.dirBlock h hd hdir).bind fun _ _ => .pure trivial

/-! ## The operations on names -/

section Ops
variable {v v' : Image} (hs : LayoutSound sb) (hroot : sb.rootIno = rootIno) (h : VolOk sb (vol sb v) live)
  (hblind : Blind (vol sb v) (vol sb v'))
include hs hroot h hblind

theorem alike_path (path : List UInt8) :
    Alike sb latest (pathLookup sb path) (vol sb v) (vol sb v') (· ∈ live) :=
  (hblind.sees h.owned).alike_pathLookup latest hs h.owned h.named hroot path

theorem both_opCreate (path : List UInt8) (mode : UInt32) (now : UInt64) :
    Both sb (opCreate sb path mode now) (vol sb v) (vol sb v') := by
  unfold opCreate
  cases splitParent path with
  | error e => exact .throw hblind _
  | ok r =>
      obtain ⟨parent, name⟩ := r
      refine .read hblind (alike_path hs hroot h hblind parent) fun d hd => .withHandle ?_
      cases hnext : (vol sb v).nextIno sb with
      | none =>
          exact .error (does_allocInode_full hs hnext) (does_allocInode_full hs (hblind.nextIno.trans hnext))
            hblind
      | some i =>
          obtain ⟨hino, hfree⟩ := nextIno_free hs hnext
          have hi := h.owned.not_mem_of_free hfree
          refine .after (does_allocInode hs hnext) (does_allocInode hs (hblind.nextIno.trans hnext)) ?_
          refine .after (does_inodeWrite hs hino _) (does_inodeWrite hs hino _) ?_
          have howned : Owned sb (((vol sb v).markInode i true).setInode i (newFileInode mode now)) (insert i live) :=
            (h.owned.markInode i).setInode ⟨hino, by simp⟩ Owned.MayOwn.holes (shaped_newFile mode now)
          have hok := h.congr (howned.subset (Set.subset_insert _ _)) (fun j hj => by
            have hji : j ≠ i := fun he => hi (he ▸ hj)
            simp [hji]) fun _ _ => rfl
          exact .reply (both_dirAdd hs ((hblind.markInode i true).setInode i _) hok.owned hd hok.named name i ftReg)

theorem both_opMkdir (path : List UInt8) (mode : UInt32) (now : UInt64) :
    Both sb (opMkdir sb path mode now) (vol sb v) (vol sb v') := by
  unfold opMkdir
  cases splitParent path with
  | error e => exact .throw hblind _
  | ok r =>
      obtain ⟨parent, name⟩ := r
      refine .read hblind (alike_path hs hroot h hblind parent) fun d hd => .withHandle ?_
      cases hnext : (vol sb v).nextIno sb with
      | none =>
          exact .error (does_allocInode_full hs hnext) (does_allocInode_full hs (hblind.nextIno.trans hnext))
            hblind
      | some i =>
          obtain ⟨hino, hfree⟩ := nextIno_free hs hnext
          have hi := h.owned.not_mem_of_free hfree
          have hblind₁ := hblind.markInode i true
          cases hnextb : ((vol sb v).markInode i true).nextBlock sb with
          | none =>
              exact .after (does_allocInode hs hnext) (does_allocInode hs (hblind.nextIno.trans hnext))
                (.error (does_allocBlock_full hs hnextb) (does_allocBlock_full hs (hblind₁.nextBlock.trans hnextb))
                  hblind₁)
          | some b =>
              obtain ⟨hb, hbfree⟩ := nextBlock_free hs hnextb
              have hok : VolOk sb ((vol sb v).newDir d i b mode now) live :=
                h.congr ((h.owned.newDir hs hino hb hbfree mode now).subset (Set.subset_insert _ _))
                  (fun j => inode_newDir hi) fun c => block_newDir hbfree
              have hblind₂ : Blind ((vol sb v).newDir d i b mode now) ((vol sb v').newDir d i b mode now) :=
                (hblind₁.takeBlock b _).setInode i _
              obtain ⟨r, W, W', hW, hW', hlast⟩ := (both_dirAdd hs hblind₂ hok.owned hd hok.named name i ftDir).bind
                fun _ W W' hW => both_adjust hs hW (h.owned.inUse hd).1
                  fun pdir => { pdir with nlink := pdir.nlink + 1, mtime := now }
              exact ⟨r, W, W', does_newDir hs hnext hnextb hW, does_newDir hs (hblind.nextIno.trans hnext)
                (hblind₁.nextBlock.trans hnextb) hW', hlast⟩

theorem both_opRmdir (path : List UInt8) (now : UInt64) :
    Both sb (opRmdir sb path now) (vol sb v) (vol sb v') := by
  have hsee := hblind.sees h.owned
  unfold opRmdir
  cases splitParent path with
  | error e => exact .throw hblind _
  | ok r =>
      obtain ⟨parent, name⟩ := r
      refine .read hblind (alike_path hs hroot h hblind parent) fun d hd => ?_
      refine .read hblind (hsee.alike_dirLookup latest hs h.owned h.named hd name) ?_
      rintro ⟨i, ty⟩ hi
      by_cases hty : ty ≠ ftDir
      · rw [if_pos hty]
        exact .throw hblind _
      · rw [if_neg hty]
        have hino := (h.owned.inUse hi).1
        refine .read hblind (alike_dirIsEmpty hs h.owned hsee hi) fun empty _ => ?_
        cases empty with
        | false => exact .throw hblind _
        | true =>
            refine .withHandle (.read hblind (alike_inodeRead hs hblind hino) ?_)
            rintro target rfl
            have htail : ∀ k, ((vol sb v).inode i).blocks k ≠ 0 → IsData sb (((vol sb v).inode i).blocks k) :=
              fun k hk => (h.owned.placed hi hk).1
            refine .after (does_truncateBlocks hs htail) (does_truncateBlocks hs htail) ?_
            refine .after (does_freeInode hs hino) (does_freeInode hs hino) ?_
            exact .bind (both_dirRemove hs ((hblind.freeAll _).markInode i false) (h.owned.inUse hd).1 name
              (h.owned.blocks_data hd) (hblind.blocks h.owned hd)) fun _ W W' hW =>
                both_adjust hs hW (h.owned.inUse hd).1 _

theorem both_opUnlink (path : List UInt8) : Both sb (opUnlink sb path) (vol sb v) (vol sb v') := by
  have hsee := hblind.sees h.owned
  unfold opUnlink
  cases splitParent path with
  | error e => exact .throw hblind _
  | ok r =>
      obtain ⟨parent, name⟩ := r
      refine .read hblind (alike_path hs hroot h hblind parent) fun d hd => ?_
      refine .read hblind (hsee.alike_dirLookup latest hs h.owned h.named hd name) ?_
      rintro ⟨i, ty⟩ hi
      have hino := (h.owned.inUse hi).1
      refine .withHandle (.read hblind (alike_inodeRead hs hblind hino) ?_)
      rintro target rfl
      refine .bind (both_dirRemove hs hblind (h.owned.inUse hd).1 name (h.owned.blocks_data hd)
        (hblind.blocks h.owned hd)) fun _ W W' hW => ?_
      by_cases hlast : ((vol sb v).inode i).nlink - 1 = 0
      · rw [if_pos hlast]
        exact .bind (both_truncateBlocks hs hW fun k hk => (h.owned.placed hi hk).1)
          fun _ _ _ hU => both_freeInode hs hU hino
      · rw [if_neg hlast]
        exact both_inodeWrite hs hW hino _

omit hroot in
theorem both_truncateAt {i : UInt32} (hi : i ∈ live) (size : ℕ) (now : UInt64) :
    Both sb (truncateAt sb i size now) (vol sb v) (vol sb v') := by
  have hino := (h.owned.inUse hi).1
  refine .withHandle (.read hblind (alike_inodeRead hs hblind hino) ?_)
  rintro inode rfl
  refine .bind ?_ fun _ _ _ hW => both_inodeWrite hs hW hino _
  unfold shrinkTo
  by_cases hlt : size < ((vol sb v).inode i).size.toNat
  · rw [if_pos hlt]
    exact both_truncateBlocks hs hblind fun k hk => (h.owned.placed hi hk).1
  · rw [if_neg hlt]
    exact ⟨_, _, _, .pure _, .pure _, hblind⟩

theorem both_opTruncate {path : List UInt8} {fh : Option UInt32} {size : ℕ}
    (hproper : (FsOp.truncate path fh size).Proper sb latest v) (now : UInt64) :
    Both sb (opTruncate sb path fh size now) (vol sb v) (vol sb v') := by
  unfold opTruncate
  by_cases hbig : maxFileSize < size
  · rw [if_pos hbig]
    exact .throw hblind _
  · rw [if_neg hbig]
    cases fh with
    | some ino =>
        have hlive := h.named.live_iff.mp (hproper ino rfl).1
        exact .after (.pure ino) (.pure ino) (both_truncateAt hs h hblind hlive size now)
    | none =>
        exact .read hblind (alike_path hs hroot h hblind path) fun i hi =>
          both_truncateAt hs h hblind hi size now

end Ops

/-! ## Writes -/

/-- Where the `n` bytes from `pos` on meet a hole of the file, they cover that block. -/
def CoversHoles (inode : Inode) (pos n : ℕ) : Prop :=
  ∀ p, pos ≤ p → p < pos + n → blockAt inode (p / blockSize) = 0 →
    pos ≤ p / blockSize * blockSize ∧ (p / blockSize + 1) * blockSize ≤ pos + n

section Write
variable {inode inode' : Inode} {pos n : ℕ}

/-- The chunk at a hole is a whole block. -/
theorem CoversHoles.chunk (h : CoversHoles inode pos n) (hn : 0 < n) (hhole : blockAt inode (pos / blockSize) = 0) :
    pos % blockSize = 0 ∧ chunkAt pos n = blockSize := by
  obtain ⟨hstart, hend⟩ := h pos le_rfl (by omega) hhole
  simp only [chunkAt, blockSize] at *
  omega

theorem CoversHoles.rest (h : CoversHoles inode pos n) (hn : 0 < n)
    (hsame : ∀ b, pos / blockSize < b → blockAt inode' b = blockAt inode b) :
    CoversHoles inode' (pos + chunkAt pos n) (n - chunkAt pos n) := by
  intro p hge hlt hhole
  obtain ⟨-, hle, -, hnext⟩ := chunk_bounds pos hn
  obtain ⟨hblock, hstart⟩ := hnext (by omega)
  have hbelow := Nat.div_le_div_right (c := blockSize) hge
  rw [hblock] at hbelow
  rw [hsame _ (by omega)] at hhole
  obtain ⟨-, hend⟩ := h p (by omega) (by omega) hhole
  refine ⟨?_, by omega⟩
  rw [hstart]
  exact Nat.mul_le_mul_right _ hbelow

/-- A chunk that is a whole block does not depend on what the block held. -/
theorem chunkBuf_whole (b : UInt64) {bytes : List UInt8} (hpos : pos % blockSize = 0)
    (hlen : bytes.length = blockSize) : V.chunkBuf b pos bytes = splice zeroBlock (pos % blockSize) bytes := by
  rw [Vol.chunkBuf, if_neg]
  exact not_or.mpr ⟨not_not.mpr hpos, not_not.mpr hlen⟩

theorem both_writeLoop (hs : LayoutSound sb) (rounds : ℕ) {buf : List UInt8} (hblind : Blind V V')
    (hplaced : ∀ k, inode.blocks k ≠ 0 → IsData sb (inode.blocks k) ∧ V.blockUsed (inode.blocks k) = true)
    (hmax : pos + buf.length ≤ maxFileSize) (hcovers : CoversHoles inode pos buf.length) :
    Both sb (writeLoop sb rounds inode pos buf) V V' := by
  induction rounds generalizing V V' inode pos buf with
  | zero => exact ⟨_, _, _, .pure _, .pure _, hblind⟩
  | succ rounds ih =>
      unfold writeLoop
      by_cases hnil : buf = []
      · rw [if_pos hnil]
        exact ⟨_, _, _, .pure _, .pure _, hblind⟩
      · rw [if_neg hnil]
        have hlen := List.length_pos_iff.mpr hnil
        obtain ⟨-, hle, -, -⟩ := chunk_bounds pos hlen
        have hpos : pos < maxFileSize := by omega
        have hb := block_lt hpos
        have hmax' : pos + chunkAt pos buf.length + (buf.drop (chunkAt pos buf.length)).length ≤ maxFileSize := by
          rw [List.length_drop]
          omega
        have hrest : ∀ {inode₁ : Inode}, (∀ b, pos / blockSize < b → blockAt inode₁ b = blockAt inode b) →
            CoversHoles inode₁ (pos + chunkAt pos buf.length) (buf.drop (chunkAt pos buf.length)).length := by
          intro inode₁ hsame
          rw [List.length_drop]
          exact hcovers.rest hlen hsame
        by_cases hhole : blockAt inode (pos / blockSize) = 0
        · obtain ⟨hstart, hwhole⟩ := hcovers.chunk hlen hhole
          cases hnext : V.nextBlock sb with
          | none =>
              exact .error (does_writeChunk_full hs hhole hnext _)
                (does_writeChunk_full hs hhole (hblind.nextBlock.trans hnext) _) hblind
          | some nb =>
              -- the same block on both volumes, written as a whole
              have hchunk : ∀ {U : Vol}, U.nextBlock sb = some nb → Does sb latest (writeChunk sb inode pos
                  (buf.take (chunkAt pos buf.length))) U (.ok (setBlockAt inode (pos / blockSize) nb))
                  ((U.markBlock nb true).setBlock nb
                    (splice zeroBlock (pos % blockSize) (buf.take (chunkAt pos buf.length)))) := by
                intro U hU
                rw [← chunkBuf_whole nb hstart (by rw [List.length_take, min_eq_left hle, hwhole])]
                exact does_writeChunk_hole hs hhole hpos hU _
              refine .after (hchunk hnext) (hchunk (hblind.nextBlock.trans hnext))
                (ih (hblind.takeBlock nb _) ?_ hmax' (hrest fun b hlt => blockAt_setBlockAt hlt.ne' nb))
              intro k hk
              rw [Vol.blockUsed_setBlock, Vol.blockUsed_markBlock]
              by_cases hkb : k.val = pos / blockSize
              · have heq : (setBlockAt inode (pos / blockSize) nb).blocks k = nb := if_pos hkb
                rw [heq, if_pos rfl]
                exact ⟨(nextBlock_free hs hnext).1, rfl⟩
              · have heq : (setBlockAt inode (pos / blockSize) nb).blocks k = inode.blocks k := if_neg hkb
                rw [heq] at hk ⊢
                obtain ⟨hdata, hused⟩ := hplaced k hk
                rw [hused, ite_self]
                exact ⟨hdata, rfl⟩
        · have hbk := hhole
          rw [blockAt_eq inode hb] at hbk
          obtain ⟨hdata, hused⟩ := hplaced _ hbk
          have hchunk : ∀ {U : Vol}, U.block (inode.blocks ⟨_, hb⟩) = V.block (inode.blocks ⟨_, hb⟩) →
              Does sb latest (writeChunk sb inode pos (buf.take (chunkAt pos buf.length))) U (.ok inode)
                (U.setBlock (inode.blocks ⟨_, hb⟩)
                  (V.chunkBuf (inode.blocks ⟨_, hb⟩) pos (buf.take (chunkAt pos buf.length)))) := by
            intro U hU
            have hdone : Does sb latest (writeChunk sb inode pos (buf.take (chunkAt pos buf.length))) U _ _ :=
              does_writeChunk_there hs (by rwa [blockAt_eq inode hb]) _
            rw [blockAt_eq inode hb, Vol.writeAt, latest, Vol.chunkBuf, hU] at hdone
            exact hdone
          exact .after (hchunk rfl) (hchunk (hblind.block _ hused))
            (ih (hblind.setBlock _ _) hplaced hmax' (hrest fun _ _ => rfl))

theorem both_opWrite {v v' : Image} (hs : LayoutSound sb) (h : VolOk sb (vol sb v) live)
    (hblind : Blind (vol sb v) (vol sb v')) {i : UInt32} (hi : i ∈ live) {buf : List UInt8} {offset : ℕ}
    (hcovers : offset + buf.length ≤ maxFileSize → CoversHoles ((vol sb v).inode i) offset buf.length)
    (now : UInt64) :
    Both sb (opWrite sb i buf offset now) (vol sb v) (vol sb v') := by
  have hino := (h.owned.inUse hi).1
  unfold opWrite
  by_cases hbig : maxFileSize < offset + buf.length
  · rw [if_pos hbig]
    exact .throw hblind _
  · rw [if_neg hbig]
    refine .withHandle (.read hblind (alike_inodeRead hs hblind hino) ?_)
    rintro inode rfl
    have hfits := Nat.not_lt.mp hbig
    refine .bind (both_writeLoop hs _ hblind (fun k hk => h.owned.placed hi hk) hfits (hcovers hfits))
      fun inode W W' hW => ?_
    exact .bind (both_inodeWrite hs hW hino _) fun _ _ _ hU => ⟨_, _, _, .pure _, .pure _, hU⟩

end Write
end Logfs
