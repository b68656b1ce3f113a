import Logfs.FailsUnseen
import Logfs.FileBytes

/-!
# What is in a file

What `logfs_op_write` leaves in a file, and what `logfs_op_truncate` takes out of it, as the calls that
follow see them.
-/
namespace Logfs
open Interaction WriteCache ByteBuffer Transition

variable {sb : Super} {V V' : Vol} {live : Set UInt32} {i : UInt32}

/-! ## Writes -/

/-- Reads of one file agree on two volumes that hold the same inode and bytes. -/
theorem answer_opRead_congr (hs : RegionsSound sb) {v v' : Image} (h : Owned sb (vol sb v) live)
    (h' : Owned sb (vol sb v') live) (hi : i ∈ live) {size offset : ℕ}
    (hlen : min size (((vol sb v').inode i).size.toNat - offset) = min size (((vol sb v).inode i).size.toNat - offset))
    (hbytes : ∀ k < min size (((vol sb v).inode i).size.toNat - offset),
      (vol sb v').byteOf i (offset + k) = (vol sb v).byteOf i (offset + k)) :
    answer sb (opRead sb i size offset) v' = answer sb (opRead sb i size offset) v := by
  rw [answer, answer, (does_opRead latest hs h' hi size offset v' rfl).1, (does_opRead latest hs h hi size offset v rfl).1,
    hlen]
  exact congrArg Except.ok (List.map_congr_left fun k hk => hbytes k (List.mem_range.mp hk))

/-- The write loop is exact: what was written is read back, other bytes of blocks the file had are as
before, the file is as long as the longer of its old size and the end of the write, and the other
inodes and their contents are untouched. -/
theorem opWrite_exact (hs : RegionsSound sb) {v v' : Image} (h : Owned sb (vol sb v) live) (hi : i ∈ live)
    (hreg : isReg ((vol sb v).inode i).mode = true) {buf : List UInt8} {offset : ℕ}
    (hmax : offset + buf.length ≤ maxFileSize) {now : UInt64} {n : ℕ}
    (hrun : run (viewTxn sb.totalBlocks latest) (opWrite sb i buf offset now).run v = (.ok n, v')) :
    n = buf.length ∧ answer sb (opRead sb i buf.length offset) v' = .ok buf ∧
      (∀ p, ¬ (offset ≤ p ∧ p < offset + buf.length) → p < ((vol sb v).inode i).size.toNat →
        blockAt ((vol sb v).inode i) (p / blockSize) ≠ 0 →
        answer sb (opRead sb i 1 p) v' = answer sb (opRead sb i 1 p) v) ∧
      ((vol sb v').inode i).size.toNat = max ((vol sb v).inode i).size.toNat (offset + buf.length) ∧
      ∀ j ∈ live, j ≠ i → (vol sb v').inode j = (vol sb v).inode j ∧
        (∀ k, ((vol sb v).inode j).blocks k ≠ 0 →
          (vol sb v').block (((vol sb v).inode j).blocks k) = (vol sb v).block (((vol sb v).inode j).blocks k)) ∧
        ∀ size pos, answer sb (opRead sb j size pos) v' = answer sb (opRead sb j size pos) v := by
  have hfile := not_isDir_of_isReg hreg
  by_cases hfit : holesIn ((vol sb v).inode i) (offset / blockSize) (spanned offset buf.length) ≤
      (vol sb v).freeCount sb
  · obtain ⟨V', hdoes, hw⟩ := does_opWrite_bytes hs h hi hfile hmax hfit now
    obtain ⟨hres, rfl⟩ := hdoes v rfl
    rw [hrun] at hres hw
    cases hres
    refine ⟨rfl, ?_, ?_, hw.size, fun j hj hji => ?_⟩
    · rw [answer, (does_opRead latest hs hw.owned hi _ _ v' rfl).1, hw.bytes, hw.size, min_eq_left (by omega)]
      exact congrArg Except.ok map_overlay
    · intro p hout hp hthere
      have hsize := hw.size
      refine answer_opRead_congr hs h hw.owned hi (by omega) fun k hk => ?_
      obtain rfl : k = 0 := by omega
      rw [Nat.add_zero, hw.bytes, overlay_outside hout, byteOf_eq_bytesIn, Vol.bytesIn, Vol.bytesIn,
        hw.blocks.kept _ hthere]
    · have hblocks : ∀ k, ((vol sb v).inode j).blocks k ≠ 0 → (vol sb v').block (((vol sb v).inode j).blocks k) =
          (vol sb v).block (((vol sb v).inode j).blocks k) := fun k hk => kept_others h hi hw.kept hj hji hk
      refine ⟨hw.others j hji, hblocks, fun size pos => ?_⟩
      refine answer_opRead_congr hs h hw.owned hj (by rw [hw.others j hji]) fun k _ => ?_
      rw [byteOf_eq_bytesIn, byteOf_eq_bytesIn, hw.others j hji]
      refine congrFun (bytesIn_congr fun b hb => ?_) _
      have hbound : b < ndirBlocks := by
        by_contra hge
        exact hb (dif_neg hge)
      rw [blockAt_eq _ hbound] at hb ⊢
      exact hblocks _ hb
  · obtain ⟨V', hdoes, -⟩ := does_opWrite_full hs h hi hmax (Nat.not_le.mp hfit) now
    have hres := (hdoes v rfl).1
    rw [hrun] at hres
    cases hres


/-- A byte at position 5 of a new file. -/
theorem opWrite_exact_tiny : ∃ v v', run (viewTxn tinySuper.totalBlocks latest) (opWrite tinySuper 2 [7] 5 0).run v =
      (.ok 1, v') ∧ answer tinySuper (opRead tinySuper 2 1 5) v' = .ok [7] := by
  have h : LaidOut tinySuper 0 (tinyDisk fun _ => zeroBlock).flush.view := by
    rw [view_flush]
    exact laidOut_tiny _
  have hcreate : Does tinySuper latest ((FsOp.create [slash, 0x61] 0x1A4).program tinySuper 0) _ (.ok ()) _ :=
    (does_create_tiny h).bind (.pure _)
  obtain ⟨v, hstep, hv⟩ := exists_fsStep hcreate
  obtain ⟨live, hok⟩ := volOk_of_run (run_format_tiny _) (by decide) (run_fsMount_tiny _)
    (.next (a := (.create [slash, 0x61] 0x1A4, 0)) .init properName_a hstep)
  have hproper := proper_firstFile h
  rw [← hv] at hproper
  have hwrite := does_write_tiny h (show 5 < blockSize by decide) 7 v hv
  refine ⟨v, _, Prod.ext hwrite.1 rfl, ?_⟩
  exact (opWrite_exact layoutSound_tiny hok.owned (hok.named.live_iff.mp hproper.1) hproper.2 (by decide)
    (Prod.ext hwrite.1 rfl)).2.1

/-! ## Truncated bytes -/

/-- The positions of the file at which a call puts its bytes. A write that runs out of blocks leaves
them in blocks the file had. -/
def FsOp.PutsAt (sb : Super) (V : Vol) (p : ℕ) : FsOp → Prop
  | .write fh buf offset => offset + buf.length ≤ maxFileSize ∧ offset ≤ p ∧ p < offset + buf.length ∧
      (holesIn (V.inode fh) (offset / blockSize) (spanned offset buf.length) ≤ V.freeCount sb ∨
        blockAt (V.inode fh) (p / blockSize) ≠ 0 ∧ Reaches (V.inode fh) offset buf.length (V.freeCount sb) p)
  | _ => False

/-- A write or a truncation of the file. -/
def FsOp.Edits (sb : Super) (v : Image) (i : UInt32) (op : FsOp) : Prop :=
  match op with
  | .write fh _ _ => fh = i
  | .truncate _ _ _ => op.Touches sb latest v i
  | _ => False

/-- A call on the image and the positions written so far. -/
def editStep (sb : Super) (s : Image × Set ℕ) (c : FsCall) : Option (Image × Set ℕ) :=
  (fsStep sb s.1 c).map fun v => (v, s.2 ∪ {p | c.1.PutsAt sb (vol sb s.1) p})

/-- From `n` on, what has not been written reads as zero. -/
def StaysZero (sb : Super) (i : UInt32) (n : ℕ) (s : Image × Set ℕ) : Prop :=
  ∀ p, n ≤ p → p < ((vol sb s.1).inode i).size.toNat → p ∉ s.2 → answer sb (opRead sb i 1 p) s.1 = .ok [0]

/-- The block in which a truncation to `n` ends holds zero bytes from there on. -/
def CutsClean (V : Vol) (i : UInt32) (n : ℕ) : Prop :=
  ∀ p, n ≤ p → p / blockSize < (n + blockSize - 1) / blockSize → V.byteOf i p = 0

/-- The free blocks a write takes for holes are zero where it leaves them, from `n` on and but for the
positions `W`. -/
def FsOp.FillsClean (sb : Super) (V : Vol) (n : ℕ) (W : Set ℕ) : FsOp → Prop
  | .write fh buf offset => offset + buf.length ≤ maxFileSize →
      holesIn (V.inode fh) (offset / blockSize) (spanned offset buf.length) ≤ V.freeCount sb →
      ∀ p, n ≤ p → p ∉ W → ¬ (offset ≤ p ∧ p < offset + buf.length) → Meets offset buf.length (p / blockSize) →
        blockAt (V.inode fh) (p / blockSize) = 0 → ∀ b,
          (V.freeList sb)[holesIn (V.inode fh) (offset / blockSize) (p / blockSize - offset / blockSize)]? = some b →
          byteAt (V.block b) (p % blockSize) = 0
  | _ => True

section Truncate
variable (hs : RegionsSound sb) (h : VolOk sb V live) (hi : i ∈ live) (hreg : isReg (V.inode i).mode = true)

theorem bytesIn_hole {inode : Inode} {p : ℕ} (hhole : blockAt inode (p / blockSize) = 0) : V.bytesIn inode p = 0 :=
  if_pos hhole

/-- What is kept of a truncated file is as it was. -/
theorem byteOf_truncated (hblock : V'.block = V.block) {size : ℕ} {now : UInt64}
    (hinode : V'.inode i = { (V.inode i).truncated size with size := UInt64.ofNat size, mtime := now }) (p : ℕ) :
    V'.byteOf i p =
      if size < (V.inode i).size.toNat ∧ (size + blockSize - 1) / blockSize ≤ p / blockSize then 0
      else V.byteOf i p := by
  have hbytes : V'.byteOf i p = V.bytesIn ((V.inode i).truncated size) p := by
    rw [byteOf_eq_bytesIn, Vol.bytesIn, hblock, hinode]
    rfl
  rw [hbytes, Inode.truncated]
  by_cases hlt : size < (V.inode i).size.toNat
  · rw [if_pos hlt]
    by_cases hbeyond : (size + blockSize - 1) / blockSize ≤ p / blockSize
    · rw [if_pos ⟨hlt, hbeyond⟩]
      refine bytesIn_hole ?_
      unfold blockAt
      split
      · exact if_pos hbeyond
      · rfl
    · have hkept : blockAt ((V.inode i).cut ((size + blockSize - 1) / blockSize)) (p / blockSize) =
          blockAt (V.inode i) (p / blockSize) := by
        unfold blockAt
        split
        · exact if_neg hbeyond
        · rfl
      rw [if_neg fun hc => hbeyond hc.2, Vol.bytesIn, hkept]
      rfl
  · rw [if_neg hlt, if_neg fun hc => hlt hc.1]
    rfl

include hs h hi hreg

theorem volOk_truncateAt {size : ℕ} (hsize : size ≤ maxFileSize) (now : UInt64) :
    ∃ V', Does sb latest (truncateAt sb i size now) V (.ok ()) V' ∧ VolOk sb V' live ∧
      isReg (V'.inode i).mode = true ∧ (V'.inode i).size.toNat = size ∧ ∀ p, V'.byteOf i p =
        if size < (V.inode i).size.toNat ∧ (size + blockSize - 1) / blockSize ≤ p / blockSize then 0
        else V.byteOf i p := by
  obtain ⟨V', hdoes, howned, hothers, hblock, hinode⟩ :=
    does_truncateAt latest hi (not_isDir_of_isReg hreg) hs h.owned hsize now
  have hfields : ((V.inode i).truncated size).mode = (V.inode i).mode ∧
      ((V.inode i).truncated size).nlink = (V.inode i).nlink := by
    unfold Inode.truncated
    split <;> exact ⟨rfl, rfl⟩
  have hmode : (V'.inode i).mode = (V.inode i).mode := by
    rw [hinode]
    exact hfields.1
  have hnlink : (V'.inode i).nlink = (V.inode i).nlink := by
    rw [hinode]
    exact hfields.2
  refine ⟨V', hdoes, ?_, hmode.symm ▸ hreg, by rw [hinode]; exact toNat_ofNat_size hsize,
    byteOf_truncated hblock hinode⟩
  have hkeeps : VolOk sb V' live ∧ Kept V V' live live (· = i) := h.changeFile hi (not_isDir_of_isReg hreg) howned
    (fun j _ hji => hothers j hji) hmode hnlink (fun b _ _ => by rw [hblock]) rfl
  exact hkeeps.1

/-- A write leaves zero bytes where it does not write, if the blocks it takes are clean there. -/
theorem volOk_opWrite {buf : List UInt8} {offset n : ℕ} {W : Set ℕ}
    (hclean : (FsOp.write i buf offset).FillsClean sb V n W)
    (hzero : ∀ p, n ≤ p → p ∉ W → V.byteOf i p = 0) (now : UInt64) :
    ∃ r V', Does sb latest (opWrite sb i buf offset now) V r V' ∧ VolOk sb V' live ∧
      isReg (V'.inode i).mode = true ∧
      ∀ p, n ≤ p → p ∉ W → ¬ (FsOp.write i buf offset).PutsAt sb V p → V'.byteOf i p = 0 := by
  have hfile := not_isDir_of_isReg hreg
  by_cases hmax : offset + buf.length ≤ maxFileSize
  swap
  · refine ⟨.error .efbig, V, ?_, h, hreg, fun p hp hW _ => hzero p hp hW⟩
    unfold opWrite
    rw [if_pos (Nat.not_le.mp hmax)]
    exact .throw _
  rcases Nat.lt_or_ge (V.freeCount sb) (holesIn (V.inode i) (offset / blockSize) (spanned offset buf.length)) with
    hfull | hfit
  · obtain ⟨V', hdoes, hinode, howned, hland, hkept⟩ := does_opWrite_full hs h.owned hi hmax hfull now
    refine ⟨_, V', hdoes, ?_, hinode ▸ hreg, ?_⟩
    · have hkeeps : VolOk sb V' live ∧ Kept V V' live live (· = i) := h.changeFile hi hfile howned
        (fun j _ _ => by rw [hinode]) (by rw [hinode]) (by rw [hinode]) hkept rfl
      exact hkeeps.1
    · intro p hp hW hout
      by_cases hhole : blockAt (V.inode i) (p / blockSize) = 0
      · exact bytesIn_hole (by rwa [hinode])
      · rw [byteOf_of_landed (congrFun hinode i) hland hhole, if_neg]
        · exact hzero p hp hW
        · exact fun hreach => hout ⟨hmax, hreach.1, hreach.2.1, .inr ⟨hhole, hreach⟩⟩
  · obtain ⟨V', hdoes, hw⟩ := does_opWrite_bytes hs h.owned hi hfile hmax hfit now
    have hmode : (V'.inode i).mode = (V.inode i).mode := by rw [hw.fields]
    refine ⟨_, V', hdoes, ?_, hmode.symm ▸ hreg, ?_⟩
    · have hkeeps : VolOk sb V' live ∧ Kept V V' live live (· = i) := h.changeFile hi hfile hw.owned
        (fun j _ hji => hw.others j hji) hmode (by rw [hw.fields]) hw.kept rfl
      exact hkeeps.1
    · intro p hp hW hout
      have houtside : ¬ (offset ≤ p ∧ p < offset + buf.length) := fun hin => hout ⟨hmax, hin.1, hin.2, .inl hfit⟩
      rw [hw.bytes, overlay_outside houtside]
      by_cases hhole : blockAt (V.inode i) (p / blockSize) = 0
      · by_cases hmeet : Meets offset buf.length (p / blockSize)
        · unfold Vol.bytesIn
          split
          · rfl
          · exact hclean hmax hfit p hp hW houtside hmeet hhole _ (hw.blocks.fresh _ hhole hmeet)
        · exact bytesIn_hole (hw.blocks.outside _ hhole hmeet)
      · rw [← hzero p hp hW, byteOf_eq_bytesIn, Vol.bytesIn, Vol.bytesIn, hw.blocks.kept _ hhole]

end Truncate


/-! ### Runs of writes and truncations -/

section Edits
variable (hs : RegionsSound sb) (hroot : sb.rootIno = rootIno) {v : Image} (h : VolOk sb (vol sb v) live)
include hs hroot h

theorem does_fileTarget {path : List UInt8} {fh : Option UInt32} {size : ℕ}
    (htouch : (FsOp.truncate path fh size).Touches sb latest v i) :
    Does sb latest (fileTarget sb path fh) (vol sb v) (.ok i) (vol sb v) := by
  cases fh with
  | some ino =>
      cases htouch
      exact .pure _
  | none =>
      rcases does_pathLookup latest hs h.owned h.named hroot path with ⟨e, hpath⟩ | ⟨j, -, hpath⟩
      · have hres : Except.error e = Except.ok i := (hpath v rfl).1.symm.trans htouch
        cases hres
      · have hres : Except.ok (ε := Errno) j = Except.ok i := (hpath v rfl).1.symm.trans htouch
        cases hres
        exact hpath

/-- From a truncation on, the bytes of the file that are not written since. -/
structure ZeroFrom (sb : Super) (live : Set UInt32) (i : UInt32) (n : ℕ) (s : Image × Set ℕ) : Prop where
  ok : VolOk sb (vol sb s.1) live
  reg : isReg ((vol sb s.1).inode i).mode = true
  zero : ∀ p, n ≤ p → p ∉ s.2 → (vol sb s.1).byteOf i p = 0

variable (hi : i ∈ live) (hreg : isReg ((vol sb v).inode i).mode = true)
include hi hreg

theorem fsStep_truncate {v' : Image} {path : List UInt8} {fh : Option UInt32} {size : ℕ} {now : UInt64}
    (htouch : (FsOp.truncate path fh size).Touches sb latest v i) (hsize : size ≤ maxFileSize)
    (hstep : fsStep sb v (.truncate path fh size, now) = some v') :
    VolOk sb (vol sb v') live ∧ isReg ((vol sb v').inode i).mode = true ∧
      ((vol sb v').inode i).size.toNat = size ∧ ∀ p, (vol sb v').byteOf i p =
      if size < ((vol sb v).inode i).size.toNat ∧ (size + blockSize - 1) / blockSize ≤ p / blockSize then 0
      else (vol sb v).byteOf i p := by
  obtain ⟨V', hdoes, hrest⟩ := volOk_truncateAt hs h hi hreg hsize now
  have hprog : Does sb latest ((FsOp.truncate path fh size).program sb now) (vol sb v) (.ok ()) V' := by
    change Does sb latest (opTruncate sb path fh size now) _ _ _
    unfold opTruncate
    rw [if_neg (Nat.not_lt.mpr hsize)]
    exact (does_fileTarget hs hroot h htouch).bind hdoes
  cases hstep
  obtain ⟨-, hV'⟩ := hprog v rfl
  change VolOk sb (vol sb (run _ _ v).2) live ∧ _
  rw [hV']
  exact hrest

/-- A truncation whose last block is clean leaves zero bytes only. -/
theorem zeroFrom_truncate {v' : Image} {path : List UInt8} {fh : Option UInt32} {n : ℕ} {now : UInt64}
    (htouch : (FsOp.truncate path fh n).Touches sb latest v i) (hlt : n < ((vol sb v).inode i).size.toNat)
    (hclean : CutsClean (vol sb v) i n) (hstep : fsStep sb v (.truncate path fh n, now) = some v') :
    ZeroFrom sb live i n (v', ∅) := by
  have hmax := ((h.owned.shaped hi).file (not_isDir_of_isReg hreg)).2.1
  obtain ⟨hok, hreg', -, hbytes⟩ := fsStep_truncate hs hroot h hi hreg htouch (by omega) hstep
  refine ⟨hok, hreg', fun p hp _ => ?_⟩
  rw [hbytes]
  split
  · rfl
  · next hkept => exact hclean p hp (by omega)

omit h hreg in
theorem zeroFrom_preserved {n : ℕ} : Preserves (editStep sb)
    (fun s c => c.1.Edits sb s.1 i ∧ c.1.FillsClean sb (vol sb s.1) n s.2) (ZeroFrom sb live i n) := by
  rintro ⟨v, W⟩ t ⟨op, now⟩ ⟨hedit, hclean⟩ hstep hinv
  obtain ⟨v', hcall, rfl⟩ := Option.map_eq_some_iff.mp hstep
  cases op with
  | write fh buf offset =>
      obtain rfl : fh = i := hedit
      obtain ⟨r, V', hdoes, hok, hreg, hzero⟩ := volOk_opWrite hs hinv.ok hi hinv.reg hclean hinv.zero now
      have hprog : ∃ r', Does sb latest ((FsOp.write fh buf offset).program sb now) (vol sb v) r' V' := by
        cases r with
        | ok n => exact ⟨_, hdoes.bind (.pure _)⟩
        | error e => exact ⟨_, hdoes.bind_error⟩
      obtain ⟨r', hprog⟩ := hprog
      cases hcall
      obtain ⟨-, hV'⟩ := hprog v rfl
      refine ⟨?_, ?_, fun p hp hW => ?_⟩
      · exact hV'.symm ▸ hok
      · exact hV'.symm ▸ hreg
      · rw [Set.mem_union, not_or] at hW
        exact hV'.symm ▸ hzero p hp hW.1 hW.2
  | truncate path fh size =>
      have hkeep : ∀ p, p ∉ W ∪ {p | (FsOp.truncate path fh size).PutsAt sb (vol sb v) p} → p ∉ W :=
        fun p hp hW => hp (.inl hW)
      by_cases hsize : size ≤ maxFileSize
      · obtain ⟨hok, hreg, -, hbytes⟩ := fsStep_truncate hs hroot hinv.ok hi hinv.reg hedit hsize hcall
        refine ⟨hok, hreg, fun p hp hW => ?_⟩
        rw [hbytes]
        split
        · rfl
        · exact hinv.zero p hp (hkeep p hW)
      · have hprog : Does sb latest ((FsOp.truncate path fh size).program sb now) (vol sb v) (.error .efbig)
            (vol sb v) := by
          change Does sb latest (opTruncate sb path fh size now) _ _ _
          unfold opTruncate
          rw [if_pos (Nat.not_le.mp hsize)]
          exact .throw _
        cases hcall
        obtain ⟨-, hV'⟩ := hprog v rfl
        exact ⟨hV'.symm ▸ hinv.ok, hV'.symm ▸ hinv.reg, fun p hp hW => hV'.symm ▸ hinv.zero p hp (hkeep p hW)⟩
  | _ => cases hedit

/-- Truncated bytes do not come back in a run whose truncation ends at a clean place, and whose writes
take clean blocks for holes. -/
theorem staysZero_of_clean {v' : Image} {path : List UInt8} {fh : Option UInt32} {n : ℕ} {now : UInt64}
    (htouch : (FsOp.truncate path fh n).Touches sb latest v i) (hlt : n < ((vol sb v).inode i).size.toNat)
    (hclean : CutsClean (vol sb v) i n) (hstep : fsStep sb v (.truncate path fh n, now) = some v')
    {s : Image × Set ℕ} (hrun : Run (editStep sb)
      (fun s c => c.1.Edits sb s.1 i ∧ c.1.FillsClean sb (vol sb s.1) n s.2) (v', ∅) s) :
    StaysZero sb i n s := by
  have hinv := hrun.invariant (zeroFrom_truncate hs hroot h hi hreg htouch hlt hclean hstep)
    (zeroFrom_preserved hs hroot hi)
  intro p hp hsize hW
  rw [answer, (does_readByte latest hs hinv.ok.owned hi hsize s.1 rfl).1, hinv.zero p hp hW]

end Edits

theorem fsStep_some (sb : Super) (v : Image) (c : FsCall) : ∃ v', fsStep sb v c = some v' := ⟨_, rfl⟩

/-! ### Writes into blocks that are there -/

section There
variable {buf : List UInt8} {offset : ℕ} (hthere : ∀ k, Meets offset buf.length k → blockAt (V.inode i) k ≠ 0)
include hthere

theorem holesIn_of_there : holesIn (V.inode i) (offset / blockSize) (spanned offset buf.length) = 0 := by
  rw [holesIn, List.countP_eq_zero]
  intro k hk
  rw [List.mem_range'_1] at hk
  simpa using hthere k hk

theorem fillsClean_of_there (n : ℕ) (W : Set ℕ) : (FsOp.write i buf offset).FillsClean sb V n W :=
  fun _ _ _ _ _ _ hmeet hhole => absurd hhole (hthere _ hmeet)

theorem putsAt_of_there (hmax : offset + buf.length ≤ maxFileSize) {p : ℕ} (hle : offset ≤ p)
    (hlt : p < offset + buf.length) : (FsOp.write i buf offset).PutsAt sb V p :=
  ⟨hmax, hle, hlt, .inl ((holesIn_of_there hthere).trans_le (Nat.zero_le _))⟩

end There

section Tiny
variable {offset : ℕ} {x : UInt8}

/-- The file of one byte, in a block that was zero. -/
theorem exists_file_tiny (hoff : offset < blockSize) (x : UInt8) : ∃ v live,
    Run (fsStep tinySuper) (fun v c => c.1.Proper tinySuper latest v) (tinyDisk fun _ => zeroBlock).flush.view v ∧
      VolOk tinySuper (vol tinySuper v) live ∧ 2 ∈ live ∧ isReg ((vol tinySuper v).inode 2).mode = true ∧
      ((vol tinySuper v).inode 2).size = UInt64.ofNat (offset + 1) ∧
      ∀ p < blockSize, (vol tinySuper v).byteOf 2 p = if p = offset then x else 0 := by
  have h : LaidOut tinySuper 0 (tinyDisk fun _ => zeroBlock).flush.view := by
    rw [view_flush]
    exact laidOut_tiny _
  have hfree : (tinyDisk fun _ => zeroBlock).flush.view 127 = zeroBlock := rfl
  obtain ⟨v, hrun, hv⟩ := exists_run_tiny h hoff x
  obtain ⟨live, hok⟩ := volOk_of_run (run_format_tiny _) (by decide) (run_fsMount_tiny _) hrun
  have hlive := live_firstByte h offset x
  rw [← hv] at hlive
  refine ⟨v, live, hrun, hok, hok.named.live_iff.mp hlive, ?_, ?_, fun p hp => ?_⟩
  · rw [hv, inode_firstByte]
    exact isReg_newFile 0x1A4 0
  · rw [hv, inode_firstByte]
  · rw [hv, byteOf_firstByte hoff hp, hfree, zeroBlock, byteAt_zeros]

/-- The file's second byte is 0xAB. After a truncation to one byte and another to two it is there again. -/
theorem not_staysZero : ∃ v v' s, Run (fsStep tinySuper) (fun v c => c.1.Proper tinySuper latest v)
      (tinyDisk fun _ => zeroBlock).flush.view v ∧
    1 < ((vol tinySuper v).inode 2).size.toNat ∧ (FsOp.truncate [] (some 2) 1).Touches tinySuper latest v 2 ∧
    fsStep tinySuper v (.truncate [] (some 2) 1, 0) = some v' ∧
    Run (editStep tinySuper) (fun s c => c.1.Edits tinySuper s.1 2) (v', ∅) s ∧ ¬ StaysZero tinySuper 2 1 s := by
  have hs := layoutSound_tiny
  obtain ⟨v, live, hrun, hok, hi, hreg, hsize, hbyte⟩ := exists_file_tiny (show 1 < blockSize by decide) 0xAB
  have htouch : ∀ (v : Image) (n : ℕ), (FsOp.truncate [] (some 2) n).Touches tinySuper latest v 2 := fun _ _ => rfl
  obtain ⟨v₁, hcut⟩ := fsStep_some tinySuper v (.truncate [] (some 2) 1, 0)
  obtain ⟨hok₁, hreg₁, hsize₁, hbytes₁⟩ := fsStep_truncate hs rfl hok hi hreg (htouch v 1) (by decide) hcut
  obtain ⟨v₂, hgrow⟩ := fsStep_some tinySuper v₁ (.truncate [] (some 2) 2, 0)
  obtain ⟨hok₂, hreg₂, hsize₂, hbytes₂⟩ := fsStep_truncate hs rfl hok₁ hi hreg₁ (htouch v₁ 2) (by decide) hgrow
  refine ⟨v, v₁, _, hrun, by rw [hsize]; decide, htouch v 1, hcut,
    .next (a := (.truncate [] (some 2) 2, 0)) .init (htouch v₁ 2) (congrArg (Option.map _) hgrow), fun hzero => ?_⟩
  have hread := hzero 1 le_rfl (by change 1 < ((vol tinySuper v₂).inode 2).size.toNat; rw [hsize₂]; decide)
    (by simp [FsOp.PutsAt])
  have hvalue : answer tinySuper (opRead tinySuper 2 1 1) v₂ = .ok [(vol tinySuper v₂).byteOf 2 1] :=
    (does_readByte latest hs hok₂.owned hi (by rw [hsize₂]; decide) v₂ rfl).1
  rw [hbytes₂, if_neg (by rw [hsize₁]; decide), hbytes₁, if_neg (fun hc => absurd hc.2 (by decide)),
    hbyte 1 (by decide), if_pos rfl] at hvalue
  cases hvalue.symm.trans hread

/-- A file of one block, in which the first byte alone is not zero. -/
theorem exists_block_tiny : ∃ v live, VolOk tinySuper (vol tinySuper v) live ∧ 2 ∈ live ∧
    isReg ((vol tinySuper v).inode 2).mode = true ∧ ((vol tinySuper v).inode 2).size.toNat = 4096 ∧
    ∀ p < blockSize, (vol tinySuper v).byteOf 2 p = if p = 0 then 1 else 0 := by
  obtain ⟨v, live, -, hok, hi, hreg, hsize, hbyte⟩ := exists_file_tiny (show 0 < blockSize by decide) 1
  have htouch : (FsOp.truncate [] (some 2) 4096).Touches tinySuper latest v 2 := rfl
  obtain ⟨v₁, hfill⟩ := fsStep_some tinySuper v (.truncate [] (some 2) 4096, 0)
  obtain ⟨hok₁, hreg₁, hsize₁, hbytes₁⟩ := fsStep_truncate layoutSound_tiny rfl hok hi hreg htouch (by decide) hfill
  refine ⟨v₁, live, hok₁, hi, hreg₁, hsize₁, fun p hp => ?_⟩
  rw [hbytes₁, if_neg (fun hc => absurd hc.1 (by rw [hsize]; decide)), hbyte p hp]

/-- The last byte of a block, which is zero, is cut off. The file is written to, and made longer again. -/
theorem staysZero_of_clean_tiny : ∃ s : Image × Set ℕ, ((vol tinySuper s.1).inode 2).size.toNat = 4096 ∧ 0 ∈ s.2 ∧
    4095 ∉ s.2 ∧ answer tinySuper (opRead tinySuper 2 1 4095) s.1 = .ok [0] := by
  have hs := layoutSound_tiny
  have htouch : ∀ (v : Image) (n : ℕ), (FsOp.truncate [] (some 2) n).Touches tinySuper latest v 2 := fun _ _ => rfl
  obtain ⟨v, live, hok, hi, hreg, hsize, hbyte⟩ := exists_block_tiny
  have hclean : CutsClean (vol tinySuper v) 2 4095 := by
    intro p hp hblock
    obtain rfl : p = 4095 := by
      rw [blockSize] at hblock
      omega
    exact hbyte 4095 (by decide)
  obtain ⟨v₁, hcut⟩ := fsStep_some tinySuper v (.truncate [] (some 2) 4095, 0)
  have hlt : 4095 < ((vol tinySuper v).inode 2).size.toNat := by rw [hsize]; decide
  obtain ⟨-, -, -, hbytes₁⟩ := fsStep_truncate hs rfl hok hi hreg (htouch v 4095) (by decide) hcut
  have hthere : ∀ k, Meets 0 1 k → blockAt ((vol tinySuper v₁).inode 2) k ≠ 0 := by
    intro k hmeet hhole
    obtain rfl : k = 0 := Nat.lt_one_iff.mp hmeet.2
    have hone : (vol tinySuper v₁).byteOf 2 0 = 1 := by
      rw [hbytes₁, if_neg (fun hc => absurd hc.2 (by decide)), hbyte 0 (by decide), if_pos rfl]
    rw [Vol.byteOf, show 0 / blockSize = 0 from rfl, hhole, if_pos rfl] at hone
    cases hone
  -- the first byte is written
  obtain ⟨v₂, hcall⟩ := fsStep_some tinySuper v₁ (.write 2 [7] 0, 0)
  have hwrite : editStep tinySuper (v₁, ∅) (.write 2 [7] 0, 0) =
      some (v₂, ∅ ∪ {p | (FsOp.write 2 [7] 0).PutsAt tinySuper (vol tinySuper v₁) p}) := congrArg (Option.map _) hcall
  have hin : 0 ∈ (∅ : Set ℕ) ∪ {p | (FsOp.write 2 [7] 0).PutsAt tinySuper (vol tinySuper v₁) p} :=
    .inr (putsAt_of_there hthere (by decide) le_rfl (by decide))
  have hout : 4095 ∉ (∅ : Set ℕ) ∪ {p | (FsOp.write 2 [7] 0).PutsAt tinySuper (vol tinySuper v₁) p} := by
    rintro (hnone | hput)
    · exact hnone
    · exact absurd hput.2.2.1 (by decide)
  generalize (∅ : Set ℕ) ∪ {p | (FsOp.write 2 [7] 0).PutsAt tinySuper (vol tinySuper v₁) p} = W at hwrite hin hout
  have hedits : (FsOp.write 2 [7] 0).Edits tinySuper v₁ 2 ∧
      (FsOp.write 2 [7] 0).FillsClean tinySuper (vol tinySuper v₁) 4095 ∅ := ⟨rfl, fillsClean_of_there hthere _ _⟩
  have hinv : ZeroFrom tinySuper live 2 4095 (v₂, W) :=
    zeroFrom_preserved hs rfl hi (s := (v₁, ∅)) (a := (.write 2 [7] 0, 0)) hedits hwrite
      (zeroFrom_truncate hs rfl hok hi hreg (htouch v 4095) hlt hclean hcut)
  -- the byte that was cut off is there again
  obtain ⟨v₃, hgrow⟩ := fsStep_some tinySuper v₂ (.truncate [] (some 2) 4096, 0)
  obtain ⟨-, -, hsize₃, -⟩ := fsStep_truncate hs rfl hinv.ok hi hinv.reg (htouch v₂ 4096) (by decide) hgrow
  have hlonger : editStep tinySuper (v₂, W) (.truncate [] (some 2) 4096, 0) =
      some (v₃, W ∪ {p | (FsOp.truncate [] (some 2) 4096).PutsAt tinySuper (vol tinySuper v₂) p}) :=
    congrArg (Option.map _) hgrow
  have hrun : Run (editStep tinySuper)
      (fun s c => c.1.Edits tinySuper s.1 2 ∧ c.1.FillsClean tinySuper (vol tinySuper s.1) 4095 s.2) (v₁, ∅) (v₂, W) :=
    .next (s := (v₁, ∅)) (a := (.write 2 [7] 0, 0)) .init hedits hwrite
  have hzero := staysZero_of_clean hs rfl hok hi hreg (htouch v 4095) hlt hclean hcut
    (hrun.next (s := (v₂, W)) (a := (.truncate [] (some 2) 4096, 0)) ⟨htouch v₂ 4096, trivial⟩ hlonger)
  have hnot : 4095 ∉ W ∪ {p | (FsOp.truncate [] (some 2) 4096).PutsAt tinySuper (vol tinySuper v₂) p} := by
    rintro (hold | hput)
    · exact hout hold
    · exact hput
  refine ⟨(v₃, _), hsize₃, .inl hin, hnot, hzero 4095 le_rfl ?_ hnot⟩
  change 4095 < ((vol tinySuper v₃).inode 2).size.toNat
  rw [hsize₃]
  decide

end Tiny

end Logfs
