import Logfs.FailedOps
import Logfs.FileBytes
import Logfs.VolumeInvariants

/-!
# What a failed call shows

A call that returns an error lets a user see nothing, but for a write that runs out of blocks
after it has reached blocks the file already had.
-/
namespace Logfs
open Interaction WriteCache ByteBuffer NameTree Transition

variable {sb : Super} {V V' : Vol} {live : Set UInt32}

/-- A call that returns an error lets no user see a difference. -/
def FailsUnseen (sb : Super) (v : Image) (op : FsOp) (now : UInt64) : Prop :=
  ∀ e, answer sb (op.program sb now) v = .error e →
    Unseen sb v (run (viewTxn sb.totalBlocks latest) (op.program sb now).run v).2

/-- A write that finds too few free blocks, after it has put another byte in a place the file had
below its size. -/
def FsOp.SpoilsOnFull (sb : Super) (V : Vol) : FsOp → Prop
  | .write fh buf offset => offset + buf.length ≤ maxFileSize ∧
      V.freeCount sb < holesIn (V.inode fh) (offset / blockSize) (spanned offset buf.length) ∧
      ∃ p, p < (V.inode fh).size.toNat ∧ blockAt (V.inode fh) (p / blockSize) ≠ 0 ∧
        Reaches (V.inode fh) offset buf.length (V.freeCount sb) p ∧ buf.getD (p - offset) 0 ≠ V.byteOf fh p
  | _ => False

theorem Conceals.failsUnseen {v : Image} {op : FsOp} {now : UInt64} (hs : LayoutSound sb) (hroot : sb.rootIno = rootIno)
    (h : VolOk sb (vol sb v) live) (hop : Conceals sb (op.program sb now) (vol sb v) live) :
    FailsUnseen sb v op now := by
  obtain ⟨r, V', hdoes, hsee⟩ := hop
  obtain ⟨hr, hV'⟩ := hdoes v rfl
  intro e he
  refine Sees.unseen hs hroot h.owned h.named ?_
  rw [hV']
  exact hsee e (hr.symm.trans he)

section Calls
variable {v : Image} (hs : LayoutSound sb) (hroot : sb.rootIno = rootIno) (h : VolOk sb (vol sb v) live)
  (now : UInt64)
include hs hroot h

theorem failsUnseen_write {fh : UInt32} {buf : List UInt8} {offset : ℕ} (hi : fh ∈ live)
    (hfile : isDir ((vol sb v).inode fh).mode = false) :
    FailsUnseen sb v (.write fh buf offset) now ↔ ¬ (FsOp.write fh buf offset).SpoilsOnFull sb (vol sb v) := by
  by_cases hmax : offset + buf.length ≤ maxFileSize
  swap
  · have hbig : Does sb latest (opWrite sb fh buf offset now) (vol sb v) (.error .efbig) (vol sb v) := by
      unfold opWrite
      rw [if_pos (Nat.not_le.mp hmax)]
      exact .throw _
    exact iff_of_true (Conceals.failsUnseen hs hroot h (Conceals.then (.error hbig .refl))) fun hspoils =>
      hmax hspoils.1
  rcases Nat.lt_or_ge ((vol sb v).freeCount sb)
      (holesIn ((vol sb v).inode fh) (offset / blockSize) (spanned offset buf.length)) with hfull | hfit
  swap
  · obtain ⟨V', hdoes, -⟩ := does_opWrite_bytes hs h.owned hi hfile hmax hfit now
    exact iff_of_true (Conceals.failsUnseen hs hroot h (.then (.ok hdoes))) fun hspoils =>
      absurd hspoils.2.1 (Nat.not_lt.mpr hfit)
  · obtain ⟨V', hdoes, hinode, howned, hland, hkept⟩ := does_opWrite_full hs h.owned hi hmax hfull now
    have hprog : Does sb latest ((FsOp.write fh buf offset).program sb now) (vol sb v) (.error .enospc) V' :=
      hdoes.bind_error
    obtain ⟨hr, hV'⟩ := hprog v rfl
    constructor
    · rintro hunseen ⟨-, -, p, hsize, hp, hreach, hbyte⟩
      have hcontents := (hunseen _ hr).contents fh (h.named.live_iff.mpr hi) 1 p
      have hold := (does_readByte latest hs h.owned hi hsize v rfl).1
      have hnew := (does_readByte latest hs howned hi (by rw [hinode]; exact hsize) _ hV').1
      have hsame : Except.ok [V'.byteOf fh p] = Except.ok (ε := Errno) [(vol sb v).byteOf fh p] :=
        hnew.symm.trans (hcontents.trans hold)
      rw [Except.ok.injEq, List.cons.injEq, byteOf_of_landed (congrFun hinode fh) hland hp,
        if_pos hreach] at hsame
      exact hbyte hsame.1
    · intro hspoils
      refine Conceals.failsUnseen hs hroot h (.error hprog ⟨fun j _ => congrFun hinode j, ?_⟩)
      intro j hj k m hk hsize
      by_cases hji : j = fh
      · subst hji
        by_cases hm : m < blockSize
        · have hdiv : (k.val * blockSize + m) / blockSize = k.val ∧ (k.val * blockSize + m) % blockSize = m := by
            rw [blockSize] at *
            omega
          have hblock : blockAt ((vol sb v).inode j) k = ((vol sb v).inode j).blocks k := blockAt_eq _ k.isLt
          rw [hland k hk m hm]
          split
          · next hreach =>
              by_contra hne
              refine hspoils ⟨hmax, hfull, k.val * blockSize + m, hsize, ?_, hreach, ?_⟩
              · rw [hdiv.1, hblock]
                exact hk
              · rw [Vol.byteOf, hdiv.1, hdiv.2, hblock, if_neg hk]
                exact hne
          · rfl
        · exact (byteAt_of_ge (Nat.not_lt.mp hm)).trans (byteAt_of_ge (Nat.not_lt.mp hm)).symm
      · rw [kept_others h.owned hi hkept hj hji hk]

end Calls

theorem exists_fsStep {sb : Super} {v : Image} {op : FsOp} {now : UInt64} {r : Except Errno Unit} {V' : Vol}
    (h : Does sb latest (op.program sb now) (vol sb v) r V') :
    ∃ v', fsStep sb v (op, now) = some v' ∧ vol sb v' = V' :=
  ⟨_, rfl, (h v rfl).2⟩

/-! ## A volume of two data blocks -/

section Tiny
variable {v : Image} {now : UInt64}

/-- Two data blocks: that of the root directory, and block 127. -/
def tinySuper : Super := formatSuper 128 119 .journal

/-- The image a device with the contents `old` has after the format. -/
def tinyDisk (old : Image) : Disk :=
  (run faultless (fsFormat (.ok ()) 128 119 .journal 0).run (settled old)).2

theorem run_format_tiny (old : Image) :
    run faultless (fsFormat (.ok ()) 128 119 .journal 0).run (settled old) = (.ok (), tinyDisk old) :=
  Prod.ext rfl rfl

theorem layoutSound_tiny : LayoutSound tinySuper :=
  (layoutSound_iff (h := faultless) (.ok ()) 128 119 .journal 0 (settled fun _ => zeroBlock) rfl).mpr
    (by decide)

theorem laidOut_tiny (old : Image) : LaidOut tinySuper 0 (tinyDisk old).view := by
  rw [writes_fsFormat _ _ _ (run_format_tiny old)]
  exact laidOut layoutSound_tiny (by decide)

theorem run_fsMount_tiny (old : Image) : run faultless (fsMount ⟨128⟩).run (tinyDisk old) =
    (.ok (tinySuper, ⟨⟨128⟩, 3, 119, 0, 0, 1⟩), (tinyDisk old).flush) :=
  run_fsMount_formatted rfl layoutSound_tiny (laidOut_tiny old)

/-- The volume after the first file was created. -/
def Vol.firstFile (V : Vol) : Vol :=
  ((V.markInode 2 true).setInode 2 (newFileInode 0x1A4 0)).setBlock tinySuper.dataStart
    (reuseDirent (initialDirBlock rootIno rootIno) 2 2 ftReg [0x61])

/-- The volume after that file's first write, of one byte into its first block. -/
def Vol.firstByte (V : Vol) (offset : ℕ) (x : UInt8) : Vol :=
  ((V.markBlock 127 true).writeAt latest 127 offset [x]).setInode 2
    { setBlockAt (newFileInode 0x1A4 0) 0 127 with size := UInt64.ofNat (offset + 1), mtime := 0 }

variable (h : LaidOut tinySuper 0 v)
include h

theorem nextIno_tiny : (vol tinySuper v).nextIno tinySuper = some 2 := by
  simp only [Vol.nextIno, vol, h.inodeBitmap]
  decide +kernel

theorem nextBlock_tiny {V : Vol} (hused : V.blockUsed = (vol tinySuper v).blockUsed) :
    V.nextBlock tinySuper = some 127 := by
  simp only [Vol.nextBlock, hused, vol, h.blockBitmap]
  decide +kernel

theorem does_create_tiny : Does tinySuper latest (opCreate tinySuper [slash, 0x61] 0x1A4 0)
    (vol tinySuper v) (.ok 2) (vol tinySuper v).firstFile := by
  have hs := layoutSound_tiny
  let V₂ := ((vol tinySuper v).markInode 2 true).setInode 2 (newFileInode 0x1A4 0)
  have hdata : IsData tinySuper tinySuper.dataStart := by decide
  have hroot : V₂.inode rootIno = newDirInode 0x1ED 0 tinySuper.dataStart := by
    rw [Vol.inode_setInode, if_neg (by decide), Vol.inode_markInode, h.inode_root (by decide)]
  have hblock : V₂.block tinySuper.dataStart = initialDirBlock rootIno rootIno := h.block_root hdata
  have hread : Does tinySuper latest (inodeRead tinySuper rootIno) V₂
      (.ok (newDirInode 0x1ED 0 tinySuper.dataStart)) V₂ := by
    rw [← hroot]
    exact does_inodeRead latest hs (by decide)
  have hblocks : List.ofFn (newDirInode 0x1ED 0 tinySuper.dataStart).blocks =
      tinySuper.dataStart :: 0 :: List.replicate 10 0 := rfl
  have hlook : Does tinySuper latest (dirLookup tinySuper rootIno [0x61]) V₂ (.error .enoent) V₂ := by
    refine hread.bind ?_
    have hscan : V₂.scan (Dirent.isNamed [0x61]) (tinySuper.dataStart :: 0 :: List.replicate 10 0) = none := by
      unfold Vol.scan
      rw [if_neg (by decide), hblock, show findInBlock (Dirent.isNamed [0x61])
        (initialDirBlock rootIno rootIno) = none by decide +kernel]
      rfl
    have hone : ∀ b ∈ tinySuper.dataStart :: 0 :: List.replicate 10 0, b ≠ 0 → IsData tinySuper b := by
      intro b hb hne
      rcases List.mem_cons.mp hb with rfl | hzero
      · exact hdata
      · simp only [List.mem_cons, List.mem_replicate] at hzero
        exact absurd (hzero.elim id And.right) hne
    have hfind := does_findEntry latest (V := V₂) (p := Dirent.isNamed [0x61]) hone
    rw [hscan] at hfind
    rw [hblocks]
    exact hfind.bind (.throw _)
  have hadd : Does tinySuper latest (dirAdd tinySuper rootIno [0x61] 2 ftReg) V₂ (.ok ())
      (vol tinySuper v).firstFile := by
    refine hread.bind ?_
    refine hlook.result.bind ?_
    have hfin : List.finRange ndirBlocks = ⟨0, by decide⟩ :: (List.finRange ndirBlocks).tail := rfl
    have hfind : findInBlock (fun d => d.ino == 0) (V₂.block tinySuper.dataStart) = some 2 := by
      rw [hblock]
      decide +kernel
    have hstage : Does tinySuper latest (do
        let wbuf ← TxnEM.getWriteAccess tinySuper.dataStart
        TxnEM.modify tinySuper.dataStart (reuseDirent wbuf 2 2 ftReg [0x61])
        TxnEM.dirtyMetadata tinySuper.dataStart) V₂ (.ok ())
        (V₂.setBlock tinySuper.dataStart (reuseDirent (V₂.block tinySuper.dataStart) 2 2 ftReg [0x61])) :=
      (does_getWriteAccess hdata).bind (does_stage hdata hs _)
    rw [hblock] at hstage
    have hround : Does tinySuper latest (dirAddLoop tinySuper rootIno
        (newDirInode 0x1ED 0 tinySuper.dataStart) [0x61] 2 ftReg (List.finRange ndirBlocks)) V₂ (.ok ())
        (vol tinySuper v).firstFile := by
      rw [hfin, dirAddLoop, if_neg (by decide)]
      refine (does_readBlock latest hdata).bind ?_
      simp only [hfind]
      exact hstage
    exact hround
  have hpath : pathLookup tinySuper [slash] = pure rootIno := rfl
  have hcreate : Does tinySuper latest (createAt tinySuper [slash] [0x61] 0x1A4 0) (vol tinySuper v) (.ok 2)
      (vol tinySuper v).firstFile := by
    unfold createAt
    rw [hpath]
    refine Acts.bind (.pure _) (Does.withHandle ?_)
    exact (does_allocInode hs (nextIno_tiny h)).bind ((does_inodeWrite hs (by decide) _).bind
      (hadd.bind (.pure _)))
  exact hcreate

/-- The first write to the file, of one byte into its first block. -/
theorem does_write_tiny {offset : ℕ} (hoff : offset < blockSize) (x : UInt8) :
    Does tinySuper latest (opWrite tinySuper 2 [x] offset 0) (vol tinySuper v).firstFile (.ok 1)
      ((vol tinySuper v).firstFile.firstByte offset x) := by
  have hs := layoutSound_tiny
  have hinode : (vol tinySuper v).firstFile.inode 2 = newFileInode 0x1A4 0 := by simp [Vol.firstFile]
  have hread : Does tinySuper latest (inodeRead tinySuper 2) (vol tinySuper v).firstFile
      (.ok (newFileInode 0x1A4 0)) (vol tinySuper v).firstFile := by
    rw [← hinode]
    exact does_inodeRead latest hs (by decide)
  have hfirst : offset / blockSize = 0 := Nat.div_eq_of_lt hoff
  have hnext : (vol tinySuper v).firstFile.nextBlock tinySuper = some 127 := nextBlock_tiny h rfl
  have hchunk : Does tinySuper latest (writeChunk tinySuper (newFileInode 0x1A4 0) offset [x])
      (vol tinySuper v).firstFile _ _ :=
    does_writeChunk_hole hs (by rw [hfirst]; rfl) (hoff.trans (by decide)) hnext [x]
  rw [hfirst] at hchunk
  have hloop : Does tinySuper latest (writeLoop tinySuper 1 (newFileInode 0x1A4 0) offset [x])
      (vol tinySuper v).firstFile (.ok (setBlockAt (newFileInode 0x1A4 0) 0 127))
      (((vol tinySuper v).firstFile.markBlock 127 true).writeAt latest 127 offset [x]) := by
    have hone : chunkAt offset 1 = 1 := by
      rw [chunkAt, Nat.mod_eq_of_lt hoff]
      omega
    unfold writeLoop
    rw [if_neg (List.cons_ne_nil _ _), List.length_singleton, hone]
    exact hchunk.bind (.pure _)
  unfold opWrite
  rw [if_neg (by rw [maxFileSize, ndirBlocks]; rw [blockSize] at *; simp; omega)]
  refine Does.withHandle (hread.bind (hloop.bind ?_))
  have hsize : grownSize (setBlockAt (newFileInode 0x1A4 0) 0 127) (offset + 1) = UInt64.ofNat (offset + 1) :=
    if_pos (Nat.succ_pos _)
  rw [List.length_singleton, hsize]
  exact (does_inodeWrite hs (by decide) _).bind (.pure _)

omit h in
/-- The file has a name in the root directory. -/
theorem live_tiny {V : Vol} (hroot : V.inode rootIno = newDirInode 0x1ED 0 tinySuper.dataStart)
    (hblock : V.block tinySuper.dataStart = reuseDirent (initialDirBlock rootIno rootIno) 2 2 ftReg [0x61]) :
    Live V 2 := by
  have hb : (newDirInode 0x1ED 0 tinySuper.dataStart).blocks ⟨0, by decide⟩ = tinySuper.dataStart := rfl
  have hentry : V.entry rootIno (⟨0, by decide⟩, ⟨2, by decide⟩) = some ⟨2, ftReg, [0x61]⟩ := by
    rw [entry_of_dir (by rw [hroot]; exact isDir_newDir _ _ _) (by rw [hroot, hb]; decide), hroot, hb, hblock]
    exact link_reuseDirent (by decide) (by decide) (by decide)
  exact .entry .root hentry

theorem root_firstFile : (vol tinySuper v).firstFile.inode rootIno = newDirInode 0x1ED 0 tinySuper.dataStart := by
  rw [Vol.firstFile, Vol.inode_setBlock, Vol.inode_setInode, if_neg (by decide), Vol.inode_markInode,
    h.inode_root (by decide)]

theorem proper_firstFile :
    Live (vol tinySuper v).firstFile 2 ∧ isReg ((vol tinySuper v).firstFile.inode 2).mode = true := by
  refine ⟨live_tiny (root_firstFile h) (by simp [Vol.firstFile]), ?_⟩
  rw [show (vol tinySuper v).firstFile.inode 2 = newFileInode 0x1A4 0 by simp [Vol.firstFile]]
  exact isReg_newFile _ _

/-- The state after the first byte of the first file was written is one that calls lead to. -/
theorem exists_run_tiny {offset : ℕ} (hoff : offset < blockSize) (x : UInt8) :
    ∃ v', Run (fsStep tinySuper) (fun v c => c.1.Proper tinySuper latest v) v v' ∧
      vol tinySuper v' = (vol tinySuper v).firstFile.firstByte offset x := by
  have hcreate : Does tinySuper latest ((FsOp.create [slash, 0x61] 0x1A4).program tinySuper 0) _ (.ok ()) _ :=
    (does_create_tiny h).bind (.pure _)
  have hwrite : Does tinySuper latest ((FsOp.write 2 [x] offset).program tinySuper 0) _ (.ok ()) _ :=
    (does_write_tiny h hoff x).bind (.pure _)
  obtain ⟨v₁, hstep₁, hv₁⟩ := exists_fsStep hcreate
  rw [← hv₁] at hwrite
  obtain ⟨v₂, hstep₂, hv₂⟩ := exists_fsStep hwrite
  rw [hv₁] at hv₂
  have hfirst : Run (fsStep tinySuper) (fun v c => c.1.Proper tinySuper latest v) v v₁ :=
    .next (a := (.create [slash, 0x61] 0x1A4, 0)) .init properName_a hstep₁
  refine ⟨v₂, hfirst.next (a := (.write 2 [x] offset, 0)) ?_ hstep₂, hv₂⟩
  intro i hi
  cases hi
  rw [hv₁]
  exact proper_firstFile h

theorem freeCount_laidOut : (vol tinySuper v).freeCount tinySuper = 1 := by
  simp only [Vol.freeCount, Vol.freeBlocks, vol, h.blockBitmap]
  decide +kernel

theorem freeCount_tiny {offset : ℕ} {x : UInt8} :
    ((vol tinySuper v).firstFile.firstByte offset x).freeCount tinySuper = 0 := by
  have hnext : (vol tinySuper v).nextBlock tinySuper = some 127 := nextBlock_tiny h rfl
  have htaken := freeCount_markBlock layoutSound_tiny hnext
  rw [freeCount_laidOut h] at htaken
  exact Nat.succ_injective htaken

omit h in
/-- What the one byte's write left in the file. -/
theorem inode_firstByte (V : Vol) (offset : ℕ) (x : UInt8) : (V.firstByte offset x).inode 2 =
    { setBlockAt (newFileInode 0x1A4 0) 0 127 with size := UInt64.ofNat (offset + 1), mtime := 0 } := by
  simp [Vol.firstByte]

omit h in
theorem block_firstByte (V : Vol) (offset : ℕ) (x : UInt8) :
    (V.firstByte offset x).block 127 = V.chunkBuf 127 offset [x] := by
  simp only [Vol.firstByte, Vol.writeAt, Vol.block_setInode, Vol.block_setBlock, if_true, latest]
  rfl

omit h in
/-- Besides the byte written the file's block has what the free block had. -/
theorem byteOf_firstByte {offset p : ℕ} (hoff : offset < blockSize) (hp : p < blockSize) (x : UInt8) :
    ((vol tinySuper v).firstFile.firstByte offset x).byteOf 2 p = if p = offset then x else byteAt (v 127) p := by
  have hat : blockAt (((vol tinySuper v).firstFile.firstByte offset x).inode 2) (p / blockSize) = 127 := by
    rw [inode_firstByte, Nat.div_eq_of_lt hp]
    rfl
  have hold : (vol tinySuper v).firstFile.block 127 = v 127 := by
    rw [Vol.firstFile, Vol.block_setBlock, if_neg (show (127 : UInt64) ≠ tinySuper.dataStart by decide),
      Vol.block_setInode, Vol.block_markInode]
    simp only [vol, if_pos (show IsData tinySuper 127 by decide)]
  rw [Vol.byteOf, hat, if_neg (by decide), block_firstByte, Nat.mod_eq_of_lt hp, byteAt_chunkBuf _ hp,
    Nat.mod_eq_of_lt hoff, List.length_singleton, hold]
  by_cases heq : p = offset
  · subst heq
    rw [if_pos ⟨le_rfl, Nat.lt_succ_self _⟩, if_pos rfl, Nat.sub_self]
    rfl
  · rw [if_neg (by omega), if_neg heq]

theorem live_firstByte (offset : ℕ) (x : UInt8) :
    Live ((vol tinySuper v).firstFile.firstByte offset x) 2 := by
  apply live_tiny
  · rw [Vol.firstByte, Vol.inode_setInode, if_neg (by decide)]
    exact root_firstFile h
  · simp only [Vol.firstByte, Vol.writeAt, Vol.block_setInode, Vol.block_setBlock,
      if_neg (show tinySuper.dataStart ≠ 127 by decide)]
    simp [Vol.firstFile]

theorem spoilsOnFull_tiny {buf : List UInt8} (hlen : buf.length = 4097) (hzero : buf.getD 0 0 = 0) :
    (FsOp.write 2 buf 0).SpoilsOnFull tinySuper ((vol tinySuper v).firstFile.firstByte 0 1) := by
  have hinode := inode_firstByte (vol tinySuper v).firstFile 0 1
  have hbyte : ((vol tinySuper v).firstFile.firstByte 0 1).byteOf 2 0 = 1 := by
    rw [byteOf_firstByte (by decide) (by decide), if_pos rfl]
  refine ⟨by rw [hlen]; decide, ?_, 0, ?_, ?_, ?_, ?_⟩
  · rw [freeCount_tiny h, hinode, hlen]
    decide
  · rw [hinode]
    decide
  · rw [hinode]
    decide
  · exact ⟨le_rfl, by rw [hlen]; decide, Nat.zero_le _⟩
  · rw [hbyte, hzero]
    decide

end Tiny

end Logfs
