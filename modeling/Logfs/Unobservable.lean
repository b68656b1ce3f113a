import Logfs.FileBytes
import Logfs.FreeBlocks

/-!
# What free blocks hold

Sequences of calls on two images that differ in such blocks only. They get the same replies as
long as each write that meets a hole of its file covers the block.
-/
namespace Logfs
open Interaction WriteCache ByteBuffer NameTree Transition

/-! ## Calls and replies -/

/-- What a call returns when it succeeds. -/
inductive Reply
  | done
  | handle (ino : UInt32)
  | written (n : ℕ)
  | attributes (stat : Stat)
  | names (names : List (List UInt8))
  | bytes (bytes : List UInt8)
  deriving DecidableEq

def FsOp.reply (sb : Super) (now : UInt64) : FsOp → TxnEM Reply
  | .mkdir path mode => do
      let _ ← opMkdir sb path mode now
      return .done
  | .rmdir path => do
      let _ ← opRmdir sb path now
      return .done
  | .create path mode => do
      let ino ← opCreate sb path mode now
      return .handle ino
  | .write fh buf offset => do
      let n ← opWrite sb fh buf offset now
      return .written n
  | .truncate path fh size => do
      let _ ← opTruncate sb path fh size now
      return .done
  | .unlink path => do
      let _ ← opUnlink sb path
      return .done

/-- A call of an operation, of one that only reads or another. -/
inductive UserCall
  | change (op : FsOp)
  | getattr (path : List UInt8)
  | readdir (path : List UInt8)
  | read (fh : UInt32) (size offset : ℕ)
  deriving DecidableEq

def UserCall.program (sb : Super) (now : UInt64) : UserCall → TxnEM Reply
  | .change op => op.reply sb now
  | .getattr path => do
      let stat ← opGetattr sb path
      return .attributes stat
  | .readdir path => do
      let names ← opReaddir sb path
      return .names names
  | .read fh size offset => do
      let bytes ← opRead sb fh size offset
      return .bytes bytes

/-- The image after a call at a given time. -/
def afterCall (sb : Super) (v : Image) (c : UserCall × UInt64) : Image :=
  (run (viewTxn sb.totalBlocks latest) (c.1.program sb c.2).run v).2

/-- The replies to the calls, one after the other. -/
def replies (sb : Super) : Image → List (UserCall × UInt64) → List (Except Errno Reply)
  | _, [] => []
  | v, c :: cs => answer sb (c.1.program sb c.2) v :: replies sb (afterCall sb v c) cs

/-- The images differ only in data blocks whose bit in the bitmap is clear. -/
def FreeDiffer (sb : Super) (v v' : Image) : Prop :=
  ∀ b, v' b ≠ v b → IsData sb b ∧ testBit (v sb.blockBitmapStart) (b - sb.dataStart).toNat = false

/-- A write that meets a hole of the file covers the whole block, unless it is too long for a file. -/
def FsOp.FillsHoles (V : Vol) : FsOp → Prop
  | .write fh buf offset =>
      offset + buf.length ≤ maxFileSize → CoversHoles (V.inode fh) offset buf.length
  | _ => True

/-- What the kernel has checked before it makes the call. -/
def UserCall.Proper (sb : Super) (v : Image) : UserCall → Prop
  | .change op => op.Proper sb latest v
  | .read fh _ _ => Live (vol sb v) fh
  | .getattr _ | .readdir _ => True

def UserCall.FillsHoles (V : Vol) : UserCall → Prop
  | .change op => op.FillsHoles V
  | _ => True

/-- Each of the calls is made in a state in which it is proper and satisfies `ok`. -/
def AllProper (sb : Super) (ok : Vol → UserCall → Prop) : Image → List (UserCall × UInt64) → Prop
  | _, [] => True
  | v, c :: cs => c.1.Proper sb v ∧ ok (vol sb v) c.1 ∧ AllProper sb ok (afterCall sb v c) cs

/-! ## One call -/

section Calls
variable {sb : Super} {v v' : Image} {live : Set UInt32} (hs : LayoutSound sb)

include hs in
theorem FreeDiffer.blind (h : FreeDiffer sb v v') : Blind (vol sb v) (vol sb v') := by
  have hmeta : ∀ b, ¬ IsData sb b → v' b = v b := fun b hb => by_contra fun hne => hb (h b hne).1
  have hib : v' sb.inodeBitmapStart = v sb.inodeBitmapStart :=
    hmeta _ fun hdata => hdata.ne_inodeBitmap hs rfl
  have hbb : v' sb.blockBitmapStart = v sb.blockBitmapStart :=
    hmeta _ fun hdata => hdata.ne_blockBitmap hs rfl
  refine ⟨?_, ?_, ?_, ?_⟩
  · simp only [vol, hib]
  · simp only [vol, hbb]
  · ext1 i
    by_cases hi : IsIno sb i
    · simp only [vol, if_pos hi]
      rw [hmeta _ fun hdata => hdata.ne_location hi rfl]
    · simp only [vol, if_neg hi]
  · intro b hused
    obtain ⟨hdata, hbit⟩ := Bool.and_eq_true_iff.mp hused
    simp only [vol, if_pos (of_decide_eq_true hdata)]
    by_contra hne
    rw [(h b hne).2] at hbit
    cases hbit

variable (hroot : sb.rootIno = rootIno) (h : VolOk sb (vol sb v) live)
include hs hroot h

theorem keeps_reply {op : FsOp} (hproper : op.Proper sb latest v) (now : UInt64) :
    Keeps sb latest (op.reply sb now) (vol sb v) live (op.Touches sb latest v) := by
  cases op with
  | mkdir path mode => exact (keeps_opMkdir hs hroot h hproper mode now _).then
  | rmdir path => exact (keeps_opRmdir hs hroot h hproper now _).then
  | create path mode => exact (keeps_opCreate hs hroot h hproper mode now _).then
  | write fh buf offset => exact (keeps_write hs h hproper now).then
  | truncate path fh size => exact (keeps_opTruncate hs hroot h hproper now).then
  | unlink path => exact (keeps_opUnlink hs hroot h hproper).then

variable (hblind : Blind (vol sb v) (vol sb v'))
include hblind

theorem both_reply {op : FsOp} (hproper : op.Proper sb latest v) (hfills : op.FillsHoles (vol sb v))
    (now : UInt64) : Both sb (op.reply sb now) (vol sb v) (vol sb v') := by
  cases op with
  | mkdir path mode => exact .reply (both_opMkdir hs hroot h hblind path mode now)
  | rmdir path => exact .reply (both_opRmdir hs hroot h hblind path now)
  | create path mode => exact .reply (both_opCreate hs hroot h hblind path mode now)
  | write fh buf offset =>
      exact .reply (both_opWrite hs h hblind (h.named.live_iff.mp (hproper fh rfl).1) hfills now)
  | truncate path fh size => exact .reply (both_opTruncate hs hroot h hblind hproper now)
  | unlink path => exact .reply (both_opUnlink hs hroot h hblind path)

/-- Such a call gets the same reply on both images, and leads to two that differ as little,
the first of them in order. -/
theorem call_blind {c : UserCall × UInt64} (hproper : c.1.Proper sb v) (hfills : c.1.FillsHoles (vol sb v)) :
    answer sb (c.1.program sb c.2) v' = answer sb (c.1.program sb c.2) v ∧
      Blind (vol sb (afterCall sb v c)) (vol sb (afterCall sb v' c)) ∧
      ∃ live', VolOk sb (vol sb (afterCall sb v c)) live' := by
  obtain ⟨c, now⟩ := c
  have hsee := hblind.sees h.owned
  have hreads : ∀ {α : Type} {p : TxnEM α} {Q : α → Prop} {f : α → Reply},
      Alike sb latest p (vol sb v) (vol sb v') Q → c.program sb now = (do let a ← p; return f a) →
      answer sb (c.program sb now) v' = answer sb (c.program sb now) v ∧
        Blind (vol sb (afterCall sb v (c, now))) (vol sb (afterCall sb v' (c, now))) ∧
        ∃ live', VolOk sb (vol sb (afterCall sb v (c, now))) live' := by
    intro α p Q f hp hprog
    have hcall : Alike sb latest (c.program sb now) (vol sb v) (vol sb v') fun _ => True := by
      rw [hprog]
      exact hp.bind fun _ _ => .pure trivial
    obtain ⟨r, hV, hV', -⟩ := hcall
    obtain ⟨hr, hnext⟩ := hV v rfl
    obtain ⟨hr', hnext'⟩ := hV' v' rfl
    refine ⟨hr'.trans hr.symm, ?_, live, ?_⟩
    · rw [afterCall, afterCall, hnext, hnext']
      exact hblind
    · rw [afterCall, hnext]
      exact h
  cases c with
  | getattr path => exact hreads (hsee.alike_opGetattr hs h.owned h.named hroot path) rfl
  | readdir path => exact hreads (hsee.alike_opReaddir hs h.owned h.named hroot path) rfl
  | read fh size offset =>
      exact hreads (hsee.alike_opRead hs h.owned (h.named.live_iff.mp hproper) size offset) rfl
  | change op =>
      obtain ⟨r, W, W', hW, hW', hnext⟩ := both_reply hs hroot h hblind hproper hfills now
      obtain ⟨_, U, live', hU, hok, -⟩ := keeps_reply hs hroot h hproper now
      obtain ⟨hr, hvol⟩ := hW v rfl
      obtain ⟨hr', hvol'⟩ := hW' v' rfl
      refine ⟨hr'.trans hr.symm, ?_, live', ?_⟩
      · change Blind (vol sb (run _ (op.reply sb now).run v).2) (vol sb (run _ (op.reply sb now).run v').2)
        rw [hvol, hvol']
        exact hnext
      · change VolOk sb (vol sb (run _ (op.reply sb now).run v).2) live'
        rw [(hU v rfl).2]
        exact hok

end Calls

/-! ## All calls -/

section Runs
variable {sb : Super} {v v' : Image} {live : Set UInt32} {cs : List (UserCall × UInt64)}
  (hs : LayoutSound sb) (hroot : sb.rootIno = rootIno)
include hs hroot

theorem replies_blind (h : VolOk sb (vol sb v) live) (hblind : Blind (vol sb v) (vol sb v'))
    (hok : AllProper sb UserCall.FillsHoles v cs) : replies sb v' cs = replies sb v cs := by
  induction cs generalizing v v' live with
  | nil => rfl
  | cons c cs ih =>
      obtain ⟨hproper, hfills, hok⟩ := hok
      obtain ⟨hreply, hnext, live', h'⟩ := call_blind hs hroot h hblind hproper hfills
      rw [replies, replies, hreply, ih h' hnext hok]

/-- As long as each write covers the holes it meets, no reply depends on what free blocks hold. -/
theorem replies_of_freeDiffer (h : VolOk sb (vol sb v) live) (hfree : FreeDiffer sb v v')
    (hok : AllProper sb UserCall.FillsHoles v cs) : replies sb v' cs = replies sb v cs :=
  replies_blind hs hroot h (hfree.blind hs) hok

end Runs

/-! ## A byte of a free block -/

section Tiny
variable {v v' : Image}

/-- `create` of the file `/a` -/
def createCall : UserCall × UInt64 := (.change (.create [slash, 0x61] 0x1A4), 0)

/-- A write of one byte to the file's second position. -/
def writeCall : UserCall × UInt64 := (.change (.write 2 [1] 1), 0)

/-- A write of the file's whole first block. -/
def fillCall : UserCall × UInt64 := (.change (.write 2 (List.replicate blockSize 1) 0), 0)

/-- A read of the byte at its first position. -/
def readCall : UserCall × UInt64 := (.read 2 1 0, 0)

variable (h : LaidOut tinySuper 0 v)
include h

theorem does_createCall : Does tinySuper latest (createCall.1.program tinySuper 0) (vol tinySuper v)
    (.ok (.handle 2)) (vol tinySuper v).firstFile :=
  (does_create_tiny h).bind (.pure _)

theorem does_writeCall : Does tinySuper latest (writeCall.1.program tinySuper 0)
    (vol tinySuper v).firstFile (.ok (.written 1)) ((vol tinySuper v).firstFile.firstByte 1 1) :=
  (does_write_tiny h (show 1 < blockSize by decide) 1).bind (.pure _)

theorem vol_createCall : vol tinySuper (afterCall tinySuper v createCall) = (vol tinySuper v).firstFile :=
  (does_createCall h v rfl).2

theorem vol_writeCall : vol tinySuper (afterCall tinySuper (afterCall tinySuper v createCall) writeCall) =
    (vol tinySuper v).firstFile.firstByte 1 1 :=
  (does_writeCall h _ (vol_createCall h)).2

/-- The read returns what the free block held. -/
theorem replies_peek : replies tinySuper v [createCall, writeCall, readCall] =
    [.ok (.handle 2), .ok (.written 1), .ok (.bytes [byteAt (v 127) 0])] := by
  obtain ⟨v₂, hrun, hv₂⟩ := exists_run_tiny h (show 1 < blockSize by decide) 1
  obtain ⟨live, hok⟩ : ∃ live, VolOk tinySuper (vol tinySuper v₂) live :=
    hrun.invariant ⟨_, h.volOk layoutSound_tiny (by decide) (by decide)⟩ (volOk_preserved layoutSound_tiny rfl)
  have hlive : 2 ∈ live := by
    rw [← hok.named.live_iff, hv₂]
    exact live_firstByte h 1 1
  have hsize : 0 < ((vol tinySuper v₂).inode 2).size.toNat := by
    rw [hv₂, inode_firstByte]
    decide
  have hread := does_readByte latest layoutSound_tiny hok.owned hlive hsize
  have hbyte : (vol tinySuper v₂).byteOf 2 0 = byteAt (v 127) 0 := by
    rw [hv₂, byteOf_firstByte (by decide) (by decide), if_neg (by decide)]
  rw [hbyte, hv₂] at hread
  have hbytes : Does tinySuper latest (readCall.1.program tinySuper 0) _
      (.ok (.bytes [byteAt (v 127) 0])) _ := hread.bind (.pure _)
  exact congrArg₂ List.cons (does_createCall h v rfl).1 (congrArg₂ List.cons
    (does_writeCall h _ (vol_createCall h)).1 (congrArg₂ List.cons (hbytes _ (vol_writeCall h)).1 rfl))

theorem proper_peek : AllProper tinySuper (fun _ _ => True) v [createCall, writeCall, readCall] := by
  refine ⟨properName_a, trivial, ?_, trivial, ?_, trivial, trivial⟩
  · intro i hi
    cases hi
    rw [vol_createCall h]
    exact proper_firstFile h
  · change Live _ 2
    rw [vol_writeCall h]
    exact live_firstByte h 1 1

theorem volOk_firstFile : ∃ live, VolOk tinySuper (vol tinySuper v).firstFile live ∧ 2 ∈ live := by
  have hcreate : Does tinySuper latest ((FsOp.create [slash, 0x61] 0x1A4).program tinySuper 0) _ (.ok ()) _ :=
    (does_create_tiny h).bind (.pure _)
  obtain ⟨v₁, hstep, hv₁⟩ := exists_fsStep hcreate
  have hrun : Run (fsStep tinySuper) (fun v c => c.1.Proper tinySuper latest v) v v₁ :=
    .next (a := (.create [slash, 0x61] 0x1A4, 0)) .init properName_a hstep
  obtain ⟨live, hok⟩ : ∃ live, VolOk tinySuper (vol tinySuper v₁) live :=
    hrun.invariant ⟨_, h.volOk layoutSound_tiny (by decide) (by decide)⟩ (volOk_preserved layoutSound_tiny rfl)
  rw [hv₁] at hok
  exact ⟨live, hok, hok.named.live_iff.mp (proper_firstFile h).1⟩

/-- The write takes the free block. -/
theorem does_fillCall : ∃ V', Does tinySuper latest (fillCall.1.program tinySuper 0) (vol tinySuper v).firstFile
    (.ok (.written blockSize)) V' ∧ Live V' 2 ∧
    Does tinySuper latest (readCall.1.program tinySuper 0) V' (.ok (.bytes [1])) V' := by
  have hs := layoutSound_tiny
  obtain ⟨live, hok, hi⟩ := volOk_firstFile h
  have hinode : (vol tinySuper v).firstFile.inode 2 = newFileInode 0x1A4 0 := by simp [Vol.firstFile]
  have hfile := not_isDir_of_isReg (proper_firstFile h).2
  have hfree : 1 ≤ (vol tinySuper v).firstFile.freeCount tinySuper := (freeCount_laidOut h).ge
  have hlen : (List.replicate blockSize (1 : UInt8)).length = blockSize := List.length_replicate
  have hmax : 0 + (List.replicate blockSize (1 : UInt8)).length ≤ maxFileSize := by
    rw [hlen]
    decide
  obtain ⟨V', hdoes, hw⟩ := does_opWrite_bytes hs hok.owned hi hfile hmax (by rw [hlen, hinode]; exact le_trans (by decide) hfree) 0
  have hkeeps : VolOk tinySuper V' live ∧ Kept (vol tinySuper v).firstFile V' live live (· = 2) :=
    hok.changeFile hi hfile hw.owned (fun j _ hji => hw.others j hji) (by rw [hw.fields]) (by rw [hw.fields]) hw.kept rfl
  have hsize : 0 < (V'.inode 2).size.toNat := by
    rw [hw.size, hlen]
    exact lt_max_of_lt_right (by decide)
  have hread := does_readByte latest hs hkeeps.1.owned hi hsize
  have hbyte : V'.byteOf 2 0 = 1 := by
    rw [hw.bytes, ← Nat.add_zero 0, overlay_inside (by rw [hlen]; decide)]
    rfl
  rw [hbyte] at hread
  rw [hlen] at hdoes
  exact ⟨V', hdoes.bind (.pure _), hkeeps.1.named.live_iff.mpr hi, hread.bind (.pure _)⟩

omit h in
theorem LaidOut.update (h : LaidOut tinySuper 0 v) (data : Block) :
    LaidOut tinySuper 0 (Function.update v 127 data) where
  super := by rw [Function.update_of_ne (by decide), h.super]
  jsuper := by
    rw [jsuperOf, Function.update_of_ne (by decide)]
    exact h.jsuper
  inodeBitmap := by rw [Function.update_of_ne (by decide), h.inodeBitmap]
  blockBitmap := by rw [Function.update_of_ne (by decide), h.blockBitmap]
  table := by rw [Function.update_of_ne (by decide), h.table]
  data := by rw [Function.update_of_ne (by decide), h.data]

theorem freeDiffer_update (data : Block) : FreeDiffer tinySuper v (Function.update v 127 data) := by
  intro b hne
  have hb : b = 127 := by
    by_contra hb
    exact hne (Function.update_of_ne hb _ _)
  rw [hb, h.blockBitmap]
  decide +kernel

end Tiny

/-- A file is created on both images, its first block written as a whole and read. -/
theorem replies_of_freeDiffer_tiny : ∃ v v', v' 127 ≠ v 127 ∧
    replies tinySuper v [createCall, fillCall, readCall] =
      [.ok (.handle 2), .ok (.written blockSize), .ok (.bytes [1])] ∧
    replies tinySuper v' [createCall, fillCall, readCall] = replies tinySuper v [createCall, fillCall, readCall] := by
  have h : LaidOut tinySuper 0 (tinyDisk fun _ => zeroBlock).view := laidOut_tiny _
  generalize (tinyDisk fun _ => zeroBlock).view = v at h
  have hone := h.update fun _ => 1
  have hdiffer := freeDiffer_update hone fun _ => 2
  rw [Function.update_idem] at hdiffer
  have hne : Function.update v 127 (fun _ => 2) 127 ≠ Function.update v 127 (fun _ => 1) 127 := by
    rw [Function.update_self, Function.update_self]
    intro he
    exact absurd (congrFun he ⟨0, by decide⟩) (by decide)
  obtain ⟨V', hfill, hlive, hread⟩ := does_fillCall hone
  generalize Function.update v 127 (fun _ => 1) = w at *
  have hfilled : vol tinySuper (afterCall tinySuper (afterCall tinySuper w createCall) fillCall) = V' :=
    (hfill _ (vol_createCall hone)).2
  have hcovers : CoversHoles ((vol tinySuper w).firstFile.inode 2) 0 (List.replicate blockSize (1 : UInt8)).length := by
    intro p _ hp _
    rw [List.length_replicate, Nat.zero_add] at *
    rw [Nat.div_eq_of_lt hp]
    omega
  have hproper : AllProper tinySuper UserCall.FillsHoles w [createCall, fillCall, readCall] := by
    refine ⟨properName_a, trivial, ?_, ?_, ?_, trivial, trivial⟩
    · rintro i ⟨⟩
      rw [vol_createCall hone]
      exact proper_firstFile hone
    · rintro -
      rw [vol_createCall hone]
      exact hcovers
    · change Live _ 2
      rw [hfilled]
      exact hlive
  refine ⟨w, Function.update v 127 fun _ => 2, hne, ?_, ?_⟩
  · exact congrArg₂ List.cons (does_createCall hone w rfl).1 (congrArg₂ List.cons (hfill _ (vol_createCall hone)).1
      (congrArg₂ List.cons (hread _ hfilled).1 rfl))
  · exact replies_of_freeDiffer layoutSound_tiny rfl (hone.volOk layoutSound_tiny (by decide) (by decide)) hdiffer hproper

/-- On two freshly formatted images that differ in block 127 the read returns what it holds. -/
theorem not_replies_of_proper : ¬ ∀ (sb : Super) (v v' : Image) (live : Set UInt32) (cs : List (UserCall × UInt64)),
    LayoutSound sb → sb.rootIno = rootIno → VolOk sb (vol sb v) live → FreeDiffer sb v v' →
      AllProper sb (fun _ _ => True) v cs → replies sb v' cs = replies sb v cs := by
  intro hall
  have h : LaidOut tinySuper 0 (tinyDisk fun _ => zeroBlock).view := laidOut_tiny _
  generalize (tinyDisk fun _ => zeroBlock).view = v at h
  have hsame := hall tinySuper v (Function.update v 127 fun _ => if byteAt (v 127) 0 = 0 then 1 else 0) _ _ layoutSound_tiny rfl
    (h.volOk layoutSound_tiny (by decide) (by decide)) (freeDiffer_update h _) (proper_peek h)
  rw [replies_peek h, replies_peek (h.update _), Function.update_self] at hsame
  have hbyte : (if byteAt (v 127) 0 = 0 then 1 else 0) = byteAt (v 127) 0 := by simpa [byteAt] using hsame
  split_ifs at hbyte with hzero
  · rw [hzero] at hbyte
    cases hbyte
  · exact hzero hbyte.symm

end Logfs
