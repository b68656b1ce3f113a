import Logfs.OpInvariant
import Logfs.Lib.Transition

/-!
# Sequences of operations

The operations one after the other on the logical block view, as the kernel may call them:
never for `.` or `..`, `unlink` for files only, and `write` and `truncate` for live files.
-/
namespace Logfs
open Interaction ByteBuffer NameTree Transition

/-- The inode the last component of a path names. -/
def resolve (sb : Super) (path : List UInt8) : TxnEM UInt32 :=
  match splitParent path with
  | .error e => throw e
  | .ok (parent, name) => do
      let parentIno ← pathLookup sb parent
      let found ← dirLookup sb parentIno name
      return found.1

namespace FsOp

/-- The file an operation changes or removes. -/
def target (sb : Super) : FsOp → TxnEM UInt32
  | .write fh _ _ => return fh
  | .truncate path fh _ => fileTarget sb path fh
  | .unlink path => resolve sb path
  | .mkdir _ _ | .rmdir _ | .create _ _ => throw .enoent

/-- It is the target of the operation. -/
def Touches (sb : Super) (content : Block → Block → Block) (v : Image) (op : FsOp) (i : UInt32) : Prop :=
  (Interaction.run (viewTxn sb.totalBlocks content) (op.target sb).run v).1 = .ok i

/-- The last component of a path is a proper name. -/
def ProperName (path : List UInt8) : Prop :=
  ∀ parent name, splitParent path = .ok (parent, name) → name ≠ dotName ∧ name ≠ dotDotName

/-- What the kernel has checked before it calls the operation. -/
def Proper (sb : Super) (content : Block → Block → Block) (v : Image) (op : FsOp) : Prop :=
  match op with
  | .mkdir path _ | .create path _ | .rmdir path => ProperName path
  | .unlink path => ProperName path ∧
      ∀ i, op.Touches sb content v i → isDir ((vol sb v).inode i).mode = false
  | .write _ _ _ | .truncate _ _ _ =>
      ∀ i, op.Touches sb content v i → Live (vol sb v) i ∧ isReg ((vol sb v).inode i).mode = true

end FsOp

/-- A regular file is no directory. -/
theorem not_isDir_of_isReg {mode : UInt32} (h : isReg mode = true) : isDir mode = false := by
  rw [isReg, beq_iff_eq] at h
  rw [isDir, h]
  rfl

section Ops
variable {sb : Super} {content : Block → Block → Block} {v : Image} {live : Set UInt32}

theorem Does.touches {op : FsOp} {i : UInt32}
    (h : Does sb content (op.target sb) (vol sb v) (.ok i) (vol sb v)) : op.Touches sb content v i :=
  (h v rfl).1

variable (hs : LayoutSound sb) (hroot : sb.rootIno = rootIno) (h : VolOk sb (vol sb v) live)
include hs hroot h

/-- The search for the parent directory leaves the volume alone. -/
theorem keeps_pathLookup {α : Type} {f : UInt32 → TxnEM α} (parent : List UInt8) {touched : UInt32 → Prop}
    (hrest : ∀ d ∈ live, Does sb content (pathLookup sb parent) (vol sb v) (.ok d) (vol sb v) →
      Keeps sb content (f d) (vol sb v) live touched) :
    Keeps sb content (pathLookup sb parent >>= f) (vol sb v) live touched := by
  rcases does_pathLookup content hs h.owned h.named hroot parent with ⟨e, hpath⟩ | ⟨d, hd, hpath⟩
  · exact keeps_error h hpath.bind_error
  · exact .bind hpath (hrest d hd hpath)

omit hs hroot in
/-- An entry of type directory leads to one. -/
theorem isDir_of_ftDir {d : UInt32} (hd : d ∈ live) {s : Slot} {l : Link} (hl : (vol sb v).entry d s = some l)
    (hty : l.fileType = ftDir) : isDir ((vol sb v).inode l.ino).mode = true := by
  by_contra hfile
  have htyped := h.named.typed hd hl
  rw [hty, typeOf, if_neg hfile] at htyped
  exact absurd htyped (by decide)

omit hs hroot h in
/-- What `unlink` finds is its target. -/
theorem touches_unlink {path parent name : List UInt8} (hsplit : splitParent path = .ok (parent, name))
    {d : UInt32} (hpath : Does sb content (pathLookup sb parent) (vol sb v) (.ok d) (vol sb v))
    {found : UInt32 × UInt8} (hlook : Does sb content (dirLookup sb d name) (vol sb v) (.ok found) (vol sb v)) :
    (FsOp.unlink path).Touches sb content v found.1 := by
  apply Does.touches
  change Does sb content (resolve sb path) _ _ _
  unfold resolve
  rw [hsplit]
  exact hpath.bind (hlook.bind (.pure _))

theorem keeps_opMkdir {path : List UInt8} (hname : FsOp.ProperName path) (mode : UInt32) (now : UInt64)
    (touched : UInt32 → Prop) :
    Keeps sb content (opMkdir sb path mode now) (vol sb v) live touched := by
  unfold opMkdir
  cases hsplit : splitParent path with
  | error e => exact keeps_error h (.throw _)
  | ok r =>
      obtain ⟨parent, name⟩ := r
      exact keeps_pathLookup hs hroot h parent fun d hd _ =>
        .withHandle (keeps_mkdir hs h hd (hname parent name hsplit) mode now)

theorem keeps_opCreate {path : List UInt8} (hname : FsOp.ProperName path) (mode : UInt32) (now : UInt64)
    (touched : UInt32 → Prop) :
    Keeps sb content (opCreate sb path mode now) (vol sb v) live touched := by
  unfold opCreate
  cases hsplit : splitParent path with
  | error e => exact keeps_error h (.throw _)
  | ok r =>
      obtain ⟨parent, name⟩ := r
      exact keeps_pathLookup hs hroot h parent fun d hd _ =>
        .withHandle (keeps_create hs h hd (hname parent name hsplit) mode now)

omit hs hroot h in
theorem isDot_of_proper {l : Link} (hname : l.name ≠ dotName ∧ l.name ≠ dotDotName) :
    l.isDot = false := by
  rw [Bool.eq_false_iff, ne_eq, isDot_iff, not_or]
  exact hname

theorem keeps_opRmdir {path : List UInt8} (hname : FsOp.ProperName path) (now : UInt64)
    (touched : UInt32 → Prop) :
    Keeps sb content (opRmdir sb path now) (vol sb v) live touched := by
  unfold opRmdir
  cases hsplit : splitParent path with
  | error e => exact keeps_error h (.throw _)
  | ok r =>
      obtain ⟨parent, name⟩ := r
      refine keeps_pathLookup hs hroot h parent fun d hd _ => ?_
      rcases does_dirLookup content hs h.owned hd name with
        ⟨e, hlook, -⟩ | ⟨s, l, hl, rfl, hlen, hlook⟩
      · exact keeps_error h hlook.bind_error
      · refine .bind hlook ?_
        by_cases hty : l.fileType = ftDir
        · rw [if_neg (not_not_intro hty)]
          have hdir := isDir_of_ftDir h hd hl hty
          obtain ⟨b, hempty, hnone⟩ := does_dirIsEmpty content hs h.owned (h.named.entry_mem hd hl) hdir
          refine .bind hempty ?_
          cases b with
          | false => exact keeps_error h (.throw _)
          | true =>
              have hdot := isDot_of_proper (hname parent l.name hsplit)
              exact .withHandle (keeps_rmdir hs h hd hl hdot hlen hdir (hnone rfl) now)
        · rw [if_pos hty]
          exact keeps_error h (.throw _)

theorem keeps_opUnlink {path : List UInt8} (hproper : (FsOp.unlink path).Proper sb content v) :
    Keeps sb content (opUnlink sb path) (vol sb v) live ((FsOp.unlink path).Touches sb content v) := by
  obtain ⟨hname, hfile⟩ := hproper
  unfold opUnlink
  cases hsplit : splitParent path with
  | error e => exact keeps_error h (.throw _)
  | ok r =>
      obtain ⟨parent, name⟩ := r
      refine keeps_pathLookup hs hroot h parent fun d hd hpath => ?_
      rcases does_dirLookup content hs h.owned hd name with
        ⟨e, hlook, -⟩ | ⟨s, l, hl, rfl, hlen, hlook⟩
      · exact keeps_error h hlook.bind_error
      · have htouch := touches_unlink hsplit hpath hlook
        have hdot := isDot_of_proper (hname parent l.name hsplit)
        exact .bind hlook (.withHandle (keeps_unlink hs h hd hl hdot hlen (hfile _ htouch) htouch))

omit hroot in
theorem keeps_write {fh : UInt32} {buf : List UInt8} {offset : ℕ}
    (hproper : (FsOp.write fh buf offset).Proper sb content v) (now : UInt64) :
    Keeps sb content (opWrite sb fh buf offset now) (vol sb v) live
      ((FsOp.write fh buf offset).Touches sb content v) := by
  have htouch : (FsOp.write fh buf offset).Touches sb content v fh := rfl
  obtain ⟨hlive, hreg⟩ := hproper fh htouch
  exact keeps_opWrite h (h.named.live_iff.mp hlive) (not_isDir_of_isReg hreg) hs htouch buf offset now

theorem keeps_opTruncate {path : List UInt8} {fh : Option UInt32} {size : ℕ}
    (hproper : (FsOp.truncate path fh size).Proper sb content v) (now : UInt64) :
    Keeps sb content (opTruncate sb path fh size now) (vol sb v) live
      ((FsOp.truncate path fh size).Touches sb content v) := by
  have hfound : ∀ i, Does sb content (fileTarget sb path fh) (vol sb v) (.ok i) (vol sb v) →
      size ≤ maxFileSize → Keeps sb content (do
        let ino ← fileTarget sb path fh
        truncateAt sb ino size now) (vol sb v) live ((FsOp.truncate path fh size).Touches sb content v) := by
    intro i hdoes hsize
    have htouch : (FsOp.truncate path fh size).Touches sb content v i := hdoes.touches
    obtain ⟨hlive, hreg⟩ := hproper i htouch
    exact .bind hdoes (keeps_truncateAt h (h.named.live_iff.mp hlive) (not_isDir_of_isReg hreg) hs htouch
      hsize now)
  unfold opTruncate
  by_cases hbig : maxFileSize < size
  · rw [if_pos hbig]
    exact keeps_error h (.throw _)
  · rw [if_neg hbig]
    have hsize := Nat.not_lt.mp hbig
    cases fh with
    | some ino => exact hfound ino (.pure _) hsize
    | none =>
        rcases does_pathLookup content hs h.owned h.named hroot path with
          ⟨e, hpath⟩ | ⟨i, -, hpath⟩
        · exact keeps_error h (Interaction.Acts.bind_error hpath)
        · exact hfound i hpath hsize

/-- Whatever it returns, a call leaves the volume in order and the files it is not about alone. -/
theorem keeps_program {op : FsOp} (hproper : op.Proper sb content v) (now : UInt64) :
    Keeps sb content (op.program sb now) (vol sb v) live (op.Touches sb content v) := by
  cases op with
  | mkdir path mode => exact keeps_opMkdir hs hroot h hproper mode now _
  | rmdir path => exact keeps_opRmdir hs hroot h hproper now _
  | create path mode => exact (keeps_opCreate hs hroot h hproper mode now _).then
  | write fh buf offset => exact (keeps_write hs h hproper now).then
  | truncate path fh size => exact keeps_opTruncate hs hroot h hproper now
  | unlink path => exact keeps_opUnlink hs hroot h hproper

/-- The volume after the call. -/
theorem volOk_program {op : FsOp} (hproper : op.Proper sb content v) (now : UInt64) :
    ∃ live', VolOk sb (vol sb (run (viewTxn sb.totalBlocks content) (op.program sb now).run v).2) live' ∧
      Kept (vol sb v) (vol sb (run (viewTxn sb.totalBlocks content) (op.program sb now).run v).2)
        live live' (op.Touches sb content v) := by
  obtain ⟨r, V', live', hdoes, hok, hkept⟩ := keeps_program hs hroot h hproper now
  obtain ⟨-, hV'⟩ := hdoes v rfl
  rw [hV']
  exact ⟨live', hok, hkept⟩

end Ops

/-! ## Runs -/

/-- A call and the time it reads. -/
abbrev FsCall := FsOp × UInt64

/-- The logical block view after a call. -/
def fsStep (sb : Super) (v : Image) (c : FsCall) : Option Image :=
  some (run (viewTxn sb.totalBlocks latest) (c.1.program sb c.2).run v).2

theorem volOk_preserved {sb : Super} (hs : LayoutSound sb) (hroot : sb.rootIno = rootIno) :
    Preserves (fsStep sb) (fun v c => c.1.Proper sb latest v) fun v => ∃ live, VolOk sb (vol sb v) live := by
  rintro v v' ⟨op, now⟩ hproper hstep ⟨live, h⟩
  cases hstep
  obtain ⟨live', h', -⟩ := volOk_program hs hroot h hproper now
  exact ⟨live', h'⟩

end Logfs
