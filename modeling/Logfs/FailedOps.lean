import Logfs.Observers

/-!
# Calls that fail

Every operation but a write leaves no more behind, when it fails, than numbers and blocks
that nothing leads to.
-/
namespace Logfs
open Interaction ByteBuffer NameTree

variable {sb : Super} {V V' : Vol} {live : Set UInt32} {α : Type}

/-! ## Changes that do not show -/

theorem Sees.refl : Sees V V live := ⟨fun _ _ => rfl, fun _ _ _ _ _ _ => rfl⟩

/-- Other inodes, and blocks that are not in use, may change. -/
theorem Sees.of_used (h : Owned sb V live) (hinode : ∀ i ∈ live, V'.inode i = V.inode i)
    (hblock : ∀ b, V.blockUsed b = true → V'.block b = V.block b) : Sees V V' live where
  inode := hinode
  bytes i hi k _ hk _ := by rw [hblock _ (h.placed hi hk).2]

/-- Where the operation fails, nothing the live inodes show has changed. -/
def Conceals (sb : Super) (op : TxnEM α) (V : Vol) (live : Set UInt32) : Prop :=
  ∃ r V', Does sb latest op V r V' ∧ ∀ e, r = .error e → Sees V V' live

namespace Conceals
variable {op : TxnEM α}

theorem ok {a : α} (h : Does sb latest op V (.ok a) V') : Conceals sb op V live :=
  ⟨_, V', h, fun _ he => by cases he⟩

theorem error {e : Errno} (h : Does sb latest op V (.error e) V') (hsee : Sees V V' live) :
    Conceals sb op V live :=
  ⟨_, V', h, fun _ _ => hsee⟩

theorem withHandle (h : Conceals sb op V live) : Conceals sb op.withHandle V live := by
  obtain ⟨r, V', hdoes, hsee⟩ := h
  exact ⟨r, V', hdoes.withHandle, hsee⟩

/-- A first part that only reads. -/
theorem bind {β : Type} {p : TxnEM β} {f : β → TxnEM α} {b : β} (hp : Does sb latest p V (.ok b) V)
    (h : Conceals sb (f b) V live) : Conceals sb (p >>= f) V live := by
  obtain ⟨r, V', hdoes, hsee⟩ := h
  exact ⟨r, V', hp.bind hdoes, hsee⟩

end Conceals

theorem Conceals.then {β : Type} {f : α → β} {op : TxnEM α} (h : Conceals sb op V live) :
    Conceals sb (do let a ← op; return f a) V live := by
  obtain ⟨r, V', hdoes, hsee⟩ := h
  cases r with
  | ok a => exact .ok (hdoes.bind (.pure _))
  | error e => exact .error hdoes.bind_error (hsee e rfl)

/-! ## Creation -/

section Create
variable (hs : LayoutSound sb) (h : Owned sb V live) {d : UInt32} (hd : d ∈ live)
include hs h hd

/-- A number that no entry names is all that is left behind. -/
theorem conceals_create (name : List UInt8) (mode : UInt32) (now : UInt64) :
    Conceals sb (do
      let newIno ← allocInode sb
      inodeWrite sb newIno (newFileInode mode now)
      dirAdd sb d name newIno ftReg
      return newIno) V live := by
  cases hnext : V.nextIno sb with
  | none => exact .error (does_allocInode_full hs hnext).bind_error .refl
  | some i =>
      obtain ⟨hino, hfree⟩ := nextIno_free hs hnext
      have hi := h.not_mem_of_free hfree
      let V₂ := (V.markInode i true).setInode i (newFileInode mode now)
      have hwrite : Does sb latest (inodeWrite sb i (newFileInode mode now)) (V.markInode i true)
          (.ok ()) V₂ := does_inodeWrite hs hino _
      have howned₂ : Owned sb V₂ (insert i live) :=
        (h.markInode i).setInode ⟨hino, by simp⟩ Owned.MayOwn.holes (shaped_newFile mode now)
      rcases does_dirAdd latest ftReg name hs howned₂ (Set.mem_insert_of_mem _ hd) hino.ne_zero with
        ⟨e, hadd⟩ | ⟨s, V', hadd, -⟩
      · refine .error ((does_allocInode hs hnext).bind (hwrite.bind hadd.bind_error)) (.of_used h ?_ ?_)
        · intro j hj
          have hji : j ≠ i := fun he => hi (he ▸ hj)
          simp [V₂, hji]
        · exact fun _ _ => rfl
      · exact .ok ((does_allocInode hs hnext).bind (hwrite.bind (hadd.bind (.pure _))))

/-- A number and a block that no entry leads to are all that is left behind. -/
theorem conceals_mkdir (name : List UInt8) (mode : UInt32) (now : UInt64) :
    Conceals sb (do
      let newIno ← allocInode sb
      let dataBlock ← allocBlock sb
      let _ ← TxnEM.getWriteAccess dataBlock
      TxnEM.modify dataBlock (initialDirBlock newIno d)
      TxnEM.dirtyMetadata dataBlock
      inodeWrite sb newIno (newDirInode mode now dataBlock)
      dirAdd sb d name newIno ftDir
      let pdir ← inodeRead sb d
      inodeWrite sb d { pdir with nlink := pdir.nlink + 1, mtime := now }) V live := by
  cases hnext : V.nextIno sb with
  | none => exact .error (does_allocInode_full hs hnext).bind_error .refl
  | some i =>
      obtain ⟨hino, hfree⟩ := nextIno_free hs hnext
      have hi := h.not_mem_of_free hfree
      cases hnextb : (V.markInode i true).nextBlock sb with
      | none =>
          exact .error ((does_allocInode hs hnext).bind (does_allocBlock_full hs hnextb).bind_error)
            (.of_used h (fun _ _ => rfl) fun _ _ => rfl)
      | some b =>
          obtain ⟨hb, hbfree⟩ := nextBlock_free hs hnextb
          have howned₄ := h.newDir (d := d) hs hino hb hbfree mode now
          rcases does_dirAdd latest ftDir name hs howned₄ (Set.mem_insert_of_mem _ hd) hino.ne_zero with
            ⟨e, hadd⟩ | ⟨s, V₅, hadd, -⟩
          · exact .error (does_newDir hs hnext hnextb hadd.bind_error)
              (.of_used h (fun j => inode_newDir hi) fun c => block_newDir hbfree)
          · have hdino := (h.inUse hd).1
            exact .ok (does_newDir hs hnext hnextb (hadd.bind
              ((does_inodeRead latest hs hdino).bind (does_inodeWrite hs hdino _))))

end Create

/-! ## The operations other than a write -/

section Ops
variable {v : Image} (hs : LayoutSound sb) (hroot : sb.rootIno = rootIno) (h : VolOk sb (vol sb v) live)
include hs hroot h

theorem conceals_pathLookup {f : UInt32 → TxnEM α} (parent : List UInt8)
    (hrest : ∀ d ∈ live, Does sb latest (pathLookup sb parent) (vol sb v) (.ok d) (vol sb v) →
      Conceals sb (f d) (vol sb v) live) :
    Conceals sb (pathLookup sb parent >>= f) (vol sb v) live := by
  rcases does_pathLookup latest hs h.owned h.named hroot parent with ⟨e, hpath⟩ | ⟨d, hd, hpath⟩
  · exact .error hpath.bind_error .refl
  · exact .bind hpath (hrest d hd hpath)

theorem conceals_opMkdir (path : List UInt8) (mode : UInt32) (now : UInt64) :
    Conceals sb (opMkdir sb path mode now) (vol sb v) live := by
  unfold opMkdir
  cases splitParent path with
  | error e => exact .error (.throw _) .refl
  | ok r =>
      obtain ⟨parent, name⟩ := r
      exact conceals_pathLookup hs hroot h parent fun d hd _ =>
        .withHandle (conceals_mkdir hs h.owned hd name mode now)

theorem conceals_opCreate (path : List UInt8) (mode : UInt32) (now : UInt64) :
    Conceals sb (opCreate sb path mode now) (vol sb v) live := by
  unfold opCreate
  cases splitParent path with
  | error e => exact .error (.throw _) .refl
  | ok r =>
      obtain ⟨parent, name⟩ := r
      exact conceals_pathLookup hs hroot h parent fun d hd _ =>
        .withHandle (conceals_create hs h.owned hd name mode now)

/-- Once the directory was found to be empty nothing can fail. -/
theorem conceals_opRmdir {path : List UInt8} (hname : FsOp.ProperName path) (now : UInt64) :
    Conceals sb (opRmdir sb path now) (vol sb v) live := by
  unfold opRmdir
  cases hsplit : splitParent path with
  | error e => exact .error (.throw _) .refl
  | ok r =>
      obtain ⟨parent, name⟩ := r
      refine conceals_pathLookup hs hroot h parent fun d hd _ => ?_
      rcases does_dirLookup latest hs h.owned hd name with
        ⟨e, hlook, -⟩ | ⟨s, l, hl, rfl, hlen, hlook⟩
      · exact .error hlook.bind_error .refl
      · refine .bind hlook ?_
        by_cases hty : l.fileType = ftDir
        · rw [if_neg (not_not_intro hty)]
          have hdir := isDir_of_ftDir h hd hl hty
          obtain ⟨b, hempty, -⟩ := does_dirIsEmpty latest hs h.owned (h.named.entry_mem hd hl) hdir
          refine .bind hempty ?_
          cases b with
          | false => exact .error (.throw _) .refl
          | true =>
              have hdot := isDot_of_proper (hname parent l.name hsplit)
              exact .withHandle (.ok (does_dropDir hs h hd hl hdot hlen now))
        · rw [if_pos hty]
          exact .error (.throw _) .refl

theorem conceals_opUnlink {path : List UInt8} (hproper : (FsOp.unlink path).Proper sb latest v) :
    Conceals sb (opUnlink sb path) (vol sb v) live := by
  obtain ⟨-, hfile⟩ := hproper
  unfold opUnlink
  cases hsplit : splitParent path with
  | error e => exact .error (.throw _) .refl
  | ok r =>
      obtain ⟨parent, name⟩ := r
      refine conceals_pathLookup hs hroot h parent fun d hd hpath => ?_
      rcases does_dirLookup latest hs h.owned hd name with
        ⟨e, hlook, -⟩ | ⟨s, l, hl, rfl, hlen, hlook⟩
      · exact .error hlook.bind_error .refl
      · have htouch := touches_unlink hsplit hpath hlook
        exact .bind hlook (.withHandle (.ok (does_dropFile hs h hd hl hlen (hfile _ htouch))))

omit hroot in
theorem conceals_truncateAt {i : UInt32} (hi : i ∈ live) (size : ℕ) (now : UInt64) :
    Conceals sb (truncateAt sb i size now) (vol sb v) live := by
  have hino := (h.owned.inUse hi).1
  refine .withHandle (.bind (does_inodeRead latest hs hino) ?_)
  unfold shrinkTo
  by_cases hlt : size < ((vol sb v).inode i).size.toNat
  · rw [if_pos hlt]
    exact .ok ((does_truncateBlocks hs fun k hk => (h.owned.placed hi hk).1).bind
      (does_inodeWrite hs hino _))
  · rw [if_neg hlt]
    exact .ok (Acts.bind (.pure _) (does_inodeWrite hs hino _))

theorem conceals_opTruncate {path : List UInt8} {fh : Option UInt32} {size : ℕ}
    (hproper : (FsOp.truncate path fh size).Proper sb latest v) (now : UInt64) :
    Conceals sb (opTruncate sb path fh size now) (vol sb v) live := by
  unfold opTruncate
  by_cases hbig : maxFileSize < size
  · rw [if_pos hbig]
    exact .error (.throw _) .refl
  · rw [if_neg hbig]
    cases fh with
    | some ino =>
        have hlive := (hproper ino rfl).1
        exact .bind (.pure ino) (conceals_truncateAt hs h (h.named.live_iff.mp hlive) size now)
    | none =>
        rcases does_pathLookup latest hs h.owned h.named hroot path with ⟨e, hpath⟩ | ⟨i, hi, hpath⟩
        · exact .error (Interaction.Acts.bind_error hpath) .refl
        · exact .bind hpath (conceals_truncateAt hs h hi size now)

end Ops

end Logfs
