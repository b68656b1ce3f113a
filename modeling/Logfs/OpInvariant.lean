import Logfs.FileCalls

/-!
# The operations keep the invariant

Each of the six operations, whether it succeeds or fails on the way, leads from a volume in
order to a volume in order, and leaves the files it is not about alone.
-/
namespace Logfs
open Interaction ByteBuffer NameTree

structure VolOk (sb : Super) (V : Vol) (live : Set UInt32) : Prop where
  owned : Owned sb V live
  named : Named V live
  counted : Counted V live

/-- The files outside `touched` are live still, with the same inodes and contents. -/
def Kept (V V' : Vol) (live live' : Set UInt32) (touched : UInt32 → Prop) : Prop :=
  ∀ j ∈ live, isDir (V.inode j).mode = false → ¬ touched j → j ∈ live' ∧ V'.inode j = V.inode j ∧
    ∀ k, (V.inode j).blocks k ≠ 0 → V'.block ((V.inode j).blocks k) = V.block ((V.inode j).blocks k)

/-- The operation ends on a volume in order, with the files outside `touched` kept. -/
def Keeps (sb : Super) (content : Block → Block → Block) {α : Type} (op : TxnEM α) (V : Vol)
    (live : Set UInt32) (touched : UInt32 → Prop) : Prop :=
  ∃ r V' live', Does sb content op V r V' ∧ VolOk sb V' live' ∧ Kept V V' live live' touched

variable {sb : Super} {content : Block → Block → Block} {V V' : Vol} {live : Set UInt32}
  {touched : UInt32 → Prop} {α : Type}

theorem Kept.refl : Kept V V live live touched := fun _ hj _ _ => ⟨hj, rfl, fun _ _ => rfl⟩

/-- An operation that fails without a change. -/
theorem keeps_error {op : TxnEM α} {e : Errno} (h : VolOk sb V live)
    (hop : Does sb content op V (.error e) V) : Keeps sb content op V live touched :=
  ⟨_, V, live, hop, h, .refl⟩

theorem Keeps.withHandle {op : TxnEM α} (h : Keeps sb content op V live touched) :
    Keeps sb content op.withHandle V live touched := by
  obtain ⟨r, V', live', hdoes, hrest⟩ := h
  exact ⟨r, V', live', hdoes.withHandle, hrest⟩

/-- A first part that only reads. -/
theorem Keeps.bind {β : Type} {p : TxnEM β} {f : β → TxnEM α} {b : β}
    (hp : Does sb content p V (.ok b) V) (h : Keeps sb content (f b) V live touched) :
    Keeps sb content (p >>= f) V live touched := by
  obtain ⟨r, V', live', hdoes, hrest⟩ := h
  exact ⟨r, V', live', hp.bind hdoes, hrest⟩

theorem Keeps.then {β : Type} {op : TxnEM α} {f : α → β} (h : Keeps sb content op V live touched) :
    Keeps sb content (do let a ← op; return f a) V live touched := by
  obtain ⟨r, V', live', hdoes, hrest⟩ := h
  cases r with
  | ok a => exact ⟨_, V', live', hdoes.bind (.pure _), hrest⟩
  | error e => exact ⟨_, V', live', hdoes.bind_error, hrest⟩

theorem subdirs_le (d : UInt32) : V.subdirs d ≤ 768 := by
  refine (Finset.card_filter_le _ _).trans ?_
  rw [Finset.card_univ, Fintype.card_prod, Fintype.card_fin, Fintype.card_fin]
  decide

/-! ## Changes that do not show -/

section SetInode
variable {d : UInt32} {inode : Inode} (hmode : inode.mode = (V.inode d).mode)
include hmode

theorem mode_setInode (j : UInt32) : ((V.setInode d inode).inode j).mode = (V.inode j).mode := by
  rw [Vol.inode_setInode]
  split
  · next hjd => rw [hmode, hjd]
  · rfl

theorem entry_setInode (hblocks : inode.blocks = (V.inode d).blocks) (j : UInt32) :
    (V.setInode d inode).entry j = V.entry j := by
  refine entry_congr (mode_setInode hmode j) ?_ fun _ _ _ => rfl
  rw [Vol.inode_setInode]
  split
  · next hjd => rw [hblocks, hjd]
  · rfl

end SetInode

namespace VolOk

/-- Other inodes and blocks that are not in use may change. -/
theorem congr (h : VolOk sb V live) (howned : Owned sb V' live)
    (hinode : ∀ i ∈ live, V'.inode i = V.inode i)
    (hblock : ∀ b, V.blockUsed b = true → V'.block b = V.block b) : VolOk sb V' live := by
  have hentry : ∀ d ∈ live, V'.entry d = V.entry d := by
    intro d hd
    apply entry_congr (by rw [hinode d hd]) (by rw [hinode d hd])
    intro _ k hk
    exact hblock _ (h.owned.placed hd hk).2
  exact ⟨howned, h.named.congr hentry fun i hi => by rw [hinode i hi],
    h.counted.congr hentry (fun i hi => by rw [hinode i hi]) fun i hi => by rw [hinode i hi]⟩

end VolOk

theorem Kept.of_congr (hown : Owned sb V live) (hinode : ∀ i ∈ live, V'.inode i = V.inode i)
    (hblock : ∀ b, V.blockUsed b = true → V'.block b = V.block b) : Kept V V' live live touched :=
  fun j hj _ _ => ⟨hj, hinode j hj, fun _ hk => hblock _ (hown.placed hj hk).2⟩

theorem IsIno.ne_zero {i : UInt32} (hi : IsIno sb i) : i ≠ 0 := by
  rintro rfl
  exact absurd hi.1 (by decide)

theorem Owned.MayOwn.holes {i : UInt32} : Owned.MayOwn sb V live i fun _ => 0 :=
  ⟨fun _ h => absurd rfl h, fun _ _ _ h => absurd rfl h, fun _ _ _ _ _ h => absurd rfl h⟩

/-! ## Modes -/

theorem mode_bits (mode : UInt32) {kind : UInt32} (hkind : kind = modeDir ∨ kind = modeReg) :
    (kind ||| (mode &&& 0x1FF)) &&& 0xF000 = kind := by
  have hlow : (mode &&& 0x1FF) &&& 0xF000 = 0 := by
    rw [UInt32.and_assoc]
    exact UInt32.and_zero
  have hsplit : (kind ||| (mode &&& 0x1FF)) &&& 0xF000 = (kind &&& 0xF000) ||| ((mode &&& 0x1FF) &&& 0xF000) := by
    apply UInt32.toBitVec_inj.mp
    exact BitVec.and_or_distrib_right
  rw [hsplit, hlow]
  rcases hkind with rfl | rfl <;> rfl

theorem isDir_newDir (mode : UInt32) (now b : UInt64) : isDir (newDirInode mode now b).mode = true := by
  rw [isDir, newDirInode, mode_bits mode (.inl rfl)]
  rfl

theorem isDir_newFile (mode : UInt32) (now : UInt64) : isDir (newFileInode mode now).mode = false := by
  rw [isDir, newFileInode, mode_bits mode (.inr rfl)]
  rfl

theorem isReg_newFile (mode : UInt32) (now : UInt64) : isReg (newFileInode mode now).mode = true := by
  rw [isReg, newFileInode, mode_bits mode (.inr rfl)]
  rfl

theorem shaped_newFile (mode : UInt32) (now : UInt64) : Shaped (newFileInode mode now) where
  dir h := by
    rw [isDir_newFile] at h
    cases h
  file _ := ⟨isReg_newFile mode now, by simp [newFileInode], fun _ _ => rfl⟩

theorem shaped_newDir (mode : UInt32) (now : UInt64) {b : UInt64} (hb : b ≠ 0) :
    Shaped (newDirInode mode now b) where
  dir _ := by
    refine ⟨1, by decide, rfl, fun k => ?_⟩
    simp only [newDirInode]
    by_cases hk : k.val = 0
    · simp [hk, hb]
    · simp [hk]
  file h := by
    rw [isDir_newDir] at h
    cases h

/-! ## A new inode -/

section NewInode
variable {i d : UInt32} {inode : Inode} {s : Slot} {ty : UInt8} {name : List UInt8}

/-- A volume with one inode more than the directories know of, which `logfs_dir_add` then links. -/
theorem VolOk.link (h : VolOk sb V live) (hi : i ∉ live)
    (hd : d ∈ live) (hadded : Added V V' (insert i live) d s ⟨i, ty, name⟩)
    (hname : name ≠ dotName ∧ name ≠ dotDotName) (hty : ty = typeOf (V.inode i).mode)
    (hfresh : ∀ t l, V.entry d t = some l → l.name ≠ name) (hlone : Lone V i d) :
    Named V' (insert i live) ∧ (∀ j ∈ live, j ≠ d → V'.links j = V.links j) ∧
      V'.links d = V.links d + (if ty = ftDir then 1 else 0) ∧
      V'.links i = if isDir (V.inode i).mode then 2 else 1 := by
  have hdot : Link.isDot ⟨i, ty, name⟩ = false := by
    rw [Bool.eq_false_iff, ne_eq, isDot_iff, not_or]
    exact hname
  have hid : i ≠ d := by
    rintro rfl
    exact hi hd
  have hsame : ∀ j ∈ insert i live, j ≠ d → V'.entry j = V.entry j := by
    intro j hj hjd
    ext1 t
    exact hadded.edit.others j hj t fun hat => hjd hat.1
  refine ⟨h.named.link hd hi hadded.edit hadded.empty hdot hty hfresh hlone, ?_, ?_, ?_⟩
  · intro j hj hjd
    exact links_congr (hadded.edit.mode j) (hsame j (Set.mem_insert_of_mem _ hj) hjd)
  · have hdir := (entry_eq_some hadded.edit.slot).1
    have hdir' := hdir
    rw [hadded.edit.mode] at hdir'
    have hcount : V'.subdirs d + _ = V.subdirs d + _ := subdirs_edit (s := s) fun t hne =>
      hadded.edit.others d (Set.mem_insert_of_mem _ hd) t fun hat => hne hat.2
    rw [isSubdir_of_none hadded.empty, isSubdir_of_some hadded.edit.slot hdot] at hcount
    rw [links_of_dir hdir, links_of_dir hdir']
    simp only [Bool.false_eq_true, if_false, beq_iff_eq] at hcount
    omega
  · have hentry := hsame i (Set.mem_insert _ _) hid
    rw [links_congr (hadded.edit.mode i) hentry, Vol.links]
    split
    · rw [hlone.subdirs]
    · rfl

end NewInode

/-! ## A directory of its own -/

section Initial
variable {i d : UInt32} (hi : i ≠ 0) (hd : d ≠ 0)
include hi hd

theorem link_initialDirBlock : (direntAt (initialDirBlock i d) 0).link = some ⟨i, ftDir, dotName⟩ ∧
    (direntAt (initialDirBlock i d) 1).link = some ⟨d, ftDir, dotDotName⟩ ∧
    ∀ e, 1 < e → (direntAt (initialDirBlock i d) e).link = none := by
  refine ⟨?_, link_setDirent (by decide) hd (by decide), ?_⟩
  · rw [initialDirBlock, direntAt_setDirent_of_ne _ _ _ (by decide) (by decide)]
    exact link_setDirent (by decide) hi (by decide)
  · intro e he
    rw [initialDirBlock, direntAt_setDirent_of_ne _ _ _ (by decide) (by omega),
      direntAt_setDirent_of_ne _ _ _ (by decide) (by omega)]
    exact link_of_empty (direntAt_zeroBlock_ino e)

theorem lone_newDir {mode : UInt32} {now b : UInt64} (hb : b ≠ 0)
    (hinode : V.inode i = newDirInode mode now b) (hblock : V.block b = initialDirBlock i d) :
    Lone V i d := by
  obtain ⟨hzero, hone, hrest⟩ := link_initialDirBlock hi hd
  have hentry : ∀ s : Slot, V.entry i s =
      if s.1.val = 0 then (direntAt (initialDirBlock i d) s.2).link else none := by
    intro s
    unfold Vol.entry
    rw [hinode]
    by_cases hs : s.1.val = 0
    · rw [if_pos hs, if_pos ⟨isDir_newDir mode now b, by simpa [newDirInode, hs] using hb⟩]
      simp only [newDirInode, if_pos hs, hblock]
    · rw [if_neg hs, if_neg]
      rintro ⟨-, hne⟩
      simp [newDirInode, hs] at hne
  intro _
  refine ⟨(⟨0, by decide⟩, ⟨0, by decide⟩), (⟨0, by decide⟩, ⟨1, by decide⟩), ?_, ?_, ?_⟩
  · rw [hentry, if_pos rfl]
    exact hzero
  · rw [hentry, if_pos rfl]
    exact hone
  · rintro ⟨k, e⟩ h0 h1
    rw [hentry]
    split
    · next hk =>
        apply hrest
        have he0 : e.val ≠ 0 := fun he => h0 (Prod.ext (Fin.ext hk) (Fin.ext he))
        have he1 : e.val ≠ 1 := fun he => h1 (Prod.ext (Fin.ext hk) (Fin.ext he))
        change 1 < e.val
        omega
    · rfl

end Initial

/-! ## A directory's inode and block -/

/-- Number `i` and block `b` are taken for a directory below `d`, which no entry names yet. -/
def Vol.newDir (V : Vol) (d i : UInt32) (b : UInt64) (mode : UInt32) (now : UInt64) : Vol :=
  (((V.markInode i true).markBlock b true).setBlock b (initialDirBlock i d)).setInode i
    (newDirInode mode now b)

section NewDir
variable {d i : UInt32} {b : UInt64} {mode : UInt32} {now : UInt64}

theorem inode_newDir (hi : i ∉ live) {j : UInt32} (hj : j ∈ live) :
    (V.newDir d i b mode now).inode j = V.inode j := by
  have hji : j ≠ i := fun he => hi (he ▸ hj)
  simp [Vol.newDir, hji]

theorem block_newDir (hfree : (V.markInode i true).blockUsed b = false) {c : UInt64}
    (hc : V.blockUsed c = true) : (V.newDir d i b mode now).block c = V.block c := by
  have hcb : c ≠ b := by
    rintro rfl
    rw [Vol.blockUsed_markInode, hc] at hfree
    cases hfree
  simp [Vol.newDir, hcb]

theorem Owned.newDir (h : Owned sb V live) (hs : RegionsSound sb) (hino : IsIno sb i) (hb : IsData sb b)
    (hfree : (V.markInode i true).blockUsed b = false) (mode : UInt32) (now : UInt64) :
    Owned sb (V.newDir d i b mode now) (insert i live) := by
  have hblocks : (newDirInode mode now b).blocks = Function.update (fun _ => 0) ⟨0, by decide⟩ b := by
    ext1 k
    rw [Function.update_apply]
    simp only [newDirInode, Fin.ext_iff]
  have howned := h.markInode i
  refine ((howned.markBlock b).setBlock b _).setInode ⟨hino, by simp⟩ ?_
    (shaped_newDir mode now (hb.ne_zero hs))
  rw [hblocks]
  exact (Owned.MayOwn.holes.add howned hb hfree _).setBlock b _

/-- The part of `logfs_op_mkdir` before the new directory is given a name. -/
theorem does_newDir (hs : LayoutSound sb) (hnext : V.nextIno sb = some i)
    (hnextb : (V.markInode i true).nextBlock sb = some b) {rest : UInt32 → TxnEM α} {r : Except Errno α}
    (hrest : Does sb content (rest i) (V.newDir d i b mode now) r V') :
    Does sb content (do
      let newIno ← allocInode sb
      let dataBlock ← allocBlock sb
      let _ ← TxnEM.getWriteAccess dataBlock
      TxnEM.modify dataBlock (initialDirBlock newIno d)
      TxnEM.dirtyMetadata dataBlock
      inodeWrite sb newIno (newDirInode mode now dataBlock)
      rest newIno) V r V' := by
  have hb := (nextBlock_free hs hnextb).1
  refine (does_allocInode hs hnext).bind ((does_allocBlock hs hnextb).bind ?_)
  refine (does_getWriteAccess hb).bind ((does_modify hb hs _).bind ?_)
  exact (does_dirtyMetadata hb).bind ((does_inodeWrite hs (nextIno_free hs hnext).1 _).bind hrest)

end NewDir

/-! ## Creation -/

section Create
variable (hs : LayoutSound sb) (h : VolOk sb V live) {d : UInt32} (hd : d ∈ live) {name : List UInt8}
  (hname : name ≠ dotName ∧ name ≠ dotDotName)
include hs h hd hname

/-- A volume with a new inode in the table, whose entry is then made. -/
theorem keeps_create (mode : UInt32) (now : UInt64) :
    Keeps sb content (do
      let newIno ← allocInode sb
      inodeWrite sb newIno (newFileInode mode now)
      dirAdd sb d name newIno ftReg
      return newIno) V live touched := by
  cases hnext : V.nextIno sb with
  | none => exact keeps_error h (does_allocInode_full hs hnext).bind_error
  | some i =>
      obtain ⟨hino, hfree⟩ := nextIno_free hs hnext
      have hi := h.owned.not_mem_of_free hfree
      let V₂ := (V.markInode i true).setInode i (newFileInode mode now)
      have hwrite : Does sb content (inodeWrite sb i (newFileInode mode now)) (V.markInode i true)
          (.ok ()) V₂ := does_inodeWrite hs hino _
      have hsame : ∀ j ∈ live, V₂.inode j = V.inode j := by
        intro j hj
        have hji : j ≠ i := fun he => hi (he ▸ hj)
        simp [V₂, hji]
      have howned₂ : Owned sb V₂ (insert i live) :=
        (h.owned.markInode i).setInode ⟨hino, by simp⟩ Owned.MayOwn.holes (shaped_newFile mode now)
      have hok₂ : VolOk sb V₂ live :=
        h.congr (howned₂.subset (Set.subset_insert _ _)) hsame fun _ _ => rfl
      have hmode : V₂.inode i = newFileInode mode now := by simp [V₂]
      rcases does_dirAdd content ftReg name hs howned₂
          (Set.mem_insert_of_mem _ hd) hino.ne_zero with
        ⟨e, hadd⟩ | ⟨s, V', hadd, hadded, howned, hfresh⟩
      · exact ⟨_, V₂, live, (does_allocInode hs hnext).bind (hwrite.bind hadd.bind_error), hok₂,
          .of_congr h.owned hsame fun _ _ => rfl⟩
      · have hlone : Lone V₂ i d := by
          intro hdir
          rw [hmode, isDir_newFile] at hdir
          cases hdir
        obtain ⟨hnamed, hothers, hdlinks, hilinks⟩ := hok₂.link hi hd hadded hname
          (by rw [hmode, typeOf, isDir_newFile]; rfl) hfresh hlone
        rw [if_neg (by decide), Nat.add_zero] at hdlinks
        rw [hmode, isDir_newFile, if_neg Bool.false_ne_true] at hilinks
        refine ⟨_, V', insert i live, (does_allocInode hs hnext).bind (hwrite.bind (hadd.bind (.pure _))),
          ⟨howned, hnamed, ?_⟩, ?_⟩
        · intro j hj
          rw [hadded.edit.nlink]
          rcases Set.mem_insert_iff.mp hj with rfl | hj
          · rw [hilinks, hmode]
            rfl
          · rw [hok₂.counted j hj]
            by_cases hjd : j = d
            · rw [hjd, hdlinks]
            · rw [hothers j hj hjd]
        · intro j hj hfile _
          have hjd : j ≠ d := by
            rintro rfl
            have hdir := (entry_eq_some hadded.edit.slot).1
            rw [hadded.edit.mode, hsame j hj, hfile] at hdir
            cases hdir
          refine ⟨Set.mem_insert_of_mem _ hj, ?_, ?_⟩
          · rw [hadded.inode j hjd, hsame j hj]
          · intro k hk
            apply hadded.kept _ (h.owned.placed hj hk).2
            intro l heq
            rw [hsame d hd] at heq
            have hdl : (V.inode d).blocks l ≠ 0 := by rwa [heq]
            exact hjd (h.owned.apart hd hj heq hdl).1.symm

/-- The parent's link count is raised last. -/
theorem keeps_mkdir (mode : UInt32) (now : UInt64) :
    Keeps sb content (do
      let newIno ← allocInode sb
      let dataBlock ← allocBlock sb
      let _ ← TxnEM.getWriteAccess dataBlock
      TxnEM.modify dataBlock (initialDirBlock newIno d)
      TxnEM.dirtyMetadata dataBlock
      inodeWrite sb newIno (newDirInode mode now dataBlock)
      dirAdd sb d name newIno ftDir
      let pdir ← inodeRead sb d
      inodeWrite sb d { pdir with nlink := pdir.nlink + 1, mtime := now }) V live touched := by
  cases hnext : V.nextIno sb with
  | none => exact keeps_error h (does_allocInode_full hs hnext).bind_error
  | some i =>
      obtain ⟨hino, hfree⟩ := nextIno_free hs hnext
      have hi := h.owned.not_mem_of_free hfree
      cases hnextb : (V.markInode i true).nextBlock sb with
      | none =>
          exact ⟨_, V.markInode i true, live,
            (does_allocInode hs hnext).bind (does_allocBlock_full hs hnextb).bind_error,
            h.congr (h.owned.markInode i) (fun _ _ => rfl) fun _ _ => rfl,
            .of_congr h.owned (fun _ _ => rfl) fun _ _ => rfl⟩
      | some b =>
          obtain ⟨hb, hbfree⟩ := nextBlock_free hs hnextb
          let V₄ := V.newDir d i b mode now
          have hsame : ∀ j ∈ live, V₄.inode j = V.inode j := fun j => inode_newDir hi
          have hblock : ∀ c, V.blockUsed c = true → V₄.block c = V.block c := fun c => block_newDir hbfree
          have howned₄ : Owned sb V₄ (insert i live) := h.owned.newDir hs hino hb hbfree mode now
          have hok₄ : VolOk sb V₄ live :=
            h.congr (howned₄.subset (Set.subset_insert _ _)) hsame hblock
          have hmode : V₄.inode i = newDirInode mode now b := by simp [V₄, Vol.newDir]
          have hd₄ : d ∈ insert i live := Set.mem_insert_of_mem _ hd
          rcases does_dirAdd content ftDir name hs howned₄ hd₄
              hino.ne_zero with ⟨e, hadd⟩ | ⟨s, V₅, hadd, hadded, howned₅, hfresh⟩
          · exact ⟨_, V₄, live, does_newDir hs hnext hnextb hadd.bind_error, hok₄,
              .of_congr h.owned hsame hblock⟩
          · have hdino := (h.owned.inUse hd).1
            have hlone : Lone V₄ i d :=
              lone_newDir hino.ne_zero hdino.ne_zero (hb.ne_zero hs) hmode (by simp [V₄, Vol.newDir])
            obtain ⟨hnamed, hothers, hdlinks, hilinks⟩ := hok₄.link hi hd hadded hname
              (by rw [hmode, typeOf, isDir_newDir]; rfl) hfresh hlone
            rw [if_pos rfl] at hdlinks
            rw [hmode, isDir_newDir, if_pos rfl] at hilinks
            let pdir := V₅.inode d
            let V₆ := V₅.setInode d { pdir with nlink := pdir.nlink + 1, mtime := now }
            have hlast : Does sb content (do
                let pdir ← inodeRead sb d
                inodeWrite sb d { pdir with nlink := pdir.nlink + 1, mtime := now }) V₅ (.ok ()) V₆ :=
              (does_inodeRead content hs hdino).bind (does_inodeWrite hs hdino _)
            have hmode₆ : ∀ j, (V₆.inode j).mode = (V₅.inode j).mode := mode_setInode rfl
            have hentry₆ : ∀ j, V₆.entry j = V₅.entry j := entry_setInode rfl rfl
            have hdir := (entry_eq_some hadded.edit.slot).1
            rw [hadded.edit.mode, hsame d hd] at hdir
            refine ⟨_, V₆, insert i live, does_newDir hs hnext hnextb (hadd.bind hlast),
              ⟨howned₅.setInode_same hd₄ rfl rfl rfl, hnamed.congr (fun j _ => hentry₆ j) fun j _ => hmode₆ j,
                ?_⟩, ?_⟩
            · intro j hj
              rw [links_congr (hmode₆ j) (hentry₆ j)]
              by_cases hjd : j = d
              · have hold := h.counted d hd
                have hcard := subdirs_le (V := V) d
                rw [links_of_dir hdir] at hold
                have hlinks : V₄.links d = V.links d :=
                  links_congr (by rw [hsame d hd]) (entry_congr (by rw [hsame d hd]) (by rw [hsame d hd])
                    fun _ k hk => hblock _ (h.owned.placed hd hk).2)
                have hnlink : (V₆.inode d).nlink = (V.inode d).nlink + 1 := by
                  simp only [V₆, Vol.inode_setInode, if_true]
                  rw [hadded.edit.nlink, hsame d hd]
                rw [hjd, hdlinks, hlinks, hnlink, links_of_dir hdir, UInt32.toNat_add, hold]
                simp
                omega
              · have hkeep : V₆.inode j = V₅.inode j := by simp [V₆, hjd]
                rw [hkeep, hadded.edit.nlink]
                rcases Set.mem_insert_iff.mp hj with rfl | hj
                · rw [hilinks, hmode]
                  rfl
                · rw [hok₄.counted j hj, hothers j hj hjd]
            · intro j hj hfile _
              have hjd : j ≠ d := by
                rintro rfl
                rw [hfile] at hdir
                cases hdir
              refine ⟨Set.mem_insert_of_mem _ hj, ?_, ?_⟩
              · rw [show V₆.inode j = V₅.inode j by simp [V₆, hjd], hadded.inode j hjd, hsame j hj]
              · intro k hk
                have hused := (h.owned.placed hj hk).2
                rw [show V₆.block = V₅.block from rfl, hadded.kept _ ?_ ?_, hblock _ hused]
                · simp [V₄, Vol.newDir, hused]
                · intro l heq
                  rw [hsame d hd] at heq
                  have hdl : (V.inode d).blocks l ≠ 0 := by rwa [heq]
                  exact hjd (h.owned.apart hd hj heq hdl).1.symm

end Create
/-! ## Removal -/

section Remove
variable {d : UInt32} {s : Slot} {l : Link}

theorem VolOk.only (h : VolOk sb V live) (hd : d ∈ live) (hl : V.entry d s = some l) :
    ∀ t m, V.entry d t = some m → m.name = l.name → t = s :=
  fun _ _ hm hname => h.named.unique hd hm hl hname

/-- What the removal of an entry does to the counts. -/
theorem links_unlink (hd : d ∈ live) (hl : V.entry d s = some l) (hdot : l.isDot = false)
    (hedit : Edit V V' live d s none) : (∀ j ∈ live, j ≠ d → V'.links j = V.links j) ∧
      V'.links d + (if l.fileType = ftDir then 1 else 0) = V.links d := by
  have hdir := (entry_eq_some hl).1
  have hdir' := hdir
  rw [← hedit.mode] at hdir'
  constructor
  · intro j hj hjd
    refine links_congr (hedit.mode j) (funext fun t => ?_)
    exact hedit.others j hj t fun hat => hjd hat.1
  · have hcount : V'.subdirs d + _ = V.subdirs d + _ := subdirs_edit (s := s) fun t hne =>
      hedit.others d hd t fun hat => hne hat.2
    rw [isSubdir_of_none hedit.slot, isSubdir_of_some hl hdot] at hcount
    rw [links_of_dir hdir, links_of_dir hdir']
    simp only [Bool.false_eq_true, if_false, beq_iff_eq] at hcount
    omega

/-- The volume without the directory's entry in the slot. -/
def Vol.clearSlot (V : Vol) (d : UInt32) (s : Slot) : Vol :=
  V.setBlock ((V.inode d).blocks s.1) (store (V.block ((V.inode d).blocks s.1)) (64 * s.2.val) (0 : UInt32))

theorem edit_clearSlot (h : Owned sb V live) (hd : d ∈ live) (hl : V.entry d s = some l) :
    Edit V (V.clearSlot d s) live d s none := by
  obtain ⟨hdir, hne, -⟩ := entry_eq_some hl
  apply edit_setBlock h hd hdir hne (link_of_empty (direntAt_clear _ s.2.isLt))
  intro e' he
  exact direntAt_clear_of_ne _ fun heq => he (Fin.ext heq)

theorem kept_clearSlot (h : Owned sb V live) (hd : d ∈ live) (hl : V.entry d s = some l) {j : UInt32}
    (hj : j ∈ live) (hfile : isDir (V.inode j).mode = false) {k : Fin ndirBlocks}
    (hk : (V.inode j).blocks k ≠ 0) :
    (V.clearSlot d s).block ((V.inode j).blocks k) = V.block ((V.inode j).blocks k) := by
  rw [Vol.clearSlot, Vol.block_setBlock, if_neg]
  intro heq
  obtain rfl := (h.apart hj hd heq hk).1
  rw [(entry_eq_some hl).1] at hfile
  cases hfile

/-- The volume after the last link of file `i` was removed. -/
def Vol.dropFile (V : Vol) (d : UInt32) (s : Slot) (i : UInt32) : Vol :=
  ((V.clearSlot d s).freeAll ((V.inode i).tail 0)).markInode i false

/-- The volume after directory `i` was removed from `d`. -/
def Vol.dropDir (V : Vol) (d : UInt32) (s : Slot) (i : UInt32) (now : UInt64) : Vol :=
  let W := ((V.freeAll ((V.inode i).tail 0)).markInode i false).clearSlot d s
  W.setInode d { W.inode d with nlink := (W.inode d).nlink - 1, mtime := now }

variable (hs : RegionsSound sb) (h : VolOk sb V live) (hd : d ∈ live) (hl : V.entry d s = some l)
  (hdot : l.isDot = false) (hname : l.name.length ≤ nameMax)
include hs h hd hl hdot hname

omit hs hdot hname in
theorem nlink_of_file (hfile : isDir (V.inode l.ino).mode = false) : (V.inode l.ino).nlink - 1 = 0 := by
  have hlink := h.counted l.ino (h.named.entry_mem hd hl)
  rw [links_of_file hfile] at hlink
  have hone : (V.inode l.ino).nlink = 1 := UInt32.toNat_inj.mp hlink
  rw [hone]
  rfl

omit hdot in
theorem does_dropFile (hfile : isDir (V.inode l.ino).mode = false) :
    Does sb content (do
      let target ← inodeRead sb l.ino
      dirRemove sb d l.name
      if target.nlink - 1 = 0 then do
        let _ ← truncateBlocks sb { target with nlink := target.nlink - 1 } 0
        freeInode sb l.ino
      else inodeWrite sb l.ino { target with nlink := target.nlink - 1 }) V (.ok ())
      (V.dropFile d s l.ino) := by
  have hmem := h.named.entry_mem hd hl
  have hino := (h.owned.inUse hmem).1
  let target : Inode := { V.inode l.ino with nlink := (V.inode l.ino).nlink - 1 }
  have hremove : Does sb content (dirRemove sb d l.name) V (.ok ()) (V.clearSlot d s) :=
    does_dirRemove hs h.owned hd hl hname (h.only hd hl)
  have htail : Does sb content (truncateBlocks sb target 0) (V.clearSlot d s) (.ok (target.cut 0))
      ((V.clearSlot d s).freeAll (target.tail 0)) :=
    does_truncateBlocks hs fun k hk => (h.owned.placed hmem hk).1
  refine (does_inodeRead content hs hino).bind (hremove.bind ?_)
  rw [if_pos (nlink_of_file h hd hl hfile)]
  exact htail.bind (does_freeInode hs hino)

/-- The last link of a file is removed, so its blocks and its number are given up. -/
theorem keeps_unlink (hfile : isDir (V.inode l.ino).mode = false) (htouched : touched l.ino) :
    Keeps sb content (do
      let target ← inodeRead sb l.ino
      dirRemove sb d l.name
      if target.nlink - 1 = 0 then do
        let _ ← truncateBlocks sb { target with nlink := target.nlink - 1 } 0
        freeInode sb l.ino
      else inodeWrite sb l.ino { target with nlink := target.nlink - 1 }) V live touched := by
  have hmem := h.named.entry_mem hd hl
  let V₁ := V.clearSlot d s
  let V₃ := V.dropFile d s l.ino
  have hedit : Edit V V₁ live d s none := edit_clearSlot h.owned hd hl
  have howned : Owned sb V₃ (live \ {l.ino}) :=
    ((h.owned.setBlock _ _).freeTail hmem rfl).clearInode fun hin => hin.2 rfl
  have hnamed : Named V₁ (live \ {l.ino}) :=
    h.named.unlink hd hl hdot hedit fun t => child_none_of_entry (entry_none_of_file hfile t)
  obtain ⟨hothers, hlinks⟩ := links_unlink hd hl hdot hedit
  have hty : l.fileType ≠ ftDir := by
    rw [h.named.typed hd hl, typeOf, hfile]
    decide
  rw [if_neg hty, Nat.add_zero] at hlinks
  refine ⟨.ok (), V₃, live \ {l.ino}, does_dropFile hs h hd hl hname hfile,
    ⟨howned, hnamed.congr (fun _ _ => rfl) fun _ _ => rfl, ?_⟩, ?_⟩
  · intro j hj
    change (V.inode j).nlink.toNat = V₁.links j
    rw [h.counted j hj.1]
    by_cases hjd : j = d
    · rw [hjd, hlinks]
    · rw [hothers j hj.1 hjd]
  · intro j hj hjfile hjt
    refine ⟨⟨hj, ?_⟩, rfl, fun k hk => kept_clearSlot h.owned hd hl hj hjfile hk⟩
    rintro rfl
    exact hjt htouched

omit hs hname in
theorem ne_of_entry : d ≠ l.ino := by
  intro he
  have hself := child_of_entry hl hdot
  rw [← he] at hself
  exact h.named.tree.irrefl hd hself

theorem does_dropDir (now : UInt64) :
    Does sb content (do
      let target ← inodeRead sb l.ino
      let _ ← truncateBlocks sb target 0
      freeInode sb l.ino
      dirRemove sb d l.name
      let pdir ← inodeRead sb d
      inodeWrite sb d { pdir with nlink := pdir.nlink - 1, mtime := now }) V (.ok ())
      (V.dropDir d s l.ino now) := by
  have hmem := h.named.entry_mem hd hl
  have hino := (h.owned.inUse hmem).1
  have hdino := (h.owned.inUse hd).1
  let V₂ := (V.freeAll ((V.inode l.ino).tail 0)).markInode l.ino false
  have htail : Does sb content (truncateBlocks sb (V.inode l.ino) 0) V (.ok ((V.inode l.ino).cut 0))
      (V.freeAll ((V.inode l.ino).tail 0)) :=
    does_truncateBlocks hs fun k hk => (h.owned.placed hmem hk).1
  have howned₂ : Owned sb V₂ (live \ {l.ino}) :=
    (h.owned.freeTail hmem rfl).clearInode fun hin => hin.2 rfl
  have hremove : Does sb content (dirRemove sb d l.name) V₂ (.ok ()) (V₂.clearSlot d s) :=
    does_dirRemove hs howned₂ ⟨hd, ne_of_entry h hd hl hdot⟩ (V := V₂) hl hname (h.only hd hl)
  refine (does_inodeRead content hs hino).bind (htail.bind ?_)
  refine (does_freeInode hs hino).bind (hremove.bind ?_)
  exact (does_inodeRead content hs hdino).bind (does_inodeWrite hs hdino _)

/-- An empty directory gives up its blocks and its number, then its entry goes and the parent's
link count is lowered. -/
theorem keeps_rmdir (hdir : isDir (V.inode l.ino).mode = true)
    (hempty : ∀ t, V.child l.ino t = none) (now : UInt64) :
    Keeps sb content (do
      let target ← inodeRead sb l.ino
      let _ ← truncateBlocks sb target 0
      freeInode sb l.ino
      dirRemove sb d l.name
      let pdir ← inodeRead sb d
      inodeWrite sb d { pdir with nlink := pdir.nlink - 1, mtime := now }) V live touched := by
  have hmem := h.named.entry_mem hd hl
  have hdne : d ≠ l.ino := ne_of_entry h hd hl hdot
  let V₂ := (V.freeAll ((V.inode l.ino).tail 0)).markInode l.ino false
  have howned₂ : Owned sb V₂ (live \ {l.ino}) :=
    (h.owned.freeTail hmem rfl).clearInode fun hin => hin.2 rfl
  let V₃ := V₂.clearSlot d s
  let V₄ := V.dropDir d s l.ino now
  -- the entries do not depend on the bitmaps
  have hedit : Edit V V₃ live d s none := by
    have hclear := edit_clearSlot h.owned hd hl
    exact ⟨hclear.slot, hclear.others, hclear.mode, hclear.nlink⟩
  have hnamed : Named V₃ (live \ {l.ino}) := h.named.unlink hd hl hdot hedit hempty
  have hmode : ∀ j, (V₄.inode j).mode = (V₃.inode j).mode := mode_setInode rfl
  have hentry : ∀ j, V₄.entry j = V₃.entry j := entry_setInode rfl rfl
  obtain ⟨hothers, hlinks⟩ := links_unlink hd hl hdot hedit
  have hty : l.fileType = ftDir := by
    rw [h.named.typed hd hl, typeOf, if_pos hdir]
  rw [if_pos hty] at hlinks
  refine ⟨.ok (), V₄, live \ {l.ino}, does_dropDir hs h hd hl hdot hname now,
    ⟨?_, hnamed.congr (fun j _ => hentry j) fun j _ => hmode j, ?_⟩, ?_⟩
  · exact (howned₂.setBlock _ _).setInode_same ⟨hd, hdne⟩ rfl rfl rfl
  · intro j hj
    rw [links_congr (hmode j) (hentry j)]
    by_cases hjd : j = d
    · have hold := h.counted d hd
      have hnlink : (V₄.inode d).nlink = (V.inode d).nlink - 1 := by
        simp only [V₄, Vol.dropDir, Vol.inode_setInode, if_true]
        rfl
      have hpos : (1 : UInt32) ≤ (V.inode d).nlink := by
        rw [UInt32.le_iff_toNat_le, hold, ← hlinks]
        exact Nat.le_add_left _ _
      rw [hjd, hnlink, UInt32.toNat_sub_of_le _ _ hpos, hold, ← hlinks]
      exact Nat.add_sub_cancel _ _
    · have hkeep : V₄.inode j = V.inode j := by
        simp only [V₄, Vol.dropDir, Vol.inode_setInode, if_neg hjd]
        rfl
      rw [hkeep, h.counted j hj.1, hothers j hj.1 hjd]
  · intro j hj hjfile _
    have hjd : j ≠ d := by
      rintro rfl
      rw [(entry_eq_some hl).1] at hjfile
      cases hjfile
    refine ⟨⟨hj, ?_⟩, ?_, fun k hk => kept_clearSlot h.owned hd hl hj hjfile hk⟩
    · rintro rfl
      rw [hdir] at hjfile
      cases hjfile
    · simp only [V₄, Vol.dropDir, Vol.inode_setInode, if_neg hjd]
      rfl

end Remove
/-! ## Changes of one file -/

section File
variable {i : UInt32} (h : VolOk sb V live) (hi : i ∈ live) (hfile : isDir (V.inode i).mode = false)
include h hi hfile

/-- One file's blocks, size and contents may change. -/
theorem VolOk.changeFile (howned : Owned sb V' live) (hinode : ∀ j ∈ live, j ≠ i → V'.inode j = V.inode j)
    (hmode : (V'.inode i).mode = (V.inode i).mode) (hnlink : (V'.inode i).nlink = (V.inode i).nlink)
    (hkept : ∀ b, V.blockUsed b = true → (∀ k, (V.inode i).blocks k ≠ b) → V'.block b = V.block b)
    (htouched : touched i) : VolOk sb V' live ∧ Kept V V' live live touched := by
  have hblock : ∀ j ∈ live, j ≠ i → ∀ k, (V.inode j).blocks k ≠ 0 →
      V'.block ((V.inode j).blocks k) = V.block ((V.inode j).blocks k) := by
    intro j hj hji k hk
    apply hkept _ (h.owned.placed hj hk).2
    intro l heq
    exact hji (h.owned.apart hj hi heq.symm hk).1
  have hentry : ∀ d ∈ live, V'.entry d = V.entry d := by
    intro d hd
    by_cases hdi : d = i
    · subst hdi
      ext1 t
      rw [entry_none_of_file hfile, entry_none_of_file (by rw [hmode]; exact hfile)]
    · exact entry_congr (by rw [hinode d hd hdi]) (by rw [hinode d hd hdi]) fun _ => hblock d hd hdi
  have hmodes : ∀ j ∈ live, (V'.inode j).mode = (V.inode j).mode := by
    intro j hj
    by_cases hji : j = i
    · rw [hji, hmode]
    · rw [hinode j hj hji]
  have hnlinks : ∀ j ∈ live, (V'.inode j).nlink = (V.inode j).nlink := by
    intro j hj
    by_cases hji : j = i
    · rw [hji, hnlink]
    · rw [hinode j hj hji]
  refine ⟨⟨howned, h.named.congr hentry hmodes, h.counted.congr hentry hmodes hnlinks⟩, ?_⟩
  intro j hj _ hnot
  have hji : j ≠ i := by
    rintro rfl
    exact hnot htouched
  exact ⟨hj, hinode j hj hji, hblock j hj hji⟩

omit h hi hfile in
theorem toNat_ofNat_size {size : ℕ} (hsize : size ≤ maxFileSize) : (UInt64.ofNat size).toNat = size := by
  apply UInt64.toNat_ofNat_of_lt'
  simp only [maxFileSize, ndirBlocks, blockSize] at hsize
  change _ < 2 ^ 64
  omega

omit h in
/-- The file after its write got through is as long as the write reaches, if it was shorter. -/
theorem Writing.grown {inode : Inode} {last : ℕ} (hw : Writing sb V V' live i last inode) (hown : Owned sb V live)
    (hlast : last ≤ maxFileSize) (now : UInt64) :
    (grownSize inode last).toNat = max (V.inode i).size.toNat last ∧
      Owned sb (V'.setInode i { inode with size := grownSize inode last, mtime := now }) live := by
  obtain ⟨hreg, hmax, hbeyond⟩ := (hown.shaped hi).file hfile
  have hmode : inode.mode = (V.inode i).mode := by rw [hw.fields]
  have hsize : inode.size = (V.inode i).size := by rw [hw.fields]
  have hgrown : (grownSize inode last).toNat = max (V.inode i).size.toNat last := by
    rw [grownSize, hsize]
    split
    · rw [toNat_ofNat_size hlast]
      omega
    · omega
  refine ⟨hgrown, (hw.owned hown).setInode_live hi hw.own ⟨fun hdir => ?_, fun _ => ⟨?_, ?_, fun k hk => ?_⟩⟩⟩
  · change isDir inode.mode = true at hdir
    rw [hmode, hfile] at hdir
    cases hdir
  · change isReg inode.mode = true
    rwa [hmode]
  · change (grownSize inode last).toNat ≤ maxFileSize
    omega
  · change (grownSize inode last).toNat ≤ k.val * blockSize at hk
    change inode.blocks k = 0
    rcases hw.blocks k with heq | ⟨-, -, hlt⟩
    · rw [heq]
      exact hbeyond k (by omega)
    · omega

omit h hi hfile in
theorem roundUp_le {size k : ℕ} : (size + blockSize - 1) / blockSize ≤ k ↔ size ≤ k * blockSize := by
  rw [blockSize]
  omega

/-- The blocks a file keeps when it is truncated; one that grows keeps all. -/
def Inode.truncated (inode : Inode) (size : ℕ) : Inode :=
  if size < inode.size.toNat then inode.cut ((size + blockSize - 1) / blockSize) else inode

variable (content) in
omit h in
/-- A truncation changes no block's content. -/
theorem does_truncateAt (hs : RegionsSound sb) (hown : Owned sb V live) {size : ℕ} (hsize : size ≤ maxFileSize)
    (now : UInt64) : ∃ V', Does sb content (truncateAt sb i size now) V (.ok ()) V' ∧ Owned sb V' live ∧
      (∀ j, j ≠ i → V'.inode j = V.inode j) ∧ V'.block = V.block ∧
      V'.inode i = { (V.inode i).truncated size with size := UInt64.ofNat size, mtime := now } := by
  have hino := (hown.inUse hi).1
  obtain ⟨hreg, hmax, hbeyond⟩ := (hown.shaped hi).file hfile
  have hto := toNat_ofNat_size hsize
  have hshape : ∀ {inode : Inode}, inode.mode = (V.inode i).mode → inode.size = UInt64.ofNat size →
      (∀ k : Fin ndirBlocks, size ≤ k.val * blockSize → inode.blocks k = 0) → Shaped inode := by
    intro inode hmode hsz hzero
    refine ⟨fun hdir => ?_, fun _ => ⟨?_, ?_, fun k hk => ?_⟩⟩
    · rw [hmode, hfile] at hdir
      cases hdir
    · rw [hmode]
      exact hreg
    · rw [hsz, hto]
      exact hsize
    · rw [hsz, hto] at hk
      exact hzero k hk
  -- the volume after the blocks were given up, or not
  obtain ⟨V₁, hcut, howned, hinodes, hcontents⟩ : ∃ V₁,
      Does sb content (shrinkTo sb (V.inode i) size) V (.ok ((V.inode i).truncated size)) V₁ ∧
      Owned sb (V₁.setInode i { (V.inode i).truncated size with size := UInt64.ofNat size, mtime := now }) live ∧
      V₁.inode = V.inode ∧ V₁.block = V.block := by
    unfold shrinkTo Inode.truncated
    by_cases hlt : size < (V.inode i).size.toNat
    · rw [if_pos hlt, if_pos hlt]
      refine ⟨_, does_truncateBlocks hs fun k hk => (hown.placed hi hk).1,
        hown.cutFile hi rfl (hshape rfl rfl ?_), rfl, rfl⟩
      intro k hk
      exact if_pos (roundUp_le.mpr hk)
    · rw [if_neg hlt, if_neg hlt]
      refine ⟨V, .pure _, hown.setInode_live hi (hown.mayOwn hi) (hshape rfl rfl ?_), rfl, rfl⟩
      intro k hk
      exact hbeyond k (by omega)
  refine ⟨_, Does.withHandle (.bind (does_inodeRead content hs hino) (hcut.bind (does_inodeWrite hs hino _))),
    howned, ?_, ?_, ?_⟩
  · intro j hji
    rw [Vol.inode_setInode, if_neg hji, hinodes]
  · rw [Vol.block_setInode, hcontents]
  · rw [Vol.inode_setInode, if_pos rfl]

variable (hs : RegionsSound sb) (htouched : touched i)
include hs htouched

theorem keeps_opWrite (buf : List UInt8) (offset : ℕ) (now : UInt64) :
    Keeps sb content (opWrite sb i buf offset now) V live touched := by
  have hino := (h.owned.inUse hi).1
  unfold opWrite
  by_cases hbig : maxFileSize < offset + buf.length
  · rw [if_pos hbig]
    exact keeps_error h (.throw _)
  · rw [if_neg hbig]
    refine .withHandle (.bind (does_inodeRead content hs hino) ?_)
    rcases does_writeLoop content hs h.owned buf.length
        (h.owned.writing hi (offset + buf.length)) le_rfl (by omega) with
      ⟨V', inode, hloop, hw⟩ | ⟨V', inode, hloop, hw⟩
    · refine ⟨_, V', live, hloop.bind_error, h.changeFile hi hfile (hw.owned h.owned) ?_ ?_ ?_ hw.kept htouched⟩
      · exact fun j _ _ => by rw [hw.stored]
      · rw [hw.stored]
      · rw [hw.stored]
    · have howned := (hw.grown hi hfile h.owned (Nat.not_lt.mp hbig) now).2
      have hmode : inode.mode = (V.inode i).mode := by rw [hw.fields]
      have hnlink : inode.nlink = (V.inode i).nlink := by rw [hw.fields]
      refine ⟨_, _, live, hloop.bind ((does_inodeWrite hs hino _).bind (.pure _)),
        h.changeFile hi hfile howned ?_ ?_ ?_ ?_ htouched⟩
      · intro j _ hji
        simp only [Vol.inode_setInode, if_neg hji, hw.stored]
      · simp only [Vol.inode_setInode, if_true, hmode]
      · simp only [Vol.inode_setInode, if_true, hnlink]
      · exact hw.kept

theorem keeps_truncateAt {size : ℕ} (hsize : size ≤ maxFileSize) (now : UInt64) :
    Keeps sb content (truncateAt sb i size now) V live touched := by
  obtain ⟨V', hdoes, howned, hothers, hblock, hinode⟩ := does_truncateAt content hi hfile hs h.owned hsize now
  have hfields : ((V.inode i).truncated size).mode = (V.inode i).mode ∧
      ((V.inode i).truncated size).nlink = (V.inode i).nlink := by
    unfold Inode.truncated
    split <;> exact ⟨rfl, rfl⟩
  refine ⟨.ok (), V', live, hdoes, h.changeFile hi hfile howned (fun j _ hji => hothers j hji) ?_ ?_ ?_ htouched⟩
  · rw [hinode]
    exact hfields.1
  · rw [hinode]
    exact hfields.2
  · intro b _ _
    rw [hblock]

end File
end Logfs
