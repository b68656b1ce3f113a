import Logfs.DirCalls
import Logfs.TreeEdits

/-!
# A new directory entry

`logfs_dir_add` on a volume: it fails and changes nothing, or fills one empty slot of the
directory, in a block the directory has or in a new one.
-/
namespace Logfs
open Interaction ByteBuffer NameTree

variable {sb : Super} {content : Block → Block → Block} {V V' : Vol} {live : Set UInt32} {d : UInt32}

/-! ## Stores into one block -/

section Store
variable {k : Fin ndirBlocks} {data : Block}

theorem entry_setBlock_self (hdir : isDir (V.inode d).mode = true) (hb : (V.inode d).blocks k ≠ 0)
    (e : Fin direntsPerBlock) :
    (V.setBlock ((V.inode d).blocks k) data).entry d (k, e) = (direntAt data e).link := by
  rw [entry_of_dir (by simpa using hdir) (by simpa using hb)]
  simp

theorem entry_setBlock_other (h : Owned sb V live) (hd : d ∈ live)
    {j : UInt32} (hj : j ∈ live) {t : Slot} (hne : ¬ (j = d ∧ t.1 = k)) :
    (V.setBlock ((V.inode d).blocks k) data).entry j t = V.entry j t := by
  unfold Vol.entry
  simp only [Vol.inode_setBlock, Vol.block_setBlock]
  by_cases hdir : isDir (V.inode j).mode = true ∧ (V.inode j).blocks t.1 ≠ 0
  · rw [if_pos hdir, if_pos hdir, if_neg]
    intro heq
    exact hne (h.apart hj hd heq hdir.2)
  · rw [if_neg hdir, if_neg hdir]

/-- A store into a directory block that leaves the other slots alone edits one entry. -/
theorem edit_setBlock (h : Owned sb V live) (hd : d ∈ live) (hdir : isDir (V.inode d).mode = true)
    (hb : (V.inode d).blocks k ≠ 0) {e : Fin direntsPerBlock} {new : Option Link}
    (hnew : (direntAt data e).link = new)
    (hrest : ∀ e' : Fin direntsPerBlock, e' ≠ e →
      direntAt data e' = direntAt (V.block ((V.inode d).blocks k)) e') :
    Edit V (V.setBlock ((V.inode d).blocks k) data) live d (k, e) new where
  slot := (entry_setBlock_self hdir hb e).trans hnew
  others := by
    rintro j hj ⟨k', e'⟩ hne
    by_cases hjk : j = d ∧ k' = k
    · obtain ⟨rfl, rfl⟩ := hjk
      have he : e' ≠ e := fun he => hne ⟨rfl, by rw [he]⟩
      rw [entry_setBlock_self hdir hb, hrest e' he, entry_of_dir hdir hb]
    · exact entry_setBlock_other h hd hj hjk
  mode := fun _ => rfl
  nlink := fun _ => rfl

end Store

/-! ## The new entry -/

/-- A new link in an empty slot of `d`; nothing else that is in use changes. -/
structure Added (V V' : Vol) (live : Set UInt32) (d : UInt32) (s : Slot) (l : Link) : Prop where
  edit : Edit V V' live d s (some l)
  empty : V.entry d s = none
  inodeUsed : V'.inodeUsed = V.inodeUsed
  blockUsed : ∀ b, V.blockUsed b = true → V'.blockUsed b = true
  inode : ∀ j, j ≠ d → V'.inode j = V.inode j
  kept : ∀ b, V.blockUsed b = true → (∀ k, (V.inode d).blocks k ≠ b) → V'.block b = V.block b

section Slots
variable {ino : UInt32} {ty : UInt8} {name : List UInt8} {ents : Block} {e : ℕ}

theorem link_of_empty {dirent : Dirent} (h : dirent.ino = 0) : dirent.link = none := by
  rw [Dirent.link, if_pos h]

theorem link_setDirent (he : e < direntsPerBlock) (hino : ino ≠ 0) (hname : name.length ≤ nameMax) :
    (direntAt (setDirent ents e ino ty name) e).link = some ⟨ino, ty, name⟩ := by
  rw [Dirent.link, direntAt_setDirent_ino _ _ _ he, if_neg hino,
    direntAt_setDirent_fileType _ _ _ he, direntAt_setDirent_text _ _ _ he hname]

theorem link_reuseDirent (he : e < direntsPerBlock) (hino : ino ≠ 0) (hname : name.length ≤ nameMax) :
    (direntAt (reuseDirent ents e ino ty name) e).link = some ⟨ino, ty, name⟩ :=
  link_setDirent he hino hname

/-- In a slot of a block the directory has. -/
theorem added_reuse (h : Owned sb V live) (hd : d ∈ live) (hdir : isDir (V.inode d).mode = true)
    (hino : ino ≠ 0) (hname : name.length ≤ nameMax) {k : Fin ndirBlocks}
    (hb : (V.inode d).blocks k ≠ 0) {e : Fin direntsPerBlock}
    (hfree : (direntAt (V.block ((V.inode d).blocks k)) e).ino = 0) :
    Added V (V.setBlock ((V.inode d).blocks k)
      (reuseDirent (V.block ((V.inode d).blocks k)) e ino ty name)) live d (k, e) ⟨ino, ty, name⟩ where
  edit := by
    apply edit_setBlock h hd hdir hb (link_reuseDirent e.isLt hino hname)
    intro e' hne
    exact direntAt_reuseDirent_of_ne _ _ _ hname fun he => hne (Fin.ext he)
  empty := by
    rw [entry_of_dir hdir hb]
    exact link_of_empty hfree
  inodeUsed := rfl
  blockUsed := fun _ hb => hb
  inode := fun _ _ => rfl
  kept := by
    intro b _ hne
    rw [Vol.block_setBlock, if_neg]
    exact fun he => hne k he.symm

/-- The volume after the directory's first new block, with the entry in its first slot. -/
def Vol.grow (V : Vol) (d : UInt32) (k : Fin ndirBlocks) (b : UInt64) (data : Block) : Vol :=
  ((V.markBlock b true).setBlock b data).setInode d
    { V.inode d with blocks := Function.update (V.inode d).blocks k b, size := (V.inode d).size + 4096 }

variable {k : Fin ndirBlocks} {b : UInt64} {data : Block}

/-- The new block goes to the first index without one, so the array stays without gaps. -/
theorem owned_grow (hs : RegionsSound sb) (h : Owned sb V live) (hd : d ∈ live)
    (hdir : isDir (V.inode d).mode = true) (hb : IsData sb b) (hfree : V.blockUsed b = false)
    (hzero : (V.inode d).blocks k = 0) (hfirst : ∀ l, l < k → (V.inode d).blocks l ≠ 0) :
    Owned sb (V.grow d k b data) live := by
  apply ((h.markBlock b).setBlock b data).setInode_live hd
  · exact ((h.mayOwn hd).add h hb hfree k).setBlock b data
  · have hold := h.shaped hd
    refine ⟨fun _ => ?_, fun hfile => ?_⟩
    · obtain ⟨n, hn, hsize, hall⟩ := hold.dir hdir
      -- the first zero is where the blocks end
      have hkn : k.val = n := by
        have hge : ¬ k.val < n := fun hlt => (hall k).mpr hlt hzero
        by_contra hne
        have hlt : n < k.val := by omega
        exact absurd ((hall ⟨n, by omega⟩).mp (hfirst ⟨n, by omega⟩ hlt)) (lt_irrefl n)
      have hk := k.isLt
      refine ⟨n + 1, by omega, ?_, ?_⟩
      · simp only [ndirBlocks, blockSize] at hn hk hsize ⊢
        rw [UInt64.toNat_add, hsize]
        simp
        omega
      · intro l
        change Function.update (V.inode d).blocks k b l ≠ 0 ↔ _
        rw [Function.update_apply]
        by_cases hl : l = k
        · rw [if_pos hl]
          refine ⟨fun _ => ?_, fun _ => hb.ne_zero hs⟩
          rw [hl]
          omega
        · have hlk : l.val ≠ k.val := fun he => hl (Fin.ext he)
          rw [if_neg hl, hall l]
          omega
    · rw [show isDir (V.inode d).mode = false from hfile] at hdir
      cases hdir

/-- In the first slot of a new block. -/
theorem added_grow (hs : RegionsSound sb) (h : Owned sb V live) (hd : d ∈ live)
    (hdir : isDir (V.inode d).mode = true) (hino : ino ≠ 0) (hname : name.length ≤ nameMax)
    (hb : IsData sb b) (hfree : V.blockUsed b = false) (hzero : (V.inode d).blocks k = 0) :
    Added V (V.grow d k b (setDirent zeroBlock 0 ino ty name)) live d (k, ⟨0, by decide⟩)
      ⟨ino, ty, name⟩ := by
  have hself : ((V.grow d k b (setDirent zeroBlock 0 ino ty name)).inode d).blocks k = b := by
    simp [Vol.grow]
  have hmode : ∀ j, ((V.grow d k b (setDirent zeroBlock 0 ino ty name)).inode j).mode =
      (V.inode j).mode := by
    intro j
    simp only [Vol.grow, Vol.inode_setInode]
    split
    · next he => rw [he]
    · rfl
  have hnew : ∀ e : Fin direntsPerBlock,
      (V.grow d k b (setDirent zeroBlock 0 ino ty name)).entry d (k, e) =
        (direntAt (setDirent zeroBlock 0 ino ty name) e).link := by
    intro e
    rw [entry_of_dir (by rw [hmode]; exact hdir) (by rw [hself]; exact hb.ne_zero hs)]
    rw [hself]
    simp [Vol.grow]
  refine ⟨⟨?_, ?_, hmode, ?_⟩, ?_, rfl, ?_, ?_, ?_⟩
  · rw [hnew]
    exact link_setDirent (by decide) hino hname
  · rintro j hj ⟨l, e⟩ hne
    by_cases hjd : j = d
    · subst hjd
      by_cases hl : l = k
      · subst hl
        have he : e.val ≠ 0 := fun he => hne ⟨rfl, by rw [show e = ⟨0, by decide⟩ from Fin.ext he]⟩
        rw [hnew, direntAt_setDirent_of_ne _ _ _ hname he,
          link_of_empty (direntAt_zeroBlock_ino e), Vol.entry, if_neg]
        rintro ⟨-, hne⟩
        exact hne hzero
      · unfold Vol.entry
        rw [hmode]
        simp only [Vol.grow, Vol.inode_setInode, if_true, Function.update_of_ne hl, Vol.block_setInode,
          Vol.block_setBlock]
        by_cases hold : isDir (V.inode j).mode = true ∧ (V.inode j).blocks l ≠ 0
        · rw [if_pos hold, if_pos hold, if_neg (h.ne_of_free hfree hj hold.2)]
          rfl
        · rw [if_neg hold, if_neg hold]
    · have hsame : (V.grow d k b (setDirent zeroBlock 0 ino ty name)).inode j = V.inode j := by
        simp [Vol.grow, hjd]
      refine congrFun (entry_congr (by rw [hsame]) (by rw [hsame]) ?_) (l, e)
      · intro _ m hm
        simp [Vol.grow, h.ne_of_free hfree hj hm]
  · intro j
    simp only [Vol.grow, Vol.inode_setInode]
    split
    · next he => rw [he]
    · rfl
  · rw [Vol.entry, if_neg]
    rintro ⟨-, hne⟩
    exact hne hzero
  · intro c hc
    simp only [Vol.grow, Vol.blockUsed_setInode, Vol.blockUsed_setBlock, Vol.blockUsed_markBlock, hc,
      ite_self]
  · intro j hj
    simp [Vol.grow, hj]
  · intro c hc _
    have hcb : c ≠ b := by
      rintro rfl
      rw [hc] at hfree
      cases hfree
    simp [Vol.grow, hcb]

end Slots

/-! ## The call -/

section Call
variable {ino : UInt32} {ty : UInt8} {name : List UInt8}

section Round
variable {dir : Inode} {k : Fin ndirBlocks} {ks : List (Fin ndirBlocks)} {b : UInt64} {e : ℕ}

theorem does_dirAddLoop_full (hs : RegionsSound sb) (hzero : dir.blocks k = 0) (hnext : V.nextBlock sb = none) :
    Does sb content (dirAddLoop sb d dir name ino ty (k :: ks)) V (.error .enospc) V := by
  unfold dirAddLoop
  rw [if_pos hzero]
  exact (does_allocBlock_full hs hnext).bind_error

theorem does_dirAddLoop_grow (hs : RegionsSound sb) (hd : IsIno sb d) (hdir : V.inode d = dir)
    (hzero : dir.blocks k = 0) (hnext : V.nextBlock sb = some b) :
    Does sb content (dirAddLoop sb d dir name ino ty (k :: ks)) V (.ok ())
      (V.grow d k b (setDirent zeroBlock 0 ino ty name)) := by
  have hb := (nextBlock_free hs hnext).1
  subst hdir
  unfold dirAddLoop
  rw [if_pos hzero]
  refine (does_allocBlock hs hnext).bind ?_
  refine (does_getWriteAccess hb).bind ?_
  refine (does_modify hb hs _).bind ?_
  refine (does_dirtyMetadata hb).bind ?_
  exact does_inodeWrite hs hd _

/-- A block without a free slot is passed over. -/
theorem does_dirAddLoop_next {r : Except Errno Unit} (hzero : dir.blocks k ≠ 0) (hb : IsData sb (dir.blocks k))
    (hfind : findInBlock (fun ent => ent.ino == 0) (V.block (dir.blocks k)) = none)
    (hrest : Does sb content (dirAddLoop sb d dir name ino ty ks) V r V') :
    Does sb content (dirAddLoop sb d dir name ino ty (k :: ks)) V r V' := by
  unfold dirAddLoop
  rw [if_neg hzero]
  refine (does_readBlock content hb).bind ?_
  simpa only [hfind] using hrest

theorem does_dirAddLoop_reuse (hs : RegionsSound sb) (hzero : dir.blocks k ≠ 0) (hb : IsData sb (dir.blocks k))
    (hfind : findInBlock (fun ent => ent.ino == 0) (V.block (dir.blocks k)) = some e) :
    Does sb content (dirAddLoop sb d dir name ino ty (k :: ks)) V (.ok ())
      (V.setBlock (dir.blocks k) (reuseDirent (V.block (dir.blocks k)) e ino ty name)) := by
  unfold dirAddLoop
  rw [if_neg hzero]
  refine (does_readBlock content hb).bind ?_
  simp only [hfind]
  exact (does_getWriteAccess hb).bind (does_stage hb hs _)

variable {blocks : Fin ndirBlocks → UInt64} (hahead : ∀ l, blocks l = 0 → l ∈ k :: ks)
include hahead

/-- Behind an index with a block the others are still ahead. -/
theorem ahead_next (hzero : blocks k ≠ 0) : ∀ l, blocks l = 0 → l ∈ ks := by
  intro l hl
  rcases List.mem_cons.mp (hahead l hl) with rfl | hmem
  · exact absurd hl hzero
  · exact hmem

/-- The head of the sorted indices is the first that may be without a block. -/
theorem ahead_first (hleast : ∀ l ∈ ks, k < l) : ∀ l, l < k → blocks l ≠ 0 := by
  intro l hlk hl
  rcases List.mem_cons.mp (hahead l hl) with rfl | hmem
  · exact lt_irrefl _ hlk
  · exact lt_asymm hlk (hleast l hmem)

end Round

variable (content ty) in
/-- The indices still to be tried include all those without a block, the least first. -/
theorem does_dirAddLoop (hs : RegionsSound sb) (h : Owned sb V live) (hd : d ∈ live)
    (hdir : isDir (V.inode d).mode = true) (hino : ino ≠ 0) (hname : name.length ≤ nameMax)
    {ks : List (Fin ndirBlocks)} (hsorted : ks.Pairwise (· < ·))
    (hahead : ∀ k, (V.inode d).blocks k = 0 → k ∈ ks) :
    (∃ err, Does sb content (dirAddLoop sb d (V.inode d) name ino ty ks) V (.error err) V) ∨
      ∃ s V', Does sb content (dirAddLoop sb d (V.inode d) name ino ty ks) V (.ok ()) V' ∧
        Added V V' live d s ⟨ino, ty, name⟩ ∧ Owned sb V' live := by
  induction ks with
  | nil => exact .inl ⟨_, .throw _⟩
  | cons k ks ih =>
      obtain ⟨hleast, hsorted⟩ := List.pairwise_cons.mp hsorted
      by_cases hzero : (V.inode d).blocks k = 0
      · cases hnext : V.nextBlock sb with
        | none => exact .inl ⟨_, does_dirAddLoop_full hs hzero hnext⟩
        | some b =>
            obtain ⟨hb, hfree⟩ := nextBlock_free hs hnext
            exact .inr ⟨_, _, does_dirAddLoop_grow hs (h.inUse hd).1 rfl hzero hnext,
              added_grow hs h hd hdir hino hname hb hfree hzero,
              owned_grow hs h hd hdir hb hfree hzero (ahead_first hahead hleast)⟩
      · have hb := (h.placed hd hzero).1
        cases hfind : findInBlock (fun ent => ent.ino == 0) (V.block ((V.inode d).blocks k)) with
        | none =>
            rcases ih hsorted (ahead_next hahead hzero) with ⟨err, hrest⟩ | ⟨s, V', hrest, hpost⟩
            · exact .inl ⟨err, does_dirAddLoop_next hzero hb hfind hrest⟩
            · exact .inr ⟨s, V', does_dirAddLoop_next hzero hb hfind hrest, hpost⟩
        | some e =>
            obtain ⟨he, hempty⟩ := findInBlock_some hfind
            exact .inr ⟨(k, ⟨e, he⟩), _, does_dirAddLoop_reuse hs hzero hb hfind,
              added_reuse h hd hdir hino hname hzero (e := ⟨e, he⟩) (by simpa using hempty), h.setBlock _ _⟩

variable (content ty name) in
theorem does_dirAdd (hs : RegionsSound sb) (h : Owned sb V live) (hd : d ∈ live) (hino : ino ≠ 0) :
    (∃ err, Does sb content (dirAdd sb d name ino ty) V (.error err) V) ∨
      ∃ s V', Does sb content (dirAdd sb d name ino ty) V (.ok ()) V' ∧
        Added V V' live d s ⟨ino, ty, name⟩ ∧ Owned sb V' live ∧
        ∀ t l, V.entry d t = some l → l.name ≠ name := by
  have hread := does_inodeRead content (V := V) hs (h.inUse hd).1
  cases hdir : isDir (V.inode d).mode with
  | false =>
      refine .inl ⟨.enotdir, hread.bind ?_⟩
      simp only [hdir, Bool.not_false, if_true]
      exact .throw _
  | true =>
      by_cases hname : name.length = 0 ∨ nameMax < name.length
      · refine .inl ⟨.enametoolong, hread.bind ?_⟩
        simp only [hdir, Bool.not_true, Bool.false_eq_true, if_false, if_pos hname]
        exact .throw _
      · have hle : name.length ≤ nameMax := by omega
        have hne : name ≠ [] := fun he => hname (.inl (by rw [he]; rfl))
        rcases does_dirLookup content hs h hd name with
          ⟨err, hlook, hfresh⟩ | ⟨s, l, -, -, -, hlook⟩
        · have hahead : ∀ k, (V.inode d).blocks k = 0 → k ∈ List.finRange ndirBlocks :=
            fun k _ => List.mem_finRange k
          rcases does_dirAddLoop content ty hs h hd hdir hino hle
              (List.pairwise_lt_finRange ndirBlocks) hahead with
            ⟨err, hloop⟩ | ⟨s, V', hloop, hadded, howned⟩
          · refine .inl ⟨err, hread.bind ?_⟩
            simp only [hdir, Bool.not_true, Bool.false_eq_true, if_false, if_neg hname]
            exact hlook.result.bind hloop
          · refine .inr ⟨s, V', hread.bind ?_, hadded, howned, hfresh hdir hne hle⟩
            simp only [hdir, Bool.not_true, Bool.false_eq_true, if_false, if_neg hname]
            exact hlook.result.bind hloop
        · refine .inl ⟨.eexist, hread.bind ?_⟩
          simp only [hdir, Bool.not_true, Bool.false_eq_true, if_false, if_neg hname]
          exact hlook.result.bind (.throw _)

end Call
end Logfs
