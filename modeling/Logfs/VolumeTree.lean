import Logfs.DirBlocks
import Logfs.VolumeCalls
import Logfs.Lib.NameTree

/-!
# Files and directories of a volume

The live inodes are those the directories lead to. Their blocks are theirs alone, the
directories' entries make a tree of them, and the link counts count its edges: three
invariants, the first of which does not depend on any entry.
-/
namespace Logfs
open NameTree

/-- An index of the block array and an entry of that block. -/
abbrev Slot := Fin ndirBlocks × Fin direntsPerBlock

/-- What an occupied slot says. -/
structure Link where
  ino : UInt32
  fileType : UInt8
  name : List UInt8
  deriving DecidableEq

def Link.isDot (l : Link) : Bool := l.name == dotName || l.name == dotDotName

def Dirent.link (d : Dirent) : Option Link :=
  if d.ino = 0 then none else some ⟨d.ino, d.fileType, d.text⟩

namespace Vol

/-- The directory's entry in the slot. -/
def entry (V : Vol) (d : UInt32) (s : Slot) : Option Link :=
  if isDir (V.inode d).mode ∧ (V.inode d).blocks s.1 ≠ 0 then
    (direntAt (V.block ((V.inode d).blocks s.1)) s.2).link
  else none

/-- The inode an entry other than `.` and `..` names. -/
def child (V : Vol) (d : UInt32) (s : Slot) : Option UInt32 :=
  (V.entry d s).bind fun l => if l.isDot then none else some l.ino

/-- The slot names a subdirectory. -/
def isSubdir (V : Vol) (d : UInt32) (s : Slot) : Bool :=
  (V.entry d s).any fun l => !l.isDot && l.fileType == ftDir

def subdirs (V : Vol) (d : UInt32) : ℕ := (Finset.univ.filter fun s => V.isSubdir d s).card

/-- The link count an inode ought to have. -/
def links (V : Vol) (i : UInt32) : ℕ := if isDir (V.inode i).mode then 2 + V.subdirs i else 1

end Vol

/-- The root and every inode an entry of a live directory names. -/
inductive Live (V : Vol) : UInt32 → Prop
  | root : Live V rootIno
  | entry {d : UInt32} {s : Slot} {l : Link} (dir : Live V d) (names : V.entry d s = some l) :
      Live V l.ino

/-- The file type of an inode's mode. -/
def typeOf (mode : UInt32) : UInt8 := if isDir mode then ftDir else ftReg

/-- A directory's blocks are as many as its size says, from the first index on; a file has none
beyond its size. -/
structure Shaped (inode : Inode) : Prop where
  dir : isDir inode.mode = true → ∃ n, n ≤ ndirBlocks ∧ inode.size.toNat = blockSize * n ∧
    ∀ k, inode.blocks k ≠ 0 ↔ k.val < n
  file : isDir inode.mode = false → isReg inode.mode = true ∧ inode.size.toNat ≤ maxFileSize ∧
    ∀ k : Fin ndirBlocks, inode.size.toNat ≤ k.val * blockSize → inode.blocks k = 0

structure Owned (sb : Super) (V : Vol) (live : Set UInt32) : Prop where
  inUse : ∀ {i}, i ∈ live → IsIno sb i ∧ V.inodeUsed i = true
  placed : ∀ {i k}, i ∈ live → (V.inode i).blocks k ≠ 0 →
    IsData sb ((V.inode i).blocks k) ∧ V.blockUsed ((V.inode i).blocks k) = true
  apart : ∀ {i j k l}, i ∈ live → j ∈ live → (V.inode i).blocks k = (V.inode j).blocks l →
    (V.inode i).blocks k ≠ 0 → i = j ∧ k = l
  shaped : ∀ {i}, i ∈ live → Shaped (V.inode i)

structure Named (V : Vol) (live : Set UInt32) : Prop where
  tree : Rooted rootIno live V.child
  rootDir : isDir (V.inode rootIno).mode = true
  typed : ∀ {d s l}, d ∈ live → V.entry d s = some l → l.fileType = typeOf (V.inode l.ino).mode
  unique : ∀ {d s t l m}, d ∈ live → V.entry d s = some l → V.entry d t = some m → l.name = m.name → s = t
  dot : ∀ {d}, d ∈ live → isDir (V.inode d).mode = true → ∃ s, V.entry d s = some ⟨d, ftDir, dotName⟩
  dotDot : ∀ {d}, d ∈ live → isDir (V.inode d).mode = true → ∃ s p,
    V.entry d s = some ⟨p, ftDir, dotDotName⟩ ∧
      (d = rootIno ∧ p = rootIno ∨ d ≠ rootIno ∧ p ∈ live ∧ Holds V.child p d)

def Counted (V : Vol) (live : Set UInt32) : Prop := ∀ i ∈ live, (V.inode i).nlink.toNat = V.links i

/-! ## Entries -/

section Entries
variable {V V' : Vol} {d : UInt32} {s : Slot} {l : Link}

theorem entry_eq_some (h : V.entry d s = some l) :
    isDir (V.inode d).mode = true ∧ (V.inode d).blocks s.1 ≠ 0 ∧
      (direntAt (V.block ((V.inode d).blocks s.1)) s.2).link = some l := by
  unfold Vol.entry at h
  split_ifs at h with hdir
  exact ⟨hdir.1, hdir.2, h⟩

theorem entry_of_dir (hdir : isDir (V.inode d).mode = true) (hb : (V.inode d).blocks s.1 ≠ 0) :
    V.entry d s = (direntAt (V.block ((V.inode d).blocks s.1)) s.2).link := by
  rw [Vol.entry, if_pos ⟨hdir, hb⟩]

/-- The inode's mode and the blocks it names are all an entry depends on. -/
theorem entry_congr (hmode : (V'.inode d).mode = (V.inode d).mode)
    (hblocks : (V'.inode d).blocks = (V.inode d).blocks)
    (hblock : isDir (V.inode d).mode = true → ∀ k, (V.inode d).blocks k ≠ 0 →
      V'.block ((V.inode d).blocks k) = V.block ((V.inode d).blocks k)) : V'.entry d = V.entry d := by
  ext1 s
  unfold Vol.entry
  rw [hmode, hblocks]
  by_cases hdir : isDir (V.inode d).mode = true ∧ (V.inode d).blocks s.1 ≠ 0
  · rw [if_pos hdir, if_pos hdir, hblock hdir.1 _ hdir.2]
  · rw [if_neg hdir, if_neg hdir]

theorem child_eq_some {c : UInt32} (h : V.child d s = some c) :
    ∃ l, V.entry d s = some l ∧ l.isDot = false ∧ l.ino = c := by
  obtain ⟨l, hl, hc⟩ := Option.bind_eq_some_iff.mp h
  split_ifs at hc with hdot
  exact ⟨l, hl, by simpa using hdot, Option.some.inj hc⟩

theorem child_of_entry (h : V.entry d s = some l) (hdot : l.isDot = false) :
    V.child d s = some l.ino := by
  simp [Vol.child, h, hdot]

theorem child_congr (h : V'.entry d = V.entry d) : V'.child d = V.child d := by
  ext1 s
  rw [Vol.child, Vol.child, h]

theorem links_congr {i : UInt32} (hmode : (V'.inode i).mode = (V.inode i).mode)
    (h : V'.entry i = V.entry i) : V'.links i = V.links i := by
  have hsub : V'.isSubdir i = V.isSubdir i := by
    ext1 s
    rw [Vol.isSubdir, Vol.isSubdir, h]
  rw [Vol.links, Vol.links, Vol.subdirs, Vol.subdirs, hsub, hmode]

end Entries

/-! ## The live inodes -/

section LiveSet
variable {V V' : Vol} {live : Set UInt32} {d : UInt32} {s : Slot} {l : Link}

theorem isDot_iff : l.isDot = true ↔ l.name = dotName ∨ l.name = dotDotName := by
  simp [Link.isDot]

namespace Named

theorem entry_mem (h : Named V live) (hd : d ∈ live) (hl : V.entry d s = some l) : l.ino ∈ live := by
  cases hdot : l.isDot with
  | false => exact h.tree.closed hd (child_of_entry hl hdot)
  | true =>
      have hdir := (entry_eq_some hl).1
      rcases isDot_iff.mp hdot with hname | hname
      · obtain ⟨t, ht⟩ := h.dot hd hdir
        obtain rfl := h.unique hd hl ht hname
        rw [ht] at hl
        cases hl
        exact hd
      · obtain ⟨t, p, ht, hp⟩ := h.dotDot hd hdir
        obtain rfl := h.unique hd hl ht hname
        rw [ht] at hl
        cases hl
        rcases hp with ⟨-, rfl⟩ | ⟨-, hp, -⟩
        · exact h.tree.root_mem
        · exact hp

/-- The invariant determines the live inodes. -/
theorem live_iff (h : Named V live) {i : UInt32} : Live V i ↔ i ∈ live := by
  constructor
  · intro hi
    induction hi with
    | root => exact h.tree.root_mem
    | entry _ hl ih => exact h.entry_mem ih hl
  · intro hi
    have hpath := h.tree.reached hi
    induction hpath with
    | refl => exact .root
    | tail hbefore hlast ih =>
        obtain ⟨t, ht⟩ := hlast
        obtain ⟨m, hm, -, rfl⟩ := child_eq_some ht
        exact .entry (ih (h.tree.mem_of_reached hbefore)) hm

/-- Entries and modes are all the invariant depends on. -/
theorem congr (h : Named V live) (hentry : ∀ d ∈ live, V'.entry d = V.entry d)
    (hmode : ∀ i ∈ live, (V'.inode i).mode = (V.inode i).mode) : Named V' live where
  tree := h.tree.congr fun d hd => child_congr (hentry d hd)
  rootDir := by
    rw [hmode _ h.tree.root_mem]
    exact h.rootDir
  typed := by
    intro d s l hd hl
    rw [hentry d hd] at hl
    rw [hmode _ (h.entry_mem hd hl)]
    exact h.typed hd hl
  unique := by
    intro d s t l m hd hl hm
    rw [hentry d hd] at hl hm
    exact h.unique hd hl hm
  dot := by
    intro d hd hdir
    rw [hmode d hd] at hdir
    rw [hentry d hd]
    exact h.dot hd hdir
  dotDot := by
    intro d hd hdir
    rw [hmode d hd] at hdir
    rw [hentry d hd]
    obtain ⟨s, p, hs, hp⟩ := h.dotDot hd hdir
    refine ⟨s, p, hs, hp.imp_right ?_⟩
    rintro ⟨hne, hpl, hheld⟩
    rw [Holds, child_congr (hentry p hpl)]
    exact ⟨hne, hpl, hheld⟩

end Named

theorem Counted.congr (h : Counted V live) (hentry : ∀ d ∈ live, V'.entry d = V.entry d)
    (hmode : ∀ i ∈ live, (V'.inode i).mode = (V.inode i).mode)
    (hlink : ∀ i ∈ live, (V'.inode i).nlink = (V.inode i).nlink) : Counted V' live := by
  intro i hi
  rw [hlink i hi, links_congr (hmode i hi) (hentry i hi)]
  exact h i hi

end LiveSet

/-! ## Ownership -/

namespace Owned
variable {sb : Super} {V V' : Vol} {live live' : Set UInt32}

theorem subset (h : Owned sb V live) (hsub : live' ⊆ live) : Owned sb V live' where
  inUse hi := h.inUse (hsub hi)
  placed hi := h.placed (hsub hi)
  apart hi hj := h.apart (hsub hi) (hsub hj)
  shaped hi := h.shaped (hsub hi)

/-- More numbers may be in use. -/
theorem congr (h : Owned sb V live) (hinode : ∀ i ∈ live, V'.inode i = V.inode i)
    (hi : ∀ i ∈ live, V'.inodeUsed i = true)
    (hb : ∀ i ∈ live, ∀ k, (V.inode i).blocks k ≠ 0 → V'.blockUsed ((V.inode i).blocks k) = true) :
    Owned sb V' live where
  inUse hmem := ⟨(h.inUse hmem).1, hi _ hmem⟩
  placed := by
    intro i k hmem hne
    rw [hinode i hmem] at hne ⊢
    exact ⟨(h.placed hmem hne).1, hb i hmem k hne⟩
  apart := by
    intro i j k l hmem hmem' heq hne
    rw [hinode i hmem] at heq hne
    rw [hinode j hmem'] at heq
    exact h.apart hmem hmem' heq hne
  shaped := by
    intro i hmem
    rw [hinode i hmem]
    exact h.shaped hmem

theorem markInode (h : Owned sb V live) (i : UInt32) : Owned sb (V.markInode i true) live := by
  refine h.congr (fun _ _ => rfl) ?_ fun i hi k hne => (h.placed hi hne).2
  intro j hj
  rw [Vol.inodeUsed_markInode]
  split
  · rfl
  · exact (h.inUse hj).2

theorem markBlock (h : Owned sb V live) (b : UInt64) : Owned sb (V.markBlock b true) live := by
  refine h.congr (fun _ _ => rfl) (fun i hi => (h.inUse hi).2) ?_
  intro i hi k hne
  rw [Vol.blockUsed_markBlock]
  split
  · rfl
  · exact (h.placed hi hne).2

theorem setBlock (h : Owned sb V live) (b : UInt64) (data : Block) : Owned sb (V.setBlock b data) live :=
  h.congr (fun _ _ => rfl) (fun _ hi => (h.inUse hi).2) fun _ hi _ hne => (h.placed hi hne).2

/-- The blocks one inode may be given. -/
structure MayOwn (sb : Super) (V : Vol) (live : Set UInt32) (i : UInt32)
    (blocks : Fin ndirBlocks → UInt64) : Prop where
  placed : ∀ k, blocks k ≠ 0 → IsData sb (blocks k) ∧ V.blockUsed (blocks k) = true
  apart : ∀ k l, blocks k = blocks l → blocks k ≠ 0 → k = l
  others : ∀ j ∈ live, j ≠ i → ∀ k l, blocks k ≠ 0 → (V.inode j).blocks l ≠ blocks k

theorem setInode (h : Owned sb V live) {i : UInt32} {inode : Inode}
    (hin : IsIno sb i ∧ V.inodeUsed i = true) (hown : MayOwn sb V live i inode.blocks)
    (hshape : Shaped inode) : Owned sb (V.setInode i inode) (insert i live) where
  inUse := by
    intro j hj
    by_cases hji : j = i
    · subst hji
      exact hin
    · exact h.inUse (Set.mem_of_mem_insert_of_ne hj hji)
  placed := by
    intro j k hj hne
    rw [Vol.inode_setInode] at hne ⊢
    by_cases hji : j = i
    · rw [if_pos hji] at hne ⊢
      exact hown.placed k hne
    · rw [if_neg hji] at hne ⊢
      exact h.placed (Set.mem_of_mem_insert_of_ne hj hji) hne
  apart := by
    intro j j' k l hj hj' heq hne
    rw [Vol.inode_setInode] at heq hne
    rw [Vol.inode_setInode] at heq
    by_cases hji : j = i
    · rw [if_pos hji] at heq hne
      by_cases hji' : j' = i
      · rw [if_pos hji'] at heq
        exact ⟨hji.trans hji'.symm, hown.apart k l heq hne⟩
      · rw [if_neg hji'] at heq
        exact absurd heq.symm (hown.others j' (Set.mem_of_mem_insert_of_ne hj' hji') hji' k l hne)
    · rw [if_neg hji] at heq hne
      by_cases hji' : j' = i
      · rw [if_pos hji'] at heq
        rw [heq] at hne
        exact absurd heq (hown.others j (Set.mem_of_mem_insert_of_ne hj hji) hji l k hne)
      · rw [if_neg hji'] at heq
        exact h.apart (Set.mem_of_mem_insert_of_ne hj hji) (Set.mem_of_mem_insert_of_ne hj' hji') heq hne
  shaped := by
    intro j hj
    rw [Vol.inode_setInode]
    by_cases hji : j = i
    · rw [if_pos hji]
      exact hshape
    · rw [if_neg hji]
      exact h.shaped (Set.mem_of_mem_insert_of_ne hj hji)

/-- The same for an inode that is live already. -/
theorem setInode_live (h : Owned sb V live) {i : UInt32} {inode : Inode} (hi : i ∈ live)
    (hown : MayOwn sb V live i inode.blocks) (hshape : Shaped inode) :
    Owned sb (V.setInode i inode) live := by
  have hset := h.setInode (h.inUse hi) hown hshape
  rwa [Set.insert_eq_of_mem hi] at hset

theorem mayOwn (h : Owned sb V live) {i : UInt32} (hi : i ∈ live) :
    MayOwn sb V live i (V.inode i).blocks where
  placed _ := h.placed hi
  apart _ _ heq hne := (h.apart hi hi heq hne).2
  others _ hj hji _ _ hne heq := hji (h.apart hi hj heq.symm hne).1.symm

/-- A change of an inode's times, owner or link count. -/
theorem setInode_same (h : Owned sb V live) {i : UInt32} {inode : Inode} (hi : i ∈ live)
    (hmode : inode.mode = (V.inode i).mode) (hsize : inode.size = (V.inode i).size)
    (hblocks : inode.blocks = (V.inode i).blocks) : Owned sb (V.setInode i inode) live := by
  apply h.setInode_live hi
  · rw [hblocks]
    exact h.mayOwn hi
  · have hold := h.shaped hi
    exact ⟨by rw [hmode, hsize, hblocks]; exact hold.dir, by rw [hmode, hsize, hblocks]; exact hold.file⟩

/-- A block that is not in use belongs to no inode. -/
theorem ne_of_free (h : Owned sb V live) {b : UInt64} (hfree : V.blockUsed b = false) {i : UInt32}
    (hi : i ∈ live) {k : Fin ndirBlocks} (hne : (V.inode i).blocks k ≠ 0) :
    (V.inode i).blocks k ≠ b := by
  rintro rfl
  rw [(h.placed hi hne).2] at hfree
  cases hfree

theorem MayOwn.setBlock {i : UInt32} {blocks : Fin ndirBlocks → UInt64}
    (hown : MayOwn sb V live i blocks) (b : UInt64) (data : Block) :
    MayOwn sb (V.setBlock b data) live i blocks :=
  ⟨hown.placed, hown.apart, hown.others⟩

/-- One more block, taken into use for the inode. -/
theorem MayOwn.add {i : UInt32} {blocks : Fin ndirBlocks → UInt64} (hown : MayOwn sb V live i blocks)
    (h : Owned sb V live) {b : UInt64} (hb : IsData sb b) (hfree : V.blockUsed b = false)
    (k : Fin ndirBlocks) : MayOwn sb (V.markBlock b true) live i (Function.update blocks k b) := by
  have hne : ∀ l, blocks l ≠ 0 → blocks l ≠ b := by
    rintro l hl rfl
    rw [(hown.placed l hl).2] at hfree
    cases hfree
  refine ⟨?_, ?_, ?_⟩
  · intro l hl
    rw [Function.update_apply] at hl ⊢
    rw [Vol.blockUsed_markBlock]
    by_cases hlk : l = k
    · rw [if_pos hlk, if_pos rfl]
      exact ⟨hb, rfl⟩
    · rw [if_neg hlk] at hl ⊢
      rw [if_neg (hne l hl)]
      exact hown.placed l hl
  · intro l m heq hl
    rw [Function.update_apply] at heq hl
    rw [Function.update_apply] at heq
    split_ifs at heq hl with hlk hmk hmk
    · rw [hlk, hmk]
    · rw [heq] at hl
      exact absurd heq.symm (hne m hl)
    · exact absurd heq (hne l hl)
    · exact hown.apart l m heq hl
  · intro j hj hji l m hl
    rw [Function.update_apply] at hl ⊢
    split_ifs at hl ⊢ with hlk
    · intro heq
      have hjm : (V.inode j).blocks m ≠ 0 := by
        intro hz
        rw [← heq] at hl
        exact hl hz
      exact h.ne_of_free hfree hj hjm heq
    · exact hown.others j hj hji l m hl

theorem not_mem_of_free (h : Owned sb V live) {i : UInt32} (hfree : V.inodeUsed i = false) : i ∉ live := by
  intro hi
  rw [(h.inUse hi).2] at hfree
  cases hfree

end Owned

/-- Block 0 is not a data block. -/
theorem IsData.ne_zero {sb : Super} (hs : RegionsSound sb) {b : UInt64} (hb : IsData sb b) : b ≠ 0 := by
  rintro rfl
  have hle := UInt64.le_iff_toNat_le.mp hb.1
  have hreg := hs.regions
  simp at hle
  omega

end Logfs
