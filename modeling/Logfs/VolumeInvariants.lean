import Logfs.FormattedVolume

/-!
# Ownership and namespace of a mounted volume

What every sequence of operations on a freshly formatted and mounted image keeps true of the
blocks the live inodes own and of the tree their names make.
-/
namespace Logfs
open Interaction WriteCache ByteBuffer NameTree Transition

/-- The blocks and numbers of live inodes, as the bitmaps of the image have them. -/
structure BlocksOwned (sb : Super) (v : Image) : Prop where
  apart : ∀ {i j k l}, Live (vol sb v) i → Live (vol sb v) j →
    ((vol sb v).inode i).blocks k = ((vol sb v).inode j).blocks l →
    ((vol sb v).inode i).blocks k ≠ 0 → i = j ∧ k = l
  placed : ∀ {i k}, Live (vol sb v) i → ((vol sb v).inode i).blocks k ≠ 0 →
    sb.dataStart ≤ ((vol sb v).inode i).blocks k ∧ ((vol sb v).inode i).blocks k < sb.totalBlocks ∧
      testBit (v sb.blockBitmapStart) (((vol sb v).inode i).blocks k - sb.dataStart).toNat = true
  numbered : ∀ {i}, Live (vol sb v) i → 1 ≤ i.toNat ∧ i.toNat ≤ sb.totalInodes.toNat ∧
    testBit (v sb.inodeBitmapStart) i.toNat = true
  sized : ∀ {i}, Live (vol sb v) i → ((vol sb v).inode i).size.toNat ≤ 49152
  beyond : ∀ {i} {k : Fin ndirBlocks}, Live (vol sb v) i →
    ((vol sb v).inode i).size.toNat ≤ k.val * 4096 → ((vol sb v).inode i).blocks k = 0

/-- The entry bears the name. -/
def Vol.Bears (V : Vol) (d : UInt32) (s : Slot) (name : List UInt8) : Prop :=
  ∃ l, V.entry d s = some l ∧ l.name = name

structure NamespaceOk (V : Vol) : Prop where
  rootDir : isDir (V.inode rootIno).mode = true
  rootUnnamed : ∀ {d s}, Live V d → V.child d s ≠ some rootIno
  reached : ∀ {i}, Live V i → Relation.ReflTransGen (Holds V.child) rootIno i
  once : ∀ {i}, Live V i → i ≠ rootIno → ∃! p : UInt32 × Slot, Live V p.1 ∧ V.child p.1 p.2 = some i
  dot : ∀ {d}, Live V d → isDir (V.inode d).mode = true → (∃! s, V.Bears d s dotName) ∧
    ∀ {s l}, V.entry d s = some l → l.name = dotName → l.ino = d
  dotDot : ∀ {d}, Live V d → isDir (V.inode d).mode = true → (∃! s, V.Bears d s dotDotName) ∧
    ∀ {s l}, V.entry d s = some l → l.name = dotDotName →
      if d = rootIno then l.ino = rootIno else Live V l.ino ∧ Holds V.child l.ino d
  unique : ∀ {d s t l m}, Live V d → V.entry d s = some l → V.entry d t = some m → l.name = m.name → s = t
  typed : ∀ {d s l}, Live V d → V.entry d s = some l →
    isDir (V.inode l.ino).mode = true ∧ l.fileType = ftDir ∨
      isReg (V.inode l.ino).mode = true ∧ l.fileType = ftReg
  dirLinks : ∀ {d}, Live V d → isDir (V.inode d).mode = true → (V.inode d).nlink.toNat =
    2 + Set.ncard {c | Holds V.child d c ∧ isDir (V.inode c).mode = true}
  fileLinks : ∀ {i}, Live V i → isReg (V.inode i).mode = true → (V.inode i).nlink = 1
  dense : ∀ {d} {k l : Fin ndirBlocks}, Live V d → isDir (V.inode d).mode = true → k < l →
    (V.inode d).blocks l ≠ 0 → (V.inode d).blocks k ≠ 0

/-! ## From the invariant -/

section Invariant
variable {sb : Super} {v : Image} {V : Vol} {live : Set UInt32}

theorem VolOk.blocksOwned (h : VolOk sb (vol sb v) live) : BlocksOwned sb v where
  apart := by
    intro i j k l hi hj
    exact h.owned.apart (h.named.live_iff.mp hi) (h.named.live_iff.mp hj)
  placed := by
    intro i k hi hne
    obtain ⟨hdata, hused⟩ := h.owned.placed (h.named.live_iff.mp hi) hne
    refine ⟨hdata.1, hdata.2, ?_⟩
    change (decide _ && testBit _ _) = true at hused
    exact (Bool.and_eq_true_iff.mp hused).2
  numbered := by
    intro i hi
    obtain ⟨hino, hused⟩ := h.owned.inUse (h.named.live_iff.mp hi)
    refine ⟨hino.1, hino.2, ?_⟩
    change (decide _ && testBit _ _) = true at hused
    exact (Bool.and_eq_true_iff.mp hused).2
  sized := by
    intro i hi
    have hshape := h.owned.shaped (h.named.live_iff.mp hi)
    cases hdir : isDir ((vol sb v).inode i).mode with
    | true =>
        obtain ⟨n, hn, hsize, -⟩ := hshape.dir hdir
        simp only [ndirBlocks, blockSize] at hn hsize
        omega
    | false => exact (hshape.file hdir).2.1
  beyond := by
    intro i k hi hle
    have hshape := h.owned.shaped (h.named.live_iff.mp hi)
    cases hdir : isDir ((vol sb v).inode i).mode with
    | true =>
        obtain ⟨n, -, hsize, hblocks⟩ := hshape.dir hdir
        by_contra hne
        have hk := (hblocks k).mp hne
        simp only [blockSize] at hsize
        omega
    | false => exact (hshape.file hdir).2.2 k hle

/-- The slots that name subdirectories are as many as the subdirectories. -/
theorem Named.subdirs_eq (h : Named V live) {d : UInt32} (hd : d ∈ live) :
    V.subdirs d = Set.ncard {c | Holds V.child d c ∧ isDir (V.inode c).mode = true} := by
  have hsub : ∀ s, V.isSubdir d s = true ↔
      ∃ c, V.child d s = some c ∧ isDir (V.inode c).mode = true := by
    intro s
    cases hl : V.entry d s with
    | none => simp [Vol.isSubdir, Vol.child, hl]
    | some l =>
        have htype := h.typed hd hl
        cases hdot : l.isDot with
        | true => simp [Vol.isSubdir, Vol.child, hl, hdot]
        | false =>
            have hdir : l.fileType = ftDir ↔ isDir (V.inode l.ino).mode = true := by
              rw [htype, typeOf]
              split
              · simp_all
              · next hfile => simp [hfile, ftReg, ftDir]
            simp [Vol.isSubdir, Vol.child, hl, hdot, hdir]
  have himage : {c | Holds V.child d c ∧ isDir (V.inode c).mode = true} =
      (fun s => (V.child d s).getD 0) '' ↑(Finset.univ.filter fun s => V.isSubdir d s) := by
    ext c
    simp only [Set.mem_ofPred_eq, Set.mem_image, Finset.coe_filter, Finset.mem_univ, true_and, hsub]
    constructor
    · rintro ⟨⟨s, hs⟩, hdir⟩
      exact ⟨s, ⟨c, hs, hdir⟩, by rw [hs]; rfl⟩
    · rintro ⟨s, ⟨c', hs, hdir⟩, rfl⟩
      rw [hs]
      exact ⟨⟨s, hs⟩, hdir⟩
  have hinj : Set.InjOn (fun s => (V.child d s).getD 0)
      ↑(Finset.univ.filter fun s => V.isSubdir d s) := by
    intro s hs t ht heq
    simp only [Finset.coe_filter, Finset.mem_univ, true_and, Set.mem_ofPred_eq, hsub] at hs ht
    obtain ⟨c, hc, -⟩ := hs
    obtain ⟨c', hc', -⟩ := ht
    simp only [hc, hc', Option.getD_some] at heq
    subst heq
    exact (h.tree.once hd hd hc hc').2
  rw [himage, hinj.ncard_image, Set.ncard_coe_finset, Vol.subdirs]

/-- An entry is the only one of its name. -/
theorem Named.only (h : Named V live) {d : UInt32} (hd : d ∈ live) {s : Slot} {l : Link}
    (hs : V.entry d s = some l) :
    (∃! s, ∃ m, V.entry d s = some m ∧ m.name = l.name) ∧
      ∀ t m, V.entry d t = some m → m.name = l.name → m = l := by
  refine ⟨⟨s, ⟨l, hs, rfl⟩, ?_⟩, ?_⟩
  · rintro t ⟨m, hm, hname⟩
    exact h.unique hd hm hs hname
  · intro t m hm hname
    obtain rfl := h.unique hd hm hs hname
    rw [hs] at hm
    exact (Option.some.inj hm).symm

theorem VolOk.namespaceOk (h : VolOk sb V live) : NamespaceOk V where
  rootDir := h.named.rootDir
  rootUnnamed hd := h.named.tree.root_free (h.named.live_iff.mp hd)
  reached hi := h.named.tree.reached (h.named.live_iff.mp hi)
  once := by
    intro i hi hne
    obtain ⟨d, hd, s, hs⟩ := h.named.tree.holder (h.named.live_iff.mp hi) hne
    refine ⟨(d, s), ⟨h.named.live_iff.mpr hd, hs⟩, ?_⟩
    rintro ⟨d', s'⟩ ⟨hd', hs'⟩
    obtain ⟨rfl, rfl⟩ := h.named.tree.once (h.named.live_iff.mp hd') hd hs' hs
    rfl
  dot := by
    intro d hd hdir
    have hmem := h.named.live_iff.mp hd
    obtain ⟨s, hs⟩ := h.named.dot hmem hdir
    obtain ⟨hone, hall⟩ := h.named.only hmem hs
    refine ⟨hone, ?_⟩
    intro t l hl hname
    rw [hall t l hl hname]
  dotDot := by
    intro d hd hdir
    have hmem := h.named.live_iff.mp hd
    obtain ⟨s, p, hs, hp⟩ := h.named.dotDot hmem hdir
    obtain ⟨hone, hall⟩ := h.named.only hmem hs
    refine ⟨hone, ?_⟩
    intro t l hl hname
    obtain rfl := hall t l hl hname
    rcases hp with ⟨hroot, hp⟩ | ⟨hne, hp, hheld⟩
    · rw [if_pos hroot]
      exact hp
    · rw [if_neg hne]
      exact ⟨h.named.live_iff.mpr hp, hheld⟩
  unique hd := h.named.unique (h.named.live_iff.mp hd)
  typed := by
    intro d s l hd hl
    have hmem := h.named.live_iff.mp hd
    have htype := h.named.typed hmem hl
    rw [typeOf] at htype
    cases hdir : isDir (V.inode l.ino).mode with
    | true => exact .inl ⟨rfl, by rw [htype, if_pos hdir]⟩
    | false =>
        refine .inr ⟨((h.owned.shaped (h.named.entry_mem hmem hl)).file hdir).1, ?_⟩
        rw [htype, if_neg (by simp [hdir])]
  dirLinks := by
    intro d hd hdir
    have hmem := h.named.live_iff.mp hd
    rw [h.counted d hmem, links_of_dir hdir, h.named.subdirs_eq hmem]
  fileLinks := by
    intro i hi hreg
    have hcount := h.counted i (h.named.live_iff.mp hi)
    rw [links_of_file (not_isDir_of_isReg hreg)] at hcount
    exact UInt32.toNat_inj.mp hcount
  dense := by
    intro d k l hd hdir hkl hne
    obtain ⟨n, -, -, hblocks⟩ := (h.owned.shaped (h.named.live_iff.mp hd)).dir hdir
    exact (hblocks k).mpr (lt_trans (Fin.lt_def.mp hkl) ((hblocks l).mp hne))

end Invariant

/-! ## Runs from a formatted image -/

section Runs
variable {host : Except Errno Unit} {totalBlocks journalLen now : UInt64} {mode : DataMode}
  {d d₁ d₂ : Disk} {sb : Super} {j : Journal} {v : Image}
  (hformat : run faultless (fsFormat host totalBlocks journalLen mode now).run d = (.ok (), d₁))
  (hfits : TableFits totalBlocks)
  (hmount : run faultless (fsMount ⟨totalBlocks⟩).run d₁ = (.ok (sb, j), d₂))
  (hrun : Run (fsStep sb) (fun v c => c.1.Proper sb latest v) d₂.view v)
include hformat hfits hmount hrun

theorem volOk_of_run : ∃ live, VolOk sb (vol sb v) live := by
  obtain ⟨hs, hroot, hok⟩ := volOk_mounted hformat hfits hmount
  exact hrun.invariant ⟨{rootIno}, hok⟩ (volOk_preserved hs hroot)

omit hformat hfits hmount hrun in
/-- The path `/a` ends with a proper name. -/
theorem properName_a : FsOp.ProperName [slash, 0x61] := by
  intro parent name h
  have hsplit : splitParent [slash, 0x61] = .ok ([slash], [0x61]) := rfl
  rw [hsplit] at h
  cases h
  decide

end Runs
end Logfs
