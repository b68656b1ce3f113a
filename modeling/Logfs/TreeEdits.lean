import Logfs.VolumeTree

/-!
# Changes of one entry

What a change of one slot of a live directory does to the tree of names and to the link
counts: a link to a new inode, and the removal of a link to an inode with no children.
-/
namespace Logfs
open NameTree

/-- Of the entries of live directories only that of slot `s` of `d` changes, to `new`. -/
structure Edit (V V' : Vol) (live : Set UInt32) (d : UInt32) (s : Slot) (new : Option Link) : Prop where
  slot : V'.entry d s = new
  others : ∀ j ∈ live, ∀ t, ¬ (j = d ∧ t = s) → V'.entry j t = V.entry j t
  mode : ∀ j, (V'.inode j).mode = (V.inode j).mode
  nlink : ∀ j, (V'.inode j).nlink = (V.inode j).nlink

/-- If it is a directory, an inode on its own has just the entries `.` and `..`. -/
def Lone (V : Vol) (c p : UInt32) : Prop :=
  isDir (V.inode c).mode = true → ∃ s t, V.entry c s = some ⟨c, ftDir, dotName⟩ ∧
    V.entry c t = some ⟨p, ftDir, dotDotName⟩ ∧ ∀ u, u ≠ s → u ≠ t → V.entry c u = none

section
variable {V V' : Vol} {live : Set UInt32} {p c : UInt32} {s : Slot}

theorem entry_none_of_file (h : isDir (V.inode c).mode = false) (t : Slot) : V.entry c t = none := by
  rw [Vol.entry, if_neg]
  rintro ⟨hdir, -⟩
  rw [h] at hdir
  cases hdir

theorem child_none_of_entry {d : UInt32} {t : Slot} (h : V.entry d t = none) : V.child d t = none := by
  rw [Vol.child, h]
  rfl

theorem child_none_of_dot {d : UInt32} {t : Slot} {l : Link} (h : V.entry d t = some l)
    (hdot : l.isDot = true) : V.child d t = none := by
  simp [Vol.child, h, hdot]

theorem child_of_edit {j : UInt32} {t : Slot} (h : V'.entry j t = V.entry j t) :
    V'.child j t = V.child j t := by
  rw [Vol.child, Vol.child, h]

/-- Everything a lone inode's entries can say. -/
theorem Lone.cases (h : Lone V c p) {t : Slot} {l : Link} (hl : V.entry c t = some l) :
    l = ⟨c, ftDir, dotName⟩ ∨ l = ⟨p, ftDir, dotDotName⟩ := by
  obtain ⟨s₀, s₁, hs₀, hs₁, hnone⟩ := h (entry_eq_some hl).1
  by_cases h0 : t = s₀
  · rw [h0, hs₀] at hl
    exact .inl (Option.some.inj hl).symm
  · by_cases h1 : t = s₁
    · rw [h1, hs₁] at hl
      exact .inr (Option.some.inj hl).symm
    · rw [hnone t h0 h1] at hl
      cases hl

theorem Lone.child (h : Lone V c p) (t : Slot) : V.child c t = none := by
  cases hl : V.entry c t with
  | none => exact child_none_of_entry hl
  | some l =>
      apply child_none_of_dot hl
      rcases h.cases hl with rfl | rfl <;> rfl

theorem Lone.unique (h : Lone V c p) {t u : Slot} {l m : Link} (hl : V.entry c t = some l)
    (hm : V.entry c u = some m) (hname : l.name = m.name) : t = u := by
  obtain ⟨s₀, s₁, hs₀, hs₁, hnone⟩ := h (entry_eq_some hl).1
  have hat : ∀ {t l}, V.entry c t = some l → t = s₀ ∧ l.name = dotName ∨ t = s₁ ∧ l.name = dotDotName := by
    intro t l hl
    by_cases h0 : t = s₀
    · rw [h0, hs₀] at hl
      cases hl
      exact .inl ⟨h0, rfl⟩
    · by_cases h1 : t = s₁
      · rw [h1, hs₁] at hl
        cases hl
        exact .inr ⟨h1, rfl⟩
      · rw [hnone t h0 h1] at hl
        cases hl
  rcases hat hl with ⟨rfl, hn⟩ | ⟨rfl, hn⟩ <;> rcases hat hm with ⟨rfl, hn'⟩ | ⟨rfl, hn'⟩
  · rfl
  · rw [hn, hn'] at hname
    cases hname
  · rw [hn, hn'] at hname
    cases hname
  · rfl

/-! ## A new link -/

section Link
variable {ty : UInt8} {name : List UInt8}

theorem Named.link (h : Named V live) (hp : p ∈ live) (hc : c ∉ live)
    (hedit : Edit V V' (insert c live) p s (some ⟨c, ty, name⟩)) (hempty : V.entry p s = none)
    (hdot : Link.isDot ⟨c, ty, name⟩ = false) (hty : ty = typeOf (V.inode c).mode)
    (hfresh : ∀ t l, V.entry p t = some l → l.name ≠ name) (hlone : Lone V c p) :
    Named V' (insert c live) := by
  have hpc : p ≠ c := fun he => hc (he ▸ hp)
  have hold : ∀ {j}, j ∈ live → ∀ t, ¬ (j = p ∧ t = s) → V'.entry j t = V.entry j t :=
    fun hj t hne => hedit.others _ (Set.mem_insert_of_mem _ hj) t hne
  have hnew : ∀ t, V'.entry c t = V.entry c t :=
    fun t => hedit.others c (Set.mem_insert _ _) t fun he => hpc he.1.symm
  have hlone' : Lone V' c p := by
    intro hdir
    rw [hedit.mode] at hdir
    simpa only [hnew] using hlone hdir
  -- an entry is the new one, one of the new inode's, or an old one
  have hcases : ∀ {d t l}, d ∈ insert c live → V'.entry d t = some l →
      (d = p ∧ t = s ∧ l = ⟨c, ty, name⟩) ∨ d = c ∨ (d ∈ live ∧ V.entry d t = some l) := by
    intro d t l hd hl
    rcases Set.mem_insert_iff.mp hd with rfl | hd
    · exact .inr (.inl rfl)
    · by_cases hat : d = p ∧ t = s
      · obtain ⟨rfl, rfl⟩ := hat
        rw [hedit.slot] at hl
        exact .inl ⟨rfl, rfl, (Option.some.inj hl).symm⟩
      · rw [hold hd t hat] at hl
        exact .inr (.inr ⟨hd, hl⟩)
  have hkeep : ∀ {d t l}, d ∈ live → V.entry d t = some l → V'.entry d t = some l := by
    intro d t l hd hl
    rw [hold hd t ?_]
    · exact hl
    · rintro ⟨rfl, rfl⟩
      rw [hempty] at hl
      cases hl
  have hchild : V'.child p s = some c := child_of_entry hedit.slot hdot
  refine ⟨?_, ?_, ?_, ?_, ?_, ?_⟩
  · exact h.tree.insert_leaf hp hc (child_none_of_entry hempty) hchild
      (fun d hd t hne => child_of_edit (hold hd t hne)) hlone'.child
  · rw [hedit.mode]
    exact h.rootDir
  · intro d t l hd hl
    rw [hedit.mode]
    rcases hcases hd hl with ⟨-, -, rfl⟩ | rfl | ⟨hd, hl⟩
    · exact hty
    · have hdirc := (entry_eq_some hl).1
      rw [hedit.mode] at hdirc
      rcases hlone'.cases hl with rfl | rfl
      · rw [typeOf, if_pos hdirc]
      · have hdirp := (entry_eq_some hedit.slot).1
        rw [hedit.mode] at hdirp
        rw [typeOf, if_pos hdirp]
    · exact h.typed hd hl
  · intro d t u l m hd hl hm hname
    rcases hcases hd hl with ⟨rfl, rfl, rfl⟩ | rfl | ⟨hdl, hl'⟩
    · rcases hcases hd hm with ⟨-, rfl, -⟩ | rfl | ⟨-, hm'⟩
      · rfl
      · exact absurd rfl hpc
      · exact absurd hname.symm (hfresh u m hm')
    · exact hlone'.unique hl hm hname
    · rcases hcases hd hm with ⟨rfl, rfl, rfl⟩ | rfl | ⟨-, hm'⟩
      · exact absurd hname (hfresh t l hl')
      · exact absurd hdl hc
      · exact h.unique hdl hl' hm' hname
  · intro d hd hdir
    rcases Set.mem_insert_iff.mp hd with rfl | hd
    · obtain ⟨s₀, -, hs₀, -, -⟩ := hlone' hdir
      exact ⟨s₀, hs₀⟩
    · rw [hedit.mode] at hdir
      obtain ⟨t, ht⟩ := h.dot hd hdir
      exact ⟨t, hkeep hd ht⟩
  · intro d hd hdir
    rcases Set.mem_insert_iff.mp hd with rfl | hd
    · obtain ⟨-, s₁, -, hs₁, -⟩ := hlone' hdir
      refine ⟨s₁, p, hs₁, .inr ⟨?_, Set.mem_insert_of_mem _ hp, s, hchild⟩⟩
      rintro rfl
      exact hc h.tree.root_mem
    · rw [hedit.mode] at hdir
      obtain ⟨t, q, ht, hq⟩ := h.dotDot hd hdir
      refine ⟨t, q, hkeep hd ht, hq.imp_right ?_⟩
      rintro ⟨hne, hql, u, hu⟩
      refine ⟨hne, Set.mem_insert_of_mem _ hql, u, ?_⟩
      obtain ⟨m, hm, hmdot, rfl⟩ := child_eq_some hu
      exact child_of_entry (hkeep hql hm) hmdot

theorem isSubdir_of_none {d : UInt32} {t : Slot} (h : V.entry d t = none) : V.isSubdir d t = false := by
  rw [Vol.isSubdir, h]
  rfl

theorem isSubdir_congr {d : UInt32} {t : Slot} (h : V'.entry d t = V.entry d t) :
    V'.isSubdir d t = V.isSubdir d t := by
  rw [Vol.isSubdir, Vol.isSubdir, h]

theorem isSubdir_of_some {d : UInt32} {t : Slot} {l : Link} (h : V.entry d t = some l)
    (hdot : l.isDot = false) : V.isSubdir d t = (l.fileType == ftDir) := by
  simp [Vol.isSubdir, h, hdot]

/-- The counts differ by the one slot the directories differ in. -/
theorem subdirs_edit {d : UInt32} (hothers : ∀ t, t ≠ s → V'.entry d t = V.entry d t) :
    V'.subdirs d + (if V.isSubdir d s then 1 else 0) = V.subdirs d + (if V'.isSubdir d s then 1 else 0) := by
  have hsplit : ∀ W : Vol, W.subdirs d =
      ((Finset.univ.erase s).filter fun t => W.isSubdir d t).card + (if W.isSubdir d s then 1 else 0) := by
    intro W
    rw [Vol.subdirs, ← Finset.insert_erase (Finset.mem_univ s), Finset.filter_insert]
    split
    · rw [Finset.card_insert_of_notMem (by simp), Finset.erase_insert (Finset.notMem_erase _ _)]
    · rw [Finset.erase_insert (Finset.notMem_erase _ _), Nat.add_zero]
  have hsame : ((Finset.univ.erase s).filter fun t => V'.isSubdir d t) =
      ((Finset.univ.erase s).filter fun t => V.isSubdir d t) := by
    apply Finset.filter_congr
    intro t ht
    rw [isSubdir_congr (hothers t (Finset.ne_of_mem_erase ht))]
  rw [hsplit V', hsplit V, hsame]
  omega

theorem Lone.subdirs (h : Lone V c p) : V.subdirs c = 0 := by
  rw [Vol.subdirs, Finset.card_eq_zero, Finset.filter_eq_empty_iff]
  intro t _
  cases hl : V.entry c t with
  | none => simp [Vol.isSubdir, hl]
  | some l =>
      rcases h.cases hl with rfl | rfl <;> simp [Vol.isSubdir, hl, Link.isDot]

theorem links_of_dir {i : UInt32} (h : isDir (V.inode i).mode = true) : V.links i = 2 + V.subdirs i := by
  rw [Vol.links, if_pos h]

theorem links_of_file {i : UInt32} (h : isDir (V.inode i).mode = false) : V.links i = 1 := by
  rw [Vol.links, if_neg (by simp [h])]

end Link

/-! ## A link removed -/

theorem Named.unlink (h : Named V live) (hp : p ∈ live) {l : Link} (hl : V.entry p s = some l)
    (hdot : l.isDot = false) (hedit : Edit V V' live p s none)
    (hleaf : ∀ t, V.child l.ino t = none) : Named V' (live \ {l.ino}) := by
  have hchild := child_of_entry hl hdot
  have hpc : p ≠ l.ino := by
    intro he
    rw [← he] at hchild
    exact h.tree.irrefl hp hchild
  have hcases : ∀ {d t m}, d ∈ live \ {l.ino} → V'.entry d t = some m →
      ¬ (d = p ∧ t = s) ∧ V.entry d t = some m := by
    intro d t m hd hm
    have hne : ¬ (d = p ∧ t = s) := by
      rintro ⟨rfl, rfl⟩
      rw [hedit.slot] at hm
      cases hm
    rw [hedit.others d hd.1 t hne] at hm
    exact ⟨hne, hm⟩
  have hkeep : ∀ {d t m}, d ∈ live → V.entry d t = some m → m ≠ l → V'.entry d t = some m := by
    intro d t m hd hm hml
    rw [hedit.others d hd t ?_]
    · exact hm
    · rintro ⟨rfl, rfl⟩
      rw [hl] at hm
      exact hml (Option.some.inj hm).symm
  refine ⟨?_, ?_, ?_, ?_, ?_, ?_⟩
  · apply h.tree.erase_leaf hp hchild hleaf (child_none_of_entry hedit.slot)
    intro d hd _ t hne
    exact child_of_edit (hedit.others d hd t hne)
  · rw [hedit.mode]
    exact h.rootDir
  · intro d t m hd hm
    rw [hedit.mode]
    exact h.typed hd.1 (hcases hd hm).2
  · intro d t u m n hd hm hn hname
    exact h.unique hd.1 (hcases hd hm).2 (hcases hd hn).2 hname
  · intro d hd hdir
    rw [hedit.mode] at hdir
    obtain ⟨t, ht⟩ := h.dot hd.1 hdir
    refine ⟨t, hkeep hd.1 ht ?_⟩
    rintro rfl
    cases hdot
  · intro d hd hdir
    rw [hedit.mode] at hdir
    obtain ⟨t, q, ht, hq⟩ := h.dotDot hd.1 hdir
    refine ⟨t, q, hkeep hd.1 ht ?_, hq.imp_right ?_⟩
    · rintro rfl
      cases hdot
    · rintro ⟨hne, hql, u, hu⟩
      obtain ⟨m, hm, hmdot, hmd⟩ := child_eq_some hu
      refine ⟨hne, ⟨hql, ?_⟩, u, ?_⟩
      · rintro rfl
        rw [hleaf] at hu
        cases hu
      · rw [← hmd]
        refine child_of_entry (hkeep hql hm ?_) hmdot
        rintro rfl
        exact hd.2 hmd.symm

end
end Logfs
