import Logfs.VolumeTree

/-!
# Directory calls

What the directory functions of `inode.c` do to a volume whose live inodes own their blocks.
-/
namespace Logfs
open Interaction ByteBuffer NameTree

/-! ## The search -/

section Search
variable {p : Dirent → Bool}

theorem findInBlock_some {ents : Block} {e : ℕ} (h : findInBlock p ents = some e) :
    e < direntsPerBlock ∧ p (direntAt ents e) = true := by
  have hp := List.find?_some h
  exact ⟨List.mem_range.mp (List.mem_of_find?_eq_some h), hp⟩

theorem findInBlock_none {ents : Block} (h : findInBlock p ents = none) {e : ℕ}
    (he : e < direntsPerBlock) : p (direntAt ents e) = false := by
  have hnone := List.find?_eq_none.mp h e (List.mem_range.mpr he)
  simpa using hnone

/-- What `findEntry` answers on a volume. -/
def Vol.scan (V : Vol) (p : Dirent → Bool) : List UInt64 → Option (UInt64 × ℕ × Dirent)
  | [] => none
  | b :: bs =>
      if b = 0 then none
      else
        match findInBlock p (V.block b) with
        | some e => some (b, e, direntAt (V.block b) e)
        | none => V.scan p bs

variable {V : Vol}

theorem does_findEntry {sb : Super} (content : Block → Block → Block) {bs : List UInt64}
    (hbs : ∀ b ∈ bs, b ≠ 0 → IsData sb b) :
    Does sb content (findEntry p bs) V (.ok (V.scan p bs)) V := by
  induction bs with
  | nil => exact .pure _
  | cons b bs ih =>
      unfold findEntry Vol.scan
      by_cases hb : b = 0
      · rw [if_pos hb, if_pos hb]
        exact .pure _
      · rw [if_neg hb, if_neg hb]
        refine (does_readBlock content (hbs b (List.mem_cons_self ..) hb)).bind ?_
        cases findInBlock p (V.block b) with
        | some e => exact .pure _
        | none => exact ih fun c hc => hbs c (List.mem_cons_of_mem _ hc)

theorem scan_some {bs : List UInt64} {b : UInt64} {e : ℕ} {ent : Dirent}
    (h : V.scan p bs = some (b, e, ent)) :
    b ∈ bs ∧ b ≠ 0 ∧ e < direntsPerBlock ∧ ent = direntAt (V.block b) e ∧ p ent = true := by
  induction bs with
  | nil => cases h
  | cons c bs ih =>
      unfold Vol.scan at h
      split_ifs at h with hc
      cases hfind : findInBlock p (V.block c) with
      | some e' =>
          rw [hfind] at h
          cases h
          obtain ⟨he, hp⟩ := findInBlock_some hfind
          exact ⟨List.mem_cons_self .., hc, he, rfl, hp⟩
      | none =>
          rw [hfind] at h
          obtain ⟨hmem, hrest⟩ := ih h
          exact ⟨List.mem_cons_of_mem _ hmem, hrest⟩

/-- Nothing was overlooked before the first zero block number. -/
theorem scan_none {bs : List UInt64} (h : V.scan p bs = none) {n : ℕ} (hn : n < bs.length)
    (hall : ∀ m (hm : m ≤ n), bs[m] ≠ 0) {e : ℕ} (he : e < direntsPerBlock) :
    p (direntAt (V.block bs[n]) e) = false := by
  induction bs generalizing n with
  | nil => simp at hn
  | cons c bs ih =>
      unfold Vol.scan at h
      have hc : c ≠ 0 := hall 0 (Nat.zero_le _)
      rw [if_neg hc] at h
      cases hfind : findInBlock p (V.block c) with
      | some e' =>
          rw [hfind] at h
          cases h
      | none =>
          rw [hfind] at h
          cases n with
          | zero => exact findInBlock_none hfind he
          | succ n =>
              apply ih h
              intro m hm
              exact hall (m + 1) (Nat.succ_le_succ hm)

end Search

theorem Shaped.lower {inode : Inode} (h : Shaped inode) (hdir : isDir inode.mode = true)
    {k l : Fin ndirBlocks} (hle : l ≤ k) (hk : inode.blocks k ≠ 0) : inode.blocks l ≠ 0 := by
  obtain ⟨n, -, -, hn⟩ := h.dir hdir
  rw [hn] at hk ⊢
  exact lt_of_le_of_lt hle hk

section Directory
variable {sb : Super} {content : Block → Block → Block} {V : Vol} {live : Set UInt32} {d : UInt32}
  {p : Dirent → Bool}

theorem Owned.blocks_data (h : Owned sb V live) (hd : d ∈ live) :
    ∀ b ∈ List.ofFn (V.inode d).blocks, b ≠ 0 → IsData sb b := by
  intro b hb hne
  obtain ⟨k, rfl⟩ := (List.mem_ofFn' _ _).mp hb
  exact (h.placed hd hne).1

/-- The search in a directory, by slots. -/
theorem scan_slot {b : UInt64} {e : ℕ} {ent : Dirent}
    (h : V.scan p (List.ofFn (V.inode d).blocks) = some (b, e, ent)) :
    ∃ s : Slot, (V.inode d).blocks s.1 = b ∧ s.2.val = e ∧ b ≠ 0 ∧
      ent = direntAt (V.block b) e ∧ p ent = true := by
  obtain ⟨hmem, hne, he, hent, hp⟩ := scan_some h
  obtain ⟨k, hk⟩ := (List.mem_ofFn' _ _).mp hmem
  exact ⟨(k, ⟨e, he⟩), hk, rfl, hne, hent, hp⟩

theorem scan_no_slot (hnone : V.scan p (List.ofFn (V.inode d).blocks) = none) {s : Slot}
    (hgapless : ∀ l ≤ s.1, (V.inode d).blocks l ≠ 0) :
    p (direntAt (V.block ((V.inode d).blocks s.1)) s.2) = false := by
  have hfound := scan_none hnone (n := s.1.val) (by simp) ?_ s.2.isLt
  · simpa using hfound
  · intro m hm
    rw [List.getElem_ofFn]
    exact hgapless _ hm

/-! ## Lookup -/

theorem link_of_named {dirent : Dirent} {name : List UInt8} (hlen : dirent.name.length = nameMax + 1)
    (hname : name.length ≤ nameMax) (h : dirent.isNamed name = true) :
    dirent.link = some ⟨dirent.ino, dirent.fileType, name⟩ := by
  obtain ⟨hino, htext⟩ := (isNamed_iff hlen hname).mp h
  rw [Dirent.link, if_neg hino, htext]

theorem named_of_link {dirent : Dirent} {l : Link} (hlen : dirent.name.length = nameMax + 1)
    (hname : l.name.length ≤ nameMax) (h : dirent.link = some l) : dirent.isNamed l.name = true := by
  unfold Dirent.link at h
  split_ifs at h with hino
  cases h
  exact (isNamed_iff hlen hname).mpr ⟨hino, rfl⟩

/-- The search by name, by entries. -/
theorem scan_named_some {name : List UInt8} (hdir : isDir (V.inode d).mode = true)
    (hname : name.length ≤ nameMax) {b : UInt64} {e : ℕ} {ent : Dirent}
    (h : V.scan (Dirent.isNamed name) (List.ofFn (V.inode d).blocks) = some (b, e, ent)) :
    ∃ s : Slot, (V.inode d).blocks s.1 = b ∧ s.2.val = e ∧ b ≠ 0 ∧
      V.entry d s = some ⟨ent.ino, ent.fileType, name⟩ := by
  obtain ⟨s, rfl, rfl, hne, rfl, hp⟩ := scan_slot h
  refine ⟨s, rfl, rfl, hne, ?_⟩
  rw [entry_of_dir hdir hne]
  exact link_of_named (length_direntAt_name _ _) hname hp

theorem scan_named_none {name : List UInt8} (h : Owned sb V live) (hd : d ∈ live)
    (hname : name.length ≤ nameMax)
    (hnone : V.scan (Dirent.isNamed name) (List.ofFn (V.inode d).blocks) = none) {s : Slot} {l : Link}
    (hl : V.entry d s = some l) : l.name ≠ name := by
  rintro rfl
  obtain ⟨hdir, hne, hlink⟩ := entry_eq_some hl
  have hfalse := scan_no_slot hnone fun _ hle => (h.shaped hd).lower hdir hle hne
  rw [named_of_link (length_direntAt_name _ _) hname hlink] at hfalse
  cases hfalse

section Calls
variable (hs : RegionsSound sb) (h : Owned sb V live) (hd : d ∈ live)
include hs h hd

variable (content) in
theorem does_dirLookup (name : List UInt8) :
    (∃ err, Does sb content (dirLookup sb d name) V (.error err) V ∧
      (isDir (V.inode d).mode = true → name ≠ [] → name.length ≤ nameMax →
        ∀ s l, V.entry d s = some l → l.name ≠ name)) ∨
    ∃ s l, V.entry d s = some l ∧ l.name = name ∧ name.length ≤ nameMax ∧
      Does sb content (dirLookup sb d name) V (.ok (l.ino, l.fileType)) V := by
  have hread := does_inodeRead content (V := V) hs (h.inUse hd).1
  cases hdir : isDir (V.inode d).mode with
  | false =>
      refine .inl ⟨.enotdir, hread.bind ?_, fun hf => by cases hf⟩
      simp only [hdir, Bool.not_false, if_true]
      exact .throw _
  | true =>
      by_cases hname : name.length = 0 ∨ nameMax < name.length
      · refine .inl ⟨.enametoolong, hread.bind ?_, ?_⟩
        · simp only [hdir, Bool.not_true, Bool.false_eq_true, if_false, if_pos hname]
          exact .throw _
        · intro _ hne hle
          rcases hname with hz | hgt
          · exact absurd (List.length_eq_zero_iff.mp hz) hne
          · omega
      · have hfind := does_findEntry content (V := V) (p := Dirent.isNamed name)
          (h.blocks_data hd)
        cases hscan : V.scan (Dirent.isNamed name) (List.ofFn (V.inode d).blocks) with
        | none =>
            rw [hscan] at hfind
            refine .inl ⟨.enoent, hread.bind ?_, ?_⟩
            · simp only [hdir, Bool.not_true, Bool.false_eq_true, if_false, if_neg hname]
              exact hfind.bind (.throw _)
            · intro _ _ hle s l hl
              exact scan_named_none h hd hle hscan hl
        | some r =>
            obtain ⟨b, e, ent⟩ := r
            rw [hscan] at hfind
            have hle : name.length ≤ nameMax := by omega
            obtain ⟨s, -, -, -, hl⟩ := scan_named_some hdir hle hscan
            refine .inr ⟨s, _, hl, rfl, hle, hread.bind ?_⟩
            simp only [hdir, Bool.not_true, Bool.false_eq_true, if_false, if_neg hname]
            exact hfind.bind (.pure _)

/-- The entry's slot is cleared. -/
theorem does_dirRemove {s : Slot} {l : Link} (hl : V.entry d s = some l)
    (hname : l.name.length ≤ nameMax)
    (honly : ∀ t m, V.entry d t = some m → m.name = l.name → t = s) :
    Does sb content (dirRemove sb d l.name) V (.ok ())
      (V.setBlock ((V.inode d).blocks s.1)
        (store (V.block ((V.inode d).blocks s.1)) (64 * s.2.val) (0 : UInt32))) := by
  obtain ⟨hdir, -, -⟩ := entry_eq_some hl
  refine (does_inodeRead content hs (h.inUse hd).1).bind ?_
  simp only [hdir, Bool.not_true, Bool.false_eq_true, if_false]
  have hfind := does_findEntry content (V := V) (p := Dirent.isNamed l.name)
    (h.blocks_data hd)
  cases hscan : V.scan (Dirent.isNamed l.name) (List.ofFn (V.inode d).blocks) with
  | none => exact absurd rfl (scan_named_none h hd hname hscan hl)
  | some r =>
      obtain ⟨b, e, ent⟩ := r
      rw [hscan] at hfind
      obtain ⟨t, rfl, rfl, hne, ht⟩ := scan_named_some hdir hname hscan
      obtain rfl := honly t _ ht rfl
      have hdata := (h.placed hd hne).1
      exact hfind.bind ((does_getWriteAccess hdata).bind (does_stage hdata hs _))

variable (content) in
/-- A directory said to be empty has no entries other than `.` and `..`. -/
theorem does_dirIsEmpty (hdir : isDir (V.inode d).mode = true) :
    ∃ b, Does sb content (dirIsEmpty sb d) V (.ok b) V ∧ (b = true → ∀ s, V.child d s = none) := by
  have hfind := does_findEntry content (V := V) (p := Dirent.isProper) (h.blocks_data hd)
  refine ⟨(V.scan Dirent.isProper (List.ofFn (V.inode d).blocks)).isNone,
    (does_inodeRead content hs (h.inUse hd).1).bind ?_, ?_⟩
  · simp only [hdir, Bool.not_true, Bool.false_eq_true, if_false]
    exact hfind.bind (.pure _)
  · intro hnone s
    rw [Option.isNone_iff_eq_none] at hnone
    by_contra hsome
    obtain ⟨c, hc⟩ := Option.ne_none_iff_exists'.mp hsome
    obtain ⟨l, hl, hdot, rfl⟩ := child_eq_some hc
    obtain ⟨-, hne, hlink⟩ := entry_eq_some hl
    have hfalse := scan_no_slot hnone fun _ hle => (h.shaped hd).lower hdir hle hne
    have hproper : (direntAt (V.block ((V.inode d).blocks s.1)) s.2).isProper = true := by
      rw [isProper_iff (length_direntAt_name _ _)]
      unfold Dirent.link at hlink
      split_ifs at hlink with hino
      cases hlink
      refine ⟨hino, ?_, ?_⟩
      · intro hname
        rw [isDot_iff.mpr (.inl hname)] at hdot
        cases hdot
      · intro hname
        rw [isDot_iff.mpr (.inr hname)] at hdot
        cases hdot
    rw [hproper] at hfalse
    cases hfalse

end Calls

/-! ## Paths -/

variable (hs : RegionsSound sb) (h : Owned sb V live) (hn : Named V live)
include hs h hn

theorem does_walk {comps : List (List UInt8)} (hd : d ∈ live) :
    (∃ err, Does sb content (walk sb d comps) V (.error err) V) ∨
      ∃ i ∈ live, Does sb content (walk sb d comps) V (.ok i) V := by
  induction comps generalizing d with
  | nil => exact .inr ⟨d, hd, .pure _⟩
  | cons comp rest ih =>
      unfold walk
      by_cases hlong : nameMax < comp.length
      · rw [if_pos hlong]
        exact .inl ⟨_, .throw _⟩
      · rw [if_neg hlong]
        rcases does_dirLookup content hs h hd comp with
          ⟨err, hlook, -⟩ | ⟨s, l, hl, -, -, hlook⟩
        · exact .inl ⟨err, hlook.bind_error⟩
        · rcases ih (hn.entry_mem hd hl) with ⟨err, hrest⟩ | ⟨i, hi, hrest⟩
          · exact .inl ⟨err, hlook.bind hrest⟩
          · exact .inr ⟨i, hi, hlook.bind hrest⟩

variable (content) in
/-- A path leads to a live inode, or to an error. -/
theorem does_pathLookup (hroot : sb.rootIno = rootIno) (path : List UInt8) :
    (∃ err, Does sb content (pathLookup sb path) V (.error err) V) ∨
      ∃ i ∈ live, Does sb content (pathLookup sb path) V (.ok i) V := by
  unfold pathLookup
  by_cases habs : path.head? = some slash
  · rw [if_neg (not_not_intro habs), hroot]
    exact does_walk hs h hn hn.tree.root_mem
  · rw [if_pos habs]
    exact .inl ⟨_, .throw _⟩

end Directory
end Logfs
