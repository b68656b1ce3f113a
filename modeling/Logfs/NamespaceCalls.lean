import Logfs.Namespace
import Logfs.PathSplit

/-!
# The calls and the namespace

Each call of the file system does to the namespace of the volume what it is meant to, and its reply is
one the namespace allows.
-/
namespace Logfs
open Interaction NameTree

/-- The search ends with the same error, or at the inode the place leads to. -/
def FindsAt (sb : Super) (V : Vol) (search : TxnEM UInt32) :
    Except Errno (List (List UInt8)) → Prop
  | .error e => Does sb latest search V (.error e) V
  | .ok p => ∃ i, follow V.childNamed rootIno p = some i ∧ Does sb latest search V (.ok i) V

section Search
variable {sb : Super} {V : Vol} {live : Set UInt32} {d : UInt32}
  {p : List (List UInt8)} {name : List UInt8} (hs : LayoutSound sb) (h : Owned sb V live) (hn : Named V live)

omit hs h in
include hn in
/-- Where `.` and `..` lead. -/
theorem follow_entered (hp : follow V.childNamed rootIno p = some d) {s : Slot} {l : Link} (hl : V.entry d s = some l) :
    ∃ q, V.names.enter p l.name = .ok q ∧ follow V.childNamed rootIno q = some l.ino := by
  have hd := mem_of_follow hn hp
  have hdir := (entry_eq_some hl).1
  rw [Namespace.enter, if_neg (not_not.mpr ((isDirAt_iff hp).mpr hdir))]
  by_cases hdot : l.name = dotName
  · obtain ⟨t, ht⟩ := hn.dot hd hdir
    rw [if_pos hdot, (hn.only hd ht).2 s l hl hdot]
    exact ⟨p, rfl, hp⟩
  · by_cases hdotdot : l.name = dotDotName
    · obtain ⟨t, q, ht, hq⟩ := hn.dotDot hd hdir
      rw [if_neg hdot, if_pos hdotdot, (hn.only hd ht).2 s l hl hdotdot]
      refine ⟨p.dropLast, rfl, ?_⟩
      rcases hq with ⟨rfl, rfl⟩ | ⟨hne, hmem, u, hu⟩
      · rw [hn.rooted.follow_inj (q := []) hp rfl]
        rfl
      · rcases List.eq_nil_or_concat' p with rfl | ⟨p, m, rfl⟩
        · cases hp
          exact absurd rfl hne
        · rw [follow_snoc] at hp
          obtain ⟨e, he, hlast⟩ := Option.bind_eq_some_iff.mp hp
          have hemem := mem_of_follow hn he
          obtain ⟨v, k, hk, -, hkdot, hkino⟩ := (childNamed_eq_some hn hemem).mp hlast
          have hchild := child_of_entry hk hkdot
          rw [hkino] at hchild
          rw [List.dropLast_concat, he, (hn.tree.once hemem hmem hchild hu).1]
    · have hproper := isDot_of_proper ⟨hdot, hdotdot⟩
      have hchild := (childNamed_eq_some hn hd).mpr ⟨s, l, hl, rfl, hproper, rfl⟩
      rw [if_neg hdot, if_neg hdotdot, if_neg]
      · exact ⟨_, rfl, by rw [follow_snoc, hp, Option.bind_some, hchild]⟩
      · rw [names_snoc hp, hchild]
        exact Option.some_ne_none _

include hs h hn

theorem does_dirLookup_names (hp : follow V.childNamed rootIno p = some d) (hne : name ≠ [])
    (hlen : name.length ≤ nameMax) :
    (∃ e, V.names.enter p name = .error e ∧ Does sb latest (dirLookup sb d name) V (.error e) V) ∨
      ∃ s l, V.entry d s = some l ∧ l.name = name ∧
        Does sb latest (dirLookup sb d name) V (.ok (l.ino, l.fileType)) V := by
  have hd := mem_of_follow hn hp
  have hread := does_inodeRead latest (V := V) hs (h.inUse hd).1
  have hfits : ¬ (name.length = 0 ∨ nameMax < name.length) := by
    rintro (hz | hgt)
    · exact hne (List.length_eq_zero_iff.mp hz)
    · omega
  cases hdir : isDir (V.inode d).mode with
  | false =>
      refine .inl ⟨.enotdir, if_pos ?_, hread.bind ?_⟩
      · rw [isDirAt_iff hp, hdir]
        exact Bool.false_ne_true
      · simp only [hdir, Bool.not_false, if_true]
        exact .throw _
  | true =>
      have hfind := does_findEntry latest (V := V) (p := Dirent.isNamed name) (h.blocks_data hd)
      cases hscan : V.scan (Dirent.isNamed name) (List.ofFn (V.inode d).blocks) with
      | none =>
          rw [hscan] at hfind
          have hnone : ∀ s l, V.entry d s = some l → l.name ≠ name := fun s l => scan_named_none h hd hlen hscan
          refine .inl ⟨.enoent, ?_, hread.bind ?_⟩
          · obtain ⟨s, hs⟩ := hn.dot hd hdir
            obtain ⟨t, q, ht, -⟩ := hn.dotDot hd hdir
            rw [Namespace.enter, if_neg (not_not.mpr ((isDirAt_iff hp).mpr hdir)),
              if_neg fun he => hnone s _ hs he.symm, if_neg fun he => hnone t _ ht he.symm, if_pos]
            rw [names_snoc hp, childNamed_eq_none hn hd fun s l hl hname => absurd hname (hnone s l hl)]
            rfl
          · simp only [hdir, Bool.not_true, Bool.false_eq_true, if_false, if_neg hfits]
            exact hfind.bind (.throw _)
      | some r =>
          obtain ⟨b, e, ent⟩ := r
          rw [hscan] at hfind
          obtain ⟨s, -, -, -, hl⟩ := scan_named_some hdir hlen hscan
          refine .inr ⟨s, _, hl, rfl, hread.bind ?_⟩
          simp only [hdir, Bool.not_true, Bool.false_eq_true, if_false, if_neg hfits]
          exact hfind.bind (.pure _)

theorem does_walk_names {comps : List (List UInt8)} (hcomps : ∀ comp ∈ comps, comp ≠ [])
    (hp : follow V.childNamed rootIno p = some d) : FindsAt sb V (walk sb d comps) (V.names.walk p comps) := by
  induction comps generalizing p d with
  | nil => exact ⟨d, hp, .pure _⟩
  | cons comp rest ih =>
      unfold walk Namespace.walk
      by_cases hlong : nameMax < comp.length
      · rw [if_pos hlong, if_pos hlong]
        exact .throw _
      · rw [if_neg hlong, if_neg hlong]
        rcases does_dirLookup_names hs h hn hp (hcomps comp (List.mem_cons_self ..))
          (Nat.not_lt.mp hlong) with ⟨e, henter, hlook⟩ | ⟨s, l, hl, rfl, hlook⟩
        · rw [henter]
          exact hlook.bind_error
        · obtain ⟨q, henter, hq⟩ := follow_entered hn hp hl
          rw [henter]
          have hrest := ih (fun c hc => hcomps c (List.mem_cons_of_mem _ hc)) hq
          dsimp only
          cases hwalk : V.names.walk q rest with
          | error e =>
              rw [hwalk] at hrest
              exact hlook.bind hrest
          | ok r =>
              rw [hwalk] at hrest
              obtain ⟨i, hi, hdoes⟩ := hrest
              exact ⟨i, hi, hlook.bind hdoes⟩

theorem does_pathLookup_names (hroot : sb.rootIno = rootIno) (path : List UInt8) :
    FindsAt sb V (pathLookup sb path) (V.names.find path) := by
  unfold pathLookup Namespace.find
  by_cases habs : path.head? = some slash
  · rw [if_neg (not_not_intro habs), if_neg (not_not_intro habs), hroot]
    refine does_walk_names hs h hn (fun comp hcomp => ?_) rfl
    have hfull := (List.mem_filter.mp hcomp).2
    rintro rfl
    cases hfull
  · rw [if_pos habs, if_pos habs]
    exact .throw _

/-- The part that the calls have in common that change a directory. -/
theorem does_atPlace {α : Type} (hroot : sb.rootIno = rootIno) {path : List UInt8} {rest : UInt32 → List UInt8 → TxnEM α}
    {Q : List (List UInt8) → List UInt8 → Except Errno α → Namespace → Prop}
    (hrest : ∀ parent name, splitParent path = .ok (parent, name) → ∀ p d, follow V.childNamed rootIno p = some d →
      Does sb latest (pathLookup sb parent) V (.ok d) V →
      ∃ r V', Does sb latest (rest d name) V r V' ∧ Q p name r V'.names) :
    ∃ r V', Does sb latest (match splitParent path with
        | .error e => throw e
        | .ok (parent, name) => do
            let d ← pathLookup sb parent
            rest d name) V r V' ∧ V.names.AtPlace path Q r V'.names := by
  unfold Namespace.AtPlace Namespace.place
  cases hsplit : splitParent path with
  | error e => exact ⟨_, V, .throw e, rfl, rfl⟩
  | ok cut =>
      obtain ⟨parent, name⟩ := cut
      have hfind := does_pathLookup_names hs h hn hroot parent
      dsimp only
      cases hplace : V.names.find parent with
      | error e =>
          rw [hplace] at hfind
          exact ⟨_, V, hfind.bind_error, And.intro rfl rfl⟩
      | ok p =>
          rw [hplace] at hfind
          obtain ⟨d, hp, hdoes⟩ := hfind
          obtain ⟨r, V', hlast, hspec⟩ := hrest parent name hsplit p d hp hdoes
          exact ⟨r, V', hdoes.bind hlast, hspec⟩

end Search

/-! ## New entries -/

section Add
variable {sb : Super} {V : Vol} {v : Image} {live : Set UInt32} {d i : UInt32}
  {ty : UInt8} {p : List (List UInt8)} {name : List UInt8} {dir : Bool} (hs : LayoutSound sb)

theorem Does.det {α : Type} {op : TxnEM α} {r r' : Except Errno α} {V' V'' : Vol} (h : Does sb latest op (vol sb v) r V')
    (h' : Does sb latest op (vol sb v) r' V'') : r = r' ∧ V' = V'' :=
  ⟨(h v rfl).1.symm.trans (h' v rfl).1, (h v rfl).2.symm.trans (h' v rfl).2⟩

include hs in
/-- An entry is not refused for want of anything but space. -/
theorem does_dirAddLoop_or_full (h : Owned sb V live) (hd : d ∈ live) (ks : List (Fin ndirBlocks)) :
    Does sb latest (dirAddLoop sb d (V.inode d) name i ty ks) V (.error .enospc) V ∨
      ∃ V', Does sb latest (dirAddLoop sb d (V.inode d) name i ty ks) V (.ok ()) V' := by
  induction ks with
  | nil => exact .inl (.throw _)
  | cons k ks ih =>
      by_cases hzero : (V.inode d).blocks k = 0
      · cases hnext : V.nextBlock sb with
        | none => exact .inl (does_dirAddLoop_full hs hzero hnext)
        | some b => exact .inr ⟨_, does_dirAddLoop_grow hs (h.inUse hd).1 rfl hzero hnext⟩
      · have hb := (h.placed hd hzero).1
        cases hfind : findInBlock (fun ent => ent.ino == 0) (V.block ((V.inode d).blocks k)) with
        | none =>
            rcases ih with hfull | ⟨V', hrest⟩
            · exact .inl (does_dirAddLoop_next hzero hb hfind hfull)
            · exact .inr ⟨V', does_dirAddLoop_next hzero hb hfind hrest⟩
        | some e => exact .inr ⟨_, does_dirAddLoop_reuse hs hzero hb hfind⟩

variable (hne : name ≠ []) (hlen : name.length ≤ nameMax) (hproper : name ≠ dotName ∧ name ≠ dotDotName)
include hs hne hlen

/-- `logfs_dir_add` refuses what the namespace does, or for want of space. -/
theorem does_dirAdd_names (h : Owned sb (vol sb v) (insert i live)) (hn : Named (vol sb v) live)
    (hp : follow (vol sb v).childNamed rootIno p = some d) (hino : i ≠ 0) (hproper : name ≠ dotName ∧ name ≠ dotDotName) :
    (∃ e, Does sb latest (dirAdd sb d name i ty) (vol sb v) (.error e) (vol sb v) ∧
        (vol sb v).names.AddsAt p name dir (.error e) (vol sb v).names) ∨
      ∃ s V', Does sb latest (dirAdd sb d name i ty) (vol sb v) (.ok ()) V' ∧
        Added (vol sb v) V' (insert i live) d s ⟨i, ty, name⟩ ∧ Owned sb V' (insert i live) ∧
        ∀ t l, (vol sb v).entry d t = some l → l.name ≠ name := by
  have hd := mem_of_follow hn hp
  have hd' : d ∈ insert i live := Set.mem_insert_of_mem _ hd
  have hread := does_inodeRead latest (V := vol sb v) hs (h.inUse hd').1
  have hfits : ¬ (name.length = 0 ∨ nameMax < name.length) := by
    rintro (hz | hgt)
    · exact hne (List.length_eq_zero_iff.mp hz)
    · omega
  cases hdir : isDir ((vol sb v).inode d).mode with
  | false =>
      refine .inl ⟨.enotdir, hread.bind ?_, .notDir ?_⟩
      · simp only [hdir, Bool.not_false, if_true]
        exact .throw _
      · rw [isDirAt_iff hp, hdir]
        exact Bool.false_ne_true
  | true =>
      have hparent := (isDirAt_iff hp).mpr hdir
      rcases does_dirLookup_names hs (h.subset (Set.subset_insert _ _)) hn hp hne hlen with
        ⟨e, henter, hlook⟩ | ⟨s, l, hl, rfl, hlook⟩
      · have hfresh : ∀ t l, (vol sb v).entry d t = some l → l.name ≠ name := by
          rintro t l hl rfl
          obtain ⟨q, hq, -⟩ := follow_entered hn hp hl
          rw [henter] at hq
          cases hq
        have hloop : ∀ {r : Except Errno Unit} {V' : Vol}, Does sb latest (dirAddLoop sb d ((vol sb v).inode d) name i ty
            (List.finRange ndirBlocks)) (vol sb v) r V' → Does sb latest (dirAdd sb d name i ty) (vol sb v) r V' := by
          intro r V' hrest
          refine hread.bind ?_
          simp only [hdir, Bool.not_true, Bool.false_eq_true, if_false, if_neg hfits]
          exact hlook.result.bind hrest
        rcases does_dirAddLoop latest ty hs h hd' hdir hino hlen (List.pairwise_lt_finRange ndirBlocks)
            (fun k _ => List.mem_finRange k) with ⟨err, hfail⟩ | ⟨s, V', hdone, hadded, howned⟩
        · refine .inl ⟨err, hloop hfail, ?_⟩
          rcases does_dirAddLoop_or_full hs h hd'
            (List.finRange ndirBlocks) with hfull | ⟨V', hdone⟩
          · obtain ⟨heq, -⟩ := hfail.det hfull
            cases heq
            exact .full
          · cases (hfail.det hdone).1
        · exact .inr ⟨s, V', hloop hdone, hadded, howned, hfresh⟩
      · refine .inl ⟨.eexist, hread.bind ?_, .taken hparent ?_⟩
        · simp only [hdir, Bool.not_true, Bool.false_eq_true, if_false, if_neg hfits]
          exact hlook.result.bind (.throw _)
        · rw [names_snoc hp, (childNamed_eq_some hn hd).mpr ⟨s, l, hl, rfl, isDot_of_proper hproper, rfl⟩]
          exact Option.some_ne_none _

end Add

/-- The inodes that have names are live. -/
theorem mem_of_names {V : Vol} {live : Set UInt32} (hn : Named V live) {q : List (List UInt8)} {node : Node}
    (h : V.names q = some node) : node.ino ∈ live := by
  obtain ⟨i, hi, rfl⟩ := Option.map_eq_some_iff.mp h
  exact mem_of_follow hn hi

/-- Blocks and inodes that are not in use have no names. -/
theorem VolOk.names_congr {sb : Super} {V V' : Vol} {live : Set UInt32} (h : VolOk sb V live)
    (hinode : ∀ i ∈ live, V'.inode i = V.inode i) (hblock : ∀ b, V.blockUsed b = true → V'.block b = V.block b) :
    V'.names = V.names := by
  refine Logfs.names_congr h.named (fun d hd => ?_) fun d hd => by rw [hinode d hd]
  exact entry_congr (by rw [hinode d hd]) (by rw [hinode d hd]) fun _ k hk => hblock _ (h.owned.placed hd hk).2

section Create
variable {sb : Super} {v : Image} {live : Set UInt32} {d : UInt32}
  {p : List (List UInt8)} {name : List UInt8} (hs : LayoutSound sb) (h : VolOk sb (vol sb v) live)
  (hp : follow (vol sb v).childNamed rootIno p = some d) (hne : name ≠ []) (hlen : name.length ≤ nameMax)
  (hproper : name ≠ dotName ∧ name ≠ dotDotName)
include hs h hp hne hlen hproper

/-- An inode no path leads to, which then gets a name. -/
theorem does_named {v₁ : Image} {i : UInt32} (ty : UInt8) (hi : i ∉ live) (hino : i ≠ 0)
    (howned : Owned sb (vol sb v₁) (insert i live)) (hok : VolOk sb (vol sb v₁) live)
    (hinode : ∀ j ∈ live, (vol sb v₁).inode j = (vol sb v).inode j)
    (hblock : ∀ b, (vol sb v).blockUsed b = true → (vol sb v₁).block b = (vol sb v).block b)
    (hlone : Lone (vol sb v₁) i d) (hty : ty = typeOf ((vol sb v₁).inode i).mode) :
    (∃ e, Does sb latest (dirAdd sb d name i ty) (vol sb v₁) (.error e) (vol sb v₁) ∧
        (vol sb v).names.AddsAt p name (isDir ((vol sb v₁).inode i).mode) (.error e) (vol sb v₁).names) ∨
      ∃ V', Does sb latest (dirAdd sb d name i ty) (vol sb v₁) (.ok ()) V' ∧ Named V' (insert i live) ∧
        (vol sb v).names.AddsAt p name (isDir ((vol sb v₁).inode i).mode) (.ok i) V'.names := by
  have hd := mem_of_follow h.named hp
  have hnames : (vol sb v₁).names = (vol sb v).names := h.names_congr hinode hblock
  have hp₁ : follow (vol sb v₁).childNamed rootIno p = some d := by
    rw [h.named.rooted.follow_congr _ h.named.tree.root_mem, hp]
    refine fun e he => childNamed_congr (entry_congr (by rw [hinode e he]) (by rw [hinode e he]) fun _ k hk => ?_)
    exact hblock _ (h.owned.placed he hk).2
  rcases does_dirAdd_names hs hne hlen howned hok.named hp₁ hino hproper with
    ⟨e, hadd, hspec⟩ | ⟨s, V', hadd, hadded, -, hfresh⟩
  · rw [hnames] at hspec ⊢
    exact .inl ⟨e, hadd, hspec⟩
  · have hnamed := (hok.link hi hd hadded hproper hty hfresh hlone).1
    refine .inr ⟨V', hadd, hnamed, ?_⟩
    rw [names_added hok.named hp₁ hadded hi hproper hfresh hlone hnamed, hnames]
    have hdir := (entry_eq_some hadded.edit.slot).1
    rw [hadded.edit.mode, hinode d hd] at hdir
    refine .added ((isDirAt_iff hp).mpr hdir) ?_ fun q node hq he => hi (he ▸ mem_of_names h.named hq)
    rw [← hnames, names_snoc hp₁, childNamed_eq_none hok.named hd fun t l hl hname => absurd hname (hfresh t l hl)]
    rfl

theorem does_create_names (mode : UInt32) (now : UInt64) : ∃ r V', Does sb latest (do
      let newIno ← allocInode sb
      inodeWrite sb newIno (newFileInode mode now)
      dirAdd sb d name newIno ftReg
      return newIno) (vol sb v) r V' ∧ (vol sb v).names.AddsAt p name false r V'.names := by
  cases hnext : (vol sb v).nextIno sb with
  | none => exact ⟨_, _, (does_allocInode_full hs hnext).bind_error, .full⟩
  | some i =>
      obtain ⟨hino, hfree⟩ := nextIno_free hs hnext
      have hi := h.owned.not_mem_of_free hfree
      have hfirst : Does sb latest (do
          let newIno ← allocInode sb
          inodeWrite sb newIno (newFileInode mode now)) (vol sb v) (.ok ()) _ :=
        (does_allocInode hs hnext).bind (does_inodeWrite hs hino _)
      obtain ⟨-, hv₁⟩ := hfirst v rfl
      generalize (run _ _ v).2 = v₁ at hv₁
      have hsame : ∀ j ∈ live, (vol sb v₁).inode j = (vol sb v).inode j := by
        intro j hj
        have hji : j ≠ i := fun he => hi (he ▸ hj)
        rw [hv₁]
        simp [hji]
      have hmode : (vol sb v₁).inode i = newFileInode mode now := by
        rw [hv₁]
        simp
      have howned : Owned sb (vol sb v₁) (insert i live) := by
        rw [hv₁]
        exact (h.owned.markInode i).setInode ⟨hino, by simp⟩ Owned.MayOwn.holes (shaped_newFile mode now)
      have hblock : ∀ b, (vol sb v).blockUsed b = true → (vol sb v₁).block b = (vol sb v).block b := by
        intro b _
        rw [hv₁]
        rfl
      have hfile : isDir ((vol sb v₁).inode i).mode = false := by rw [hmode, isDir_newFile]
      have hadds := does_named hs h hp hne hlen hproper ftReg hi hino.ne_zero howned
        (h.congr (howned.subset (Set.subset_insert _ _)) hsame hblock) hsame hblock
        (fun hdir => absurd hdir (by simp [hfile])) (by simp [typeOf, hfile])
      rw [hfile] at hadds
      rcases hadds with ⟨e, hadd, hspec⟩ | ⟨V', hadd, -, hspec⟩
      · rw [hv₁] at hadd
        exact ⟨_, _, (does_allocInode hs hnext).bind ((does_inodeWrite hs hino _).bind hadd.bind_error), by rw [← hv₁]; exact hspec⟩
      · rw [hv₁] at hadd
        exact ⟨_, V', (does_allocInode hs hnext).bind ((does_inodeWrite hs hino _).bind (hadd.bind (.pure _))), hspec⟩

theorem does_mkdir_names (mode : UInt32) (now : UInt64) : ∃ r V', Does sb latest (do
      let newIno ← allocInode sb
      let dataBlock ← allocBlock sb
      let _ ← TxnEM.getWriteAccess dataBlock
      TxnEM.modify dataBlock (initialDirBlock newIno d)
      TxnEM.dirtyMetadata dataBlock
      inodeWrite sb newIno (newDirInode mode now dataBlock)
      dirAdd sb d name newIno ftDir
      let pdir ← inodeRead sb d
      inodeWrite sb d { pdir with nlink := pdir.nlink + 1, mtime := now }) (vol sb v) r V' ∧
    ∃ r', (vol sb v).names.AddsAt p name true r' V'.names ∧ r = r'.map fun _ => () := by
  have hd := mem_of_follow h.named hp
  have hdino := (h.owned.inUse hd).1
  cases hnext : (vol sb v).nextIno sb with
  | none => exact ⟨_, _, (does_allocInode_full hs hnext).bind_error, _, .full, rfl⟩
  | some i =>
      obtain ⟨hino, hfree⟩ := nextIno_free hs hnext
      have hi := h.owned.not_mem_of_free hfree
      cases hnextb : ((vol sb v).markInode i true).nextBlock sb with
      | none =>
          refine ⟨_, _, (does_allocInode hs hnext).bind (does_allocBlock_full hs hnextb).bind_error, .error .enospc, ?_, rfl⟩
          have hmarked : ((vol sb v).markInode i true).names = (vol sb v).names :=
            h.names_congr (fun _ _ => rfl) fun _ _ => rfl
          rw [hmarked]
          exact .full
      | some b =>
          obtain ⟨hb, hbfree⟩ := nextBlock_free hs hnextb
          have hdone : Does sb latest (pure i) ((vol sb v).newDir d i b mode now) (.ok i) _ := .pure i
          obtain ⟨-, hv₁⟩ := does_newDir hs hnext hnextb hdone v rfl
          generalize (run _ _ v).2 = v₁ at hv₁
          have hsame : ∀ j ∈ live, (vol sb v₁).inode j = (vol sb v).inode j := by
            intro j hj
            rw [hv₁]
            exact inode_newDir hi hj
          have hblock : ∀ c, (vol sb v).blockUsed c = true → (vol sb v₁).block c = (vol sb v).block c := by
            intro c hc
            rw [hv₁]
            exact block_newDir hbfree hc
          have howned : Owned sb (vol sb v₁) (insert i live) := by
            rw [hv₁]
            exact h.owned.newDir hs hino hb hbfree mode now
          have hmode : (vol sb v₁).inode i = newDirInode mode now b := by
            rw [hv₁]
            simp [Vol.newDir]
          have hlone : Lone (vol sb v₁) i d := lone_newDir hino.ne_zero hdino.ne_zero (hb.ne_zero hs) hmode
            (by rw [hv₁]; simp [Vol.newDir])
          have hdir : isDir ((vol sb v₁).inode i).mode = true := by rw [hmode, isDir_newDir]
          have hadds := does_named hs h hp hne hlen hproper ftDir hi hino.ne_zero howned
            (h.congr (howned.subset (Set.subset_insert _ _)) hsame hblock) hsame hblock hlone (by simp [typeOf, hdir])
          rw [hdir] at hadds
          rcases hadds with ⟨e, hadd, hspec⟩ | ⟨V', hadd, hnamed, hspec⟩
          · refine ⟨_, _, does_newDir hs hnext hnextb ?_, .error e, hspec, rfl⟩
            rw [hv₁] at hadd ⊢
            exact hadd.bind_error
          · let W := V'.setInode d { V'.inode d with nlink := (V'.inode d).nlink + 1, mtime := now }
            have hlast : Does sb latest (do
                let pdir ← inodeRead sb d
                inodeWrite sb d { pdir with nlink := pdir.nlink + 1, mtime := now }) V' (.ok ()) W :=
              (does_inodeRead latest hs hdino).bind (does_inodeWrite hs hdino _)
            have hentry : ∀ j, W.entry j = V'.entry j := entry_setInode rfl rfl
            have hmodes : ∀ j, (W.inode j).mode = (V'.inode j).mode := mode_setInode rfl
            rw [hv₁] at hadd
            refine ⟨_, W, does_newDir hs hnext hnextb (hadd.bind hlast), .ok i, ?_, rfl⟩
            rw [names_congr hnamed (fun j _ => hentry j) fun j _ => hmodes j]
            exact hspec

end Create

/-! ## Entries that go -/

section Remove
variable {sb : Super} {v : Image} {live : Set UInt32} {d : UInt32} {p : List (List UInt8)} {name : List UInt8}
  (hs : LayoutSound sb) (h : VolOk sb (vol sb v) live)

/-- The answer of `logfs_dir_is_empty` is right either way. -/
theorem does_dirIsEmpty_names (hs : LayoutSound sb) (h : VolOk sb (vol sb v) live) (hd : d ∈ live)
    (hdir : isDir ((vol sb v).inode d).mode = true) :
    Does sb latest (dirIsEmpty sb d) (vol sb v) (.ok true) (vol sb v) ∧ (∀ s, (vol sb v).child d s = none) ∨
      Does sb latest (dirIsEmpty sb d) (vol sb v) (.ok false) (vol sb v) ∧ ∃ s c, (vol sb v).child d s = some c := by
  have hfind := does_findEntry latest (V := vol sb v) (p := Dirent.isProper) (h.owned.blocks_data hd)
  have hscanned : Does sb latest (dirIsEmpty sb d) (vol sb v)
      (.ok ((vol sb v).scan Dirent.isProper (List.ofFn ((vol sb v).inode d).blocks)).isNone) (vol sb v) := by
    refine (does_inodeRead latest hs (h.owned.inUse hd).1).bind ?_
    simp only [hdir, Bool.not_true, Bool.false_eq_true, if_false]
    exact hfind.bind (.pure _)
  obtain ⟨b, hdoes, hnone⟩ := does_dirIsEmpty latest hs h.owned hd hdir
  have hb := Except.ok.inj (hdoes.det hscanned).1
  cases hscan : (vol sb v).scan Dirent.isProper (List.ofFn ((vol sb v).inode d).blocks) with
  | none =>
      rw [hscan] at hb
      obtain rfl : b = true := hb
      exact .inl ⟨hdoes, hnone rfl⟩
  | some r =>
      obtain ⟨b', e, ent⟩ := r
      rw [hscan] at hb
      obtain rfl : b = false := hb
      refine .inr ⟨hdoes, ?_⟩
      obtain ⟨s, hblock, he, hne, hent, hproper⟩ := scan_slot hscan
      subst hblock
      rw [isProper_iff (by rw [hent]; exact length_direntAt_name _ _)] at hproper
      obtain ⟨hino, hdot, hdotdot⟩ := hproper
      have hl : (vol sb v).entry d s = some ⟨ent.ino, ent.fileType, ent.text⟩ := by
        rw [entry_of_dir hdir hne, he, ← hent, Dirent.link, if_neg hino]
      exact ⟨s, _, child_of_entry hl (isDot_of_proper ⟨hdot, hdotdot⟩)⟩

variable (hp : follow (vol sb v).childNamed rootIno p = some d) {s : Slot} {l : Link}
  (hl : (vol sb v).entry d s = some l) (hproper : l.name ≠ dotName ∧ l.name ≠ dotDotName)
include h hp hl hproper

theorem follow_link : follow (vol sb v).childNamed rootIno (p ++ [l.name]) = some l.ino := by
  rw [follow_snoc, hp, Option.bind_some]
  exact (childNamed_eq_some h.named (mem_of_follow h.named hp)).mpr ⟨s, l, hl, rfl, isDot_of_proper hproper, rfl⟩

/-- A node with no children that is out of its directory. -/
theorem removesAt_leaf {V' : Vol} {live' : Set UInt32} (hleaf : ∀ t, (vol sb v).child l.ino t = none)
    (hedit : Edit (vol sb v) V' live d s none) (hlive : live' = live \ {l.ino}) (hn' : Named V' live') :
    (vol sb v).names.RemovesAt p l.name (isDir ((vol sb v).inode l.ino).mode) (.ok ()) V'.names := by
  subst hlive
  have hd := mem_of_follow h.named hp
  have hat := follow_link h hp hl hproper
  rw [names_removed h.named hp hl (isDot_of_proper hproper) hleaf hedit hn']
  refine .removed (names_of_follow hat) fun child => ?_
  rw [names_snoc hat, childNamed_leaf h.named (h.named.entry_mem hd hl) hleaf]
  rfl

include hs

theorem does_dropFile_names (hname : l.name.length ≤ nameMax) (hfile : isDir ((vol sb v).inode l.ino).mode = false) :
    ∃ V', Does sb latest (do
      let target ← inodeRead sb l.ino
      dirRemove sb d l.name
      if target.nlink - 1 = 0 then do
        let _ ← truncateBlocks sb { target with nlink := target.nlink - 1 } 0
        freeInode sb l.ino
      else inodeWrite sb l.ino { target with nlink := target.nlink - 1 }) (vol sb v) (.ok ()) V' ∧
      (vol sb v).names.RemovesAt p l.name false (.ok ()) V'.names := by
  have hd := mem_of_follow h.named hp
  have hdot := isDot_of_proper hproper
  have hleaf : ∀ t, (vol sb v).child l.ino t = none := fun t => child_none_of_entry (entry_none_of_file hfile t)
  have hclear := edit_clearSlot h.owned hd hl
  have hedit : Edit (vol sb v) ((vol sb v).dropFile d s l.ino) live d s none :=
    ⟨hclear.slot, hclear.others, hclear.mode, hclear.nlink⟩
  have hspec := removesAt_leaf h hp hl hproper hleaf hedit rfl (h.named.unlink hd hl hdot hedit hleaf)
  rw [hfile] at hspec
  exact ⟨_, does_dropFile hs h hd hl hname hfile, hspec⟩

theorem does_dropDir_names (hname : l.name.length ≤ nameMax) (hdir : isDir ((vol sb v).inode l.ino).mode = true)
    (hleaf : ∀ t, (vol sb v).child l.ino t = none) (now : UInt64) :
    ∃ V', Does sb latest (do
      let target ← inodeRead sb l.ino
      let _ ← truncateBlocks sb target 0
      freeInode sb l.ino
      dirRemove sb d l.name
      let pdir ← inodeRead sb d
      inodeWrite sb d { pdir with nlink := pdir.nlink - 1, mtime := now }) (vol sb v) (.ok ()) V' ∧
      (vol sb v).names.RemovesAt p l.name true (.ok ()) V'.names := by
  have hd := mem_of_follow h.named hp
  have hdot := isDot_of_proper hproper
  let W := (((vol sb v).freeAll (((vol sb v).inode l.ino).tail 0)).markInode l.ino false).clearSlot d s
  have hclear := edit_clearSlot h.owned hd hl
  have hedit : Edit (vol sb v) W live d s none := ⟨hclear.slot, hclear.others, hclear.mode, hclear.nlink⟩
  have hnamed := h.named.unlink hd hl hdot hedit hleaf
  have hspec := removesAt_leaf h hp hl hproper hleaf hedit rfl hnamed
  rw [hdir] at hspec
  have hentry : ∀ j, ((vol sb v).dropDir d s l.ino now).entry j = W.entry j := entry_setInode rfl rfl
  have hmode : ∀ j, (((vol sb v).dropDir d s l.ino now).inode j).mode = (W.inode j).mode := mode_setInode rfl
  refine ⟨_, does_dropDir hs h hd hl hdot hname now, ?_⟩
  rw [names_congr hnamed (fun j _ => hentry j) fun j _ => hmode j]
  exact hspec

end Remove

/-! ## Changes of a file -/

section File
variable {sb : Super} {V V' : Vol} {live : Set UInt32} {i : UInt32} (h : VolOk sb V live) (hi : i ∈ live)
  (hfile : isDir (V.inode i).mode = false)
include h hi hfile

/-- A file's blocks hold no names. -/
theorem VolOk.names_changeFile (hinode : ∀ j ∈ live, j ≠ i → V'.inode j = V.inode j)
    (hmode : (V'.inode i).mode = (V.inode i).mode)
    (hkept : ∀ b, V.blockUsed b = true → (∀ k, (V.inode i).blocks k ≠ b) → V'.block b = V.block b) :
    V'.names = V.names := by
  apply Logfs.names_congr h.named
  · intro j hj
    by_cases hji : j = i
    · subst hji
      ext1 t
      rw [entry_none_of_file hfile, entry_none_of_file (by rw [hmode]; exact hfile)]
    · refine entry_congr (by rw [hinode j hj hji]) (by rw [hinode j hj hji]) fun _ k hk => ?_
      exact hkept _ (h.owned.placed hj hk).2 fun l heq => hji (h.owned.apart hj hi heq.symm hk).1
  · intro j hj
    by_cases hji : j = i
    · rw [hji, hmode]
    · rw [hinode j hj hji]

variable (hs : LayoutSound sb)
include hs

theorem does_opWrite_names (buf : List UInt8) (offset : ℕ) (now : UInt64) :
    ∃ r V', Does sb latest (opWrite sb i buf offset now) V r V' ∧ V'.names = V.names := by
  have hino := (h.owned.inUse hi).1
  unfold opWrite
  by_cases hbig : maxFileSize < offset + buf.length
  · rw [if_pos hbig]
    exact ⟨_, V, .throw _, rfl⟩
  · rw [if_neg hbig]
    rcases does_writeLoop latest hs h.owned buf.length (h.owned.writing hi (offset + buf.length)) le_rfl (by omega) with
      ⟨V', inode, hloop, hw⟩ | ⟨V', inode, hloop, hw⟩
    · refine ⟨_, V', .withHandle ((does_inodeRead latest hs hino).bind hloop.bind_error), ?_⟩
      exact h.names_changeFile hi hfile (fun j _ _ => by rw [hw.stored]) (by rw [hw.stored]) hw.kept
    · have hmode : inode.mode = (V.inode i).mode := by rw [hw.fields]
      refine ⟨_, _, .withHandle ((does_inodeRead latest hs hino).bind
        (hloop.bind ((does_inodeWrite hs hino _).bind (.pure _)))), ?_⟩
      refine h.names_changeFile hi hfile (fun j _ hji => ?_) ?_ hw.kept
      · simp only [Vol.inode_setInode, if_neg hji, hw.stored]
      · simp only [Vol.inode_setInode, if_true, hmode]

theorem does_truncateAt_names {size : ℕ} (hsize : size ≤ maxFileSize) (now : UInt64) :
    ∃ V', Does sb latest (truncateAt sb i size now) V (.ok ()) V' ∧ V'.names = V.names := by
  obtain ⟨V', hdoes, -, hothers, hblock, hinode⟩ := does_truncateAt latest hi hfile hs h.owned hsize now
  have hmode : ((V.inode i).truncated size).mode = (V.inode i).mode := by
    unfold Inode.truncated
    split <;> rfl
  refine ⟨V', hdoes, h.names_changeFile hi hfile (fun j _ hji => hothers j hji) ?_ fun b _ _ => by rw [hblock]⟩
  rw [hinode]
  exact hmode

end File

/-! ## Attributes and listings -/

section Read
variable {sb : Super} {V : Vol} {live : Set UInt32} {d : UInt32} {p : List (List UInt8)}

/-- The link count is that of the subdirectories' names. -/
theorem links_eq (h : VolOk sb V live) (hp : follow V.childNamed rootIno p = some d) :
    (V.inode d).nlink.toNat = V.names.linksAt p (V.node d) := by
  have hd := mem_of_follow h.named hp
  rw [h.counted d hd, Namespace.linksAt]
  cases hdir : isDir (V.inode d).mode with
  | false =>
      rw [links_of_file hdir, if_neg]
      rw [Vol.node, hdir]
      exact Bool.false_ne_true
  | true =>
      have hnode : (V.node d).dir = true := hdir
      rw [links_of_dir hdir, if_pos hnode, h.named.subdirs_eq hd]
      have hsub : {c | Holds V.child d c ∧ isDir (V.inode c).mode = true} =
          (fun name => (V.childNamed d name).getD 0) '' {name | V.names.IsDirAt (p ++ [name])} := by
        ext c
        simp only [Set.mem_ofPred_eq, Set.mem_image, Namespace.IsDirAt, names_snoc hp, Option.any_map]
        constructor
        · rintro ⟨⟨s, hs⟩, hc⟩
          obtain ⟨l, hl, hdot, hino⟩ := child_eq_some hs
          have hchild := (childNamed_eq_some h.named hd).mpr ⟨s, l, hl, rfl, hdot, hino⟩
          exact ⟨l.name, by rw [hchild]; exact hc, by rw [hchild]; rfl⟩
        · rintro ⟨name, hname, rfl⟩
          cases hchild : V.childNamed d name with
          | none =>
              rw [hchild] at hname
              cases hname
          | some c =>
              rw [hchild] at hname
              obtain ⟨s, l, hl, -, hdot, hino⟩ := (childNamed_eq_some h.named hd).mp hchild
              have hs := child_of_entry hl hdot
              rw [hino] at hs
              exact ⟨⟨s, hs⟩, hname⟩
      rw [hsub, Set.InjOn.ncard_image]
      intro m hm n hn heq
      simp only [Set.mem_ofPred_eq, Namespace.IsDirAt, names_snoc hp, Option.any_map] at hm hn
      obtain ⟨a, ha⟩ : ∃ a, V.childNamed d m = some a := by
        cases hc : V.childNamed d m with
        | none => rw [hc] at hm; cases hm
        | some a => exact ⟨a, rfl⟩
      obtain ⟨b, hb⟩ : ∃ b, V.childNamed d n = some b := by
        cases hc : V.childNamed d n with
        | none => rw [hc] at hn; cases hn
        | some b => exact ⟨b, rfl⟩
      simp only [ha, hb, Option.getD_some] at heq
      subst heq
      exact (h.named.rooted.once hd hd ha hb).2

/-- Each name as far as its first zero byte. -/
theorem namesIn_cut (ents : Block) : namesIn ents = ((List.finRange direntsPerBlock).filterMap
    fun e : Fin direntsPerBlock => (direntAt ents e).link.map Link.name).map (List.takeWhile (· != 0)) := by
  have hlist : ∀ es : List (Fin direntsPerBlock), (((es.map fun e : Fin direntsPerBlock => direntAt ents e).filter fun d => d.ino != 0).map
      fun d => (d.name.take d.nameLen.toNat).takeWhile fun c => c != 0) =
      (es.filterMap fun e : Fin direntsPerBlock => (direntAt ents e).link.map Link.name).map (List.takeWhile (· != 0)) := by
    intro es
    induction es with
    | nil => rfl
    | cons e es ih =>
        rw [List.map_cons, List.filter_cons, List.filterMap_cons]
        by_cases hino : (direntAt ents e).ino = 0
        · simpa [Dirent.link, hino] using ih
        · rw [Dirent.link, if_neg hino, if_pos (by simpa using hino), List.map_cons, ih]
          rfl
  rw [namesIn, ← hlist, ← List.map_coe_finRange_eq_range, List.map_map]
  rfl

theorem does_listing_names (h : VolOk sb V live) (hd : d ∈ live) (hdir : isDir (V.inode d).mode = true) :
    ∃ names : List (List UInt8), Does sb latest (readdirLoop (List.ofFn (V.inode d).blocks)) V
        (.ok (names.map (List.takeWhile (· != 0)))) V ∧ names.Nodup ∧
      ∀ name, name ∈ names ↔ ∃ s l, V.entry d s = some l ∧ l.name = name := by
  have hgap : (List.ofFn (V.inode d).blocks).Pairwise fun b c => b = 0 → c = 0 := by
    rw [List.pairwise_ofFn]
    intro k l hkl hk
    by_contra hl
    exact (h.owned.shaped hd).lower hdir hkl.le hl hk
  have hall : ((List.ofFn (V.inode d).blocks).flatMap fun b => if b = 0 then [] else namesIn (V.block b)) =
      (slotList.filterMap fun s => (V.entry d s).map Link.name).map (List.takeWhile (· != 0)) := by
    rw [slotList, List.product, List.filterMap_flatMap, List.map_flatMap, List.ofFn_eq_map, List.flatMap_map]
    refine congrArg (fun f => (List.finRange ndirBlocks).flatMap f) (funext fun k => ?_)
    rw [List.filterMap_map]
    by_cases hzero : (V.inode d).blocks k = 0
    · have hnone : ∀ e, V.entry d (k, e) = none := fun e => if_neg fun hc => hc.2 hzero
      rw [if_pos hzero, List.filterMap_eq_nil_iff.mpr]
      · rfl
      · intro e _
        rw [Function.comp_apply, hnone]
        rfl
    · rw [if_neg hzero, namesIn_cut]
      refine congrArg _ (List.filterMap_congr fun e _ => ?_)
      rw [Function.comp_apply, entry_of_dir hdir hzero]
  refine ⟨_, hall ▸ does_readdirLoop (h.owned.blocks_data hd) hgap, ?_, fun name => ?_⟩
  · apply ((List.nodup_finRange _).product (List.nodup_finRange _)).filterMap
    intro s t name hs ht
    obtain ⟨l, hl, rfl⟩ := Option.map_eq_some_iff.mp hs
    obtain ⟨m, hm, hname⟩ := Option.map_eq_some_iff.mp ht
    exact h.named.unique hd hl hm hname.symm
  · simp only [List.mem_filterMap, Option.map_eq_some_iff]
    constructor
    · rintro ⟨s, -, l, hl, hname⟩
      exact ⟨s, l, hl, hname⟩
    · rintro ⟨s, l, hl, hname⟩
      exact ⟨s, mem_slotList s, l, hl, hname⟩

end Read

/-! ## The calls -/

theorem Does.map {sb : Super} {α β : Type} {op : TxnEM α} {f : α → β} {V V' : Vol} {r : Except Errno α}
    (h : Does sb latest op V r V') : Does sb latest (do let a ← op; return f a) V (r.map f) V' := by
  cases r with
  | ok a => exact h.bind (.pure _)
  | error e => exact h.bind_error

namespace Namespace

theorem AtPlace.map {α β : Type} {T T' : Namespace} {path : List UInt8} {f : α → β}
    {Q : List (List UInt8) → List UInt8 → Except Errno α → Namespace → Prop} {r : Except Errno β}
    (h : T.AtPlace path (fun p name r T' => ∃ r', Q p name r' T' ∧ r = r'.map f) r T') :
    ∃ r', T.AtPlace path Q r' T' ∧ r = r'.map f := by
  unfold AtPlace at h ⊢
  cases hplace : T.place path with
  | error e =>
      rw [hplace] at h
      exact ⟨.error e, ⟨rfl, h.2⟩, h.1⟩
  | ok at' =>
      rw [hplace] at h
      exact h

end Namespace

section Calls
variable {sb : Super} {v : Image} {live : Set UInt32} (hs : LayoutSound sb) (hroot : sb.rootIno = rootIno)
  (h : VolOk sb (vol sb v) live)
include hs hroot h

theorem does_opMkdir_names {path : List UInt8} (hname : FsOp.ProperName path) (mode : UInt32) (now : UInt64) :
    ∃ r V', Does sb latest (opMkdir sb path mode now) (vol sb v) r V' ∧
      ∃ r', (vol sb v).names.Adds path true r' V'.names ∧ r = r'.map fun _ => () := by
  obtain ⟨r, V', hdoes, hspec⟩ : ∃ r V', Does sb latest (opMkdir sb path mode now) (vol sb v) r V' ∧
      (vol sb v).names.AtPlace path (fun p name r T' => ∃ r', (vol sb v).names.AddsAt p name true r' T' ∧
        r = r'.map fun _ => ()) r V'.names := by
    refine does_atPlace hs h.owned h.named hroot fun parent name hsplit p d hp _ => ?_
    obtain ⟨-, -, -, hne, -, hlen⟩ := splitParent_ok hsplit
    obtain ⟨r, V', hdoes, hspec⟩ := does_mkdir_names hs h hp hne hlen (hname parent name hsplit) mode now
    exact ⟨r, V', hdoes.withHandle, hspec⟩
  exact ⟨r, V', hdoes, hspec.map⟩

theorem does_opCreate_names {path : List UInt8} (hname : FsOp.ProperName path) (mode : UInt32) (now : UInt64) :
    ∃ r V', Does sb latest (opCreate sb path mode now) (vol sb v) r V' ∧ (vol sb v).names.Adds path false r V'.names := by
  refine does_atPlace hs h.owned h.named hroot fun parent name hsplit p d hp _ => ?_
  obtain ⟨-, -, -, hne, -, hlen⟩ := splitParent_ok hsplit
  obtain ⟨r, V', hdoes, hspec⟩ := does_create_names hs h hp hne hlen (hname parent name hsplit) mode now
  exact ⟨r, V', hdoes.withHandle, hspec⟩

theorem does_opUnlink_names {path : List UInt8} (hproper : (FsOp.unlink path).Proper sb latest v) :
    ∃ r V', Does sb latest (opUnlink sb path) (vol sb v) r V' ∧ (vol sb v).names.Removes path false r V'.names := by
  obtain ⟨hname, hfile⟩ := hproper
  refine does_atPlace hs h.owned h.named hroot fun parent name hsplit p d hp hpath => ?_
  obtain ⟨-, -, -, hne, -, hlen⟩ := splitParent_ok hsplit
  rcases does_dirLookup_names hs h.owned h.named hp hne hlen with ⟨e, henter, hlook⟩ | ⟨s, l, hl, rfl, hlook⟩
  · exact ⟨_, _, hlook.bind_error, .missing henter⟩
  · obtain ⟨V', hdoes, hspec⟩ := does_dropFile_names hs h hp hl (hname parent l.name hsplit) hlen
      (hfile _ (touches_unlink hsplit hpath hlook))
    exact ⟨_, V', hlook.bind hdoes.withHandle, hspec⟩

theorem does_opRmdir_names {path : List UInt8} (hname : FsOp.ProperName path) (now : UInt64) :
    ∃ r V', Does sb latest (opRmdir sb path now) (vol sb v) r V' ∧ (vol sb v).names.Removes path true r V'.names := by
  refine does_atPlace hs h.owned h.named hroot fun parent name hsplit p d hp _ => ?_
  obtain ⟨-, -, -, hne, -, hlen⟩ := splitParent_ok hsplit
  have hd := mem_of_follow h.named hp
  rcases does_dirLookup_names hs h.owned h.named hp hne hlen with ⟨e, henter, hlook⟩ | ⟨s, l, hl, rfl, hlook⟩
  · exact ⟨_, _, hlook.bind_error, .missing henter⟩
  · have hproper := hname parent l.name hsplit
    have hat := follow_link h hp hl hproper
    have hmem := h.named.entry_mem hd hl
    by_cases hty : l.fileType = ftDir
    · have hdir := isDir_of_ftDir h hd hl hty
      rcases does_dirIsEmpty_names hs h hmem hdir with ⟨hempty, hleaf⟩ | ⟨hempty, t, c, ht⟩
      · obtain ⟨V', hdoes, hspec⟩ := does_dropDir_names hs h hp hl hproper hlen hdir hleaf now
        refine ⟨_, V', hlook.bind ?_, hspec⟩
        rw [if_neg (not_not_intro hty)]
        exact hempty.bind hdoes.withHandle
      · refine ⟨.error .enotempty, vol sb v, hlook.bind ?_, ?_⟩
        · rw [if_neg (not_not_intro hty)]
          exact hempty.bind (.throw _)
        · obtain ⟨m, hm, hdot, rfl⟩ := child_eq_some ht
          refine .notEmpty (c := m.name) rfl ((isDirAt_iff hat).mpr hdir) ?_
          rw [names_snoc hat, (childNamed_eq_some h.named hmem).mpr ⟨t, m, hm, rfl, hdot, rfl⟩]
          exact Option.some_ne_none _
    · refine ⟨.error .enotdir, vol sb v, hlook.bind ?_, .notDir (i := l.ino) rfl ?_⟩
      · rw [if_pos hty]
        exact .throw _
      · have hfile : isDir ((vol sb v).inode l.ino).mode = false := by
          by_contra hdir
          rw [h.named.typed hd hl, typeOf, if_pos (by simpa using hdir)] at hty
          exact hty rfl
        rw [names_of_follow hat, Vol.node, hfile]

omit hroot in
theorem does_write_names {fh : UInt32} {buf : List UInt8} {offset : ℕ}
    (hproper : (FsOp.write fh buf offset).Proper sb latest v) (now : UInt64) :
    ∃ r V', Does sb latest (opWrite sb fh buf offset now) (vol sb v) r V' ∧ V'.names = (vol sb v).names := by
  obtain ⟨hlive, hreg⟩ := hproper fh rfl
  exact does_opWrite_names h (h.named.live_iff.mp hlive) (not_isDir_of_isReg hreg) hs buf offset now

theorem does_opTruncate_names {path : List UInt8} {fh : Option UInt32} {size : ℕ}
    (hproper : (FsOp.truncate path fh size).Proper sb latest v) (now : UInt64) :
    ∃ r V', Does sb latest (opTruncate sb path fh size now) (vol sb v) r V' ∧ V'.names = (vol sb v).names := by
  have hfound : ∀ i, Does sb latest (fileTarget sb path fh) (vol sb v) (.ok i) (vol sb v) → size ≤ maxFileSize →
      ∃ r V', Does sb latest (do
        let ino ← fileTarget sb path fh
        truncateAt sb ino size now) (vol sb v) r V' ∧ V'.names = (vol sb v).names := by
    intro i hdoes hsize
    obtain ⟨hlive, hreg⟩ := hproper i hdoes.touches
    obtain ⟨V', hlast, hnames⟩ :=
      does_truncateAt_names h (h.named.live_iff.mp hlive) (not_isDir_of_isReg hreg) hs hsize now
    exact ⟨_, V', hdoes.bind hlast, hnames⟩
  unfold opTruncate
  by_cases hbig : maxFileSize < size
  · rw [if_pos hbig]
    exact ⟨_, _, .throw _, rfl⟩
  · rw [if_neg hbig]
    have hsize := Nat.not_lt.mp hbig
    cases fh with
    | some ino => exact hfound ino (.pure _) hsize
    | none =>
        rcases does_pathLookup latest hs h.owned h.named hroot path with ⟨e, hpath⟩ | ⟨i, -, hpath⟩
        · exact ⟨_, _, Interaction.Acts.bind_error hpath, rfl⟩
        · exact hfound i hpath hsize

theorem does_opGetattr_names (path : List UInt8) : ∃ r, Does sb latest (opGetattr sb path) (vol sb v) r (vol sb v) ∧
    (vol sb v).names.Stats path (r.map .attributes) := by
  have hfind := does_pathLookup_names hs h.owned h.named hroot path
  unfold Namespace.Stats
  cases hplace : (vol sb v).names.find path with
  | error e =>
      rw [hplace] at hfind
      exact ⟨_, hfind.bind_error, rfl⟩
  | ok p =>
      rw [hplace] at hfind
      obtain ⟨i, hp, hdoes⟩ := hfind
      have hread := does_inodeRead latest (V := vol sb v) hs (h.owned.inUse (mem_of_follow h.named hp)).1
      exact ⟨_, hdoes.bind (hread.bind (.pure _)), _, _, rfl, names_of_follow hp, rfl, rfl, links_eq h hp⟩

theorem does_opReaddir_names (path : List UInt8) : ∃ r, Does sb latest (opReaddir sb path) (vol sb v) r (vol sb v) ∧
    (vol sb v).names.Lists path (r.map .names) := by
  have hfind := does_pathLookup_names hs h.owned h.named hroot path
  unfold Namespace.Lists
  cases hplace : (vol sb v).names.find path with
  | error e =>
      rw [hplace] at hfind
      exact ⟨_, hfind.bind_error, rfl⟩
  | ok p =>
      rw [hplace] at hfind
      obtain ⟨d, hp, hdoes⟩ := hfind
      have hd := mem_of_follow h.named hp
      have hread := does_inodeRead latest (V := vol sb v) hs (h.owned.inUse hd).1
      dsimp only
      cases hdir : isDir ((vol sb v).inode d).mode with
      | false =>
          have hfile : ¬ (vol sb v).names.IsDirAt p := by
            rw [isDirAt_iff hp, hdir]
            exact Bool.false_ne_true
          refine ⟨.error .enotdir, hdoes.bind (hread.bind ?_), ?_⟩
          · simp only [hdir, Bool.not_false, if_true]
            exact .throw _
          · rw [if_neg hfile]
            rfl
      | true =>
          obtain ⟨names, hlist, hnodup, hmem⟩ := does_listing_names h hd hdir
          refine ⟨.ok (names.map (List.takeWhile (· != 0))), hdoes.bind (hread.bind ?_), ?_⟩
          · simp only [hdir, Bool.not_true, Bool.false_eq_true, if_false]
            exact hlist
          · rw [if_pos ((isDirAt_iff hp).mpr hdir)]
            refine ⟨names, rfl, hnodup, fun name => ?_⟩
            rw [hmem, names_snoc hp]
            constructor
            · rintro ⟨s, l, hl, rfl⟩
              by_cases hdot : l.isDot = true
              · exact (isDot_iff.mp hdot).imp_right .inl
              · rw [(childNamed_eq_some h.named hd).mpr ⟨s, l, hl, rfl, by simpa using hdot, rfl⟩]
                exact .inr (.inr (Option.some_ne_none _))
            · rintro (rfl | rfl | hsome)
              · obtain ⟨s, hs⟩ := h.named.dot hd hdir
                exact ⟨s, _, hs, rfl⟩
              · obtain ⟨s, q, hs, -⟩ := h.named.dotDot hd hdir
                exact ⟨s, _, hs, rfl⟩
              · obtain ⟨node, hnode⟩ := Option.ne_none_iff_exists'.mp hsome
                obtain ⟨c, hc, -⟩ := Option.map_eq_some_iff.mp hnode
                obtain ⟨s, l, hl, hname, -⟩ := (childNamed_eq_some h.named hd).mp hc
                exact ⟨s, l, hl, hname⟩

/-- Whatever the call, the namespace has allowed its reply, and what it has become. -/
theorem step_afterCall {c : UserCall × UInt64} (hproper : c.1.Proper sb v) :
    (vol sb v).names.Step c.1 (answer sb (c.1.program sb c.2) v) (vol sb (afterCall sb v c)).names := by
  obtain ⟨c, now⟩ := c
  suffices hstep : ∃ r V', Does sb latest (c.program sb now) (vol sb v) r V' ∧ (vol sb v).names.Step c r V'.names by
    obtain ⟨r, V', hdoes, hspec⟩ := hstep
    obtain ⟨hr, hV'⟩ := hdoes v rfl
    rw [afterCall, hV']
    exact (show answer sb (c.program sb now) v = r from hr) ▸ hspec
  cases c with
  | getattr path =>
      obtain ⟨r, hdoes, hspec⟩ := does_opGetattr_names hs hroot h path
      exact ⟨_, _, hdoes.map, rfl, hspec⟩
  | readdir path =>
      obtain ⟨r, hdoes, hspec⟩ := does_opReaddir_names hs hroot h path
      exact ⟨_, _, hdoes.map, rfl, hspec⟩
  | read fh size offset =>
      have hdoes := does_opRead latest hs h.owned (h.named.live_iff.mp hproper) size offset
      exact ⟨_, _, hdoes.map, rfl⟩
  | change op =>
      cases op with
      | mkdir path mode =>
          obtain ⟨r, V', hdoes, r', hspec, rfl⟩ := does_opMkdir_names hs hroot h hproper mode now
          refine ⟨_, V', hdoes.map, r', hspec, ?_⟩
          cases r' with
          | ok i => rfl
          | error e => rfl
      | rmdir path =>
          obtain ⟨r, V', hdoes, hspec⟩ := does_opRmdir_names hs hroot h hproper now
          exact ⟨_, V', hdoes.map, r, hspec, rfl⟩
      | create path mode =>
          obtain ⟨r, V', hdoes, hspec⟩ := does_opCreate_names hs hroot h hproper mode now
          exact ⟨_, V', hdoes.map, r, hspec, rfl⟩
      | write fh buf offset =>
          obtain ⟨r, V', hdoes, hspec⟩ := does_write_names hs h hproper now
          exact ⟨_, V', hdoes.map, hspec⟩
      | truncate path fh size =>
          obtain ⟨r, V', hdoes, hspec⟩ := does_opTruncate_names hs hroot h hproper now
          exact ⟨_, V', hdoes.map, hspec⟩
      | unlink path =>
          obtain ⟨r, V', hdoes, hspec⟩ := does_opUnlink_names hs hroot h hproper
          exact ⟨_, V', hdoes.map, r, hspec, rfl⟩

end Calls
end Logfs
