import Logfs.Lib.NamePaths
import Logfs.Unobservable
import Logfs.DirMap

/-!
# The namespace

The file system as its callers see it: absolute paths, each of which names a directory, a file or
nothing, and what the calls do to them. Beside it, the namespace of a volume, which its directories'
entries make.
-/
namespace Logfs
open Interaction NameTree

/-- A directory or a file, under its number. -/
structure Node where
  ino : UInt32
  dir : Bool
  deriving DecidableEq

/-- What the absolute paths name, each a list of components. -/
abbrev Namespace := List (List UInt8) → Option Node

namespace Namespace
variable (T : Namespace)

/-- A new file system. -/
def fresh : Namespace := Function.update (fun _ => none) [] (some ⟨rootIno, true⟩)

def IsDirAt (p : List (List UInt8)) : Prop := (T p).any Node.dir = true

instance (p : List (List UInt8)) : Decidable (T.IsDirAt p) := by unfold IsDirAt; infer_instance

/-- One component further from directory `p`. -/
def enter (p : List (List UInt8)) (name : List UInt8) : Except Errno (List (List UInt8)) :=
  if ¬ T.IsDirAt p then .error .enotdir
  else if name = dotName then .ok p
  else if name = dotDotName then .ok p.dropLast
  else if T (p ++ [name]) = none then .error .enoent
  else .ok (p ++ [name])

def walk (p : List (List UInt8)) : List (List UInt8) → Except Errno (List (List UInt8))
  | [] => .ok p
  | comp :: rest =>
      if nameMax < comp.length then .error .enametoolong
      else match T.enter p comp with
        | .error e => .error e
        | .ok q => walk q rest

/-- The place a path leads to. -/
def find (path : List UInt8) : Except Errno (List (List UInt8)) :=
  if path.head? ≠ some slash then .error .einval else T.walk [] (components path)

/-- The place of a path's parent, and the name there. -/
def place (path : List UInt8) : Except Errno (List (List UInt8) × List UInt8) :=
  match splitParent path with
  | .error e => .error e
  | .ok (parent, name) => (T.find parent).map fun p => (p, name)

/-! ## What the calls do -/

/-- What comes of it at the place the path leads to, if there is one. -/
def AtPlace {α : Type} (path : List UInt8) (Q : List (List UInt8) → List UInt8 → Except Errno α → Namespace → Prop)
    (r : Except Errno α) (T' : Namespace) : Prop :=
  match T.place path with
  | .error e => r = .error e ∧ T' = T
  | .ok (p, name) => Q p name r T'

/-- A new node at `p`; inodes, blocks or entries may have run out. -/
inductive AddsAt (p : List (List UInt8)) (name : List UInt8) (dir : Bool) : Except Errno UInt32 → Namespace → Prop
  | full : AddsAt p name dir (.error .enospc) T
  | notDir (file : ¬ T.IsDirAt p) : AddsAt p name dir (.error .enotdir) T
  | taken (parent : T.IsDirAt p) (there : T (p ++ [name]) ≠ none) : AddsAt p name dir (.error .eexist) T
  | added {i : UInt32} (parent : T.IsDirAt p) (free : T (p ++ [name]) = none)
      (new : ∀ q node, T q = some node → node.ino ≠ i) :
      AddsAt p name dir (.ok i) (Function.update T (p ++ [name]) (some ⟨i, dir⟩))

def Adds (path : List UInt8) (dir : Bool) : Except Errno UInt32 → Namespace → Prop :=
  T.AtPlace path fun p name => T.AddsAt p name dir

/-- The node at `p`, if it is a file, or an empty directory when `dir` is set. -/
inductive RemovesAt (p : List (List UInt8)) (name : List UInt8) (dir : Bool) : Except Errno Unit → Namespace → Prop
  | missing {e : Errno} (no : T.enter p name = .error e) : RemovesAt p name dir (.error e) T
  | notDir {i : UInt32} (wants : dir = true) (there : T (p ++ [name]) = some ⟨i, false⟩) :
      RemovesAt p name dir (.error .enotdir) T
  | notEmpty {c : List UInt8} (wants : dir = true) (parent : T.IsDirAt (p ++ [name]))
      (there : T (p ++ [name] ++ [c]) ≠ none) : RemovesAt p name dir (.error .enotempty) T
  | removed {i : UInt32} (there : T (p ++ [name]) = some ⟨i, dir⟩) (empty : ∀ c, T (p ++ [name] ++ [c]) = none) :
      RemovesAt p name dir (.ok ()) (Function.update T (p ++ [name]) none)

def Removes (path : List UInt8) (dir : Bool) : Except Errno Unit → Namespace → Prop :=
  T.AtPlace path fun p name => T.RemovesAt p name dir

/-- The link count is that of a directory with its subdirectories, or of a file. -/
noncomputable def linksAt (p : List (List UInt8)) (node : Node) : ℕ :=
  if node.dir then 2 + Set.ncard {name | T.IsDirAt (p ++ [name])} else 1

def Stats (path : List UInt8) (r : Except Errno Reply) : Prop :=
  match T.find path with
  | .error e => r = .error e
  | .ok p => ∃ stat node, r = .ok (.attributes stat) ∧ T p = some node ∧ stat.ino = node.ino ∧
      isDir stat.mode = node.dir ∧ stat.nlink.toNat = T.linksAt p node

/-- Names end where a C string does. -/
def Lists (path : List UInt8) (r : Except Errno Reply) : Prop :=
  match T.find path with
  | .error e => r = .error e
  | .ok p =>
      if T.IsDirAt p then ∃ names : List (List UInt8), r = .ok (.names (names.map (List.takeWhile (· != 0)))) ∧
        names.Nodup ∧ ∀ name, name ∈ names ↔ name = dotName ∨ name = dotDotName ∨ T (p ++ [name]) ≠ none
      else r = .error .enotdir

/-- One call. -/
def Step (c : UserCall) (r : Except Errno Reply) (T' : Namespace) : Prop :=
  match c with
  | .change (.mkdir path _) => ∃ r', T.Adds path true r' T' ∧ r = r'.map fun _ => .done
  | .change (.create path _) => ∃ r', T.Adds path false r' T' ∧ r = r'.map .handle
  | .change (.rmdir path) => ∃ r', T.Removes path true r' T' ∧ r = r'.map fun _ => .done
  | .change (.unlink path) => ∃ r', T.Removes path false r' T' ∧ r = r'.map fun _ => .done
  | .change (.write _ _ _) | .change (.truncate _ _ _) | .read _ _ _ => T' = T
  | .getattr path => T' = T ∧ T.Stats path r
  | .readdir path => T' = T ∧ T.Lists path r

/-- The calls, with these replies, lead from the one namespace to the other. -/
inductive Leads : Namespace → List UserCall → List (Except Errno Reply) → Namespace → Prop
  | nil (T : Namespace) : Leads T [] [] T
  | cons {T T' T'' : Namespace} {c : UserCall} {r : Except Errno Reply} {cs : List UserCall}
      {rs : List (Except Errno Reply)} (now : T.Step c r T') (rest : Leads T' cs rs T'') :
      Leads T (c :: cs) (r :: rs) T''

end Namespace

/-! ## The namespace of a volume -/

namespace Vol
variable (V : Vol)

/-- The directory's entry of this name. -/
def lookup (d : UInt32) (name : List UInt8) : Option Link :=
  (slotList.filterMap (V.entry d)).find? fun l => l.name == name

/-- The inode a name other than `.` and `..` leads to. -/
def childNamed (d : UInt32) (name : List UInt8) : Option UInt32 :=
  (V.lookup d name).bind fun l => if l.isDot then none else some l.ino

def node (i : UInt32) : Node := ⟨i, isDir (V.inode i).mode⟩

def names : Namespace := fun p => (follow V.childNamed rootIno p).map V.node

end Vol

section Lookup
variable {V V' : Vol} {live : Set UInt32} {d c : UInt32} {name : List UInt8} {l : Link}

theorem mem_slotList (s : Slot) : s ∈ slotList :=
  List.pair_mem_product.mpr ⟨List.mem_finRange _, List.mem_finRange _⟩

theorem lookup_eq_none : V.lookup d name = none ↔ ∀ s l, V.entry d s = some l → l.name ≠ name := by
  rw [Vol.lookup, List.find?_eq_none]
  simp only [List.mem_filterMap, beq_iff_eq]
  exact ⟨fun h s l hl => h l ⟨s, mem_slotList s, hl⟩, fun h l ⟨s, _, hl⟩ => h s l hl⟩

theorem entry_of_lookup (h : V.lookup d name = some l) : l.name = name ∧ ∃ s, V.entry d s = some l := by
  have hmem := List.mem_of_find?_eq_some h
  obtain ⟨s, -, hs⟩ := List.mem_filterMap.mp hmem
  have hname := List.find?_some h
  exact ⟨by simpa using hname, s, hs⟩

variable (hn : Named V live) (hd : d ∈ live)
include hn hd

theorem lookup_of_entry {s : Slot} (hl : V.entry d s = some l) : V.lookup d l.name = some l := by
  cases hlook : V.lookup d l.name with
  | none => exact absurd rfl (lookup_eq_none.mp hlook s l hl)
  | some m =>
      obtain ⟨hname, t, ht⟩ := entry_of_lookup hlook
      rw [(hn.only hd hl).2 t m ht hname]

theorem childNamed_eq_some : V.childNamed d name = some c ↔
    ∃ s l, V.entry d s = some l ∧ l.name = name ∧ l.isDot = false ∧ l.ino = c := by
  constructor
  · intro h
    obtain ⟨l, hlook, hc⟩ := Option.bind_eq_some_iff.mp h
    obtain ⟨hname, s, hs⟩ := entry_of_lookup hlook
    split_ifs at hc with hdot
    exact ⟨s, l, hs, hname, by simpa using hdot, Option.some.inj hc⟩
  · rintro ⟨s, l, hl, rfl, hdot, rfl⟩
    rw [Vol.childNamed, lookup_of_entry hn hd hl, Option.bind_some, hdot]
    rfl

theorem childNamed_eq_none (h : ∀ s l, V.entry d s = some l → l.name = name → l.isDot = true) :
    V.childNamed d name = none := by
  by_contra hne
  obtain ⟨c, hc⟩ := Option.ne_none_iff_exists'.mp hne
  obtain ⟨s, l, hl, hname, hdot, -⟩ := (childNamed_eq_some hn hd).mp hc
  rw [h s l hl hname] at hdot
  cases hdot

theorem childNamed_leaf (h : ∀ s, V.child d s = none) (name : List UInt8) : V.childNamed d name = none := by
  refine childNamed_eq_none hn hd fun s l hl _ => ?_
  by_contra hdot
  have hchild := child_of_entry hl (by simpa using hdot)
  rw [h s] at hchild
  cases hchild

end Lookup

theorem Named.rooted {V : Vol} {live : Set UInt32} (h : Named V live) : Rooted rootIno live V.childNamed := by
  have hchild : ∀ {d name c}, d ∈ live → V.childNamed d name = some c →
      ∃ s, V.child d s = some c ∧ ∃ l, V.entry d s = some l ∧ l.name = name := by
    intro d name c hd hc
    obtain ⟨s, l, hl, hname, hdot, rfl⟩ := (childNamed_eq_some h hd).mp hc
    exact ⟨s, child_of_entry hl hdot, l, hl, hname⟩
  refine ⟨h.tree.root_mem, ?_, ?_, ?_, ?_⟩
  · intro d name c hd hc
    obtain ⟨s, hs, -⟩ := hchild hd hc
    exact h.tree.closed hd hs
  · intro d name hd hc
    obtain ⟨s, hs, -⟩ := hchild hd hc
    exact h.tree.root_free hd hs
  · intro d d' name name' c hd hd' hc hc'
    obtain ⟨s, hs, l, hl, rfl⟩ := hchild hd hc
    obtain ⟨s', hs', l', hl', rfl⟩ := hchild hd' hc'
    obtain ⟨rfl, rfl⟩ := h.tree.once hd hd' hs hs'
    rw [hl] at hl'
    cases hl'
    exact ⟨rfl, rfl⟩
  · intro c hc
    have hreach := h.tree.reached hc
    induction hreach with
    | refl => exact .refl
    | tail hbefore hlast ih =>
        obtain ⟨s, hs⟩ := hlast
        have hd := h.tree.mem_of_reached hbefore
        obtain ⟨l, hl, hdot, hino⟩ := child_eq_some hs
        exact (ih hd).tail ⟨l.name, (childNamed_eq_some h hd).mpr ⟨s, l, hl, rfl, hdot, hino⟩⟩

/-! ## Changes of a volume -/

section Changes
variable {V V' : Vol} {live : Set UInt32} {d c : UInt32} {p : List (List UInt8)} {name : List UInt8}

theorem lookup_congr (h : V'.entry d = V.entry d) : V'.lookup d = V.lookup d := by
  ext1 name
  rw [Vol.lookup, Vol.lookup, h]

theorem childNamed_congr (h : V'.entry d = V.entry d) : V'.childNamed d = V.childNamed d := by
  ext1 name
  rw [Vol.childNamed, Vol.childNamed, lookup_congr h]

variable (h : Named V live)
include h

theorem names_congr (hentry : ∀ d ∈ live, V'.entry d = V.entry d)
    (hmode : ∀ d ∈ live, (V'.inode d).mode = (V.inode d).mode) : V'.names = V.names := by
  ext1 p
  rw [Vol.names, Vol.names, h.rooted.follow_congr (fun e he => childNamed_congr (hentry e he)) h.tree.root_mem]
  refine Option.map_congr fun i hi => ?_
  rw [Vol.node, Vol.node, hmode i (h.rooted.follow_mem h.tree.root_mem hi)]

variable (hp : follow V.childNamed rootIno p = some d)
include hp

theorem mem_of_follow : d ∈ live := h.rooted.follow_mem h.tree.root_mem hp

omit h in
theorem names_of_follow : V.names p = some (V.node d) := by
  rw [Vol.names, hp]
  rfl

omit h in
theorem isDirAt_iff : V.names.IsDirAt p ↔ isDir (V.inode d).mode = true := by
  rw [Namespace.IsDirAt, names_of_follow hp]
  rfl

omit h in
theorem names_snoc (name : List UInt8) : V.names (p ++ [name]) = (V.childNamed d name).map V.node := by
  rw [Vol.names, follow_snoc, hp, Option.bind_some]

omit h hp in
/-- A change of one slot matters only to the names it has or has had. -/
theorem childNamed_edit {live' : Set UInt32} (hn : Named V live) (hn' : Named V' live') (hd : d ∈ live)
    (hd' : d ∈ live') {s : Slot} (hothers : ∀ t, t ≠ s → V'.entry d t = V.entry d t)
    (hold : ∀ l, V.entry d s = some l → l.name ≠ name) (hnew : ∀ l, V'.entry d s = some l → l.name ≠ name) :
    V'.childNamed d name = V.childNamed d name := by
  have hentry : ∀ t l, l.name = name → (V'.entry d t = some l ↔ V.entry d t = some l) := by
    intro t l hl
    by_cases hts : t = s
    · subst hts
      exact ⟨fun h => absurd hl (hnew l h), fun h => absurd hl (hold l h)⟩
    · rw [hothers t hts]
  refine Option.ext fun c => ?_
  rw [childNamed_eq_some hn' hd', childNamed_eq_some hn hd]
  constructor
  · rintro ⟨t, l, hl, hname, hrest⟩
    exact ⟨t, l, (hentry t l hname).mp hl, hname, hrest⟩
  · rintro ⟨t, l, hl, hname, hrest⟩
    exact ⟨t, l, (hentry t l hname).mpr hl, hname, hrest⟩

/-- The one place at which a new inode's entry is seen. -/
theorem names_added {s : Slot} {i : UInt32} {ty : UInt8} (hadded : Added V V' (insert i live) d s ⟨i, ty, name⟩)
    (hi : i ∉ live) (hdot : name ≠ dotName ∧ name ≠ dotDotName) (hfresh : ∀ t l, V.entry d t = some l → l.name ≠ name)
    (hlone : Lone V i d) (hn' : Named V' (insert i live)) :
    V'.names = Function.update V.names (p ++ [name]) (some ⟨i, isDir (V.inode i).mode⟩) := by
  have hd := mem_of_follow h hp
  have hd' : d ∈ insert i live := Set.mem_insert_of_mem _ hd
  have hid : i ≠ d := fun he => hi (he ▸ hd)
  have hnode : V'.node = V.node := by
    ext1 j
    rw [Vol.node, Vol.node, hadded.edit.mode]
  suffices hleads : ∀ q, follow V'.childNamed rootIno q =
      if q = p ++ [name] then some i else follow V.childNamed rootIno q by
    ext1 q
    rw [Vol.names, hleads q, hnode, Function.update_apply]
    split
    · rfl
    · rfl
  apply h.rooted.follow_insert hp
  · exact childNamed_eq_none h hd fun t l hl hname => absurd hname (hfresh t l hl)
  · exact (childNamed_eq_some hn' hd').mpr ⟨s, _, hadded.edit.slot, rfl, isDot_of_proper hdot, rfl⟩
  · intro e he m hne
    by_cases hed : e = d
    · subst hed
      refine childNamed_edit h hn' he hd' (fun t hts => hadded.edit.others e hd' t fun hat => hts hat.2) ?_ ?_
      · intro l hl
        rw [hadded.empty] at hl
        cases hl
      · intro l hl
        rw [hadded.edit.slot] at hl
        cases hl
        exact fun hm => hne ⟨rfl, hm.symm⟩
    · exact congrFun (childNamed_congr (funext fun t =>
        hadded.edit.others e (Set.mem_insert_of_mem _ he) t fun hat => hed hat.1)) m
  · refine childNamed_leaf hn' (Set.mem_insert _ _) fun t => ?_
    rw [child_of_edit (hadded.edit.others i (Set.mem_insert _ _) t fun hat => hid hat.1)]
    exact hlone.child t

/-- The one place from which a leaf's entry is gone. -/
theorem names_removed {s : Slot} {l : Link} (hl : V.entry d s = some l) (hdot : l.isDot = false)
    (hleaf : ∀ t, V.child l.ino t = none) (hedit : Edit V V' live d s none) (hn' : Named V' (live \ {l.ino})) :
    V'.names = Function.update V.names (p ++ [l.name]) none := by
  have hd := mem_of_follow h hp
  have hd' : d ∈ live \ {l.ino} := by
    refine ⟨hd, fun he => ?_⟩
    have hself := child_of_entry hl hdot
    rw [← Set.mem_singleton_iff.mp he] at hself
    exact h.tree.irrefl hd hself
  have hnode : V'.node = V.node := by
    ext1 j
    rw [Vol.node, Vol.node, hedit.mode]
  suffices hleads : ∀ q, follow V'.childNamed rootIno q =
      if q = p ++ [l.name] then none else follow V.childNamed rootIno q by
    ext1 q
    rw [Vol.names, hleads q, hnode, Function.update_apply]
    split
    · rfl
    · rfl
  apply h.rooted.follow_erase hp ((childNamed_eq_some h hd).mpr ⟨s, l, hl, rfl, hdot, rfl⟩)
    (childNamed_leaf h (h.entry_mem hd hl) hleaf)
  · refine childNamed_eq_none hn' hd' fun t m hm hname => ?_
    have hts : t ≠ s := by
      rintro rfl
      rw [hedit.slot] at hm
      cases hm
    rw [hedit.others d hd t fun hat => hts hat.2] at hm
    exact absurd (h.unique hd hm hl hname) hts
  · intro e he hec m hne
    by_cases hed : e = d
    · subst hed
      refine childNamed_edit h hn' he hd' (fun t hts => hedit.others e he t fun hat => hts hat.2) ?_ ?_
      · intro k hk
        rw [hl] at hk
        cases hk
        exact fun hm => hne ⟨rfl, hm.symm⟩
      · intro k hk
        rw [hedit.slot] at hk
        cases hk
    · exact congrFun (childNamed_congr (funext fun t => hedit.others e he t fun hat => hed hat.1)) m

end Changes
end Logfs
