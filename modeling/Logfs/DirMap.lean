import Logfs.FailsUnseen
import Logfs.Lib.SlotTable

/-!
# Directories as maps

A directory binds names to inode numbers and types. `logfs_dir_add` and `logfs_dir_remove` do to its
slots what an insertion and a removal do to a map, and the other functions that walk a directory
see that map, wherever the slots are.
-/
namespace Logfs
open Interaction WriteCache ByteBuffer SlotTable Transition

/-! ## The reference -/

abbrev DirMap := List UInt8 → Option (UInt32 × UInt8)

/-- A name as a C string that fits a slot. -/
def ValidName (name : List UInt8) : Prop := 1 ≤ name.length ∧ name.length ≤ nameMax ∧ 0 ∉ name

instance (name : List UInt8) : Decidable (ValidName name) := by
  unfold ValidName
  infer_instance

inductive DirCall
  | add (name : List UInt8) (ino : UInt32) (type : UInt8)
  | remove (name : List UInt8)

namespace DirCall

def Valid : DirCall → Prop
  | .add name ino _ => ValidName name ∧ ino ≠ 0
  | .remove name => ValidName name

def program (sb : Super) (d : UInt32) : DirCall → TxnEM Unit
  | .add name ino type => dirAdd sb d name ino type
  | .remove name => dirRemove sb d name

/-- What the call answers and makes of a map; `room` says whether there is a place for a new binding. -/
def reference (room : Prop) [Decidable room] (m : DirMap) : DirCall → Except Errno Unit × DirMap
  | .add name ino type =>
      if m name ≠ none then (.error .eexist, m)
      else if room then (.ok (), Function.update m name (some (ino, type)))
      else (.error .enospc, m)
  | .remove name =>
      if m name = none then (.error .enoent, m) else (.ok (), Function.update m name none)

end DirCall

/-- A slot is free in the blocks the directory has, or it may have another block and one is free. -/
def HasRoom (sb : Super) (V : Vol) (d : UInt32) : Prop :=
  (∃ s : Slot, (V.inode d).blocks s.1 ≠ 0 ∧ (direntAt (V.block ((V.inode d).blocks s.1)) s.2).ino = 0) ∨
    (∃ k, (V.inode d).blocks k = 0) ∧ ∃ b, IsData sb b ∧ V.blockUsed b = false

open Classical in
/-- A call on the image, beside the reference on the map. -/
noncomputable def dirStep (sb : Super) (d : UInt32) (s : Image × DirMap) (c : DirCall) : Option (Image × DirMap) :=
  some ((run (viewTxn sb.totalBlocks latest) (c.program sb d).run s.1).2,
    (c.reference (HasRoom sb (vol sb s.1) d) s.2).2)

open Classical in
/-- What the directory's functions answer is what the map says. -/
structure ActsAs (sb : Super) (d : UInt32) (s : Image × DirMap) : Prop where
  calls : ∀ c : DirCall, c.Valid →
    answer sb (c.program sb d) s.1 = (c.reference (HasRoom sb (vol sb s.1) d) s.2).1
  lookup : ∀ name, ValidName name → answer sb (dirLookup sb d name) s.1 = (s.2 name).elim (.error .enoent) .ok
  listing : ∀ path, answer sb (pathLookup sb path) s.1 = .ok d → ∃ names,
    answer sb (opReaddir sb path) s.1 = .ok names ∧ names.Nodup ∧ ∀ name, name ∈ names ↔ (s.2 name).isSome
  empty : ∃ b, answer sb (dirIsEmpty sb d) s.1 = .ok b ∧
    (b = true ↔ ∀ name, (s.2 name).isSome → name = dotName ∨ name = dotDotName)

/-! ## Directories -/

/-- Its blocks are distinct, its own, and have no gap. -/
structure DirOk (sb : Super) (V : Vol) (d : UInt32) : Prop where
  ino : IsIno sb d
  dir : isDir (V.inode d).mode = true
  gapless : ∀ {k l}, l ≤ k → (V.inode d).blocks k ≠ 0 → (V.inode d).blocks l ≠ 0
  apart : ∀ {k l}, (V.inode d).blocks k = (V.inode d).blocks l → (V.inode d).blocks k ≠ 0 → k = l
  placed : ∀ {k}, (V.inode d).blocks k ≠ 0 →
    IsData sb ((V.inode d).blocks k) ∧ V.blockUsed ((V.inode d).blocks k) = true

/-- The entries in use have valid and distinct names. -/
structure NamesOk (V : Vol) (d : UInt32) : Prop where
  valid : ∀ {s l}, V.entry d s = some l → ValidName l.name
  distinct : ∀ {s t l m}, V.entry d s = some l → V.entry d t = some m → l.name = m.name → s = t

/-- The slots with their bindings. -/
def Vol.bindings (V : Vol) (d : UInt32) (s : Slot) : Option (List UInt8 × UInt32 × UInt8) :=
  (V.entry d s).map fun l => (l.name, l.ino, l.fileType)

/-- The directory's slots are the map. -/
structure Keeping (sb : Super) (V : Vol) (d : UInt32) (m : DirMap) : Prop where
  ok : DirOk sb V d
  valid : ∀ {s l}, V.entry d s = some l → ValidName l.name
  represents : Represents (V.bindings d) m

variable {sb : Super} {V V' : Vol} {d : UInt32} {m : DirMap} {name : List UInt8}

theorem bindings_eq_some {s : Slot} {ino : UInt32} {type : UInt8} :
    V.bindings d s = some (name, ino, type) ↔ V.entry d s = some ⟨ino, type, name⟩ := by
  rw [Vol.bindings, Option.map_eq_some_iff]
  constructor
  · rintro ⟨l, hl, heq⟩
    cases heq
    exact hl
  · exact fun hl => ⟨_, hl, rfl⟩

/-- A directory whose names are in order keeps some map. -/
theorem NamesOk.exists_keeping (h : NamesOk V d) (hok : DirOk sb V d) : ∃ m, Keeping sb V d m := by
  have hunique : ∀ {s t : Slot} {k a b}, V.bindings d s = some (k, a) → V.bindings d t = some (k, b) → s = t := by
    rintro s t k ⟨ino, ty⟩ ⟨ino', ty'⟩ hs ht
    exact h.distinct (bindings_eq_some.mp hs) (bindings_eq_some.mp ht) rfl
  obtain ⟨m, hm⟩ := exists_represents hunique
  exact ⟨m, hok, h.valid, hm⟩

/-! ### Changes of one slot -/

/-- One slot of the directory has changed. -/
structure Slotted (sb : Super) (V V' : Vol) (d : UInt32) (s : Slot) (new : Option Link) : Prop where
  ok : DirOk sb V' d
  entry : V'.entry d = Function.update (V.entry d) s new

theorem Slotted.bindings {s : Slot} {new : Option Link} (h : Slotted sb V V' d s new) :
    V'.bindings d = Function.update (V.bindings d) s (new.map fun l => (l.name, l.ino, l.fileType)) := by
  funext t
  rw [Vol.bindings, h.entry, Function.update_apply, Function.update_apply]
  split <;> rfl

theorem Keeping.insert (h : Keeping sb V d m) {s : Slot} {ino : UInt32} {type : UInt8}
    (hslot : Slotted sb V V' d s (some ⟨ino, type, name⟩)) (hfree : V.entry d s = none) (hnew : m name = none)
    (hname : ValidName name) : Keeping sb V' d (Function.update m name (some (ino, type))) where
  ok := hslot.ok
  valid := by
    intro t l hl
    rw [hslot.entry, Function.update_apply] at hl
    split at hl
    · cases hl
      exact hname
    · exact h.valid hl
  represents := by
    rw [hslot.bindings]
    exact h.represents.insert (by rw [Vol.bindings, hfree]; rfl) hnew

theorem Keeping.erase (h : Keeping sb V d m) {s : Slot} {l : Link} (hslot : Slotted sb V V' d s none)
    (hl : V.entry d s = some l) : Keeping sb V' d (Function.update m l.name none) where
  ok := hslot.ok
  valid := by
    intro t l' hl'
    rw [hslot.entry, Function.update_apply] at hl'
    split at hl'
    · cases hl'
    · exact h.valid hl'
  represents := by
    rw [hslot.bindings]
    exact h.represents.erase (a := (l.ino, l.fileType)) (bindings_eq_some.mpr hl)

theorem DirOk.setBlock (h : DirOk sb V d) (b : UInt64) (data : Block) : DirOk sb (V.setBlock b data) d where
  ino := h.ino
  dir := h.dir
  gapless := h.gapless
  apart := h.apart
  placed := h.placed

/-- A store into a block of the directory that leaves its other slots alone. -/
theorem DirOk.slotted (h : DirOk sb V d) {k : Fin ndirBlocks} (hb : (V.inode d).blocks k ≠ 0) {data : Block}
    {e : Fin direntsPerBlock} (hrest : ∀ e' : Fin direntsPerBlock, e' ≠ e →
      direntAt data e' = direntAt (V.block ((V.inode d).blocks k)) e') :
    Slotted sb V (V.setBlock ((V.inode d).blocks k) data) d (k, e) (direntAt data e).link where
  ok := h.setBlock _ _
  entry := by
    funext ⟨k', e'⟩
    rw [Function.update_apply]
    by_cases hk : k' = k
    · subst hk
      rw [entry_setBlock_self h.dir hb]
      by_cases he : e' = e
      · rw [if_pos (by rw [he]), he]
      · rw [if_neg fun heq => he (congrArg Prod.snd heq), entry_of_dir h.dir hb, hrest e' he]
    · rw [if_neg fun heq => hk (congrArg Prod.fst heq)]
      unfold Vol.entry
      simp only [Vol.inode_setBlock, Vol.block_setBlock]
      by_cases hold : isDir (V.inode d).mode = true ∧ (V.inode d).blocks k' ≠ 0
      · rw [if_pos hold, if_pos hold, if_neg fun heq => hk (h.apart heq hold.2)]
      · rw [if_neg hold, if_neg hold]

section Grow
variable {k : Fin ndirBlocks} {b : UInt64} {data : Block}

theorem DirOk.grow (h : DirOk sb V d) (hs : RegionsSound sb) (hb : IsData sb b) (hfree : V.blockUsed b = false)
    (hfirst : ∀ l, l < k → (V.inode d).blocks l ≠ 0) : DirOk sb (V.grow d k b data) d := by
  have hblocks : ((V.grow d k b data).inode d).blocks = Function.update (V.inode d).blocks k b := by simp [Vol.grow]
  have hne : ∀ {l}, (V.inode d).blocks l ≠ 0 → (V.inode d).blocks l ≠ b := by
    rintro l hl rfl
    have hused := (h.placed hl).2
    rw [hfree] at hused
    cases hused
  refine ⟨h.ino, by simpa [Vol.grow] using h.dir, ?_, ?_, ?_⟩
  · intro l l' hle hl
    rw [hblocks, Function.update_apply] at hl ⊢
    split
    · exact hb.ne_zero hs
    · next hne' =>
        split at hl
        · next heq => exact hfirst l' (lt_of_le_of_ne (heq ▸ hle) hne')
        · exact h.gapless hle hl
  · intro l l' heq hl
    rw [hblocks, Function.update_apply] at hl heq
    rw [Function.update_apply] at heq
    split at heq
    · next hlk =>
        split at heq
        · next hlk' => rw [hlk, hlk']
        · exact absurd heq.symm (hne (heq ▸ hb.ne_zero hs))
    · next hlk =>
        rw [if_neg hlk] at hl
        split at heq
        · exact absurd heq (hne hl)
        · exact h.apart heq hl
  · intro l hl
    have hused : ∀ c, (V.grow d k b data).blockUsed c = if c = b then true else V.blockUsed c := fun c => by
      simp [Vol.grow]
    rw [hblocks, Function.update_apply] at hl ⊢
    rw [hused]
    split
    · exact ⟨hb, if_pos rfl⟩
    · next hlk =>
        rw [if_neg hlk] at hl
        rw [if_neg (hne hl)]
        exact h.placed hl

/-- The entry goes to the first slot of the new block. -/
theorem DirOk.slotted_grow (h : DirOk sb V d) (hs : RegionsSound sb) (hb : IsData sb b) (hfree : V.blockUsed b = false)
    (hzero : (V.inode d).blocks k = 0) (hfirst : ∀ l, l < k → (V.inode d).blocks l ≠ 0) {ino : UInt32} {type : UInt8}
    (hino : ino ≠ 0) (hname : name.length ≤ nameMax) :
    Slotted sb V (V.grow d k b (setDirent zeroBlock 0 ino type name)) d (k, ⟨0, by decide⟩)
      (some ⟨ino, type, name⟩) where
  ok := h.grow hs hb hfree hfirst
  entry := by
    have hblocks : ((V.grow d k b (setDirent zeroBlock 0 ino type name)).inode d).blocks =
        Function.update (V.inode d).blocks k b := by simp [Vol.grow]
    have hmode : ((V.grow d k b (setDirent zeroBlock 0 ino type name)).inode d).mode = (V.inode d).mode := by
      simp [Vol.grow]
    have hblock : ∀ c, (V.grow d k b (setDirent zeroBlock 0 ino type name)).block c =
        if c = b then setDirent zeroBlock 0 ino type name else V.block c := fun c => by simp [Vol.grow]
    funext s
    obtain ⟨k', e'⟩ := s
    rw [Function.update_apply]
    unfold Vol.entry
    rw [hmode, hblocks, Function.update_apply]
    by_cases hk : k' = k
    · rw [if_pos hk, if_pos ⟨h.dir, hb.ne_zero hs⟩, hblock, if_pos rfl]
      by_cases he : e' = ⟨0, by decide⟩
      · rw [if_pos (by rw [hk, he]), he]
        exact link_setDirent (by decide) hino hname
      · rw [if_neg fun heq => he (congrArg Prod.snd heq),
          direntAt_setDirent_of_ne _ _ _ hname fun heq => he (Fin.ext heq), link_of_empty (direntAt_zeroBlock_ino _),
          if_neg]
        rintro ⟨-, hne⟩
        exact hne (hk ▸ hzero)
    · rw [if_neg hk, if_neg fun heq => hk (congrArg Prod.fst heq)]
      by_cases hold : isDir (V.inode d).mode = true ∧ (V.inode d).blocks k' ≠ 0
      · rw [if_pos hold, if_pos hold, hblock, if_neg]
        intro heq
        have hused := (h.placed hold.2).2
        rw [heq, hfree] at hused
        cases hused
      · rw [if_neg hold, if_neg hold]

end Grow
/-! ## Searches -/

theorem DirOk.blocks_data (h : DirOk sb V d) : ∀ b ∈ List.ofFn (V.inode d).blocks, b ≠ 0 → IsData sb b := by
  intro b hb hne
  obtain ⟨k, rfl⟩ := (List.mem_ofFn' _ _).mp hb
  exact (h.placed hne).1

/-- The search by name finds the slot of the binding, if there is one. -/
theorem Keeping.scan_named (h : Keeping sb V d m) (hname : name.length ≤ nameMax) :
    V.scan (Dirent.isNamed name) (List.ofFn (V.inode d).blocks) = none ∧ m name = none ∨
      ∃ s : Slot, ∃ ent, V.scan (Dirent.isNamed name) (List.ofFn (V.inode d).blocks) =
          some ((V.inode d).blocks s.1, s.2.val, ent) ∧ (V.inode d).blocks s.1 ≠ 0 ∧
        V.entry d s = some ⟨ent.ino, ent.fileType, name⟩ ∧ m name = some (ent.ino, ent.fileType) := by
  cases hscan : V.scan (Dirent.isNamed name) (List.ofFn (V.inode d).blocks) with
  | none =>
      refine .inl ⟨rfl, h.represents.eq_none_iff.mpr ?_⟩
      rintro s ⟨ino, type⟩ hs
      obtain ⟨-, hne, hlink⟩ := entry_eq_some (bindings_eq_some.mp hs)
      have hfalse := scan_no_slot hscan fun _ hle => h.ok.gapless hle hne
      rw [named_of_link (l := ⟨ino, type, name⟩) (length_direntAt_name _ _) hname hlink] at hfalse
      cases hfalse
  | some r =>
      obtain ⟨b, e, ent⟩ := r
      obtain ⟨s, rfl, rfl, hne, hl⟩ := scan_named_some h.ok.dir hname hscan
      exact .inr ⟨s, ent, rfl, hne, hl, h.represents.sound (bindings_eq_some.mpr hl)⟩

section Calls
variable (hs : RegionsSound sb) (h : Keeping sb V d m)
include hs h

theorem Keeping.does_dirLookup (hname : ValidName name) :
    Does sb latest (dirLookup sb d name) V ((m name).elim (.error .enoent) .ok) V := by
  have hlen : ¬ (name.length = 0 ∨ nameMax < name.length) := by
    have := hname.1
    have := hname.2.1
    omega
  refine (does_inodeRead latest hs h.ok.ino).bind ?_
  simp only [h.ok.dir, Bool.not_true, Bool.false_eq_true, if_false, if_neg hlen]
  have hfind := does_findEntry latest (V := V) (p := Dirent.isNamed name) h.ok.blocks_data
  rcases h.scan_named hname.2.1 with ⟨hscan, hm⟩ | ⟨s, ent, hscan, -, -, hm⟩
  · rw [hscan] at hfind
    rw [hm]
    exact hfind.bind (.throw _)
  · rw [hscan] at hfind
    rw [hm]
    exact hfind.bind (.pure _)

theorem Keeping.does_dirRemove (hname : ValidName name) :
    m name = none ∧ Does sb latest (dirRemove sb d name) V (.error .enoent) V ∨
      m name ≠ none ∧ ∃ V', Does sb latest (dirRemove sb d name) V (.ok ()) V' ∧
        Keeping sb V' d (Function.update m name none) := by
  have hread := does_inodeRead latest (V := V) hs h.ok.ino
  have hfind := does_findEntry latest (V := V) (p := Dirent.isNamed name) h.ok.blocks_data
  rcases h.scan_named hname.2.1 with ⟨hscan, hm⟩ | ⟨s, ent, hscan, hne, hl, hm⟩
  · rw [hscan] at hfind
    refine .inl ⟨hm, hread.bind ?_⟩
    simp only [h.ok.dir, Bool.not_true, Bool.false_eq_true, if_false]
    exact hfind.bind (.throw _)
  · rw [hscan] at hfind
    have hdata := (h.ok.placed hne).1
    have hslot : Slotted sb V (V.setBlock ((V.inode d).blocks s.1)
        (store (V.block ((V.inode d).blocks s.1)) (64 * s.2.val) (0 : UInt32))) d (s.1, s.2) _ :=
      h.ok.slotted hne fun e' he => direntAt_clear_of_ne _ fun heq => he (Fin.ext heq)
    rw [link_of_empty (by rw [direntAt_clear _ s.2.isLt])] at hslot
    refine .inr ⟨by rw [hm]; simp, _, hread.bind ?_, h.erase hslot hl⟩
    simp only [h.ok.dir, Bool.not_true, Bool.false_eq_true, if_false]
    exact hfind.bind ((does_getWriteAccess hdata).bind (does_stage hdata hs _))

theorem Keeping.does_dirIsEmpty : ∃ b, Does sb latest (dirIsEmpty sb d) V (.ok b) V ∧
    (b = true ↔ ∀ name, (m name).isSome → name = dotName ∨ name = dotDotName) := by
  have hfind := does_findEntry latest (V := V) (p := Dirent.isProper) h.ok.blocks_data
  refine ⟨(V.scan Dirent.isProper (List.ofFn (V.inode d).blocks)).isNone,
    (does_inodeRead latest hs h.ok.ino).bind ?_, ?_⟩
  · simp only [h.ok.dir, Bool.not_true, Bool.false_eq_true, if_false]
    exact hfind.bind (.pure _)
  · rw [Option.isNone_iff_eq_none]
    constructor
    · intro hnone name hm
      obtain ⟨s, ⟨ino, type⟩, hb⟩ := h.represents.isSome_iff.mp hm
      obtain ⟨-, hne, hlink⟩ := entry_eq_some (bindings_eq_some.mp hb)
      have hfalse := scan_no_slot hnone fun _ hle => h.ok.gapless hle hne
      by_contra hdot
      obtain ⟨hnot, hnot'⟩ := not_or.mp hdot
      unfold Dirent.link at hlink
      split_ifs at hlink with hino
      cases hlink
      rw [(isProper_iff (length_direntAt_name _ _)).mpr ⟨hino, hnot, hnot'⟩] at hfalse
      cases hfalse
    · intro hall
      cases hscan : V.scan Dirent.isProper (List.ofFn (V.inode d).blocks) with
      | none => rfl
      | some r =>
          obtain ⟨b, e, ent⟩ := r
          obtain ⟨s, rfl, rfl, hne, rfl, hp⟩ := scan_slot hscan
          obtain ⟨hino, hnot, hnot'⟩ := (isProper_iff (length_direntAt_name _ _)).mp hp
          have hentry := entry_of_dir (s := s) h.ok.dir hne
          rw [Dirent.link, if_neg hino] at hentry
          have hbound := h.represents.isSome_iff.mpr ⟨s, _, bindings_eq_some.mpr hentry⟩
          exact absurd (hall _ hbound) (not_or.mpr ⟨hnot, hnot'⟩)

end Calls

/-! ## The new binding -/

theorem nextBlock_eq_none (hs : RegionsSound sb) :
    V.nextBlock sb = none ↔ ¬ ∃ b, IsData sb b ∧ V.blockUsed b = false := by
  rw [Vol.nextBlock, Option.map_eq_none_iff, List.find?_eq_none]
  constructor
  · rintro hnone ⟨b, hb, hfree⟩
    have hreg := hs.regions
    have hlast : sb.dataStart ≤ sb.totalBlocks := UInt64.le_iff_toNat_le.mpr hreg.2.2.2
    have hle := UInt64.le_iff_toNat_le.mp hb.1
    have hlt := UInt64.lt_iff_toNat_lt.mp hb.2
    have hmem : (b - sb.dataStart).toNat ∈ blockBits sb := by
      rw [blockBits, List.mem_range, UInt64.toNat_sub_of_le _ _ hb.1, UInt64.toNat_sub_of_le _ _ hlast]
      omega
    have hnumber : sb.dataStart + UInt64.ofNat (b - sb.dataStart).toNat = b := by
      rw [UInt64.ofNat_toNat, add_sub_cancel]
    have hused := hnone _ hmem
    rw [hnumber, hfree] at hused
    exact hused rfl
  · intro hall k hk
    have hdata := (blockBit_number hs hk).1
    simpa using fun hfree => hall ⟨_, hdata, hfree⟩

section Add
variable (hs : RegionsSound sb) (h : Keeping sb V d m) {ino : UInt32} (hino : ino ≠ 0) {type : UInt8}
include hs h hino

/-- The indices tried before have blocks without a free slot. -/
theorem Keeping.does_dirAddLoop (hname : ValidName name) (hnew : m name = none) {ks : List (Fin ndirBlocks)}
    (hsorted : ks.Pairwise (· < ·)) (hahead : ∀ k, (V.inode d).blocks k = 0 → k ∈ ks)
    (hfull : ∀ s : Slot, s.1 ∉ ks → (direntAt (V.block ((V.inode d).blocks s.1)) s.2).ino ≠ 0) :
    ¬ HasRoom sb V d ∧ Does sb latest (dirAddLoop sb d (V.inode d) name ino type ks) V (.error .enospc) V ∨
      HasRoom sb V d ∧ ∃ V', Does sb latest (dirAddLoop sb d (V.inode d) name ino type ks) V (.ok ()) V' ∧
        Keeping sb V' d (Function.update m name (some (ino, type))) := by
  induction ks with
  | nil =>
      refine .inl ⟨?_, .throw _⟩
      rintro (⟨s, -, hfree⟩ | ⟨⟨k, hk⟩, -⟩)
      · exact hfull s List.not_mem_nil hfree
      · cases hahead k hk
  | cons k ks ih =>
      obtain ⟨hleast, hsorted⟩ := List.pairwise_cons.mp hsorted
      by_cases hzero : (V.inode d).blocks k = 0
      · cases hnext : V.nextBlock sb with
        | none =>
            refine .inl ⟨?_, does_dirAddLoop_full hs hzero hnext⟩
            rintro (⟨s, hne, hfree⟩ | ⟨-, hfree⟩)
            · -- the blocks behind a gap would have to be there
              refine hfull s (fun hmem => ?_) hfree
              have hle : k ≤ s.1 := by
                rcases List.mem_cons.mp hmem with heq | hmem
                · exact heq.ge
                · exact (hleast _ hmem).le
              exact h.ok.gapless hle hne hzero
            · exact (nextBlock_eq_none hs).mp hnext hfree
        | some b =>
            obtain ⟨hb, hfree⟩ := nextBlock_free hs hnext
            have hslot : Slotted sb V (V.grow d k b (setDirent zeroBlock 0 ino type name)) d (k, ⟨0, by decide⟩) _ :=
              h.ok.slotted_grow hs hb hfree hzero (ahead_first hahead hleast) hino hname.2.1
            refine .inr ⟨.inr ⟨⟨k, hzero⟩, b, hb, hfree⟩, _, does_dirAddLoop_grow hs h.ok.ino rfl hzero hnext,
              h.insert hslot ?_ hnew hname⟩
            rw [Vol.entry, if_neg]
            rintro ⟨-, hne⟩
            exact hne hzero
      · have hb := (h.ok.placed hzero).1
        cases hfind : findInBlock (fun ent => ent.ino == 0) (V.block ((V.inode d).blocks k)) with
        | none =>
            have hfull' : ∀ s : Slot, s.1 ∉ ks → (direntAt (V.block ((V.inode d).blocks s.1)) s.2).ino ≠ 0 := by
              intro s hnot
              by_cases hk : s.1 = k
              · have hused := findInBlock_none hfind s.2.isLt
                rw [hk]
                simpa using hused
              · exact hfull s fun hmem => (List.mem_cons.mp hmem).elim hk hnot
            rcases ih hsorted (ahead_next hahead hzero) hfull' with ⟨hroom, hrest⟩ | ⟨hroom, V', hrest, hkeep⟩
            · exact .inl ⟨hroom, does_dirAddLoop_next hzero hb hfind hrest⟩
            · exact .inr ⟨hroom, V', does_dirAddLoop_next hzero hb hfind hrest, hkeep⟩
        | some e =>
            obtain ⟨he, hempty⟩ := findInBlock_some hfind
            have hfree : (direntAt (V.block ((V.inode d).blocks k)) e).ino = 0 := by simpa using hempty
            have hslot : Slotted sb V (V.setBlock ((V.inode d).blocks k)
                (reuseDirent (V.block ((V.inode d).blocks k)) e ino type name)) d (k, ⟨e, he⟩) _ :=
              h.ok.slotted hzero fun e' hne =>
                direntAt_reuseDirent_of_ne _ _ _ hname.2.1 fun heq => hne (Fin.ext heq)
            rw [link_reuseDirent he hino hname.2.1] at hslot
            refine .inr ⟨.inl ⟨(k, ⟨e, he⟩), hzero, hfree⟩, _, does_dirAddLoop_reuse hs hzero hb hfind,
              h.insert hslot ?_ hnew hname⟩
            rw [entry_of_dir h.ok.dir hzero]
            exact link_of_empty hfree

theorem Keeping.does_dirAdd (hname : ValidName name) :
    m name ≠ none ∧ Does sb latest (dirAdd sb d name ino type) V (.error .eexist) V ∨
      m name = none ∧ (¬ HasRoom sb V d ∧ Does sb latest (dirAdd sb d name ino type) V (.error .enospc) V ∨
        HasRoom sb V d ∧ ∃ V', Does sb latest (dirAdd sb d name ino type) V (.ok ()) V' ∧
          Keeping sb V' d (Function.update m name (some (ino, type)))) := by
  have hread := does_inodeRead latest (V := V) hs h.ok.ino
  have hlook := (h.does_dirLookup hs hname).result
  have hlen : ¬ (name.length = 0 ∨ nameMax < name.length) := by
    have := hname.1
    have := hname.2.1
    omega
  cases hm : m name with
  | some x =>
      rw [hm] at hlook
      refine .inl ⟨by simp, hread.bind ?_⟩
      simp only [h.ok.dir, Bool.not_true, Bool.false_eq_true, if_false, if_neg hlen]
      exact hlook.bind (.throw _)
  | none =>
      rw [hm] at hlook
      refine .inr ⟨rfl, ?_⟩
      rcases h.does_dirAddLoop hs hino hname hm (List.pairwise_lt_finRange ndirBlocks)
          (fun k _ => List.mem_finRange k) (fun s hnot => absurd (List.mem_finRange _) hnot) with
        ⟨hroom, hloop⟩ | ⟨hroom, V', hloop, hkeep⟩
      · refine .inl ⟨hroom, hread.bind ?_⟩
        simp only [h.ok.dir, Bool.not_true, Bool.false_eq_true, if_false, if_neg hlen]
        exact hlook.bind hloop
      · refine .inr ⟨hroom, V', hread.bind ?_, hkeep⟩
        simp only [h.ok.dir, Bool.not_true, Bool.false_eq_true, if_false, if_neg hlen]
        exact hlook.bind hloop

end Add
/-! ## The listing -/

/-- The slots in the order in which a directory is walked. -/
def slotList : List Slot := (List.finRange ndirBlocks).product (List.finRange direntsPerBlock)

theorem namesIn_eq {ents : Block} (hvalid : ∀ e < direntsPerBlock, ∀ l, (direntAt ents e).link = some l → 0 ∉ l.name) :
    namesIn ents = (List.finRange direntsPerBlock).filterMap fun e : Fin direntsPerBlock => (direntAt ents e).link.map Link.name := by
  have hlist : ∀ es : List (Fin direntsPerBlock), (((es.map fun e : Fin direntsPerBlock => direntAt ents e).filter fun d => d.ino != 0).map
      fun d => (d.name.take d.nameLen.toNat).takeWhile fun c => c != 0) =
      es.filterMap fun e : Fin direntsPerBlock => (direntAt ents e).link.map Link.name := by
    intro es
    induction es with
    | nil => rfl
    | cons e es ih =>
        have hone := hvalid e e.isLt
        rw [List.map_cons, List.filter_cons, List.filterMap_cons, ← ih]
        by_cases hino : (direntAt ents e).ino = 0
        · simp [Dirent.link, hino]
        · rw [Dirent.link, if_neg hino] at hone ⊢
          have hall := hone _ rfl
          rw [if_pos (by simpa using hino), List.map_cons]
          refine congrArg (· :: _) (List.takeWhile_eq_self_iff.mpr fun c hc => ?_)
          rw [bne_iff_ne]
          rintro rfl
          exact hall hc
  rw [namesIn, ← hlist, ← List.map_coe_finRange_eq_range, List.map_map]
  rfl

theorem does_readdirLoop {bs : List UInt64} (hbs : ∀ b ∈ bs, b ≠ 0 → IsData sb b)
    (hgap : bs.Pairwise fun b c => b = 0 → c = 0) : Does sb latest (readdirLoop bs) V
      (.ok (bs.flatMap fun b => if b = 0 then [] else namesIn (V.block b))) V := by
  induction bs with
  | nil => exact .pure _
  | cons b bs ih =>
      obtain ⟨hfirst, hgap⟩ := List.pairwise_cons.mp hgap
      unfold readdirLoop
      rw [List.flatMap_cons]
      by_cases hb : b = 0
      · have hrest : (bs.flatMap fun b => if b = 0 then [] else namesIn (V.block b)) = [] :=
          List.flatMap_eq_nil_iff.mpr fun c hc => if_pos (hfirst c hc hb)
        rw [if_pos hb, if_pos hb, hrest]
        exact .pure _
      · rw [if_neg hb, if_neg hb]
        refine (does_readBlock latest (hbs b (List.mem_cons_self ..) hb)).bind ?_
        exact (ih (fun c hc => hbs c (List.mem_cons_of_mem _ hc)) hgap).bind (.pure _)

/-- A listing is of all slots, in order. -/
theorem Keeping.does_listing (h : Keeping sb V d m) : Does sb latest (readdirLoop (List.ofFn (V.inode d).blocks)) V
    (.ok (slotList.filterMap fun s => (V.bindings d s).map Prod.fst)) V := by
  have hgap : (List.ofFn (V.inode d).blocks).Pairwise fun b c => b = 0 → c = 0 := by
    rw [List.pairwise_ofFn]
    intro k l hkl hk
    by_contra hl
    exact h.ok.gapless hkl.le hl hk
  have hall : ((List.ofFn (V.inode d).blocks).flatMap fun b => if b = 0 then [] else namesIn (V.block b)) =
      slotList.filterMap fun s => (V.bindings d s).map Prod.fst := by
    rw [slotList, List.product, List.filterMap_flatMap, List.ofFn_eq_map, List.flatMap_map]
    refine congrArg (fun f => (List.finRange ndirBlocks).flatMap f) (funext fun k => ?_)
    rw [List.filterMap_map]
    by_cases hzero : (V.inode d).blocks k = 0
    · rw [if_pos hzero]
      refine (List.filterMap_eq_nil_iff.mpr fun e _ => ?_).symm
      have hnone : V.entry d (k, e) = none := if_neg fun hc => hc.2 hzero
      simp [Vol.bindings, hnone]
    · rw [if_neg hzero, namesIn_eq]
      · refine List.filterMap_congr fun e _ => ?_
        rw [Function.comp_apply, Vol.bindings, entry_of_dir h.ok.dir hzero, Option.map_map]
        rfl
      · intro e he l hl
        exact (h.valid (s := (k, ⟨e, he⟩)) (by rw [entry_of_dir h.ok.dir hzero]; exact hl)).2.2
  rw [← hall]
  exact does_readdirLoop h.ok.blocks_data hgap

/-! ### Paths -/

/-- The program only reads. -/
def Quiet (sb : Super) {α : Type} (p : TxnEM α) : Prop :=
  ∀ v : Image, ∃ r, Acts (viewTxn sb.totalBlocks latest) id p v r v

section Quiet
variable {α β : Type} {p : TxnEM α} {f : α → TxnEM β}

theorem Quiet.pure (a : α) : Quiet sb (pure a) := fun _ => ⟨_, .pure a⟩

theorem Quiet.throw (e : Errno) : Quiet sb (throw e : TxnEM α) := fun _ => ⟨_, .throw e⟩

theorem Quiet.bind (hp : Quiet sb p) (hf : ∀ a, Quiet sb (f a)) : Quiet sb (p >>= f) := by
  intro v
  obtain ⟨r, hr⟩ := hp v
  cases r with
  | error e => exact ⟨_, hr.bind_error⟩
  | ok a =>
      obtain ⟨r', hr'⟩ := hf a v
      exact ⟨r', hr.bind hr'⟩

theorem quiet_readBlock (b : UInt64) : Quiet sb (TxnEM.readBlock b) := by
  intro v
  refine ⟨if b < sb.totalBlocks then .ok (v b) else .error .einval, ?_⟩
  rintro v rfl
  exact ⟨rfl, rfl⟩

theorem quiet_inodeRead (i : UInt32) : Quiet sb (inodeRead sb i) := by
  unfold inodeRead
  split
  · exact .throw _
  · exact (quiet_readBlock _).bind fun _ => .pure _

theorem quiet_findEntry (q : Dirent → Bool) (bs : List UInt64) : Quiet sb (findEntry q bs) := by
  induction bs with
  | nil => exact .pure _
  | cons b bs ih =>
      unfold findEntry
      split
      · exact .pure _
      · refine (quiet_readBlock b).bind fun buf => ?_
        split
        · exact .pure _
        · exact ih

theorem quiet_dirLookup (i : UInt32) (name : List UInt8) : Quiet sb (dirLookup sb i name) := by
  refine (quiet_inodeRead i).bind fun dir => ?_
  split
  · exact .throw _
  · split
    · exact .throw _
    · refine (quiet_findEntry _ _).bind fun found => ?_
      split
      · exact .pure _
      · exact .throw _

theorem quiet_walk (comps : List (List UInt8)) (i : UInt32) : Quiet sb (walk sb i comps) := by
  induction comps generalizing i with
  | nil => exact .pure _
  | cons comp comps ih =>
      unfold walk
      split
      · exact .throw _
      · exact (quiet_dirLookup i comp).bind fun next => ih next.1

theorem quiet_pathLookup (path : List UInt8) : Quiet sb (pathLookup sb path) := by
  unfold pathLookup
  split
  · exact .throw _
  · exact quiet_walk _ _

/-- What follows a program that only reads is answered from the same image. -/
theorem Quiet.answer_bind (hp : Quiet sb p) {v : Image} {a : α} (ha : answer sb p v = .ok a) :
    answer sb (p >>= f) v = answer sb (f a) v := by
  obtain ⟨r, hr⟩ := hp v
  obtain ⟨hres, hsame⟩ := hr v rfl
  obtain rfl : r = .ok a := hres.symm.trans ha
  rw [answer, run_exceptT_bind]
  cases hrun : run (viewTxn sb.totalBlocks latest) p.run v with
  | mk r' v' =>
      rw [hrun] at hres hsame
      cases hres
      cases hsame
      rfl

end Quiet

/-! ## Every run -/

section Runs
variable (hs : RegionsSound sb)
include hs

open Classical in
/-- One call, beside the reference. -/
theorem Keeping.call {v : Image} (h : Keeping sb (vol sb v) d m) {c : DirCall} (hc : c.Valid) :
    answer sb (c.program sb d) v = (c.reference (HasRoom sb (vol sb v) d) m).1 ∧
      Keeping sb (vol sb (run (viewTxn sb.totalBlocks latest) (c.program sb d).run v).2) d
        (c.reference (HasRoom sb (vol sb v) d) m).2 := by
  cases c with
  | add name ino type =>
      obtain ⟨hname, hino⟩ := hc
      rcases h.does_dirAdd hs hino hname with
        ⟨hm, hdoes⟩ | ⟨hm, ⟨hroom, hdoes⟩ | ⟨hroom, V', hdoes, hkeep⟩⟩
      · obtain ⟨hr, hV⟩ := hdoes v rfl
        rw [DirCall.reference, if_pos hm]
        exact ⟨hr, hV.symm ▸ h⟩
      · obtain ⟨hr, hV⟩ := hdoes v rfl
        rw [DirCall.reference, if_neg (not_not.mpr hm), if_neg hroom]
        exact ⟨hr, hV.symm ▸ h⟩
      · obtain ⟨hr, rfl⟩ := hdoes v rfl
        rw [DirCall.reference, if_neg (not_not.mpr hm), if_pos hroom]
        exact ⟨hr, hkeep⟩
  | remove name =>
      rcases h.does_dirRemove hs hc with ⟨hm, hdoes⟩ | ⟨hm, V', hdoes, hkeep⟩
      · obtain ⟨hr, hV⟩ := hdoes v rfl
        rw [DirCall.reference, if_pos hm]
        exact ⟨hr, hV.symm ▸ h⟩
      · obtain ⟨hr, rfl⟩ := hdoes v rfl
        rw [DirCall.reference, if_neg hm]
        exact ⟨hr, hkeep⟩

theorem Keeping.actsAs {v : Image} (h : Keeping sb (vol sb v) d m) : ActsAs sb d (v, m) where
  calls _ hc := (h.call hs hc).1
  lookup _ hname := (h.does_dirLookup hs hname v rfl).1
  listing path hpath := by
    refine ⟨_, ?_, h.represents.nodup_keys (List.Nodup.product (List.nodup_finRange _) (List.nodup_finRange _)),
      fun name => h.represents.mem_keys fun s => List.mem_product.mpr ⟨List.mem_finRange _, List.mem_finRange _⟩⟩
    refine ((quiet_pathLookup path).answer_bind hpath).trans ?_
    have hlist : Does sb latest (do
        let dir ← inodeRead sb d
        if !isDir dir.mode then throw .enotdir
        else readdirLoop (List.ofFn dir.blocks)) (vol sb v)
        (.ok (slotList.filterMap fun s => ((vol sb v).bindings d s).map Prod.fst)) (vol sb v) := by
      refine (does_inodeRead latest hs h.ok.ino).bind ?_
      simp only [h.ok.dir, Bool.not_true, Bool.false_eq_true, if_false]
      exact h.does_listing
    exact (hlist v rfl).1
  empty := by
    obtain ⟨b, hdoes, hb⟩ := h.does_dirIsEmpty hs
    exact ⟨b, (hdoes v rfl).1, hb⟩

theorem keeping_preserved : Preserves (dirStep sb d) (fun _ c => c.Valid) fun s => Keeping sb (vol sb s.1) d s.2 := by
  intro s t c hc hstep h
  rw [← Option.some.inj hstep]
  exact (h.call hs hc).2

/-- A directory whose entries have valid and distinct names acts as a map, after any calls. -/
theorem dir_actsAs {v : Image} (hok : DirOk sb (vol sb v) d) (hnames : NamesOk (vol sb v) d) :
    ∃ m, ∀ s, Run (dirStep sb d) (fun _ c => c.Valid) (v, m) s → ActsAs sb d s := by
  obtain ⟨m, hkeep⟩ := hnames.exists_keeping hok
  refine ⟨m, fun s hrun => ?_⟩
  have hinv : Keeping sb (vol sb s.1) d s.2 := hrun.invariant hkeep (keeping_preserved hs)
  exact hinv.actsAs hs

end Runs
/-! ## Directories of a volume -/

/-- Every live directory of a volume in order is one. -/
theorem Owned.dirOk {live : Set UInt32} (h : Owned sb V live) (hd : d ∈ live) (hdir : isDir (V.inode d).mode = true) :
    DirOk sb V d where
  ino := (h.inUse hd).1
  dir := hdir
  gapless hle hk := (h.shaped hd).lower hdir hle hk
  apart heq hne := (h.apart hd hd heq hne).2
  placed hne := h.placed hd hne

theorem Lone.namesOk {i : UInt32} (h : Lone V d i) (hdir : isDir (V.inode d).mode = true) : NamesOk V d := by
  obtain ⟨s, t, hs, ht, hrest⟩ := h hdir
  have hcases : ∀ {u l}, V.entry d u = some l → u = s ∧ l.name = dotName ∨ u = t ∧ l.name = dotDotName := by
    intro u l hu
    by_cases hus : u = s
    · subst hus
      cases hs.symm.trans hu
      exact .inl ⟨rfl, rfl⟩
    · by_cases hut : u = t
      · subst hut
        cases ht.symm.trans hu
        exact .inr ⟨rfl, rfl⟩
      · cases (hrest u hus hut).symm.trans hu
  constructor
  · intro u l hu
    rcases hcases hu with ⟨-, hname⟩ | ⟨-, hname⟩
    · rw [hname]
      decide
    · rw [hname]
      decide
  · intro u u' l l' hu hu' hname
    rcases hcases hu with ⟨rfl, hl⟩ | ⟨rfl, hl⟩ <;> rcases hcases hu' with ⟨rfl, hl'⟩ | ⟨rfl, hl'⟩
    · rfl
    · rw [hl, hl'] at hname
      cases hname
    · rw [hl, hl'] at hname
      cases hname
    · rfl

section Root
variable {v : Image} (h : LaidOut tinySuper 0 v)
include h

theorem dirOk_tiny : DirOk tinySuper (vol tinySuper v) rootIno := by
  refine (h.volOk layoutSound_tiny (by decide) (by decide)).owned.dirOk rfl ?_
  rw [h.inode_root (by decide)]
  exact isDir_newDir _ _ _

theorem namesOk_tiny : NamesOk (vol tinySuper v) rootIno :=
  (lone_newDir (by decide) (by decide) (by decide) (h.inode_root (by decide)) (h.block_root (by decide))).namesOk
    (dirOk_tiny h).dir

end Root

section Reference
variable {sb : Super} {d : UInt32} {v : Image} {m : DirMap} {name : List UInt8} {ino : UInt32} {type : UInt8}

theorem dirStep_add (hnone : m name = none) (hroom : HasRoom sb (vol sb v) d) :
    ∃ v', dirStep sb d (v, m) (.add name ino type) = some (v', Function.update m name (some (ino, type))) := by
  refine ⟨_, congrArg some (Prod.ext rfl ?_)⟩
  simp only [DirCall.reference, hnone, ne_eq, not_true, if_false, if_pos hroom]

theorem dirStep_remove (hsome : m name ≠ none) :
    ∃ v', dirStep sb d (v, m) (.remove name) = some (v', Function.update m name none) := by
  refine ⟨_, congrArg some (Prod.ext rfl ?_)⟩
  simp only [DirCall.reference, if_neg hsome]

end Reference

/-- A name is added to the root of a new volume, and removed again. -/
theorem dir_actsAs_root : ∃ (m : DirMap) (s₁ s₂ : Image × DirMap),
    s₁.2 = Function.update m [0x61] (some (2, ftReg)) ∧ ActsAs tinySuper rootIno s₁ ∧
      s₂.2 = Function.update s₁.2 [0x61] none ∧ ActsAs tinySuper rootIno s₂ := by
  have h : LaidOut tinySuper 0 (tinyDisk fun _ => zeroBlock).view := laidOut_tiny _
  obtain ⟨m, hacts⟩ := dir_actsAs layoutSound_tiny (dirOk_tiny h) (namesOk_tiny h)
  have hnone : m [0x61] = none := by
    have hlookup := (hacts _ .init).lookup [0x61] (by decide)
    have hanswer : answer tinySuper (dirLookup tinySuper rootIno [0x61]) (tinyDisk fun _ => zeroBlock).view =
        .error .enoent := by decide +kernel
    rw [hanswer] at hlookup
    dsimp only at hlookup
    cases hm : m [0x61] with
    | none => rfl
    | some binding =>
        rw [hm] at hlookup
        cases hlookup
  have hroom : HasRoom tinySuper (vol tinySuper (tinyDisk fun _ => zeroBlock).view) rootIno := by
    refine .inl ⟨(⟨0, by decide⟩, ⟨2, by decide⟩), ?_, ?_⟩ <;> decide +kernel
  obtain ⟨v₁, hadd⟩ : ∃ v₁, dirStep tinySuper rootIno ((tinyDisk fun _ => zeroBlock).view, m)
      (.add [0x61] 2 ftReg) = some (v₁, Function.update m [0x61] (some (2, ftReg))) := dirStep_add hnone hroom
  have hbound : Function.update m [0x61] (some (2, ftReg)) [0x61] ≠ none := by
    rw [Function.update_self]
    exact Option.some_ne_none _
  obtain ⟨v₂, hremove⟩ : ∃ v₂, dirStep tinySuper rootIno (v₁, _) (.remove [0x61]) =
      some (v₂, Function.update _ [0x61] none) := dirStep_remove hbound
  have hrun : Run (dirStep tinySuper rootIno) (fun _ c => c.Valid) ((tinyDisk fun _ => zeroBlock).view, m)
      (v₁, Function.update m [0x61] (some (2, ftReg))) :=
    .next (a := .add [0x61] 2 ftReg) .init ⟨by decide, by decide⟩ hadd
  exact ⟨m, _, _, rfl, hacts _ hrun, rfl, hacts _ (hrun.next (a := .remove [0x61]) (show ValidName [0x61] by decide) hremove)⟩

/-- The block of a root directory with the name `a` in two slots. -/
def twinBlock : Block := setDirent (setDirent (initialDirBlock rootIno rootIno) 2 2 ftReg [0x61]) 3 3 ftReg [0x61]

/-- A directory with one name in two slots is no map: its listing has the name twice. -/
theorem not_dir_actsAs : ∃ v, DirOk tinySuper (vol tinySuper v) rootIno ∧
    ¬ ∃ m, ∀ s, Run (dirStep tinySuper rootIno) (fun _ c => c.Valid) (v, m) s → ActsAs tinySuper rootIno s := by
  have hs := layoutSound_tiny
  have h : LaidOut tinySuper 0 (tinyDisk fun _ => zeroBlock).view := laidOut_tiny _
  have hdata : IsData tinySuper tinySuper.dataStart := by decide
  have hvol : vol tinySuper (Function.update (tinyDisk fun _ => zeroBlock).view tinySuper.dataStart twinBlock) =
      (vol tinySuper (tinyDisk fun _ => zeroBlock).view).setBlock tinySuper.dataStart twinBlock :=
    vol_update_data hs _ hdata _
  have hok : DirOk tinySuper
      (vol tinySuper (Function.update (tinyDisk fun _ => zeroBlock).view tinySuper.dataStart twinBlock)) rootIno := by
    rw [hvol]
    exact (dirOk_tiny h).setBlock _ _
  refine ⟨_, hok, ?_⟩
  rintro ⟨m, hm⟩
  obtain ⟨names, hnames, hnodup, -⟩ := (hm _ .init).listing [slash] rfl
  have hblocks : List.ofFn (newDirInode 0x1ED 0 tinySuper.dataStart).blocks =
      tinySuper.dataStart :: List.replicate 11 0 := rfl
  have hlist : Does tinySuper latest (opReaddir tinySuper [slash])
      (vol tinySuper (Function.update (tinyDisk fun _ => zeroBlock).view tinySuper.dataStart twinBlock))
      (.ok (namesIn twinBlock)) (vol tinySuper
        (Function.update (tinyDisk fun _ => zeroBlock).view tinySuper.dataStart twinBlock)) := by
    refine Acts.bind (.pure rootIno) ((does_inodeRead latest hs hok.ino).bind ?_)
    simp only [hok.dir, Bool.not_true, Bool.false_eq_true, if_false]
    rw [hvol, Vol.inode_setBlock, h.inode_root (by decide), hblocks]
    refine (does_readBlock latest hdata).bind (Acts.bind (.pure []) ?_)
    rw [Vol.block_setBlock, if_pos rfl, List.append_nil]
    exact .pure _
  have htwice : namesIn twinBlock = [dotName, dotDotName, [0x61], [0x61]] := by decide +kernel
  have hsame : Except.ok names = Except.ok (ε := Errno) (namesIn twinBlock) :=
    hnames.symm.trans (hlist _ rfl).1
  rw [htwice] at hsame
  cases hsame
  exact absurd hnodup (by decide)

end Logfs
