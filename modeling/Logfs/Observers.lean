import Logfs.FsRuns

/-!
# What a user can see

Lookups, attributes, listings and reads. They depend on the live inodes and on what these hold
below their sizes, and on nothing else of a volume.
-/
namespace Logfs
open Interaction ByteBuffer NameTree

/-- On both volumes the program gives the same answer and changes nothing; `Q` is about the answer
when it is no error. -/
def Alike (sb : Super) (content : Block → Block → Block) {α : Type} (p : TxnEM α) (V V' : Vol)
    (Q : α → Prop) : Prop :=
  ∃ r, Does sb content p V r V ∧ Does sb content p V' r V' ∧ ∀ a, r = .ok a → Q a

/-- The live inodes, and every byte of them below their sizes, are the same in both volumes. -/
structure Sees (V V' : Vol) (live : Set UInt32) : Prop where
  inode : ∀ i ∈ live, V'.inode i = V.inode i
  bytes : ∀ i ∈ live, ∀ k j, (V.inode i).blocks k ≠ 0 →
    k.val * blockSize + j < (V.inode i).size.toNat →
      byteAt (V'.block ((V.inode i).blocks k)) j = byteAt (V.block ((V.inode i).blocks k)) j

section Programs
variable {sb : Super} {content : Block → Block → Block} {α β : Type} {V V' : Vol}

theorem Alike.pure {a : α} {Q : α → Prop} (h : Q a) : Alike sb content (pure a) V V' Q :=
  ⟨.ok a, .pure a, .pure a, fun _ he => by cases he; exact h⟩

theorem Alike.throw (e : Errno) (Q : α → Prop) : Alike sb content (throw e) V V' Q :=
  ⟨.error e, .throw e, .throw e, fun _ he => by cases he⟩

theorem Alike.bind {p : TxnEM α} {f : α → TxnEM β} {Q : α → Prop} {R : β → Prop}
    (hp : Alike sb content p V V' Q) (hf : ∀ a, Q a → Alike sb content (f a) V V' R) :
    Alike sb content (p >>= f) V V' R := by
  obtain ⟨r, hV, hV', hQ⟩ := hp
  cases r with
  | error e => exact ⟨.error e, hV.bind_error, hV'.bind_error, fun _ he => by cases he⟩
  | ok a =>
      obtain ⟨s, hs, hs', hR⟩ := hf a (hQ a rfl)
      exact ⟨s, hV.bind hs, hV'.bind hs', hR⟩

theorem Alike.mono {p : TxnEM α} {Q R : α → Prop} (h : Alike sb content p V V' Q)
    (himp : ∀ a, Q a → R a) : Alike sb content p V V' R := by
  obtain ⟨r, hV, hV', hQ⟩ := h
  exact ⟨r, hV, hV', fun a he => himp a (hQ a he)⟩

end Programs

section Reads
variable {sb : Super} {content : Block → Block → Block} {V V' : Vol} {live : Set UInt32} {d i : UInt32}

theorem scan_congr {p : Dirent → Bool} {bs : List UInt64}
    (h : ∀ b ∈ bs, b ≠ 0 → V'.block b = V.block b) : V'.scan p bs = V.scan p bs := by
  induction bs with
  | nil => rfl
  | cons b bs ih =>
      unfold Vol.scan
      by_cases hb : b = 0
      · rw [if_pos hb, if_pos hb]
      · rw [if_neg hb, if_neg hb, h b List.mem_cons_self hb, ih fun c hc => h c (List.mem_cons_of_mem b hc)]

theorem alike_findEntry {p : Dirent → Bool} {bs : List UInt64} (hbs : ∀ b ∈ bs, b ≠ 0 → IsData sb b)
    (h : ∀ b ∈ bs, b ≠ 0 → V'.block b = V.block b) :
    Alike sb content (findEntry p bs) V V' (· = V.scan p bs) := by
  have hV' := does_findEntry content (V := V') (p := p) hbs
  rw [scan_congr h] at hV'
  exact ⟨_, does_findEntry content hbs, hV', fun _ he => by cases he; rfl⟩

namespace Sees
variable (hs : RegionsSound sb) (h : Owned sb V live) (hsee : Sees V V' live)

include hsee in
/-- A directory's blocks lie below its size. -/
theorem dirBlock (h : Owned sb V live) (hd : d ∈ live) (hdir : isDir (V.inode d).mode = true) {b : UInt64}
    (hb : b ∈ List.ofFn (V.inode d).blocks) (hne : b ≠ 0) : V'.block b = V.block b := by
  obtain ⟨k, rfl⟩ := (List.mem_ofFn' _ _).mp hb
  obtain ⟨n, -, hsize, hblocks⟩ := (h.shaped hd).dir hdir
  have hk := (hblocks k).mp hne
  refine ext_byteAt fun j hj => hsee.bytes d hd k j hne ?_
  rw [hsize, blockSize] at *
  omega

include hs h hsee

theorem alike_inodeRead (hi : i ∈ live) :
    Alike sb content (inodeRead sb i) V V' (· = V.inode i) := by
  have hV' := does_inodeRead content (V := V') hs (h.inUse hi).1
  rw [hsee.inode i hi] at hV'
  exact ⟨_, does_inodeRead content hs (h.inUse hi).1, hV', fun _ he => by cases he; rfl⟩

/-- The functions that begin by making sure that they are given a directory. -/
theorem alike_inDir {α : Type} {f : Inode → TxnEM α} {Q : α → Prop} (hd : d ∈ live)
    (hrest : isDir (V.inode d).mode = true → Alike sb content (f (V.inode d)) V V' Q) :
    Alike sb content (do
      let dir ← inodeRead sb d
      if !isDir dir.mode then throw .enotdir else f dir) V V' Q := by
  refine (alike_inodeRead hs h hsee hd).bind ?_
  rintro dir rfl
  cases hdir : isDir (V.inode d).mode with
  | false =>
      simp only [Bool.not_false, if_true]
      exact .throw _ _
  | true =>
      simp only [Bool.not_true, Bool.false_eq_true, if_false]
      exact hrest hdir

variable (content) in
theorem alike_dirLookup (hn : Named V live) (hd : d ∈ live) (name : List UInt8) :
    Alike sb content (dirLookup sb d name) V V' fun r => r.1 ∈ live := by
  refine alike_inDir hs h hsee hd fun hdir => ?_
  by_cases hname : name.length = 0 ∨ nameMax < name.length
  · rw [if_pos hname]
    exact .throw _ _
  · rw [if_neg hname]
    refine (alike_findEntry (h.blocks_data hd) fun b => hsee.dirBlock h hd hdir).bind ?_
    rintro r rfl
    cases hscan : V.scan (Dirent.isNamed name) (List.ofFn (V.inode d).blocks) with
    | none => exact .throw _ _
    | some r =>
        obtain ⟨b, e, ent⟩ := r
        obtain ⟨s, -, -, -, hl⟩ := scan_named_some hdir (by omega) hscan
        exact .pure (hn.entry_mem hd hl)

theorem alike_walk (hn : Named V live) {comps : List (List UInt8)} (hd : d ∈ live) :
    Alike sb content (walk sb d comps) V V' (· ∈ live) := by
  induction comps generalizing d with
  | nil => exact .pure hd
  | cons comp rest ih =>
      unfold walk
      by_cases hlong : nameMax < comp.length
      · rw [if_pos hlong]
        exact .throw _ _
      · rw [if_neg hlong]
        exact (alike_dirLookup content hs h hsee hn hd comp).bind fun r hr => ih hr

variable (hn : Named V live) (hroot : sb.rootIno = rootIno)
include hn hroot

variable (content) in
theorem alike_pathLookup (path : List UInt8) : Alike sb content (pathLookup sb path) V V' (· ∈ live) := by
  unfold pathLookup
  by_cases habs : path.head? = some slash
  · rw [if_neg (not_not_intro habs), hroot]
    exact alike_walk hs h hsee hn hn.tree.root_mem
  · rw [if_pos habs]
    exact .throw _ _

theorem alike_opGetattr (path : List UInt8) :
    Alike sb content (opGetattr sb path) V V' fun _ => True := by
  refine (alike_pathLookup content hs h hsee hn hroot path).bind fun i hi => ?_
  exact (alike_inodeRead hs h hsee hi).bind fun inode _ => .pure trivial

omit hs h hsee hn hroot in
theorem alike_readdirLoop {bs : List UInt64} (hbs : ∀ b ∈ bs, b ≠ 0 → IsData sb b)
    (hsame : ∀ b ∈ bs, b ≠ 0 → V'.block b = V.block b) :
    Alike sb content (readdirLoop bs) V V' fun _ => True := by
  induction bs with
  | nil => exact .pure trivial
  | cons b bs ih =>
      unfold readdirLoop
      by_cases hb : b = 0
      · rw [if_pos hb]
        exact .pure trivial
      · rw [if_neg hb]
        have hdata := hbs b List.mem_cons_self hb
        have hread : Alike sb content (TxnEM.readBlock b) V V' (· = V.block b) := by
          have hV' := does_readBlock content (V := V') hdata
          rw [hsame b List.mem_cons_self hb] at hV'
          exact ⟨_, does_readBlock content hdata, hV', fun _ he => by cases he; rfl⟩
        refine hread.bind fun block _ => ?_
        refine (ih (fun c hc => hbs c (List.mem_cons_of_mem b hc)) fun c hc =>
          hsame c (List.mem_cons_of_mem b hc)).bind fun rest _ => .pure trivial

theorem alike_opReaddir (path : List UInt8) :
    Alike sb content (opReaddir sb path) V V' fun _ => True := by
  refine (alike_pathLookup content hs h hsee hn hroot path).bind fun d hd => ?_
  exact alike_inDir hs h hsee hd fun hdir =>
    alike_readdirLoop (h.blocks_data hd) fun b => hsee.dirBlock h hd hdir

end Sees

/-! ## Reads of files -/

/-- The bytes one round of the read loop copies. -/
def Vol.chunkBytes (V : Vol) (inode : Inode) (pos size : ℕ) : List UInt8 :=
  if blockAt inode (pos / blockSize) = 0 then List.replicate size 0
  else slice (V.block (blockAt inode (pos / blockSize))) (pos % blockSize) size

theorem blockAt_data (h : Owned sb V live) (hi : i ∈ live) {b : ℕ} (hne : blockAt (V.inode i) b ≠ 0) :
    IsData sb (blockAt (V.inode i) b) := by
  unfold blockAt at hne ⊢
  split_ifs at hne ⊢ with hb
  · exact (h.placed hi hne).1
  · exact absurd rfl hne

variable (content) in
theorem does_readChunk {inode : Inode} {pos : ℕ} (size : ℕ)
    (hdata : blockAt inode (pos / blockSize) ≠ 0 → IsData sb (blockAt inode (pos / blockSize))) :
    Does sb content (readChunk inode pos size) V (.ok (V.chunkBytes inode pos size)) V := by
  unfold readChunk Vol.chunkBytes
  by_cases hzero : blockAt inode (pos / blockSize) = 0
  · rw [if_pos hzero, if_pos hzero]
    exact .pure _
  · rw [if_neg hzero, if_neg hzero]
    exact (does_readBlock content (hdata hzero)).bind (.pure _)

/-- The byte at a position of a file. -/
def Vol.byteOf (V : Vol) (i : UInt32) (pos : ℕ) : UInt8 :=
  if blockAt (V.inode i) (pos / blockSize) = 0 then 0
  else byteAt (V.block (blockAt (V.inode i) (pos / blockSize))) (pos % blockSize)

namespace Sees
variable (hs : RegionsSound sb) (h : Owned sb V live) (hsee : Sees V V' live)
include h hsee

omit h in
/-- Below the size both volumes hold the same bytes. -/
theorem chunkBytes (hi : i ∈ live) {pos size : ℕ} (hend : pos + size ≤ (V.inode i).size.toNat) :
    V'.chunkBytes (V.inode i) pos size = V.chunkBytes (V.inode i) pos size := by
  unfold Vol.chunkBytes
  by_cases hzero : blockAt (V.inode i) (pos / blockSize) = 0
  · rw [if_pos hzero, if_pos hzero]
  · rw [if_neg hzero, if_neg hzero]
    have hb : pos / blockSize < ndirBlocks := by
      by_contra hout
      exact hzero (dif_neg hout)
    rw [blockAt_eq _ hb] at hzero ⊢
    refine slice_congr fun k hk => hsee.bytes i hi _ _ hzero ?_
    have hdiv := Nat.div_add_mod pos blockSize
    rw [Nat.mul_comm] at hdiv
    change pos / blockSize * blockSize + _ < _
    omega

variable (content) in
theorem alike_readLoop (hi : i ∈ live) (rounds : ℕ) {pos size : ℕ}
    (hend : pos + size ≤ (V.inode i).size.toNat) :
    Alike sb content (readLoop (V.inode i) rounds pos size) V V' fun _ => True := by
  induction rounds generalizing pos size with
  | zero => exact .pure trivial
  | succ rounds ih =>
      unfold readLoop
      by_cases hzero : size = 0
      · rw [if_pos hzero]
        exact .pure trivial
      · rw [if_neg hzero]
        have hle : chunkAt pos size ≤ size := min_le_right _ _
        have hdata := blockAt_data h hi (b := pos / blockSize)
        have hV' := does_readChunk content (V := V') (chunkAt pos size) hdata
        rw [hsee.chunkBytes hi (by omega)] at hV'
        have hchunk : Alike sb content (readChunk (V.inode i) pos (chunkAt pos size)) V V' fun _ => True :=
          ⟨_, does_readChunk content _ hdata, hV', fun _ _ => trivial⟩
        refine hchunk.bind fun bytes _ => ?_
        exact (ih (by omega)).bind fun rest _ => .pure trivial

include hs in
theorem alike_opRead (hi : i ∈ live) (size offset : ℕ) :
    Alike sb content (opRead sb i size offset) V V' fun _ => True := by
  refine (alike_inodeRead hs h hsee hi).bind ?_
  rintro inode rfl
  by_cases hend : (V.inode i).size.toNat ≤ offset
  · rw [if_pos hend]
    exact .pure trivial
  · rw [if_neg hend]
    exact alike_readLoop content h hsee hi _ (by omega)

end Sees

/-! ## Images -/

/-- What a program answers on the logical block view. -/
def answer (sb : Super) {α : Type} (p : TxnEM α) (v : Image) : Except Errno α :=
  (run (viewTxn sb.totalBlocks latest) p.run v).1

/-- No lookup, listing, attribute or read of a file below the root tells the two images apart. -/
structure Unseen (sb : Super) (v v' : Image) : Prop where
  lookup : ∀ path, answer sb (pathLookup sb path) v' = answer sb (pathLookup sb path) v
  listing : ∀ path, answer sb (opReaddir sb path) v' = answer sb (opReaddir sb path) v
  attributes : ∀ path, answer sb (opGetattr sb path) v' = answer sb (opGetattr sb path) v
  contents : ∀ i, Live (vol sb v) i → ∀ size offset,
    answer sb (opRead sb i size offset) v' = answer sb (opRead sb i size offset) v

theorem Alike.answer {α : Type} {v v' : Image} {p : TxnEM α} {Q : α → Prop}
    (h : Alike sb latest p (vol sb v) (vol sb v') Q) : answer sb p v' = answer sb p v := by
  obtain ⟨r, hv, hv', -⟩ := h
  exact (hv' v' rfl).1.trans (hv v rfl).1.symm

theorem Sees.unseen {v v' : Image} (hs : RegionsSound sb) (hroot : sb.rootIno = rootIno)
    (h : Owned sb (vol sb v) live) (hn : Named (vol sb v) live)
    (hsee : Sees (vol sb v) (vol sb v') live) : Unseen sb v v' where
  lookup path := (hsee.alike_pathLookup latest hs h hn hroot path).answer
  listing path := (hsee.alike_opReaddir hs h hn hroot path).answer
  attributes path := (hsee.alike_opGetattr hs h hn hroot path).answer
  contents _ hi size offset := (hsee.alike_opRead hs h (hn.live_iff.mp hi) size offset).answer

end Reads
end Logfs
