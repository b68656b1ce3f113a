import Logfs.FileContents
import Logfs.NamespaceCalls

/-!
# The files behind the names

What is in the files of a volume, as the calls are meant to change it. A position that no write has
given a block reads as zero; a block that a write takes for it brings bytes of its own where nothing is
written.
-/
namespace Logfs
open Interaction ByteBuffer NameTree

/-- A regular file: `bytes` says what is at a position, if there is a block for it. -/
@[ext] structure File where
  size : ℕ
  bytes : ℕ → Option UInt8

namespace File
variable (f : File) (offset : ℕ) (buf : List UInt8)

def empty : File := ⟨0, fun _ => none⟩

/-- What a read of the range answers. -/
def read (size offset : ℕ) : List UInt8 :=
  (List.range (min size (f.size - offset))).map fun k => (f.bytes (offset + k)).getD 0

/-- The blocks from the end of the file on are gone, but not the rest of the last one. -/
def cut (size : ℕ) : File where
  size := size
  bytes p := if size < f.size ∧ (size + blockSize - 1) / blockSize ≤ p / blockSize then none else f.bytes p

/-- The first `n` bytes are put into the blocks that are there. -/
def putInto (n : ℕ) : File where
  size := f.size
  bytes p := if f.bytes p ≠ none ∧ offset ≤ p ∧ p < offset + n then some (buf.getD (p - offset) 0) else f.bytes p

/-- A write that gets through. -/
structure Overwritten (f' : File) : Prop where
  size : f'.size = max f.size (offset + buf.length)
  there : ∀ p, offset ≤ p → p < offset + buf.length → f'.bytes p = some (buf.getD (p - offset) 0)
  kept : ∀ p, ¬ (offset ≤ p ∧ p < offset + buf.length) → f.bytes p ≠ none → f'.bytes p = f.bytes p
  holes : ∀ p, f.bytes p = none → (∀ q, offset ≤ q → q < offset + buf.length → q / blockSize ≠ p / blockSize) →
    f'.bytes p = none

/-- What comes of a write; blocks may run out on the way. -/
inductive Writes : Except Errno ℕ → File → Prop
  | tooBig (beyond : maxFileSize < offset + buf.length) : Writes (.error .efbig) f
  | full {n : ℕ} (fits : offset + buf.length ≤ maxFileSize) (part : n ≤ buf.length) :
      Writes (.error .enospc) (f.putInto offset buf n)
  | written {f' : File} (fits : offset + buf.length ≤ maxFileSize) (all : f.Overwritten offset buf f') :
      Writes (.ok buf.length) f'

end File

/-- The regular files by inode number. -/
abbrev Files := UInt32 → Option File

/-- The inode `logfs_op_truncate` is about. -/
def Namespace.target (T : Namespace) (path : List UInt8) : Option UInt32 → Except Errno UInt32
  | some ino => .ok ino
  | none => match T.find path with
    | .error e => .error e
    | .ok p => match T p with
      | none => .error .enoent
      | some node => .ok node.ino

namespace Files

/-- One call, where the names are as in `T`. A call that fails leaves all files alone, but for a write
without the blocks it needs. -/
def Step (F : Files) (T : Namespace) (c : UserCall) (r : Except Errno Reply) (F' : Files) : Prop :=
  match c with
  | .change (.create _ _) => (∃ e, r = .error e ∧ F' = F) ∨
      ∃ i, r = .ok (.handle i) ∧ F i = none ∧ F' = Function.update F i (some .empty)
  | .change (.unlink path) => (∃ e, r = .error e ∧ F' = F) ∨
      ∃ p name i, r = .ok .done ∧ T.place path = .ok (p, name) ∧ T (p ++ [name]) = some ⟨i, false⟩ ∧
        F' = Function.update F i none
  | .change (.write fh buf offset) => ∃ f r' f', F fh = some f ∧ f.Writes offset buf r' f' ∧
      r = r'.map .written ∧ F' = Function.update F fh (some f')
  | .change (.truncate path fh size) =>
      if maxFileSize < size then r = .error .efbig ∧ F' = F
      else match T.target path fh with
        | .error e => r = .error e ∧ F' = F
        | .ok i => ∃ f, F i = some f ∧ r = .ok .done ∧ F' = Function.update F i (some (f.cut size))
  | .change (.mkdir _ _) | .change (.rmdir _) | .readdir _ => F' = F
  | .getattr _ => F' = F ∧ ∀ stat f, r = .ok (.attributes stat) → F stat.ino = some f → stat.size.toNat = f.size
  | .read fh size offset => F' = F ∧ ∀ f, F fh = some f → r = .ok (.bytes (f.read size offset))

end Files

/-! ## The files of a volume -/

/-- Some path leads to the file. -/
def Namespace.HasFile (T : Namespace) (i : UInt32) : Prop := ∃ p, T p = some ⟨i, false⟩

namespace Vol
variable (V : Vol)

def file (i : UInt32) : File where
  size := (V.inode i).size.toNat
  bytes p :=
    if blockAt (V.inode i) (p / blockSize) = 0 then none
    else some (byteAt (V.block (blockAt (V.inode i) (p / blockSize))) (p % blockSize))

open Classical in
noncomputable def files : Files := fun i => if V.names.HasFile i then some (V.file i) else none

end Vol

section Frame
variable {sb : Super} {V V' : Vol} {live live' : Set UInt32} {i j : UInt32}

theorem files_eq_some {f : File} : V.files i = some f ↔ V.names.HasFile i ∧ V.file i = f := by
  unfold Vol.files
  split
  · next hfile => simp [hfile]
  · next hfile => simp [hfile]

theorem files_eq_none : V.files i = none ↔ ¬ V.names.HasFile i := by
  unfold Vol.files
  split
  · next hfile => simp [hfile]
  · next hfile => simp [hfile]

theorem files_congr (hnames : V'.names.HasFile i ↔ V.names.HasFile i)
    (hfile : V.names.HasFile i → V'.file i = V.file i) : V'.files i = V.files i := by
  cases hold : V.files i with
  | none => exact files_eq_none.mpr fun hnew => files_eq_none.mp hold (hnames.mp hnew)
  | some f =>
      obtain ⟨hthere, rfl⟩ := files_eq_some.mp hold
      exact files_eq_some.mpr ⟨hnames.mpr hthere, hfile hthere⟩

theorem mem_of_hasFile (hn : Named V live) (h : V.names.HasFile i) : i ∈ live ∧ isDir (V.inode i).mode = false := by
  obtain ⟨p, hp⟩ := h
  obtain ⟨j, hj, hnode⟩ := Option.map_eq_some_iff.mp hp
  obtain ⟨rfl, hdir⟩ := Node.mk.inj hnode
  exact ⟨mem_of_follow hn hj, hdir⟩

theorem bytes_hole {p : ℕ} (hhole : blockAt (V.inode i) (p / blockSize) = 0) : (V.file i).bytes p = none :=
  if_pos hhole

theorem bytes_there {p : ℕ} (hthere : blockAt (V.inode i) (p / blockSize) ≠ 0) :
    (V.file i).bytes p = some (V.byteOf i p) := by
  rw [Vol.byteOf, if_neg hthere]
  exact if_neg hthere

theorem bytes_eq_none {p : ℕ} : (V.file i).bytes p = none ↔ blockAt (V.inode i) (p / blockSize) = 0 := by
  refine ⟨fun h => ?_, bytes_hole⟩
  by_contra hthere
  rw [bytes_there hthere] at h
  cases h

theorem getD_bytes (i : UInt32) (p : ℕ) : ((V.file i).bytes p).getD 0 = V.byteOf i p := by
  by_cases hhole : blockAt (V.inode i) (p / blockSize) = 0
  · rw [bytes_hole hhole, Vol.byteOf, if_pos hhole]
    rfl
  · rw [bytes_there hhole]
    rfl

theorem hasFile_of_mem (hn : Named V live) (hi : i ∈ live) (hfile : isDir (V.inode i).mode = false) : V.names.HasFile i := by
  obtain ⟨p, hp⟩ := hn.rooted.exists_follow hi
  refine ⟨p, ?_⟩
  rw [names_of_follow hp, Vol.node, hfile]

theorem file_congr (hinode : V'.inode i = V.inode i)
    (hblock : ∀ k, (V.inode i).blocks k ≠ 0 → V'.block ((V.inode i).blocks k) = V.block ((V.inode i).blocks k)) :
    V'.file i = V.file i := by
  apply File.ext
  · exact congrArg (fun inode : Inode => inode.size.toNat) hinode
  · funext p
    by_cases hhole : blockAt (V.inode i) (p / blockSize) = 0
    · rw [bytes_hole (by rwa [hinode]), bytes_hole hhole]
    · rw [bytes_there (by rwa [hinode]), bytes_there hhole, byteOf_eq_bytesIn, byteOf_eq_bytesIn, hinode]
      refine congrArg some (congrFun (bytesIn_congr fun k hk => ?_) p)
      have hlt : k < ndirBlocks := by
        by_contra hge
        exact hk (dif_neg hge)
      rw [blockAt_eq _ hlt] at hk ⊢
      exact hblock _ hk

/-- The files an operation is not about. -/
theorem files_of_kept {touched : UInt32 → Prop} (hn : Named V live) (hkept : Kept V V' live live' touched)
    (htouch : ¬ touched i) (hnames : V'.names.HasFile i ↔ V.names.HasFile i) : V'.files i = V.files i := by
  refine files_congr hnames fun hfile => ?_
  obtain ⟨hi, hreg⟩ := mem_of_hasFile hn hfile
  obtain ⟨-, hinode, hblock⟩ := hkept i hi hreg htouch
  exact file_congr hinode hblock

/-- An operation about one file. -/
theorem files_update {touched : UInt32 → Prop} (hn : Named V live) (hkept : Kept V V' live live' touched)
    (htouch : ∀ j, touched j → j = i) (hnames : ∀ j, j ≠ i → (V'.names.HasFile j ↔ V.names.HasFile j)) :
    V'.files = Function.update V.files i (V'.files i) := by
  funext j
  rw [Function.update_apply]
  split
  · next hj => rw [hj]
  · next hj => exact files_of_kept hn hkept (fun ht => hj (htouch j ht)) (hnames j hj)

/-- An inode has one name. -/
theorem names_inj (hn : Named V live) {p q : List (List UInt8)} {node node' : Node} (hp : V.names p = some node)
    (hq : V.names q = some node') (hino : node.ino = node'.ino) : p = q := by
  obtain ⟨i, hi, rfl⟩ := Option.map_eq_some_iff.mp hp
  obtain ⟨j, hj, rfl⟩ := Option.map_eq_some_iff.mp hq
  obtain rfl : i = j := hino
  exact hn.rooted.follow_inj hi hj

theorem hasFile_update {T : Namespace} {q : List (List UInt8)} {x : Option Node} (hold : T q ≠ some ⟨i, false⟩)
    (hnew : x ≠ some ⟨i, false⟩) : Namespace.HasFile (Function.update T q x) i ↔ T.HasFile i := by
  refine exists_congr fun p => ?_
  rw [Function.update_apply]
  split
  · next hp => exact ⟨fun h => absurd h hnew, fun h => absurd (hp ▸ h) hold⟩
  · rfl

end Frame

/-! ## Writes and truncations -/

/-- The blocks a write meets are those of its bytes. -/
theorem meets_iff {pos n k : ℕ} : Meets pos n k ↔ ∃ q, pos ≤ q ∧ q < pos + n ∧ q / blockSize = k := by
  have hcut : 0 < blockSize := by decide
  unfold Meets spanned
  constructor
  · rintro ⟨hge, hlt⟩
    split at hlt
    · omega
    · have hends : pos / blockSize ≤ (pos + n - 1) / blockSize := Nat.div_le_div_right (by omega)
      have hk : k ≤ (pos + n - 1) / blockSize := by omega
      rw [Nat.le_div_iff_mul_le hcut] at hk
      rcases Nat.lt_or_ge pos (k * blockSize) with hbefore | hin
      · exact ⟨k * blockSize, by omega, by omega, Nat.mul_div_cancel k hcut⟩
      · have hle := (Nat.le_div_iff_mul_le hcut).mpr hin
        exact ⟨pos, le_rfl, by omega, by omega⟩
  · rintro ⟨q, hge, hlt, rfl⟩
    have hfirst := Nat.div_le_div_right (c := blockSize) hge
    have hlast : q / blockSize ≤ (pos + n - 1) / blockSize := Nat.div_le_div_right (by omega)
    rw [if_neg (by omega)]
    exact ⟨hfirst, by omega⟩

/-- A write with too few blocks comes to a first position it does not reach. -/
theorem exists_reach (inode : Inode) (pos len free : ℕ) :
    ∃ n ≤ len, ∀ p, Reaches inode pos len free p ↔ pos ≤ p ∧ p < pos + n := by
  have hend : ¬ Reaches inode pos len free (pos + len) := fun h => absurd h.2.1 (Nat.lt_irrefl _)
  have hex : ∃ n, ¬ Reaches inode pos len free (pos + n) := ⟨len, hend⟩
  have hbefore : ∀ {p q}, pos ≤ q → q ≤ p → Reaches inode pos len free p → Reaches inode pos len free q := by
    intro p q hge hle hreach
    obtain ⟨-, hlt, hfree⟩ := hreach
    have hblocks := Nat.div_le_div_right (c := blockSize) hle
    refine ⟨hge, by omega, le_trans ?_ hfree⟩
    apply List.Sublist.countP_le
    exact List.range'_sublist_right.mpr (by omega)
  refine ⟨Nat.find hex, Nat.find_min' hex hend, fun p => ⟨fun hreach => ⟨hreach.1, ?_⟩, fun hin => ?_⟩⟩
  · by_contra hge
    exact Nat.find_spec hex (hbefore (by omega) (by omega) hreach)
  · have hmin := not_not.mp (Nat.find_min hex (show p - pos < Nat.find hex by omega))
    rwa [Nat.add_sub_of_le hin.1] at hmin

/-- The blocks a truncation leaves. -/
theorem blockAt_truncated {inode : Inode} {size : ℕ} (p : ℕ) : blockAt (inode.truncated size) (p / blockSize) =
    if size < inode.size.toNat ∧ (size + blockSize - 1) / blockSize ≤ p / blockSize then 0
    else blockAt inode (p / blockSize) := by
  unfold Inode.truncated
  by_cases hlt : size < inode.size.toNat
  · rw [if_pos hlt]
    by_cases hbeyond : (size + blockSize - 1) / blockSize ≤ p / blockSize
    · rw [if_pos ⟨hlt, hbeyond⟩]
      unfold blockAt
      split
      · exact if_pos hbeyond
      · rfl
    · rw [if_neg fun hc => hbeyond hc.2]
      unfold blockAt
      split
      · exact if_neg hbeyond
      · rfl
  · rw [if_neg hlt, if_neg fun hc => hlt hc.1]

section Edit
variable {sb : Super} {V V' : Vol} {live : Set UInt32} {i : UInt32} {buf : List UInt8} {offset : ℕ} {now : UInt64}

theorem Wrote.overwritten (hs : LayoutSound sb) (hw : Wrote sb V V' live i buf offset now) :
    (V.file i).Overwritten offset buf (V'.file i) where
  size := hw.size
  there p hge hlt := by
    have hthere : blockAt (V'.inode i) (p / blockSize) ≠ 0 := by
      by_cases hhole : blockAt (V.inode i) (p / blockSize) = 0
      · have hfree := hw.blocks.fresh _ hhole (meets_iff.mpr ⟨p, hge, hlt, rfl⟩)
        obtain ⟨k, hk, hb⟩ := List.mem_map.mp (List.mem_filter.mp (List.mem_of_getElem? hfree)).1
        rw [← hb]
        exact (blockBit_number hs hk).1.ne_zero hs
      · rwa [hw.blocks.kept _ hhole]
    rw [bytes_there hthere, hw.bytes]
    exact congrArg some (if_pos ⟨hge, hlt⟩)
  kept p hout hold := by
    have hthere := mt bytes_eq_none.mpr hold
    have hsame := hw.blocks.kept _ hthere
    rw [bytes_there hthere, bytes_there (hsame ▸ hthere), hw.bytes, overlay_outside hout, byteOf_eq_bytesIn, Vol.bytesIn,
      hsame, Vol.bytesIn]
  holes p hhole hnone := by
    refine bytes_hole (hw.blocks.outside _ (bytes_eq_none.mp hhole) fun hmeet => ?_)
    obtain ⟨q, hge, hlt, hq⟩ := meets_iff.mp hmeet
    exact hnone q hge hlt hq

theorem file_of_landed {free n : ℕ} (hinode : V'.inode i = V.inode i) (hland : Landed V V' (V.inode i) offset buf free)
    (hn : ∀ p, Reaches (V.inode i) offset buf.length free p ↔ offset ≤ p ∧ p < offset + n) :
    V'.file i = (V.file i).putInto offset buf n := by
  apply File.ext
  · exact congrArg (fun inode : Inode => inode.size.toNat) hinode
  · funext p
    change _ = if (V.file i).bytes p ≠ none ∧ offset ≤ p ∧ p < offset + n then _ else (V.file i).bytes p
    by_cases hhole : blockAt (V.inode i) (p / blockSize) = 0
    · rw [bytes_hole (by rwa [hinode]), if_neg fun h => h.1 (bytes_hole hhole), bytes_hole hhole]
    · rw [bytes_there (by rwa [hinode]), byteOf_of_landed hinode hland hhole, bytes_there hhole, apply_ite some]
      refine if_congr ?_ rfl rfl
      rw [hn p]
      exact (and_iff_right (Option.some_ne_none _)).symm

variable (hs : LayoutSound sb) (h : VolOk sb V live) (hi : i ∈ live) (hfile : isDir (V.inode i).mode = false)
include hs h hi hfile

theorem does_opWrite_file (buf : List UInt8) (offset : ℕ) (now : UInt64) :
    ∃ r V', Does sb latest (opWrite sb i buf offset now) V r V' ∧ (V.file i).Writes offset buf r (V'.file i) := by
  by_cases hbig : maxFileSize < offset + buf.length
  · refine ⟨.error .efbig, V, ?_, .tooBig hbig⟩
    unfold opWrite
    rw [if_pos hbig]
    exact .throw _
  · have hmax := Nat.not_lt.mp hbig
    rcases Nat.lt_or_ge (V.freeCount sb) (holesIn (V.inode i) (offset / blockSize) (spanned offset buf.length)) with
      hfull | hfit
    · obtain ⟨V', hdoes, hinode, -, hland, -⟩ := does_opWrite_full hs h.owned hi hmax hfull now
      obtain ⟨n, hlen, hn⟩ := exists_reach (V.inode i) offset buf.length (V.freeCount sb)
      refine ⟨_, V', hdoes, ?_⟩
      rw [file_of_landed (congrFun hinode i) hland hn]
      exact .full hmax hlen
    · obtain ⟨V', hdoes, hw⟩ := does_opWrite_bytes hs h.owned hi hfile hmax hfit now
      exact ⟨_, V', hdoes, .written hmax (hw.overwritten hs)⟩

theorem does_truncateAt_file {size : ℕ} (hsize : size ≤ maxFileSize) (now : UInt64) :
    ∃ V', Does sb latest (truncateAt sb i size now) V (.ok ()) V' ∧ V'.file i = (V.file i).cut size := by
  obtain ⟨V', hdoes, -, -, hblock, hinode⟩ := does_truncateAt latest hi hfile hs h.owned hsize now
  refine ⟨V', hdoes, File.ext ?_ (funext fun p => ?_)⟩
  · change (V'.inode i).size.toNat = size
    rw [hinode]
    exact toNat_ofNat_size hsize
  · have hat : blockAt (V'.inode i) (p / blockSize) =
        if size < (V.inode i).size.toNat ∧ (size + blockSize - 1) / blockSize ≤ p / blockSize then 0
        else blockAt (V.inode i) (p / blockSize) := by
      rw [hinode]
      exact blockAt_truncated p
    unfold File.cut
    change _ = if size < (V.inode i).size.toNat ∧ (size + blockSize - 1) / blockSize ≤ p / blockSize then none else _
    by_cases hgone : size < (V.inode i).size.toNat ∧ (size + blockSize - 1) / blockSize ≤ p / blockSize
    · rw [if_pos hgone] at hat ⊢
      exact bytes_hole hat
    · rw [if_neg hgone] at hat ⊢
      unfold Vol.file
      dsimp only
      rw [hat, hblock]

end Edit

/-! ## The calls -/

/-- What changes of the namespace when something is added. -/
theorem Namespace.Adds.cases {T T' : Namespace} {path : List UInt8} {dir : Bool} {r : Except Errno UInt32}
    (h : T.Adds path dir r T') : (∃ e, r = .error e ∧ T' = T) ∨
      ∃ i q, r = .ok i ∧ T q = none ∧ ¬ T.HasFile i ∧ T' = Function.update T q (some ⟨i, dir⟩) := by
  unfold Namespace.Adds Namespace.AtPlace at h
  split at h
  · exact .inl ⟨_, h⟩
  · cases h with
    | full | notDir _ | taken _ _ => exact .inl ⟨_, rfl, rfl⟩
    | added _ free new =>
        refine .inr ⟨_, _, rfl, free, fun hfile => ?_, rfl⟩
        obtain ⟨q, hq⟩ := hfile
        exact new q _ hq rfl

theorem Namespace.Removes.cases {T T' : Namespace} {path : List UInt8} {dir : Bool} {r : Except Errno Unit}
    (h : T.Removes path dir r T') : (∃ e, r = .error e ∧ T' = T) ∨
      ∃ p name i, r = .ok () ∧ T.place path = .ok (p, name) ∧ T (p ++ [name]) = some ⟨i, dir⟩ ∧
        T' = Function.update T (p ++ [name]) none := by
  unfold Namespace.Removes Namespace.AtPlace at h
  split at h
  · exact .inl ⟨_, h⟩
  · next hplace =>
      cases h with
      | missing _ | notDir _ _ | notEmpty _ _ _ => exact .inl ⟨_, rfl, rfl⟩
      | removed there _ => exact .inr ⟨_, _, _, rfl, hplace, there, rfl⟩

section Calls
variable {sb : Super} {v : Image} {live : Set UInt32} {i : UInt32} (hs : LayoutSound sb) (hroot : sb.rootIno = rootIno)
  (h : VolOk sb (vol sb v) live)

theorem file_new {V : Vol} {mode : UInt32} {now : UInt64} (hinode : V.inode i = newFileInode mode now) :
    V.file i = .empty := by
  refine File.ext ?_ (funext fun p => bytes_hole ?_)
  · change (V.inode i).size.toNat = 0
    rw [hinode]
    rfl
  · rw [hinode]
    unfold blockAt
    split <;> rfl

include hs hroot h

theorem does_opCreate_file (path : List UInt8) (mode : UInt32) (now : UInt64) :
    ∃ r V', Does sb latest (opCreate sb path mode now) (vol sb v) r V' ∧ ∀ i, r = .ok i → V'.file i = .empty := by
  unfold opCreate
  cases splitParent path with
  | error e => exact ⟨_, _, .throw _, fun i hi => by cases hi⟩
  | ok cut =>
      obtain ⟨parent, name⟩ := cut
      rcases does_pathLookup latest hs h.owned h.named hroot parent with ⟨e, hpath⟩ | ⟨d, hd, hpath⟩
      · exact ⟨_, _, Interaction.Acts.bind_error hpath, fun i hi => by cases hi⟩
      · cases hnext : (vol sb v).nextIno sb with
        | none =>
            refine ⟨_, _, hpath.bind (Does.withHandle (does_allocInode_full hs hnext).bind_error), fun i hi => ?_⟩
            cases hi
        | some i =>
            obtain ⟨hino, hfree⟩ := nextIno_free hs hnext
            have hi := h.owned.not_mem_of_free hfree
            have hid : i ≠ d := fun he => hi (he ▸ hd)
            let V := ((vol sb v).markInode i true).setInode i (newFileInode mode now)
            have hinode : V.inode i = newFileInode mode now := by simp [V]
            have howned : Owned sb V (insert i live) :=
              (h.owned.markInode i).setInode ⟨hino, by simp⟩ Owned.MayOwn.holes (shaped_newFile mode now)
            rcases does_dirAdd latest ftReg name hs howned (Set.mem_insert_of_mem _ hd) hino.ne_zero with
              ⟨e, hadd⟩ | ⟨s, V', hadd, hadded, -, -⟩
            · refine ⟨_, V, hpath.bind (Does.withHandle ((does_allocInode hs hnext).bind
                ((does_inodeWrite hs hino _).bind hadd.bind_error))), fun i hi => ?_⟩
              cases hi
            · refine ⟨_, V', hpath.bind (Does.withHandle ((does_allocInode hs hnext).bind
                ((does_inodeWrite hs hino _).bind (hadd.bind (.pure _))))), fun j hj => ?_⟩
              cases hj
              exact file_new ((hadded.inode i hid).trans hinode)

/-- Either nothing comes of `unlink`, or its target is the file that has the name. -/
theorem unlink_fails_or_finds {path : List UInt8} (hproper : (FsOp.unlink path).Proper sb latest v) :
    (∃ e, Does sb latest (opUnlink sb path) (vol sb v) (.error e) (vol sb v)) ∨
      ∃ p name q i, (vol sb v).names.place path = .ok (p, name) ∧ (vol sb v).names.enter p name = .ok q ∧
        (vol sb v).names (p ++ [name]) = some ⟨i, false⟩ ∧ ∀ j, (FsOp.unlink path).Touches sb latest v j → j = i := by
  obtain ⟨hname, hfile⟩ := hproper
  unfold Namespace.place
  cases hsplit : splitParent path with
  | error e =>
      refine .inl ⟨e, ?_⟩
      unfold opUnlink
      rw [hsplit]
      exact .throw e
  | ok cut =>
      obtain ⟨parent, name⟩ := cut
      have hop : opUnlink sb path = unlinkAt sb parent name := by
        unfold opUnlink
        rw [hsplit]
      have hfind := does_pathLookup_names hs h.owned h.named hroot parent
      rw [hop]
      cases hplace : (vol sb v).names.find parent with
      | error e =>
          rw [hplace] at hfind
          exact .inl ⟨_, hfind.bind_error⟩
      | ok p =>
          rw [hplace] at hfind
          obtain ⟨d, hp, hdoes⟩ := hfind
          obtain ⟨-, -, -, hne, -, hlen⟩ := splitParent_ok hsplit
          rcases does_dirLookup_names hs h.owned h.named hp hne hlen with ⟨e, -, hlook⟩ | ⟨s, l, hl, rfl, hlook⟩
          · exact .inl ⟨_, hdoes.bind hlook.bind_error⟩
          · have htouch := touches_unlink hsplit hdoes hlook
            obtain ⟨q, henter, -⟩ := follow_entered h.named hp hl
            refine .inr ⟨p, l.name, q, l.ino, congrArg (Except.map fun p => (p, l.name)) hplace, henter, ?_, fun j hj => ?_⟩
            · rw [names_of_follow (follow_link h hp hl (hname parent l.name hsplit)), Vol.node, hfile _ htouch]
            · exact Except.ok.inj (hj.symm.trans htouch)

omit hs hroot h in
theorem afterCall_does {c : UserCall} (now : UInt64) {r : Except Errno Reply} {V' : Vol}
    (hdoes : Does sb latest (c.program sb now) (vol sb v) r V') :
    answer sb (c.program sb now) v = r ∧ vol sb (afterCall sb v (c, now)) = V' := hdoes v rfl

/-- The other files after a change. -/
theorem files_change {op : FsOp} (hproper : op.Proper sb latest v) (now : UInt64) {j : UInt32}
    (htouch : ¬ op.Touches sb latest v j)
    (hnames : (vol sb (afterCall sb v (.change op, now))).names.HasFile j ↔ (vol sb v).names.HasFile j) :
    (vol sb (afterCall sb v (.change op, now))).files j = (vol sb v).files j := by
  obtain ⟨r, V', live', hdoes, -, hkept⟩ := keeps_reply hs hroot h hproper now
  obtain ⟨-, hV'⟩ := afterCall_does (c := .change op) now hdoes
  rw [hV'] at hnames ⊢
  exact files_of_kept h.named hkept htouch hnames

variable (now : UInt64)

/-- Directories come and go without a change of the files. -/
theorem files_mkdir {path : List UInt8} {mode : UInt32} (hproper : (FsOp.mkdir path mode).Proper sb latest v) :
    (vol sb (afterCall sb v (.change (.mkdir path mode), now))).files = (vol sb v).files := by
  obtain ⟨r, hadds, -⟩ := step_afterCall hs hroot h (c := (.change (.mkdir path mode), now)) hproper
  funext j
  refine files_change hs hroot h hproper now (fun ht => by cases ht) ?_
  rcases hadds.cases with ⟨e, -, hsame⟩ | ⟨i, q, -, hfree, -, hnew⟩
  · rw [hsame]
  · rw [hnew]
    exact hasFile_update (by simp [hfree]) (by simp)

theorem files_rmdir {path : List UInt8} (hproper : (FsOp.rmdir path).Proper sb latest v) :
    (vol sb (afterCall sb v (.change (.rmdir path), now))).files = (vol sb v).files := by
  obtain ⟨r, hremoves, -⟩ := step_afterCall hs hroot h (c := (.change (.rmdir path), now)) hproper
  funext j
  refine files_change hs hroot h hproper now (fun ht => by cases ht) ?_
  rcases hremoves.cases with ⟨e, -, hsame⟩ | ⟨p, name, i, -, -, hthere, hgone⟩
  · rw [hsame]
  · rw [hgone]
    exact hasFile_update (by simp [hthere]) (by simp)

theorem files_create {path : List UInt8} {mode : UInt32} (hproper : (FsOp.create path mode).Proper sb latest v) :
    (vol sb v).files.Step (vol sb v).names (.change (.create path mode))
      (answer sb ((UserCall.change (.create path mode)).program sb now) v)
      (vol sb (afterCall sb v (.change (.create path mode), now))).files := by
  obtain ⟨r, hadds, hr⟩ := step_afterCall hs hroot h (c := (.change (.create path mode), now)) hproper
  have hothers := fun j => files_change hs hroot h hproper now (j := j) (fun ht => by cases ht)
  rcases hadds.cases with ⟨e, rfl, hsame⟩ | ⟨i, q, rfl, hfree, hfresh, hnew⟩
  · refine .inl ⟨e, hr, funext fun j => hothers j ?_⟩
    rw [hsame]
  · refine .inr ⟨i, hr, files_eq_none.mpr hfresh, funext fun j => ?_⟩
    rw [Function.update_apply]
    split
    · next hji =>
        subst hji
        refine files_eq_some.mpr ⟨⟨q, ?_⟩, ?_⟩
        · rw [hnew, Function.update_self]
        · obtain ⟨r, V', hdoes, hempty⟩ := does_opCreate_file hs hroot h path mode now
          obtain ⟨hanswer, hV'⟩ := afterCall_does (c := .change (.create path mode)) now hdoes.map
          rw [hV']
          apply hempty
          have hboth := hanswer.symm.trans hr
          cases r with
          | error e => cases hboth
          | ok j =>
              cases hboth
              rfl
    · next hji =>
        refine hothers j ?_
        rw [hnew]
        refine hasFile_update (by simp [hfree]) fun heq => hji ?_
        exact (congrArg Node.ino (Option.some.inj heq)).symm

theorem files_unlink {path : List UInt8} (hproper : (FsOp.unlink path).Proper sb latest v) :
    (vol sb v).files.Step (vol sb v).names (.change (.unlink path))
      (answer sb ((UserCall.change (.unlink path)).program sb now) v)
      (vol sb (afterCall sb v (.change (.unlink path), now))).files := by
  rcases unlink_fails_or_finds hs hroot h hproper with ⟨e, hdoes⟩ | ⟨p, name, q, i, hplace, henter, hthere, htouch⟩
  · obtain ⟨hanswer, hV'⟩ := afterCall_does (c := .change (.unlink path)) now hdoes.map
    exact .inl ⟨e, hanswer, by rw [hV']⟩
  · obtain ⟨r, hremoves, hr⟩ := step_afterCall hs hroot h (c := (.change (.unlink path), now)) hproper
    have hothers := fun j (hji : j ≠ i) => files_change hs hroot h hproper now fun ht => hji (htouch j ht)
    unfold Namespace.Removes Namespace.AtPlace at hremoves
    rw [hplace] at hremoves
    generalize hT' : (vol sb (afterCall sb v (.change (.unlink path), now))).names = T' at hremoves hothers
    cases hremoves with
    | missing no => cases henter.symm.trans no
    | notDir wants _ => cases wants
    | notEmpty wants _ _ => cases wants
    | removed there _ =>
        refine .inr ⟨p, name, i, hr, hplace, hthere, funext fun j => ?_⟩
        rw [Function.update_apply]
        split
        · next hji =>
            subst hji
            rw [files_eq_none, hT']
            rintro ⟨q, hq⟩
            rw [Function.update_apply] at hq
            split at hq
            · cases hq
            · next hne => exact hne (names_inj h.named hq hthere rfl)
        · next hji =>
            refine hothers j hji (hasFile_update (fun heq => hji ?_) (by simp))
            rw [hthere] at heq
            exact (congrArg Node.ino (Option.some.inj heq)).symm

/-- A change of one file that keeps its name. -/
theorem files_edit {op : FsOp} (hproper : op.Proper sb latest v) {i : UInt32} {r : Except Errno Reply} {V' : Vol}
    {f' : File} (htouch : ∀ j, op.Touches sb latest v j → j = i)
    (hdoes : Does sb latest (op.reply sb now) (vol sb v) r V') (hnames : V'.names = (vol sb v).names)
    (hi : (vol sb v).names.HasFile i) (hfile : V'.file i = f') :
    answer sb ((UserCall.change op).program sb now) v = r ∧
      (vol sb (afterCall sb v (.change op, now))).files = Function.update (vol sb v).files i (some f') := by
  obtain ⟨hanswer, hV'⟩ := afterCall_does (c := .change op) now hdoes
  obtain ⟨r₂, V₂, live', hdoes₂, -, hkept⟩ := keeps_reply hs hroot h hproper now
  obtain ⟨-, rfl⟩ := hdoes.det hdoes₂
  refine ⟨hanswer, ?_⟩
  rw [hV', files_update h.named hkept htouch fun j _ => by rw [hnames]]
  congr 1
  exact files_eq_some.mpr ⟨hnames ▸ hi, hfile⟩

theorem files_write {fh : UInt32} {buf : List UInt8} {offset : ℕ}
    (hproper : (FsOp.write fh buf offset).Proper sb latest v) :
    (vol sb v).files.Step (vol sb v).names (.change (.write fh buf offset))
      (answer sb ((UserCall.change (.write fh buf offset)).program sb now) v)
      (vol sb (afterCall sb v (.change (.write fh buf offset), now))).files := by
  obtain ⟨hlive, hreg⟩ := hproper fh rfl
  have hi := h.named.live_iff.mp hlive
  have hfile := not_isDir_of_isReg hreg
  obtain ⟨r, V', hdoes, hwrites⟩ := does_opWrite_file hs h hi hfile buf offset now
  obtain ⟨r₂, V₂, hdoes₂, hnames⟩ := does_opWrite_names h hi hfile hs buf offset now
  obtain ⟨-, rfl⟩ := hdoes.det hdoes₂
  have hthere := hasFile_of_mem h.named hi hfile
  obtain ⟨hanswer, hfiles⟩ := files_edit hs hroot h now hproper (fun j hj => (Except.ok.inj hj).symm) hdoes.map hnames
    hthere rfl
  exact ⟨_, r, _, files_eq_some.mpr ⟨hthere, rfl⟩, hwrites, hanswer, hfiles⟩

theorem files_truncate {path : List UInt8} {fh : Option UInt32} {size : ℕ}
    (hproper : (FsOp.truncate path fh size).Proper sb latest v) :
    (vol sb v).files.Step (vol sb v).names (.change (.truncate path fh size))
      (answer sb ((UserCall.change (.truncate path fh size)).program sb now) v)
      (vol sb (afterCall sb v (.change (.truncate path fh size), now))).files := by
  have hfails : ∀ e, Does sb latest (opTruncate sb path fh size now) (vol sb v) (.error e) (vol sb v) →
      answer sb ((UserCall.change (.truncate path fh size)).program sb now) v = .error e ∧
        (vol sb (afterCall sb v (.change (.truncate path fh size), now))).files = (vol sb v).files := by
    intro e hdoes
    obtain ⟨hanswer, hV'⟩ := afterCall_does (c := .change (.truncate path fh size)) now hdoes.map
    exact ⟨hanswer, by rw [hV']⟩
  have hfound : ∀ i, Does sb latest (fileTarget sb path fh) (vol sb v) (.ok i) (vol sb v) → size ≤ maxFileSize →
      ∃ f, (vol sb v).files i = some f ∧
        answer sb ((UserCall.change (.truncate path fh size)).program sb now) v = .ok .done ∧
          (vol sb (afterCall sb v (.change (.truncate path fh size), now))).files =
            Function.update (vol sb v).files i (some (f.cut size)) := by
    intro i htarget hsize
    obtain ⟨hlive, hreg⟩ := hproper i htarget.touches
    have hi := h.named.live_iff.mp hlive
    have hfile := not_isDir_of_isReg hreg
    obtain ⟨V', hdoes, hcut⟩ := does_truncateAt_file hs h hi hfile hsize now
    obtain ⟨V₂, hdoes₂, hnames⟩ := does_truncateAt_names h hi hfile hs hsize now
    obtain ⟨-, rfl⟩ := hdoes.det hdoes₂
    have hop : Does sb latest (opTruncate sb path fh size now) (vol sb v) (.ok ()) V' := by
      unfold opTruncate
      rw [if_neg (Nat.not_lt.mpr hsize)]
      exact htarget.bind hdoes
    have hthere := hasFile_of_mem h.named hi hfile
    have hone : ∀ j, (FsOp.truncate path fh size).Touches sb latest v j → j = i := fun j hj =>
      Except.ok.inj (hj.symm.trans htarget.touches)
    exact ⟨_, files_eq_some.mpr ⟨hthere, rfl⟩, files_edit hs hroot h now hproper hone hop.map hnames hthere hcut⟩
  unfold Files.Step
  dsimp only
  split
  · next hbig =>
      refine hfails _ ?_
      unfold opTruncate
      rw [if_pos hbig]
      exact .throw _
  · next hsize =>
      have hsize := Nat.not_lt.mp hsize
      cases fh with
      | some i => exact hfound i (.pure _) hsize
      | none =>
          have hfind := does_pathLookup_names hs h.owned h.named hroot path
          unfold Namespace.target
          dsimp only
          cases hplace : (vol sb v).names.find path with
          | error e =>
              rw [hplace] at hfind
              refine hfails e ?_
              unfold opTruncate
              rw [if_neg (Nat.not_lt.mpr hsize)]
              exact hfind.bind_error
          | ok p =>
              rw [hplace] at hfind
              obtain ⟨i, hp, hdoes⟩ := hfind
              dsimp only
              rw [names_of_follow hp]
              exact hfound i hdoes hsize

/-- Each call leaves the files as specified, and replies so. -/
theorem files_afterCall {c : UserCall × UInt64} (hproper : c.1.Proper sb v) :
    (vol sb v).files.Step (vol sb v).names c.1 (answer sb (c.1.program sb c.2) v) (vol sb (afterCall sb v c)).files := by
  obtain ⟨c, now⟩ := c
  cases c with
  | getattr path =>
      obtain ⟨r, hdoes, -⟩ := does_opGetattr_names hs hroot h path
      obtain ⟨hanswer, hV'⟩ := afterCall_does (c := .getattr path) now hdoes.map
      refine ⟨by rw [hV'], fun stat f hr hf => ?_⟩
      obtain ⟨-, rfl⟩ := files_eq_some.mp hf
      rcases does_pathLookup latest hs h.owned h.named hroot path with ⟨e, hpath⟩ | ⟨i, hi, hpath⟩
      · have hfail : Does sb latest (opGetattr sb path) (vol sb v) (.error e) (vol sb v) :=
          Interaction.Acts.bind_error hpath
        cases hr.symm.trans (afterCall_does (c := .getattr path) now hfail.map).1
      · have hread := does_inodeRead latest (V := vol sb v) hs (h.owned.inUse hi).1
        have hstat : Does sb latest (opGetattr sb path) (vol sb v) (.ok (inodeToStat i ((vol sb v).inode i))) (vol sb v) :=
          hpath.bind (hread.bind (.pure _))
        cases hr.symm.trans (afterCall_does (c := .getattr path) now hstat.map).1
        rfl
  | readdir path =>
      obtain ⟨r, hdoes, -⟩ := does_opReaddir_names hs hroot h path
      obtain ⟨-, hV'⟩ := afterCall_does (c := .readdir path) now hdoes.map
      exact congrArg Vol.files hV'
  | read fh size offset =>
      have hdoes := does_opRead latest hs h.owned (h.named.live_iff.mp hproper) size offset
      obtain ⟨hanswer, hV'⟩ := afterCall_does (c := .read fh size offset) now hdoes.map
      refine ⟨by rw [hV'], fun f hf => ?_⟩
      obtain ⟨-, rfl⟩ := files_eq_some.mp hf
      refine hanswer.trans (congrArg (fun bytes => Except.ok (Reply.bytes bytes)) ?_)
      exact List.map_congr_left fun k _ => (getD_bytes fh (offset + k)).symm
  | change op =>
      cases op with
      | mkdir path mode => exact files_mkdir hs hroot h now hproper
      | rmdir path => exact files_rmdir hs hroot h now hproper
      | create path mode => exact files_create hs hroot h now hproper
      | write fh buf offset => exact files_write hs hroot h now hproper
      | truncate path fh size => exact files_truncate hs hroot h now hproper
      | unlink path => exact files_unlink hs hroot h now hproper

end Calls

end Logfs
