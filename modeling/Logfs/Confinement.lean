import Logfs.BoundedRecords
import Logfs.Lib.Contract

/-!
# Where the file system reaches

Whatever the transaction manager answers, as long as the inode records it hands out are bounded, the
calls of the file system ask for bitmap, inode table and data blocks only. A buffer is changed right
after access to it was given, and data is written to data blocks only.
-/
namespace Logfs
open Interaction WriteCache ByteBuffer

variable {sb : Super} {W : Prop} {α : Type} {Q : α → Prop} {inode : Inode} {b : UInt64} {data : Block}

/-- The blocks from the inode bitmap on: bitmaps, inode table and data. -/
def IsFs (sb : Super) (b : UInt64) : Prop := sb.inodeBitmapStart ≤ b ∧ b < sb.totalBlocks

/-- Where a call is: before its handle, between `logfs_txn_start` and `logfs_txn_stop` with the block
whose buffer it was given last, or after its handle. -/
inductive Stage
  | before
  | inside (held : Option UInt64)
  | ended

def Stage.IsInside : Stage → Prop
  | .inside _ => True
  | _ => False

/-- The block whose buffer was given last. -/
def Stage.held : Stage → Option UInt64
  | .inside held => held
  | _ => none

/-- What the calls ask of the manager. A call has at most one handle, changes blocks only while it has
it, and asks for nothing afterwards. With `W` false there are no data writes. -/
def fsContract (sb : Super) (W : Prop) : Contract TxnRes Stage where
  allowed
    | .before, .start | .inside _, .stop => True
    | .before, .readBlock b | .inside _, .readBlock b => IsFs sb b
    | .inside _, .getWriteAccess b | .inside _, .dirtyMetadata b => IsFs sb b
    | .inside held, .modify b data => held = some b ∧ IsFs sb b ∧ BlockBounded sb b data
    | .inside _, .writeData b _ => W ∧ IsData sb b
    | _, _ => False
  answers
    | .readBlock b, r | .getWriteAccess b, r => ∀ data, r = .ok data → BlockBounded sb b data
    | .start, _ | .stop, _ | .modify _ _, _ | .dirtyMetadata _, _ | .writeData _ _, _ => True
  next
    | .before, .start, _ => .inside none
    | .inside _, .stop, _ => .ended
    | .inside _, .getWriteAccess b, .ok _ => .inside (some b)
    | .inside _, _, _ => .inside none
    | g, _, _ => g

/-- A part of a call that asks for reads only, or has a handle. -/
inductive Part
  | reading
  | changing

def Part.At : Part → Stage → Prop
  | .reading => fun g => g = .before
  | .changing => Stage.IsInside

variable {part : Part}

/-- The part stays with the blocks of the file system and leaves the handle alone. -/
abbrev Stays (sb : Super) (W : Prop) (part : Part) (p : TxnEM α) (Q : α → Prop) : Prop :=
  Obeys (fsContract sb W) part.At p Q

/-- The program goes on with the buffer of `b`. -/
abbrev StaysWith (sb : Super) (W : Prop) (b : UInt64) (p : TxnEM α) (Q : α → Prop) : Prop :=
  ObeysFrom (fsContract sb W) Part.changing.At (.inside (some b)) p Q

/-- A whole call, or what is left of it before its handle. -/
abbrev StaysCall (sb : Super) (W : Prop) (p : TxnEM α) : Prop :=
  ObeysFrom (fsContract sb W) (fun g => ¬ g.IsInside) .before p fun _ => True

/-! ## Blocks of the file system -/

section Layout
variable (hs : LayoutSound sb)
include hs

theorem isFs_inodeBitmap : IsFs sb sb.inodeBitmapStart := ⟨UInt64.le_refl _, hs.inodeBitmap_lt⟩

theorem isFs_blockBitmap : IsFs sb sb.blockBitmapStart := by
  have h := hs.regions
  exact ⟨UInt64.le_iff_toNat_le.mpr (by omega), hs.blockBitmap_lt⟩

theorem isFs_table {i : UInt32} (hi : InRange sb i) : IsFs sb (inodeLocation sb i).1 := by
  have h := hs.regions
  have hloc := (hs.isIno hi).table_lt
  exact ⟨UInt64.le_iff_toNat_le.mpr (by omega), hs.location_lt (hs.isIno hi)⟩

theorem IsData.isFs (hb : IsData sb b) : IsFs sb b := by
  have h := hs.regions
  have hlow := UInt64.le_iff_toNat_le.mp hb.1
  exact ⟨UInt64.le_iff_toNat_le.mpr (by omega), hb.2⟩

end Layout

/-! ## The calls of `txn.h` -/

theorem stays_readBlock (hb : IsFs sb b) : Stays sb W part (TxnEM.readBlock b) (BlockBounded sb b) := by
  refine .perform (fun g hg => ?_) fun _ hr => hr
  cases part with
  | reading =>
      obtain rfl : g = .before := hg
      exact ⟨hb, fun _ _ => rfl⟩
  | changing =>
      cases g with
      | inside held => exact ⟨hb, fun _ _ => trivial⟩
      | before | ended => exact hg.elim

theorem stays_dirtyMetadata (hb : IsFs sb b) : Stays sb W .changing (TxnEM.dirtyMetadata b) fun _ => True := by
  refine .perform (fun g hg => ?_) fun _ _ _ _ => trivial
  cases g with
  | inside held => exact ⟨hb, fun _ _ => trivial⟩
  | before | ended => exact hg.elim

theorem stays_writeData (hW : W) (hb : IsData sb b) (buf : Block) :
    Stays sb W .changing (TxnEM.writeData b buf) fun _ => True := by
  refine .perform (fun g hg => ?_) fun _ _ _ _ => trivial
  cases g with
  | inside held => exact ⟨⟨hW, hb⟩, fun _ _ => trivial⟩
  | before | ended => exact hg.elim

/-- The program goes on with the buffer it is given. -/
theorem stays_access {k : Block → TxnEM α} (hb : IsFs sb b)
    (hk : ∀ buf, BlockBounded sb b buf → StaysWith sb W b (k buf) Q) :
    Stays sb W .changing (TxnEM.getWriteAccess b >>= k) Q := by
  intro g hg
  cases g with
  | before | ended => exact hg.elim
  | inside held =>
      refine ObeysFrom.perform (f := k) (o := .getWriteAccess b) (k := id) hb fun r hr => ?_
      cases r with
      | error e => exact ⟨fun _ _ => trivial, fun _ h => (by cases h)⟩
      | ok buf =>
          refine ⟨fun _ h => (by cases h), ?_⟩
          rintro _ ⟨⟩
          exact hk buf (hr buf rfl)

theorem staysWith_modify {k : Unit → TxnEM α} (hb : IsFs sb b) (hdata : BlockBounded sb b data)
    (hk : Stays sb W .changing (k ()) Q) : StaysWith sb W b (TxnEM.modify b data >>= k) Q := by
  refine ObeysFrom.perform (f := k) (o := .modify b data) (k := fun _ => .ok ()) ⟨rfl, hb, hdata⟩ ?_
  exact fun _ _ => ⟨fun _ h => (by cases h), fun _ _ => hk _ trivial⟩

/-- `modify` followed by `dirtyMetadata`. -/
theorem staysWith_stage (hb : IsFs sb b) (hdata : BlockBounded sb b data) :
    StaysWith sb W b (do TxnEM.modify b data; TxnEM.dirtyMetadata b) fun _ => True :=
  staysWith_modify hb hdata (stays_dirtyMetadata hb)

/-- The handle of a call comes last. -/
theorem Stays.withHandle {p : TxnEM α} (hp : Stays sb W .changing p fun _ => True) : StaysCall sb W p.withHandle := by
  refine ⟨trivial, fun _ _ => ?_⟩
  refine Abides.seq (hp _ trivial) fun g r hr => ?_
  cases g with
  | inside held => exact ⟨trivial, fun _ _ => ⟨id, fun _ _ => trivial⟩⟩
  | before | ended => exact hr.1.elim

/-- A call reads first. -/
theorem Stays.then {β : Type} {p : TxnEM α} {f : α → TxnEM β} (hp : Stays sb W .reading p Q)
    (hf : ∀ a, Q a → StaysCall sb W (f a)) : StaysCall sb W (p >>= f) := by
  refine (hp .before rfl).bind ?_ ?_
  · rintro g a rfl ha
    exact hf a ha
  · rintro g rfl
    exact id

/-- A call that only reads. -/
theorem Stays.call {p : TxnEM α} (hp : Stays sb W .reading p Q) : StaysCall sb W p := by
  refine (hp .before rfl).mono ?_ fun _ _ => trivial
  rintro g rfl
  exact id

theorem StaysCall.throw (e : Errno) : StaysCall sb W (throw e : TxnEM α) := ObeysFrom.throw id e

theorem StaysCall.ite {B : Prop} [Decidable B] {p q : TxnEM α} (hp : B → StaysCall sb W p)
    (hq : ¬ B → StaysCall sb W q) : StaysCall sb W (if B then p else q) := by
  by_cases h : B
  · rw [if_pos h]
    exact hp h
  · rw [if_neg h]
    exact hq h

/-- The answer of a call becomes a reply. -/
theorem StaysCall.reply {p : TxnEM α} (hp : StaysCall sb W p) (f : α → Reply) :
    StaysCall sb W (do let a ← p; return f a) :=
  hp.bind (fun _ _ hg _ => .pure hg trivial) fun _ hg => hg

theorem Stays.result {p : TxnEM α} (hp : Stays sb W part p Q) :
    Stays sb W part p.result fun r => ∀ a, r = .ok a → Q a := by
  intro g hg
  refine Abides.seq (hp g hg) fun g' r hr => ⟨hr.1, ?_⟩
  rintro _ ⟨⟩
  exact hr.2

/-! ## The functions of `inode.c` -/

section Functions
variable (hs : LayoutSound sb)
include hs

theorem stays_inodeRead (i : UInt32) : Stays sb W part (inodeRead sb i) (Bounded sb) := by
  unfold inodeRead
  refine .ite (fun _ => .throw _) fun hin => ?_
  rw [outOfRange_iff, not_not] at hin
  exact (stays_readBlock (isFs_table hs hin)).bind fun buf hbuf => .pure (hbuf i hin rfl)

/-- A directory's search reads the blocks of the directory. -/
theorem stays_findEntry (p : Dirent → Bool) {bs : List UInt64} (hbs : ∀ b ∈ bs, b = 0 ∨ IsData sb b) :
    Stays sb W part (findEntry p bs) fun r => ∀ b e ent, r = some (b, e, ent) → IsData sb b := by
  induction bs with
  | nil => exact .pure (by simp)
  | cons c bs ih =>
      unfold findEntry
      refine .ite (fun _ => .pure (by simp)) fun hc => ?_
      have hdata := (hbs c List.mem_cons_self).resolve_left hc
      refine (stays_readBlock (hdata.isFs hs)).bind fun buf _ => ?_
      cases findInBlock p buf with
      | some e =>
          refine .pure ?_
          rintro b e' ent ⟨⟩
          exact hdata
      | none => exact ih fun b hb => hbs b (List.mem_cons_of_mem c hb)

theorem stays_dirLookup (d : UInt32) (name : List UInt8) : Stays sb W part (dirLookup sb d name) fun _ => True := by
  refine (stays_inodeRead hs d).bind fun dir hdir => ?_
  refine .ite (fun _ => .throw _) fun _ => .ite (fun _ => .throw _) fun _ => ?_
  refine (stays_findEntry hs _ fun b => hdir.mem_blocks).bind fun r _ => ?_
  cases r with
  | none => exact .throw _
  | some _ => exact .pure trivial

theorem stays_walk (cur : UInt32) (comps : List (List UInt8)) : Stays sb W part (walk sb cur comps) fun _ => True := by
  induction comps generalizing cur with
  | nil => exact .pure trivial
  | cons comp rest ih =>
      unfold walk
      exact .ite (fun _ => .throw _) fun _ => (stays_dirLookup hs cur comp).bind fun next _ => ih next.1

theorem stays_pathLookup (path : List UInt8) : Stays sb W part (pathLookup sb path) fun _ => True :=
  .ite (fun _ => .throw _) fun _ => stays_walk hs _ _

theorem stays_dirIsEmpty (d : UInt32) : Stays sb W part (dirIsEmpty sb d) fun _ => True := by
  refine (stays_inodeRead hs d).bind fun dir hdir => .ite (fun _ => .throw _) fun _ => ?_
  exact (stays_findEntry hs _ fun b => hdir.mem_blocks).bind fun _ _ => .pure trivial

theorem stays_inodeWrite (i : UInt32) (h : Bounded sb inode) : Stays sb W .changing (inodeWrite sb i inode) fun _ => True := by
  unfold inodeWrite
  refine .ite (fun _ => .throw _) fun hin => ?_
  rw [outOfRange_iff, not_not] at hin
  have hb := isFs_table hs hin
  exact stays_access hb fun buf hbuf => staysWith_stage hb (hbuf.encode hs hin h)

theorem stays_allocInode : Stays sb W .changing (allocInode sb) fun _ => True := by
  have hb := isFs_inodeBitmap hs
  refine stays_access hb fun bitmap _ => ?_
  cases (inodeBits sb).find? fun i => !testBit bitmap i with
  | none => exact .throw trivial _
  | some i =>
      refine staysWith_modify hb (blockBounded_inodeBitmap hs _) ?_
      exact (stays_dirtyMetadata hb).bind fun _ _ => .pure trivial

theorem stays_freeInode (i : UInt32) : Stays sb W .changing (freeInode sb i) fun _ => True := by
  have hb := isFs_inodeBitmap hs
  exact .ite (fun _ => .throw _) fun _ =>
    stays_access hb fun _ _ => staysWith_stage hb (blockBounded_inodeBitmap hs _)

/-- Whatever the bitmap holds, the block handed out is a data block. -/
theorem stays_allocBlock : Stays sb W .changing (allocBlock sb) (IsData sb) := by
  have hb := isFs_blockBitmap hs
  refine stays_access hb fun bitmap _ => ?_
  cases hfind : (blockBits sb).find? fun i => !testBit bitmap i with
  | none => exact .throw trivial _
  | some i =>
      have hdata := (blockBit_number hs (List.mem_of_find?_eq_some hfind)).1
      refine staysWith_modify hb (blockBounded_blockBitmap hs _) ?_
      exact (stays_dirtyMetadata hb).bind fun _ _ => .pure hdata

theorem stays_freeBlock (b : UInt64) : Stays sb W .changing (freeBlock sb b) fun _ => True := by
  have hb := isFs_blockBitmap hs
  exact .ite (fun _ => .throw _) fun _ =>
    stays_access hb fun _ _ => staysWith_stage hb (blockBounded_blockBitmap hs _)

theorem stays_dirAddLoop (d : UInt32) {dir : Inode} (hdir : Bounded sb dir) (hmode : isDir dir.mode = true)
    (name : List UInt8) (ino : UInt32) (type : UInt8) (ks : List (Fin ndirBlocks)) :
    Stays sb W .changing (dirAddLoop sb d dir name ino type ks) fun _ => True := by
  induction ks with
  | nil => exact .throw _
  | cons k ks ih =>
      unfold dirAddLoop
      refine .ite (fun _ => ?_) fun hne => ?_
      · refine (stays_allocBlock hs).bind fun b hb => ?_
        refine stays_access (hb.isFs hs) fun _ _ => ?_
        refine staysWith_modify (hb.isFs hs) (blockBounded_data hs hb _) ?_
        refine (stays_dirtyMetadata (hb.isFs hs)).bind fun _ _ => ?_
        exact stays_inodeWrite hs d (hdir.grow hmode hb _)
      · have hb := (hdir.blocks k).resolve_left hne
        refine (stays_readBlock (hb.isFs hs)).bind fun rbuf _ => ?_
        cases findInBlock (fun d => d.ino == 0) rbuf with
        | none => exact ih
        | some e =>
            exact stays_access (hb.isFs hs) fun _ _ => staysWith_stage (hb.isFs hs) (blockBounded_data hs hb _)

theorem stays_dirAdd (d : UInt32) (name : List UInt8) (ino : UInt32) (type : UInt8) :
    Stays sb W .changing (dirAdd sb d name ino type) fun _ => True := by
  refine (stays_inodeRead hs d).bind fun dir hdir => .ite (fun _ => .throw _) fun hmode => ?_
  refine .ite (fun _ => .throw _) fun _ => ?_
  refine (stays_dirLookup hs d name).result.bind fun r _ => ?_
  cases r with
  | ok _ => exact .throw _
  | error _ => exact stays_dirAddLoop hs d hdir (by simpa using hmode) name ino type _

theorem stays_dirRemove (d : UInt32) (name : List UInt8) : Stays sb W .changing (dirRemove sb d name) fun _ => True := by
  refine (stays_inodeRead hs d).bind fun dir hdir => .ite (fun _ => .throw _) fun _ => ?_
  refine (stays_findEntry hs _ fun b => hdir.mem_blocks).bind fun r hr => ?_
  cases r with
  | none => exact .throw _
  | some r =>
      obtain ⟨b, e, ent⟩ := r
      have hb := hr b e ent rfl
      exact stays_access (hb.isFs hs) fun _ _ => staysWith_stage (hb.isFs hs) (blockBounded_data hs hb _)

theorem stays_truncateLoop (ks : List (Fin ndirBlocks)) (h : Bounded sb inode) :
    Stays sb W .changing (truncateLoop sb inode ks) (Bounded sb) := by
  induction ks generalizing inode with
  | nil => exact .pure h
  | cons k ks ih =>
      unfold truncateLoop
      refine .ite (fun _ => ih h) fun _ => ?_
      exact (stays_freeBlock hs _).bind fun _ _ => ih (h.setBlock (.inl rfl))

/-- The last change of `mkdir` and of `rmdir`. -/
theorem stays_adjust (d : UInt32) (nlink : Inode → UInt32) (mtime : UInt64) : Stays sb W .changing (do
    let pdir ← inodeRead sb d
    inodeWrite sb d { pdir with nlink := nlink pdir, mtime := mtime }) fun _ => True :=
  (stays_inodeRead hs d).bind fun _ hdir => stays_inodeWrite hs d ⟨hdir.blocks, hdir.size⟩

/-! ## The operations -/

theorem stays_opMkdir (path : List UInt8) (mode : UInt32) (now : UInt64) :
    StaysCall sb W (opMkdir sb path mode now) := by
  unfold opMkdir
  cases splitParent path with
  | error e => exact .throw _
  | ok r =>
      obtain ⟨parent, name⟩ := r
      refine (stays_pathLookup hs parent).then fun d _ => Stays.withHandle ?_
      refine (stays_allocInode hs).bind fun i _ => (stays_allocBlock hs).bind fun b hb => ?_
      refine stays_access (hb.isFs hs) fun _ _ => ?_
      refine staysWith_modify (hb.isFs hs) (blockBounded_data hs hb _) ?_
      refine (stays_dirtyMetadata (hb.isFs hs)).bind fun _ _ => ?_
      refine (stays_inodeWrite hs i (bounded_newDir mode now hb)).bind fun _ _ => ?_
      refine (stays_dirAdd hs d name i ftDir).bind fun _ _ => ?_
      exact stays_adjust hs d (fun pdir => pdir.nlink + 1) now

theorem stays_opRmdir (path : List UInt8) (now : UInt64) : StaysCall sb W (opRmdir sb path now) := by
  unfold opRmdir
  cases splitParent path with
  | error e => exact .throw _
  | ok r =>
      obtain ⟨parent, name⟩ := r
      refine (stays_pathLookup hs parent).then fun d _ => (stays_dirLookup hs d name).then fun found _ => ?_
      refine .ite (fun _ => .throw _) fun _ => (stays_dirIsEmpty hs found.1).then fun empty _ => ?_
      refine .ite (fun _ => .throw _) fun _ => Stays.withHandle ?_
      refine (stays_inodeRead hs found.1).bind fun target htarget => ?_
      refine Obeys.bind (P := Bounded sb) (stays_truncateLoop hs _ htarget) fun _ _ => ?_
      refine (stays_freeInode hs found.1).bind fun _ _ => (stays_dirRemove hs d name).bind fun _ _ => ?_
      exact stays_adjust hs d (fun pdir => pdir.nlink - 1) now

theorem stays_opCreate (path : List UInt8) (mode : UInt32) (now : UInt64) :
    StaysCall sb W (opCreate sb path mode now) := by
  unfold opCreate
  cases splitParent path with
  | error e => exact .throw _
  | ok r =>
      obtain ⟨parent, name⟩ := r
      refine (stays_pathLookup hs parent).then fun d _ => Stays.withHandle ?_
      refine (stays_allocInode hs).bind fun i _ => ?_
      refine (stays_inodeWrite hs i (bounded_newFile mode now)).bind fun _ _ => ?_
      exact (stays_dirAdd hs d name i ftReg).bind fun _ _ => .pure trivial

theorem stays_opUnlink (path : List UInt8) : StaysCall sb W (opUnlink sb path) := by
  unfold opUnlink
  cases splitParent path with
  | error e => exact .throw _
  | ok r =>
      obtain ⟨parent, name⟩ := r
      refine (stays_pathLookup hs parent).then fun d _ => (stays_dirLookup hs d name).then fun found _ => ?_
      refine Stays.withHandle ((stays_inodeRead hs found.1).bind fun target htarget => ?_)
      have hfewer : Bounded sb { target with nlink := target.nlink - 1 } := ⟨htarget.blocks, htarget.size⟩
      refine (stays_dirRemove hs d name).bind fun _ _ => .ite (fun _ => ?_) fun _ => ?_
      · exact Obeys.bind (P := Bounded sb) (stays_truncateLoop hs _ hfewer) fun _ _ => stays_freeInode hs found.1
      · exact stays_inodeWrite hs found.1 hfewer

/-- Afterwards the file has the block. -/
theorem stays_ensureBlock {n : ℕ} (hn : n < ndirBlocks) (h : Bounded sb inode) :
    Stays sb W .changing (ensureBlock sb inode n) fun inode' => Bounded sb inode' ∧ IsData sb (blockAt inode' n) := by
  refine .ite (fun _ => ?_) fun hne => ?_
  · refine (stays_allocBlock hs).bind fun b hb => .pure ⟨h.setBlockAt (.inr hb), ?_⟩
    simpa [blockAt, setBlockAt, hn] using hb
  · exact .pure ⟨h, (h.blockAt n).resolve_left hne⟩

theorem stays_writeChunk (hW : W) {pos : ℕ} (hpos : pos / blockSize < ndirBlocks) (bytes : List UInt8)
    (h : Bounded sb inode) : Stays sb W .changing (writeChunk sb inode pos bytes) (Bounded sb) := by
  refine (stays_ensureBlock hs hpos h).bind fun inode' h' => ?_
  refine Obeys.bind (P := fun _ => True) ?_ fun block _ => ?_
  · refine .ite (fun _ => ?_) fun _ => .pure trivial
    exact (stays_readBlock (h'.2.isFs hs)).mono fun _ _ => trivial
  · exact (stays_writeData hW h'.2 _).bind fun _ _ => .pure h'.1

/-- The limit on a file's size keeps the loop inside the block array. -/
theorem stays_writeLoop (hW : W) (rounds : ℕ) {pos : ℕ} {buf : List UInt8} (hend : pos + buf.length ≤ maxFileSize)
    (h : Bounded sb inode) : Stays sb W .changing (writeLoop sb rounds inode pos buf) (Bounded sb) := by
  induction rounds generalizing inode pos buf with
  | zero => exact .pure h
  | succ rounds ih =>
      unfold writeLoop
      refine .ite (fun _ => .pure h) fun hne => ?_
      have hlen := List.length_pos_iff.mpr hne
      obtain ⟨-, hle, -, -⟩ := chunk_bounds pos hlen
      have hpos : pos / blockSize < ndirBlocks := Nat.div_lt_of_lt_mul (by
        rw [Nat.mul_comm]
        exact lt_of_lt_of_le (by omega) hend)
      refine (stays_writeChunk hs hW hpos _ h).bind fun inode' h' => ih ?_ h'
      rw [List.length_drop]
      omega

theorem stays_opWrite (hW : W) (fh : UInt32) (buf : List UInt8) (offset : ℕ) (now : UInt64) :
    StaysCall sb W (opWrite sb fh buf offset now) := by
  refine .ite (fun _ => .throw _) fun hcap => Stays.withHandle ?_
  refine (stays_inodeRead hs fh).bind fun inode h => ?_
  refine (stays_writeLoop hs hW _ (not_lt.mp hcap) h).bind fun inode' h' => ?_
  exact (stays_inodeWrite hs fh (h'.grown (not_lt.mp hcap) now)).bind fun _ _ => .pure trivial

theorem stays_opTruncate (path : List UInt8) (fh : Option UInt32) (size : ℕ) (now : UInt64) :
    StaysCall sb W (opTruncate sb path fh size now) := by
  refine .ite (fun _ => .throw _) fun hcap => ?_
  have htarget : Stays sb W .reading (fileTarget sb path fh) fun _ => True := by
    cases fh with
    | none => exact stays_pathLookup hs path
    | some ino => exact .pure trivial
  refine htarget.then fun ino _ => Stays.withHandle ?_
  refine (stays_inodeRead hs ino).bind fun inode h => ?_
  refine Obeys.bind (P := Bounded sb) (.ite (fun _ => stays_truncateLoop hs _ h) fun _ => .pure h) fun inode' h' => ?_
  exact stays_inodeWrite hs ino (h'.setSize ((Nat.mod_le _ _).trans (not_lt.mp hcap)))

/-! ## The operations that only read -/

theorem stays_readLoop (h : Bounded sb inode) (rounds pos size : ℕ) :
    Stays sb W part (readLoop inode rounds pos size) fun _ => True := by
  induction rounds generalizing pos size with
  | zero => exact .pure trivial
  | succ rounds ih =>
      unfold readLoop readChunk
      refine .ite (fun _ => .pure trivial) fun _ => ?_
      refine Obeys.bind (P := fun _ => True) ?_ fun _ _ => (ih _ _).bind fun _ _ => .pure trivial
      refine .ite (fun _ => .pure trivial) fun hne => ?_
      have hb := (h.blockAt _).resolve_left hne
      exact (stays_readBlock (hb.isFs hs)).bind fun _ _ => .pure trivial

theorem stays_readdirLoop {bs : List UInt64} (hbs : ∀ b ∈ bs, b = 0 ∨ IsData sb b) :
    Stays sb W part (readdirLoop bs) fun _ => True := by
  induction bs with
  | nil => exact .pure trivial
  | cons b bs ih =>
      unfold readdirLoop
      refine .ite (fun _ => .pure trivial) fun hne => ?_
      have hb := (hbs b List.mem_cons_self).resolve_left hne
      refine (stays_readBlock (hb.isFs hs)).bind fun _ _ => ?_
      exact (ih fun c hc => hbs c (List.mem_cons_of_mem b hc)).bind fun _ _ => .pure trivial

/-- The call writes file data. -/
def UserCall.writes : UserCall → Prop
  | .change (.write _ _ _) => True
  | _ => False

/-- Every call stays with the blocks of the file system, also when it fails. -/
theorem stays_program (c : UserCall) (hW : c.writes → W) (now : UInt64) :
    StaysCall sb W (c.program sb now) := by
  cases c with
  | change op =>
      cases op with
      | mkdir path mode => exact (stays_opMkdir hs path mode now).reply _
      | rmdir path => exact (stays_opRmdir hs path now).reply _
      | create path mode => exact (stays_opCreate hs path mode now).reply _
      | write fh buf offset => exact (stays_opWrite hs (hW trivial) fh buf offset now).reply _
      | truncate path fh size => exact (stays_opTruncate hs path fh size now).reply _
      | unlink path => exact (stays_opUnlink hs path).reply _
  | getattr path =>
      refine StaysCall.reply (Stays.call (Q := fun _ => True) ?_) _
      exact (stays_pathLookup hs path).bind fun ino _ => (stays_inodeRead hs ino).bind fun _ _ => .pure trivial
  | readdir path =>
      refine StaysCall.reply (Stays.call (Q := fun _ => True) ?_) _
      refine (stays_pathLookup hs path).bind fun ino _ => (stays_inodeRead hs ino).bind fun dir hdir => ?_
      exact .ite (fun _ => .throw _) fun _ => stays_readdirLoop hs fun b => hdir.mem_blocks
  | read fh size offset =>
      refine StaysCall.reply (Stays.call (Q := fun _ => True) ?_) _
      refine (stays_inodeRead hs fh).bind fun inode h => .ite (fun _ => .pure trivial) fun _ => ?_
      exact stays_readLoop hs h _ _ _

end Functions
end Logfs
