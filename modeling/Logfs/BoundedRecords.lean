import Logfs.BlockHistory
import Logfs.Unobservable

/-!
# Inode records the data path can rely on

No operation ever writes an inode record whose block numbers lie outside the data blocks, or one of a
file that is longer than its direct blocks can hold, whatever the transaction manager does and
wherever the operation fails.
-/
namespace Logfs
open Interaction WriteCache ByteBuffer

variable {sb : Super} {inode : Inode} {b : UInt64} {data : Block} {i : UInt32}

/-- `op_truncate` and `op_write` keep to the limit; a directory only grows, and is never read as a file. -/
structure Bounded (sb : Super) (inode : Inode) : Prop where
  blocks : ∀ k, inode.blocks k = 0 ∨ IsData sb (inode.blocks k)
  size : isDir inode.mode = false → inode.size.toNat ≤ maxFileSize

/-- The records in one content of a block are bounded; outside the inode table there are none. -/
def BlockBounded (sb : Super) (b : UInt64) (data : Block) : Prop :=
  ∀ i, InRange sb i → (inodeLocation sb i).1 = b → Bounded sb (Inode.decodeAt data (inodeLocation sb i).2)

namespace Bounded
variable (h : Bounded sb inode)
include h

theorem mem_blocks (hb : b ∈ List.ofFn inode.blocks) : b = 0 ∨ IsData sb b := by
  obtain ⟨k, rfl⟩ := (List.mem_ofFn' _ _).mp hb
  exact h.blocks k

theorem blockAt (n : ℕ) : blockAt inode n = 0 ∨ IsData sb (blockAt inode n) := by
  unfold Logfs.blockAt
  split
  · exact h.blocks _
  · exact .inl rfl

theorem setBlock {k : Fin ndirBlocks} (hb : b = 0 ∨ IsData sb b) :
    Bounded sb { inode with blocks := Function.update inode.blocks k b } where
  blocks := by
    intro l
    dsimp only
    rw [Function.update_apply]
    split
    · exact hb
    · exact h.blocks l
  size := h.size

/-- A directory that grows by a block. -/
theorem grow {k : Fin ndirBlocks} (hdir : isDir inode.mode = true) (hb : IsData sb b) (size : UInt64) :
    Bounded sb { inode with blocks := Function.update inode.blocks k b, size := size } where
  blocks := (h.setBlock (.inr hb)).blocks
  size := by
    intro hfile
    dsimp only at hfile
    rw [hdir] at hfile
    cases hfile

theorem setBlockAt {n : ℕ} (hb : b = 0 ∨ IsData sb b) : Bounded sb (setBlockAt inode n b) where
  blocks := by
    intro k
    change (if _ then b else inode.blocks k) = 0 ∨ IsData sb (if _ then b else inode.blocks k)
    split
    · exact hb
    · exact h.blocks k
  size := h.size

theorem setSize {size mtime : UInt64} (hsize : size.toNat ≤ maxFileSize) :
    Bounded sb { inode with size := size, mtime := mtime } where
  blocks := h.blocks
  size := fun _ => hsize

end Bounded

section Layout
variable (hs : LayoutSound sb)
include hs

theorem blockBounded_inodeBitmap (data : Block) : BlockBounded sb sb.inodeBitmapStart data :=
  fun _ hi he => absurd he (hs.location_ne_inodeBitmap (hs.isIno hi))

theorem blockBounded_blockBitmap (data : Block) : BlockBounded sb sb.blockBitmapStart data :=
  fun _ hi he => absurd he (hs.location_ne_blockBitmap (hs.isIno hi))

theorem blockBounded_data (hb : IsData sb b) (data : Block) : BlockBounded sb b data :=
  fun _ hi he => absurd he.symm (hb.ne_location (hs.isIno hi))

/-- The blocks an inode may have; the first one is the boot block. -/
theorem blockBounded_owned (hb : b = 0 ∨ IsData sb b) (data : Block) : BlockBounded sb b data := by
  rcases hb with rfl | hb
  · intro i hi he
    have hend := hs.ends
    have hreg := hs.regions
    have hloc := (hs.isIno hi).table_lt
    rw [he, UInt64.toNat_zero] at hloc
    omega
  · exact blockBounded_data hs hb data

/-- One record of a block is replaced. -/
theorem BlockBounded.encode (hi : InRange sb i) (h : BlockBounded sb (inodeLocation sb i).1 data)
    (hinode : Bounded sb inode) :
    BlockBounded sb (inodeLocation sb i).1 (inode.encodeAt data (inodeLocation sb i).2) := by
  intro j hj hblock
  by_cases hji : j = i
  · subst hji
    rwa [Inode.decodeAt_encodeAt _ (inodeLocation_fits sb j)]
  · rw [Inode.decodeAt_encodeAt_of_disjoint _ _ (hs.records_disjoint (hs.isIno hi) (hs.isIno hj) hji hblock)]
    exact h j hj hblock

end Layout

/-! ## The functions of `inode.c` -/

/-- Whatever the manager does, only bounded records are ever written. -/
abbrev Bounds (sb : Super) {α : Type} (p : TxnEM α) (Q : α → Prop) : Prop := Guards (BlockBounded sb) p Q

theorem bounds_inodeRead (sb : Super) (i : UInt32) : Bounds sb (inodeRead sb i) (Bounded sb) := by
  unfold inodeRead
  refine .ite (fun _ => .throw _) fun hin => ?_
  rw [outOfRange_iff, not_not] at hin
  exact (guards_readBlock _).bind fun buf hbuf => .pure (hbuf i hin rfl)

/-- A directory's search reads only. -/
theorem bounds_findEntry (p : Dirent → Bool) (bs : List UInt64) :
    Bounds sb (findEntry p bs) fun r => ∀ b e ent, r = some (b, e, ent) → b ∈ bs ∧ b ≠ 0 := by
  induction bs with
  | nil => exact .pure (by simp)
  | cons c bs ih =>
      unfold findEntry
      refine .ite (fun _ => .pure (by simp)) fun hc => ?_
      refine (guards_readBlock c).bind fun buf _ => ?_
      cases findInBlock p buf with
      | some e =>
          refine .pure ?_
          rintro b e' ent ⟨⟩
          exact ⟨List.mem_cons_self, hc⟩
      | none =>
          refine ih.mono fun r hr b e ent he => ?_
          obtain ⟨hmem, hne⟩ := hr b e ent he
          exact ⟨List.mem_cons_of_mem _ hmem, hne⟩

theorem bounds_dirLookup (d : UInt32) (name : List UInt8) : Bounds sb (dirLookup sb d name) fun _ => True := by
  refine (bounds_inodeRead sb d).bind fun dir _ => ?_
  refine .ite (fun _ => .throw _) fun _ => .ite (fun _ => .throw _) fun _ => ?_
  refine (bounds_findEntry _ _).bind fun r _ => ?_
  cases r with
  | none => exact .throw _
  | some _ => exact .pure trivial

theorem bounds_walk (cur : UInt32) (comps : List (List UInt8)) : Bounds sb (walk sb cur comps) fun _ => True := by
  induction comps generalizing cur with
  | nil => exact .pure trivial
  | cons comp rest ih =>
      unfold walk
      exact .ite (fun _ => .throw _) fun _ => (bounds_dirLookup cur comp).bind fun next _ => ih next.1

theorem bounds_pathLookup (path : List UInt8) : Bounds sb (pathLookup sb path) fun _ => True :=
  .ite (fun _ => .throw _) fun _ => bounds_walk _ _

theorem bounds_dirIsEmpty (d : UInt32) : Bounds sb (dirIsEmpty sb d) fun _ => True := by
  refine (bounds_inodeRead sb d).bind fun dir _ => .ite (fun _ => .throw _) fun _ => ?_
  exact (bounds_findEntry _ _).bind fun _ _ => .pure trivial

section Writes
variable (hs : LayoutSound sb)
include hs

theorem bounds_inodeWrite (i : UInt32) (h : Bounded sb inode) : Bounds sb (inodeWrite sb i inode) fun _ => True := by
  unfold inodeWrite
  refine .ite (fun _ => .throw _) fun hin => ?_
  rw [outOfRange_iff, not_not] at hin
  exact (guards_getWriteAccess _).bind fun buf hbuf => guards_stage (hbuf.encode hs hin h)

theorem bounds_allocInode : Bounds sb (allocInode sb) fun _ => True := by
  refine (guards_getWriteAccess _).bind fun bitmap _ => ?_
  cases (inodeBits sb).find? fun i => !testBit bitmap i with
  | none => exact .throw _
  | some i =>
      refine (guards_modify (blockBounded_inodeBitmap hs _)).bind fun _ _ => ?_
      exact (guards_dirtyMetadata _).bind fun _ _ => .pure trivial

theorem bounds_freeInode (i : UInt32) : Bounds sb (freeInode sb i) fun _ => True :=
  .ite (fun _ => .throw _) fun _ =>
    (guards_getWriteAccess _).bind fun _ _ => guards_stage (blockBounded_inodeBitmap hs _)

/-- Whatever the bitmap holds, the block handed out is a data block. -/
theorem bounds_allocBlock : Bounds sb (allocBlock sb) (IsData sb) := by
  refine (guards_getWriteAccess _).bind fun bitmap _ => ?_
  cases hfind : (blockBits sb).find? fun i => !testBit bitmap i with
  | none => exact .throw _
  | some i =>
      have hdata := (blockBit_number hs (List.mem_of_find?_eq_some hfind)).1
      refine (guards_modify (blockBounded_blockBitmap hs _)).bind fun _ _ => ?_
      exact (guards_dirtyMetadata _).bind fun _ _ => .pure hdata

theorem bounds_freeBlock (b : UInt64) : Bounds sb (freeBlock sb b) fun _ => True :=
  .ite (fun _ => .throw _) fun _ =>
    (guards_getWriteAccess _).bind fun _ _ => guards_stage (blockBounded_blockBitmap hs _)

theorem bounds_dirAddLoop (d : UInt32) {dir : Inode} (hdir : Bounded sb dir) (hmode : isDir dir.mode = true)
    (name : List UInt8) (ino : UInt32) (type : UInt8) (ks : List (Fin ndirBlocks)) :
    Bounds sb (dirAddLoop sb d dir name ino type ks) fun _ => True := by
  induction ks with
  | nil => exact .throw _
  | cons k ks ih =>
      unfold dirAddLoop
      refine .ite (fun _ => ?_) fun hne => ?_
      · refine (bounds_allocBlock hs).bind fun b hb => ?_
        refine (guards_getWriteAccess b).bind fun _ _ => ?_
        refine (guards_modify (blockBounded_data hs hb _)).bind fun _ _ => ?_
        refine (guards_dirtyMetadata b).bind fun _ _ => ?_
        exact bounds_inodeWrite hs d (hdir.grow hmode hb _)
      · have hb := (hdir.blocks k).resolve_left hne
        refine (guards_readBlock _).bind fun rbuf _ => ?_
        cases findInBlock (fun d => d.ino == 0) rbuf with
        | none => exact ih
        | some e => exact (guards_getWriteAccess _).bind fun _ _ => guards_stage (blockBounded_data hs hb _)

theorem bounds_dirAdd (d : UInt32) (name : List UInt8) (ino : UInt32) (type : UInt8) :
    Bounds sb (dirAdd sb d name ino type) fun _ => True := by
  refine (bounds_inodeRead sb d).bind fun dir hdir => .ite (fun _ => .throw _) fun hmode => ?_
  refine .ite (fun _ => .throw _) fun _ => ?_
  refine (bounds_dirLookup d name).result.bind fun r _ => ?_
  cases r with
  | ok _ => exact .throw _
  | error _ => exact bounds_dirAddLoop hs d hdir (by simpa using hmode) name ino type _

theorem bounds_dirRemove (d : UInt32) (name : List UInt8) : Bounds sb (dirRemove sb d name) fun _ => True := by
  refine (bounds_inodeRead sb d).bind fun dir hdir => .ite (fun _ => .throw _) fun _ => ?_
  refine (bounds_findEntry _ _).bind fun r hr => ?_
  cases r with
  | none => exact .throw _
  | some r =>
      obtain ⟨b, e, ent⟩ := r
      obtain ⟨hmem, hne⟩ := hr b e ent rfl
      have hb := (hdir.mem_blocks hmem).resolve_left hne
      exact (guards_getWriteAccess b).bind fun _ _ => guards_stage (blockBounded_data hs hb _)

theorem bounds_truncateLoop (ks : List (Fin ndirBlocks)) (h : Bounded sb inode) :
    Bounds sb (truncateLoop sb inode ks) fun inode' => Bounded sb inode' ∧ inode'.mode = inode.mode := by
  induction ks generalizing inode with
  | nil => exact .pure ⟨h, rfl⟩
  | cons k ks ih =>
      unfold truncateLoop
      refine .ite (fun _ => ih h) fun _ => ?_
      exact (bounds_freeBlock hs _).bind fun _ _ => ih (h.setBlock (.inl rfl))

theorem bounds_truncateBlocks (keep : ℕ) (h : Bounded sb inode) :
    Bounds sb (truncateBlocks sb inode keep) (Bounded sb) :=
  (bounds_truncateLoop hs _ h).mono fun _ h => h.1

/-- The last change of `mkdir` and of `rmdir`. -/
theorem bounds_adjust (d : UInt32) (nlink : Inode → UInt32) (mtime : UInt64) : Bounds sb (do
    let pdir ← inodeRead sb d
    inodeWrite sb d { pdir with nlink := nlink pdir, mtime := mtime }) fun _ => True :=
  (bounds_inodeRead sb d).bind fun _ hdir => bounds_inodeWrite hs d ⟨hdir.blocks, hdir.size⟩

/-! ## The operations -/

omit hs in
theorem bounded_newDir (mode : UInt32) (now : UInt64) (hb : IsData sb b) : Bounded sb (newDirInode mode now b) where
  blocks := by
    intro k
    change (if _ then b else 0) = 0 ∨ IsData sb (if _ then b else 0)
    split
    · exact .inr hb
    · exact .inl rfl
  size := fun _ => show (4096 : UInt64).toNat ≤ maxFileSize by decide

omit hs in
theorem bounded_newFile (mode : UInt32) (now : UInt64) : Bounded sb (newFileInode mode now) :=
  ⟨fun _ => .inl rfl, fun _ => Nat.zero_le _⟩

theorem bounds_opMkdir (path : List UInt8) (mode : UInt32) (now : UInt64) :
    Bounds sb (opMkdir sb path mode now) fun _ => True := by
  unfold opMkdir
  cases splitParent path with
  | error e => exact .throw _
  | ok r =>
      obtain ⟨parent, name⟩ := r
      refine (bounds_pathLookup parent).bind fun d _ => Guards.withHandle ?_
      refine (bounds_allocInode hs).bind fun i _ => (bounds_allocBlock hs).bind fun b hb => ?_
      refine (guards_getWriteAccess b).bind fun _ _ => ?_
      refine (guards_modify (blockBounded_data hs hb _)).bind fun _ _ => (guards_dirtyMetadata b).bind fun _ _ => ?_
      refine (bounds_inodeWrite hs i (bounded_newDir mode now hb)).bind fun _ _ => ?_
      refine (bounds_dirAdd hs d name i ftDir).bind fun _ _ => ?_
      exact bounds_adjust hs d (fun pdir => pdir.nlink + 1) now

theorem bounds_opRmdir (path : List UInt8) (now : UInt64) : Bounds sb (opRmdir sb path now) fun _ => True := by
  unfold opRmdir
  cases splitParent path with
  | error e => exact .throw _
  | ok r =>
      obtain ⟨parent, name⟩ := r
      refine (bounds_pathLookup parent).bind fun d _ => (bounds_dirLookup d name).bind fun found _ => ?_
      refine .ite (fun _ => .throw _) fun _ => (bounds_dirIsEmpty found.1).bind fun empty _ => ?_
      refine .ite (fun _ => .throw _) fun _ => Guards.withHandle ?_
      refine (bounds_inodeRead sb found.1).bind fun target htarget => ?_
      refine (bounds_truncateBlocks hs 0 htarget).bind fun _ _ => (bounds_freeInode hs found.1).bind fun _ _ => ?_
      refine (bounds_dirRemove hs d name).bind fun _ _ => ?_
      exact bounds_adjust hs d (fun pdir => pdir.nlink - 1) now

theorem bounds_opCreate (path : List UInt8) (mode : UInt32) (now : UInt64) :
    Bounds sb (opCreate sb path mode now) fun _ => True := by
  unfold opCreate
  cases splitParent path with
  | error e => exact .throw _
  | ok r =>
      obtain ⟨parent, name⟩ := r
      refine (bounds_pathLookup parent).bind fun d _ => Guards.withHandle ?_
      refine (bounds_allocInode hs).bind fun i _ => ?_
      refine (bounds_inodeWrite hs i (bounded_newFile mode now)).bind fun _ _ => ?_
      exact (bounds_dirAdd hs d name i ftReg).bind fun _ _ => .pure trivial

theorem bounds_opUnlink (path : List UInt8) : Bounds sb (opUnlink sb path) fun _ => True := by
  unfold opUnlink
  cases splitParent path with
  | error e => exact .throw _
  | ok r =>
      obtain ⟨parent, name⟩ := r
      refine (bounds_pathLookup parent).bind fun d _ => (bounds_dirLookup d name).bind fun found _ => ?_
      refine Guards.withHandle ((bounds_inodeRead sb found.1).bind fun target htarget => ?_)
      have hfewer : Bounded sb { target with nlink := target.nlink - 1 } := ⟨htarget.blocks, htarget.size⟩
      refine (bounds_dirRemove hs d name).bind fun _ _ => .ite (fun _ => ?_) fun _ => ?_
      · exact (bounds_truncateBlocks hs 0 hfewer).bind fun _ _ => bounds_freeInode hs found.1
      · exact bounds_inodeWrite hs found.1 hfewer

theorem bounds_ensureBlock (n : ℕ) (h : Bounded sb inode) : Bounds sb (ensureBlock sb inode n) (Bounded sb) :=
  .ite (fun _ => (bounds_allocBlock hs).bind fun _ hb => .pure (h.setBlockAt (.inr hb))) fun _ => .pure h

omit hs in
theorem bounds_chunkBase (sb : Super) (b : UInt64) (pos size : ℕ) : Bounds sb (chunkBase b pos size) fun _ => True :=
  .ite (fun _ => (guards_readBlock b).mono fun _ _ => trivial) fun _ => .pure trivial

/-- The data write leaves the inode table alone, wherever the loop has got to. -/
theorem bounds_writeChunk (pos : ℕ) (bytes : List UInt8) (h : Bounded sb inode) :
    Bounds sb (writeChunk sb inode pos bytes) (Bounded sb) := by
  refine (bounds_ensureBlock hs _ h).bind fun inode' h' => ?_
  refine (bounds_chunkBase sb _ pos bytes.length).bind fun block _ => ?_
  exact (guards_writeData (blockBounded_owned hs (h'.blockAt _) _)).bind fun _ _ => .pure h'

theorem bounds_writeLoop (rounds pos : ℕ) (buf : List UInt8) (h : Bounded sb inode) :
    Bounds sb (writeLoop sb rounds inode pos buf) (Bounded sb) := by
  induction rounds generalizing inode pos buf with
  | zero => exact .pure h
  | succ rounds ih =>
      unfold writeLoop
      exact .ite (fun _ => .pure h) fun _ => (bounds_writeChunk hs _ _ h).bind fun _ h' => ih _ _ h'

omit hs in
theorem Bounded.grown {last : ℕ} (hlast : last ≤ maxFileSize) (h : Bounded sb inode) (mtime : UInt64) :
    Bounded sb { inode with size := grownSize inode last, mtime := mtime } where
  blocks := h.blocks
  size := by
    intro hfile
    change (if _ then UInt64.ofNat last else inode.size).toNat ≤ maxFileSize
    split
    · exact (Nat.mod_le _ _).trans hlast
    · exact h.size hfile

theorem bounds_opWrite (fh : UInt32) (buf : List UInt8) (offset : ℕ) (now : UInt64) :
    Bounds sb (opWrite sb fh buf offset now) fun _ => True := by
  refine .ite (fun _ => .throw _) fun hcap => Guards.withHandle ?_
  refine (bounds_inodeRead sb fh).bind fun inode h => (bounds_writeLoop hs _ _ _ h).bind fun inode' h' => ?_
  exact (bounds_inodeWrite hs fh (h'.grown (not_lt.mp hcap) now)).bind fun _ _ => .pure trivial

theorem bounds_shrinkTo (size : ℕ) (h : Bounded sb inode) : Bounds sb (shrinkTo sb inode size) (Bounded sb) :=
  .ite (fun _ => bounds_truncateBlocks hs _ h) fun _ => .pure h

theorem bounds_opTruncate (path : List UInt8) (fh : Option UInt32) (size : ℕ) (now : UInt64) :
    Bounds sb (opTruncate sb path fh size now) fun _ => True := by
  refine .ite (fun _ => .throw _) fun hcap => ?_
  have htarget : Bounds sb (fileTarget sb path fh) fun _ => True := by
    cases fh with
    | none => exact bounds_pathLookup path
    | some ino => exact .pure trivial
  refine htarget.bind fun ino _ => Guards.withHandle ?_
  refine (bounds_inodeRead sb ino).bind fun inode h => (bounds_shrinkTo hs size h).bind fun inode' h' => ?_
  exact bounds_inodeWrite hs ino (h'.setSize ((Nat.mod_le _ _).trans (not_lt.mp hcap)))

end Writes

/-! ## The operations that only read -/

theorem bounds_readLoop (sb : Super) (inode : Inode) (rounds pos size : ℕ) :
    Bounds sb (readLoop inode rounds pos size) fun _ => True := by
  induction rounds generalizing pos size with
  | zero => exact .pure trivial
  | succ rounds ih =>
      unfold readLoop readChunk
      refine .ite (fun _ => .pure trivial) fun _ => ?_
      refine Upholds.bind (Q := fun _ => True) ?_ fun _ _ => (ih _ _).bind fun _ _ => .pure trivial
      exact .ite (fun _ => .pure trivial) fun _ => (guards_readBlock _).bind fun _ _ => .pure trivial

theorem bounds_readdirLoop (sb : Super) (bs : List UInt64) : Bounds sb (readdirLoop bs) fun _ => True := by
  induction bs with
  | nil => exact .pure trivial
  | cons b bs ih =>
      unfold readdirLoop
      refine .ite (fun _ => .pure trivial) fun _ => (guards_readBlock b).bind fun _ _ => ?_
      exact ih.bind fun _ _ => .pure trivial

theorem bounds_opGetattr (path : List UInt8) : Bounds sb (opGetattr sb path) fun _ => True :=
  (bounds_pathLookup path).bind fun ino _ => (bounds_inodeRead sb ino).bind fun _ _ => .pure trivial

theorem bounds_opReaddir (path : List UInt8) : Bounds sb (opReaddir sb path) fun _ => True := by
  refine (bounds_pathLookup path).bind fun ino _ => (bounds_inodeRead sb ino).bind fun _ _ => ?_
  exact .ite (fun _ => .throw _) fun _ => bounds_readdirLoop sb _

theorem bounds_opRead (fh : UInt32) (size offset : ℕ) : Bounds sb (opRead sb fh size offset) fun _ => True :=
  (bounds_inodeRead sb fh).bind fun inode _ => .ite (fun _ => .pure trivial) fun _ => bounds_readLoop sb inode _ _ _

/-- Every call keeps the records bounded, also when it fails. -/
theorem bounds_program (hs : LayoutSound sb) (c : UserCall) (now : UInt64) :
    Bounds sb (c.program sb now) fun _ => True := by
  cases c with
  | change op =>
      cases op with
      | mkdir path mode => exact (bounds_opMkdir hs path mode now).bind fun _ _ => .pure trivial
      | rmdir path => exact (bounds_opRmdir hs path now).bind fun _ _ => .pure trivial
      | create path mode => exact (bounds_opCreate hs path mode now).bind fun _ _ => .pure trivial
      | write fh buf offset => exact (bounds_opWrite hs fh buf offset now).bind fun _ _ => .pure trivial
      | truncate path fh size => exact (bounds_opTruncate hs path fh size now).bind fun _ _ => .pure trivial
      | unlink path => exact (bounds_opUnlink hs path).bind fun _ _ => .pure trivial
  | getattr path => exact (bounds_opGetattr path).bind fun _ _ => .pure trivial
  | readdir path => exact (bounds_opReaddir path).bind fun _ _ => .pure trivial
  | read fh size offset => exact (bounds_opRead fh size offset).bind fun _ _ => .pure trivial

/-! ## Every history -/

/-- One call, at some time and with some outcome. -/
def CallStep (sb : Super) (H H' : History) : Prop :=
  ∃ (c : UserCall) (now : UInt64) (r : Except Errno Reply), Outcome historyTxn (c.program sb now).run H r H'

/-- The histories sequences of calls lead to. -/
abbrev AfterCalls (sb : Super) : History → History → Prop := Relation.ReflTransGen (CallStep sb)

theorem bounded_of_calls {H H' : History} (hs : LayoutSound sb) (h : H.All (BlockBounded sb))
    (hcalls : AfterCalls sb H H') : H'.All (BlockBounded sb) := by
  induction hcalls with
  | refl => exact h
  | tail _ hstep ih =>
      obtain ⟨c, now, r, hout⟩ := hstep
      exact (bounds_program hs c now _ _ _ ih hout).1

theorem bounded_empty (off : ℕ) : Bounded sb (Inode.decodeAt zeroBlock off) := by
  have hzero : ∀ off, load UInt64 zeroBlock off = 0 := by
    intro off
    simp [load, get_zeros, Scalar.ofNat]
  constructor
  · intro k
    exact .inl (hzero _)
  · intro _
    change (load UInt64 zeroBlock (off + 16)).toNat ≤ maxFileSize
    rw [hzero]
    exact Nat.zero_le _

section Mounted
variable {host : Except Errno Unit} {totalBlocks journalLen now : UInt64} {mode : DataMode} {d d₁ d₂ : Disk}
  {j : Journal}

/-- The table of a formatted image holds the root's record and zeros. -/
theorem bounded_mounted (hformat : run faultless (fsFormat host totalBlocks journalLen mode now).run d = (.ok (), d₁))
    (hfits : TableFits totalBlocks)
    (hmount : run faultless (fsMount ⟨totalBlocks⟩).run d₁ = (.ok (sb, j), d₂)) :
    LayoutSound sb ∧ (History.ofImage d₂.view).All (BlockBounded sb) := by
  obtain ⟨hsb, hacc, hlen, hview, -, hfresh⟩ := laidOut_mounted hformat hmount
  have hs := layoutSound_of_accepted hsb hacc hlen hfits
  obtain ⟨hone, hdata⟩ := root_of_accepted hsb hacc hlen
  have hloc : inodeLocation sb rootIno = (sb.inodeTableStart, 0) := by simp [inodeLocation, rootIno]
  have hempty : ∀ b, BlockBounded sb b zeroBlock := fun _ _ _ _ => bounded_empty _
  have hroot := BlockBounded.encode hs hone.inRange (hempty _) (bounded_newDir 0x1ED now hdata)
  rw [hloc] at hroot
  refine ⟨hs, ?_⟩
  rintro b _ rfl i hi hb
  by_cases hfirst : b = sb.inodeTableStart
  · rw [hfirst] at hb ⊢
    have hfound := hroot i hi hb
    rwa [show (newDirInode 0x1ED now sb.dataStart).encodeAt zeroBlock 0 = d₂.view sb.inodeTableStart from
      hfresh.table.symm] at hfound
  · have hne : b.toNat ≠ sb.inodeTableStart.toNat := fun he => hfirst (UInt64.toNat_inj.mp he)
    have htable := (hs.isIno hi).table_lt
    obtain ⟨-, -, hit, hds, -⟩ := boundaries_of_accepted hsb hacc hlen
    rw [hb] at htable
    rw [hview, formatted_table hs (by omega) (by omega)]
    exact hempty b i hi hb

end Mounted
end Logfs
