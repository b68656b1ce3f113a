import Logfs.BoundedRecords

/-!
# The loops of the data path

`logfs_op_read` and `logfs_op_write` in the integer types of the source, with a record of each round
of their loops. `size_t` and `uint64_t` are words of 64 bits, the index of a block is an `int`.
-/
namespace Logfs
open Interaction WriteCache ByteBuffer

variable {α : Type}

/-- One round: `chunk` bytes at `inBlock` of block `b`, and at `done` of the caller's buffer. -/
structure Round where
  done : UInt64
  b : Int32
  inBlock : UInt64
  chunk : UInt64

/-- What a round computes before it looks at the inode. -/
def roundAt (offset size done : UInt64) : Round :=
  let pos := offset + done
  let inBlock := pos % 4096
  let chunk := 4096 - inBlock
  { done, b := (pos / 4096).toUInt32.toInt32, inBlock, chunk := if size - done < chunk then size - done else chunk }

/-- `b` is an index of the inode's block array. -/
def Round.Indexes (r : Round) : Prop := 0 ≤ r.b.toInt ∧ r.b.toInt < ndirBlocks

instance (r : Round) : Decidable r.Indexes := by unfold Round.Indexes; infer_instance

def Round.index (r : Round) : ℕ := r.b.toInt.toNat

/-- The rounds a loop makes and how it ends: `none` when it leaves the block array, or when it wants
to go on after `fuel` rounds. -/
def roundsFrom (offset size : UInt64) (body : α → Round → TxnEM α) :
    ℕ → UInt64 → α → TxnM (List Round × Option (Except Errno α))
  | 0, done, a => return ([], if done < size then none else some (.ok a))
  | fuel + 1, done, a =>
      if done < size then
        if (roundAt offset size done).Indexes then do
          match ← (body a (roundAt offset size done)).run with
          | .error e => return ([roundAt offset size done], some (.error e))
          | .ok a => do
              let rest ← roundsFrom offset size body fuel (done + (roundAt offset size done).chunk) a
              return (roundAt offset size done :: rest.1, rest.2)
        else return ([roundAt offset size done], none)
      else return ([], some (.ok a))

/-- The body of the loop of `logfs_op_read`, after the bytes already copied. -/
def readRound (inode : Inode) (bytes : List UInt8) (r : Round) : TxnEM (List UInt8) :=
  if blockAt inode r.index = 0 then return bytes ++ List.replicate r.chunk.toNat 0
  else do
    let block ← TxnEM.readBlock (blockAt inode r.index)
    return bytes ++ slice block r.inBlock.toNat r.chunk.toNat

/-- What `block` holds before the chunk is copied in. -/
def roundBase (blockno : UInt64) (r : Round) : TxnEM Block :=
  if r.inBlock ≠ 0 ∨ r.chunk ≠ 4096 then TxnEM.readBlock blockno else return zeroBlock

/-- The body of the loop of `logfs_op_write`. -/
def writeRound (sb : Super) (buf : List UInt8) (inode : Inode) (r : Round) : TxnEM Inode := do
  let inode ← ensureBlock sb inode r.index
  let block ← roundBase (blockAt inode r.index) r
  TxnEM.writeData (blockAt inode r.index)
    (splice block r.inBlock.toNat ((buf.drop r.done.toNat).take r.chunk.toNat))
  return inode

/-- The inode a call has read, the rounds of its loop, and its answer. -/
structure Trace (α : Type) where
  file : Inode
  rounds : List Round
  answer : Option (Except Errno α)

/-- The size of a read that starts within the file. -/
def clippedSize (inode : Inode) (size offset : UInt64) : UInt64 :=
  if inode.size < offset + size then inode.size - offset else size

/-- `logfs_op_read` -/
def opReadTraced (sb : Super) (ino : UInt32) (size offset : UInt64) : TxnEM (Trace (List UInt8)) := do
  let inode ← inodeRead sb ino
  if inode.size ≤ offset then return ⟨inode, [], some (.ok [])⟩
  else do
    let t ← liftM (roundsFrom offset (clippedSize inode size offset) (readRound inode) ndirBlocks 0 [])
    return ⟨inode, t.1, t.2⟩

/-- What `logfs_op_write` does after its loop. -/
def finishWrite (sb : Super) (ino : UInt32) (size offset now : UInt64) :
    Option (Except Errno Inode) → TxnEM (Option (Except Errno ℕ))
  | none => return none
  | some (.error e) => return some (.error e)
  | some (.ok inode) => do
      let size' := if inode.size < offset + size then offset + size else inode.size
      let rc ← (inodeWrite sb ino { inode with size := size', mtime := now }).result
      return some (rc.map fun _ => size.toNat)

/-- `logfs_op_write` -/
def opWriteTraced (sb : Super) (ino : UInt32) (buf : List UInt8) (size offset now : UInt64) : TxnEM (Trace ℕ) :=
  if UInt64.ofNat maxFileSize < offset + size then throw .efbig
  else TxnEM.withHandle do
    let inode ← inodeRead sb ino
    let t ← liftM (roundsFrom offset size (writeRound sb buf) ndirBlocks 0 inode)
    let answer ← finishWrite sb ino size offset now t.2
    return ⟨inode, t.1, answer⟩

/-! ## One round -/

/-- The round stays in the block array, in one block and in the caller's buffer. -/
structure Round.Safe (size : ℕ) (r : Round) : Prop where
  index : r.Indexes
  nonempty : 0 < r.chunk.toNat
  inBlock : r.inBlock.toNat + r.chunk.toNat ≤ blockSize
  inBuffer : r.done.toNat + r.chunk.toNat ≤ size

structure Trace.Safe (size : ℕ) (t : Trace α) : Prop where
  ends : t.answer.isSome = true
  few : t.rounds.length ≤ ndirBlocks
  each : ∀ r ∈ t.rounds, r.Safe size

/-- The cast to `int` keeps small numbers. -/
theorem toInt_cast {x : UInt64} (hx : x.toNat < 2 ^ 31) : x.toUInt32.toInt32.toInt = x.toNat := by
  have hbits : x.toUInt32.toBitVec.toNat = x.toNat := by
    rw [UInt32.toNat_toBitVec, UInt64.toNat_toUInt32, Nat.mod_eq_of_lt (by omega)]
  have hsigned : x.toUInt32.toInt32.toInt = x.toUInt32.toBitVec.toInt := rfl
  rw [hsigned, BitVec.toInt_eq_toNat_of_lt (by omega), hbits]

section Rounds
variable {offset size done : UInt64} (hend : offset.toNat + size.toNat ≤ maxFileSize) (hdone : done < size)
include hend hdone

/-- Within the limit, the words of a round are the numbers they stand for. -/
theorem roundAt_toNat :
    (roundAt offset size done).b.toInt = ((offset.toNat + done.toNat) / blockSize : ℕ) ∧
      (roundAt offset size done).inBlock.toNat = (offset.toNat + done.toNat) % blockSize ∧
      (roundAt offset size done).chunk.toNat = chunkAt (offset.toNat + done.toNat) (size.toNat - done.toNat) := by
  have hlt := UInt64.lt_iff_toNat_lt.mp hdone
  rw [maxFileSize, ndirBlocks, blockSize] at hend
  have hpos : (offset + done).toNat = offset.toNat + done.toNat := by
    rw [UInt64.toNat_add, Nat.mod_eq_of_lt (by omega)]
  have hin : ((offset + done) % 4096).toNat = (offset.toNat + done.toNat) % 4096 := by
    rw [UInt64.toNat_mod, hpos]
    rfl
  have hrest : (size - done).toNat = size.toNat - done.toNat := UInt64.toNat_sub_of_le _ _ (UInt64.le_of_lt hdone)
  have htop : (4096 - (offset + done) % 4096).toNat = 4096 - (offset.toNat + done.toNat) % 4096 := by
    have hle : (offset + done) % 4096 ≤ 4096 := by
      rw [UInt64.le_iff_toNat_le, hin]
      exact (Nat.mod_lt _ (by decide)).le
    rw [UInt64.toNat_sub_of_le _ _ hle, hin]
    rfl
  refine ⟨?_, hin, ?_⟩
  · have hdiv : ((offset + done) / 4096).toNat = (offset.toNat + done.toNat) / 4096 := by
      rw [UInt64.toNat_div, hpos]
      rfl
    rw [blockSize, ← hdiv]
    exact toInt_cast (by omega)
  · unfold roundAt
    dsimp only
    rw [chunkAt, blockSize, apply_ite UInt64.toNat, hrest, htop]
    have hcut : size - done < 4096 - (offset + done) % 4096 ↔
        size.toNat - done.toNat < 4096 - (offset.toNat + done.toNat) % 4096 := by
      rw [UInt64.lt_iff_toNat_lt, hrest, htop]
    split
    · next h => exact (min_eq_right (hcut.mp h).le).symm
    · next h => exact (min_eq_left (not_lt.mp (hcut.not.mp h))).symm

theorem roundAt_safe : (roundAt offset size done).Safe size.toNat := by
  obtain ⟨hb, hin, hchunk⟩ := roundAt_toNat hend hdone
  have hlt := UInt64.lt_iff_toNat_lt.mp hdone
  have hblock := Nat.mod_lt (offset.toNat + done.toNat) (show 0 < blockSize by decide)
  rw [chunkAt] at hchunk
  constructor
  · rw [Round.Indexes, hb]
    rw [maxFileSize] at hend
    constructor
    · exact Int.natCast_nonneg _
    · exact_mod_cast Nat.div_lt_of_lt_mul (by rw [Nat.mul_comm]; omega)
  · omega
  · rw [hin, hchunk]
    omega
  · change done.toNat + _ ≤ _
    rw [hchunk]
    omega

/-- The next round begins where this one ends, in the next block unless it is the last. -/
theorem roundAt_next :
    (done + (roundAt offset size done).chunk).toNat = done.toNat + (roundAt offset size done).chunk.toNat ∧
      (done + (roundAt offset size done).chunk < size →
        (offset.toNat + done.toNat) / blockSize <
          (offset.toNat + (done + (roundAt offset size done).chunk).toNat) / blockSize) := by
  obtain ⟨-, -, hchunk⟩ := roundAt_toNat hend hdone
  have hlt := UInt64.lt_iff_toNat_lt.mp hdone
  have htop := size.toNat_lt
  have hnext : (done + (roundAt offset size done).chunk).toNat =
      done.toNat + (roundAt offset size done).chunk.toNat := by
    have hle := (roundAt_safe hend hdone).inBuffer
    change done.toNat + _ ≤ _ at hle
    rw [UInt64.toNat_add, Nat.mod_eq_of_lt (by omega)]
  refine ⟨hnext, fun hmore => ?_⟩
  rw [UInt64.lt_iff_toNat_lt, hnext] at hmore
  rw [hnext, hchunk]
  rw [hchunk] at hmore
  rw [chunkAt, blockSize] at *
  omega

/-- The rounds that are left are enough for the blocks that are left. -/
def EnoughFuel (offset size done : UInt64) (fuel : ℕ) : Prop :=
  done < size → ndirBlocks ≤ fuel + (offset.toNat + done.toNat) / blockSize

omit hend hdone in
theorem EnoughFuel.start (offset size : UInt64) : EnoughFuel offset size 0 ndirBlocks := fun _ => Nat.le_add_right _ _

omit hdone in
theorem EnoughFuel.spent (h : EnoughFuel offset size done 0) : ¬ done < size := by
  intro hlt
  have hspent := h hlt
  rw [UInt64.lt_iff_toNat_lt] at hlt
  rw [maxFileSize, ndirBlocks, blockSize] at *
  omega

theorem EnoughFuel.next {fuel : ℕ} (h : EnoughFuel offset size done (fuel + 1)) :
    EnoughFuel offset size (done + (roundAt offset size done).chunk) fuel := by
  intro hmore
  have hspent := h hdone
  have hblock := (roundAt_next hend hdone).2 hmore
  omega

end Rounds

/-! ## All rounds -/

/-- Whatever the calls of its body answer, the loop ends after few rounds, all of them safe. -/
theorem answers_roundsFrom {offset size : UInt64} (hend : offset.toNat + size.toNat ≤ maxFileSize)
    (body : α → Round → TxnEM α) (fuel : ℕ) (done : UInt64) (a : α)
    (hfuel : EnoughFuel offset size done fuel) : (roundsFrom offset size body fuel done a).Answers fun t =>
      t.2.isSome = true ∧ t.1.length ≤ fuel ∧ ∀ r ∈ t.1, r.Safe size.toNat := by
  induction fuel generalizing done a with
  | zero =>
      unfold roundsFrom
      rw [if_neg (hfuel.spent hend)]
      exact ⟨rfl, le_refl _, by simp⟩
  | succ fuel ih =>
      unfold roundsFrom
      refine .ite (fun hdone => ?_) fun _ => ⟨rfl, Nat.zero_le _, by simp⟩
      have hsafe := roundAt_safe hend hdone
      rw [if_pos hsafe.index]
      refine .bind _ fun r => ?_
      cases r with
      | error e => exact ⟨rfl, by simp, by simpa using hsafe⟩
      | ok a' =>
          refine (ih _ a' (hfuel.next hend hdone)).seq ?_
          rintro ⟨rs, answer⟩ ⟨hends, hfew, heach⟩
          exact ⟨hends, Nat.succ_le_succ hfew, List.forall_mem_cons.mpr ⟨hsafe, heach⟩⟩

/-! ## The two operations -/

theorem answers_withHandle {p : TxnEM α} {Q : Except Errno α → Prop} (hp : p.run.Answers Q) :
    p.withHandle.run.Answers Q := by
  intro _
  refine hp.seq fun r hr => ?_
  exact fun _ => hr

section Ops
variable {sb : Super} {ino : UInt32} {size offset now : UInt64}

theorem answers_finishWrite (answer : Option (Except Errno Inode)) (hends : answer.isSome = true) :
    (finishWrite sb ino size offset now answer).run.Answers fun r => ∀ rc, r = .ok rc → rc.isSome = true := by
  match answer, hends with
  | some (.error e), _ =>
      rintro _ ⟨⟩
      rfl
  | some (.ok inode), _ =>
      refine .exceptT_any _ ?_ (by simp)
      rintro rc _ ⟨⟩
      rfl

/-- The end of what the caller asks for. -/
theorem toNat_end (hsum : offset.toNat + size.toNat ≤ 2 ^ 63) :
    (offset + size).toNat = offset.toNat + size.toNat := by
  rw [UInt64.toNat_add, Nat.mod_eq_of_lt (by omega)]

/-- The check of the limit comes first, so the loop of a write is safe for every inode. -/
theorem answers_opWriteTraced (hsum : offset.toNat + size.toNat ≤ 2 ^ 63) (buf : List UInt8) :
    (opWriteTraced sb ino buf size offset now).run.Answers fun r => ∀ t, r = .ok t → t.Safe size.toNat := by
  unfold opWriteTraced
  rw [apply_ite ExceptT.run]
  refine .ite (fun _ => ?_) fun hcap => ?_
  · rintro _ ⟨⟩
  · have hend : offset.toNat + size.toNat ≤ maxFileSize := by
      have hle := UInt64.le_iff_toNat_le.mp (UInt64.not_lt.mp hcap)
      rw [toNat_end hsum] at hle
      exact hle
    refine answers_withHandle (.exceptT_any _ (fun inode => ?_) (by simp))
    have hloop := answers_roundsFrom hend (writeRound sb buf) ndirBlocks 0 inode (.start _ _)
    refine .exceptT_bind hloop.lift ?_ (by simp)
    rintro ⟨rs, answer⟩ ⟨hends, hfew, heach⟩
    refine .exceptT_bind (answers_finishWrite answer hends) ?_ (by simp)
    rintro rc hrc _ ⟨⟩
    exact ⟨hrc, hfew, heach⟩

theorem Round.Safe.mono {m n : ℕ} {r : Round} (h : r.Safe m) (hle : m ≤ n) : r.Safe n :=
  { h with inBuffer := h.inBuffer.trans hle }

/-- The size a read is cut to ends in the file and in the caller's buffer. -/
theorem toNat_clippedSize {inode : Inode} (hsum : offset.toNat + size.toNat ≤ 2 ^ 63)
    (hsome : ¬ inode.size ≤ offset) :
    (clippedSize inode size offset).toNat = min size.toNat (inode.size.toNat - offset.toNat) := by
  have hadd := toNat_end hsum
  have hsub := UInt64.toNat_sub_of_le _ _ (UInt64.le_of_lt (UInt64.not_le.mp hsome))
  unfold clippedSize
  split
  · next hcut =>
      rw [UInt64.lt_iff_toNat_lt, hadd] at hcut
      omega
  · next hcut =>
      rw [UInt64.lt_iff_toNat_lt, hadd] at hcut
      omega

/-- A read ends at the end of the file. -/
theorem clippedSize_le {inode : Inode} (hsum : offset.toNat + size.toNat ≤ 2 ^ 63) (hsome : ¬ inode.size ≤ offset)
    (hlimit : inode.size.toNat ≤ maxFileSize) :
    offset.toNat + (clippedSize inode size offset).toNat ≤ maxFileSize := by
  have hlt := UInt64.lt_iff_toNat_lt.mp (UInt64.not_le.mp hsome)
  rw [toNat_clippedSize hsum hsome]
  omega

/-- A read that gets as far as its loop. -/
theorem opReadTraced_cases {H H' : History} {t : Trace (List UInt8)}
    (hout : Outcome historyTxn (opReadTraced sb ino size offset).run H (.ok t) H') :
    ∃ H₁, Outcome historyTxn (inodeRead sb ino).run H (.ok t.file) H₁ ∧
      (t.file.size ≤ offset ∧ t.rounds = [] ∧ t.answer = some (.ok []) ∧ H' = H₁ ∨
        ¬ t.file.size ≤ offset ∧ Outcome historyTxn (roundsFrom offset (clippedSize t.file size offset)
          (readRound t.file) ndirBlocks 0 []) H₁ (t.rounds, t.answer) H') := by
  rcases outcome_exceptT_bind.mp hout with ⟨inode, H₁, hread, hrest⟩ | ⟨e, he, -⟩
  · by_cases hempty : inode.size ≤ offset
    · rw [if_pos hempty] at hrest
      obtain ⟨ht, rfl⟩ := outcome_ret.mp hrest
      cases ht
      exact ⟨_, hread, .inl ⟨hempty, rfl, rfl, rfl⟩⟩
    · rw [if_neg hempty] at hrest
      rcases outcome_exceptT_bind.mp hrest with ⟨loop, H₂, hloop, hret⟩ | ⟨e, he, -⟩
      · obtain ⟨ht, rfl⟩ := outcome_ret.mp hret
        cases ht
        obtain ⟨loop', H₃, hrounds, hlift⟩ := outcome_bind.mp hloop
        obtain ⟨hl, rfl⟩ := outcome_ret.mp hlift
        cases hl
        exact ⟨_, hread, .inr ⟨hempty, hrounds⟩⟩
      · cases he
  · cases he

/-- A read is safe if the size of the file is within the limit. -/
theorem opReadTraced_safe (hsum : offset.toNat + size.toNat ≤ 2 ^ 63) {H H' : History}
    (hbounded : H.All (BlockBounded sb)) {t : Trace (List UInt8)}
    (hout : Outcome historyTxn (opReadTraced sb ino size offset).run H (.ok t) H')
    (hreg : isReg t.file.mode = true) : t.Safe size.toNat := by
  obtain ⟨H₁, hread, ⟨-, hrounds, hanswer, -⟩ | ⟨hsome, hloop⟩⟩ := opReadTraced_cases hout
  · exact ⟨by rw [hanswer]; rfl, by rw [hrounds]; exact Nat.zero_le _, by rw [hrounds]; simp⟩
  · have hinode := (bounds_inodeRead sb ino _ _ _ hbounded hread).2 _ rfl
    have hend := clippedSize_le hsum hsome (hinode.size (not_isDir_of_isReg hreg))
    have hsafe := answers_roundsFrom hend (readRound t.file) ndirBlocks 0 [] (.start _ _)
    obtain ⟨hends, hfew, heach⟩ := hloop.answers hsafe
    refine ⟨hends, hfew, fun r hr => (heach r hr).mono ?_⟩
    rw [toNat_clippedSize hsum hsome]
    exact min_le_left _ _

end Ops

/-! ## Every reachable state -/

/-- What a read or a write of the file may do to the block array and the caller's buffer. -/
structure DataPathSafe (sb : Super) (H : History) (ino : UInt32) (size offset : UInt64) : Prop where
  read : ∀ t H', Outcome historyTxn (opReadTraced sb ino size offset).run H (.ok t) H' →
    isReg t.file.mode = true → t.Safe size.toNat
  write : ∀ buf now t H', Outcome historyTxn (opWriteTraced sb ino buf size offset now).run H (.ok t) H' →
    t.Safe size.toNat

section Reachable
variable {host : Except Errno Unit} {totalBlocks journalLen now : UInt64} {mode : DataMode} {d d₁ d₂ : Disk}
  {sb : Super} {j : Journal} {H : History}

/-- After any calls on a formatted volume, whatever the transaction manager did meanwhile. -/
theorem dataPathSafe_of_calls
    (hformat : run faultless (fsFormat host totalBlocks journalLen mode now).run d = (.ok (), d₁))
    (hfits : TableFits totalBlocks)
    (hmount : run faultless (fsMount ⟨totalBlocks⟩).run d₁ = (.ok (sb, j), d₂))
    (hcalls : AfterCalls sb (.ofImage d₂.view) H) (ino : UInt32) (size offset : UInt64)
    (hsum : offset.toNat + size.toNat ≤ 2 ^ 63) : DataPathSafe sb H ino size offset := by
  obtain ⟨hs, hinit⟩ := bounded_mounted hformat hfits hmount
  constructor
  · intro t H' hout hreg
    exact opReadTraced_safe hsum (bounded_of_calls hs hinit hcalls) hout hreg
  · intro buf now t H' hout
    exact hout.answers (answers_opWriteTraced hsum buf) t rfl

/-- A file is created, then read or written across the border of two blocks. -/
theorem dataPathSafe_create : ∃ H, AfterCalls (formatSuper 128 64 .ordered) (.ofImage smallDisk.flush.view) H ∧
    H.Has (run (viewTxn 128 latest)
      ((UserCall.change (.create [slash, 0x61] 0x1A4)).program (formatSuper 128 64 .ordered) 0).run
      smallDisk.flush.view).2 ∧
    DataPathSafe (formatSuper 128 64 .ordered) H 2 4096 5 := by
  obtain ⟨H, hout, hhas⟩ := (historyTxn_allows_viewTxn 128).run
    ((UserCall.change (.create [slash, 0x61] 0x1A4)).program (formatSuper 128 64 .ordered) 0).run
    (History.has_ofImage smallDisk.flush.view)
  have hcalls : AfterCalls (formatSuper 128 64 .ordered) (.ofImage smallDisk.flush.view) H :=
    .single ⟨_, _, _, hout⟩
  exact ⟨H, hcalls, hhas, dataPathSafe_of_calls run_format_small (by decide) run_fsMount_small hcalls 2 4096 5
    (by decide)⟩

end Reachable
end Logfs
