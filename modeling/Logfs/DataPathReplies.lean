import Logfs.DataPath

/-!
# The data path on natural numbers

Within the limits the kernel keeps to, reads and writes in words of 64 bits answer what `opRead` and
`opWrite` answer and do to the file system what they do.
-/
namespace Logfs
open Interaction WriteCache ByteBuffer

variable {α : Type}

section Agree
variable {sb : Super} {offset size done : UInt64} {buf : List UInt8} {inode : Inode}
  (hend : offset.toNat + size.toNat ≤ maxFileSize)
include hend

theorem index_roundAt (hdone : done < size) :
    (roundAt offset size done).index = (offset.toNat + done.toNat) / blockSize := by
  rw [Round.index, (roundAt_toNat hend hdone).1]
  rfl

theorem writeRound_eq (hbuf : buf.length = size.toNat) (hdone : done < size) :
    writeRound sb buf inode (roundAt offset size done) =
      writeChunk sb inode (offset.toNat + done.toNat) ((buf.drop done.toNat).take
        (chunkAt (offset.toNat + done.toNat) (buf.drop done.toNat).length)) := by
  obtain ⟨-, hin, hchunk⟩ := roundAt_toNat hend hdone
  have hlen : (buf.drop done.toNat).length = size.toNat - done.toNat := by rw [List.length_drop, hbuf]
  have htaken : ((buf.drop done.toNat).take (chunkAt (offset.toNat + done.toNat) (size.toNat - done.toNat))).length =
      chunkAt (offset.toNat + done.toNat) (size.toNat - done.toNat) := by
    rw [List.length_take, hlen]
    exact min_eq_left (min_le_right _ _)
  have hpart : (roundAt offset size done).inBlock ≠ 0 ∨ (roundAt offset size done).chunk ≠ 4096 ↔
      (offset.toNat + done.toNat) % blockSize ≠ 0 ∨
        chunkAt (offset.toNat + done.toNat) (size.toNat - done.toNat) ≠ blockSize := by
    rw [← hin, ← hchunk, ne_eq, ne_eq, ← UInt64.toNat_inj, ← UInt64.toNat_inj]
    rfl
  unfold writeRound writeChunk chunkBase roundBase
  rw [hlen, htaken, index_roundAt hend hdone, hin, hchunk]
  simp only [hpart]
  rfl

omit hend in
/-- Nothing is left of the buffer when the loop ends. -/
theorem drop_of_done (hbuf : buf.length = size.toNat) (hdone : ¬ done < size) : buf.drop done.toNat = [] := by
  rw [List.drop_eq_nil_iff, hbuf]
  exact UInt64.le_iff_toNat_le.mp (UInt64.not_lt.mp hdone)

omit hend in
theorem writeLoop_nil (n pos : ℕ) : writeLoop sb n inode pos [] = pure inode := by
  cases n with
  | zero => rfl
  | succ n => exact if_pos rfl

/-- The loop of a write, with the rest of the buffer still to be written. -/
theorem roundsFrom_writeRound (sb : Super) (hbuf : buf.length = size.toNat) (fuel n : ℕ) (done : UInt64)
    (inode : Inode) (hn : size.toNat - done.toNat ≤ n) (hfuel : EnoughFuel offset size done fuel) :
    (do
      let t ← roundsFrom offset size (writeRound sb buf) fuel done inode
      return t.2 : TxnM (Option (Except Errno Inode))) =
    (do
      let r ← (writeLoop sb n inode (offset.toNat + done.toNat) (buf.drop done.toNat)).run
      return some r) := by
  induction fuel generalizing done inode n with
  | zero =>
      have hdone := hfuel.spent hend
      unfold roundsFrom
      rw [if_neg hdone, drop_of_done hbuf hdone, writeLoop_nil]
      rfl
  | succ fuel ih =>
      by_cases hdone : done < size
      · have hnext := (roundAt_next hend hdone).1
        have hchunk := (roundAt_toNat hend hdone).2.2
        have hlen : (buf.drop done.toNat).length = size.toNat - done.toNat := by rw [List.length_drop, hbuf]
        have hlt := UInt64.lt_iff_toNat_lt.mp hdone
        have hsome : buf.drop done.toNat ≠ [] := by
          rw [← List.length_pos_iff, hlen]
          omega
        obtain ⟨m, rfl⟩ : ∃ m, n = m + 1 := ⟨n - 1, by omega⟩
        have hpos := (roundAt_safe hend hdone).nonempty
        unfold roundsFrom writeLoop
        rw [if_pos hdone, if_pos (roundAt_safe hend hdone).index, if_neg hsome, writeRound_eq hend hbuf hdone,
          ExceptT.run_bind, hlen, List.drop_drop, ← hchunk, Nat.add_assoc, ← hnext]
        rw [bind_assoc, bind_assoc]
        refine bind_congr fun r => ?_
        cases r with
        | error e => rfl
        | ok inode' =>
            simp only [bind_assoc, pure_bind]
            exact ih m _ inode' (by omega) (hfuel.next hend hdone)
      · unfold roundsFrom
        rw [if_neg hdone, drop_of_done hbuf hdone, writeLoop_nil]
        rfl

omit hend in
theorem readLoop_zero (n pos : ℕ) : readLoop inode n pos 0 = pure [] := by
  cases n with
  | zero => rfl
  | succ n => exact if_pos rfl

theorem readRound_eq (hdone : done < size) (bytes : List UInt8) :
    readRound inode bytes (roundAt offset size done) = (do
      let new ← readChunk inode (offset.toNat + done.toNat)
        (chunkAt (offset.toNat + done.toNat) (size.toNat - done.toNat))
      return bytes ++ new) := by
  obtain ⟨-, hin, hchunk⟩ := roundAt_toNat hend hdone
  unfold readRound readChunk
  rw [index_roundAt hend hdone, hin, hchunk]
  split
  · rfl
  · rw [bind_assoc]
    rfl

/-- The loop of a read, after the bytes already copied. -/
theorem roundsFrom_readRound (inode : Inode) (fuel n : ℕ) (done : UInt64) (bytes : List UInt8)
    (hn : size.toNat - done.toNat ≤ n) (hfuel : EnoughFuel offset size done fuel) :
    (do
      let t ← roundsFrom offset size (readRound inode) fuel done bytes
      return t.2 : TxnM (Option (Except Errno (List UInt8)))) =
    (do
      let r ← (readLoop inode n (offset.toNat + done.toNat) (size.toNat - done.toNat)).run
      return some (r.map fun new => bytes ++ new)) := by
  have hstop : ∀ (n : ℕ) {done : UInt64}, ¬ done < size →
      readLoop inode n (offset.toNat + done.toNat) (size.toNat - done.toNat) = pure [] := by
    intro n done hdone
    have hle := UInt64.le_iff_toNat_le.mp (UInt64.not_lt.mp hdone)
    rw [Nat.sub_eq_zero_of_le hle, readLoop_zero]
  induction fuel generalizing done bytes n with
  | zero =>
      have hdone := hfuel.spent hend
      unfold roundsFrom
      rw [if_neg hdone, hstop n hdone]
      change Prog.ret (some (Except.ok bytes)) = Prog.ret (some (Except.ok (bytes ++ [])))
      rw [List.append_nil]
  | succ fuel ih =>
      unfold roundsFrom
      by_cases hdone : done < size
      · have hnext := (roundAt_next hend hdone).1
        have hchunk := (roundAt_toNat hend hdone).2.2
        have hlt := UInt64.lt_iff_toNat_lt.mp hdone
        have hpos := (roundAt_safe hend hdone).nonempty
        obtain ⟨m, rfl⟩ : ∃ m, n = m + 1 := ⟨n - 1, by omega⟩
        unfold readLoop
        rw [if_pos hdone, if_pos (roundAt_safe hend hdone).index, if_neg (by omega), readRound_eq hend hdone,
          ExceptT.run_bind, ExceptT.run_bind, ← hchunk, Nat.add_assoc, Nat.sub_sub, ← hnext]
        rw [bind_assoc, bind_assoc, bind_assoc]
        refine bind_congr fun r => ?_
        cases r with
        | error e => rfl
        | ok new =>
            have hrest := ih m _ (bytes ++ new) (by omega) (hfuel.next hend hdone)
            simp only [ExceptT.run_pure, pure_bind, bind_assoc]
            rw [hrest, ExceptT.run_bind, bind_assoc]
            refine bind_congr fun r => ?_
            cases r with
            | error e => rfl
            | ok rest =>
                change Prog.ret (some (Except.ok (bytes ++ new ++ rest))) =
                  Prog.ret (some (Except.ok (bytes ++ (new ++ rest))))
                rw [List.append_assoc]
      · rw [if_neg hdone, hstop n hdone]
        change Prog.ret (some (Except.ok bytes)) = Prog.ret (some (Except.ok (bytes ++ [])))
        rw [List.append_nil]

end Agree

/-! ## The operations -/

section Agree
variable {sb : Super} {ino : UInt32} {offset size now : UInt64} {buf : List UInt8}

/-- What the caller of the operation is told. -/
def Trace.reply : Except Errno (Trace α) → Option (Except Errno α)
  | .error e => some (.error e)
  | .ok t => t.answer

/-- Each read of a regular file is a read on natural numbers. -/
theorem opReadTraced_agrees (hsum : offset.toNat + size.toNat ≤ 2 ^ 63) {H H' : History}
    (hbounded : H.All (BlockBounded sb)) {t : Trace (List UInt8)}
    (hout : Outcome historyTxn (opReadTraced sb ino size offset).run H (.ok t) H')
    (hreg : isReg t.file.mode = true) :
    ∃ r, t.answer = some r ∧ Outcome historyTxn (opRead sb ino size.toNat offset.toNat).run H r H' := by
  obtain ⟨H₁, hread, ⟨hempty, hrounds, hanswer, rfl⟩ | ⟨hsome, hloop⟩⟩ := opReadTraced_cases hout
  · refine ⟨_, hanswer, outcome_exceptT_bind.mpr (.inl ⟨_, _, hread, ?_⟩)⟩
    rw [if_pos (UInt64.le_iff_toNat_le.mp hempty)]
    exact .ret _ _
  · have hinode := (bounds_inodeRead sb ino _ _ _ hbounded hread).2 _ rfl
    have hend := clippedSize_le hsum hsome (hinode.size (not_isDir_of_isReg hreg))
    have hrest : (clippedSize t.file size offset).toNat - (0 : UInt64).toNat ≤
        min size.toNat (t.file.size.toNat - offset.toNat) := by
      rw [toNat_clippedSize hsum hsome]
      exact Nat.sub_le _ _
    have hsame := roundsFrom_readRound hend t.file ndirBlocks _ 0 [] hrest (.start _ _)
    have hanswer : Outcome historyTxn (do
        let t ← roundsFrom offset (clippedSize t.file size offset) (readRound t.file) ndirBlocks 0 []
        return t.2 : TxnM _) H₁ t.answer H' := outcome_bind.mpr ⟨_, _, hloop, .ret _ _⟩
    rw [hsame, UInt64.toNat_zero, Nat.add_zero, Nat.sub_zero, toNat_clippedSize hsum hsome] at hanswer
    obtain ⟨r, H₂, hread', hret⟩ := outcome_bind.mp hanswer
    obtain ⟨hr, rfl⟩ := outcome_ret.mp hret
    refine ⟨r, ?_, outcome_exceptT_bind.mpr (.inl ⟨_, _, hread, ?_⟩)⟩
    · rw [hr]
      cases r <;> rfl
    · rw [if_neg (fun hle => hsome (UInt64.le_iff_toNat_le.mpr hle))]
      exact hread'

/-- The size a write leaves is the one on natural numbers. -/
theorem grownSize_eq (hsum : offset.toNat + size.toNat ≤ 2 ^ 63) (inode : Inode) :
    (if inode.size < offset + size then offset + size else inode.size) =
      grownSize inode (offset.toNat + size.toNat) := by
  unfold grownSize
  rw [← toNat_end hsum, UInt64.ofNat_toNat]
  rfl

/-- The reply of a write whose loop has ended. -/
def replyOf : Except Errno (Option (Except Errno ℕ)) → Option (Except Errno ℕ)
  | .error e => some (.error e)
  | .ok answer => answer

/-- What is done with the reply of a call may be done before its handle ends. -/
theorem withHandle_reply {β γ : Type} {p : TxnEM α} {q : TxnEM β} {f : Except Errno α → γ} {g : Except Errno β → γ}
    (h : (do let r ← p.run; return f r : TxnM γ) = (do let r ← q.run; return g r)) :
    (do let r ← p.withHandle.run; return f r : TxnM γ) = (do let r ← q.withHandle.run; return g r) := by
  have hmove : ∀ {δ : Type} (p : TxnEM δ) (f : Except Errno δ → γ),
      (do let r ← p.withHandle.run; return f r : TxnM γ) =
        .op .start fun _ => (do let r ← p.run; return f r : TxnM γ) >>= fun x => .op .stop fun _ => .ret x := by
    intro δ p f
    refine congrArg (Prog.op TxnCall.start) (funext fun _ => ?_)
    rw [bind_assoc]
    exact bind_assoc p.run _ _
  rw [hmove, hmove, h]

/-- The reply of a write does not depend on the rounds its loop has made. -/
theorem reply_finishWrite (file : Inode) (loop : TxnM (List Round × Option (Except Errno Inode))) :
    (do
      let r ← (do
        let t ← liftM loop
        let answer ← finishWrite sb ino size offset now t.2
        return (⟨file, t.1, answer⟩ : Trace ℕ) : TxnEM (Trace ℕ)).run
      return Trace.reply r : TxnM (Option (Except Errno ℕ))) =
    (do let t ← loop; return t.2 : TxnM (Option (Except Errno Inode))) >>= fun answer => do
      let r ← (finishWrite sb ino size offset now answer).run
      return replyOf r := by
  have hlift : (liftM loop : TxnEM _).run = loop >>= fun t => .ret (.ok t) := rfl
  rw [ExceptT.run_bind, hlift, bind_assoc, bind_assoc, bind_assoc]
  refine bind_congr fun t => ?_
  change ((finishWrite sb ino size offset now t.2 >>= fun answer => pure (⟨file, t.1, answer⟩ : Trace ℕ)).run >>=
    fun r => pure (Trace.reply r)) = (finishWrite sb ino size offset now t.2).run >>= fun r => pure (replyOf r)
  rw [ExceptT.run_bind, bind_assoc]
  refine bind_congr fun r => ?_
  cases r <;> rfl

/-- After a loop that has written everything, the inode is written back. -/
theorem finishWrite_ok (hsum : offset.toNat + size.toNat ≤ 2 ^ 63) (hbuf : buf.length = size.toNat) (inode : Inode) :
    (do
      let r ← (finishWrite sb ino size offset now (some (.ok inode))).run
      return replyOf r : TxnM (Option (Except Errno ℕ))) =
    (do
      let r ← (do
        inodeWrite sb ino { inode with size := grownSize inode (offset.toNat + buf.length), mtime := now }
        return buf.length : TxnEM ℕ).run
      return some r) := by
  have hresult : ∀ p : TxnEM Unit, p.result.run = p.run >>= fun r => .ret (.ok r) := fun _ => rfl
  unfold finishWrite
  dsimp only
  rw [grownSize_eq hsum, hbuf, ExceptT.run_bind, hresult, ExceptT.run_bind, bind_assoc, bind_assoc, bind_assoc]
  refine bind_congr fun r => ?_
  cases r <;> rfl

/-- Each write is the write on natural numbers, whatever its inode holds. -/
theorem opWriteTraced_agrees (hsum : offset.toNat + size.toNat ≤ 2 ^ 63) (hbuf : buf.length = size.toNat) :
    (do
      let r ← (opWriteTraced sb ino buf size offset now).run
      return Trace.reply r : TxnM (Option (Except Errno ℕ))) =
    (do
      let r ← (opWrite sb ino buf offset.toNat now).run
      return some r) := by
  have hcap : UInt64.ofNat maxFileSize < offset + size ↔ maxFileSize < offset.toNat + buf.length := by
    rw [UInt64.lt_iff_toNat_lt, toNat_end hsum, hbuf]
    rfl
  unfold opWriteTraced opWrite
  by_cases hbig : maxFileSize < offset.toNat + buf.length
  · rw [if_pos hbig, if_pos (hcap.mpr hbig)]
    rfl
  · rw [if_neg hbig, if_neg (fun h => hbig (hcap.mp h))]
    have hend : offset.toNat + size.toNat ≤ maxFileSize := by
      rw [← hbuf]
      exact not_lt.mp hbig
    refine withHandle_reply ?_
    rw [ExceptT.run_bind, ExceptT.run_bind, bind_assoc, bind_assoc]
    refine bind_congr fun r => ?_
    cases r with
    | error e => rfl
    | ok inode =>
        have hrest : size.toNat - (0 : UInt64).toNat ≤ buf.length := by
          rw [hbuf]
          exact Nat.sub_le _ _
        have hsame := roundsFrom_writeRound hend sb hbuf ndirBlocks buf.length 0 inode hrest (.start _ _)
        rw [UInt64.toNat_zero, Nat.add_zero, List.drop_zero] at hsame
        refine (reply_finishWrite inode _).trans ?_
        dsimp only
        rw [hsame, ExceptT.run_bind, bind_assoc, bind_assoc]
        refine bind_congr fun r => ?_
        cases r with
        | error e => rfl
        | ok inode' => exact finishWrite_ok hsum hbuf inode'

end Agree
end Logfs
