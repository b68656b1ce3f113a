import Logfs.JournalRun

/-!
# Transaction records in the log

The blocks `logfs_journal_commit` lays out for one transaction, where they stand
after a commit on a device that does not fail, and what one iteration of the scan
makes of them.
-/
namespace Logfs
open Interaction WriteCache ByteBuffer

/-- All blocks of a transaction in log order, the commit block last. -/
def record (sequence : UInt64) (data : List PendingBlock) (revoke : List UInt64) : List Block :=
  logBlocks sequence data revoke ++ [commitBuf sequence data revoke]

def recordLen (ndata nrevoke : ℕ) : ℕ := 1 + ndata + (if 0 < nrevoke then 1 else 0) + 1

theorem length_logBlocks (sequence : UInt64) (data : List PendingBlock) (revoke : List UInt64) :
    (logBlocks sequence data revoke).length + 1 = recordLen data.length revoke.length := by
  simp only [logBlocks, revokeBuf, recordLen, List.length_cons, List.length_append, List.length_map]
  split
  · simp
  · simp; omega

@[simp] theorem length_record (sequence : UInt64) (data : List PendingBlock)
    (revoke : List UInt64) :
    (record sequence data revoke).length = recordLen data.length revoke.length := by
  rw [record, List.length_append, List.length_singleton, length_logBlocks]

/-- A transaction that one descriptor and one revoke block can describe. -/
structure Fits (data : List PendingBlock) (revoke : List UInt64) : Prop where
  data_le : data.length ≤ maxTagsPerDesc
  revoke_le : revoke.length ≤ maxRevokesPerBlock

theorem toNat_journalSpaceNeeded {data : List PendingBlock} {revoke : List UInt64}
    (h : Fits data revoke) :
    (journalSpaceNeeded data.length revoke.length).toNat = recordLen data.length revoke.length := by
  have hd := h.data_le
  have hr := h.revoke_le
  have hlen : data.length < 2 ^ 64 := by simp only [maxTagsPerDesc] at hd; omega
  have hn : (UInt64.ofNat data.length).toNat = data.length := UInt64.toNat_ofNat_of_lt' hlen
  rw [journalSpaceNeeded, if_neg (by omega), recordLen]
  simp only [maxTagsPerDesc] at hd
  split <;> simp [UInt64.toNat_add, hn] <;> omega

/-! ## Blocks at log positions -/

/-- The blocks `bs` stand in the log from position `p` on. -/
def HoldsAt (j : Journal) (img : Image) (p : ℕ) (bs : List Block) : Prop :=
  ∀ i b, bs[i]? = some b → img (slot j (p + i)) = b

variable {j : Journal} {img : Image}

theorem mem_logWrites {p : ℕ} {bs : List Block} {w : UInt64 × Block}
    (h : w ∈ logWrites j (UInt64.ofNat p) bs) : ∃ i, i < bs.length ∧ w.1 = slot j (p + i) ∧
      bs[i]? = some w.2 := by
  induction bs generalizing p with
  | nil => simp [logWrites] at h
  | cons b bs ih =>
      rcases List.mem_cons.mp h with rfl | h
      · exact ⟨0, by simp, rfl, rfl⟩
      · have hnext : UInt64.ofNat p + 1 = UInt64.ofNat (p + 1) := by
          rw [UInt64.ofNat_add]
          rfl
        rw [hnext] at h
        obtain ⟨i, hi, hw, hb⟩ := ih h
        exact ⟨i + 1, by simpa using hi, by rw [hw]; congr 1; omega, by simpa using hb⟩

theorem holdsAt_logWrites (hj : j.Placed) {p : ℕ} {bs : List Block}
    (hlap : bs.length ≤ j.maxlen.toNat) (hp : p + bs.length ≤ 2 ^ 64) :
    HoldsAt j (applyWrites img (logWrites j (UInt64.ofNat p) bs)) p bs := by
  induction bs generalizing p img with
  | nil => intro i b h; simp at h
  | cons b bs ih =>
      have hnext : UInt64.ofNat p + 1 = UInt64.ofNat (p + 1) := by
        rw [UInt64.ofNat_add]
        rfl
      simp only [List.length_cons] at hlap hp
      intro i d hd
      rw [logWrites, applyWrites_cons, hnext]
      cases i with
      | zero =>
          rw [applyWrites_of_untouched]
          · simpa [slot] using hd
          · intro w hw he
            obtain ⟨k, hk, hslot, -⟩ := mem_logWrites hw
            rw [hslot] at he
            exact slot_ne hj (m := p) (n := p + 1 + k) (by omega) (by omega) (by omega) he.symm
      | succ i =>
          rw [show p + (i + 1) = p + 1 + i by omega]
          exact ih (by omega) (by omega) i d (by simpa using hd)

/-- Blocks of the log less than a lap behind a write are not touched by it. -/
theorem HoldsAt.of_logWrites (hj : j.Placed) {p q : ℕ} {bs ds : List Block}
    (h : HoldsAt j img q ds) (hbefore : q + ds.length ≤ p)
    (hlap : p + bs.length ≤ q + j.maxlen.toNat) (hp : p + bs.length ≤ 2 ^ 64) :
    HoldsAt j (applyWrites img (logWrites j (UInt64.ofNat p) bs)) q ds := by
  intro i d hd
  have hi : i < ds.length := (List.getElem?_eq_some_iff.mp hd).1
  rw [applyWrites_of_untouched]
  · exact h i d hd
  · intro w hw he
    obtain ⟨k, hk, hslot, -⟩ := mem_logWrites hw
    rw [hslot] at he
    exact slot_ne hj (m := q + i) (n := p + k) (by omega) (by omega) (by omega) he.symm

theorem HoldsAt.congr {img' : Image} {p : ℕ} {bs : List Block} (h : HoldsAt j img p bs)
    (he : ∀ i < bs.length, img' (slot j (p + i)) = img (slot j (p + i))) :
    HoldsAt j img' p bs := by
  intro i b hb
  rw [he i (List.getElem?_eq_some_iff.mp hb).1]
  exact h i b hb

theorem HoldsAt.append {as bs : List Block} : HoldsAt j img p (as ++ bs) ↔
    HoldsAt j img p as ∧ HoldsAt j img (p + as.length) bs := by
  constructor
  · intro h
    refine ⟨fun i b hb => h i b ?_, fun i b hb => ?_⟩
    · rw [List.getElem?_append_left (List.getElem?_eq_some_iff.mp hb).1, hb]
    · rw [Nat.add_assoc]
      exact h _ b (by rw [List.getElem?_append_right (by omega)]; simpa using hb)
  · rintro ⟨has, hbs⟩ i b hb
    by_cases hi : i < as.length
    · rw [List.getElem?_append_left hi] at hb
      exact has i b hb
    · rw [List.getElem?_append_right (by omega)] at hb
      have := hbs _ b hb
      rwa [show p + as.length + (i - as.length) = p + i by omega] at this

theorem HoldsAt.logView {p : ℕ} {bs : List Block} (h : HoldsAt j img p bs) {i : ℕ} {b : Block}
    (hb : bs[i]? = some b) : logView j img (UInt64.ofNat (p + i)) = b := h i b hb

/-! ## The scan over one record -/

/-- What the scan recovers from a transaction whose descriptor is at position `p`. -/
def recoveredTxn (p : ℕ) (sequence : UInt64) (data : List PendingBlock) : RecoveredTxn where
  sequence := sequence
  blocks := data.mapIdx fun i d => (d.targetBlock, UInt64.ofNat (p + 1 + i))

def recoveredRevokes (sequence : UInt64) (revoke : List UInt64) : List RevokeEntry :=
  revoke.map fun b => ⟨b, sequence⟩

@[simp] theorem decode_descBuf (sequence : UInt64) (data : List PendingBlock) :
    DescBlock.decode (descBuf sequence data) =
      { magic := descMagic, ntags := UInt32.ofNat data.length, sequence,
        tags := fun i => (data.map (·.targetBlock)).getD i 0 } := DescBlock.decode_encode _

@[simp] theorem decode_commitBuf (sequence : UInt64) (data : List PendingBlock)
    (revoke : List UInt64) :
    CommitBlock.decode (commitBuf sequence data revoke) =
      { magic := commitMagic, sequence,
        checksum := checksumTransaction (descBuf sequence data) (revokeBuf sequence revoke)
          (data.map (·.data)) } := CommitBlock.decode_encode _

@[simp] theorem magicOf_commitBuf (sequence : UInt64) (data : List PendingBlock)
    (revoke : List UInt64) : magicOf (commitBuf sequence data revoke) = commitMagic :=
  magicOf_commit _

section Tags
variable {n : ℕ}

theorem toNat_ntags (h : n ≤ maxTagsPerDesc) : (UInt32.ofNat n).toNat = n := by
  simp only [maxTagsPerDesc] at h
  exact UInt32.toNat_ofNat_of_lt' (show n < 4294967296 by omega)

theorem toUInt64_ntags (h : n ≤ maxTagsPerDesc) : (UInt32.ofNat n).toUInt64 = UInt64.ofNat n := by
  apply UInt64.toNat_inj.mp
  have hn := toNat_ntags h
  simp only [maxTagsPerDesc] at h
  rw [UInt32.toNat_toUInt64, hn,
    UInt64.toNat_ofNat_of_lt' (show n < 18446744073709551616 by omega)]

/-- The first `as.length` entries of an array filled from the list `as` are the list. -/
theorem take_ofFn_getD {α : Type} (as : List α) (d : α) (h : as.length ≤ n) :
    (List.ofFn fun i : Fin n => as.getD i d).take as.length = as := by
  apply List.ext_getElem
  · simp [h]
  · intro i hi hi'
    simp [List.getElem_take, List.getD_eq_getElem?_getD, hi']

end Tags

theorem ofNat_add_one (p : ℕ) : UInt64.ofNat p + 1 = UInt64.ofNat (p + 1) := by
  rw [UInt64.ofNat_add]
  rfl

theorem scanned_blocks (p : ℕ) (sequence : UInt64) {data : List PendingBlock}
    (h : data.length ≤ maxTagsPerDesc) :
    ((List.ofFn (DescBlock.decode (descBuf sequence data)).tags).take data.length).mapIdx
        (fun i target => (target, UInt64.ofNat (p + 1) + UInt64.ofNat i)) =
      (recoveredTxn p sequence data).blocks := by
  have htake := take_ofFn_getD (data.map (·.targetBlock)) (0 : UInt64) (n := maxTagsPerDesc)
    (by simpa using h)
  rw [List.length_map] at htake
  rw [decode_descBuf, htake, recoveredTxn]
  apply List.ext_getElem
  · simp
  · intro i hi hi'
    simp [UInt64.ofNat_add]

/-- The descriptor's checks pass on a descriptor the writer made. -/
theorem scanAt_desc {rd : UInt64 → Block} {p : ℕ} {sequence : UInt64} {data : List PendingBlock}
    (hlen : data.length ≤ maxTagsPerDesc) (hdesc : rd (UInt64.ofNat p) = descBuf sequence data) :
    scanAt rd (UInt64.ofNat p) sequence =
      let peek := rd (UInt64.ofNat (p + 1 + data.length))
      let revokeBlock := if magicOf peek = revokeMagic then some peek else none
      let commitOff := UInt64.ofNat (p + 1 + data.length + if revokeBlock.isSome then 1 else 0)
      let cb := CommitBlock.decode (rd commitOff)
      if cb.magic ≠ commitMagic ∨ cb.sequence ≠ sequence then none
      else if checksumTransaction (descBuf sequence data) revokeBlock
          ((List.range data.length).map fun i => rd (UInt64.ofNat (p + 1 + i))) ≠ cb.checksum then
        none
      else some
        { txn := recoveredTxn p sequence data
          revokes := match revokeBlock with
            | some b => revokeEntries (RevokeBlock.decode b)
            | none => []
          next := commitOff + 1 } := by
  have hblocks := scanned_blocks p sequence hlen
  have hone : ∀ P : Prop, [Decidable P] →
      UInt64.ofNat (if P then 1 else 0) = if P then (1 : UInt64) else 0 := by
    intro P _
    split <;> rfl
  rw [decode_descBuf] at hblocks
  unfold scanAt
  simp only [hdesc, decode_descBuf, toNat_ntags hlen, toUInt64_ntags hlen, ofNat_add_one]
  rw [if_neg (by simpa using hlen)]
  simp only [UInt64.ofNat_add, hone, scanned, toNat_ntags hlen] at hblocks ⊢
  simp only [hblocks]
  rfl

/-- A record without revokes is accepted with all its logged copies. -/
theorem scanAt_record_data {p : ℕ} {sequence : UInt64} {data : List PendingBlock}
    (hlen : data.length ≤ maxTagsPerDesc) (h : HoldsAt j img p (record sequence data [])) :
    scanAt (logView j img) (UInt64.ofNat p) sequence =
      some ⟨recoveredTxn p sequence data, [], UInt64.ofNat (p + recordLen data.length 0)⟩ := by
  have hrec : record sequence data [] =
      descBuf sequence data :: (data.map (·.data) ++ [commitBuf sequence data []]) := rfl
  rw [hrec] at h
  have hdesc : logView j img (UInt64.ofNat p) = descBuf sequence data := h.logView (i := 0) rfl
  have hcommit : logView j img (UInt64.ofNat (p + 1 + data.length)) =
      commitBuf sequence data [] := by
    rw [Nat.add_assoc, Nat.add_comm 1]
    exact h.logView (by simp)
  have hdata : (List.range data.length).map
      (fun i => logView j img (UInt64.ofNat (p + 1 + i))) = data.map (·.data) := by
    apply List.ext_getElem
    · simp
    · intro i hi hi'
      simp only [List.length_map] at hi'
      simp only [List.getElem_map, List.getElem_range]
      rw [Nat.add_assoc, Nat.add_comm 1]
      refine h.logView ?_
      simp [List.getElem?_append_left, hi']
  have hmagic : ¬ commitMagic = revokeMagic := by decide
  rw [scanAt_desc hlen hdesc]
  simp only [hcommit, magicOf_commitBuf, hmagic, if_false, Option.isSome_none, Bool.false_eq_true,
    Nat.add_zero, hdata, decode_commitBuf]
  rw [if_neg (by simp), if_neg (by simp [revokeBuf]), ofNat_add_one]
  simp only [recordLen, Nat.lt_irrefl, if_false]
  congr 3
  omega

/-- A record without logged blocks is accepted with all its revoke entries. -/
theorem scanAt_record_revoke {p : ℕ} {sequence : UInt64} {revoke : List UInt64}
    (hlen : revoke.length ≤ maxRevokesPerBlock) (hpos : 0 < revoke.length)
    (h : HoldsAt j img p (record sequence [] revoke)) :
    scanAt (logView j img) (UInt64.ofNat p) sequence =
      some ⟨recoveredTxn p sequence [], recoveredRevokes sequence revoke,
        UInt64.ofNat (p + recordLen 0 revoke.length)⟩ := by
  obtain ⟨rv, hrv, hdec⟩ : ∃ b, revokeBuf sequence revoke = some b ∧ RevokeBlock.decode b =
      { magic := revokeMagic, nblocks := UInt32.ofNat revoke.length, sequence,
        blocks := fun i => revoke.getD i 0 } :=
    ⟨_, if_pos hpos, RevokeBlock.decode_encode _⟩
  have hrec : record sequence [] revoke =
      [descBuf sequence [], rv, commitBuf sequence [] revoke] := by
    simp [record, logBlocks, hrv]
  rw [hrec] at h
  have hdesc : logView j img (UInt64.ofNat p) = descBuf sequence [] := h.logView (i := 0) rfl
  have hpeek : logView j img (UInt64.ofNat (p + 1)) = rv := h.logView (i := 1) rfl
  have hcommit : logView j img (UInt64.ofNat (p + 2)) = commitBuf sequence [] revoke :=
    h.logView (i := 2) rfl
  have hmagic : magicOf rv = revokeMagic := congrArg RevokeBlock.magic hdec
  have hentries : revokeEntries (RevokeBlock.decode rv) = recoveredRevokes sequence revoke := by
    have htake := take_ofFn_getD revoke (0 : UInt64) (n := maxRevokesPerBlock) hlen
    rw [revokeEntries, hdec]
    simp only [toNat_ntags hlen, htake, recoveredRevokes]
  rw [scanAt_desc (by simp) hdesc]
  simp only [List.length_nil, Nat.add_zero, hpeek, hmagic, if_true, Option.isSome_some,
    List.range_zero, List.map_nil, hcommit, decode_commitBuf, hrv, hentries]
  rw [if_neg (by simp), if_neg (by simp), ofNat_add_one]
  simp only [recordLen, if_pos hpos]

/-- With both logged blocks and revokes, the reader looks for the revoke block where
the writer put the last logged block, and takes that one for the commit block. -/
theorem scanAt_record_both {p : ℕ} {sequence : UInt64} {data : List PendingBlock}
    {revoke : List UInt64} (hlen : data.length ≤ maxTagsPerDesc) (hdata : data ≠ [])
    (hrevoke : revoke ≠ []) (hplain : ∀ d ∈ data, ¬ IsRecord d.data)
    (h : HoldsAt j img p (record sequence data revoke)) :
    scanAt (logView j img) (UInt64.ofNat p) sequence = none := by
  obtain ⟨rv, hrv⟩ : ∃ b, revokeBuf sequence revoke = some b :=
    ⟨_, if_pos (List.length_pos_iff.mpr hrevoke)⟩
  obtain ⟨init, last, rfl⟩ := (List.eq_nil_or_concat' data).resolve_left hdata
  have hrec : record sequence (init ++ [last]) revoke =
      descBuf sequence (init ++ [last]) :: rv :: (init.map (·.data) ++
        (last.data :: [commitBuf sequence (init ++ [last]) revoke])) := by
    simp [record, logBlocks, hrv]
  rw [hrec] at h
  have hdesc : logView j img (UInt64.ofNat p) = descBuf sequence (init ++ [last]) :=
    h.logView (i := 0) rfl
  have hlast : logView j img (UInt64.ofNat (p + 1 + (init ++ [last]).length)) = last.data := by
    rw [Nat.add_assoc, show 1 + (init ++ [last]).length = init.length + 1 + 1 by simp; omega]
    exact h.logView (by simp)
  have hmagic : ¬ IsRecord last.data := hplain last (by simp)
  have hnr : ¬ magicOf last.data = revokeMagic := fun he => hmagic (.inr (.inr he))
  have hnc : (CommitBlock.decode last.data).magic ≠ commitMagic := fun he => hmagic (.inr (.inl he))
  rw [scanAt_desc hlen hdesc]
  simp only [hlast, hnr, if_false, Option.isSome_none, Bool.false_eq_true, Nat.add_zero]
  rw [if_pos (.inl hnc)]

end Logfs
