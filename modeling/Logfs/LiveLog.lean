import Logfs.Recovery

/-!
# The live log

The part of the region between tail and head, together with the journal superblock
that points at it: what a commit does to it and what recovery makes of it.
-/
namespace Logfs
open Interaction WriteCache ByteBuffer

variable {j : Journal} {img : Image}

/-- The journal superblock points at the first of the transactions, or says that the
log is empty when there are none. -/
structure StartsAt (img : Image) (p : ℕ) (s : UInt64) (ts : List Transaction) : Prop where
  magic : (jsuperOf img).magic = journalMagic
  start : (jsuperOf img).start = if ts = [] then journalEmpty else UInt64.ofNat p
  sequence : ts ≠ [] → (jsuperOf img).sequence = s

/-- The log holds the transactions `ts` from position `p` on, numbered from `s` on,
and the journal superblock says so. -/
structure DiskLog (j : Journal) (img : Image) (p : ℕ) (s : UInt64) (ts : List Transaction) :
    Prop where
  placed : j.Placed
  room : logLen ts ≤ j.maxlen.toNat
  /-- No offset has wrapped. -/
  bound : p + logLen ts < 2 ^ 64
  holds : LogHolds j img p s ts
  starts : StartsAt img p s ts

/-- The journal in memory agrees with the log on disk. -/
structure LiveLog (j : Journal) (img : Image) (p : ℕ) (s : UInt64) (ts : List Transaction) : Prop
    extends DiskLog j img p s ts where
  tail_eq : j.tail = UInt64.ofNat p
  head_eq : j.head = UInt64.ofNat (p + logLen ts)
  next_eq : j.nextSequence = s + UInt64.ofNat ts.length

theorem logLen_eq_zero {ts : List Transaction} : logLen ts = 0 ↔ ts = [] := by
  constructor
  · intro h
    have := length_le_logLen ts
    exact List.length_eq_zero_iff.mp (by omega)
  · rintro rfl
    rfl

theorem ofNat_inj {m n : ℕ} (hm : m < 2 ^ 64) (hn : n < 2 ^ 64) :
    UInt64.ofNat m = UInt64.ofNat n ↔ m = n := by
  constructor
  · intro h
    have := congrArg UInt64.toNat h
    rwa [UInt64.toNat_ofNat_of_lt' hm, UInt64.toNat_ofNat_of_lt' hn] at this
  · rintro rfl
    rfl

theorem ofNat_ne_empty {n : ℕ} (hn : n < 2 ^ 64 - 1) : UInt64.ofNat n ≠ journalEmpty :=
  fun h => by
    have := (ofNat_inj (by omega) (by decide) : _ ↔ n = 2 ^ 64 - 1).mp h
    omega

/-- Only where the region is matters to what the log holds. -/
theorem LogHolds.of_region (j j' : Journal) (hfirst : j'.first = j.first)
    (hmaxlen : j'.maxlen = j.maxlen) {p : ℕ} {s : UInt64} {ts : List Transaction} :
    LogHolds j' img p s ts ↔ LogHolds j img p s ts := by
  have hslot : slot j' = slot j := by
    funext n
    simp only [slot, physOf, hfirst, hmaxlen]
  induction ts generalizing p s with
  | nil => rfl
  | cons t ts ih => simp only [LogHolds, HoldsAt, hslot, ih]

namespace LiveLog
variable {p : ℕ} {s : UInt64} {ts : List Transaction}

theorem freeSpace (h : LiveLog j img p s ts) :
    (journalFreeSpace j).toNat = j.maxlen.toNat - logLen ts := by
  have hroom := h.room
  have hbound := h.bound
  have hlen : (UInt64.ofNat (logLen ts)).toNat = logLen ts :=
    UInt64.toNat_ofNat_of_lt' (show logLen ts < 18446744073709551616 by omega)
  have hused : j.head - j.tail = UInt64.ofNat (logLen ts) := by
    rw [h.head_eq, h.tail_eq, UInt64.ofNat_add, UInt64.add_comm, UInt64.add_sub_cancel]
  have hle : UInt64.ofNat (logLen ts) ≤ j.maxlen := by
    rw [UInt64.le_iff_toNat_le, hlen]
    exact hroom
  rw [journalFreeSpace, hused, UInt64.toNat_sub_of_le _ _ hle, hlen]

theorem hasRoom (h : LiveLog j img p s ts) {t : Transaction} :
    j.HasRoom t ↔ logLen ts + t.len ≤ j.maxlen.toNat := by
  have hroom := h.room
  rw [Journal.HasRoom, h.freeSpace]
  omega

theorem tail_eq_head (h : LiveLog j img p s ts) : j.tail = j.head ↔ ts = [] := by
  have hbound := h.bound
  rw [h.tail_eq, h.head_eq, ofNat_inj (by omega) (by omega), ← logLen_eq_zero]
  omega

/-- The blocks of the region a transaction is about to be written to are none of the log's. -/
theorem holds_commitImage (h : LiveLog j img p s ts) {t : Transaction} (hroom : j.HasRoom t)
    (hbound : p + logLen ts + t.len < 2 ^ 64) :
    LogHolds j (commitImage j t img) p s (ts ++ [t]) := by
  have hfree := h.hasRoom.mp hroom
  have hlap := h.room
  have hout : ∀ n, n < logLen (ts ++ [t]) →
      commitImage j t img (slot j (p + n)) =
        applyWrites img (logWrites j j.head (t.record j.nextSequence)) (slot j (p + n)) := by
    intro n _
    rw [commitImage, applyWrites_append, applyWrites_of_untouched]
    intro w hw
    unfold startWrite at hw
    split at hw
    · rw [List.mem_singleton.mp hw]
      exact ((inRegion_slot h.placed _).ne_jsuper h.placed).symm
    · simp at hw
  refine LogHolds.congr (LogHolds.append.mpr ⟨?_, ?_, trivial⟩) hout
  · rw [h.head_eq]
    refine h.holds.of_logWrites h.placed le_rfl ?_ ?_
    · rw [Transaction.length_record]; omega
    · rw [Transaction.length_record]; omega
  · rw [h.head_eq, h.next_eq]
    refine holdsAt_logWrites h.placed ?_ ?_
    · rw [Transaction.length_record]; omega
    · rw [Transaction.length_record]; omega

theorem starts_commitImage (h : LiveLog j img p s ts) (t : Transaction) :
    StartsAt (commitImage j t img) p s (ts ++ [t]) := by
  have hkeep : applyWrites img (logWrites j j.head (t.record j.nextSequence)) jsuperBlockno =
      img jsuperBlockno := by
    apply applyWrites_of_untouched
    intro w hw
    rw [h.head_eq] at hw
    obtain ⟨i, -, hslot, -⟩ := mem_logWrites hw
    rw [hslot]
    exact (inRegion_slot h.placed _).ne_jsuper h.placed
  have hsuper : jsuperOf (commitImage j t img) = if ts = [] then
      JournalSuper.decode (jsuperEncode j j.head j.nextSequence) else jsuperOf img := by
    unfold jsuperOf commitImage startWrite
    simp only [h.tail_eq_head, applyWrites_append]
    split
    · simp
    · rw [applyWrites_nil, hkeep]
  by_cases hts : ts = []
  · subst hts
    have hhead := h.head_eq
    have hnext := h.next_eq
    simp only [logLen_nil, Nat.add_zero, List.length_nil] at hhead hnext
    rw [if_pos rfl, decode_jsuperEncode, hhead, hnext] at hsuper
    constructor
    · rw [hsuper]
    · simp [hsuper]
    · intro _
      simp [hsuper]
  · rw [if_neg hts] at hsuper
    constructor
    · rw [hsuper, h.starts.magic]
    · simp [hsuper, h.starts.start, hts]
    · intro _
      rw [hsuper, h.starts.sequence hts]

/-- A commit appends its transaction to the log. -/
theorem commit (h : LiveLog j img p s ts) {t : Transaction} (hroom : j.HasRoom t)
    (hbound : p + logLen ts + t.len < 2 ^ 64) :
    LiveLog (committed j t) (commitImage j t img) p s (ts ++ [t]) where
  placed := ⟨h.placed.maxlen_pos, h.placed.fits, h.placed.after_jsuper⟩
  tail_eq := h.tail_eq
  head_eq := by
    simp only [committed, h.head_eq, logLen_append, logLen_cons, logLen_nil, UInt64.ofNat_add]
    simp [UInt64.add_assoc]
  next_eq := by
    simp only [committed, h.next_eq, List.length_append, List.length_singleton, UInt64.ofNat_add]
    simp [UInt64.add_assoc]
  room := by
    have := h.hasRoom.mp hroom
    simpa [committed] using this
  bound := by
    simp only [logLen_append, logLen_cons, logLen_nil]
    omega
  holds := (LogHolds.of_region j (committed j t) rfl rfl).mpr (h.holds_commitImage hroom hbound)
  starts := h.starts_commitImage t

end LiveLog

/-! ## Where the scan stops -/

/-- Every commit block in the region has a sequence number less than `n`. -/
def CommitsBelow (j : Journal) (img : Image) (n : ℕ) : Prop :=
  ∀ b, InRegion j b → magicOf (img b) = commitMagic →
    (CommitBlock.decode (img b)).sequence.toNat < n

theorem CommitsBelow.mono {m n : ℕ} (h : CommitsBelow j img m) (hmn : m ≤ n) :
    CommitsBelow j img n := fun b hb hm => (h b hb hm).trans_le hmn

theorem CommitsBelow.of_region (j j' : Journal) (hfirst : j'.first = j.first)
    (hmaxlen : j'.maxlen = j.maxlen) {n : ℕ} (h : CommitsBelow j img n) :
    CommitsBelow j' img n := by
  intro b hb
  rw [InRegion, hfirst, hmaxlen] at hb
  exact h b hb

/-- A transaction is accepted only with a commit block of its sequence number. -/
theorem CommitsBelow.scanAt_none {n : ℕ} (h : CommitsBelow j img n) (hj : j.Placed)
    (off : UInt64) {expectSeq : UInt64} (hn : n ≤ expectSeq.toNat) :
    scanAt (logView j img) off expectSeq = none := by
  simp only [scanAt]
  split
  · rfl
  · next hdesc =>
      push Not at hdesc
      rw [if_pos]
      by_contra hc
      push Not at hc
      have hlt := h _ (inRegion_physOf hj _) hc.1
      change (CommitBlock.decode (logView j img _)).sequence.toNat < n at hlt
      rw [hc.2, hdesc.2.1] at hlt
      omega

theorem CommitsBelow.write {n : ℕ} (h : CommitsBelow j img n) {w : UInt64 × Block}
    (hw : magicOf w.2 = commitMagic → (CommitBlock.decode w.2).sequence.toNat < n) :
    CommitsBelow j (Function.update img w.1 w.2) n := by
  intro b hb
  by_cases he : b = w.1
  · subst he
    simpa using hw
  · simpa [Function.update_of_ne he] using h b hb

theorem CommitsBelow.applyWrites {n : ℕ} {ws : List (UInt64 × Block)} (h : CommitsBelow j img n)
    (hws : ∀ w ∈ ws, magicOf w.2 = commitMagic → (CommitBlock.decode w.2).sequence.toNat < n) :
    CommitsBelow j (applyWrites img ws) n := by
  induction ws generalizing img with
  | nil => exact h
  | cons w ws ih =>
      exact ih (h.write (hws w List.mem_cons_self)) fun u hu => hws u (List.mem_cons_of_mem w hu)

/-- Only the last block of a transaction's record is a commit block. -/
theorem magic_logBlocks {sequence : UInt64} {t : Transaction} (hplain : t.Plain) {b : Block}
    (hb : b ∈ logBlocks sequence t.data t.revoke) : magicOf b ≠ commitMagic := by
  rcases List.mem_cons.mp hb with rfl | hb
  · have hm : magicOf (descBuf sequence t.data) = descMagic := magicOf_desc _
    rw [hm]
    decide
  · rcases List.mem_append.mp hb with hb | hb
    · unfold revokeBuf at hb
      split at hb
      · rw [Option.toList_some, List.mem_singleton] at hb
        have hm : magicOf b = revokeMagic := hb ▸ magicOf_revoke _
        rw [hm]
        decide
      · simp at hb
    · obtain ⟨d, hd, rfl⟩ := List.mem_map.mp hb
      exact fun he => hplain d hd (.inr (.inl he))

@[simp] theorem magicOf_jsuperEncode (j : Journal) (off seq : UInt64) :
    magicOf (jsuperEncode j off seq) = journalMagic :=
  congrArg JournalSuper.magic (decode_jsuperEncode j off seq)

theorem snd_mem_logWrites {cursor : UInt64} {bs : List Block} {w : UInt64 × Block}
    (hw : w ∈ logWrites j cursor bs) : w.2 ∈ bs := by
  rw [← UInt64.ofNat_toNat (x := cursor)] at hw
  obtain ⟨i, -, -, hi⟩ := mem_logWrites hw
  exact List.mem_of_getElem? hi

theorem CommitsBelow.commitImage {t : Transaction} (hplain : t.Plain)
    (h : CommitsBelow j img j.nextSequence.toNat) :
    CommitsBelow j (commitImage j t img) (j.nextSequence.toNat + 1) := by
  refine (h.mono (Nat.le_succ _)).applyWrites fun w hw hm => ?_
  rcases List.mem_append.mp hw with hw | hw
  · rcases List.mem_append.mp (snd_mem_logWrites hw) with hb | hb
    · exact absurd hm (magic_logBlocks hplain hb)
    · rw [List.mem_singleton.mp hb, decode_commitBuf]
      exact Nat.lt_succ_self _
  · unfold startWrite at hw
    split at hw
    · rw [List.mem_singleton.mp hw, magicOf_jsuperEncode] at hm
      exact absurd hm (by decide)
    · simp at hw

/-! ## A fresh log -/

/-- A region with no commit block in it, after `logfs_journal_format` and `logfs_journal_open`. -/
theorem liveLog_format {dev : BlockDev} {first maxlen : UInt64}
    (hj : Journal.Placed ⟨dev, first, maxlen, 0, 0, 1⟩) (img : Image) :
    LiveLog ⟨dev, first, maxlen, 0, 0, 1⟩ (Function.update img jsuperBlockno
      (jsuperEncode ⟨dev, first, maxlen, 0, 0, 0⟩ journalEmpty 0)) 0 1 [] where
  placed := hj
  room := Nat.zero_le _
  bound := by decide
  holds := trivial
  starts := ⟨by simp [jsuperOf], by simp [jsuperOf], fun h => absurd rfl h⟩
  tail_eq := rfl
  head_eq := rfl
  next_eq := rfl

/-- The region holds zero blocks only. -/
def ZeroRegion (j : Journal) (img : Image) : Prop := ∀ b, InRegion j b → img b = zeroBlock

theorem CommitsBelow.of_zeroRegion (hj : j.Placed) (h : ZeroRegion j img) (n : ℕ) (buf : Block) :
    CommitsBelow j (Function.update img jsuperBlockno buf) n := by
  intro b hb hm
  rw [Function.update_of_ne (hb.ne_jsuper hj), h b hb, magicOf_zeroBlock] at hm
  exact absurd hm (by decide)

/-! ## Recovery of the live log -/

/-- The scan pass over readable transactions that end where an iteration breaks. -/
theorem scanPassAt_log {p : ℕ} {s : UInt64} {ts : List Transaction} {js : JournalSuper}
    (hstart : js.start = UInt64.ofNat p) (hseq : js.sequence = s)
    (hroom : logLen ts ≤ j.maxlen.toNat) (hfits : ∀ t ∈ ts, t.Fits)
    (hread : ∀ t ∈ ts, t.Readable) (h : LogHolds j img p s ts)
    (hend : scanAt (logView j img) (UInt64.ofNat (p + logLen ts))
      (s + UInt64.ofNat ts.length) = none) :
    scanPassAt j js img =
      ⟨recoveredLog p s ts, recoveredLogRevokes s ts, UInt64.ofNat (p + logLen ts),
        lastSeq s (if s = 0 then 0 else s - 1) ts⟩ := by
  have hlen := length_le_logLen ts
  rw [scanPassAt, hstart, hseq]
  exact scanAll_log _ (by omega) hfits hread h hend

/-- The blocks transactions write, in the order they were committed. -/
def writesOf (ts : List Transaction) : List (UInt64 × Block) :=
  ts.flatMap fun t => t.data.map fun d => (d.targetBlock, d.data)

@[simp] theorem writesOf_nil : writesOf [] = [] := rfl

@[simp] theorem writesOf_append (ts us : List Transaction) :
    writesOf (ts ++ us) = writesOf ts ++ writesOf us := by
  simp [writesOf]

/-- The logged copy of block `i` of a transaction's data. -/
theorem logView_data {p : ℕ} {s : UInt64} {t : Transaction} (hread : t.Readable)
    (h : HoldsAt j img p (t.record s)) {i : ℕ} {d : PendingBlock} (hd : t.data[i]? = some d) :
    logView j img (UInt64.ofNat (p + 1 + i)) = d.data := by
  have hi : i < t.data.length := (List.getElem?_eq_some_iff.mp hd).1
  have hrevoke : t.revoke = [] := hread.resolve_left fun he => by simp [he] at hi
  have hget : (t.record s)[1 + i]? = some d.data := by
    rw [Transaction.record, hrevoke, record, logBlocks, Nat.add_comm 1 i]
    simp [revokeBuf, List.getElem?_append_left, hi, (List.getElem?_eq_some_iff.mp hd).2]
  rw [Nat.add_assoc]
  exact h.logView hget

theorem map_recoveredTxn {p : ℕ} {s : UInt64} {t : Transaction} (hread : t.Readable)
    (h : HoldsAt j img p (t.record s)) :
    (recoveredTxn p s t.data).blocks.map (fun b => (b.1, logView j img b.2)) =
      t.data.map fun d => (d.targetBlock, d.data) := by
  apply List.ext_getElem?
  intro i
  simp only [recoveredTxn, List.getElem?_map, List.getElem?_mapIdx, Option.map_map]
  cases hd : t.data[i]? with
  | none => rfl
  | some d =>
      simp only [Option.map_some, Function.comp_apply]
      rw [logView_data hread h hd]

/-- With no revokes in the log, recovery installs what its transactions wrote. -/
theorem installs_recoveredLog {p : ℕ} {s : UInt64} {ts : List Transaction}
    (hread : ∀ t ∈ ts, t.Readable) (h : LogHolds j img p s ts) :
    installs (logView j img) [] (loggedCopies (recoveredLog p s ts)) = writesOf ts := by
  induction ts generalizing p s with
  | nil => rfl
  | cons t ts ih =>
      have htail := ih (fun u hu => hread u (List.mem_cons_of_mem t hu)) h.2
      have hhead := map_recoveredTxn (hread t List.mem_cons_self) h.1
      simp only [installs, loggedCopies, isRevoked, List.any_nil, Bool.not_false,
        List.filter_true, recoveredLog, List.flatMap_cons, List.map_append, List.map_map,
        Function.comp_def, writesOf] at htail hhead ⊢
      rw [htail, hhead]

theorem recoveredLogRevokes_of_none {s : UInt64} {ts : List Transaction}
    (h : ∀ t ∈ ts, t.revoke = []) : recoveredLogRevokes s ts = [] := by
  induction ts generalizing s with
  | nil => rfl
  | cons t ts ih =>
      rw [recoveredLogRevokes, h t List.mem_cons_self, ih fun u hu => h u (List.mem_cons_of_mem t hu)]
      rfl

namespace DiskLog
variable {p : ℕ} {s : UInt64} {ts : List Transaction}

theorem start_ne_empty (h : DiskLog j img p s ts) (hts : ts ≠ []) :
    (jsuperOf img).start ≠ journalEmpty := by
  have hbound := h.bound
  have hlen := length_le_logLen ts
  have hpos := List.length_pos_iff.mpr hts
  rw [h.starts.start, if_neg hts]
  exact ofNat_ne_empty (by omega)

theorem start_eq_empty (h : DiskLog j img p s []) : (jsuperOf img).start = journalEmpty := by
  rw [h.starts.start, if_pos rfl]

/-- No transaction follows the last one of the log. -/
def Ends (j : Journal) (img : Image) (p : ℕ) (s : UInt64) (ts : List Transaction) : Prop :=
  scanAt (logView j img) (UInt64.ofNat (p + logLen ts)) (s + UInt64.ofNat ts.length) = none

theorem found (h : DiskLog j img p s ts) (hts : ts ≠ []) (hfits : ∀ t ∈ ts, t.Fits)
    (hread : ∀ t ∈ ts, t.Readable) (hend : Ends j img p s ts) :
    foundByRecover j img =
      ⟨recoveredLog p s ts, recoveredLogRevokes s ts, UInt64.ofNat (p + logLen ts),
        lastSeq s (if s = 0 then 0 else s - 1) ts⟩ := by
  rw [foundByRecover, if_neg (h.start_ne_empty hts)]
  exact scanPassAt_log (by rw [h.starts.start, if_neg hts]) (h.starts.sequence hts) h.room hfits
    hread h.holds hend

/-- Recovery takes up the log where it ends. -/
theorem recovered (h : DiskLog j img p s ts) (hts : ts ≠ []) (hfits : ∀ t ∈ ts, t.Fits)
    (hread : ∀ t ∈ ts, t.Readable) (hend : Ends j img p s ts) :
    recoveredJournal j img =
      { j with head := UInt64.ofNat (p + logLen ts), tail := UInt64.ofNat (p + logLen ts),
               nextSequence := s + UInt64.ofNat ts.length } := by
  rw [recoveredJournal, if_neg (h.start_ne_empty hts), h.found hts hfits hread hend]
  simp only [lastSeq_succ (.inl hts)]

theorem installs (h : DiskLog j img p s ts) (hfits : ∀ t ∈ ts, t.Fits)
    (hrevoke : ∀ t ∈ ts, t.revoke = []) (hend : ts ≠ [] → Ends j img p s ts) :
    installsOf j img = writesOf ts := by
  by_cases hts : ts = []
  · subst hts
    rw [installsOf, foundByRecover, if_pos h.start_eq_empty]
    rfl
  · have hread : ∀ t ∈ ts, t.Readable := fun t ht => .inr (hrevoke t ht)
    rw [installsOf, h.found hts hfits hread (hend hts)]
    simp only [recoveredLogRevokes_of_none hrevoke]
    exact installs_recoveredLog hread h.holds

end DiskLog
end Logfs
