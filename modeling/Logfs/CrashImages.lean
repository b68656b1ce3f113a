import Logfs.CommitSteps
import Logfs.LiveLog

/-!
# What a crash can leave of a commit or a tail advance

Cut during a commit, the log is left without the transaction or with it. Cut during a
tail advance, it is left with the dropped transactions or without them.
-/
namespace Logfs
open Interaction WriteCache

variable {j : Journal} {img : Image} {p : ℕ} {s : UInt64} {ts : List Transaction}

/-! ## Commit -/

/-- The images a crash during the commit of `t` leaves of the flushed image `img`. -/
inductive CommitCrash (j : Journal) (t : Transaction) (img : Image) : Image → Prop
  | logged {ws : List (UInt64 × Block)}
      (sub : ws.Sublist (logWrites j j.head (logBlocks j.nextSequence t.data t.revoke))) :
      CommitCrash j t img (applyWrites img ws)
  | recorded : CommitCrash j t img (recordedImage j t img)
  | started : CommitCrash j t img (commitImage j t img)

theorem survives_settled_writes {img i : Image} {us : List (UInt64 × Block)}
    (h : Survives ((settled img).writes us) i) : ∃ ws, ws.Sublist us ∧ i = applyWrites img ws := by
  obtain ⟨ws, hsub, rfl⟩ := h
  exact ⟨ws, by simpa using hsub, rfl⟩

/-- With one write on the way, it survives or it does not. -/
theorem applyWrites_sublist_of_le_one {us ws : List (UInt64 × Block)} (hlen : us.length ≤ 1)
    (hsub : ws.Sublist us) (img : Image) :
    applyWrites img ws = img ∨ applyWrites img ws = applyWrites img us := by
  rcases us with _ | ⟨u, us⟩
  · rw [List.sublist_nil.mp hsub]
    exact .inl rfl
  · obtain rfl : us = [] := List.length_eq_zero_iff.mp (by simpa using hlen)
    rcases List.sublist_singleton.mp hsub with rfl | rfl
    · exact .inl rfl
    · exact .inr rfl

theorem length_startWrite_le (j : Journal) : (startWrite j).length ≤ 1 := by
  unfold startWrite
  split <;> simp

theorem commitStates_crash (j : Journal) (t : Transaction) (img : Image) :
    CommitStates j t (settled img) (fun d => ∀ i, Survives d i → CommitCrash j t img i) where
  logged us hus i hi := by
    obtain ⟨ws, hsub, rfl⟩ := survives_settled_writes hi
    exact .logged (hsub.trans hus.sublist)
  recorded us hus i hi := by
    obtain ⟨ws, hsub, rfl⟩ := survives_settled_writes hi
    rcases applyWrites_sublist_of_le_one le_rfl (hsub.trans hus.sublist)
      (loggedImage j t img) with he | he
    · rw [view_settled, he]
      exact .logged (List.Sublist.refl _)
    · rw [view_settled, he]
      exact .recorded
  started us hus i hi := by
    obtain ⟨ws, hsub, rfl⟩ := survives_settled_writes hi
    rcases applyWrites_sublist_of_le_one (length_startWrite_le j) (hsub.trans hus.sublist)
      (recordedImage j t img) with he | he
    · rw [view_settled, he]
      exact .recorded
    · rw [view_settled, he, ← commitImage_eq]
      exact .started
  ended i hi := by
    rw [survives_settled.mp hi]
    exact .started

namespace CommitCrash
variable {t : Transaction} {i : Image}

theorem home (hj : j.Placed) (h : CommitCrash j t img i) {b : UInt64} (hb : Home j b) :
    i b = img b := by
  cases h with
  | logged hsub =>
      apply applyWrites_of_untouched
      intro w hw he
      exact hb.2 (he ▸ mem_logWrites_inRegion hj (hsub.subset hw))
  | recorded =>
      rw [recordedImage_eq]
      exact home_of_log hj (List.prefix_refl _) img hb
  | started => exact commitImage_home hj hb

end CommitCrash

/-- Writes of the region that leave the log's own blocks alone leave the log. -/
theorem LiveLog.diskLog_of_writes (h : LiveLog j img p s ts) {bs : List Block}
    {ws : List (UInt64 × Block)} (hsub : ws.Sublist (logWrites j j.head bs))
    (hroom : logLen ts + bs.length ≤ j.maxlen.toNat) (hbound : p + logLen ts + bs.length < 2 ^ 64) :
    DiskLog j (applyWrites img ws) p s ts := by
  have hhead := h.head_eq
  have hslot : ∀ w ∈ ws, ∃ k, k < bs.length ∧ w.1 = slot j (p + logLen ts + k) := by
    intro w hw
    have hmem := hsub.subset hw
    rw [hhead] at hmem
    obtain ⟨k, hk, he, -⟩ := mem_logWrites hmem
    exact ⟨k, hk, he⟩
  have hsuper : jsuperOf (applyWrites img ws) = jsuperOf img := by
    unfold jsuperOf
    rw [applyWrites_of_untouched]
    intro w hw
    exact (mem_logWrites_inRegion h.placed (hsub.subset hw)).ne_jsuper h.placed
  refine ⟨h.placed, h.room, h.bound, ?_, ?_⟩
  · refine h.holds.congr fun i hi => applyWrites_of_untouched (fun w hw he => ?_) img
    obtain ⟨k, hk, hw⟩ := hslot w hw
    rw [hw] at he
    exact slot_ne h.placed (m := p + i) (n := p + logLen ts + k) (by omega) (by omega) (by omega)
      he.symm
  · exact ⟨hsuper ▸ h.starts.magic, hsuper ▸ h.starts.start, hsuper ▸ h.starts.sequence⟩

/-- A crash during a commit leaves the log with the new transaction or without it; without it,
every commit block of the image was there before. -/
theorem LiveLog.commitCrash (h : LiveLog j img p s ts) {t : Transaction} (hroom : j.HasRoom t)
    (hbound : p + logLen ts + t.len < 2 ^ 64) {i : Image} (hi : CommitCrash j t img i) :
    (DiskLog j i p s ts ∧
        (ts ≠ [] → t.Plain → ∀ n, CommitsBelow j img n → CommitsBelow j i n)) ∨
      (DiskLog j i p s (ts ++ [t]) ∧
        (t.Plain → CommitsBelow j img j.nextSequence.toNat →
          CommitsBelow j i (j.nextSequence.toNat + 1))) := by
  have hfree := h.hasRoom.mp hroom
  have hlen := length_logBlocks j.nextSequence t.data t.revoke
  have hcommitted := h.commit hroom hbound
  have hdisk : DiskLog j (commitImage j t img) p s (ts ++ [t]) :=
    ⟨h.placed, hcommitted.room, hcommitted.bound, (LogHolds.of_region j (committed j t) rfl rfl).mp hcommitted.holds,
      hcommitted.starts⟩
  cases hi with
  | logged hsub =>
      left
      refine ⟨h.diskLog_of_writes hsub ?_ ?_, fun _ hplain n hbelow => ?_⟩
      · simp only [Transaction.len] at hfree
        omega
      · simp only [Transaction.len] at hbound
        omega
      · refine hbelow.applyWrites fun w hw hm => ?_
        exact absurd hm (magic_logBlocks hplain (snd_mem_logWrites (hsub.subset hw)))
  | recorded =>
      by_cases hts : ts = []
      · left
        rw [recordedImage_eq]
        refine ⟨h.diskLog_of_writes (List.Sublist.refl _) ?_ ?_, fun hne => absurd hts hne⟩
        · rw [Transaction.length_record]
          exact hfree
        · rw [Transaction.length_record]
          exact hbound
      · right
        have hstart : startWrite j = [] := if_neg fun he => hts (h.tail_eq_head.mp he)
        have hsame : commitImage j t img = recordedImage j t img := by
          rw [commitImage_eq, hstart, applyWrites_nil]
        rw [← hsame]
        exact ⟨hdisk, fun hplain hbelow => hbelow.commitImage hplain⟩
  | started =>
      right
      exact ⟨hdisk, fun hplain hbelow => hbelow.commitImage hplain⟩

/-! ## Tail advance -/

/-- The journal superblock of a tail advance. -/
def advanceImage (j : Journal) (off seq : UInt64) (img : Image) : Image :=
  Function.update img jsuperBlockno
    (jsuperEncode j (if off = j.head then journalEmpty else off) seq)

/-- A crash during a tail advance leaves its superblock write done or not done. -/
theorem survives_advance {off seq : UInt64} {i : Image}
    (hi : Survives ((settled img).write jsuperBlockno
      (jsuperEncode j (if off = j.head then journalEmpty else off) seq)) i) :
    i = img ∨ i = advanceImage j off seq img := by
  rcases survives_write hi with hold | ⟨i₀, hold, rfl⟩
  · exact .inl (survives_settled.mp hold)
  · rw [survives_settled.mp hold]
    exact .inr rfl

theorem meets_advance_crash (hj : j.Placed) (off seq : UInt64) (img : Image) :
    Meets faultless (fun d => ∀ i, Survives d i → i = img ∨ i = advanceImage j off seq img)
      (fun r d => r = (.ok (), { j with tail := off }) ∧ d = settled (advanceImage j off seq img))
      (journalAdvanceTail j off seq) (settled img) := by
  refine meets_journalAdvanceTail hj ?_ ?_ ?_ ?_
  · intro i hi
    exact .inl (survives_settled.mp hi)
  · intro i hi
    exact survives_advance hi
  · intro i hi
    rw [Cache.flush, survives_settled] at hi
    rw [hi, view_write]
    exact .inr rfl
  · refine ⟨rfl, ?_⟩
    rw [Cache.flush, view_write]
    rfl

theorem advanceImage_home {off seq : UInt64} {b : UInt64} (hb : Home j b) :
    advanceImage j off seq img b = img b := Function.update_of_ne hb.1 _ _

theorem CommitsBelow.advanceImage {n : ℕ} (h : CommitsBelow j img n) (off seq : UInt64) :
    CommitsBelow j (advanceImage j off seq img) n := by
  refine h.write (w := (jsuperBlockno,
    jsuperEncode j (if off = j.head then journalEmpty else off) seq)) fun hm => ?_
  have hmagic := hm.symm.trans (magicOf_jsuperEncode j _ seq)
  exact absurd hmagic (by decide)

/-- The tail moves past the oldest transactions `us`. -/
theorem LiveLog.advance (us : List Transaction) {vs : List Transaction} (h : LiveLog j img p s (us ++ vs)) {off seq : UInt64}
    (hoff : off = UInt64.ofNat (p + logLen us)) (hseq : seq = s + UInt64.ofNat us.length) :
    LiveLog { j with tail := off } (advanceImage j off seq img) (p + logLen us) seq vs := by
  have hroom := h.room
  have hbound := h.bound
  rw [logLen_append] at hroom hbound
  have hheld := (LogHolds.append.mp h.holds).2
  have hempty : off = j.head ↔ vs = [] := by
    rw [h.head_eq, hoff, ofNat_inj (by omega) (by rw [logLen_append]; omega), logLen_append,
      ← logLen_eq_zero]
    omega
  have hsuper : jsuperOf (advanceImage j off seq img) =
      { magic := journalMagic, blockSize := 4096, maxlen := j.maxlen, first := j.first,
        sequence := seq, start := if off = j.head then journalEmpty else off } := by
    unfold jsuperOf advanceImage
    rw [Function.update_self, decode_jsuperEncode]
  subst hoff hseq
  constructor
  · refine ⟨⟨h.placed.maxlen_pos, h.placed.fits, h.placed.after_jsuper⟩, ?_, ?_, ?_, ?_⟩
    · exact show logLen vs ≤ j.maxlen.toNat by omega
    · omega
    · refine (LogHolds.of_region j { j with tail := UInt64.ofNat (p + logLen us) } rfl rfl).mpr (hheld.congr fun i _ => ?_)
      exact Function.update_of_ne ((inRegion_slot h.placed _).ne_jsuper h.placed) _ _
    · refine ⟨by rw [hsuper], ?_, fun _ => by rw [hsuper]⟩
      rw [hsuper]
      simp only [hempty]
  · rfl
  · simp only [h.head_eq, logLen_append, Nat.add_assoc]
  · simp only [h.next_eq, List.length_append, UInt64.ofNat_add, UInt64.add_assoc]

end Logfs
