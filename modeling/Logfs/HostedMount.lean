import Logfs.BackingFile
import Logfs.RecoveryCrash
import Logfs.MountedFs

/-!
# Format and mount over a backing file

All of `journal.c` and `fs.c` goes through `logfs_bdev_read`, `logfs_bdev_write` and
`logfs_bdev_flush`, which check the block's number. So over a host without faults a format and a mount of a file do
what they do over the device of whole blocks.
-/
namespace Logfs
open Interaction WriteCache ByteBuffer

/-! ## Programs that stay on the device -/

/-- The program asks for blocks of the device only. -/
abbrev StaysOn (dev : BlockDev) {α : Type} (p : DevM α) : Prop := Confined (InDevice dev) (fun _ => True) p

section Stays
variable {dev : BlockDev} {j : Journal} {α : Type}

theorem staysOn_bdevRead (dev : BlockDev) (b : UInt64) : StaysOn dev (bdevRead dev b).run := by
  unfold bdevRead
  split
  · exact trivial
  · next hlt => exact ⟨UInt64.not_le.mp hlt, fun _ => trivial⟩

theorem staysOn_bdevWrite (dev : BlockDev) (b : UInt64) (buf : Block) : StaysOn dev (bdevWrite dev b buf).run := by
  unfold bdevWrite
  split
  · exact trivial
  · next hlt => exact ⟨UInt64.not_le.mp hlt, fun _ => trivial⟩

theorem staysOn_bdevFlush (dev : BlockDev) : StaysOn dev (bdevFlush dev).run := ⟨trivial, fun _ => trivial⟩

theorem staysOn_bdevWriteFua (dev : BlockDev) (b : UInt64) (buf : Block) : StaysOn dev (bdevWriteFua dev b buf).run :=
  (staysOn_bdevWrite dev b buf).exceptT_bind fun _ => staysOn_bdevFlush dev

theorem staysOn_throw (e : Errno) : StaysOn dev (throw e : DevEM α).run := trivial

theorem staysOn_ite {P : Prop} [Decidable P] {p q : DevM α} (hp : StaysOn dev p) (hq : StaysOn dev q) :
    StaysOn dev (if P then p else q) := by
  split
  · exact hp
  · exact hq

theorem staysOn_readBlocks (cursor : UInt64) (n : ℕ) : StaysOn j.dev (readBlocks j cursor n).run := by
  induction n generalizing cursor with
  | zero => exact trivial
  | succ n ih =>
      apply (staysOn_bdevRead j.dev _).exceptT_bind
      intro b
      exact (ih _).exceptT_bind fun _ => trivial

theorem staysOn_scanTxn (scan expectSeq : UInt64) : StaysOn j.dev (scanTxn j scan expectSeq) := by
  refine (staysOn_bdevRead j.dev _).seq fun r _ => ?_
  cases r with
  | error e => exact trivial
  | ok descBlock =>
      refine staysOn_ite trivial ((staysOn_bdevRead j.dev _).seq fun peek _ => ?_)
      refine (staysOn_bdevRead j.dev _).seq fun r _ => ?_
      cases r with
      | error e => exact trivial
      | ok commitBlock =>
          refine staysOn_ite trivial ((staysOn_readBlocks _ _).seq fun r _ => ?_)
          cases r with
          | error e => exact trivial
          | ok data => exact staysOn_ite trivial trivial

theorem staysOn_scanLoop (fuel : ℕ) (scan expectSeq last : UInt64) :
    StaysOn j.dev (scanLoop j fuel scan expectSeq last) := by
  induction fuel generalizing scan expectSeq last with
  | zero => exact trivial
  | succ fuel ih =>
      refine (staysOn_scanTxn _ _).seq fun r _ => ?_
      cases r with
      | none => exact trivial
      | some s => exact (ih _ _ _).seq fun _ _ => trivial

theorem staysOn_replay (revokes : List RevokeEntry) (copies : List LoggedCopy) :
    StaysOn j.dev ((replay j revokes copies).answer (recoverInstall j.dev)) := by
  induction copies with
  | nil => exact trivial
  | cons t ts ih =>
      rw [answer_replay_cons]
      refine staysOn_ite ih ((staysOn_bdevRead j.dev _).seq fun r _ => ?_)
      cases r with
      | error e => exact trivial
      | ok data =>
          refine (staysOn_bdevWrite j.dev _ _).seq fun r _ => ?_
          cases r with
          | error e => exact trivial
          | ok _ => exact ih

theorem staysOn_mountRecover (j : Journal) : StaysOn j.dev (mountRecover j) := by
  have hkeeps : Confined (InDevice j.dev) (fun r => r.2.dev = j.dev)
      ((journalRecover j).answer (recoverInstall j.dev)) := by
    rw [answer_recover]
    refine (staysOn_bdevRead j.dev _).seq fun r _ => ?_
    cases r with
    | error e => exact rfl
    | ok block =>
        dsimp only
        split
        · exact rfl
        · split
          · exact rfl
          · refine (staysOn_scanLoop _ _ _ _).seq fun r _ => (staysOn_replay _ _).seq fun rc _ => ?_
            cases rc with
            | error e => exact rfl
            | ok _ =>
                refine (staysOn_bdevWriteFua j.dev _ _).seq fun rc _ => ?_
                cases rc <;> exact rfl
  unfold mountRecover
  refine hkeeps.seq fun r hdev => ?_
  obtain ⟨rc, j'⟩ := r
  cases rc with
  | error e => exact trivial
  | ok _ =>
      refine ((staysOn_bdevFlush j.dev).seq fun rc _ => ?_ : StaysOn j.dev ((bdevFlush j'.dev).run >>= _))
      cases rc <;> exact trivial

theorem staysOn_journalOpen (dev : BlockDev) (first maxlen : UInt64) :
    Confined (InDevice dev) (fun r => ∀ j, r = .ok j → j.dev = dev) (journalOpen dev first maxlen).run := by
  refine (staysOn_bdevRead dev _).seq fun r _ => ?_
  cases r with
  | error e => exact fun j hj => by cases hj
  | ok block =>
      change Confined _ _ (ExceptT.run (if _ then _ else _))
      split
      · exact fun j hj => by cases hj
      · change Confined _ _ (ExceptT.run (if _ then _ else _))
        split <;> exact fun j hj => by cases hj; rfl

theorem staysOn_fsMount (dev : BlockDev) : StaysOn dev (fsMount dev).run := by
  apply (staysOn_bdevRead dev _).exceptT_bind
  intro block
  apply staysOn_ite (staysOn_throw _)
  apply staysOn_ite (staysOn_throw _)
  apply staysOn_ite (staysOn_throw _)
  refine (staysOn_journalOpen dev _ _).seq fun r hr => ?_
  cases r with
  | error e => exact trivial
  | ok j =>
      obtain rfl := hr j rfl
      have hrecover : StaysOn j.dev (liftM (mountRecover j) : DevEM (Except Errno Unit × Journal)).run :=
        (staysOn_mountRecover j).seq fun _ _ => trivial
      apply hrecover.exceptT_bind
      rintro ⟨rc, j'⟩
      cases rc <;> exact trivial

theorem staysOn_writeZeros (start : UInt64) (n : ℕ) : StaysOn dev (writeZeros dev start n).run := by
  induction n generalizing start with
  | zero => exact trivial
  | succ n ih => exact (staysOn_bdevWrite dev _ _).exceptT_bind fun _ => ih _

theorem staysOn_writeImage (sb : Super) (now : UInt64) : StaysOn dev (writeImage dev sb now).run := by
  apply (staysOn_bdevWriteFua dev _ _).exceptT_bind
  intro _
  apply (staysOn_bdevWrite dev _ _).exceptT_bind
  intro _
  apply (staysOn_bdevWrite dev _ _).exceptT_bind
  intro _
  apply (staysOn_writeZeros _ _).exceptT_bind
  intro _
  apply (staysOn_bdevWrite dev _ _).exceptT_bind
  intro _
  apply (staysOn_bdevWrite dev _ _).exceptT_bind
  intro _
  exact staysOn_bdevWriteFua dev _ _

theorem staysOn_fsFormat (host : Except Errno Unit) (totalBlocks journalLen : UInt64) (mode : DataMode) (now : UInt64) :
    StaysOn ⟨totalBlocks⟩ (fsFormat host totalBlocks journalLen mode now).run := by
  have hcreate : Confined (InDevice ⟨totalBlocks⟩) (fun r => ∀ dev, r = .ok dev → dev = ⟨totalBlocks⟩)
      (liftM (n := DevEM) (bdevCreate host totalBlocks)).run := by
    intro dev hdev
    cases host with
    | error e => cases hdev
    | ok _ =>
        unfold bdevCreate at hdev
        by_cases hzero : totalBlocks = 0
        · rw [if_pos hzero] at hdev
          cases hdev
        · rw [if_neg hzero] at hdev
          cases hdev
          rfl
  unfold fsFormat
  split
  · exact staysOn_throw _
  rw [ExceptT.run_bind]
  refine hcreate.seq fun r hr => ?_
  cases r with
  | error e => exact trivial
  | ok dev =>
      obtain rfl := hr dev rfl
      apply staysOn_ite (staysOn_throw _)
      apply staysOn_ite (staysOn_throw _)
      exact staysOn_writeImage _ _

end Stays

/-! ## The file after a format and a mount -/

/-- The file a format goes to: it leaves it alone if it is refused before the file is given its size. -/
def formatFile (f : HostFile) (totalBlocks journalLen : UInt64) : HostFile :=
  if totalBlocks < journalRegionStart + journalLen + 4 ∨ totalBlocks = 0 then f else createdFile f totalBlocks

theorem image_of_empty {f : HostFile} (hempty : f.size = 0) (totalBlocks journalLen : UInt64) :
    (formatFile f totalBlocks journalLen).image = fun _ => zeroBlock := by
  funext b i
  unfold formatFile
  split <;> simp [HostFile.image, HostFile.byte, createdFile, HostFile.truncate, hempty, zeros]

theorem run_fsFormat_refused {totalBlocks journalLen : UInt64}
    (h : totalBlocks < journalRegionStart + journalLen + 4 ∨ totalBlocks = 0) (mode : DataMode) (now : UInt64) :
    (fsFormat (.ok ()) totalBlocks journalLen mode now).run = .ret (.error .einval) := by
  unfold fsFormat
  by_cases hshort : totalBlocks < journalRegionStart + journalLen + 4
  · rw [if_pos hshort]
    rfl
  · obtain rfl := h.resolve_left hshort
    rw [if_neg hshort]
    rfl

/-- What a format and a mount of a file answer over a host without faults, they answer over some device of
whole blocks, one of zeros if the file was empty; the file has the blocks of that device after each of them,
and the mount finds the size the format was given. -/
theorem mounted_on_host {f f₁ f₂ : HostFile} {totalBlocks journalLen now : UInt64} {mode : DataMode}
    {r : Except Errno Unit} {r₂ : Except Errno (Super × Journal)} (hold : f.size < 2 ^ 63)
    (hsize : totalBlocks.toNat * blockSize < 2 ^ 63)
    (hformat : Interaction.Outcome (hostDevice False) (fsFormat (.ok ()) totalBlocks journalLen mode now).run
      (formatFile f totalBlocks journalLen) r f₁)
    (hmount : Interaction.Outcome (hostDevice False) (fsMount (bdevOpen f₁)).run f₁ r₂ f₂) :
    ∃ d d₁ d₂ : Disk, (f.size = 0 → d.view = fun _ => zeroBlock) ∧
      run faultless (fsFormat (.ok ()) totalBlocks journalLen mode now).run d = (r, d₁) ∧
      OnHost (bdevOpen f₁) f₁ d₁.view ∧ (r = .ok () → bdevOpen f₁ = ⟨totalBlocks⟩) ∧
      run faultless (fsMount (bdevOpen f₁)).run d₁ = (r₂, d₂) ∧ OnHost (bdevOpen f₁) f₂ d₂.view := by
  have hstart : ∃ dev, OnHost dev (formatFile f totalBlocks journalLen)
      (settled (formatFile f totalBlocks journalLen).image).view ∧
      StaysOn dev (fsFormat (.ok ()) totalBlocks journalLen mode now).run ∧
      ((run faultless (fsFormat (.ok ()) totalBlocks journalLen mode now).run
        (settled (formatFile f totalBlocks journalLen).image)).1 = .ok () → dev = ⟨totalBlocks⟩) := by
    unfold formatFile
    split
    · next hrefused =>
        rw [run_fsFormat_refused hrefused]
        exact ⟨bdevOpen f, onHost_bdevOpen hold, trivial, fun hok => by cases hok⟩
    · exact ⟨_, onHost_createdFile hsize, staysOn_fsFormat _ _ _ _ _, fun _ => rfl⟩
  obtain ⟨dev, hfile, hstays, hdev⟩ := hstart
  obtain ⟨hr, hfile₁⟩ := run_of_host hstays hfile hformat
  obtain rfl := hfile₁.bdevOpen_eq
  obtain ⟨hr₂, hfile₂⟩ := run_of_host (staysOn_fsMount _) hfile₁ hmount
  exact ⟨settled (formatFile f totalBlocks journalLen).image, _, _,
    fun hempty => image_of_empty hempty totalBlocks journalLen, Prod.ext hr.symm rfl, hfile₁,
    fun hok => hdev (hr.symm.trans hok), Prod.ext hr₂.symm rfl, hfile₂⟩

/-- A file of 128 blocks is created, formatted and mounted. -/
theorem mounted_on_host_small : ∃ f₁ f₂ : HostFile, ∃ d d₁ d₂ : Disk,
    ((⟨0, fun _ => 0⟩ : HostFile).size = 0 → d.view = fun _ => zeroBlock) ∧
      run faultless (fsFormat (.ok ()) 128 64 .ordered 0).run d = (.ok (), d₁) ∧
      OnHost (bdevOpen f₁) f₁ d₁.view ∧ ((.ok () : Except Errno Unit) = .ok () → bdevOpen f₁ = ⟨128⟩) ∧
      run faultless (fsMount (bdevOpen f₁)).run d₁ = (.ok (formatSuper 128 64 .ordered, ⟨⟨128⟩, 3, 64, 0, 0, 1⟩), d₂) ∧
      OnHost (bdevOpen f₁) f₂ d₂.view := by
  have hcreated : OnHost ⟨128⟩ (formatFile ⟨0, fun _ => 0⟩ 128 64) (settled fun _ => zeroBlock : Disk).view := by
    have hfile := onHost_createdFile (f := ⟨0, fun _ => 0⟩) (show (128 : UInt64).toNat * blockSize < 2 ^ 63 by decide)
    have himage : (createdFile ⟨0, fun _ => 0⟩ 128).image = _ := image_of_empty rfl 128 64
    rwa [himage] at hfile
  obtain ⟨f₁, hformat, hfile₁⟩ := exists_outcome (staysOn_fsFormat (.ok ()) 128 64 .ordered 0) hcreated
  rw [run_format_small] at hformat hfile₁
  obtain ⟨f₂, hmount, hfile₂⟩ := exists_outcome (staysOn_fsMount ⟨128⟩) hfile₁
  rw [run_fsMount_small] at hmount
  refine ⟨f₁, f₂, mounted_on_host (by decide) (by decide) hformat ?_⟩
  rw [hfile₁.bdevOpen_eq]
  exact hmount

end Logfs
