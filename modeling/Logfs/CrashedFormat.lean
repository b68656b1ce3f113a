import Logfs.FormattedVolume

/-!
# A crash during mkfs

`logfs_fs_format` writes the superblock last, but the flush that follows is the only one
after the journal superblock's. Until it completes the superblock may be durable when
blocks written before it are not.
-/
namespace Logfs
open Interaction WriteCache ByteBuffer

/-- A sequence passes through the state its first part ends in. -/
theorem reaches_except_bind {α β : Type} {p : DevEM α} (f : α → DevEM β) {c d : Disk} {a : α}
    (h : run faultless p.run c = (.ok a, d)) :
    Reaches faultless ((p >>= f).run, c) ((f a).run, d) := by
  rw [ExceptT.run_bind]
  refine (reaches_bind faultless p.run _ c).trans ?_
  rw [h]

/-! ## The format up to its last flush -/

/-- The writes between the two flushes of `logfs_fs_format`. -/
def writeBody (dev : BlockDev) (sb : Super) (now : UInt64) : DevEM Unit := do
  bdevWrite dev sb.inodeBitmapStart (setBit (setBit zeroBlock 0) rootIno.toNat)
  bdevWrite dev sb.blockBitmapStart (setBit zeroBlock 0)
  writeZeros dev sb.inodeTableStart sb.inodeTableLen.toNat
  bdevWrite dev sb.inodeTableStart ((formatRoot sb now).encodeAt zeroBlock 0)
  bdevWrite dev sb.dataStart (initialDirBlock rootIno rootIno)
  bdevWrite dev superBlockno sb.encode

theorem writeImage_eq (dev : BlockDev) (sb : Super) (now : UInt64) :
    writeImage dev sb now = (do
      journalFormat dev sb.journalStart sb.journalLen
      writeBody dev sb now
      bdevFlush dev) := by
  simp only [writeImage, writeBody, writeSuper, bdevWriteFua, bind_assoc]

/-- The writes before the root inode's, and those after it. -/
def beforeRoot (sb : Super) : List (UInt64 × Block) :=
  (sb.inodeBitmapStart, setBit (setBit zeroBlock 0) rootIno.toNat) ::
    (sb.blockBitmapStart, setBit zeroBlock 0) ::
      zeroWrites sb.inodeTableStart sb.inodeTableLen.toNat

def afterRoot (sb : Super) : List (UInt64 × Block) :=
  [(sb.dataStart, initialDirBlock rootIno rootIno), (superBlockno, sb.encode)]

def rootWrite (sb : Super) (now : UInt64) : UInt64 × Block :=
  (sb.inodeTableStart, (formatRoot sb now).encodeAt zeroBlock 0)

theorem issues_writeBody (dev : BlockDev) (sb : Super) (now : UInt64) :
    Issues (writeBody dev sb now) (beforeRoot sb ++ rootWrite sb now :: afterRoot sb) := by
  have h : Issues (writeBody dev sb now) _ :=
    Issues.bdevWrite.bind fun _ => Issues.bdevWrite.bind fun _ =>
      (issues_writeZeros dev _ _).bind fun _ => Issues.bdevWrite.bind fun _ =>
        Issues.bdevWrite.bind fun _ => Issues.bdevWrite
  simpa [beforeRoot, rootWrite, afterRoot] using h

section Format
variable {host : Except Errno Unit} {totalBlocks journalLen now : UInt64} {mode : DataMode}
  {c d : Disk}

/-- A format that returned 0 passed its checks, and then only wrote the image. -/
theorem fsFormat_eq
    (hok : run faultless (fsFormat host totalBlocks journalLen mode now).run c = (.ok (), d)) :
    fsFormat host totalBlocks journalLen mode now =
      writeImage ⟨totalBlocks⟩ (formatSuper totalBlocks journalLen mode) now := by
  unfold fsFormat at hok ⊢
  obtain ⟨hroom, hok⟩ := run_guard_ok hok
  rw [if_neg hroom]
  have hdev : ∀ dev, bdevCreate host totalBlocks = .ok dev → dev = ⟨totalBlocks⟩ := by
    intro dev hcreate
    unfold bdevCreate at hcreate
    cases host with
    | error e => cases hcreate
    | ok u =>
        by_cases hz : totalBlocks = 0
        · rw [if_pos hz] at hcreate; cases hcreate
        · rw [if_neg hz] at hcreate; cases hcreate; rfl
  cases hcreate : bdevCreate host totalBlocks with
  | error e => rw [hcreate] at hok; cases hok
  | ok dev =>
      obtain rfl := hdev dev hcreate
      rw [hcreate] at hok
      obtain ⟨hdata, hok⟩ := run_guard_ok hok
      obtain ⟨hbitmap, -⟩ := run_guard_ok hok
      change (if _ then _ else _) = _
      rw [if_neg hdata, if_neg hbitmap]

/-- Just before the last flush, everything but the journal superblock is still pending. -/
theorem reaches_lastFlush {img : Image}
    (hok : run faultless (fsFormat host totalBlocks journalLen mode now).run (settled img) =
      (.ok (), d)) :
    ∃ rest cut, Reaches faultless ((fsFormat host totalBlocks journalLen mode now).run, settled img)
        (rest, cut) ∧
      cut.pending = beforeRoot (formatSuper totalBlocks journalLen mode) ++
        rootWrite (formatSuper totalBlocks journalLen mode) now ::
          afterRoot (formatSuper totalBlocks journalLen mode) := by
  have heq := fsFormat_eq hok
  rw [heq, writeImage_eq] at hok
  rw [heq, writeImage_eq]
  obtain ⟨_, c₁, hformat, hok⟩ := run_bind_ok hok
  obtain ⟨_, c₂, hbody, -⟩ := run_bind_ok hok
  have hflushed : c₁.pending = [] := by
    unfold journalFormat jsuperWrite bdevWriteFua at hformat
    obtain ⟨_, e, -, hflush⟩ := run_bind_ok hformat
    cases hflush
    rfl
  have hwrites := issues_writeBody _ _ now c₁ _ c₂ hbody
  refine ⟨(bdevFlush ⟨totalBlocks⟩).run, c₂, ?_,
    by rw [hwrites, pending_writes, hflushed, List.nil_append]⟩
  exact (reaches_except_bind _ hformat).trans (reaches_except_bind _ hbody)

/-! ## What a crash there can leave -/

/-- A superblock of this format, which the mount accepts, stands for everything format wrote. -/
structure FormatIntact (sb : Super) (now : UInt64) (img : Image) : Prop where
  jsuper : img jsuperBlockno =
    jsuperEncode ⟨⟨sb.totalBlocks⟩, sb.journalStart, sb.journalLen, 0, 0, 0⟩ journalEmpty 0
  inodeBitmap : img sb.inodeBitmapStart = setBit (setBit zeroBlock 0) rootIno.toNat
  blockBitmap : img sb.blockBitmapStart = setBit zeroBlock 0
  table : ∀ i < sb.inodeTableLen.toNat, img (sb.inodeTableStart + UInt64.ofNat i) =
    if i = 0 then (formatRoot sb now).encodeAt zeroBlock 0 else zeroBlock
  root : img sb.dataStart = initialDirBlock rootIno rootIno

/-- Wherever the format of a device that held `img₀` is cut: if the superblock made it, so did
the rest. -/
def CrashSafeFormat (host : Except Errno Unit) (totalBlocks journalLen : UInt64) (mode : DataMode)
    (now : UInt64) (img₀ : Image) : Prop :=
  ∀ img, CrashesInto (fsFormat host totalBlocks journalLen mode now).run (settled img₀) img →
    Super.decode (img superBlockno) = formatSuper totalBlocks journalLen mode →
      FormatIntact (formatSuper totalBlocks journalLen mode) now img

theorem formatRoot_ne_zero (sb : Super) (now : UInt64) :
    (formatRoot sb now).encodeAt zeroBlock 0 ≠ zeroBlock := by
  intro h
  have hmode := congrArg Inode.mode (Inode.decodeAt_encodeAt zeroBlock
    (show 0 + inodeSize ≤ 4096 by decide) (formatRoot sb now))
  rw [h] at hmode
  exact absurd hmode (show Inode.mode (Inode.decodeAt zeroBlock 0) ≠ modeDir ||| 0x1ED by decide +kernel)

theorem snd_mem_zeroWrites {start : UInt64} {n : ℕ} {w : UInt64 × Block}
    (hw : w ∈ zeroWrites start n) : w.2 = zeroBlock := by
  induction n generalizing start with
  | zero => cases hw
  | succ n ih =>
      rcases List.mem_cons.mp hw with rfl | hw
      · rfl
      · exact ih hw

/-- The first block of a table that is not empty has been zeroed. -/
theorem zeroWrites_first {start : UInt64} {n : ℕ} (hn : 0 < n) (v : Image) :
    applyWrites v (zeroWrites start n) start = zeroBlock := by
  obtain ⟨n, rfl⟩ : ∃ m, n = m + 1 := ⟨n - 1, by omega⟩
  have hmem : ∃ w ∈ zeroWrites start (n + 1), w.1 = start :=
    ⟨(start, zeroBlock), List.mem_cons_self, rfl⟩
  obtain ⟨w, hw, -, he⟩ := applyWrites_written hmem v
  rw [he]
  exact snd_mem_zeroWrites hw

/-- Without the root inode's write the table begins with a zero block. -/
theorem table_without_root {sb : Super} (hsb : sb = formatSuper totalBlocks journalLen mode)
    (hacc : Accepted totalBlocks journalLen sb) (v : Image) :
    applyWrites v (beforeRoot sb ++ afterRoot sb) sb.inodeTableStart = zeroBlock := by
  obtain ⟨-, -, -, -, hib, -, hit, hitl, hds⟩ := toNat_formatSuper sb hsb
  have hbounds := totalInodesFor_bounds totalBlocks
  have hbitmap := UInt64.lt_iff_toNat_lt.mp hacc.inodeBitmap
  have hdev := totalBlocks.toNat_lt
  have hlen : 0 < sb.inodeTableLen.toNat ∧ sb.inodeTableLen.toNat < 2000 := by omega
  clear hitl hbounds
  rw [applyWrites_append, applyWrites_of_untouched]
  · exact zeroWrites_first hlen.1 _
  · intro w hw he
    have hne := congrArg UInt64.toNat he
    rcases List.mem_pair.mp hw with rfl | rfl
    · simp only at hne
      omega
    · have hone : superBlockno.toNat = 1 := rfl
      simp only [hone] at hne
      omega

theorem FormatIntact.table_start {sb : Super} {img : Image}
    (hsb : sb = formatSuper totalBlocks journalLen mode) (h : FormatIntact sb now img) :
    img sb.inodeTableStart ≠ zeroBlock := by
  obtain ⟨-, -, -, -, -, -, -, hitl, -⟩ := toNat_formatSuper sb hsb
  have hbounds := totalInodesFor_bounds totalBlocks
  have hroot := h.table 0 (by omega)
  rw [show sb.inodeTableStart + UInt64.ofNat 0 = sb.inodeTableStart by simp, if_pos rfl] at hroot
  rw [hroot]
  exact formatRoot_ne_zero sb now

/-- The crash that keeps every write but the root inode's. -/
theorem format_loses_root {img₀ : Image}
    (hok : run faultless (fsFormat host totalBlocks journalLen mode now).run (settled img₀) =
      (.ok (), d)) :
    ∃ img, CrashesInto (fsFormat host totalBlocks journalLen mode now).run (settled img₀) img ∧
      Super.decode (img superBlockno) = formatSuper totalBlocks journalLen mode ∧
      img (formatSuper totalBlocks journalLen mode).inodeTableStart = zeroBlock := by
  have hacc := accepted_of_ok (congrArg Prod.fst hok)
  obtain ⟨rest, cut, hreach, hpending⟩ := reaches_lastFlush hok
  generalize hsb : formatSuper totalBlocks journalLen mode = sb at hacc hpending
  have hsub : (beforeRoot sb ++ afterRoot sb).Sublist cut.pending := by
    rw [hpending]
    exact List.Sublist.append_left (List.sublist_cons_self _ _) _
  refine ⟨_, ⟨_, hreach, _, hsub, rfl⟩, ?_, table_without_root hsb.symm hacc _⟩
  rw [applyWrites_append]
  simp [afterRoot, Super.decode_encode]

/-- No format that returns 0 is safe, whatever was on the device before. -/
theorem not_crashSafeFormat {img₀ : Image}
    (hok : run faultless (fsFormat host totalBlocks journalLen mode now).run (settled img₀) =
      (.ok (), d)) : ¬ CrashSafeFormat host totalBlocks journalLen mode now img₀ := by
  intro hsafe
  obtain ⟨img, hcrash, hsuper, hzero⟩ := format_loses_root hok
  exact (hsafe img hcrash hsuper).table_start rfl hzero

theorem not_crashSafeFormat_journal : ∃ d,
    run faultless (fsFormat (.ok ()) 256 64 .journal 9).run (settled fun _ => zeroBlock) = (.ok (), d) ∧
      ¬ CrashSafeFormat (.ok ()) 256 64 .journal 9 fun _ => zeroBlock := by
  have hok : run faultless (fsFormat (.ok ()) 256 64 .journal 9).run (settled fun _ => zeroBlock) =
      (.ok (), _) := Prod.ext rfl rfl
  exact ⟨_, hok, not_crashSafeFormat hok⟩

theorem not_crashSafeFormat_small :
    ¬ CrashSafeFormat (.ok ()) 128 64 .ordered 0 fun _ => zeroBlock := by
  intro hsafe
  obtain ⟨img, hcrash, hsuper, hzero⟩ := format_loses_root run_format_small
  exact (hsafe img hcrash hsuper).table_start rfl hzero

end Format
end Logfs
