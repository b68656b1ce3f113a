import Logfs.FsRuns
import Logfs.RecoveryCrash

/-!
# A freshly formatted volume

What `logfs_fs_format` leaves on an image that `logfs_fs_mount` then accepts: a root directory
with its own two entries, and nothing else.
-/
namespace Logfs
open Interaction WriteCache ByteBuffer NameTree

/-! ## Runs that succeed -/

section Succeeding
variable {α β : Type} {c c' : Disk} {p : DevEM α} {f : α → DevEM β} {b : β}

theorem run_bind_ok (h : run faultless (p >>= f).run c = (.ok b, c')) :
    ∃ a d, run faultless p.run c = (.ok a, d) ∧ run faultless (f a).run d = (.ok b, c') := by
  rw [run_except_bind] at h
  cases hrun : run faultless p.run c with
  | mk r d =>
      rw [hrun] at h
      cases r with
      | error e => cases h
      | ok a => exact ⟨a, d, rfl, h⟩

/-- A check the run has passed. -/
theorem run_guard_ok {P : Prop} [Decidable P] {e : Errno} {q : DevEM β}
    (h : run faultless (if P then throw e >>= f else q).run c = (.ok b, c')) :
    ¬ P ∧ run faultless q.run c = (.ok b, c') := by
  by_cases hP : P
  · rw [if_pos hP] at h
    cases h
  · rw [if_neg hP] at h
    exact ⟨hP, h⟩

/-- A read that returned 0 read a block of the device and left the device alone. -/
theorem run_bdevRead_ok {dev : BlockDev} {a : UInt64} {buf : Block}
    (h : run faultless (bdevRead dev a).run c = (.ok buf, c')) :
    a < dev.nblocks ∧ buf = c.view a ∧ c' = c := by
  have hlt : a < dev.nblocks := by
    by_contra hge
    rw [bdevRead, if_pos (by simpa using hge)] at h
    cases h
  rw [run_bdevRead c hlt] at h
  cases h
  exact ⟨hlt, rfl, rfl⟩

end Succeeding

/-! ## Programs that write without a flush -/

/-- A run of the program that succeeds leaves these writes pending. -/
def Issues {α : Type} (p : DevEM α) (ws : List (UInt64 × Block)) : Prop :=
  ∀ c a d, run faultless p.run c = (.ok a, d) → d = c.writes ws

namespace Issues
variable {α β : Type} {p : DevEM α} {f : α → DevEM β} {us ws : List (UInt64 × Block)} {dev : BlockDev}

theorem pure (a : α) : Issues (pure a : DevEM α) [] := by
  intro c _ d h
  cases h
  exact (writes_nil c).symm

theorem bind (hp : Issues p us) (hf : ∀ a, Issues (f a) ws) : Issues (p >>= f) (us ++ ws) := by
  intro c b d h
  obtain ⟨a, e, hfirst, hrest⟩ := run_bind_ok h
  rw [hf a e b d hrest, hp c a e hfirst, writes_writes]

theorem bdevWrite {b : UInt64} {buf : Block} : Issues (bdevWrite dev b buf) [(b, buf)] := by
  intro c _ d h
  rw [run_bdevWrite c (lt_nblocks_of_bdevWrite h)] at h
  cases h
  rfl

end Issues

/-! ## What a program writes -/

/-- A run of the program that succeeds has made these writes. -/
def Writes {α : Type} (p : DevEM α) (ws : List (UInt64 × Block)) : Prop :=
  ∀ c a c', run faultless p.run c = (.ok a, c') → c'.view = applyWrites c.view ws

namespace Writes
variable {α β : Type} {p : DevEM α} {f : α → DevEM β} {us ws : List (UInt64 × Block)} {dev : BlockDev}
  {b : UInt64} {buf : Block}

theorem of_issues (h : Issues p ws) : Writes p ws := by
  intro c a c' hrun
  rw [h c a c' hrun, view_writes]

theorem bind (hp : Writes p us) (hf : ∀ a, Writes (f a) ws) : Writes (p >>= f) (us ++ ws) := by
  intro c b c' h
  obtain ⟨a, d, hfirst, hrest⟩ := run_bind_ok h
  rw [hf a d b c' hrest, hp c a d hfirst, applyWrites_append]

theorem bdevWrite : Writes (bdevWrite dev b buf) [(b, buf)] := of_issues Issues.bdevWrite

theorem bdevWriteFua : Writes (bdevWriteFua dev b buf) [(b, buf)] := by
  refine bdevWrite.bind fun _ => (?_ : Writes (bdevFlush dev) [])
  intro c _ c' h
  cases h
  exact view_flush c

end Writes

/-! ## The writes of a format -/

def zeroWrites (start : UInt64) : ℕ → List (UInt64 × Block)
  | 0 => []
  | n + 1 => (start, zeroBlock) :: zeroWrites (start + 1) n

/-- In the order `logfs_fs_format` makes them. -/
def formatWrites (sb : Super) (now : UInt64) : List (UInt64 × Block) :=
  [(jsuperBlockno,
    jsuperEncode ⟨⟨sb.totalBlocks⟩, sb.journalStart, sb.journalLen, 0, 0, 0⟩ journalEmpty 0)] ++
    ([(sb.inodeBitmapStart, setBit (setBit zeroBlock 0) rootIno.toNat)] ++
    ([(sb.blockBitmapStart, setBit zeroBlock 0)] ++
    (zeroWrites sb.inodeTableStart sb.inodeTableLen.toNat ++
    ([(sb.inodeTableStart, (formatRoot sb now).encodeAt zeroBlock 0)] ++
    ([(sb.dataStart, initialDirBlock rootIno rootIno)] ++ [(superBlockno, sb.encode)])))))

theorem issues_writeZeros (dev : BlockDev) (start : UInt64) (n : ℕ) :
    Issues (writeZeros dev start n) (zeroWrites start n) := by
  induction n generalizing start with
  | zero => exact .pure ()
  | succ n ih => exact Issues.bdevWrite.bind fun _ => ih (start + 1)

theorem writes_writeImage (dev : BlockDev) (sb : Super) (now : UInt64) :
    Writes (writeImage dev sb now) (formatWrites sb now) :=
  Writes.bdevWriteFua.bind fun _ => Writes.bdevWrite.bind fun _ => Writes.bdevWrite.bind fun _ =>
    (Writes.of_issues (issues_writeZeros dev _ _)).bind fun _ => Writes.bdevWrite.bind fun _ =>
      Writes.bdevWrite.bind fun _ => Writes.bdevWriteFua

/-- A check that a successful run has passed. -/
theorem Writes.guard {α β : Type} {P : Prop} [Decidable P] {e : Errno} {f : β → DevEM α} {p : DevEM α}
    {ws : List (UInt64 × Block)} (hp : Writes p ws) : Writes (if P then throw e >>= f else p) ws := by
  intro c a c' h
  exact hp c a c' (run_guard_ok h).2

theorem Writes.lift {α : Type} {x : Except Errno α} : Writes (liftM (n := DevEM) x) [] := by
  intro c a c' h
  cases x with
  | error e => cases h
  | ok b =>
      cases h
      rfl

variable {host : Except Errno Unit} {totalBlocks journalLen now : UInt64} {mode : DataMode}

theorem writes_fsFormat : Writes (fsFormat host totalBlocks journalLen mode now)
    (formatWrites (formatSuper totalBlocks journalLen mode) now) := by
  unfold fsFormat
  refine .guard (Writes.lift.bind fun dev => .guard (.guard ?_))
  exact writes_writeImage dev _ now

/-! ## What they leave -/

section Content
variable {sb : Super} {v : Image}

theorem applyWrites_formatWrites (v : Image) : applyWrites v (formatWrites sb now) =
    Function.update (Function.update (Function.update
      (applyWrites (Function.update (Function.update (Function.update v jsuperBlockno
        (jsuperEncode ⟨⟨sb.totalBlocks⟩, sb.journalStart, sb.journalLen, 0, 0, 0⟩ journalEmpty 0))
        sb.inodeBitmapStart (setBit (setBit zeroBlock 0) rootIno.toNat))
        sb.blockBitmapStart (setBit zeroBlock 0))
        (zeroWrites sb.inodeTableStart sb.inodeTableLen.toNat))
      sb.inodeTableStart ((formatRoot sb now).encodeAt zeroBlock 0))
      sb.dataStart (initialDirBlock rootIno rootIno))
      superBlockno sb.encode := by
  simp only [formatWrites, applyWrites_append, applyWrites_cons, applyWrites_nil]

theorem mem_zeroWrites {start : UInt64} {n : ℕ} (hfit : start.toNat + n ≤ 2 ^ 64)
    {w : UInt64 × Block} (hw : w ∈ zeroWrites start n) :
    start.toNat ≤ w.1.toNat ∧ w.1.toNat < start.toNat + n := by
  induction n generalizing start with
  | zero => cases hw
  | succ n ih =>
      rcases List.mem_cons.mp hw with rfl | hw
      · exact ⟨le_refl _, by simp⟩
      · cases n with
        | zero => cases hw
        | succ n =>
            have hnext : (start + 1).toNat = start.toNat + 1 := by
              rw [UInt64.toNat_add, UInt64.toNat_one, Nat.mod_eq_of_lt (by omega)]
            have hrest := ih (by omega) hw
            omega

/-- A block outside a range of zeroed blocks is left alone by them. -/
theorem zeroWrites_of_outside {start b : UInt64} {n : ℕ} (hfit : start.toNat + n ≤ 2 ^ 64)
    (hout : b.toNat < start.toNat ∨ start.toNat + n ≤ b.toNat) (v : Image) :
    applyWrites v (zeroWrites start n) b = v b := by
  apply applyWrites_of_untouched
  rintro w hw rfl
  have hmem := mem_zeroWrites hfit hw
  omega

/-- The last of the writes to a block of the range leaves zeros there. -/
theorem zeroWrites_of_inside {start b : UInt64} {n : ℕ} (hfit : start.toNat + n ≤ 2 ^ 64)
    (hfirst : start.toNat ≤ b.toNat) (hlast : b.toNat < start.toNat + n) (v : Image) :
    applyWrites v (zeroWrites start n) b = zeroBlock := by
  induction n generalizing start v with
  | zero => omega
  | succ n ih =>
      have hb := b.toNat_lt
      rw [zeroWrites, applyWrites_cons]
      by_cases hn : n = 0
      · subst hn
        rw [show b = start from UInt64.toNat_inj.mp (by omega)]
        exact Function.update_self _ _ _
      · have hnext : (start + 1).toNat = start.toNat + 1 := by
          rw [UInt64.toNat_add, UInt64.toNat_one, Nat.mod_eq_of_lt (by omega)]
        by_cases heq : b = start
        · subst heq
          rw [zeroWrites_of_outside (by omega) (.inl (by omega)), Function.update_self]
        · have hne : b.toNat ≠ start.toNat := fun h => heq (UInt64.toNat_inj.mp h)
          exact ih (by omega) (by omega) (by omega) _

/-- The blocks of a formatted image that mean something. -/
structure LaidOut (sb : Super) (now : UInt64) (v : Image) : Prop where
  super : v superBlockno = sb.encode
  jsuper : (jsuperOf v).magic = journalMagic ∧ (jsuperOf v).start = journalEmpty
  inodeBitmap : v sb.inodeBitmapStart = setBit (setBit zeroBlock 0) rootIno.toNat
  blockBitmap : v sb.blockBitmapStart = setBit zeroBlock 0
  table : v sb.inodeTableStart = (formatRoot sb now).encodeAt zeroBlock 0
  data : v sb.dataStart = initialDirBlock rootIno rootIno

/-- The superblocks come first, and the inode table ends before the data begins. -/
theorem RegionsSound.ends (hs : RegionsSound sb) :
    2 < sb.inodeBitmapStart.toNat ∧ sb.inodeTableStart.toNat + sb.inodeTableLen.toNat ≤ sb.dataStart.toNat := by
  have hord := hs.ordered
  simp [extents, superBlockno, jsuperBlockno] at hord
  omega

theorem laidOut_of_ordered (hjournal : 2 < sb.inodeBitmapStart.toNat)
    (hbitmaps : sb.inodeBitmapStart.toNat < sb.blockBitmapStart.toNat)
    (hafter : sb.blockBitmapStart.toNat < sb.inodeTableStart.toNat)
    (htable : sb.inodeTableStart.toNat < sb.dataStart.toNat)
    (hend : sb.inodeTableStart.toNat + sb.inodeTableLen.toNat ≤ sb.dataStart.toNat) :
    LaidOut sb now (applyWrites v (formatWrites sb now)) := by
  have hds := sb.dataStart.toNat_lt
  have hne : ∀ {a b : UInt64}, a.toNat ≠ b.toNat → a ≠ b := fun h he => h (congrArg UInt64.toNat he)
  have hzero : ∀ {b : UInt64} (img : Image), b.toNat < sb.inodeTableStart.toNat ∨
      sb.inodeTableStart.toNat + sb.inodeTableLen.toNat ≤ b.toNat →
      applyWrites img (zeroWrites sb.inodeTableStart sb.inodeTableLen.toNat) b = img b :=
    fun img hout => zeroWrites_of_outside (by omega) hout img
  have hsuper : superBlockno.toNat = 1 := rfl
  have hjsuper : jsuperBlockno.toNat = 2 := rfl
  rw [applyWrites_formatWrites]
  constructor
  · rw [Function.update_self]
  · rw [jsuperOf, Function.update_of_ne (by decide), Function.update_of_ne (hne (by omega)),
      Function.update_of_ne (hne (by omega)), hzero _ (by omega), Function.update_of_ne (hne (by omega)),
      Function.update_of_ne (hne (by omega)), Function.update_self, decode_jsuperEncode]
    exact ⟨rfl, rfl⟩
  · rw [Function.update_of_ne (hne (by omega)), Function.update_of_ne (hne (by omega)),
      Function.update_of_ne (hne (by omega)), hzero _ (by omega), Function.update_of_ne (hne (by omega)),
      Function.update_self]
  · rw [Function.update_of_ne (hne (by omega)), Function.update_of_ne (hne (by omega)),
      Function.update_of_ne (hne (by omega)), hzero _ (by omega), Function.update_self]
  · rw [Function.update_of_ne (hne (by omega)), Function.update_of_ne (hne (by omega)),
      Function.update_self]
  · rw [Function.update_of_ne (hne (by omega)), Function.update_self]

/-- The inode table is empty behind its first block. -/
theorem formatted_table (hs : RegionsSound sb) {b : UInt64} (hfirst : sb.inodeTableStart.toNat < b.toNat)
    (hlast : b.toNat < sb.inodeTableStart.toNat + sb.inodeTableLen.toNat) :
    applyWrites v (formatWrites sb now) b = zeroBlock := by
  obtain ⟨hbitmaps, hafter, -, -⟩ := hs.regions
  obtain ⟨hjournal, hend⟩ := hs.ends
  have hds := sb.dataStart.toNat_lt
  have hne : ∀ {a b : UInt64}, a.toNat ≠ b.toNat → a ≠ b := fun h he => h (congrArg UInt64.toNat he)
  have hsuper : superBlockno.toNat = 1 := rfl
  rw [applyWrites_formatWrites, Function.update_of_ne (hne (by omega)), Function.update_of_ne (hne (by omega)),
    Function.update_of_ne (hne (by omega)), zeroWrites_of_inside (by omega) (by omega) hlast]

theorem laidOut (hs : RegionsSound sb) (hone : IsIno sb rootIno) :
    LaidOut sb now (applyWrites v (formatWrites sb now)) := by
  obtain ⟨hbitmaps, hafter, -, -⟩ := hs.regions
  obtain ⟨hjournal, hend⟩ := hs.ends
  refine laidOut_of_ordered hjournal hbitmaps hafter ?_ hend
  have hloc := hone.table_lt
  omega

theorem LaidOut.inode_root (h : LaidOut sb now v) (hone : IsIno sb rootIno) :
    (vol sb v).inode rootIno = newDirInode 0x1ED now sb.dataStart := by
  have hloc : inodeLocation sb rootIno = (sb.inodeTableStart, 0) := by
    simp [inodeLocation, rootIno]
  change (if _ then _ else _) = _
  rw [if_pos hone, hloc, h.table, Inode.decodeAt_encodeAt _ (by decide)]
  rfl

theorem LaidOut.block_root (h : LaidOut sb now v) (hdata : IsData sb sb.dataStart) :
    (vol sb v).block sb.dataStart = initialDirBlock rootIno rootIno := by
  change (if _ then _ else _) = _
  rw [if_pos hdata, h.data]

/-- The root is the only live inode. -/
theorem LaidOut.volOk (hs : RegionsSound sb) (hone : IsIno sb rootIno) (hdata : IsData sb sb.dataStart)
    (h : LaidOut sb now v) : VolOk sb (vol sb v) {rootIno} := by
  have hroot := h.inode_root hone
  have hblock := h.block_root hdata
  have hne := hdata.ne_zero hs
  have hlone : Lone (vol sb v) rootIno rootIno := lone_newDir (by decide) (by decide) hne hroot hblock
  have hdir : isDir ((vol sb v).inode rootIno).mode = true := by
    rw [hroot]
    exact isDir_newDir _ _ _
  have hpair : ∀ {s l}, (vol sb v).entry rootIno s = some l →
      l.ino = rootIno ∧ l.fileType = ftDir := by
    intro s l hl
    rcases hlone.cases hl with rfl | rfl <;> exact ⟨rfl, rfl⟩
  have hblocks : ∀ k, ((vol sb v).inode rootIno).blocks k ≠ 0 →
      k.val = 0 ∧ ((vol sb v).inode rootIno).blocks k = sb.dataStart := by
    intro k hk
    rw [hroot] at hk ⊢
    simp only [newDirInode] at hk ⊢
    split_ifs at hk ⊢ with h0
    · exact ⟨h0, rfl⟩
    · exact absurd rfl hk
  refine ⟨⟨?_, ?_, ?_, ?_⟩, ⟨?_, hdir, ?_, ?_, ?_, ?_⟩, ?_⟩
  · rintro i rfl
    refine ⟨hone, ?_⟩
    change (decide _ && testBit _ _) = true
    rw [h.inodeBitmap, testBit_setBit _ (by decide)]
    simp [hone.inRange]
  · rintro i k rfl hk
    rw [(hblocks k hk).2]
    refine ⟨hdata, ?_⟩
    change (decide _ && testBit _ _) = true
    rw [h.blockBitmap, testBit_setBit _ (by decide)]
    simp [hdata]
  · rintro i j k l rfl rfl heq hk
    have hl := hk
    rw [heq] at hl
    exact ⟨rfl, Fin.ext ((hblocks k hk).1.trans (hblocks l hl).1.symm)⟩
  · rintro i rfl
    rw [hroot]
    exact shaped_newDir _ _ hne
  · constructor
    · rfl
    · rintro d s c rfl hc
      rw [hlone.child] at hc
      cases hc
    · rintro d s rfl hc
      rw [hlone.child] at hc
      cases hc
    · rintro d d' s s' c rfl - hc
      rw [hlone.child] at hc
      cases hc
    · rintro c rfl
      exact .refl
  · rintro d s l rfl hl
    obtain ⟨hino, hty⟩ := hpair hl
    rw [hty, hino, typeOf, if_pos hdir]
  · rintro d s t l m rfl hl hm hname
    exact hlone.unique hl hm hname
  · rintro d rfl -
    obtain ⟨s, -, hs, -⟩ := hlone hdir
    exact ⟨s, hs⟩
  · rintro d rfl -
    obtain ⟨-, t, -, ht, -⟩ := hlone hdir
    exact ⟨t, rootIno, ht, .inl ⟨rfl, rfl⟩⟩
  · rintro i rfl
    rw [links_of_dir hdir, hlone.subdirs, hroot]
    rfl

end Content

/-! ## After the mount -/

/-- A mount of an image with an empty log writes nothing. -/
theorem run_mountRecover_empty {j : Journal} (hlt : jsuperBlockno < j.dev.nblocks) {c : Disk}
    (hmagic : (jsuperOf c.view).magic = journalMagic) (hempty : (jsuperOf c.view).start = journalEmpty) :
    run faultless (mountRecover j) c =
      ((.ok (), { j with head := 0, tail := 0, nextSequence := 1 }), c.flush) := by
  have hdecode : JournalSuper.decode (c.view jsuperBlockno) = jsuperOf c.view := rfl
  rw [mountRecover, run_bind, answer_recover, run_bind, run_bdevRead c hlt]
  simp only [hdecode, hmagic, hempty, ne_eq, not_true, if_false, if_true, run_ret, run_bind, run_bdevFlush,
    Prog.pure_eq]

theorem fsMount_found {dev : BlockDev} {c d : Disk} {sb : Super} {j : Journal}
    (h : run faultless (fsMount dev).run c = (.ok (sb, j), d)) :
    sb = Super.decode (c.view superBlockno) ∧ (jsuperOf c.view).magic = journalMagic ∧
      ((jsuperOf c.view).start = journalEmpty →
        j = ⟨dev, sb.journalStart, sb.journalLen, 0, 0, 1⟩ ∧ d.view = c.view) := by
  unfold fsMount at h
  obtain ⟨block, _, hread, h⟩ := run_bind_ok h
  obtain ⟨-, rfl, rfl⟩ := run_bdevRead_ok hread
  obtain ⟨-, h⟩ := run_guard_ok h
  obtain ⟨-, h⟩ := run_guard_ok h
  obtain ⟨-, h⟩ := run_guard_ok h
  obtain ⟨j₁, c₁, hopen, h⟩ := run_bind_ok h
  obtain ⟨⟨r, j₂⟩, c₂, hrec, h⟩ := run_bind_ok h
  cases r with
  | error e => cases h
  | ok _ =>
  cases h
  unfold journalOpen at hopen
  obtain ⟨block, _, hread, hopen⟩ := run_bind_ok hopen
  obtain ⟨hlt, rfl, rfl⟩ := run_bdevRead_ok hread
  obtain ⟨hmagic, hopen⟩ := run_guard_ok hopen
  refine ⟨rfl, not_not.mp hmagic, fun hempty => ?_⟩
  have hdecode : ∀ c : Disk, JournalSuper.decode (c.view jsuperBlockno) = jsuperOf c.view := fun _ => rfl
  rw [hdecode] at hmagic
  simp only [hdecode, if_pos hempty] at hopen
  cases hopen
  rw [run_liftM_except, run_mountRecover_empty (by exact hlt) (not_not.mp hmagic) hempty] at hrec
  cases hrec
  exact ⟨rfl, view_flush _⟩

section Mount
variable {d d₁ d₂ : Disk} {sb : Super} {j : Journal} {v : Image}

/-- The lengths that wrap the first size check and are accepted put the root inode or one of the
bitmaps where the journal's superblock was. -/
theorem noWrap_of_magic (hsb : sb = formatSuper totalBlocks journalLen mode)
    (hacc : Accepted totalBlocks journalLen sb)
    (hmagic : (jsuperOf (applyWrites v (formatWrites sb now))).magic = journalMagic) :
    journalLen.toNat + 7 < 2 ^ 64 := by
  obtain ⟨htotal, -, -, -, hib, hbb, hit, hitl, hds⟩ := toNat_formatSuper sb hsb
  have hbound := totalInodesFor_bounds totalBlocks
  have hdata := UInt64.lt_iff_toNat_lt.mp hacc.data
  have hbits : totalBlocks.toNat - sb.dataStart.toNat ≤ 32768 := by
    rw [← UInt64.toNat_sub_of_le _ _ (UInt64.le_of_lt hacc.data)]
    exact hacc.bitmap
  have hbitmap := UInt64.lt_iff_toNat_lt.mp hacc.inodeBitmap
  have hdev := totalBlocks.toNat_lt
  have hpos : 0 < sb.inodeTableLen.toNat ∧ sb.inodeTableLen.toNat < 2000 := by omega
  clear hitl hbound
  by_contra hwrap
  have hlen := journalLen.toNat_lt
  have hsmall : journalLen.toNat = 2 ^ 64 - 1 ∨ journalLen.toNat = 2 ^ 64 - 2 ∨
      journalLen.toNat = 2 ^ 64 - 3 := by
    have hseven : journalLen.toNat = 2 ^ 64 - 1 ∨ journalLen.toNat = 2 ^ 64 - 2 ∨
        journalLen.toNat = 2 ^ 64 - 3 ∨ journalLen.toNat = 2 ^ 64 - 4 ∨ journalLen.toNat = 2 ^ 64 - 5 ∨
        journalLen.toNat = 2 ^ 64 - 6 ∨ journalLen.toNat = 2 ^ 64 - 7 := by omega
    rcases hseven with hk | hk | hk | hk | hk | hk | hk
    · exact .inl hk
    · exact .inr (.inl hk)
    · exact .inr (.inr hk)
    all_goals
      rw [hk] at hib hds
      omega
  have hbounds : sb.inodeTableStart.toNat + sb.inodeTableLen.toNat ≤ 2 ^ 64 ∧
      sb.dataStart.toNat = sb.inodeTableStart.toNat + sb.inodeTableLen.toNat := by
    rcases hsmall with hk | hk | hk <;> rw [hk] at hit hds <;> omega
  have hne : ∀ {a b : UInt64}, a.toNat ≠ b.toNat → a ≠ b := fun h he => h (congrArg UInt64.toNat he)
  have hzero : ∀ {b : UInt64} (img : Image), b.toNat < sb.inodeTableStart.toNat →
      applyWrites img (zeroWrites sb.inodeTableStart sb.inodeTableLen.toNat) b = img b :=
    fun img hout => zeroWrites_of_outside (by omega) (.inl hout) img
  have hsuper : superBlockno.toNat = 1 := rfl
  have hjsuper : jsuperBlockno.toNat = 2 := rfl
  have hholds : ∀ {b : UInt64} {img : Image} {buf : Block}, b.toNat = 2 →
      Function.update img b buf jsuperBlockno = buf := by
    intro b img buf hb
    rw [UInt64.toNat_inj.mp (hb.trans hjsuper.symm), Function.update_self]
  have hnot : ∀ {b : Block}, magicOf b ≠ journalMagic → (JournalSuper.decode b).magic ≠ journalMagic :=
    fun h => h
  rw [jsuperOf, applyWrites_formatWrites] at hmagic
  revert hmagic
  rw [Function.update_of_ne (by decide), Function.update_of_ne (hne (by omega))]
  rcases hsmall with hk | hk | hk
  · rw [Function.update_of_ne (hne (by omega)), hzero _ (by omega), Function.update_of_ne (hne (by omega)),
      hholds (by omega)]
    exact hnot (by decide +kernel)
  · rw [Function.update_of_ne (hne (by omega)), hzero _ (by omega), hholds (by omega)]
    exact hnot (by decide +kernel)
  · rw [hholds (by omega)]
    have hroot := congrArg Inode.mode (Inode.decodeAt_encodeAt zeroBlock
      (show 0 + inodeSize ≤ 4096 by decide) (formatRoot sb now))
    change load UInt32 ((formatRoot sb now).encodeAt zeroBlock 0) 0 = _ at hroot
    change load UInt32 ((formatRoot sb now).encodeAt zeroBlock 0) 0 ≠ _
    rw [hroot]
    exact (show modeDir ||| 0x1ED ≠ journalMagic by decide)

/-- A mount of a formatted image finds what the format wrote, even if the inode table is too short. -/
theorem laidOut_mounted
    (hformat : run faultless (fsFormat host totalBlocks journalLen mode now).run d = (.ok (), d₁))
    (hmount : run faultless (fsMount ⟨totalBlocks⟩).run d₁ = (.ok (sb, j), d₂)) :
    sb = formatSuper totalBlocks journalLen mode ∧ Accepted totalBlocks journalLen sb ∧
      journalLen.toNat + 7 < 2 ^ 64 ∧ d₂.view = applyWrites d.view (formatWrites sb now) ∧
      j = ⟨⟨totalBlocks⟩, sb.journalStart, sb.journalLen, 0, 0, 1⟩ ∧ LaidOut sb now d₂.view := by
  have hview := writes_fsFormat d _ d₁ hformat
  obtain ⟨hsuper, hmagic, hquiet⟩ := fsMount_found hmount
  have hacc := accepted_of_ok (congrArg Prod.fst hformat)
  have hsb : sb = formatSuper totalBlocks journalLen mode := by
    rw [hsuper, hview, applyWrites_formatWrites, Function.update_self, Super.decode_encode]
  rw [← hsb] at hacc hview
  have hlen : journalLen.toNat + 7 < 2 ^ 64 := by
    rw [hview] at hmagic
    exact noWrap_of_magic hsb hacc hmagic
  obtain ⟨hib, hbb, hit, hds, -⟩ := boundaries_of_accepted hsb hacc hlen
  have hlength := (toNat_formatSuper sb hsb).2.2.2.2.2.2.2.1
  have hbound := totalInodesFor_bounds totalBlocks
  have hfresh : LaidOut sb now d₁.view := by
    rw [hview]
    exact laidOut_of_ordered (by omega) (by omega) (by omega) (by omega) (by omega)
  obtain ⟨hj, hsame⟩ := hquiet hfresh.jsuper.2
  rw [hsame]
  exact ⟨hsb, hacc, hlen, hview, hj, hfresh⟩

/-- Every layout has room for the root inode and for its first data block. -/
theorem root_of_accepted (hsb : sb = formatSuper totalBlocks journalLen mode)
    (hacc : Accepted totalBlocks journalLen sb) (hlen : journalLen.toNat + 7 < 2 ^ 64) :
    IsIno sb rootIno ∧ IsData sb sb.dataStart := by
  obtain ⟨htotal, hinodes, -, -, -, -, -, hitl, -⟩ := toNat_formatSuper sb hsb
  obtain ⟨-, -, hit, hds, -⟩ := boundaries_of_accepted hsb hacc hlen
  have hbound := totalInodesFor_bounds totalBlocks
  have hloc : (inodeLocation sb rootIno).1 = sb.inodeTableStart := by simp [inodeLocation, rootIno]
  constructor
  · refine ⟨by decide, ?_, by rw [hloc], ?_⟩
    · rw [hinodes]
      exact (show rootIno.toNat ≤ 16 by decide).trans hbound.1
    · rw [hloc]
      omega
  · exact ⟨UInt64.le_refl _, by rw [htotal]; exact hacc.data⟩

/-- What a mount finds on an image formatted with a large enough inode table. -/
theorem volOk_mounted
    (hformat : run faultless (fsFormat host totalBlocks journalLen mode now).run d = (.ok (), d₁))
    (hfits : TableFits totalBlocks)
    (hmount : run faultless (fsMount ⟨totalBlocks⟩).run d₁ = (.ok (sb, j), d₂)) :
    LayoutSound sb ∧ sb.rootIno = rootIno ∧ VolOk sb (vol sb d₂.view) {rootIno} := by
  obtain ⟨hsb, hacc, hlen, -, -, hfresh⟩ := laidOut_mounted hformat hmount
  have hs := layoutSound_of_accepted hsb hacc hlen hfits
  obtain ⟨hone, hdata⟩ := root_of_accepted hsb hacc hlen
  refine ⟨hs, by rw [hsb]; rfl, hfresh.volOk hs hone hdata⟩

/-- The checksum does not depend on the field it is stored in. -/
theorem superChecksum_congr {sb' : Super} (h : { sb with checksum := 0 } = { sb' with checksum := 0 }) :
    superChecksum sb = superChecksum sb' := by
  unfold superChecksum
  rw [h]

theorem superChecksum_formatSuper :
    superChecksum (formatSuper totalBlocks journalLen mode) =
      (formatSuper totalBlocks journalLen mode).checksum := by
  unfold formatSuper
  exact superChecksum_congr rfl

/-- An image with the superblock and an empty log is accepted by the mount. -/
theorem run_fsMount_empty {sb : Super} {c : Disk} (hsuper : c.view superBlockno = sb.encode) (hmagic : sb.magic = superMagic)
    (hsum : sb.checksum = superChecksum sb) (hlt : jsuperBlockno < sb.totalBlocks)
    (hlog : (jsuperOf c.view).magic = journalMagic) (hempty : (jsuperOf c.view).start = journalEmpty) :
    run faultless (fsMount ⟨sb.totalBlocks⟩).run c =
      (.ok (sb, ⟨⟨sb.totalBlocks⟩, sb.journalStart, sb.journalLen, 0, 0, 1⟩), c.flush) := by
  have hfirst : superBlockno < sb.totalBlocks := UInt64.lt_trans (by decide) hlt
  have hopen := run_journalOpen ⟨⟨sb.totalBlocks⟩, sb.journalStart, sb.journalLen, 0, 0, 1⟩ hlt hlog
  rw [openedJournal, if_pos hempty] at hopen
  unfold fsMount
  rw [run_except_bind, run_bdevRead c hfirst]
  simp only [hsuper, Super.decode_encode, hmagic, ne_eq, not_true, if_false, ← hsum]
  rw [run_except_bind]
  simp only at hopen
  rw [hopen]
  dsimp only
  rw [run_except_bind]
  rw [run_liftM_except, run_mountRecover_empty (by exact hlt) hlog hempty]
  rfl

/-- An image that was laid out soundly is accepted by the mount. -/
theorem run_fsMount_formatted {c : Disk} (hsb : sb = formatSuper totalBlocks journalLen mode)
    (hs : RegionsSound sb) (h : LaidOut sb now c.view) :
    run faultless (fsMount ⟨totalBlocks⟩).run c =
      (.ok (sb, ⟨⟨totalBlocks⟩, sb.journalStart, sb.journalLen, 0, 0, 1⟩), c.flush) := by
  have htotal : sb.totalBlocks = totalBlocks := (toNat_formatSuper sb hsb).1
  have hjsuper : jsuperBlockno < sb.totalBlocks := by
    have hreg := hs.regions
    have hend := hs.ends
    rw [UInt64.lt_iff_toNat_lt]
    exact show 2 < _ by omega
  have hmount := run_fsMount_empty h.super (by rw [hsb]; rfl) (by rw [hsb, superChecksum_formatSuper]) hjsuper
    h.jsuper.1 h.jsuper.2
  rwa [htotal] at hmount

/-- A formatted image of 128 blocks with a log of 64. -/
def smallDisk : Disk :=
  (run faultless (fsFormat (.ok ()) 128 64 .ordered 0).run (settled fun _ => zeroBlock)).2

theorem run_format_small :
    run faultless (fsFormat (.ok ()) 128 64 .ordered 0).run (settled fun _ => zeroBlock) =
      (.ok (), smallDisk) := Prod.ext rfl rfl

theorem laidOut_small : LaidOut (formatSuper 128 64 .ordered) 0 smallDisk.view := by
  rw [writes_fsFormat _ _ _ run_format_small]
  exact laidOut layoutSound_small (by decide)

theorem run_fsMount_small : run faultless (fsMount ⟨128⟩).run smallDisk =
    (.ok (formatSuper 128 64 .ordered, ⟨⟨128⟩, 3, 64, 0, 0, 1⟩), smallDisk.flush) :=
  run_fsMount_formatted rfl layoutSound_small laidOut_small

end Mount
end Logfs
