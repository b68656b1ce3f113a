import Logfs.Journal

/-!
# The journal on a device that does not fail

Addresses of log offsets, and what the reads and writes of `journal.c` do when
every device operation succeeds. The scan loop only reads, so over a fixed image
it is a function of the log's content by offset (`scanAt`, `scanAll`).
-/
namespace Logfs
open Interaction WriteCache ByteBuffer

/-! ## Device calls that succeed -/

section Calls
variable {dev : BlockDev} {b : UInt64} (c : Disk)

@[simp] theorem run_bdevRead (h : b < dev.nblocks) :
    run faultless (bdevRead dev b).run c = (.ok (c.view b), c) := by
  rw [bdevRead, if_neg (by simpa using h)]
  rfl

@[simp] theorem run_bdevWrite (h : b < dev.nblocks) (buf : Block) :
    run faultless (bdevWrite dev b buf).run c = (.ok (), c.write b buf) := by
  rw [bdevWrite, if_neg (by simpa using h)]
  rfl

@[simp] theorem run_bdevFlush :
    run faultless (bdevFlush dev).run c = (.ok (), c.flush) := rfl

@[simp] theorem run_bdevWriteFua (h : b < dev.nblocks) (buf : Block) :
    run faultless (bdevWriteFua dev b buf).run c = (.ok (), (c.write b buf).flush) := by
  rw [bdevWriteFua, run_except_bind, run_bdevWrite c h]
  rfl

end Calls

/-! ## Where the log's blocks are -/

/-- The region is not empty, lies inside the device and begins after the journal superblock. -/
structure Journal.Placed (j : Journal) : Prop where
  maxlen_pos : 0 < j.maxlen.toNat
  fits : j.first.toNat + j.maxlen.toNat ≤ j.dev.nblocks.toNat
  after_jsuper : 2 < j.first.toNat

/-- The block number of log offset `n`. -/
def slot (j : Journal) (n : ℕ) : UInt64 := physOf j (UInt64.ofNat n)

/-- Block `b` belongs to the journal region. -/
def InRegion (j : Journal) (b : UInt64) : Prop :=
  j.first.toNat ≤ b.toNat ∧ b.toNat < j.first.toNat + j.maxlen.toNat

instance (j : Journal) (b : UInt64) : Decidable (InRegion j b) := by
  unfold InRegion; infer_instance

/-- Blocks that belong to neither the journal superblock nor the journal region. -/
def Home (j : Journal) (b : UInt64) : Prop := b ≠ jsuperBlockno ∧ ¬ InRegion j b

instance (j : Journal) (b : UInt64) : Decidable (Home j b) := by unfold Home; infer_instance

variable {j : Journal}

theorem toNat_physOf (hj : j.Placed) (off : UInt64) :
    (physOf j off).toNat = j.first.toNat + off.toNat % j.maxlen.toNat := by
  have hlt := Nat.mod_lt off.toNat hj.maxlen_pos
  have hfit := hj.fits
  have hdev := j.dev.nblocks.toNat_lt
  rw [physOf, UInt64.toNat_add, UInt64.toNat_mod, Nat.mod_eq_of_lt (by omega)]

theorem inRegion_physOf (hj : j.Placed) (off : UInt64) : InRegion j (physOf j off) := by
  have hlt := Nat.mod_lt off.toNat hj.maxlen_pos
  rw [InRegion, toNat_physOf hj]
  omega

theorem inRegion_slot (hj : j.Placed) (n : ℕ) : InRegion j (slot j n) := inRegion_physOf hj _

theorem InRegion.lt_nblocks (hj : j.Placed) {b : UInt64} (h : InRegion j b) :
    b < j.dev.nblocks := by
  have hfit := hj.fits
  have hb := h.2
  exact UInt64.lt_iff_toNat_lt.mpr (by omega)

theorem physOf_lt (hj : j.Placed) (off : UInt64) : physOf j off < j.dev.nblocks :=
  (inRegion_physOf hj off).lt_nblocks hj

theorem InRegion.ne_jsuper (hj : j.Placed) {b : UInt64} (h : InRegion j b) : b ≠ jsuperBlockno := by
  rintro rfl
  have hfirst := hj.after_jsuper
  have hle := h.1
  simp [jsuperBlockno] at hle
  omega

theorem jsuper_lt (hj : j.Placed) : jsuperBlockno < j.dev.nblocks := by
  have hfit := hj.fits
  have hfirst := hj.after_jsuper
  exact UInt64.lt_iff_toNat_lt.mpr (by simp [jsuperBlockno]; omega)

theorem toNat_slot (hj : j.Placed) {n : ℕ} (hn : n < 2 ^ 64) :
    (slot j n).toNat = j.first.toNat + n % j.maxlen.toNat := by
  rw [slot, toNat_physOf hj, UInt64.toNat_ofNat_of_lt' hn]

/-- Two offsets less than a lap apart have different blocks. -/
theorem slot_ne (hj : j.Placed) {m n : ℕ} (hlt : m < n) (hlap : n < m + j.maxlen.toNat)
    (hn : n < 2 ^ 64) : slot j m ≠ slot j n := by
  intro h
  have hm := congrArg UInt64.toNat h
  rw [toNat_slot hj (by omega), toNat_slot hj hn] at hm
  have hmod : m % j.maxlen.toNat = n % j.maxlen.toNat := by omega
  have hdvd := (Nat.modEq_iff_dvd' hlt.le).mp hmod
  have hle := Nat.le_of_dvd (by omega) hdvd
  omega

/-! ## Programs of the journal -/

/-- The log's content by offset, on an image. -/
def logView (j : Journal) (img : Image) (off : UInt64) : Block := img (physOf j off)

section Programs
variable (c : Disk)

@[simp] theorem run_readLogical (hj : j.Placed) (off : UInt64) :
    run faultless (readLogical j off).run c = (.ok (logView j c.view off), c) :=
  run_bdevRead c (physOf_lt hj off)

@[simp] theorem run_writeLogical (hj : j.Placed) (off : UInt64) (buf : Block) :
    run faultless (writeLogical j off buf).run c = (.ok (), c.write (physOf j off) buf) :=
  run_bdevWrite c (physOf_lt hj off) buf

@[simp] theorem run_jsuperWrite (hj : j.Placed) (off seq : UInt64) :
    run faultless (jsuperWrite j off seq).run c =
      (.ok (), (c.write jsuperBlockno (jsuperEncode j off seq)).flush) :=
  run_bdevWriteFua c (jsuper_lt hj) _

/-- The superblock's write and the flush that makes it durable. -/
theorem jsuperWrite_ops (hj : j.Placed) (off seq : UInt64) :
    (jsuperWrite j off seq).run =
      .op (.write jsuperBlockno (jsuperEncode j off seq)) fun
        | .error e => .ret (.error e)
        | .ok () => .op .flush .ret := by
  rw [jsuperWrite, bdevWriteFua, bdevWrite, if_neg (by simpa using jsuper_lt hj), ExceptT.run_bind]
  refine congrArg (Prog.op _) (funext fun r => ?_)
  cases r <;> rfl

/-- The block writes of `bs` at consecutive offsets from `cursor` on. -/
def logWrites (j : Journal) (cursor : UInt64) : List Block → List (UInt64 × Block)
  | [] => []
  | b :: bs => (physOf j cursor, b) :: logWrites j (cursor + 1) bs

theorem run_writeBlocks (hj : j.Placed) (cursor : UInt64) (bs : List Block) :
    run faultless (writeBlocks j cursor bs).run c =
      (.ok (cursor + UInt64.ofNat bs.length), c.writes (logWrites j cursor bs)) := by
  induction bs generalizing cursor c with
  | nil => simp [writeBlocks, logWrites]
  | cons b bs ih =>
      rw [writeBlocks, run_except_bind, run_writeLogical c hj]
      simp only [ih, logWrites, write_writes, List.length_cons]
      congr 2
      rw [UInt64.ofNat_add, UInt64.add_assoc, UInt64.add_comm (UInt64.ofNat _)]
      rfl

theorem run_readBlocks (hj : j.Placed) (cursor : UInt64) (n : ℕ) :
    run faultless (readBlocks j cursor n).run c =
      (.ok ((List.range n).map fun i => logView j c.view (cursor + UInt64.ofNat i)), c) := by
  induction n generalizing cursor with
  | zero => rfl
  | succ n ih =>
      rw [readBlocks, run_except_bind, run_readLogical c hj]
      simp only [run_except_bind, ih, List.range_succ_eq_map, List.map_cons, List.map_map]
      have hstep : ∀ i : ℕ, cursor + 1 + UInt64.ofNat i = cursor + UInt64.ofNat (i + 1) := by
        intro i
        rw [UInt64.ofNat_add, UInt64.add_assoc, UInt64.add_comm (UInt64.ofNat i)]
        rfl
      simp only [hstep]
      simp [Function.comp_def]

end Programs

/-! ## The scan as a function of the log's content -/

/-- One scan iteration over the content `rd` of the log by offset. -/
def scanAt (rd : UInt64 → Block) (scan expectSeq : UInt64) : Option Scanned :=
  let desc := DescBlock.decode (rd scan)
  if desc.magic ≠ descMagic ∨ desc.sequence ≠ expectSeq ∨ maxTagsPerDesc < desc.ntags.toNat then none
  else
    let cursor := scan + 1
    let peek := rd (cursor + desc.ntags.toUInt64)
    let revokeBlock := if magicOf peek = revokeMagic then some peek else none
    let commitOff := cursor + desc.ntags.toUInt64 + (if revokeBlock.isSome then 1 else 0)
    let cb := CommitBlock.decode (rd commitOff)
    if cb.magic ≠ commitMagic ∨ cb.sequence ≠ desc.sequence then none
    else if checksumTransaction (rd scan) revokeBlock
        ((List.range desc.ntags.toNat).map fun i => rd (cursor + UInt64.ofNat i)) ≠ cb.checksum then
      none
    else some (scanned desc revokeBlock cursor commitOff)

def scanAll (rd : UInt64 → Block) : ℕ → UInt64 → UInt64 → UInt64 → ScanResult
  | 0, scan, _, lastValidSeq => ⟨[], [], scan, lastValidSeq⟩
  | fuel + 1, scan, expectSeq, lastValidSeq =>
      match scanAt rd scan expectSeq with
      | none => ⟨[], [], scan, lastValidSeq⟩
      | some s =>
          let r := scanAll rd fuel s.next (s.txn.sequence + 1) s.txn.sequence
          { r with txns := s.txn :: r.txns, revokes := s.revokes ++ r.revokes }

theorem run_scanTxn (hj : j.Placed) (scan expectSeq : UInt64) (c : Disk) :
    run faultless (scanTxn j scan expectSeq) c = (scanAt (logView j c.view) scan expectSeq, c) := by
  unfold scanTxn scanAt
  simp only [run_bind, run_readLogical c hj, run_ite, run_readBlocks c hj, Prog.pure_eq, run_ret]
  split_ifs <;> rfl

theorem run_scanLoop (hj : j.Placed) (fuel : ℕ) (scan expectSeq last : UInt64) (c : Disk) :
    run faultless (scanLoop j fuel scan expectSeq last) c =
      (scanAll (logView j c.view) fuel scan expectSeq last, c) := by
  induction fuel generalizing scan expectSeq last with
  | zero => rfl
  | succ fuel ih =>
      rw [scanLoop, run_bind, run_scanTxn hj, scanAll]
      cases scanAt (logView j c.view) scan expectSeq with
      | none => rfl
      | some s => simp only [run_bind, ih]; rfl

end Logfs
