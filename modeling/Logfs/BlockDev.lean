import Logfs.Lib.WriteCache
import Logfs.DiskFormat

/-!
# The backing file as a block device

`blockdev.c`: block reads and writes checked against `nblocks`, and `fsync` in
the place of a cache flush. Programs that use the device are built from its
three operations and may fail with an error number.
-/
namespace Logfs
open Interaction WriteCache

abbrev Image := UInt64 → Block

abbrev Disk := Cache UInt64 Block

/-- Programs over the device. -/
abbrev DevM := Prog (DevRes (A := UInt64) (B := Block) Errno)

/-- Programs over the device that may return an error number. -/
abbrev DevEM := ExceptT Errno DevM

structure BlockDev where
  nblocks : UInt64

def bdevRead (dev : BlockDev) (blockno : UInt64) : DevEM Block :=
  if dev.nblocks ≤ blockno then throw .einval
  else ExceptT.mk (.op (.read blockno) .ret)

def bdevWrite (dev : BlockDev) (blockno : UInt64) (buf : Block) : DevEM Unit :=
  if dev.nblocks ≤ blockno then throw .einval
  else ExceptT.mk (.op (.write blockno buf) .ret)

/-- `logfs_bdev_open` with `create` set; `host` is the outcome of `open` and `ftruncate`. -/
def bdevCreate (host : Except Errno Unit) (nblocks : UInt64) : Except Errno BlockDev := do
  host
  if nblocks = 0 then throw .einval
  return { nblocks }

def bdevFlush (_dev : BlockDev) : DevEM Unit := ExceptT.mk (.op .flush .ret)

def bdevWriteFua (dev : BlockDev) (blockno : UInt64) (buf : Block) : DevEM Unit := do
  bdevWrite dev blockno buf
  bdevFlush dev

/-! ## Sequencing of programs that may fail -/

section Sequencing
variable {σ α β : Type} {h : Handler (DevRes (A := UInt64) (B := Block) Errno) σ}

theorem run_except_bind (s : σ) (p : DevEM α) (f : α → DevEM β) :
    run h (p >>= f).run s =
      match run h p.run s with
      | (.ok a, t) => run h (f a).run t
      | (.error e, t) => (.error e, t) := by
  rw [run_exceptT_bind]
  cases run h p.run s with
  | mk r t => cases r <;> rfl

/-- A part that cannot fail. -/
theorem run_liftM_except (s : σ) (p : DevM α) :
    run h (liftM p : DevEM α).run s = (.ok (run h p s).1, (run h p s).2) := by
  change run h (p >>= fun a => (.ret (Except.ok a) : DevM (Except Errno α))) s = _
  rw [run_bind]
  rfl

/-- A sequence that returned 0 has a first part that did, and so has the rest. -/
theorem run_except_bind_ok {s : σ} {p : DevEM α} {f : α → DevEM β} {b : β}
    (hok : (run h (p >>= f).run s).1 = .ok b) :
    ∃ a t, run h p.run s = (.ok a, t) ∧ (run h (f a).run t).1 = .ok b := by
  rw [run_except_bind] at hok
  cases hp : run h p.run s with
  | mk r t =>
      rw [hp] at hok
      cases r with
      | error e => exact absurd hok (by simp)
      | ok a => exact ⟨a, t, rfl, hok⟩

/-- A write that returned 0 went to a block of the device. -/
theorem lt_nblocks_of_bdevWrite {s t : σ} {dev : BlockDev} {b : UInt64} {buf : Block}
    (hok : run h (bdevWrite dev b buf).run s = (.ok (), t)) : b < dev.nblocks := by
  by_contra hge
  rw [bdevWrite, if_pos (by simpa using hge)] at hok
  have hfst : (Except.error Errno.einval : Except Errno Unit) = .ok () := congrArg Prod.fst hok
  cases hfst

end Sequencing
end Logfs
