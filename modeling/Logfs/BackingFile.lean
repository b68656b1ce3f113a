import Logfs.BlockDev
import Logfs.Lib.Contract
import Logfs.Lib.Transfer

/-!
# The block device over its backing file

`full_pread` and `full_pwrite` repeat `pread` and `pwrite` until a whole block has been moved. The host
may move fewer bytes than it is asked to, interrupt a call or fail. Whatever it does, a block read is
the block of the file, a block written is there as a whole, and one whose write has failed is torn at most:
its first bytes are new and the others old.
-/
namespace Logfs
open Interaction WriteCache ByteBuffer Transfer

/-! ## The file -/

structure HostFile where
  size : ℕ
  bytes : ℕ → UInt8

namespace HostFile

def byte (f : HostFile) (p : ℕ) : UInt8 := if p < f.size then f.bytes p else 0

/-- What `pwrite` leaves when it has moved `n` bytes of the buffer, those after the first `done`. -/
def store (f : HostFile) (pos : ℕ) (buf : Block) (done n : ℕ) : HostFile where
  size := max f.size (pos + done + n)
  bytes p := if pos + done ≤ p ∧ p < pos + done + n then byteAt buf (p - pos) else f.byte p

/-- `ftruncate`. -/
def truncate (f : HostFile) (size : ℕ) : HostFile := ⟨size, f.byte⟩

theorem byte_store (f : HostFile) (pos : ℕ) (buf : Block) (done n p : ℕ) :
    (f.store pos buf done n).byte p =
      if pos + done ≤ p ∧ p < pos + done + n then byteAt buf (p - pos) else f.byte p := by
  by_cases hin : pos + done ≤ p ∧ p < pos + done + n
  · have hlt : p < max f.size (pos + done + n) := lt_max_of_lt_right hin.2
    simp [byte, store, hin, hlt]
  · by_cases hp : p < f.size
    · simp [byte, store, hin, hp]
    · simp [byte, store, hin, hp]

end HostFile

/-- `(off_t)(blockno * LOGFS_BLOCK_SIZE)`. -/
def blockPos (blockno : UInt64) : ℕ := (blockno * 4096).toNat

/-- The file `logfs_bdev_open` leaves with `create` set. -/
def createdFile (f : HostFile) (nblocks : UInt64) : HostFile := f.truncate (blockPos nblocks)

/-- `logfs_bdev_open` of an existing image. -/
def bdevOpen (f : HostFile) : BlockDev := ⟨UInt64.ofNat f.size / 4096⟩

/-! ## The loops -/

/-- The rest of the buffer is zeros if the file is too short. -/
def preadMover (f : HostFile) (pos : ℕ) : Mover Block Errno where
  move buf done n := fun i => if done ≤ i.val ∧ i.val < done + n then f.byte (pos + i) else buf i
  stall buf done := (.ok (), fun i => if i.val < done then buf i else 0)

def pwriteMover (buf : Block) (pos : ℕ) : Mover HostFile Errno where
  move f done n := f.store pos buf done n
  stall f _ := (.error .eio, f)

def fullPread (f : HostFile) (buf : Block) (pos : ℕ) (as : List (Attempt Errno)) : Progress Block Errno :=
  transfer (preadMover f pos) blockSize as 0 buf

def fullPwrite (f : HostFile) (buf : Block) (pos : ℕ) (as : List (Attempt Errno)) : Progress HostFile Errno :=
  transfer (pwriteMover buf pos) blockSize as 0 f

/-- Neither loop takes more than a block's number of calls that are not interrupted. -/
theorem fullPread_returns (f : HostFile) (buf : Block) (pos : ℕ) {as : List (Attempt Errno)}
    (hcount : blockSize ≤ as.countP Attempt.uninterrupted) : (fullPread f buf pos as).result ≠ none :=
  transfer_ends (by simpa using hcount)

theorem fullPwrite_returns (f : HostFile) (buf : Block) (pos : ℕ) {as : List (Attempt Errno)}
    (hcount : blockSize ≤ as.countP Attempt.uninterrupted) : (fullPwrite f buf pos as).result ≠ none :=
  transfer_ends (by simpa using hcount)

/-- `pread` moves bytes the file has, and none only at its end. -/
def preadCan (faults : Prop) (f : HostFile) (pos : ℕ) (_ : Block) (done : ℕ) : Attempt Errno → Prop
  | .moved 0 => f.size ≤ pos + done
  | .moved n => done + n ≤ blockSize ∧ pos + done + n ≤ f.size
  | .interrupted => True
  | .failed _ => faults

/-- A host without faults always writes something. -/
def pwriteCan (faults : Prop) (_ : HostFile) (done : ℕ) : Attempt Errno → Prop
  | .moved 0 => faults
  | .moved n => done + n ≤ blockSize
  | .interrupted => True
  | .failed _ => faults

/-- The device operations as `blockdev.c` carries them out, on a host that may have `faults`. -/
def hostDevice (faults : Prop) : Environment (DevRes (A := UInt64) (B := Block) Errno) HostFile
  | .read b, f, r, f' => f' = f ∧ ∃ buf as,
      Possible (preadMover f (blockPos b)) blockSize (preadCan faults f (blockPos b)) as 0 buf ∧
        (fullPread f buf (blockPos b) as).result.map
          (fun rc => rc.map fun _ => (fullPread f buf (blockPos b) as).state) = some r
  | .write b data, f, r, f' => ∃ as,
      Possible (pwriteMover data (blockPos b)) blockSize (pwriteCan faults) as 0 f ∧
        (fullPwrite f data (blockPos b) as).result = some r ∧ (fullPwrite f data (blockPos b) as).state = f'
  | .flush, f, r, f' => f' = f ∧ (r = .ok () ∨ faults)

/-! ## Blocks -/

/-- The first `k` bytes are new. -/
def torn (k : ℕ) (new old : Block) : Block := fun i => if i.val < k then new i else old i

@[simp] theorem torn_blockSize (new old : Block) : torn blockSize new old = new := by
  funext i
  exact if_pos i.isLt

/-- A device whose failed writes may be torn. -/
def tornDevice : Environment (DevRes (A := UInt64) (B := Block) Errno) Image
  | .read b, v, r, v' => v' = v ∧ ∀ data, r = .ok data → data = v b
  | .write b data, v, r, v' =>
      r = .ok () ∧ v' = Function.update v b data ∨
        ∃ e k, r = .error e ∧ k < blockSize ∧ v' = Function.update v b (torn k data (v b))
  | .flush, v, _, v' => v' = v

/-- The blocks of the file. -/
def HostFile.image (f : HostFile) : Image := fun b i => f.byte (blockPos b + i)

/-- The file has the blocks of the device. -/
structure OnHost (dev : BlockDev) (f : HostFile) (v : Image) : Prop where
  whole : f.size / blockSize = dev.nblocks.toNat
  small : f.size < 2 ^ 63
  content : ∀ b < dev.nblocks, v b = f.image b

/-- The operation is on a block of the device. -/
def InDevice (dev : BlockDev) : DevOp UInt64 Block → Prop
  | .read b | .write b _ => b < dev.nblocks
  | .flush => True

section Blocks
variable {dev : BlockDev} {f f' : HostFile} {v : Image} {b : UInt64} {data : Block} {faults : Prop}

theorem OnHost.whole_le (h : OnHost dev f v) : dev.nblocks.toNat * blockSize ≤ f.size := by
  rw [← h.whole]
  exact Nat.div_mul_le_self _ _

theorem OnHost.blockPos_eq (h : OnHost dev f v) (hb : b < dev.nblocks) : blockPos b = b.toNat * blockSize := by
  have hlt := UInt64.lt_iff_toNat_lt.mp hb
  have hwhole := h.whole_le
  have hsmall := h.small
  have hfour : (4096 : UInt64).toNat = 4096 := rfl
  unfold blockSize at hwhole ⊢
  rw [blockPos, UInt64.toNat_mul, hfour, Nat.mod_eq_of_lt]
  omega

theorem OnHost.pos_le (h : OnHost dev f v) (hb : b < dev.nblocks) : blockPos b + blockSize ≤ f.size := by
  have hnext : b.toNat + 1 ≤ dev.nblocks.toNat := UInt64.lt_iff_toNat_lt.mp hb
  calc
    blockPos b + blockSize = (b.toNat + 1) * blockSize := by rw [h.blockPos_eq hb, Nat.succ_mul]
    _ ≤ dev.nblocks.toNat * blockSize := Nat.mul_le_mul_right _ hnext
    _ ≤ f.size := h.whole_le

/-- A block read is the block of the file. -/
theorem OnHost.read (h : OnHost dev f v) (hb : b < dev.nblocks) {r : Except Errno Block}
    (hnow : hostDevice faults (.read b) f r f') : f' = f ∧ ((∃ e, r = .error e) ∧ faults ∨ r = .ok (v b)) := by
  obtain ⟨rfl, buf, as, hpossible, hresult⟩ := hnow
  refine ⟨rfl, ?_⟩
  have hstands := stands_transfer (I := fun done buf => ∀ i : Fin 4096, i.val < done → buf i = f'.byte (blockPos b + i))
    (fun s done n hcan hinv => ?_) hpossible (Nat.zero_le _) (fun i hi => absurd hi (Nat.not_lt_zero _))
  · change Stands _ _ _ _ (fullPread f' buf (blockPos b) as) at hstands
    generalize fullPread f' buf (blockPos b) as = p at hstands hresult
    cases hstands with
    | going => cases hresult
    | whole inv =>
        right
        rw [← Option.some.inj hresult]
        refine congrArg Except.ok (funext fun i => ?_)
        exact (inv i i.isLt).trans (congrFun (h.content b hb) i).symm
    | failed _ _ now => exact .inl ⟨⟨_, (Option.some.inj hresult).symm⟩, now⟩
    | stalled _ short now =>
        -- the file does not end within the block
        have hend : f'.size ≤ blockPos b + _ := now
        have hpos := h.pos_le hb
        omega
  · refine ⟨hcan.1, fun i hi => ?_⟩
    simp only [preadMover]
    split
    · rfl
    · next hout => exact hinv i (by omega)

/-- What a file is after the first `k` bytes of the block have been written. -/
structure Written (f : HostFile) (pos : ℕ) (data : Block) (k : ℕ) (g : HostFile) : Prop where
  size : g.size = f.size
  byte : ∀ p, g.byte p = if pos ≤ p ∧ p < pos + k then byteAt data (p - pos) else f.byte p

theorem OnHost.written (h : OnHost dev f v) (hb : b < dev.nblocks) {k : ℕ} (hk : k ≤ blockSize)
    (hwritten : Written f (blockPos b) data k f') : OnHost dev f' (Function.update v b (torn k data (v b))) := by
  refine ⟨hwritten.size ▸ h.whole, hwritten.size ▸ h.small, fun b' hb' => funext fun i => ?_⟩
  have hsize : blockSize = 4096 := rfl
  have hi := i.isLt
  rw [HostFile.image, hwritten.byte, Function.update_apply]
  split
  · next he =>
      subst he
      unfold torn
      split
      · next hlt =>
          rw [if_pos (by omega), Nat.add_sub_cancel_left, byteAt, dif_pos hi]
      · next hge =>
          rw [if_neg (by omega), h.content b' hb]
          rfl
  · next hne =>
      have hto : b'.toNat ≠ b.toNat := fun he => hne (UInt64.toNat_inj.mp he)
      rw [if_neg, h.content b' hb']
      · rfl
      rw [h.blockPos_eq hb, h.blockPos_eq hb', hsize]
      omega

/-- A block written is there, or torn if the host has failed. -/
theorem OnHost.write (h : OnHost dev f v) (hb : b < dev.nblocks) {r : Except Errno Unit}
    (hnow : hostDevice faults (.write b data) f r f') :
    r = .ok () ∧ OnHost dev f' (Function.update v b data) ∨
      faults ∧ ∃ e k, r = .error e ∧ k < blockSize ∧ OnHost dev f' (Function.update v b (torn k data (v b))) := by
  obtain ⟨as, hpossible, hresult, hstate⟩ := hnow
  have hpos := h.pos_le hb
  have hstands := stands_transfer (I := fun done g => done ≤ blockSize ∧ Written f (blockPos b) data done g)
    (fun s done n hcan hinv => ?_) hpossible (Nat.zero_le _) ⟨Nat.zero_le _, rfl, fun p => by rw [if_neg (by omega)]⟩
  · change Stands _ _ _ _ (fullPwrite f data (blockPos b) as) at hstands
    generalize fullPwrite f data (blockPos b) as = p at hstands hresult hstate
    subst hstate
    cases hstands with
    | going => cases hresult
    | whole inv =>
        left
        have hfile := h.written hb inv.1 inv.2
        rw [torn_blockSize] at hfile
        exact ⟨(Option.some.inj hresult).symm, hfile⟩
    | failed inv short now =>
        exact .inr ⟨now, _, _, (Option.some.inj hresult).symm, short, h.written hb inv.1 inv.2⟩
    | stalled inv short now =>
        exact .inr ⟨now, _, _, (Option.some.inj hresult).symm, short, h.written hb inv.1 inv.2⟩
  · obtain ⟨hle, hsize, hbyte⟩ := hinv
    have hcan' : done + (n + 1) ≤ blockSize := hcan
    refine ⟨hcan', hcan', ?_, fun p => ?_⟩
    · change max s.size (blockPos b + done + (n + 1)) = f.size
      rw [hsize]
      omega
    · change (s.store (blockPos b) data done (n + 1)).byte p = _
      rw [HostFile.byte_store, hbyte]
      split_ifs <;> first | rfl | omega

/-- A file that is opened is a device. -/
theorem onHost_bdevOpen (hsmall : f.size < 2 ^ 63) : OnHost (bdevOpen f) f f.image where
  whole := by
    have hfour : (4096 : UInt64).toNat = 4096 := rfl
    rw [bdevOpen, UInt64.toNat_div, UInt64.toNat_ofNat_of_lt' (by unfold UInt64.size; omega), hfour]
    rfl
  small := hsmall
  content _ _ := rfl

theorem OnHost.bdevOpen_eq (h : OnHost dev f v) : bdevOpen f = dev := by
  have hopened := (onHost_bdevOpen h.small).whole
  rw [h.whole] at hopened
  exact congrArg BlockDev.mk (UInt64.toNat_inj.mp hopened.symm)

/-- A file that has just been created is one as well. -/
theorem onHost_createdFile {nblocks : UInt64} (hsize : nblocks.toNat * blockSize < 2 ^ 63) :
    OnHost ⟨nblocks⟩ (createdFile f nblocks) (createdFile f nblocks).image := by
  have hpos : (createdFile f nblocks).size = nblocks.toNat * blockSize := by
    have hfour : (4096 : UInt64).toNat = 4096 := rfl
    unfold blockSize at hsize ⊢
    change (nblocks * 4096).toNat = _
    rw [UInt64.toNat_mul, hfour, Nat.mod_eq_of_lt]
    omega
  refine ⟨?_, hpos ▸ hsize, fun _ _ => rfl⟩
  rw [hpos]
  exact Nat.mul_div_cancel _ (by decide)

end Blocks

/-! ## Programs over the device -/

section Programs
variable {dev : BlockDev} {f f' : HostFile} {v : Image} {c : Disk} {α β : Type} {p : DevM α} {a : α} {Q : α → Prop}

/-- Whatever the host does. -/
theorem refinesOn_torn (faults : Prop) : RefinesOn (InDevice dev) (hostDevice faults) tornDevice (OnHost dev) := by
  intro o ho f r f' v h hnow
  cases o with
  | read b =>
      obtain ⟨rfl, ⟨⟨e, rfl⟩, -⟩ | rfl⟩ := h.read ho hnow
      · exact ⟨v, ⟨rfl, fun data hdata => by cases hdata⟩, h⟩
      · exact ⟨v, ⟨rfl, fun data hdata => (Except.ok.inj hdata).symm⟩, h⟩
  | write b data =>
      rcases h.write ho hnow with ⟨rfl, hfile⟩ | ⟨-, e, k, rfl, hk, hfile⟩
      · exact ⟨_, .inl ⟨rfl, rfl⟩, hfile⟩
      · exact ⟨_, .inr ⟨e, k, rfl, hk, rfl⟩, hfile⟩
  | flush =>
      obtain ⟨rfl, -⟩ := hnow
      exact ⟨v, rfl, h⟩

/-- A host without faults. -/
theorem refinesOn_faultless : RefinesOn (InDevice dev) (hostDevice False)
    (replying faultless) (fun f (c : Disk) => OnHost dev f c.view) := by
  intro o ho f r f' c h hnow
  cases o with
  | read b =>
      obtain ⟨rfl, ⟨-, hno⟩ | rfl⟩ := h.read ho hnow
      · exact hno.elim
      · exact ⟨c, rfl, h⟩
  | write b data =>
      rcases h.write ho hnow with ⟨rfl, hfile⟩ | ⟨hno, -⟩
      · refine ⟨c.write b data, rfl, ?_⟩
        change OnHost dev f' (c.write b data).view
        rwa [view_write]
      · exact hno.elim
  | flush =>
      obtain ⟨rfl, rfl | hno⟩ := hnow
      · exact ⟨c.flush, rfl, h⟩
      · exact hno.elim

/-- Over a host that only moves less than it is asked to, or interrupts, a program does what it does over
the device of whole blocks. -/
theorem run_of_host (hp : Confined (InDevice dev) Q p) (h : OnHost dev f c.view)
    (hrun : Interaction.Outcome (hostDevice False) p f a f') :
    a = (run faultless p c).1 ∧ OnHost dev f' (run faultless p c).2.view := by
  obtain ⟨c', hout, hfile⟩ := refinesOn_faultless.outcome hp h hrun
  rw [hout.run_eq]
  exact ⟨rfl, hfile⟩

/-- Such a host can carry out each operation, in one attempt. -/
theorem OnHost.serves (h : OnHost dev f v) {o : DevOp UInt64 Block} (ho : InDevice dev o) :
    ∃ r f', hostDevice False o f r f' := by
  cases o with
  | read b =>
      have hcan : preadCan False f (blockPos b) zeroBlock 0 (.moved blockSize) := ⟨le_rfl, by simpa using h.pos_le ho⟩
      have honce := transfer_once (M := preadMover f (blockPos b)) (s := zeroBlock) (show 0 < blockSize by decide)
      refine ⟨.ok ((preadMover f (blockPos b)).move zeroBlock 0 blockSize), f, rfl, zeroBlock, [.moved blockSize],
        possible_once hcan, ?_⟩
      unfold fullPread
      rw [honce]
      rfl
  | write b data =>
      have hcan : pwriteCan False f 0 (.moved blockSize) := le_rfl
      have honce := transfer_once (M := pwriteMover data (blockPos b)) (s := f) (show 0 < blockSize by decide)
      refine ⟨.ok (), _, [.moved blockSize], possible_once hcan, ?_, rfl⟩
      unfold fullPwrite
      rw [honce]
      rfl
  | flush => exact ⟨.ok (), f, rfl, .inl rfl⟩

theorem exists_outcome (hp : Confined (InDevice dev) Q p) (h : OnHost dev f c.view) :
    ∃ f', Interaction.Outcome (hostDevice False) p f (run faultless p c).1 f' ∧ OnHost dev f' (run faultless p c).2.view := by
  induction p generalizing f c with
  | ret a => exact ⟨f, .ret _ _, h⟩
  | op o k ih =>
      obtain ⟨r, f₁, hnow⟩ := h.serves hp.1
      obtain ⟨c₁, hans, hfile⟩ := refinesOn_faultless o hp.1 f r f₁ c h hnow
      obtain ⟨f', hrest, hlast⟩ := ih r (hp.2 r) hfile
      rw [run_op, hans]
      exact ⟨f', .op hnow hrest, hlast⟩

/-- Whatever the host does to a program's calls, blocks are read as they are, and those written are there as
a whole, or torn where the write has failed; the file keeps its blocks. -/
theorem outcome_of_host (hp : Confined (InDevice dev) (fun _ => True) p) (h : OnHost dev f v)
    (hrun : Interaction.Outcome (hostDevice True) p f a f') :
    ∃ v', Interaction.Outcome tornDevice p v a v' ∧ OnHost dev f' v' :=
  (refinesOn_torn True).outcome hp h hrun

end Programs

/-- A write of which the host takes the first hundred bytes, after an interruption. -/
theorem outcome_torn : ∃ f' v', Interaction.Outcome tornDevice (.op (.write 0 (fun _ => 1)) .ret : DevM (Except Errno Unit))
    (fun _ => zeroBlock) (.error .enospc) v' ∧ OnHost ⟨2⟩ f' v' := by
  have hfile : OnHost ⟨2⟩ ⟨8192, fun _ => 0⟩ fun _ => zeroBlock := by
    refine ⟨by decide, by decide, fun b _ => funext fun i => ?_⟩
    simp [HostFile.image, HostFile.byte, zeros]
  have hmoved : pwriteCan True ⟨8192, fun _ => 0⟩ 0 (.moved 100) := (by decide : 0 + 100 ≤ blockSize)
  have hin : (0 : UInt64) < 2 := by decide
  exact ⟨_, outcome_of_host ⟨hin, fun _ => trivial⟩ hfile (.op ⟨[.interrupted, .moved 100, .failed .enospc],
    fun _ => ⟨trivial, fun _ => ⟨hmoved, fun _ => ⟨trivial, trivial⟩⟩⟩, rfl, rfl⟩ (.ret _ _))⟩

end Logfs
