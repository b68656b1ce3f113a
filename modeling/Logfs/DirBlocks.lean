import Logfs.Inodes

/-!
# Directory blocks

What the stores of `inode.c` and `fs_ops.c` into a directory block make of its slots.
-/
namespace Logfs
open ByteBuffer

/-- The name as far as `name_len` goes. -/
def Dirent.text (d : Dirent) : List UInt8 := d.name.take d.nameLen.toNat

section Bytes
variable {α : Type} [Scalar α] (b : Block) {off : ℕ} (a : α)

theorem byteAt_store_of_disjoint {i : ℕ} (h : i < off ∨ off + Scalar.width α ≤ i) :
    byteAt (store b off a) i = byteAt b i := by
  rw [store, put, byteAt_splice, if_neg (by rw [length_leBytes]; omega)]

theorem slice_store_of_disjoint {off' len : ℕ} (h : off' + len ≤ off ∨ off + Scalar.width α ≤ off') :
    slice (store b off a) off' len = slice b off' len := by
  rw [store, put, slice_splice_of_disjoint]
  rwa [length_leBytes]

theorem byteAt_splice_of_disjoint {bs : List UInt8} {i : ℕ} (h : i < off ∨ off + bs.length ≤ i) :
    byteAt (splice b off bs) i = byteAt b i := by
  rw [byteAt_splice, if_neg (by omega)]

end Bytes

/-- The slot's bytes are as they were. -/
theorem direntAt_congr {b c : Block} {e : ℕ} (hino : load UInt32 b (64 * e) = load UInt32 c (64 * e))
    (hlen : byteAt b (64 * e + 4) = byteAt c (64 * e + 4))
    (htype : byteAt b (64 * e + 5) = byteAt c (64 * e + 5))
    (hname : slice b (64 * e + 8) (nameMax + 1) = slice c (64 * e + 8) (nameMax + 1)) :
    direntAt b e = direntAt c e := by
  rw [direntAt, direntAt, hino, hlen, htype, hname]

variable (ents : Block) {e e' : ℕ} (ino : UInt32) (fileType : UInt8) {name : List UInt8}

theorem direntAt_splice_of_ne {bs : List UInt8} (hlen : bs.length ≤ nameMax + 1) (hne : e' ≠ e) :
    direntAt (splice ents (64 * e + 8) bs) e' = direntAt ents e' := by
  rw [nameMax] at hlen
  apply direntAt_congr
  · exact load_splice_of_disjoint _ _ (by simp; omega)
  · exact byteAt_splice_of_disjoint _ (by omega)
  · exact byteAt_splice_of_disjoint _ (by omega)
  · exact slice_splice_of_disjoint _ (by rw [nameMax]; omega)

theorem direntAt_setDirent_of_ne (hlen : name.length ≤ nameMax) (hne : e' ≠ e) :
    direntAt (setDirent ents e ino fileType name) e' = direntAt ents e' := by
  rw [setDirent, direntAt_splice_of_ne _ (by omega) hne]
  apply direntAt_congr
  · simp (disch := simp <;> omega) only [load_store_of_disjoint]
  · simp (disch := simp <;> omega) only [byteAt_store_of_disjoint]
  · simp (disch := simp <;> omega) only [byteAt_store_of_disjoint]
  · simp (disch := simp [nameMax] <;> omega) only [slice_store_of_disjoint]

section Slot
variable (he : e < direntsPerBlock)
include he

theorem direntAt_setDirent_ino : (direntAt (setDirent ents e ino fileType name) e).ino = ino := by
  rw [direntsPerBlock] at he
  change load UInt32 (setDirent ents e ino fileType name) (64 * e) = ino
  rw [setDirent, load_splice_of_disjoint _ _ (by simp), load_store_of_disjoint _ _ (by simp),
    load_store_of_disjoint _ _ (by simp), load_store _ _ _ (by simp; omega)]

theorem direntAt_setDirent_nameLen :
    (direntAt (setDirent ents e ino fileType name) e).nameLen = UInt8.ofNat name.length := by
  rw [direntsPerBlock] at he
  change byteAt (setDirent ents e ino fileType name) (64 * e + 4) = _
  rw [setDirent, byteAt_splice_of_disjoint _ (by omega),
    byteAt_store_of_disjoint _ _ (by simp), byteAt_store_byte _ (by omega), if_pos rfl]

theorem direntAt_setDirent_fileType :
    (direntAt (setDirent ents e ino fileType name) e).fileType = fileType := by
  rw [direntsPerBlock] at he
  change byteAt (setDirent ents e ino fileType name) (64 * e + 5) = _
  rw [setDirent, byteAt_splice_of_disjoint _ (by omega), byteAt_store_byte _ (by omega), if_pos rfl]

theorem direntAt_setDirent_text (hlen : name.length ≤ nameMax) :
    (direntAt (setDirent ents e ino fileType name) e).text = name := by
  have hnum : (UInt8.ofNat name.length).toNat = name.length := by
    rw [UInt8.toNat_ofNat', Nat.mod_eq_of_lt]
    rw [nameMax] at hlen
    omega
  rw [Dirent.text, direntAt_setDirent_nameLen ents ino fileType he, hnum]
  change (slice (setDirent ents e ino fileType name) (64 * e + 8) (nameMax + 1)).take name.length = name
  have htake : ∀ (c : Block) (off : ℕ),
      (slice c off (nameMax + 1)).take name.length = slice c off name.length := by
    intro c off
    rw [slice, slice, ← List.map_take, List.take_range, min_eq_left (by omega)]
  rw [htake, setDirent, slice_splice_same]
  rw [direntsPerBlock] at he
  rw [nameMax] at hlen
  omega

end Slot

/-! ## Reuse and removal -/

theorem direntAt_reuseDirent_of_ne (hlen : name.length ≤ nameMax) (hne : e' ≠ e) :
    direntAt (reuseDirent ents e ino fileType name) e' = direntAt ents e' := by
  rw [reuseDirent, direntAt_setDirent_of_ne _ _ _ hlen hne, direntAt_splice_of_ne _ (by simp) hne]

theorem direntAt_clear_of_ne (hne : e' ≠ e) :
    direntAt (store ents (64 * e) (0 : UInt32)) e' = direntAt ents e' := by
  apply direntAt_congr
  · simp (disch := simp <;> omega) only [load_store_of_disjoint]
  · simp (disch := simp <;> omega) only [byteAt_store_of_disjoint]
  · simp (disch := simp <;> omega) only [byteAt_store_of_disjoint]
  · simp (disch := simp [nameMax] <;> omega) only [slice_store_of_disjoint]

theorem direntAt_clear (he : e < direntsPerBlock) :
    (direntAt (store ents (64 * e) (0 : UInt32)) e).ino = 0 := by
  rw [direntsPerBlock] at he
  exact load_store _ _ _ (by simp; omega)

@[simp] theorem direntAt_zeroBlock_ino (e : ℕ) : (direntAt zeroBlock e).ino = 0 := by
  simp [direntAt, load, get_zeros, Scalar.ofNat]

/-! ## Searching by name -/

theorem length_direntAt_name (e : ℕ) : (direntAt ents e).name.length = nameMax + 1 := length_slice _ _ _

/-- A name no longer than `nameMax` matches the whole text of the entry. -/
theorem isNamed_iff {d : Dirent} (hd : d.name.length = nameMax + 1) (hlen : name.length ≤ nameMax) :
    d.isNamed name = true ↔ d.ino ≠ 0 ∧ d.text = name := by
  simp only [Dirent.isNamed, Dirent.text, Bool.and_eq_true, bne_iff_ne, beq_iff_eq, and_assoc]
  refine and_congr_right fun _ => ?_
  constructor
  · rintro ⟨hn, ht⟩
    rw [hn, ht]
  · intro ht
    have hl := congrArg List.length ht
    rw [List.length_take, hd] at hl
    have hn : d.nameLen.toNat = name.length := by omega
    exact ⟨hn, by rw [← hn, ht]⟩

theorem isProper_iff {d : Dirent} (hd : d.name.length = nameMax + 1) :
    d.isProper = true ↔ d.ino ≠ 0 ∧ d.text ≠ dotName ∧ d.text ≠ dotDotName := by
  obtain ⟨dino, nameLen, dtype, dname⟩ := d
  rcases dname with _ | ⟨x, _ | ⟨y, _ | ⟨z, rest⟩⟩⟩
  · simp at hd
  · simp [nameMax] at hd
  · simp [nameMax] at hd
  · have hlen : ∀ k : UInt8, nameLen = k ↔ nameLen.toNat = k.toNat := fun k => UInt8.toNat_inj.symm
    simp only [Dirent.isProper, Dirent.text, dotName, dotDotName, Bool.and_eq_true, Bool.not_eq_true',
      Bool.and_eq_false_iff, bne_iff_ne, beq_eq_false_iff_ne, and_assoc, ne_eq, hlen]
    generalize nameLen.toNat = n
    refine and_congr_right fun _ => ?_
    rcases n with _ | _ | _ | n <;> simp [or_iff_not_imp_left]

end Logfs
