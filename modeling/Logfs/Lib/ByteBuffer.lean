import Mathlib

/-!
# Fixed-size byte buffers

A buffer of `n` bytes with copies in and out of it (`slice`, `splice`) and
little-endian integers of any width stored at byte offsets. Reads past the end
give zero bytes and writes past the end are dropped, so every function is total;
the read-back laws carry the bounds.
-/
namespace ByteBuffer

/-- Exactly `n` bytes. -/
abbrev Buf (n : ℕ) := Fin n → UInt8

variable {n : ℕ}

def zeros (n : ℕ) : Buf n := fun _ => 0

def byteAt (b : Buf n) (i : ℕ) : UInt8 := if h : i < n then b ⟨i, h⟩ else 0

/-- The `len` bytes from `off` on, as a copy out of the buffer. -/
def slice (b : Buf n) (off len : ℕ) : List UInt8 :=
  (List.range len).map fun k => byteAt b (off + k)

/-- The buffer after `bs` was copied in at `off`. -/
def splice (b : Buf n) (off : ℕ) (bs : List UInt8) : Buf n := fun i =>
  if off ≤ i.val ∧ i.val < off + bs.length then bs.getD (i.val - off) 0 else b i

theorem ext_byteAt {a b : Buf n} (h : ∀ i < n, byteAt a i = byteAt b i) : a = b := by
  funext i
  simpa [byteAt] using h i.val i.isLt

@[simp] theorem byteAt_zeros (i : ℕ) : byteAt (zeros n) i = 0 := by
  simp [byteAt, zeros]

theorem byteAt_of_ge {b : Buf n} {i : ℕ} (h : n ≤ i) : byteAt b i = 0 := by
  simp [byteAt, Nat.not_lt.mpr h]

theorem byteAt_splice (b : Buf n) (off : ℕ) (bs : List UInt8) (i : ℕ) :
    byteAt (splice b off bs) i =
      if i < n ∧ off ≤ i ∧ i < off + bs.length then bs.getD (i - off) 0 else byteAt b i := by
  by_cases hi : i < n
  · simp [byteAt, splice, hi]
  · simp [byteAt, hi]

@[simp] theorem length_slice (b : Buf n) (off len : ℕ) : (slice b off len).length = len := by
  simp [slice]

theorem getElem?_slice (b : Buf n) (off len k : ℕ) :
    (slice b off len)[k]? = if k < len then some (byteAt b (off + k)) else none := by
  simp only [slice, List.getElem?_map]
  split
  · rename_i h; simp [List.getElem?_range h]
  · rename_i h
    rw [List.getElem?_eq_none (by simpa using Nat.not_lt.mp h)]
    rfl

theorem slice_congr {a b : Buf n} {off off' len : ℕ}
    (h : ∀ k < len, byteAt a (off + k) = byteAt b (off' + k)) :
    slice a off len = slice b off' len := by
  apply List.map_congr_left
  intro k hk
  exact h k (List.mem_range.mp hk)

/-- A read inside a copied range sees the copied bytes. -/
theorem slice_splice_sub (b : Buf n) {off : ℕ} {bs : List UInt8} (hfit : off + bs.length ≤ n)
    {i len : ℕ} (hsub : i + len ≤ bs.length) :
    slice (splice b off bs) (off + i) len = (bs.drop i).take len := by
  apply List.ext_getElem?
  intro k
  rw [getElem?_slice, List.getElem?_take]
  split
  · rename_i hk
    rw [byteAt_splice, if_pos (by omega), List.getElem?_drop,
      show off + i + k - off = i + k by omega, List.getD_eq_getElem?_getD]
    rw [List.getElem?_eq_getElem (by omega)]
    rfl
  · rfl

theorem slice_splice_same (b : Buf n) {off : ℕ} {bs : List UInt8} (hfit : off + bs.length ≤ n) :
    slice (splice b off bs) off bs.length = bs := by
  have h := slice_splice_sub b hfit (show 0 + bs.length ≤ bs.length by omega)
  simpa using h

/-- A read beside a copied range does not see the copy. -/
theorem slice_splice_of_disjoint (b : Buf n) {off off' len : ℕ} {bs : List UInt8}
    (h : off' + len ≤ off ∨ off + bs.length ≤ off') :
    slice (splice b off bs) off' len = slice b off' len := by
  apply slice_congr
  intro k hk
  rw [byteAt_splice, if_neg (by omega)]

@[simp] theorem splice_nil (b : Buf n) (off : ℕ) : splice b off [] = b := by
  funext i
  simp only [splice, List.length_nil]
  rw [if_neg (by omega)]

/-! ## Little-endian integers -/

/-- The `w` low-order bytes of `v`, least significant first. -/
def leBytes : ℕ → ℕ → List UInt8
  | 0, _ => []
  | w + 1, v => UInt8.ofNat v :: leBytes w (v / 256)

def leNat : List UInt8 → ℕ
  | [] => 0
  | b :: bs => b.toNat + 256 * leNat bs

@[simp] theorem length_leBytes (w v : ℕ) : (leBytes w v).length = w := by
  induction w generalizing v with
  | zero => rfl
  | succ w ih => simp [leBytes, ih]

theorem leNat_leBytes (w v : ℕ) : leNat (leBytes w v) = v % 256 ^ w := by
  induction w generalizing v with
  | zero => simp [leBytes, leNat, Nat.mod_one]
  | succ w ih =>
      have hbyte : (UInt8.ofNat v).toNat = v % 256 := UInt8.toNat_ofNat'
      rw [leBytes, leNat, ih, hbyte, Nat.pow_succ, Nat.mul_comm (256 ^ w) 256, Nat.mod_mul]

theorem leNat_lt (bs : List UInt8) : leNat bs < 256 ^ bs.length := by
  induction bs with
  | nil => simp [leNat]
  | cons b bs ih =>
      have hb := b.toNat_lt
      simp only [leNat, List.length_cons, pow_succ]
      omega

theorem leBytes_leNat (bs : List UInt8) : leBytes bs.length (leNat bs) = bs := by
  induction bs with
  | nil => rfl
  | cons b bs ih =>
      have hb : b.toNat < 256 := b.toNat_lt
      simp only [List.length_cons, leBytes, leNat]
      rw [show (b.toNat + 256 * leNat bs) / 256 = leNat bs by omega, ih]
      congr 1
      apply UInt8.toNat_inj.mp
      rw [UInt8.toNat_ofNat']
      omega

/-- The `w`-byte little-endian number at `off`. -/
def get (w : ℕ) (b : Buf n) (off : ℕ) : ℕ := leNat (slice b off w)

def put (w : ℕ) (b : Buf n) (off v : ℕ) : Buf n := splice b off (leBytes w v)

theorem get_put (w : ℕ) (b : Buf n) {off v : ℕ} (hfit : off + w ≤ n) (hv : v < 256 ^ w) :
    get w (put w b off v) off = v := by
  have h := slice_splice_same b (show off + (leBytes w v).length ≤ n by simpa using hfit)
  rw [length_leBytes] at h
  rw [get, put, h, leNat_leBytes, Nat.mod_eq_of_lt hv]

theorem get_put_of_disjoint {w w' : ℕ} (b : Buf n) {off off' v : ℕ}
    (h : off' + w' ≤ off ∨ off + w ≤ off') :
    get w' (put w b off v) off' = get w' b off' := by
  rw [get, put, slice_splice_of_disjoint b (by simpa using h), get]

theorem get_splice_of_disjoint {w : ℕ} (b : Buf n) {off off' : ℕ} {bs : List UInt8}
    (h : off' + w ≤ off ∨ off + bs.length ≤ off') :
    get w (splice b off bs) off' = get w b off' := by
  rw [get, slice_splice_of_disjoint b h, get]

theorem get_zeros (w off : ℕ) : get w (zeros n) off = 0 := by
  have h : ∀ k, leNat (List.replicate k 0) = 0 := by
    intro k
    induction k with
    | zero => rfl
    | succ k ih => simp [List.replicate_succ, leNat, ih]
  simp [get, slice, h]

/-- A table of `w`-byte numbers, laid out one after the other. -/
def leTable (w : ℕ) (vs : List ℕ) : List UInt8 := vs.flatMap (leBytes w)

@[simp] theorem length_leTable (w : ℕ) (vs : List ℕ) : (leTable w vs).length = w * vs.length := by
  induction vs with
  | nil => simp [leTable]
  | cons v vs ih =>
      simp only [leTable, List.flatMap_cons, List.length_append, length_leBytes,
        List.length_cons] at ih ⊢
      rw [ih, Nat.mul_add, Nat.mul_one, Nat.add_comm]

theorem leTable_entry (w : ℕ) (vs : List ℕ) {i v : ℕ} (hv : vs[i]? = some v) :
    ((leTable w vs).drop (w * i)).take w = leBytes w v := by
  induction vs generalizing i with
  | nil => simp at hv
  | cons u vs ih =>
      cases i with
      | zero =>
          simp only [List.getElem?_cons_zero, Option.some.injEq] at hv
          subst hv
          simp [leTable]
      | succ i =>
          rw [List.getElem?_cons_succ] at hv
          have hdrop : (leTable w (u :: vs)).drop (w * (i + 1)) = (leTable w vs).drop (w * i) := by
            simp only [leTable, List.flatMap_cons]
            rw [List.drop_append, List.drop_eq_nil_of_le (by simp; nlinarith), length_leBytes,
              Nat.mul_succ, Nat.add_sub_cancel, List.nil_append]
          rw [hdrop, ih hv]

/-- Entry `i` of a table copied in at `off` is read back at `off + w * i`. -/
theorem get_splice_leTable {w : ℕ} (b : Buf n) {off : ℕ} {vs : List ℕ}
    (hfit : off + w * vs.length ≤ n) {i v : ℕ} (hv : vs[i]? = some v) (hlt : v < 256 ^ w) :
    get w (splice b off (leTable w vs)) (off + w * i) = v := by
  have hi : i < vs.length := (List.getElem?_eq_some_iff.mp hv).1
  have hsub : w * i + w ≤ (leTable w vs).length := by
    rw [length_leTable, ← Nat.mul_succ]
    exact Nat.mul_le_mul_left w hi
  rw [get, slice_splice_sub b (by simpa using hfit) hsub, leTable_entry w vs hv, leNat_leBytes,
    Nat.mod_eq_of_lt hlt]

/-! ## Scalars and arrays of scalars -/

/-- A fixed-width unsigned integer type. -/
class Scalar (α : Type) where
  width : ℕ
  toNat : α → ℕ
  ofNat : ℕ → α
  toNat_lt : ∀ a, toNat a < 256 ^ width
  ofNat_toNat : ∀ a, ofNat (toNat a) = a

instance : Scalar UInt8 := ⟨1, UInt8.toNat, UInt8.ofNat, UInt8.toNat_lt, fun _ => UInt8.ofNat_toNat⟩

instance : Scalar UInt32 :=
  ⟨4, UInt32.toNat, UInt32.ofNat, UInt32.toNat_lt, fun _ => UInt32.ofNat_toNat⟩

instance : Scalar UInt64 :=
  ⟨8, UInt64.toNat, UInt64.ofNat, UInt64.toNat_lt, fun _ => UInt64.ofNat_toNat⟩

@[simp] theorem width_uint8 : Scalar.width UInt8 = 1 := rfl

@[simp] theorem width_uint32 : Scalar.width UInt32 = 4 := rfl

@[simp] theorem width_uint64 : Scalar.width UInt64 = 8 := rfl

section Scalars
variable {α β : Type} [Scalar α] [Scalar β]

def load (α : Type) [Scalar α] (b : Buf n) (off : ℕ) : α := Scalar.ofNat (get (Scalar.width α) b off)

def store (b : Buf n) (off : ℕ) (a : α) : Buf n := put (Scalar.width α) b off (Scalar.toNat a)

/-- An array of scalars copied in at `off`. -/
def storeArray (b : Buf n) (off : ℕ) (as : List α) : Buf n :=
  splice b off (leTable (Scalar.width α) (as.map Scalar.toNat))

@[simp] theorem load_store (b : Buf n) (off : ℕ) (a : α) (hfit : off + Scalar.width α ≤ n) :
    load α (store b off a) off = a := by
  rw [load, store, get_put _ _ hfit (Scalar.toNat_lt a), Scalar.ofNat_toNat]

theorem load_store_of_disjoint (b : Buf n) {off off' : ℕ} (a : α)
    (h : off' + Scalar.width β ≤ off ∨ off + Scalar.width α ≤ off') :
    load β (store b off a) off' = load β b off' := by
  rw [load, store, get_put_of_disjoint b h, load]

theorem load_storeArray_of_disjoint (b : Buf n) {off off' : ℕ} (as : List α)
    (h : off' + Scalar.width β ≤ off ∨ off + Scalar.width α * as.length ≤ off') :
    load β (storeArray b off as) off' = load β b off' := by
  rw [load, storeArray, get_splice_of_disjoint b (by simpa using h), load]

theorem load_storeArray (b : Buf n) {off : ℕ} {as : List α}
    (hfit : off + Scalar.width α * as.length ≤ n) {i : ℕ} {a : α} (ha : as[i]? = some a) :
    load α (storeArray b off as) (off + Scalar.width α * i) = a := by
  have hv : (as.map Scalar.toNat)[i]? = some (Scalar.toNat a) := by
    rw [List.getElem?_map, ha]
    rfl
  rw [load, storeArray, get_splice_leTable b (by simpa using hfit) hv (Scalar.toNat_lt a),
    Scalar.ofNat_toNat]

theorem load_splice_of_disjoint (b : Buf n) {off off' : ℕ} (bs : List UInt8)
    (h : off' + Scalar.width β ≤ off ∨ off + bs.length ≤ off') :
    load β (splice b off bs) off' = load β b off' := by
  rw [load, get_splice_of_disjoint b h, load]

end Scalars

attribute [irreducible] load store storeArray splice

end ByteBuffer
