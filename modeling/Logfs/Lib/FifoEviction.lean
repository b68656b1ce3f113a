import Mathlib

/-!
# Making room in a queue

Items of different sizes in a container of bounded capacity, the oldest first. Room for
another is made by dropping the oldest one after the other.
-/
namespace FifoEviction

variable {α : Type} (size : α → ℕ) {cap need : ℕ} {x : α} {xs ys : List α}

/-- What the items take up. -/
def used (xs : List α) : ℕ := (xs.map size).sum

/-- The items that remain when the oldest are dropped until `need` more fits. -/
def makeRoom (cap need : ℕ) : List α → List α
  | [] => []
  | x :: xs => if used size (x :: xs) + need ≤ cap then x :: xs else makeRoom cap need xs

variable {size}

theorem makeRoom_of_fits (h : used size xs + need ≤ cap) : makeRoom size cap need xs = xs := by
  cases xs with
  | nil => rfl
  | cons x xs => rw [makeRoom, if_pos h]

theorem makeRoom_of_full (h : ¬ used size (x :: xs) + need ≤ cap) :
    makeRoom size cap need (x :: xs) = makeRoom size cap need xs := by
  rw [makeRoom, if_neg h]

/-- Only the oldest are dropped. -/
theorem makeRoom_suffix (xs : List α) : makeRoom size cap need xs <:+ xs := by
  induction xs with
  | nil => exact List.suffix_refl _
  | cons x xs ih =>
      by_cases h : used size (x :: xs) + need ≤ cap
      · rw [makeRoom_of_fits h]
      · rw [makeRoom_of_full h]
        exact ih.trans (List.suffix_cons x xs)

/-- What fits the empty container finds room. -/
theorem used_makeRoom (h : need ≤ cap) (xs : List α) :
    used size (makeRoom size cap need xs) + need ≤ cap := by
  induction xs with
  | nil => simpa [makeRoom, used] using h
  | cons x xs ih =>
      by_cases hfits : used size (x :: xs) + need ≤ cap
      · rwa [makeRoom_of_fits hfits]
      · rwa [makeRoom_of_full hfits]

/-- No more are dropped than necessary. -/
theorem suffix_makeRoom (h : ys <:+ xs) (hfits : used size ys + need ≤ cap) :
    ys <:+ makeRoom size cap need xs := by
  induction xs with
  | nil => exact h
  | cons x xs ih =>
      by_cases hall : used size (x :: xs) + need ≤ cap
      · rwa [makeRoom_of_fits hall]
      · rw [makeRoom_of_full hall]
        rcases List.suffix_cons_iff.mp h with rfl | h
        · exact absurd hfits hall
        · exact ih h

/-- With one of the dropped items still there it would not fit. -/
theorem full_of_kept {us vs : List α} (h : xs = us ++ vs ++ makeRoom size cap need xs)
    (hne : vs ≠ []) : cap < used size (vs ++ makeRoom size cap need xs) + need := by
  by_contra hle
  have hsuffix : vs ++ makeRoom size cap need xs <:+ xs := ⟨us, by rw [← List.append_assoc, ← h]⟩
  have hlen := (suffix_makeRoom hsuffix (Nat.le_of_not_lt hle)).length_le
  rw [List.length_append] at hlen
  exact hne (List.length_eq_zero_iff.mp (by omega))

end FifoEviction
