import Mathlib.Logic.Function.Basic
import Mathlib.Data.List.Nodup

/-!
# Tables of slots

A map kept as a table of slots, each empty or with a key and its value, where no key has two slots.
Which slot a key is in is no part of the map.
-/
namespace SlotTable

variable {S K A : Type} {t : S → Option (K × A)} {m : K → Option A} {s : S} {k : K} {a : A}

structure Represents (t : S → Option (K × A)) (m : K → Option A) : Prop where
  sound : ∀ {s k a}, t s = some (k, a) → m k = some a
  complete : ∀ {k a}, m k = some a → ∃ s, t s = some (k, a)
  unique : ∀ {s s' k a b}, t s = some (k, a) → t s' = some (k, b) → s = s'

/-- Distinct keys are all a table needs. -/
theorem exists_represents (hunique : ∀ {s s' k a b}, t s = some (k, a) → t s' = some (k, b) → s = s') :
    ∃ m, Represents t m := by
  classical
  refine ⟨fun k => if h : ∃ a, ∃ s, t s = some (k, a) then some h.choose else none, ?_, ?_, hunique⟩
  · intro s k a hs
    have hk : ∃ a, ∃ s, t s = some (k, a) := ⟨a, s, hs⟩
    obtain ⟨s', hs'⟩ := hk.choose_spec
    obtain rfl := hunique hs hs'
    rw [dif_pos hk]
    rw [hs] at hs'
    exact congrArg some (Prod.mk.inj (Option.some.inj hs')).2.symm
  · intro k a hk
    split at hk
    · next h =>
        obtain ⟨s, hs⟩ := h.choose_spec
        cases hk
        exact ⟨s, hs⟩
    · cases hk

namespace Represents

theorem isSome_iff (h : Represents t m) : (m k).isSome ↔ ∃ s a, t s = some (k, a) := by
  rw [Option.isSome_iff_exists]
  constructor
  · rintro ⟨a, ha⟩
    obtain ⟨s, hs⟩ := h.complete ha
    exact ⟨s, a, hs⟩
  · rintro ⟨s, a, hs⟩
    exact ⟨a, h.sound hs⟩

theorem eq_none_iff (h : Represents t m) : m k = none ↔ ∀ s a, t s ≠ some (k, a) := by
  rw [← Option.not_isSome_iff_eq_none, h.isSome_iff]
  simp

variable [DecidableEq S] [DecidableEq K]

theorem insert (h : Represents t m) (hfree : t s = none) (hnew : m k = none) :
    Represents (Function.update t s (some (k, a))) (Function.update m k (some a)) where
  sound := by
    intro s' k' a' hs'
    rw [Function.update_apply] at hs' ⊢
    split at hs'
    · cases hs'
      rw [if_pos rfl]
    · rw [if_neg]
      · exact h.sound hs'
      · rintro rfl
        cases hnew.symm.trans (h.sound hs')
  complete := by
    intro k' a' hk'
    rw [Function.update_apply] at hk'
    split at hk'
    · next heq =>
        cases hk'
        exact ⟨s, by rw [heq, Function.update_self]⟩
    · obtain ⟨s', hs'⟩ := h.complete hk'
      refine ⟨s', ?_⟩
      rw [Function.update_of_ne]
      · exact hs'
      · rintro rfl
        cases hfree.symm.trans hs'
  unique := by
    have hother : ∀ {s' b}, Function.update t s (some (k, a)) s' = some (k, b) → s' = s := by
      intro s' b hs'
      by_contra hne
      rw [Function.update_of_ne hne] at hs'
      cases hnew.symm.trans (h.sound hs')
    intro s₁ s₂ k' b b' h₁ h₂
    by_cases hk : k' = k
    · subst hk
      rw [hother h₁, hother h₂]
    · rw [Function.update_apply] at h₁ h₂
      split at h₁
      · cases h₁
        exact absurd rfl hk
      · split at h₂
        · cases h₂
          exact absurd rfl hk
        · exact h.unique h₁ h₂

theorem erase (h : Represents t m) (hs : t s = some (k, a)) :
    Represents (Function.update t s none) (Function.update m k none) where
  sound := by
    intro s' k' a' hs'
    rw [Function.update_apply] at hs'
    split at hs'
    · cases hs'
    · next hne =>
        rw [Function.update_of_ne]
        · exact h.sound hs'
        · rintro rfl
          exact hne (h.unique hs' hs)
  complete := by
    intro k' a' hk'
    rw [Function.update_apply] at hk'
    split at hk'
    · cases hk'
    · next hne =>
        obtain ⟨s', hs'⟩ := h.complete hk'
        refine ⟨s', ?_⟩
        rw [Function.update_of_ne]
        · exact hs'
        · rintro rfl
          cases hs.symm.trans hs'
          exact hne rfl
  unique := by
    intro s₁ s₂ k' b b' h₁ h₂
    rw [Function.update_apply] at h₁ h₂
    split at h₁
    · cases h₁
    · split at h₂
      · cases h₂
      · exact h.unique h₁ h₂

omit [DecidableEq S] [DecidableEq K] in
/-- A listing of the slots has every key once. -/
theorem nodup_keys (h : Represents t m) {ss : List S} (hss : ss.Nodup) :
    (ss.filterMap fun s => (t s).map Prod.fst).Nodup := by
  refine hss.filterMap fun s s' k hs hs' => ?_
  obtain ⟨⟨k₁, a⟩, ha, rfl⟩ := Option.map_eq_some_iff.mp hs
  obtain ⟨⟨k₂, b⟩, hb, hk⟩ := Option.map_eq_some_iff.mp hs'
  cases hk
  exact h.unique ha hb

omit [DecidableEq S] [DecidableEq K] in
theorem mem_keys (h : Represents t m) {ss : List S} (hall : ∀ s, s ∈ ss) :
    k ∈ (ss.filterMap fun s => (t s).map Prod.fst) ↔ (m k).isSome := by
  rw [h.isSome_iff, List.mem_filterMap]
  constructor
  · rintro ⟨s, -, hs⟩
    obtain ⟨⟨k', a⟩, ha, rfl⟩ := Option.map_eq_some_iff.mp hs
    exact ⟨s, a, ha⟩
  · rintro ⟨s, a, hs⟩
    exact ⟨s, hall s, by rw [hs]; rfl⟩

end Represents
end SlotTable
