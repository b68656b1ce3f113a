import Mathlib.Data.List.Nodup
import Mathlib.Data.Set.Basic

/-!
# Pools of units

An allocator hands out the units of a range one at a time and keeps a mark on each unit in use.
Reserved units are marked from the beginning and never handed out.
-/
namespace UnitPool

variable {U : Type} {range reserved : Set U} {marked marked' : U → Prop} {held : List U} {u : U}

/-- The marks account for the units handed out and not yet given back. -/
structure Tracks (range reserved : Set U) (marked : U → Prop) (held : List U) : Prop where
  nodup : held.Nodup
  inRange : ∀ u ∈ held, u ∈ range
  marks : ∀ u ∈ range, marked u ↔ u ∈ reserved ∨ u ∈ held
  apart : ∀ u ∈ held, u ∉ reserved

namespace Tracks

theorem init (hmarks : ∀ u ∈ range, marked u ↔ u ∈ reserved) : Tracks range reserved marked [] where
  nodup := List.nodup_nil
  inRange := by simp
  marks := by
    intro u hu
    rw [hmarks u hu]
    simp
  apart := by simp

variable (h : Tracks range reserved marked held)
include h

theorem congr (hsame : ∀ u ∈ range, marked' u ↔ marked u) : Tracks range reserved marked' held :=
  { h with marks := fun u hu => (hsame u hu).trans (h.marks u hu) }

theorem marked_of_held (hu : u ∈ held) : marked u := (h.marks u (h.inRange u hu)).mpr (.inr hu)

/-- A search for an unmarked unit fails if each is reserved or handed out. -/
theorem exhausted_iff : (∀ u ∈ range, marked u) ↔ ∀ u ∈ range, u ∈ reserved ∨ u ∈ held :=
  forall₂_congr h.marks

theorem new_of_unmarked (hu : u ∈ range) (hfree : ¬ marked u) : u ∉ reserved ∧ u ∉ held := by
  rwa [h.marks u hu, not_or] at hfree

theorem take (hu : u ∈ range) (hfree : ¬ marked u) (hmarks : ∀ w ∈ range, marked' w ↔ w = u ∨ marked w) :
    Tracks range reserved marked' (u :: held) := by
  obtain ⟨hreserved, hheld⟩ := h.new_of_unmarked hu hfree
  constructor
  · exact List.nodup_cons.mpr ⟨hheld, h.nodup⟩
  · intro w hw
    rcases List.mem_cons.mp hw with rfl | hw
    · exact hu
    · exact h.inRange w hw
  · intro w hw
    rw [hmarks w hw, h.marks w hw, List.mem_cons]
    exact or_left_comm
  · intro w hw
    rcases List.mem_cons.mp hw with rfl | hw
    · exact hreserved
    · exact h.apart w hw

theorem release [DecidableEq U] (hu : u ∈ held) (hmarks : ∀ w ∈ range, marked' w ↔ w ≠ u ∧ marked w) :
    Tracks range reserved marked' (held.erase u) := by
  constructor
  · exact h.nodup.erase u
  · intro w hw
    exact h.inRange w (List.mem_of_mem_erase hw)
  · intro w hw
    rw [hmarks w hw, h.marks w hw, h.nodup.mem_erase_iff]
    constructor
    · rintro ⟨hne, hres | hheld⟩
      · exact .inl hres
      · exact .inr ⟨hne, hheld⟩
    · rintro (hres | ⟨hne, hheld⟩)
      · refine ⟨?_, .inl hres⟩
        rintro rfl
        exact h.apart w hu hres
      · exact ⟨hne, .inr hheld⟩
  · intro w hw
    exact h.apart w (List.mem_of_mem_erase hw)

end Tracks
end UnitPool
