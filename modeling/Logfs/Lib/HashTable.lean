import Mathlib

/-!
# Hash tables with chaining

A table is a fixed number of chains; a key's entries are in the chain its hash
names. A well-formed table has at most one entry for each key, and its entries
are then as good as a finite map.
-/
namespace HashTable

variable {n : ℕ} {K V : Type} [DecidableEq K]

section Operations
variable (hash : K → Fin n) (key : V → K)

/-- The first entry for `k` in its chain. -/
def find (t : Fin n → List V) (k : K) : Option V := (t (hash k)).find? fun v => key v == k

/-- `v` becomes the head of its chain. -/
def insert (t : Fin n → List V) (v : V) : Fin n → List V :=
  Function.update t (hash (key v)) (v :: t (hash (key v)))

/-- The entries for `k` are changed in place. -/
def modify (t : Fin n → List V) (k : K) (f : V → V) : Fin n → List V :=
  Function.update t (hash k) ((t (hash k)).map fun v => if key v = k then f v else v)

end Operations

/-- All entries, chain by chain. -/
def entries (t : Fin n → List V) : List V := (List.finRange n).flatMap t

/-- Entries are in the chain of their key, and no key has two of them. -/
structure WellFormed (hash : K → Fin n) (key : V → K) (t : Fin n → List V) : Prop where
  placed : ∀ i, ∀ v ∈ t i, hash (key v) = i
  distinct : ∀ i, ((t i).map key).Nodup

section Lemmas
variable {hash : K → Fin n} {key : V → K} {t : Fin n → List V}

omit [DecidableEq K] in
theorem mem_entries {v : V} : v ∈ entries t ↔ ∃ i, v ∈ t i := by
  simp [entries]

omit [DecidableEq K] in
theorem wellFormed_empty : WellFormed hash key fun _ => [] :=
  ⟨fun _ _ h => by simp at h, fun _ => by simp⟩

omit [DecidableEq K] in
@[simp] theorem entries_empty : entries (fun _ : Fin n => ([] : List V)) = [] := by
  simp [entries]

theorem key_of_find {k : K} {v : V} (h : find hash key t k = some v) : key v = k := by
  simpa using List.find?_some h

theorem mem_of_find {k : K} {v : V} (h : find hash key t k = some v) : v ∈ entries t :=
  mem_entries.mpr ⟨_, List.mem_of_find?_eq_some h⟩

theorem find_eq_none {k : K} : find hash key t k = none ↔ ∀ v ∈ t (hash k), key v ≠ k := by
  simp [find]

namespace WellFormed

omit [DecidableEq K] in
theorem mem_chain (h : WellFormed hash key t) {v : V} (hv : v ∈ entries t) : v ∈ t (hash (key v)) := by
  obtain ⟨i, hi⟩ := mem_entries.mp hv
  rwa [h.placed i v hi]

omit [DecidableEq K] in
theorem nodup_entries (h : WellFormed hash key t) : ((entries t).map key).Nodup := by
  rw [entries, List.map_flatMap, List.nodup_flatMap]
  refine ⟨fun i _ => h.distinct i, (List.nodup_finRange n).imp ?_⟩
  intro i i' hne k hk hk'
  obtain ⟨v, hv, rfl⟩ := List.mem_map.mp hk
  obtain ⟨v', hv', he⟩ := List.mem_map.mp hk'
  apply hne
  rw [← h.placed i v hv, ← h.placed i' v' hv', he]

theorem insert (h : WellFormed hash key t) {v : V} (hfresh : find hash key t (key v) = none) :
    WellFormed hash key (insert hash key t v) where
  placed i u hu := by
    by_cases hi : i = hash (key v)
    · subst hi
      simp only [HashTable.insert, Function.update_self, List.mem_cons] at hu
      rcases hu with rfl | hu
      · rfl
      · exact h.placed _ u hu
    · rw [HashTable.insert, Function.update_of_ne hi] at hu
      exact h.placed i u hu
  distinct i := by
    by_cases hi : i = hash (key v)
    · subst hi
      simp only [HashTable.insert, Function.update_self, List.map_cons, List.nodup_cons]
      refine ⟨?_, h.distinct _⟩
      rintro hmem
      obtain ⟨u, hu, he⟩ := List.mem_map.mp hmem
      exact find_eq_none.mp hfresh u hu he
    · rw [HashTable.insert, Function.update_of_ne hi]
      exact h.distinct i

theorem modify (h : WellFormed hash key t) (k : K) {f : V → V} (hf : ∀ v, key (f v) = key v) :
    WellFormed hash key (modify hash key t k f) := by
  have hkey : ∀ v, key (if key v = k then f v else v) = key v := by
    intro v
    split
    · exact hf v
    · rfl
  constructor
  · intro i u hu
    by_cases hi : i = hash k
    · subst hi
      simp only [HashTable.modify, Function.update_self, List.mem_map] at hu
      obtain ⟨v, hv, rfl⟩ := hu
      rw [hkey]
      exact h.placed _ v hv
    · rw [HashTable.modify, Function.update_of_ne hi] at hu
      exact h.placed i u hu
  · intro i
    by_cases hi : i = hash k
    · subst hi
      simp only [HashTable.modify, Function.update_self, List.map_map]
      rw [show key ∘ (fun v => if key v = k then f v else v) = key from funext hkey]
      exact h.distinct _
    · rw [HashTable.modify, Function.update_of_ne hi]
      exact h.distinct i

end WellFormed

omit [DecidableEq K] in
theorem mem_entries_insert {u v : V} : u ∈ entries (insert hash key t v) ↔ u = v ∨ u ∈ entries t := by
  simp only [mem_entries, insert]
  constructor
  · rintro ⟨i, hi⟩
    by_cases he : i = hash (key v)
    · subst he
      rw [Function.update_self] at hi
      exact (List.mem_cons.mp hi).imp_right fun h => ⟨_, h⟩
    · rw [Function.update_of_ne he] at hi
      exact .inr ⟨i, hi⟩
  · rintro (rfl | ⟨i, hi⟩)
    · exact ⟨hash (key u), by simp⟩
    · refine ⟨i, ?_⟩
      by_cases he : i = hash (key v)
      · subst he
        simp [hi]
      · rwa [Function.update_of_ne he]

omit [DecidableEq K] in
/-- Reading every entry through a function reads the whole table. -/
theorem entries_map {W : Type} (t : Fin n → List V) (f : V → W) :
    entries (fun i => (t i).map f) = (entries t).map f := by
  simp [entries, List.map_flatMap]

theorem find_insert {v : V} (k : K) :
    find hash key (insert hash key t v) k = if key v = k then some v else find hash key t k := by
  unfold find insert
  by_cases hk : key v = k
  · subst hk
    simp
  · rw [if_neg hk]
    by_cases hh : hash k = hash (key v)
    · rw [hh, Function.update_self, List.find?_cons_of_neg (by simpa using hk)]
    · rw [Function.update_of_ne hh]

theorem find_modify {k : K} {f : V → V} (hf : ∀ v, key (f v) = key v) (k' : K) :
    find hash key (modify hash key t k f) k' =
      if k' = k then (find hash key t k).map f else find hash key t k' := by
  have hkey : ∀ v, key (if key v = k then f v else v) = key v := by
    intro v
    split
    · exact hf v
    · rfl
  unfold find modify
  by_cases hh : hash k' = hash k
  · rw [hh, Function.update_self, List.find?_map]
    have hcomp : ((fun v => key v == k') ∘ fun v => if key v = k then f v else v) =
        fun v => key v == k' := funext fun v => by simp only [Function.comp_apply, hkey]
    rw [hcomp]
    by_cases hk : k' = k
    · subst hk
      rw [if_pos rfl]
      cases hfind : (t (hash k')).find? fun v => key v == k' with
      | none => rfl
      | some v =>
          have hv : key v = k' := by simpa using List.find?_some hfind
          simp [hv]
    · rw [if_neg hk]
      cases hfind : (t (hash k)).find? fun v => key v == k' with
      | none => rfl
      | some v =>
          have hv : key v = k' := by simpa using List.find?_some hfind
          simp [hv, hk]
  · have hk : k' ≠ k := fun he => hh (congrArg hash he)
    rw [Function.update_of_ne hh, if_neg hk]

omit [DecidableEq K] in
/-- Changing one chain changes the number of entries by as much. -/
theorem length_entries_update (i : Fin n) (vs : List V) :
    (entries (Function.update t i vs)).length + (t i).length = (entries t).length + vs.length := by
  have hsum : ∀ u : Fin n → List V, (entries u).length = ∑ i, (u i).length := by
    intro u
    rw [entries, List.length_flatMap, ← List.ofFn_eq_map, List.sum_ofFn]
  have hupd : (fun i' => (Function.update t i vs i').length) =
      Function.update (fun i' => (t i').length) i vs.length := by
    funext i'
    by_cases h : i' = i
    · subst h; simp
    · simp [Function.update_of_ne h]
  rw [hsum, hsum, hupd, Finset.sum_update_of_mem (Finset.mem_univ i),
    ← Finset.add_sum_erase Finset.univ (fun i' => (t i').length) (Finset.mem_univ i),
    Finset.sdiff_singleton_eq_erase]
  omega

omit [DecidableEq K] in
theorem length_entries_insert (v : V) :
    (entries (insert hash key t v)).length = (entries t).length + 1 := by
  have h := length_entries_update (t := t) (hash (key v)) (v :: t (hash (key v)))
  rw [List.length_cons] at h
  change (entries (Function.update t _ _)).length = _
  omega

theorem length_entries_modify (k : K) (f : V → V) :
    (entries (modify hash key t k f)).length = (entries t).length := by
  have h := length_entries_update (t := t) (hash k)
    ((t (hash k)).map fun v => if key v = k then f v else v)
  rw [List.length_map] at h
  change (entries (Function.update t _ _)).length = _
  omega

/-- Searching all entries finds what searching the key's chain does. -/
theorem WellFormed.find?_entries (h : WellFormed hash key t) (k : K) :
    (entries t).find? (fun v => key v == k) = find hash key t k := by
  cases hfind : find hash key t k with
  | none =>
      rw [List.find?_eq_none]
      intro v hv he
      have hk : key v = k := by simpa using he
      exact find_eq_none.mp hfind v (hk ▸ h.mem_chain hv) hk
  | some v =>
      have hk := key_of_find hfind
      obtain ⟨u, hu⟩ : ∃ u, (entries t).find? (fun v => key v == k) = some u := by
        rw [← Option.isSome_iff_exists, List.find?_isSome]
        exact ⟨v, mem_of_find hfind, by simpa using hk⟩
      have huk : key u = k := by simpa using List.find?_some hu
      rw [hu, List.inj_on_of_nodup_map h.nodup_entries (List.mem_of_find?_eq_some hu)
        (mem_of_find hfind) (huk.trans hk.symm)]

end Lemmas
end HashTable
