import Logfs.Lib.NameTree

/-!
# Paths through a tree of names

Where each slot is a name, a list of names is a path. In a rooted tree a node is reached by one path
only, and a leaf that is added or taken out changes what one path leads to.
-/
namespace NameTree

variable {ν σ : Type}

/-- The node a path leads to. -/
def follow (child : ν → σ → Option ν) : ν → List σ → Option ν
  | d, [] => some d
  | d, n :: p => (child d n).bind fun c => follow child c p

section Paths
variable {child : ν → σ → Option ν} {d : ν} {n : σ} {p q : List σ}

theorem follow_append : follow child d (p ++ q) = (follow child d p).bind fun c => follow child c q := by
  induction p generalizing d with
  | nil => rfl
  | cons n p ih =>
      rw [List.cons_append, follow, follow, Option.bind_assoc]
      exact congrArg _ (funext fun c => ih)

theorem follow_snoc : follow child d (p ++ [n]) = (follow child d p).bind fun c => child c n := by
  rw [follow_append]
  exact congrArg _ (funext fun c => Option.bind_fun_some _)

end Paths

namespace Rooted
variable {root : ν} {live : Set ν} {child child' : ν → σ → Option ν} {d c : ν} {n : σ} {p q : List σ}
  (h : Rooted root live child)
include h

theorem follow_mem (hd : d ∈ live) (hp : follow child d p = some c) : c ∈ live := by
  induction p generalizing d with
  | nil =>
      cases hp
      exact hd
  | cons n p ih =>
      obtain ⟨e, he, hrest⟩ := Option.bind_eq_some_iff.mp hp
      exact ih (h.closed hd he) hrest

theorem exists_follow (hc : c ∈ live) : ∃ p, follow child root p = some c := by
  induction h.reached hc with
  | refl => exact ⟨[], rfl⟩
  | tail _ hlast ih =>
      obtain ⟨n, hn⟩ := hlast
      obtain ⟨p, hp⟩ := ih (h.mem_of_reached ‹_›)
      refine ⟨p ++ [n], ?_⟩
      rw [follow_snoc, hp]
      exact hn

/-- A node is at the end of one path. -/
theorem follow_inj (hp : follow child root p = some c) (hq : follow child root q = some c) : p = q := by
  induction p using List.reverseRecOn generalizing c q with
  | nil =>
      cases hp
      rcases List.eq_nil_or_concat' q with rfl | ⟨q, m, rfl⟩
      · rfl
      · rw [follow_snoc] at hq
        obtain ⟨e, he, hlast⟩ := Option.bind_eq_some_iff.mp hq
        exact absurd hlast (h.root_free (h.follow_mem h.root_mem he))
  | append_singleton p n ih =>
      rw [follow_snoc] at hp
      obtain ⟨d, hd, hlast⟩ := Option.bind_eq_some_iff.mp hp
      have hmem := h.follow_mem h.root_mem hd
      rcases List.eq_nil_or_concat' q with rfl | ⟨q, m, rfl⟩
      · cases hq
        exact absurd hlast (h.root_free hmem)
      · rw [follow_snoc] at hq
        obtain ⟨e, he, hlast'⟩ := Option.bind_eq_some_iff.mp hq
        obtain ⟨rfl, rfl⟩ := h.once hmem (h.follow_mem h.root_mem he) hlast hlast'
        rw [ih hd he]

theorem follow_congr (hsame : ∀ e ∈ live, child' e = child e) (hd : d ∈ live) :
    follow child' d p = follow child d p := by
  induction p generalizing d with
  | nil => rfl
  | cons n p ih =>
      rw [follow, follow, hsame d hd]
      exact Option.bind_congr fun c hc => ih (h.closed hd hc)

section Leaf
variable [DecidableEq σ] (hp : follow child root p = some d)
include hp

/-- A leaf is added under `p`. -/
theorem follow_insert (hnone : child d n = none) (hnew : child' d n = some c)
    (hold : ∀ e ∈ live, ∀ m, ¬ (e = d ∧ m = n) → child' e m = child e m) (hleaf : ∀ m, child' c m = none)
    (q : List σ) : follow child' root q = if q = p ++ [n] then some c else follow child root q := by
  have hfree : follow child root (p ++ [n]) = none := by rw [follow_snoc, hp, Option.bind_some, hnone]
  induction q using List.reverseRecOn with
  | nil => rw [if_neg (by simp), follow, follow]
  | append_singleton q m ih =>
      rw [follow_snoc, follow_snoc, ih]
      by_cases hat : q = p ++ [n]
      · subst hat
        rw [if_pos rfl, if_neg (by simp), hfree, Option.bind_some, hleaf]
        rfl
      · rw [if_neg hat]
        cases hq : follow child root q with
        | none =>
            rw [if_neg]
            · rfl
            · intro heq
              rw [(List.append_inj' heq rfl).1, hp] at hq
              cases hq
        | some e =>
            rw [Option.bind_some, Option.bind_some]
            by_cases hslot : e = d ∧ m = n
            · obtain ⟨rfl, rfl⟩ := hslot
              rw [h.follow_inj hq hp, if_pos rfl, hnew]
            · rw [hold e (h.follow_mem h.root_mem hq) m hslot, if_neg]
              intro heq
              obtain ⟨rfl, hm⟩ := List.append_inj' heq rfl
              rw [hp] at hq
              exact hslot ⟨(Option.some.inj hq).symm, List.singleton_inj.mp hm⟩

/-- The leaf at `n` under `p` is taken out. -/
theorem follow_erase (hslot : child d n = some c) (hleaf : ∀ m, child c m = none) (hnew : child' d n = none)
    (hold : ∀ e ∈ live, e ≠ c → ∀ m, ¬ (e = d ∧ m = n) → child' e m = child e m) (q : List σ) :
    follow child' root q = if q = p ++ [n] then none else follow child root q := by
  have hleads : follow child root (p ++ [n]) = some c := by rw [follow_snoc, hp, Option.bind_some, hslot]
  induction q using List.reverseRecOn with
  | nil => rw [if_neg (by simp), follow, follow]
  | append_singleton q m ih =>
      rw [follow_snoc, follow_snoc, ih]
      by_cases hat : q = p ++ [n]
      · subst hat
        rw [if_pos rfl, if_neg (by simp), hleads, Option.bind_some, hleaf]
        rfl
      · rw [if_neg hat]
        cases hq : follow child root q with
        | none => rw [Option.bind_none, Option.bind_none, ite_self]
        | some e =>
            rw [Option.bind_some, Option.bind_some]
            by_cases hend : e = d ∧ m = n
            · obtain ⟨rfl, rfl⟩ := hend
              rw [h.follow_inj hq hp, if_pos rfl, hnew]
            · have hec : e ≠ c := by
                rintro rfl
                exact hat (h.follow_inj hq hleads)
              rw [hold e (h.follow_mem h.root_mem hq) hec m hend, if_neg]
              intro heq
              obtain ⟨rfl, hm⟩ := List.append_inj' heq rfl
              rw [hp] at hq
              exact hend ⟨(Option.some.inj hq).symm, List.singleton_inj.mp hm⟩

end Leaf
end Rooted
end NameTree
