import Mathlib

/-!
# Rooted trees of named slots

Nodes with slots, each of which is empty or holds a node. The nodes that are live form
a tree: the root is in no slot, every other node in exactly one, and all are reached from the
root. A leaf can be added in an empty slot and taken out of the one it is in.
-/
namespace NameTree

variable {ν σ : Type}

/-- Slot `s` of the first node holds the second. -/
def Holds (child : ν → σ → Option ν) (d c : ν) : Prop := ∃ s, child d s = some c

structure Rooted (root : ν) (live : Set ν) (child : ν → σ → Option ν) : Prop where
  root_mem : root ∈ live
  closed : ∀ {d s c}, d ∈ live → child d s = some c → c ∈ live
  root_free : ∀ {d s}, d ∈ live → child d s ≠ some root
  once : ∀ {d d' s s' c}, d ∈ live → d' ∈ live → child d s = some c → child d' s' = some c →
    d = d' ∧ s = s'
  reached : ∀ {c}, c ∈ live → Relation.ReflTransGen (Holds child) root c

namespace Rooted
variable {root : ν} {live : Set ν} {child child' : ν → σ → Option ν} (h : Rooted root live child)
include h

theorem mem_of_reached {c : ν} (hc : Relation.ReflTransGen (Holds child) root c) : c ∈ live := by
  induction hc with
  | refl => exact h.root_mem
  | tail _ hlast ih =>
      obtain ⟨s, hs⟩ := hlast
      exact h.closed ih hs

theorem holder {c : ν} (hc : c ∈ live) (hne : c ≠ root) : ∃ d ∈ live, Holds child d c := by
  rcases Relation.ReflTransGen.cases_tail (h.reached hc) with heq | ⟨d, hd, hlast⟩
  · exact absurd heq hne
  · exact ⟨d, h.mem_of_reached hd, hlast⟩

/-- No node holds itself. -/
theorem irrefl {d : ν} {s : σ} (hd : d ∈ live) : child d s ≠ some d := by
  intro hself
  have hne : ∀ {c}, Relation.ReflTransGen (Holds child) root c → c ≠ d := by
    intro c hc
    induction hc with
    | refl =>
        rintro rfl
        exact h.root_free hd hself
    | tail hbefore hlast ih =>
        rintro rfl
        obtain ⟨t, ht⟩ := hlast
        exact ih (h.once (h.mem_of_reached hbefore) hd ht hself).1
  exact hne (h.reached hd) rfl

theorem congr (heq : ∀ d ∈ live, child' d = child d) : Rooted root live child' where
  root_mem := h.root_mem
  closed := by
    intro d s c hd hs
    rw [heq d hd] at hs
    exact h.closed hd hs
  root_free := by
    intro d s hd
    rw [heq d hd]
    exact h.root_free hd
  once := by
    intro d d' s s' c hd hd' hs hs'
    rw [heq d hd] at hs
    rw [heq d' hd'] at hs'
    exact h.once hd hd' hs hs'
  reached := by
    intro c hc
    refine Relation.ReflTransGen.head_induction_on (motive := fun a _ => a ∈ live →
      Relation.ReflTransGen (Holds child') a c) (h.reached hc) (fun _ => .refl) ?_ h.root_mem
    intro a b hab _ ih ha
    obtain ⟨s, hs⟩ := hab
    exact .head ⟨s, by rw [heq a ha]; exact hs⟩ (ih (h.closed ha hs))

/-- A new leaf in an empty slot. -/
theorem insert_leaf {p c : ν} {s : σ} (hp : p ∈ live) (hc : c ∉ live) (hslot : child p s = none)
    (hnew : child' p s = some c) (hold : ∀ d ∈ live, ∀ t, ¬ (d = p ∧ t = s) → child' d t = child d t)
    (hleaf : ∀ t, child' c t = none) : Rooted root (insert c live) child' := by
  -- a slot holds the new leaf or what it held before
  have hcases : ∀ {d t x}, d ∈ insert c live → child' d t = some x →
      (d = p ∧ t = s ∧ x = c) ∨ (d ∈ live ∧ child d t = some x) := by
    intro d t x hd ht
    rcases Set.mem_insert_iff.mp hd with rfl | hd
    · rw [hleaf] at ht
      cases ht
    · by_cases hat : d = p ∧ t = s
      · obtain ⟨rfl, rfl⟩ := hat
        rw [hnew] at ht
        cases ht
        exact .inl ⟨rfl, rfl, rfl⟩
      · rw [hold d hd t hat] at ht
        exact .inr ⟨hd, ht⟩
  have hkeep : ∀ {d t x}, d ∈ live → child d t = some x → child' d t = some x := by
    intro d t x hd ht
    rw [hold d hd t ?_]
    · exact ht
    · rintro ⟨rfl, rfl⟩
      rw [hslot] at ht
      cases ht
  refine ⟨Set.mem_insert_of_mem _ h.root_mem, ?_, ?_, ?_, ?_⟩
  · intro d t x hd ht
    rcases hcases hd ht with ⟨-, -, rfl⟩ | ⟨hd, ht⟩
    · exact Set.mem_insert _ _
    · exact Set.mem_insert_of_mem _ (h.closed hd ht)
  · intro d t hd ht
    rcases hcases hd ht with ⟨-, -, heq⟩ | ⟨hd, ht⟩
    · exact hc (heq ▸ h.root_mem)
    · exact h.root_free hd ht
  · intro d d' t t' x hd hd' ht ht'
    rcases hcases hd ht with ⟨rfl, rfl, rfl⟩ | ⟨hd, ht⟩
    · rcases hcases hd' ht' with ⟨rfl, rfl, -⟩ | ⟨hd', ht'⟩
      · exact ⟨rfl, rfl⟩
      · exact absurd (h.closed hd' ht') hc
    · rcases hcases hd' ht' with ⟨-, -, heq⟩ | ⟨hd', ht'⟩
      · exact absurd (heq ▸ h.closed hd ht) hc
      · exact h.once hd hd' ht ht'
  · have hpath : ∀ {x}, Relation.ReflTransGen (Holds child) root x →
        Relation.ReflTransGen (Holds child') root x := by
      intro x hx
      induction hx with
      | refl => exact .refl
      | tail hbefore hlast ih =>
          obtain ⟨t, ht⟩ := hlast
          exact ih.tail ⟨t, hkeep (h.mem_of_reached hbefore) ht⟩
    intro x hx
    rcases Set.mem_insert_iff.mp hx with rfl | hx
    · exact (hpath (h.reached hp)).tail ⟨s, hnew⟩
    · exact hpath (h.reached hx)

/-- A leaf is taken out of its slot. -/
theorem erase_leaf {p c : ν} {s : σ} (hp : p ∈ live) (hslot : child p s = some c)
    (hleaf : ∀ t, child c t = none) (hnew : child' p s = none)
    (hold : ∀ d ∈ live, d ≠ c → ∀ t, ¬ (d = p ∧ t = s) → child' d t = child d t) :
    Rooted root (live \ {c}) child' := by
  have hcases : ∀ {d t x}, d ∈ live \ {c} → child' d t = some x → child d t = some x ∧ x ≠ c := by
    rintro d t x ⟨hd, hdc⟩ ht
    have hat : ¬ (d = p ∧ t = s) := by
      rintro ⟨rfl, rfl⟩
      rw [hnew] at ht
      cases ht
    rw [hold d hd hdc t hat] at ht
    refine ⟨ht, ?_⟩
    rintro rfl
    exact hat (h.once hd hp ht hslot)
  refine ⟨⟨h.root_mem, ?_⟩, ?_, ?_, ?_, ?_⟩
  · rintro rfl
    exact h.root_free hp hslot
  · intro d t x hd ht
    obtain ⟨ht, hx⟩ := hcases hd ht
    exact ⟨h.closed hd.1 ht, hx⟩
  · intro d t hd ht
    exact h.root_free hd.1 (hcases hd ht).1
  · intro d d' t t' x hd hd' ht ht'
    exact h.once hd.1 hd'.1 (hcases hd ht).1 (hcases hd' ht').1
  · have hpath : ∀ {x}, Relation.ReflTransGen (Holds child) root x → x ≠ c →
        Relation.ReflTransGen (Holds child') root x := by
      intro x hx
      induction hx with
      | refl => exact fun _ => .refl
      | @tail d y hbefore hlast ih =>
          intro hy
          obtain ⟨t, ht⟩ := hlast
          have hd := h.mem_of_reached hbefore
          have hdc : d ≠ c := by
            rintro rfl
            rw [hleaf] at ht
            cases ht
          refine (ih hdc).tail ⟨t, ?_⟩
          rw [hold d hd hdc t ?_]
          · exact ht
          · rintro ⟨rfl, rfl⟩
            rw [hslot] at ht
            exact hy (Option.some.inj ht).symm
    intro x hx
    exact hpath (h.reached hx.1) hx.2

end Rooted
end NameTree
