import Logfs.Lib.Program

/-!
# Programs in an environment that chooses

Where a handler has one answer for each operation, an environment has several, and leaves one of
several states. What is proved of every outcome then holds whichever it chooses.
-/
namespace Interaction

section
variable {Op : Type} {Res : Op → Type} {σ τ α β E : Type}

/-- What each operation may answer, and the states it may leave. -/
abbrev Environment {Op : Type} (Res : Op → Type) (σ : Type) := (o : Op) → σ → Res o → σ → Prop

/-- The answers and states a program may end with. -/
inductive Outcome (env : Environment Res σ) : Prog Res α → σ → α → σ → Prop
  | ret (a : α) (s : σ) : Outcome env (.ret a) s a s
  | op {o : Op} {k : Res o → Prog Res α} {s t u : σ} {r : Res o} {a : α} (now : env o s r t)
      (rest : Outcome env (k r) t a u) : Outcome env (.op o k) s a u

variable {env : Environment Res σ} {s t u : σ} {a : α}

@[simp] theorem outcome_ret {b : α} : Outcome env (.ret a) s b t ↔ b = a ∧ t = s := by
  constructor
  · rintro (_ | _)
    exact ⟨rfl, rfl⟩
  · rintro ⟨rfl, rfl⟩
    exact .ret _ _

@[simp] theorem outcome_op {o : Op} {k : Res o → Prog Res α} :
    Outcome env (.op o k) s a u ↔ ∃ r t, env o s r t ∧ Outcome env (k r) t a u := by
  constructor
  · intro h
    cases h with
    | op now rest => exact ⟨_, _, now, rest⟩
  · rintro ⟨r, t, now, rest⟩
    exact .op now rest

theorem outcome_bind {p : Prog Res α} {f : α → Prog Res β} {b : β} :
    Outcome env (p >>= f) s b u ↔ ∃ a t, Outcome env p s a t ∧ Outcome env (f a) t b u := by
  induction p generalizing s with
  | ret a => simp
  | op o k ih =>
      simp only [Prog.op_bind, outcome_op, ih]
      constructor
      · rintro ⟨r, t, now, a, v, hfirst, hrest⟩
        exact ⟨a, v, ⟨r, t, now, hfirst⟩, hrest⟩
      · rintro ⟨a, v, ⟨r, t, now, hfirst⟩, hrest⟩
        exact ⟨r, t, now, a, v, hfirst, hrest⟩

/-- A sequence of programs that may fail has gone on, or has failed in its first part. -/
theorem outcome_exceptT_bind {p : ExceptT E (Prog Res) α} {f : α → ExceptT E (Prog Res) β} {r : Except E β} :
    Outcome env (p >>= f).run s r u ↔
      (∃ a t, Outcome env p.run s (.ok a) t ∧ Outcome env (f a).run t r u) ∨
        ∃ e, r = .error e ∧ Outcome env p.run s (.error e) u := by
  rw [ExceptT.run_bind, outcome_bind]
  constructor
  · rintro ⟨q, t, hfirst, hrest⟩
    cases q with
    | ok a => exact .inl ⟨a, t, hfirst, hrest⟩
    | error e =>
        obtain ⟨rfl, rfl⟩ := outcome_ret.mp hrest
        exact .inr ⟨e, rfl, hfirst⟩
  · rintro (⟨a, t, hfirst, hrest⟩ | ⟨e, rfl, hfirst⟩)
    · exact ⟨.ok a, t, hfirst, hrest⟩
    · exact ⟨.error e, u, hfirst, .ret _ _⟩

/-- A result under any answers is one in any environment. -/
theorem Outcome.answers {p : Prog Res α} {Q : α → Prop} (h : Outcome env p s a t) (hp : p.Answers Q) : Q a := by
  induction h with
  | ret a s => exact hp
  | op now rest ih => exact ih (hp _)

/-- Related states: whatever the handler answers, the environment may answer too. -/
def Allows (env : Environment Res τ) (h : Handler Res σ) (R : σ → τ → Prop) : Prop :=
  ∀ o s t, R s t → ∃ t', env o t (h o s).1 t' ∧ R (h o s).2 t'

theorem Allows.run {env : Environment Res τ} {h : Handler Res σ} {R : σ → τ → Prop} (hallows : Allows env h R)
    (p : Prog Res α) {s : σ} {t : τ} (hR : R s t) :
    ∃ t', Outcome env p t (Interaction.run h p s).1 t' ∧ R (Interaction.run h p s).2 t' := by
  induction p generalizing s t with
  | ret a => exact ⟨t, .ret _ _, hR⟩
  | op o k ih =>
      obtain ⟨t', hnow, hR'⟩ := hallows o s t hR
      obtain ⟨t'', hrest, hR''⟩ := ih _ hR'
      exact ⟨t'', .op hnow hrest, hR''⟩

/-- Related states: whatever the first environment chooses, the second one may choose too. -/
def Refines (env : Environment Res σ) (env' : Environment Res τ) (R : σ → τ → Prop) : Prop :=
  ∀ o s r s' t, R s t → env o s r s' → ∃ t', env' o t r t' ∧ R s' t'

theorem Refines.outcome {env : Environment Res σ} {env' : Environment Res τ} {R : σ → τ → Prop}
    (hrefines : Refines env env' R) {p : Prog Res α} {s s' : σ} {t : τ} {a : α} (hR : R s t)
    (h : Outcome env p s a s') : ∃ t', Outcome env' p t a t' ∧ R s' t' := by
  induction h generalizing t with
  | ret a s => exact ⟨t, .ret _ _, hR⟩
  | op now rest ih =>
      obtain ⟨u, hnow, hu⟩ := hrefines _ _ _ _ _ hR now
      obtain ⟨t', hrest, ht'⟩ := ih hu
      exact ⟨t', .op hnow hrest, ht'⟩

end

/-! ## Programs that keep to some of the operations -/

section
variable {Op : Type} {Res : Op → Type} {σ α β E : Type} {P : Op → Prop} {Q : α → Prop}

/-- Whatever the operations answer, each of them is one of `P`, and the program ends with a result of
`Q`. -/
def Confined (P : Op → Prop) (Q : α → Prop) : Prog Res α → Prop
  | .ret a => Q a
  | .op o k => P o ∧ ∀ r, Confined P Q (k r)

theorem Confined.seq {f : β → Prog Res α} {R : β → Prop} {p : Prog Res β} (hp : Confined P R p)
    (hf : ∀ b, R b → Confined P Q (f b)) : Confined P Q (p >>= f) := by
  induction p with
  | ret b => exact hf b hp
  | op o k ih => exact ⟨hp.1, fun r => ih r (hp.2 r)⟩

theorem Confined.mono {Q' : α → Prop} {p : Prog Res α} (hp : Confined P Q p) (himp : ∀ a, Q a → Q' a) :
    Confined P Q' p := by
  induction p with
  | ret a => exact himp a hp
  | op o k ih => exact ⟨hp.1, fun r => ih r (hp.2 r)⟩

/-- The parts of a sequence that may fail, where nothing is asked of the results. -/
theorem Confined.exceptT_bind {p : ExceptT E (Prog Res) α} {f : α → ExceptT E (Prog Res) β}
    (hp : Confined P (fun _ => True) p.run) (hf : ∀ a, Confined P (fun _ => True) (f a).run) :
    Confined P (fun _ => True) (p >>= f).run := by
  rw [ExceptT.run_bind]
  refine hp.seq fun r _ => ?_
  cases r with
  | error e => exact trivial
  | ok a => exact hf a

/-- One operation of the program; the rest of it keeps to the operations as well. -/
theorem Confined.step {h : Handler Res σ} {c d : Prog Res α × σ} (hs : Step h c d) (hc : Confined P Q c.1) :
    Confined P Q d.1 ∧ ∃ o, P o ∧ d.2 = (h o c.2).2 := by
  cases hs with
  | op o k s => exact ⟨hc.2 _, o, hc.1, rfl⟩

end

/-- Refinement where only some of the operations are asked for. -/
def RefinesOn {Op : Type} {Res : Op → Type} {σ τ : Type} (P : Op → Prop) (env : Environment Res σ)
    (env' : Environment Res τ) (R : σ → τ → Prop) : Prop :=
  ∀ o, P o → ∀ s r s' t, R s t → env o s r s' → ∃ t', env' o t r t' ∧ R s' t'

theorem RefinesOn.outcome {Op : Type} {Res : Op → Type} {σ τ α : Type} {P : Op → Prop} {Q : α → Prop}
    {env : Environment Res σ} {env' : Environment Res τ} {R : σ → τ → Prop} (hrefines : RefinesOn P env env' R)
    {p : Prog Res α} (hp : Confined P Q p) {s s' : σ} {t : τ} {a : α} (hR : R s t) (h : Outcome env p s a s') :
    ∃ t', Outcome env' p t a t' ∧ R s' t' := by
  induction h generalizing t with
  | ret a s => exact ⟨t, .ret _ _, hR⟩
  | op now rest ih =>
      obtain ⟨u, hnow, hu⟩ := hrefines _ hp.1 _ _ _ _ hR now
      obtain ⟨t', hrest, ht'⟩ := ih (hp.2 _) hu
      exact ⟨t', .op hnow hrest, ht'⟩

/-! ## Invariants of every outcome -/

section
variable {Op : Type} {Res : Op → Type} {σ α β E : Type} {env : Environment Res σ} {I : σ → Prop}
  {p : ExceptT E (Prog Res) α} {f : α → ExceptT E (Prog Res) β} {Q : α → Prop} {R : β → Prop}

/-- From a state of `I`, the program ends in one, also when it fails; `Q` holds of its answer. -/
def Upholds (env : Environment Res σ) (I : σ → Prop) (p : ExceptT E (Prog Res) α) (Q : α → Prop) : Prop :=
  ∀ s r t, I s → Outcome env p.run s r t → I t ∧ ∀ a, r = .ok a → Q a

namespace Upholds

theorem pure {a : α} (ha : Q a) : Upholds env I (pure a : ExceptT E (Prog Res) α) Q := by
  intro s r t hs h
  obtain ⟨rfl, rfl⟩ := outcome_ret.mp h
  refine ⟨hs, ?_⟩
  rintro b ⟨⟩
  exact ha

theorem throw (e : E) : Upholds env I (throw e : ExceptT E (Prog Res) α) Q := by
  intro s r t hs h
  obtain ⟨rfl, rfl⟩ := outcome_ret.mp h
  refine ⟨hs, ?_⟩
  rintro a ⟨⟩

/-- The sequencing rule. -/
theorem bind (hp : Upholds env I p Q) (hf : ∀ a, Q a → Upholds env I (f a) R) : Upholds env I (p >>= f) R := by
  intro s r u hs h
  rcases outcome_exceptT_bind.mp h with ⟨a, t, hfirst, hrest⟩ | ⟨e, rfl, hfirst⟩
  · obtain ⟨ht, hQ⟩ := hp s _ t hs hfirst
    exact hf a (hQ a rfl) t r u ht hrest
  · refine ⟨(hp s _ u hs hfirst).1, ?_⟩
    rintro b ⟨⟩

theorem mono {Q' : α → Prop} (hp : Upholds env I p Q) (himp : ∀ a, Q a → Q' a) : Upholds env I p Q' := by
  intro s r t hs h
  obtain ⟨ht, hQ⟩ := hp s r t hs h
  exact ⟨ht, fun a ha => himp a (hQ a ha)⟩

theorem ite {P : Prop} [Decidable P] {q : ExceptT E (Prog Res) α} (hp : P → Upholds env I p Q)
    (hq : ¬ P → Upholds env I q Q) : Upholds env I (if P then p else q) Q := by
  by_cases h : P
  · rw [if_pos h]
    exact hp h
  · rw [if_neg h]
    exact hq h

/-- One operation after which the program ends. -/
theorem perform {o : Op} {k : Res o → Except E α}
    (hop : ∀ s r t, I s → env o s r t → I t ∧ ∀ a, k r = .ok a → Q a) :
    Upholds env I (ExceptT.mk (.op o fun r => .ret (k r)) : ExceptT E (Prog Res) α) Q := by
  intro s r t hs h
  obtain ⟨r', t', hnow, hret⟩ := outcome_op.mp h
  obtain ⟨rfl, rfl⟩ := outcome_ret.mp hret
  exact hop s r' t hs hnow

end Upholds
end
end Interaction
