import Logfs.Lib.Outcomes

/-!
# Contracts between a program and its operations

A program asks only for allowed operations, as long as the answers it gets are what it may rely on.
The contract has a state of its own, so that what is allowed may depend on what was asked before.
An environment that serves the contract then keeps whatever each allowed operation keeps.
-/
namespace Interaction

structure Contract {Op : Type} (Res : Op → Type) (γ : Type) where
  allowed : γ → Op → Prop
  answers : (o : Op) → Res o → Prop
  next : γ → (o : Op) → Res o → γ

section
variable {Op : Type} {Res : Op → Type} {γ σ τ α β E : Type} {C : Contract Res γ} {Q : γ → α → Prop}
  {R : γ → β → Prop} {g : γ}

/-- From the contract's state `g` on, the program keeps to the contract and ends with `Q` of the
contract's state and the result. -/
def Abides (C : Contract Res γ) (Q : γ → α → Prop) : γ → Prog Res α → Prop
  | g, .ret a => Q g a
  | g, .op o k => C.allowed g o ∧ ∀ r, C.answers o r → Abides C Q (C.next g o r) (k r)

theorem Abides.mono {Q' : γ → α → Prop} {p : Prog Res α} (hp : Abides C Q g p) (himp : ∀ g a, Q g a → Q' g a) :
    Abides C Q' g p := by
  induction p generalizing g with
  | ret a => exact himp g a hp
  | op o k ih => exact ⟨hp.1, fun r hr => ih r (hp.2 r hr)⟩

theorem Abides.seq {p : Prog Res α} {f : α → Prog Res β} (hp : Abides C Q g p)
    (hf : ∀ g a, Q g a → Abides C R g (f a)) : Abides C R g (p >>= f) := by
  induction p generalizing g with
  | ret a => exact hf g a hp
  | op o k ih => exact ⟨hp.1, fun r hr => ih r (hp.2 r hr)⟩

/-! ## Programs that may fail -/

section Failing
variable {S T : γ → Prop} {P : α → Prop} {N : β → Prop}

/-- The program keeps to the contract and leaves it in a state of `S`, also when it fails; `P` holds of
its answer. -/
def ObeysFrom (C : Contract Res γ) (S : γ → Prop) (g : γ) (p : ExceptT E (Prog Res) α) (P : α → Prop) : Prop :=
  Abides C (fun g r => S g ∧ ∀ a, r = .ok a → P a) g p.run

/-- From every state of `S` the program keeps to the contract, and back to one. -/
def Obeys (C : Contract Res γ) (S : γ → Prop) (p : ExceptT E (Prog Res) α) (P : α → Prop) : Prop :=
  ∀ g, S g → ObeysFrom C S g p P

variable {p : ExceptT E (Prog Res) α} {f : α → ExceptT E (Prog Res) β}

theorem ObeysFrom.pure {a : α} (hg : S g) (ha : P a) : ObeysFrom C S g (pure a : ExceptT E (Prog Res) α) P := by
  refine ⟨hg, ?_⟩
  rintro b ⟨⟩
  exact ha

theorem ObeysFrom.throw (hg : S g) (e : E) : ObeysFrom C S g (throw e : ExceptT E (Prog Res) α) P := by
  refine ⟨hg, ?_⟩
  rintro b ⟨⟩

theorem ObeysFrom.bind (hp : ObeysFrom C S g p P) (hf : ∀ g a, S g → P a → ObeysFrom C T g (f a) N)
    (hfail : ∀ g, S g → T g) : ObeysFrom C T g (p >>= f) N := by
  change Abides C _ g (p >>= f).run
  rw [ExceptT.run_bind]
  refine Abides.seq hp fun g' r hr => ?_
  cases r with
  | error e => exact ObeysFrom.throw (hfail g' hr.1) e
  | ok a => exact hf g' a hr.1 (hr.2 a rfl)

theorem ObeysFrom.mono {P' : α → Prop} (hp : ObeysFrom C S g p P) (hS : ∀ g, S g → T g)
    (himp : ∀ a, P a → P' a) : ObeysFrom C T g p P' :=
  Abides.mono hp fun g _ hr => ⟨hS g hr.1, fun a ha => himp a (hr.2 a ha)⟩

/-- One operation, with its answer and the rest of the program. -/
theorem ObeysFrom.perform {o : Op} {k : Res o → Except E α} (hop : C.allowed g o)
    (hk : ∀ r, C.answers o r →
      (∀ e, k r = .error e → T (C.next g o r)) ∧ ∀ a, k r = .ok a → ObeysFrom C T (C.next g o r) (f a) N) :
    ObeysFrom C T g ((ExceptT.mk (.op o fun r => .ret (k r)) : ExceptT E (Prog Res) α) >>= f) N := by
  refine ⟨hop, fun r hr => ?_⟩
  obtain ⟨hfail, hgo⟩ := hk r hr
  change Abides C _ _ (Prog.ret (k r) >>= _)
  cases hkr : k r with
  | error e => exact ObeysFrom.throw (hfail e hkr) e
  | ok a => exact hgo a hkr

namespace Obeys

theorem pure {a : α} (ha : P a) : Obeys C S (pure a : ExceptT E (Prog Res) α) P := fun _ hg => .pure hg ha

theorem throw (e : E) : Obeys C S (throw e : ExceptT E (Prog Res) α) P := fun _ hg => .throw hg e

theorem bind (hp : Obeys C S p P) (hf : ∀ a, P a → Obeys C S (f a) N) : Obeys C S (p >>= f) N :=
  fun g hg => (hp g hg).bind (fun g a hg ha => hf a ha g hg) fun _ hg => hg

theorem mono {P' : α → Prop} (hp : Obeys C S p P) (himp : ∀ a, P a → P' a) : Obeys C S p P' :=
  fun g hg => (hp g hg).mono (fun _ hg => hg) himp

theorem ite {B : Prop} [Decidable B] {q : ExceptT E (Prog Res) α} (hp : B → Obeys C S p P)
    (hq : ¬ B → Obeys C S q P) : Obeys C S (if B then p else q) P := by
  by_cases h : B
  · rw [if_pos h]
    exact hp h
  · rw [if_neg h]
    exact hq h

/-- One operation after which the program ends. -/
theorem perform {o : Op} {k : Res o → Except E α}
    (hop : ∀ g, S g → C.allowed g o ∧ ∀ r, C.answers o r → S (C.next g o r))
    (hk : ∀ r, C.answers o r → ∀ a, k r = .ok a → P a) :
    Obeys C S (ExceptT.mk (.op o fun r => .ret (k r)) : ExceptT E (Prog Res) α) P :=
  fun g hg => ⟨(hop g hg).1, fun r hr => ⟨(hop g hg).2 r hr, hk r hr⟩⟩

end Obeys
end Failing

/-! ## Serving a contract -/

/-- Related states: an allowed operation gets an answer to rely on, and the second environment may
answer the same. -/
def Serves (C : Contract Res γ) (env : Environment Res σ) (env' : Environment Res τ) (I : γ → σ → τ → Prop) :
    Prop :=
  ∀ o g s r s' t, C.allowed g o → I g s t → env o s r s' →
    C.answers o r ∧ ∃ t', env' o t r t' ∧ I (C.next g o r) s' t'

variable {env : Environment Res σ} {env' : Environment Res τ} {I : γ → σ → τ → Prop} {s s' : σ} {t : τ} {a : α}

/-- One operation of a program that keeps to the contract. -/
theorem Serves.op (h : Serves C env env' I) {o : Op} {k : Res o → Prog Res α} {r : Res o}
    (hp : Abides C Q g (.op o k)) (hI : I g s t) (hnow : env o s r s') :
    Abides C Q (C.next g o r) (k r) ∧ ∃ t', env' o t r t' ∧ I (C.next g o r) s' t' := by
  obtain ⟨hans, hnext⟩ := h o g s r s' t hp.1 hI hnow
  exact ⟨hp.2 r hans, hnext⟩

/-- The environment that answers as a handler does. -/
def replying (h : Handler Res σ) : Environment Res σ := fun o s r s' => h o s = (r, s')

theorem Outcome.run_eq {h : Handler Res σ} {p : Prog Res α} {s s' : σ} {a : α}
    (hrun : Outcome (replying h) p s a s') : run h p s = (a, s') := by
  induction hrun with
  | ret a s => rfl
  | op now rest ih => rw [run_op, now, ih]

/-- The states the program passes through, its beginning and end included. -/
inductive Passes (env : Environment Res σ) : Prog Res α → σ → σ → Prop
  | here (p : Prog Res α) (s : σ) : Passes env p s s
  | op {o : Op} {k : Res o → Prog Res α} {r : Res o} {s t u : σ} (now : env o s r t) (rest : Passes env (k r) t u) :
      Passes env (.op o k) s u

theorem Outcome.passes {p : Prog Res α} (h : Outcome env p s a s') : Passes env p s s' := by
  induction h with
  | ret a s => exact .here _ s
  | op now rest ih => exact .op now ih

/-- What holds on the way. -/
theorem Serves.passes (h : Serves C env env' I) {p : Prog Res α} (hp : Abides C Q g p) (hI : I g s t)
    (hpass : Passes env p s s') : ∃ g' t', I g' s' t' := by
  induction hpass generalizing g t with
  | here p s => exact ⟨g, t, hI⟩
  | op now rest ih =>
      obtain ⟨hrest, u, -, hu⟩ := h.op hp hI now
      exact ih hrest hu

end
end Interaction
