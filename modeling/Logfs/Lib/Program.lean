import Mathlib

/-!
# Finite programs over named operations

A program performs operations one at a time and continues with each answer. Its
meaning is left to a handler, which is what lets one program be run to its end,
be cut after any operation, or be interleaved with other steps.
-/
namespace Interaction

/-- Operation `o` answers with a value of `Res o`. -/
inductive Prog {Op : Type} (Res : Op → Type) (α : Type) : Type
  | ret (a : α)
  | op (o : Op) (k : Res o → Prog Res α)

namespace Prog

variable {Op : Type} {Res : Op → Type} {α β γ : Type}

def bind : Prog Res α → (α → Prog Res β) → Prog Res β
  | .ret a, f => f a
  | .op o k, f => .op o fun r => (k r).bind f

instance : Monad (Prog Res) where
  pure := .ret
  bind := bind

def perform (o : Op) : Prog Res (Res o) := .op o .ret

@[simp] theorem pure_eq (a : α) : (Pure.pure a : Prog Res α) = .ret a := rfl

@[simp] theorem ret_bind (a : α) (f : α → Prog Res β) : (.ret a : Prog Res α) >>= f = f a := rfl

@[simp] theorem op_bind (o : Op) (k : Res o → Prog Res α) (f : α → Prog Res β) :
    (.op o k : Prog Res α) >>= f = .op o fun r => k r >>= f := rfl

@[simp] theorem perform_bind (o : Op) (f : Res o → Prog Res β) :
    (perform o : Prog Res (Res o)) >>= f = .op o f := rfl

@[simp] theorem bind_ret (p : Prog Res α) : p >>= Prog.ret = p := by
  induction p with
  | ret a => rfl
  | op o k ih =>
      rw [op_bind]
      exact congrArg (Prog.op o) (funext ih)

theorem bind_assoc (p : Prog Res α) (f : α → Prog Res β) (g : β → Prog Res γ) :
    p >>= f >>= g = p >>= fun a => f a >>= g := by
  induction p with
  | ret a => rfl
  | op o k ih =>
      simp only [op_bind]
      exact congrArg (Prog.op o) (funext ih)

instance : LawfulMonad (Prog Res) :=
  LawfulMonad.mk' _ (fun p => bind_ret p) (fun _ _ => rfl) bind_assoc

/-! ## Two kinds of operations -/

variable {Op' : Type} {Res' : Op' → Type}

/-- The answers of the operations of either kind. -/
@[reducible] def SumRes (Res : Op → Type) (Res' : Op' → Type) : Op ⊕ Op' → Type
  | .inl o => Res o
  | .inr o => Res' o

/-- A program seen as one that could also use further operations. -/
def inl : Prog Res α → Prog (SumRes Res Res') α
  | .ret a => .ret a
  | .op o k => .op (.inl o) fun r => (k r).inl

instance : MonadLift (Prog Res) (Prog (SumRes Res Res')) := ⟨inl⟩

/-- The program whose further operations are carried out by programs of the first kind. -/
def answer (f : (o : Op') → Prog Res (Res' o)) : Prog (SumRes Res Res') α → Prog Res α
  | .ret a => .ret a
  | .op (.inl o) k => .op o fun r => (k r).answer f
  | .op (.inr o) k => f o >>= fun r => (k r).answer f

@[simp] theorem answer_inl (f : (o : Op') → Prog Res (Res' o)) (p : Prog Res α) :
    (p.inl : Prog (SumRes Res Res') α).answer f = p := by
  induction p with
  | ret a => rfl
  | op o k ih => exact congrArg (Prog.op o) (funext ih)

theorem answer_bind (f : (o : Op') → Prog Res (Res' o)) (p : Prog (SumRes Res Res') α)
    (g : α → Prog (SumRes Res Res') β) :
    (p >>= g).answer f = p.answer f >>= fun a => (g a).answer f := by
  induction p with
  | ret a => rfl
  | op o k ih =>
      cases o with
      | inl o => exact congrArg (Prog.op o) (funext ih)
      | inr o =>
          have hrest : (fun r : Res' o => (k r >>= g).answer f) =
              fun r => (k r).answer f >>= fun a => (g a).answer f := funext ih
          change (f o >>= fun r => (k r >>= g).answer f) = _
          rw [hrest]
          exact (bind_assoc (f o) (fun r => (k r).answer f) _).symm

/-! ## Results under any answers -/

/-- Whatever the operations answer, the program ends with a result of `Q`. -/
def Answers (Q : α → Prop) : Prog Res α → Prop
  | .ret a => Q a
  | .op _ k => ∀ r, (k r).Answers Q

variable {Q : α → Prop}

theorem Answers.seq {f : β → Prog Res α} {R : β → Prop} {p : Prog Res β} (hp : p.Answers R)
    (hf : ∀ b, R b → (f b).Answers Q) : (p >>= f).Answers Q := by
  induction p with
  | ret b => exact hf b hp
  | op o k ih => exact fun r => ih r (hp r)

theorem answers_true (p : Prog Res α) : p.Answers fun _ => True := by
  induction p with
  | ret a => exact trivial
  | op o k ih => exact ih

theorem Answers.bind {f : β → Prog Res α} (p : Prog Res β) (hf : ∀ b, (f b).Answers Q) :
    (p >>= f).Answers Q :=
  p.answers_true.seq fun b _ => hf b

theorem Answers.ite {P : Prop} [Decidable P] {p q : Prog Res α} (hp : P → p.Answers Q)
    (hq : ¬ P → q.Answers Q) : (if P then p else q).Answers Q := by
  split
  · exact hp ‹_›
  · exact hq ‹_›

end Prog

/-- How a state answers each operation. -/
abbrev Handler {Op : Type} (Res : Op → Type) (σ : Type) := (o : Op) → σ → Res o × σ

section Run
variable {Op : Type} {Res : Op → Type} {σ α β : Type} (h : Handler Res σ)

/-- The uninterrupted run. -/
def run : Prog Res α → σ → α × σ
  | .ret a, s => (a, s)
  | .op o k, s => run (k (h o s).1) (h o s).2

@[simp] theorem run_ret (a : α) (s : σ) : run h (.ret a : Prog Res α) s = (a, s) := rfl

@[simp] theorem run_op (o : Op) (k : Res o → Prog Res α) (s : σ) :
    run h (.op o k) s = run h (k (h o s).1) (h o s).2 := rfl

theorem run_bind (p : Prog Res α) (f : α → Prog Res β) (s : σ) :
    run h (p >>= f) s = run h (f (run h p s).1) (run h p s).2 := by
  induction p generalizing s with
  | ret a => rfl
  | op o k ih => exact ih _ _

theorem run_ite (P : Prop) [Decidable P] (p q : Prog Res α) (s : σ) :
    run h (if P then p else q) s = if P then run h p s else run h q s := by
  split <;> rfl

theorem Prog.Answers.run {Q : α → Prop} {p : Prog Res α} (hp : p.Answers Q) (s : σ) :
    Q (Interaction.run h p s).1 := by
  induction p generalizing s with
  | ret a => exact hp
  | op o k ih => exact ih _ (hp _) _

/-- Two kinds of operations, each answered by its own part of the state. -/
def Handler.sum {Op' : Type} {Res' : Op' → Type} {τ : Type} (h : Handler Res σ)
    (g : Handler Res' τ) : Handler (Prog.SumRes Res Res') (σ × τ)
  | .inl o, s => ((h o s.1).1, ((h o s.1).2, s.2))
  | .inr o, s => ((g o s.2).1, (s.1, (g o s.2).2))

@[simp] theorem run_sum_inl {Op' : Type} {Res' : Op' → Type} {τ : Type} (g : Handler Res' τ)
    (p : Prog Res α) (s : σ) (t : τ) :
    run (h.sum g) p.inl (s, t) = ((run h p s).1, ((run h p s).2, t)) := by
  induction p generalizing s with
  | ret a => rfl
  | op o k ih => exact ih _ _

/-- One operation of the program. -/
inductive Step : Prog Res α × σ → Prog Res α × σ → Prop
  | op (o : Op) (k : Res o → Prog Res α) (s : σ) :
      Step (.op o k, s) (k (h o s).1, (h o s).2)

/-- The program and state after some number of operations. -/
abbrev Reaches : Prog Res α × σ → Prog Res α × σ → Prop := Relation.ReflTransGen (Step h)

theorem reaches_run (p : Prog Res α) (s : σ) :
    Reaches h (p, s) (.ret (run h p s).1, (run h p s).2) := by
  induction p generalizing s with
  | ret a => exact .refl
  | op o k ih => exact .head (.op o k s) (ih _ _)

theorem Step.bind {c d : Prog Res α × σ} (f : α → Prog Res β) (hs : Step h c d) :
    Step h (c.1 >>= f, c.2) (d.1 >>= f, d.2) := by
  cases hs with
  | op o k s => exact .op o (fun r => k r >>= f) s

theorem Reaches.bind {c d : Prog Res α × σ} (f : α → Prog Res β) (hr : Reaches h c d) :
    Reaches h (c.1 >>= f, c.2) (d.1 >>= f, d.2) := by
  induction hr with
  | refl => exact .refl
  | tail _ hs ih => exact ih.tail (hs.bind h f)

/-- A sequence reaches the beginning of its second part. -/
theorem reaches_bind (p : Prog Res α) (f : α → Prog Res β) (s : σ) :
    Reaches h (p >>= f, s) (f (run h p s).1, (run h p s).2) :=
  Reaches.bind h f (reaches_run h p s)

/-- Whatever state is still ahead of a point on the way is ahead of the beginning. -/
theorem Reaches.exists_trans {c d : Prog Res α × σ} {s : σ} (hr : Reaches h c d)
    (hd : ∃ rest, Reaches h d (rest, s)) : ∃ rest, Reaches h c (rest, s) :=
  hd.imp fun _ => hr.trans

theorem Step.run_eq {c d : Prog Res α × σ} (hs : Step h c d) :
    run h d.1 d.2 = run h c.1 c.2 := by
  cases hs with
  | op o k s => rfl

theorem reaches_run_eq {c d : Prog Res α × σ} (hr : Reaches h c d) :
    run h d.1 d.2 = run h c.1 c.2 := by
  induction hr with
  | refl => rfl
  | tail _ hs ih => rw [hs.run_eq, ih]

/-- From every state the program passes through, its beginning and end included,
`C` holds, and when it ends `Q` holds of the answer. -/
inductive Meets (C : σ → Prop) (Q : α → σ → Prop) : Prog Res α → σ → Prop
  | ret {a : α} {s : σ} (now : C s) (post : Q a s) : Meets C Q (.ret a) s
  | op {o : Op} {k : Res o → Prog Res α} {s : σ} (now : C s)
      (rest : Meets C Q (k (h o s).1) (h o s).2) : Meets C Q (.op o k) s

variable {h} {C C' : σ → Prop} {Q Q' : α → σ → Prop}

theorem Meets.now {p : Prog Res α} {s : σ} (hm : Meets h C Q p s) : C s := by
  cases hm with
  | ret now _ => exact now
  | op now _ => exact now

theorem Meets.step {c d : Prog Res α × σ} (hm : Meets h C Q c.1 c.2) (hs : Step h c d) :
    Meets h C Q d.1 d.2 := by
  cases hs with
  | op o k s =>
      cases hm with
      | op _ rest => exact rest

theorem Meets.reaches {c d : Prog Res α × σ} (hm : Meets h C Q c.1 c.2) (hr : Reaches h c d) :
    Meets h C Q d.1 d.2 := by
  induction hr with
  | refl => exact hm
  | tail _ hs ih => exact ih.step hs

theorem Meets.run {p : Prog Res α} {s : σ} (hm : Meets h C Q p s) :
    Q (run h p s).1 (run h p s).2 := by
  cases hm.reaches (reaches_run h p s) with
  | ret _ post => exact post

theorem Meets.run_eq {p : Prog Res α} {s t : σ} {a : α}
    (hm : Meets h C (fun b u => b = a ∧ u = t) p s) : Interaction.run h p s = (a, t) := by
  obtain ⟨ha, ht⟩ := hm.run
  rw [← ha, ← ht]

theorem Meets.mono {p : Prog Res α} {s : σ} (hm : Meets h C Q p s) (hC : ∀ s, C s → C' s)
    (hQ : ∀ a s, Q a s → Q' a s) : Meets h C' Q' p s := by
  induction hm with
  | ret now post => exact .ret (hC _ now) (hQ _ _ post)
  | op now _ ih => exact .op (hC _ now) ih

theorem Meets.bind {p : Prog Res α} {f : α → Prog Res β} {R : β → σ → Prop} {s : σ}
    (hm : Meets h C (fun a t => Meets h C R (f a) t) p s) : Meets h C R (p >>= f) s := by
  induction hm with
  | ret _ post => exact post
  | op now _ ih => exact .op now ih

/-- The sequencing rule: the first program's postcondition is the second's precondition. -/
theorem Meets.seq {p : Prog Res α} {f : α → Prog Res β} {R : β → σ → Prop} {s : σ}
    (hm : Meets h C Q p s) (hf : ∀ a t, Q a t → Meets h C R (f a) t) :
    Meets h C R (p >>= f) s :=
  Meets.bind (hm.mono (fun _ hC => hC) hf)

end Run

/-! ## Programs that may fail -/

section Failing
variable {Op : Type} {Res : Op → Type} {σ τ α β E : Type} (h : Handler Res σ)

/-- A sequence stops at the first failure. -/
theorem run_exceptT_bind (p : ExceptT E (Prog Res) α) (f : α → ExceptT E (Prog Res) β) (s : σ) :
    run h (p >>= f).run s =
      match run h p.run s with
      | (.ok a, t) => run h (f a).run t
      | (.error e, t) => (.error e, t) := by
  rw [ExceptT.run_bind, run_bind]
  cases run h p.run s with
  | mk r t => cases r <;> rfl

theorem Prog.Answers.exceptT_bind {p : ExceptT E (Prog Res) α} {f : α → ExceptT E (Prog Res) β}
    {R : α → Prop} {Q : Except E β → Prop} (hp : p.run.Answers fun r => ∀ a, r = .ok a → R a)
    (hf : ∀ a, R a → (f a).run.Answers Q) (he : ∀ e, Q (.error e)) : (p >>= f).run.Answers Q := by
  rw [ExceptT.run_bind]
  refine hp.seq fun r hr => ?_
  cases r with
  | error e => exact he e
  | ok a => exact hf a (hr a rfl)

theorem Prog.Answers.exceptT_any (p : ExceptT E (Prog Res) α) {f : α → ExceptT E (Prog Res) β}
    {Q : Except E β → Prop} (hf : ∀ a, (f a).run.Answers Q) (he : ∀ e, Q (.error e)) :
    (p >>= f).run.Answers Q := by
  rw [ExceptT.run_bind]
  refine .bind p.run fun r => ?_
  cases r with
  | error e => exact he e
  | ok a => exact hf a

theorem Prog.Answers.lift {m : Prog Res α} {Q : α → Prop} (hm : m.Answers Q) :
    (liftM m : ExceptT E (Prog Res) α).run.Answers fun r => ∀ a, r = .ok a → Q a := by
  have hrun : (liftM m : ExceptT E (Prog Res) α).run = m >>= fun a => .ret (.ok a) := rfl
  rw [hrun]
  refine hm.seq fun a ha => ?_
  rintro _ ⟨⟩
  exact ha

/-- What the program does to an abstraction of the state: from every state that `abs` takes
to `t`, it answers `r` and ends in a state that `abs` takes to `t'`. -/
def Acts (abs : σ → τ) (p : ExceptT E (Prog Res) α) (t : τ) (r : Except E α) (t' : τ) : Prop :=
  ∀ s, abs s = t → (run h p.run s).1 = r ∧ abs (run h p.run s).2 = t'

variable {h} {abs : σ → τ} {t t' t'' : τ} {p : ExceptT E (Prog Res) α}
  {f : α → ExceptT E (Prog Res) β}

theorem Acts.pure (a : α) : Acts h abs (pure a : ExceptT E (Prog Res) α) t (.ok a) t :=
  fun _ hs => ⟨rfl, hs⟩

theorem Acts.throw (e : E) : Acts h abs (throw e : ExceptT E (Prog Res) α) t (.error e) t :=
  fun _ hs => ⟨rfl, hs⟩

/-- The rule for sequences whose first part succeeds. -/
theorem Acts.bind {a : α} {r : Except E β} (hp : Acts h abs p t (.ok a) t')
    (hf : Acts h abs (f a) t' r t'') : Acts h abs (p >>= f) t r t'' := by
  intro s hs
  obtain ⟨hok, hnext⟩ := hp s hs
  rw [run_exceptT_bind]
  cases hrun : run h p.run s with
  | mk r' s' =>
      rw [hrun] at hok hnext
      cases hok
      exact hf s' hnext

theorem Acts.bind_error {e : E} (hp : Acts h abs p t (.error e) t') :
    Acts h abs (p >>= f) t (.error e) t' := by
  intro s hs
  obtain ⟨herr, hnext⟩ := hp s hs
  rw [run_exceptT_bind]
  cases hrun : run h p.run s with
  | mk r' s' =>
      rw [hrun] at herr hnext
      cases herr
      exact ⟨rfl, hnext⟩

end Failing

/-! ## Simulation between two handlers -/

section Simulation
variable {Op : Type} {Res : Op → Type} {σ τ α : Type}

/-- Related states answer every operation alike and stay related. -/
def Simulates (h : Handler Res σ) (g : Handler Res τ) (R : σ → τ → Prop) : Prop :=
  ∀ o s t, R s t → (h o s).1 = (g o t).1 ∧ R (h o s).2 (g o t).2

theorem Simulates.run {h : Handler Res σ} {g : Handler Res τ} {R : σ → τ → Prop}
    (hsim : Simulates h g R) (p : Prog Res α) {s : σ} {t : τ} (hR : R s t) :
    (Interaction.run h p s).1 = (Interaction.run g p t).1 ∧
      R (Interaction.run h p s).2 (Interaction.run g p t).2 := by
  induction p generalizing s t with
  | ret a => exact ⟨rfl, hR⟩
  | op o k ih =>
      obtain ⟨hr, hnext⟩ := hsim o s t hR
      simp only [run_op, hr]
      exact ih _ hnext

end Simulation
end Interaction
