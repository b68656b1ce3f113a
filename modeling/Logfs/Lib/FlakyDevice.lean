import Logfs.Lib.WriteCache

/-!
# Devices that fail

A pattern gives the outcome of each operation in turn. A write that fails may have
been taken up nevertheless, and a flush that fails makes nothing durable. The trace
keeps the writes and flushes that succeeded.
-/
namespace WriteCache
open Interaction

inductive Outcome
  | done
  /-- For a write: whether the block was taken up all the same. -/
  | failed (applied : Bool)
  deriving DecidableEq

/-- A write or a flush that reported success. -/
inductive Event (A B : Type) : Type
  | wrote (a : A) (b : B)
  | flushed

structure Flaky (A B : Type) where
  cache : Cache A B
  /-- How many operations have been answered. -/
  answered : ℕ
  trace : List (Event A B)

variable {A B E : Type}

/-- A device with this content that has answered nothing yet. -/
def Flaky.fresh (img : A → B) : Flaky A B := ⟨settled img, 0, []⟩

/-- The content stays flushed and block `a` holds `b`, unless something later wrote to it. -/
def FlushedWrite (trace : List (Event A B)) (a : A) (b : B) : Prop :=
  ∃ us vs, trace = us ++ vs ∧ .wrote a b ∈ us ∧ .flushed ∈ vs

theorem FlushedWrite.append {us : List (Event A B)} {a : A} {b : B} (h : FlushedWrite us a b)
    (vs : List (Event A B)) : FlushedWrite (us ++ vs) a b := by
  obtain ⟨ws, xs, rfl, hw, hf⟩ := h
  exact ⟨ws, xs ++ vs, by simp, hw, List.mem_append_left _ hf⟩

/-- A flush makes everything written before it durable. -/
theorem flushedWrite_flush {us : List (Event A B)} {a : A} {b : B} (h : .wrote a b ∈ us) :
    FlushedWrite (us ++ [.flushed]) a b := ⟨us, [.flushed], rfl, h, by simp⟩

theorem FlushedWrite.wrote {us : List (Event A B)} {a : A} {b : B} (h : FlushedWrite us a b) :
    .wrote a b ∈ us := by
  obtain ⟨ws, xs, rfl, hw, -⟩ := h
  exact List.mem_append_left _ hw

variable [DecidableEq A]

/-- The device that fails by the pattern, with error `e`. -/
def flaky (pattern : ℕ → Outcome) (e : E) : Handler (DevRes (A := A) (B := B) E) (Flaky A B)
  | .read a, d =>
      match pattern d.answered with
      | .done => (.ok (d.cache.view a), { d with answered := d.answered + 1 })
      | .failed _ => (.error e, { d with answered := d.answered + 1 })
  | .write a b, d =>
      match pattern d.answered with
      | .done => (.ok (), ⟨d.cache.write a b, d.answered + 1, d.trace ++ [.wrote a b]⟩)
      | .failed applied =>
          (.error e, ⟨if applied then d.cache.write a b else d.cache, d.answered + 1, d.trace⟩)
  | .flush, d =>
      match pattern d.answered with
      | .done => (.ok (), ⟨d.cache.flush, d.answered + 1, d.trace ++ [.flushed]⟩)
      | .failed _ => (.error e, { d with answered := d.answered + 1 })

theorem trace_flaky (pattern : ℕ → Outcome) (e : E) (o : DevOp A B) (d : Flaky A B) :
    d.trace <+: (flaky pattern e o d).2.trace := by
  cases o with
  | read a =>
      simp only [flaky]
      split <;> exact List.prefix_refl _
  | write a b =>
      simp only [flaky]
      split
      · exact List.prefix_append _ _
      · exact List.prefix_refl _
  | flush =>
      simp only [flaky]
      split
      · exact List.prefix_append _ _
      · exact List.prefix_refl _

/-- A write succeeds and is in the trace, or fails and is not. -/
theorem flaky_write (pattern : ℕ → Outcome) (e : E) (a : A) (b : B) (d : Flaky A B) :
    (pattern d.answered = .done ∧ flaky pattern e (.write a b) d =
        ((.ok () : Except E Unit), ⟨d.cache.write a b, d.answered + 1, d.trace ++ [.wrote a b]⟩)) ∨
      ∃ applied, pattern d.answered = .failed applied ∧ flaky pattern e (.write a b) d =
        ((.error e : Except E Unit),
          ⟨if applied then d.cache.write a b else d.cache, d.answered + 1, d.trace⟩) := by
  cases hp : pattern d.answered with
  | done => exact .inl ⟨rfl, by simp only [flaky, hp]; rfl⟩
  | failed applied => exact .inr ⟨applied, rfl, by simp only [flaky, hp]; rfl⟩

theorem flaky_flush (pattern : ℕ → Outcome) (e : E) (d : Flaky A B) :
    (pattern d.answered = .done ∧ flaky pattern e (.flush : DevOp A B) d =
        ((.ok () : Except E Unit), ⟨d.cache.flush, d.answered + 1, d.trace ++ [.flushed]⟩)) ∨
      ∃ applied, pattern d.answered = .failed applied ∧ flaky pattern e (.flush : DevOp A B) d =
        ((.error e : Except E Unit), { d with answered := d.answered + 1 }) := by
  cases hp : pattern d.answered with
  | done => exact .inl ⟨rfl, by simp only [flaky, hp]; rfl⟩
  | failed applied => exact .inr ⟨applied, rfl, by simp only [flaky, hp]; rfl⟩

end WriteCache
