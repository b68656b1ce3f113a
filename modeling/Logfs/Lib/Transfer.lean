import Mathlib

/-!
# Transfers in several attempts

A loop that moves a number of items one attempt after the other. An attempt may move fewer than are
left, be interrupted, fail, or move nothing at all. The attempts are a list, so the loop is still going on
when they run out.
-/
namespace Transfer

inductive Attempt (ε : Type)
  | moved (n : ℕ)
  | interrupted
  | failed (e : ε)

def Attempt.uninterrupted {ε : Type} : Attempt ε → Bool
  | .interrupted => false
  | _ => true

/-- How far the loop has come; it has no result while it goes on. -/
structure Progress (σ ε : Type) where
  state : σ
  done : ℕ
  result : Option (Except ε Unit)

/-- The effect of `n` items moved after the first `done`, and what the loop does if none are. -/
structure Mover (σ ε : Type) where
  move : σ → ℕ → ℕ → σ
  stall : σ → ℕ → Except ε Unit × σ

variable {σ ε : Type} (M : Mover σ ε) (len : ℕ)

def transfer : List (Attempt ε) → ℕ → σ → Progress σ ε
  | [], done, s => ⟨s, done, if done < len then none else some (.ok ())⟩
  | a :: as, done, s =>
      if done < len then
        match a with
        | .interrupted => transfer as done s
        | .failed e => ⟨s, done, some (.error e)⟩
        | .moved 0 => ⟨(M.stall s done).2, done, some (M.stall s done).1⟩
        | .moved (n + 1) => transfer as (done + (n + 1)) (M.move s done (n + 1))
      else ⟨s, done, some (.ok ())⟩

def Possible (can : σ → ℕ → Attempt ε → Prop) : List (Attempt ε) → ℕ → σ → Prop
  | [], _, _ => True
  | a :: as, done, s =>
      done < len → can s done a ∧
        match a with
        | .interrupted => Possible can as done s
        | .moved (n + 1) => Possible can as (done + (n + 1)) (M.move s done (n + 1))
        | _ => True

/-- Where the loop can be, with `I` of how much has been moved and of the state. -/
inductive Stands (can : σ → ℕ → Attempt ε → Prop) (I : ℕ → σ → Prop) : Progress σ ε → Prop
  | going {s : σ} {n : ℕ} (inv : I n s) (short : n < len) : Stands can I ⟨s, n, none⟩
  | whole {s : σ} (inv : I len s) : Stands can I ⟨s, len, some (.ok ())⟩
  | failed {s : σ} {n : ℕ} {e : ε} (inv : I n s) (short : n < len) (now : can s n (.failed e)) :
      Stands can I ⟨s, n, some (.error e)⟩
  | stalled {s : σ} {n : ℕ} (inv : I n s) (short : n < len) (now : can s n (.moved 0)) :
      Stands can I ⟨(M.stall s n).2, n, some (M.stall s n).1⟩

variable {M len} {can : σ → ℕ → Attempt ε → Prop} {I : ℕ → σ → Prop} {as : List (Attempt ε)} {done : ℕ} {s : σ}

/-- An invariant of the moves holds wherever the loop stops. -/
theorem stands_transfer (hmove : ∀ s done n, can s done (.moved (n + 1)) → I done s →
    done + (n + 1) ≤ len ∧ I (done + (n + 1)) (M.move s done (n + 1))) (has : Possible M len can as done s) (hle : done ≤ len)
    (hI : I done s) : Stands M len can I (transfer M len as done s) := by
  induction as generalizing done s with
  | nil =>
      unfold transfer
      split
      · next hlt => exact .going hI hlt
      · next hge =>
          obtain rfl : done = len := by omega
          exact .whole hI
  | cons a as ih =>
      unfold transfer
      split
      · next hlt =>
          obtain ⟨hcan, hrest⟩ := has hlt
          cases a with
          | interrupted => exact ih hrest hle hI
          | failed e => exact .failed hI hlt hcan
          | moved n =>
              cases n with
              | zero => exact .stalled hI hlt hcan
              | succ n =>
                  obtain ⟨hle', hI'⟩ := hmove s done n hcan hI
                  exact ih hrest hle' hI'
      · next hge =>
          obtain rfl : done = len := by omega
          exact .whole hI

/-- The loop ends after at most as many uninterrupted attempts as there are items. -/
theorem transfer_ends (hcount : len ≤ done + as.countP Attempt.uninterrupted) :
    (transfer M len as done s).result ≠ none := by
  induction as generalizing done s with
  | nil =>
      have hge : ¬ done < len := by simpa using hcount
      simp [transfer, hge]
  | cons a as ih =>
      unfold transfer
      split
      · cases a with
        | interrupted =>
            apply ih
            simpa [Attempt.uninterrupted] using hcount
        | failed e => simp
        | moved n =>
            rw [List.countP_cons_of_pos (by rfl)] at hcount
            cases n with
            | zero => simp
            | succ n =>
                apply ih
                omega
      · simp

theorem transfer_once (hlen : 0 < len) : transfer M len [.moved len] 0 s = ⟨M.move s 0 len, len, some (.ok ())⟩ := by
  obtain ⟨n, rfl⟩ := Nat.exists_eq_succ_of_ne_zero hlen.ne'
  simp [transfer]

theorem possible_once (hcan : can s 0 (.moved len)) : Possible M len can [.moved len] 0 s := by
  intro hlen
  obtain ⟨n, rfl⟩ := Nat.exists_eq_succ_of_ne_zero hlen.ne'
  exact ⟨hcan, trivial⟩

end Transfer
