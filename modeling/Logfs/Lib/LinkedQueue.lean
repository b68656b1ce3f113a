import Mathlib.Logic.Function.Basic
import Mathlib.Data.List.Basic

/-!
# Linked queues

A queue of cells on a heap: `head` points to the first cell, each cell to the next, `tail` to the
last. Cells that are not in the queue belong to others, and an operation leaves them alone. An
access to no cell has no outcome.
-/
namespace LinkedQueue

structure Cell (P V : Type) where
  val : V
  next : Option P

structure Queue (P V : Type) where
  heap : P → Option (Cell P V)
  head : Option P
  tail : Option P

variable {P V : Type} [DecidableEq P]

/-! ## Operations -/

namespace Queue

/-- A new cell at `p`, in no queue. -/
def alloc (q : Queue P V) (p : P) (v : V) : Queue P V :=
  { q with heap := Function.update q.heap p (some ⟨v, none⟩) }

def free (q : Queue P V) (p : P) : Queue P V := { q with heap := Function.update q.heap p none }

/-- Links the cell at `p` in behind the last one. -/
def push (q : Queue P V) (p : P) : Option (Queue P V) :=
  match q.tail with
  | some t => (q.heap t).map fun c =>
      { q with heap := Function.update q.heap t (some { c with next := some p }), tail := some p }
  | none => some { q with head := some p, tail := some p }

/-- Takes the first cell out; it stays allocated. -/
def pop (q : Queue P V) : Option (P × Queue P V) :=
  q.head.bind fun p => (q.heap p).map fun c =>
    (p, if c.next = none then { q with head := none, tail := none } else { q with head := c.next })

end Queue

/-! ## Chains of cells -/

/-- The cells a pointer leads through to the end. -/
inductive Chain (heap : P → Option (Cell P V)) : Option P → List P → Prop
  | nil : Chain heap none []
  | cons {p : P} {c : Cell P V} {ps : List P} (here : heap p = some c) (rest : Chain heap c.next ps) :
      Chain heap (some p) (p :: ps)

def vals (heap : P → Option (Cell P V)) (ps : List P) : List V :=
  ps.filterMap fun p => (heap p).map Cell.val

variable {heap : P → Option (Cell P V)} {a : Option P} {p t : P} {c : Cell P V} {ps qs : List P}

omit [DecidableEq P] in
theorem Chain.unique (hps : Chain heap a ps) (hqs : Chain heap a qs) : ps = qs := by
  induction hps generalizing qs with
  | nil => cases hqs; rfl
  | cons here _ ih =>
      cases hqs with
      | cons here' rest' =>
          cases here.symm.trans here'
          rw [ih rest']

omit [DecidableEq P] in
theorem Chain.drop (hps : Chain heap a (qs ++ p :: ps)) : Chain heap (some p) (p :: ps) := by
  induction qs generalizing a with
  | nil => cases hps with | cons here rest => exact .cons here rest
  | cons q qs ih => cases hps with | cons _ rest => exact ih rest

omit [DecidableEq P] in
/-- A chain that ends comes by no cell twice. -/
theorem Chain.nodup (hps : Chain heap a ps) : ps.Nodup := by
  induction hps with
  | nil => exact List.nodup_nil
  | @cons p c ps here rest ih =>
      refine List.nodup_cons.mpr ⟨fun hmem => ?_, ih⟩
      obtain ⟨qs, rs, rfl⟩ := List.append_of_mem hmem
      have hsame := (Chain.cons here rest).unique rest.drop
      have hlen := congrArg List.length hsame
      simp at hlen
      omega

omit [DecidableEq P] in
theorem Chain.allocated (hps : Chain heap a ps) (hp : p ∈ ps) : ∃ c, heap p = some c := by
  induction hps with
  | nil => cases hp
  | cons here _ ih =>
      rcases List.mem_cons.mp hp with rfl | hp
      · exact ⟨_, here⟩
      · exact ih hp

theorem Chain.update {o : Option (Cell P V)} (hps : Chain heap a ps) (hp : p ∉ ps) :
    Chain (Function.update heap p o) a ps := by
  induction hps with
  | nil => exact .nil
  | cons here _ ih =>
      obtain ⟨hne, hp⟩ := not_or.mp (fun h => hp (List.mem_cons.mpr h))
      exact .cons (by rwa [Function.update_of_ne (Ne.symm hne)]) (ih hp)

/-- The last cell of a chain takes a cell with no successor behind it. -/
theorem Chain.snoc {v : V} (hps : Chain heap a (ps ++ [t])) (ht : heap t = some c) (hp : heap p = some ⟨v, none⟩)
    (hnew : p ∉ ps ++ [t]) :
    Chain (Function.update heap t (some { c with next := some p })) a (ps ++ [t, p]) := by
  have hdup := hps.nodup
  induction ps generalizing a with
  | nil =>
      cases hps
      have hpt : p ≠ t := by simpa using hnew
      exact .cons (Function.update_self ..) (.cons (by rwa [Function.update_of_ne hpt]) .nil)
  | cons q ps ih =>
      have hqt : q ≠ t := by
        rintro rfl
        simp at hdup
      cases hps with
      | cons here rest =>
          exact .cons (by rwa [Function.update_of_ne hqt])
            (ih rest (fun h => hnew (List.mem_cons_of_mem q h)) (List.nodup_cons.mp hdup).2)

/-! ## Contents -/

omit [DecidableEq P] in
theorem vals_congr {heap' : P → Option (Cell P V)} (hsame : ∀ p ∈ ps, heap' p = heap p) :
    vals heap' ps = vals heap ps :=
  List.filterMap_congr fun q hq => by rw [hsame q hq]

theorem vals_relink {n : Option P} (ht : heap t = some c) :
    vals (Function.update heap t (some { c with next := n })) ps = vals heap ps := by
  refine List.filterMap_congr fun q _ => ?_
  by_cases hq : q = t
  · rw [hq, Function.update_self, ht]; rfl
  · rw [Function.update_of_ne hq]

omit [DecidableEq P] in
theorem vals_append : vals heap (ps ++ qs) = vals heap ps ++ vals heap qs := List.filterMap_append

omit [DecidableEq P] in
theorem vals_cons (hp : heap p = some c) : vals heap (p :: ps) = c.val :: vals heap ps := by simp [vals, hp]

omit [DecidableEq P] in
@[simp] theorem vals_nil : vals heap [] = [] := rfl

/-! ## What the operations do -/

/-- The queue is the cells `ps`, in order. -/
structure Holds (q : Queue P V) (ps : List P) : Prop where
  chain : Chain q.heap q.head ps
  tail : q.tail = ps.getLast?

namespace Holds
variable {q : Queue P V}

omit [DecidableEq P] in
theorem head_eq_none (hq : Holds q ps) : q.head = none ↔ ps = [] := by
  have hchain := hq.chain
  constructor
  · intro hnone
    rw [hnone] at hchain
    cases hchain
    rfl
  · rintro rfl
    generalize q.head = a at hchain
    cases hchain
    rfl

theorem alloc {v : V} (hq : Holds q ps) (hp : p ∉ ps) : Holds (q.alloc p v) ps := ⟨hq.chain.update hp, hq.tail⟩

theorem free (hq : Holds q ps) (hp : p ∉ ps) : Holds (q.free p) ps := ⟨hq.chain.update hp, hq.tail⟩

/-- A push succeeds, adds its cell at the end and changes no cell outside the queue. -/
theorem push {v : V} (hq : Holds q ps) (hp : q.heap p = some ⟨v, none⟩) (hnew : p ∉ ps) :
    ∃ r, q.push p = some r ∧ Holds r (ps ++ [p]) ∧ vals r.heap (ps ++ [p]) = vals q.heap ps ++ [v] ∧
      ∀ o ∉ ps, r.heap o = q.heap o := by
  rcases List.eq_nil_or_concat ps with rfl | ⟨qs, t, rfl⟩
  · have htail : q.tail = none := hq.tail
    refine ⟨{ q with head := some p, tail := some p }, by rw [Queue.push, htail], ⟨.cons hp .nil, rfl⟩, ?_,
      fun o _ => rfl⟩
    exact vals_cons hp
  · rw [List.concat_eq_append] at hq hnew ⊢
    have htail : q.tail = some t := by rw [hq.tail, List.getLast?_concat]
    obtain ⟨c, ht⟩ := hq.chain.allocated (p := t) (by simp)
    refine ⟨{ q with heap := Function.update q.heap t (some { c with next := some p }), tail := some p },
      by rw [Queue.push, htail]; simp [ht], ⟨?_, by simp⟩, ?_, fun o ho => Function.update_of_ne (by rintro rfl; simp at ho) ..⟩
    · rw [List.append_assoc]
      exact hq.chain.snoc ht hp hnew
    · rw [vals_relink ht, vals_append, vals_cons hp, vals_nil]

omit [DecidableEq P] in
/-- A pop succeeds on a queue that is not empty, takes its first cell and changes no cell. -/
theorem pop (hq : Holds q (p :: ps)) :
    ∃ c r, q.heap p = some c ∧ q.pop = some (p, r) ∧ Holds r ps ∧ r.heap = q.heap := by
  have hchain := hq.chain
  generalize hhead : q.head = a at hchain
  cases hchain with
  | @cons _ c _ here rest =>
      refine ⟨c, if c.next = none then { q with head := none, tail := none } else { q with head := c.next },
        here, by rw [Queue.pop, hhead]; simp [here], ?_, by split_ifs <;> rfl⟩
      split_ifs with hlast
      · rw [hlast] at rest
        cases rest
        exact ⟨.nil, rfl⟩
      · refine ⟨rest, ?_⟩
        cases ps with
        | nil =>
            generalize c.next = n at rest hlast
            cases rest
            exact absurd rfl hlast
        | cons r ps => rw [hq.tail, List.getLast?_cons_cons]

end Holds
end LinkedQueue
