import Logfs.Lib.Program

/-!
# Block devices with a volatile write cache

A write becomes durable only with the next completed flush. A crash keeps what
was durable and any subset of the writes issued since, each of them whole. The
state is therefore the durable image and the list of writes not yet flushed.
-/
namespace WriteCache
open Interaction

section Images
variable {A B : Type} [DecidableEq A]

/-- The image after a list of block writes, the first of the list issued first. -/
def applyWrites (img : A → B) : List (A × B) → A → B
  | [] => img
  | w :: ws => applyWrites (Function.update img w.1 w.2) ws

@[simp] theorem applyWrites_nil (img : A → B) : applyWrites img [] = img := rfl

@[simp] theorem applyWrites_cons (img : A → B) (w : A × B) (ws : List (A × B)) :
    applyWrites img (w :: ws) = applyWrites (Function.update img w.1 w.2) ws := rfl

theorem applyWrites_append (img : A → B) (us ws : List (A × B)) :
    applyWrites img (us ++ ws) = applyWrites (applyWrites img us) ws := by
  induction us generalizing img with
  | nil => rfl
  | cons u us ih => exact ih _

theorem applyWrites_of_untouched {ws : List (A × B)} {a : A} (h : ∀ w ∈ ws, w.1 ≠ a)
    (img : A → B) : applyWrites img ws a = img a := by
  induction ws generalizing img with
  | nil => rfl
  | cons w ws ih =>
      rw [applyWrites_cons, ih (fun u hu => h u (List.mem_cons_of_mem w hu)),
        Function.update_of_ne (h w List.mem_cons_self).symm]

/-- A block some write goes to ends with the same content over every image. -/
theorem applyWrites_congr {ws : List (A × B)} {a : A} {img img' : A → B}
    (h : (∃ w ∈ ws, w.1 = a) ∨ img a = img' a) :
    applyWrites img ws a = applyWrites img' ws a := by
  induction ws generalizing img img' with
  | nil => exact h.resolve_left (by simp)
  | cons w ws ih =>
      apply ih
      by_cases hw : w.1 = a
      · subst hw; right; simp
      · rcases h with ⟨u, hu, hua⟩ | h
        · rcases List.mem_cons.mp hu with rfl | hu
          · exact absurd hua hw
          · exact .inl ⟨u, hu, hua⟩
        · right; simp [Function.update_of_ne (Ne.symm hw), h]

theorem applyWrites_written {ws : List (A × B)} {a : A} (h : ∃ w ∈ ws, w.1 = a) (img : A → B) :
    ∃ w ∈ ws, w.1 = a ∧ applyWrites img ws a = w.2 := by
  induction ws generalizing img with
  | nil => simp at h
  | cons w ws ih =>
      by_cases hlater : ∃ u ∈ ws, u.1 = a
      · obtain ⟨u, hu, hua, he⟩ := ih hlater (Function.update img w.1 w.2)
        exact ⟨u, List.mem_cons_of_mem w hu, hua, he⟩
      · obtain ⟨u, hu, rfl⟩ := h
        rcases List.mem_cons.mp hu with rfl | hu
        · refine ⟨u, List.mem_cons_self, rfl, ?_⟩
          rw [applyWrites_cons, applyWrites_of_untouched (fun v hv he => hlater ⟨v, hv, he⟩)]
          simp
        · exact absurd ⟨u, hu, rfl⟩ hlater

/-- Writes that put back what is there change nothing. -/
theorem applyWrites_of_noop {ws : List (A × B)} {img : A → B} (h : ∀ w ∈ ws, img w.1 = w.2) :
    applyWrites img ws = img := by
  induction ws with
  | nil => rfl
  | cons w ws ih =>
      rw [applyWrites_cons, ← h w List.mem_cons_self, Function.update_eq_self]
      exact ih fun u hu => h u (List.mem_cons_of_mem w hu)

/-- Replaying a whole list over any image that part of it has reached ends as the list does. -/
theorem applyWrites_absorb {ws us : List (A × B)} (img : A → B)
    (hsub : ∀ u ∈ us, ∃ w ∈ ws, w.1 = u.1) :
    applyWrites (applyWrites img us) ws = applyWrites img ws := by
  funext a
  apply applyWrites_congr
  by_cases h : ∃ w ∈ ws, w.1 = a
  · exact .inl h
  · right
    apply applyWrites_of_untouched
    rintro u hu rfl
    exact h (hsub u hu)

/-- What the last of the writes to `a` puts there. -/
def lastWrite : List (A × B) → A → Option B
  | [], _ => none
  | w :: ws, a => (lastWrite ws a).or (if w.1 = a then some w.2 else none)

@[simp] theorem lastWrite_nil (a : A) : lastWrite ([] : List (A × B)) a = none := rfl

theorem lastWrite_singleton (w : A × B) (a : A) :
    lastWrite [w] a = if w.1 = a then some w.2 else none := rfl

theorem lastWrite_append (us ws : List (A × B)) (a : A) :
    lastWrite (us ++ ws) a = (lastWrite ws a).or (lastWrite us a) := by
  induction us with
  | nil => simp
  | cons u us ih => rw [List.cons_append, lastWrite, ih, lastWrite, Option.or_assoc]

theorem lastWrite_eq_none {ws : List (A × B)} {a : A} :
    lastWrite ws a = none ↔ ∀ w ∈ ws, w.1 ≠ a := by
  induction ws with
  | nil => simp
  | cons w ws ih => simp [lastWrite, ih, and_comm]

theorem mem_of_lastWrite {ws : List (A × B)} {a : A} {b : B} (h : lastWrite ws a = some b) :
    (a, b) ∈ ws := by
  induction ws with
  | nil => cases h
  | cons w ws ih =>
      rw [lastWrite, Option.or_eq_some_iff] at h
      rcases h with h | ⟨-, h⟩
      · exact List.mem_cons_of_mem w (ih h)
      · split_ifs at h with hw
        cases h
        subst hw
        exact List.mem_cons_self

theorem applyWrites_eq_lastWrite (img : A → B) (ws : List (A × B)) (a : A) :
    applyWrites img ws a = (lastWrite ws a).getD (img a) := by
  induction ws generalizing img with
  | nil => rfl
  | cons w ws ih =>
      rw [applyWrites_cons, ih, lastWrite]
      by_cases hw : w.1 = a
      · subst hw
        cases lastWrite ws w.1 <;> simp
      · rw [if_neg hw, Option.or_none, Function.update_of_ne (Ne.symm hw)]

/-- With one write at most to each block, the first found is the last. -/
theorem lastWrite_of_nodup {ws : List (A × B)} (h : (ws.map Prod.fst).Nodup) (a : A) :
    lastWrite ws a = (ws.find? fun w => w.1 == a).map Prod.snd := by
  induction ws with
  | nil => rfl
  | cons w ws ih =>
      rw [List.map_cons, List.nodup_cons] at h
      rw [lastWrite, ih h.2]
      by_cases hw : w.1 = a
      · subst hw
        have hnone : (ws.find? fun u => u.1 == w.1) = none := by
          rw [List.find?_eq_none]
          exact fun u hu he => h.1 (List.mem_map.mpr ⟨u, hu, by simpa using he⟩)
        simp [hnone]
      · rw [if_neg hw, Option.or_none, List.find?_cons_of_neg (by simpa using hw)]

end Images

/-! ## The device -/

inductive DevOp (A B : Type) : Type
  | read (a : A)
  | write (a : A) (b : B)
  | flush

/-- Every operation may answer with an error of type `E`. -/
def DevRes {A B : Type} (E : Type) : DevOp A B → Type
  | .read _ => Except E B
  | .write _ _ => Except E Unit
  | .flush => Except E Unit

abbrev DevProg (A B E α : Type) := Prog (DevRes (A := A) (B := B) E) α

structure Cache (A B : Type) where
  durable : A → B
  /-- Writes since the last completed flush, oldest first. -/
  pending : List (A × B)

section Updates
variable {A B : Type}

/-- Everything written so far has been flushed. -/
def settled (img : A → B) : Cache A B := ⟨img, []⟩

@[simp] theorem pending_settled (img : A → B) : (settled img).pending = [] := rfl

@[simp] theorem durable_settled (img : A → B) : (settled img).durable = img := rfl

def Cache.write (c : Cache A B) (a : A) (b : B) : Cache A B :=
  { c with pending := c.pending ++ [(a, b)] }

def Cache.writes (c : Cache A B) (ws : List (A × B)) : Cache A B :=
  { c with pending := c.pending ++ ws }

@[simp] theorem durable_write (c : Cache A B) (a : A) (b : B) :
    (c.write a b).durable = c.durable := rfl

@[simp] theorem pending_write (c : Cache A B) (a : A) (b : B) :
    (c.write a b).pending = c.pending ++ [(a, b)] := rfl

@[simp] theorem durable_writes (c : Cache A B) (ws : List (A × B)) :
    (c.writes ws).durable = c.durable := rfl

@[simp] theorem pending_writes (c : Cache A B) (ws : List (A × B)) :
    (c.writes ws).pending = c.pending ++ ws := rfl

@[simp] theorem writes_nil (c : Cache A B) : c.writes [] = c := by
  simp [Cache.writes]

theorem write_writes (c : Cache A B) (a : A) (b : B) (ws : List (A × B)) :
    (c.write a b).writes ws = c.writes ((a, b) :: ws) := by
  simp [Cache.write, Cache.writes]

theorem writes_writes (c : Cache A B) (us ws : List (A × B)) :
    (c.writes us).writes ws = c.writes (us ++ ws) := by
  simp [Cache.writes]

end Updates

section Device
variable {A B E α : Type} [DecidableEq A]

/-- What a read of the running system sees. -/
def Cache.view (c : Cache A B) : A → B := applyWrites c.durable c.pending

@[simp] theorem view_settled (img : A → B) : (settled img).view = img := rfl

def Cache.flush (c : Cache A B) : Cache A B := settled c.view

@[simp] theorem view_write (c : Cache A B) (a : A) (b : B) :
    (c.write a b).view = Function.update c.view a b := by
  simp [Cache.write, Cache.view, applyWrites_append]

@[simp] theorem view_writes (c : Cache A B) (ws : List (A × B)) :
    (c.writes ws).view = applyWrites c.view ws := by
  simp [Cache.writes, Cache.view, applyWrites_append]

@[simp] theorem view_flush (c : Cache A B) : c.flush.view = c.view := rfl

/-- The device that never fails. -/
def faultless : Handler (DevRes (A := A) (B := B) E) (Cache A B)
  | .read a, c => (.ok (c.view a), c)
  | .write a b, c => (.ok (), c.write a b)
  | .flush, c => (.ok (), c.flush)

/-! ## Programs that only read -/

def ReadOnly : DevProg A B E α → Prop
  | .ret _ => True
  | .op o k => (∃ a, o = .read a) ∧ ∀ r, ReadOnly (k r)

omit [DecidableEq A] in
theorem ReadOnly.bind {β : Type} {p : DevProg A B E α} {f : α → DevProg A B E β} (hp : ReadOnly p)
    (hf : ∀ a, ReadOnly (f a)) : ReadOnly (p >>= f) := by
  induction p with
  | ret a => exact hf a
  | op o k ih => exact ⟨hp.1, fun r => ih r (hp.2 r)⟩

omit [DecidableEq A] in
theorem ReadOnly.ite {P : Prop} [Decidable P] {p q : DevProg A B E α} (hp : ReadOnly p)
    (hq : ReadOnly q) : ReadOnly (if P then p else q) := by
  split
  · exact hp
  · exact hq

theorem ReadOnly.run_snd {p : DevProg A B E α} (hp : ReadOnly p) (c : Cache A B) :
    (run faultless p c).2 = c := by
  induction p with
  | ret a => rfl
  | op o k ih =>
      obtain ⟨⟨a, rfl⟩, hk⟩ := hp
      exact ih _ (hk _)

/-- A program that only reads stays in the state it began in. -/
theorem ReadOnly.meets_bind {β : Type} {p : DevProg A B E α} {f : α → DevProg A B E β}
    (hp : ReadOnly p) {C : Cache A B → Prop} {Q : β → Cache A B → Prop} {c : Cache A B} (hC : C c)
    (hf : Meets faultless C Q (f (run faultless p c).1) c) : Meets faultless C Q (p >>= f) c := by
  induction p with
  | ret a => exact hf
  | op o k ih =>
      obtain ⟨⟨a, rfl⟩, hk⟩ := hp
      exact .op hC (ih _ (hk _) hf)

/-! ## Crashes -/

/-- An image a crash can leave: some subset of the unflushed writes survives. -/
def Survives (c : Cache A B) (img : A → B) : Prop :=
  ∃ ws : List (A × B), ws.Sublist c.pending ∧ img = applyWrites c.durable ws

theorem survives_settled {img img' : A → B} : Survives (settled img) img' ↔ img' = img := by
  constructor
  · rintro ⟨ws, hsub, rfl⟩
    rw [List.sublist_nil.mp hsub]
    rfl
  · rintro rfl
    exact ⟨[], .slnil, rfl⟩

theorem survives_durable (c : Cache A B) : Survives c c.durable :=
  ⟨[], List.nil_sublist _, rfl⟩

theorem survives_view (c : Cache A B) : Survives c c.view :=
  ⟨c.pending, .refl _, rfl⟩

/-- The entries of the list the mask marks. -/
def keep {α : Type} : List Bool → List α → List α
  | true :: mask, x :: xs => x :: keep mask xs
  | false :: mask, _ :: xs => keep mask xs
  | _, _ => []

theorem keep_sublist {α : Type} (mask : List Bool) (xs : List α) : (keep mask xs).Sublist xs := by
  induction xs generalizing mask with
  | nil => rcases mask with _ | ⟨b, mask⟩ <;> simp [keep]
  | cons x xs ih =>
      rcases mask with _ | ⟨_ | _, mask⟩
      · simp [keep]
      · exact (ih mask).cons x
      · exact (ih mask).cons_cons x

/-- Block by block, a crash leaves the durable content or that of an unflushed write. -/
theorem Survives.cases {c : Cache A B} {img : A → B} (h : Survives c img) (a : A) :
    img a = c.durable a ∨ ∃ w ∈ c.pending, w.1 = a ∧ img a = w.2 := by
  obtain ⟨ws, hsub, rfl⟩ := h
  by_cases ht : ∃ w ∈ ws, w.1 = a
  · obtain ⟨w, hw, ha, he⟩ := applyWrites_written ht c.durable
    exact .inr ⟨w, hsub.subset hw, ha, he⟩
  · exact .inl (applyWrites_of_untouched (fun w hw ha => ht ⟨w, hw, ha⟩) _)

theorem survives_write {c : Cache A B} {a : A} {b : B} {img : A → B}
    (h : Survives (c.write a b) img) :
    Survives c img ∨ ∃ img₀, Survives c img₀ ∧ img = Function.update img₀ a b := by
  obtain ⟨ws, hsub, rfl⟩ := h
  obtain ⟨us, vs, rfl, hus, hvs⟩ := List.sublist_append_iff.mp hsub
  rcases List.sublist_singleton.mp hvs with rfl | rfl
  · exact .inl ⟨us, hus, by simp⟩
  · exact .inr ⟨_, ⟨us, hus, rfl⟩, by simp [applyWrites_append]⟩

/-- A block the `k`-th write went to ends with its content or that of a later write. -/
theorem applyWrites_since {ws : List (A × B)} {k : ℕ} {a : A} {b : B} (h : ws[k]? = some (a, b))
    (img : A → B) : ∃ m b', k ≤ m ∧ ws[m]? = some (a, b') ∧ applyWrites img ws a = b' := by
  obtain ⟨hk, hget⟩ := List.getElem?_eq_some_iff.mp h
  have hmem : ∃ w ∈ ws.drop k, w.1 = a := by
    refine ⟨(a, b), ?_, rfl⟩
    rw [List.drop_eq_getElem_cons hk, hget]
    exact List.mem_cons_self
  obtain ⟨⟨_, b'⟩, hw, rfl, he⟩ := applyWrites_written hmem (applyWrites img (ws.take k))
  obtain ⟨i, hi⟩ := List.mem_iff_getElem?.mp hw
  rw [List.getElem?_drop] at hi
  rw [← applyWrites_append, List.take_append_drop] at he
  exact ⟨k + i, b', Nat.le_add_right _ _, hi, he⟩

/-- A write that has been flushed is in every image a crash leaves, or a later write to the
same block is. `past` are the flushed writes, over `img`. -/
theorem Survives.since {c : Cache A B} {img i : A → B} {past : List (A × B)}
    (hpast : c.durable = applyWrites img past) {k : ℕ} {a : A} {b : B} (hk : past[k]? = some (a, b))
    (h : Survives c i) : ∃ m b', k ≤ m ∧ (past ++ c.pending)[m]? = some (a, b') ∧ i a = b' := by
  have hlt := (List.getElem?_eq_some_iff.mp hk).1
  rcases h.cases a with hold | ⟨⟨_, b'⟩, hw, rfl, hnew⟩
  · obtain ⟨m, b', hkm, hm, he⟩ := applyWrites_since hk img
    refine ⟨m, b', hkm, ?_, by rw [hold, hpast, he]⟩
    rw [List.getElem?_append_left (List.getElem?_eq_some_iff.mp hm).1]
    exact hm
  · obtain ⟨n, hn⟩ := List.mem_iff_getElem?.mp hw
    refine ⟨past.length + n, b', by omega, ?_, hnew⟩
    rw [List.getElem?_append_right (Nat.le_add_right _ _), Nat.add_sub_cancel_left]
    exact hn

/-- The images left when the program is cut before any of its operations or after the last. -/
def CrashesInto (p : DevProg A B E α) (c : Cache A B) (img : A → B) : Prop :=
  ∃ d, Reaches faultless (p, c) d ∧ Survives d.2 img

theorem Meets.crash {p : DevProg A B E α} {c : Cache A B} {K : (A → B) → Prop}
    {Q : α → Cache A B → Prop}
    (h : Meets faultless (fun c => ∀ img, Survives c img → K img) Q p c) {img : A → B}
    (hc : CrashesInto p c img) : K img := by
  obtain ⟨d, hr, hs⟩ := hc
  exact (h.reaches hr).now img hs

end Device
end WriteCache
