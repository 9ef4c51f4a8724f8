/-
Computations with a state that may fail, and that record what they do. What
was recorded stays when they fail.
-/
import DGen.Lib.Result

/-- A computation, its record with the state of each entry. -/
def Traced (ι σ ε α : Type) : Type := σ → List (ι × σ) × Except ε (α × σ)

namespace Traced

variable {ι σ ε α β : Type}

/-- What is recorded from a state. -/
def trace (x : Traced ι σ ε α) (s : σ) : List (ι × σ) := (x s).1

/-- The computation without its record. -/
def result (x : Traced ι σ ε α) : StateT σ (Except ε) α := fun s => (x s).2

theorem ext {x y : Traced ι σ ε α} (ht : ∀ s, x.trace s = y.trace s) (hr : ∀ s, x.result s = y.result s) : x = y :=
  funext fun s => Prod.ext (ht s) (hr s)

instance : Monad (Traced ι σ ε) where
  pure a := fun s => ([], .ok (a, s))
  bind x f := fun s =>
    match x s with
    | (t, .ok (a, s')) => (t ++ (f a s').1, (f a s').2)
    | (t, .error e) => (t, .error e)

instance : MonadLift (StateT σ (Except ε)) (Traced ι σ ε) := ⟨fun x s => ([], x s)⟩

/-- Enter something into the record. -/
def note (i : ι) : Traced ι σ ε Unit := fun s => ([(i, s)], .ok ((), s))

/-- The computation, with an entry for all it does. -/
def summed (i : ι) (x : Traced ι σ ε α) : Traced ι σ ε α := fun s => ([(i, s)], x.result s)

section

variable {x : Traced ι σ ε α} {f : α → Traced ι σ ε β} {s : σ}

@[simp] theorem result_pure (a : α) : (pure a : Traced ι σ ε α).result = pure a := rfl

@[simp] theorem result_lift (y : StateT σ (Except ε) α) : (liftM y : Traced ι σ ε α).result = y := rfl

@[simp] theorem trace_lift (y : StateT σ (Except ε) α) : (liftM y : Traced ι σ ε α).trace s = [] := rfl

@[simp] theorem result_note (i : ι) : (note i : Traced ι σ ε Unit).result = pure () := rfl

theorem trace_bind_of_ok {a : α} {s' : σ} (h : x.result s = .ok (a, s')) :
    (x >>= f).trace s = x.trace s ++ (f a).trace s' := by
  have hx : x s = (x.trace s, .ok (a, s')) := Prod.ext rfl h
  simp only [bind, trace] at hx ⊢
  rw [hx]

theorem trace_bind_of_error {e : ε} (h : x.result s = .error e) : (x >>= f).trace s = x.trace s := by
  have hx : x s = (x.trace s, .error e) := Prod.ext rfl h
  simp only [bind, trace] at hx ⊢
  rw [hx]

@[simp] theorem result_bind : (x >>= f).result = x.result >>= fun a => (f a).result := by
  funext s
  cases h : x.result s with
  | ok r =>
    have hx : x s = (x.trace s, .ok (r.1, r.2)) := Prod.ext rfl h
    rw [StateT.bind_of_ok h]
    simp only [bind, result]
    rw [hx]
  | error e =>
    have hx : x s = (x.trace s, .error e) := Prod.ext rfl h
    rw [StateT.bind_of_error h]
    simp only [bind, result]
    rw [hx]

/-- The record of one computation after the other. -/
theorem mem_trace_bind {i : ι × σ} : i ∈ (x >>= f).trace s ↔
    i ∈ x.trace s ∨ ∃ a s', x.result s = .ok (a, s') ∧ i ∈ (f a).trace s' := by
  cases h : x.result s with
  | ok r => simp [trace_bind_of_ok (show x.result s = .ok (r.1, r.2) from h), Prod.ext_iff, and_assoc]
  | error e => simp [trace_bind_of_error h]

theorem forall_trace_bind {P : ι × σ → Prop} : (∀ i ∈ (x >>= f).trace s, P i) ↔
    (∀ i ∈ x.trace s, P i) ∧ ∀ a s', x.result s = .ok (a, s') → ∀ i ∈ (f a).trace s', P i := by
  simp only [mem_trace_bind]
  constructor
  · exact fun h => ⟨fun i hi => h i (.inl hi), fun a s' ha i hi => h i (.inr ⟨a, s', ha, hi⟩)⟩
  · rintro ⟨hx, hf⟩ i (hi | ⟨a, s', ha, hi⟩)
    exacts [hx i hi, hf a s' ha i hi]

end

protected theorem bind_pure (x : Traced ι σ ε α) : x >>= pure = x := by
  refine ext (fun s => ?_) fun s => ?_
  · cases h : x.result s with
    | ok r => exact (trace_bind_of_ok h).trans (List.append_nil _)
    | error e => exact trace_bind_of_error h
  · cases h : x.result s with
    | ok r => rw [result_bind, StateT.bind_of_ok h, result_pure, StateT.pure_apply]
    | error e => rw [result_bind, StateT.bind_of_error h]

protected theorem bind_assoc {γ : Type} (x : Traced ι σ ε α) (f : α → Traced ι σ ε β) (g : β → Traced ι σ ε γ) :
    x >>= f >>= g = x >>= fun a => f a >>= g := by
  refine ext (fun s => ?_) fun s => ?_
  · cases h : x.result s with
    | error e =>
      have hxf : (x >>= f).result s = .error e := by rw [result_bind, StateT.bind_of_error h]
      rw [trace_bind_of_error hxf, trace_bind_of_error h, trace_bind_of_error h]
    | ok r =>
      have hxf : (x >>= f).result s = (f r.1).result r.2 := by rw [result_bind, StateT.bind_of_ok h]
      rw [trace_bind_of_ok (f := fun a => f a >>= g) h]
      cases hf : (f r.1).result r.2 with
      | error e =>
        rw [trace_bind_of_error (hxf.trans hf), trace_bind_of_error hf, trace_bind_of_ok h]
      | ok q =>
        rw [trace_bind_of_ok (hxf.trans hf), trace_bind_of_ok hf, trace_bind_of_ok h, List.append_assoc]
  · simp only [result_bind, bind_assoc]

theorem lift_pure (a : α) : (liftM (pure a : StateT σ (Except ε) α) : Traced ι σ ε α) = pure a := rfl

theorem lift_bind (x : StateT σ (Except ε) α) (f : α → StateT σ (Except ε) β) :
    (liftM (x >>= f) : Traced ι σ ε β) = liftM x >>= fun a => liftM (f a) := by
  refine ext (fun s => ?_) fun s => by rw [result_bind]; rfl
  cases h : (liftM x : Traced ι σ ε α).result s with
  | ok r => simp only [trace_bind_of_ok h, trace_lift, List.append_nil]
  | error e => simp only [trace_bind_of_error h, trace_lift]

instance : LawfulMonad (Traced ι σ ε) := LawfulMonad.mk' _ Traced.bind_pure (fun _ _ => rfl) Traced.bind_assoc

end Traced
