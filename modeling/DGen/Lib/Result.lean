/-
Computations that may fail, with a state or without: what a successful one
is made of, and lists of them.
-/
import Mathlib.Tactic

namespace Except

variable {ε α β : Type}

@[simp] theorem bind_ok_iff {x : Except ε α} {f : α → Except ε β} {b : β} :
    (x >>= f) = .ok b ↔ ∃ a, x = .ok a ∧ f a = .ok b := by
  cases x <;> simp [bind, Except.bind]

@[simp] theorem pure_ok_iff {a b : α} : (pure a : Except ε α) = .ok b ↔ a = b := by
  simp [pure, Except.pure]

theorem bind_error_iff {x : Except ε α} {f : α → Except ε β} {e : ε} :
    (x >>= f) = .error e ↔ x = .error e ∨ ∃ a, x = .ok a ∧ f a = .error e := by
  cases x <;> simp [bind, Except.bind]

theorem pure_ne_error {a : α} {e : ε} : (pure a : Except ε α) ≠ .error e := by
  simp [pure, Except.pure]

theorem ok_iff_ne_error {x : Except ε α} : (∃ a, x = .ok a) ↔ ∀ e, x ≠ .error e := by
  cases x <;> simp

@[simp] theorem map_ok_iff {x : Except ε α} {f : α → β} {b : β} :
    (f <$> x) = .ok b ↔ ∃ a, x = .ok a ∧ f a = b := by
  cases x <;> simp [Functor.map, Except.map]

@[simp] theorem mapError_ok_iff {ε' : Type} {x : Except ε α} {f : ε → ε'} {a : α} :
    x.mapError f = .ok a ↔ x = .ok a := by
  cases x <;> simp [Except.mapError]

theorem forM_ok_iff {f : α → Except ε Unit} {l : List α} :
    l.forM f = .ok () ↔ ∀ a ∈ l, f a = .ok () := by
  induction l with
  | nil => exact ⟨fun _ _ h => absurd h List.not_mem_nil, fun _ => rfl⟩
  | cons a l ih =>
    rw [List.forall_mem_cons, ← ih]
    exact bind_ok_iff.trans ⟨fun ⟨_, h, h'⟩ => ⟨h, h'⟩, fun ⟨h, h'⟩ => ⟨(), h, h'⟩⟩

/-- The computation succeeds exactly under `C`, and then with a result that has `P`. -/
structure OkWhen (x : Except ε α) (C : Prop) (P : α → Prop) : Prop where
  exists_iff : (∃ a, x = .ok a) ↔ C
  ok : ∀ {a}, x = .ok a → P a

namespace OkWhen

variable {x : Except ε α} {f : α → Except ε β} {C C' : Prop} {P : α → Prop} {Q : β → Prop}

theorem pure {a : α} (h : P a) : OkWhen (Pure.pure a : Except ε α) True P :=
  ⟨⟨fun _ => trivial, fun _ => ⟨a, rfl⟩⟩, fun h' => pure_ok_iff.mp h' ▸ h⟩

theorem bind (hx : OkWhen x C P) (hf : ∀ {a}, P a → OkWhen (f a) C' Q) : OkWhen (x >>= f) (C ∧ C') Q where
  exists_iff := by
    simp only [bind_ok_iff]
    constructor
    · rintro ⟨b, a, ha, hb⟩
      exact ⟨hx.exists_iff.mp ⟨a, ha⟩, (hf (hx.ok ha)).exists_iff.mp ⟨b, hb⟩⟩
    · rintro ⟨hc, hc'⟩
      obtain ⟨a, ha⟩ := hx.exists_iff.mpr hc
      obtain ⟨b, hb⟩ := (hf (hx.ok ha)).exists_iff.mpr hc'
      exact ⟨b, a, ha, hb⟩
  ok h := by
    obtain ⟨a, ha, hb⟩ := bind_ok_iff.mp h
    exact (hf (hx.ok ha)).ok hb

theorem congr (hx : OkWhen x C P) (h : C ↔ C') : OkWhen x C' P := ⟨hx.exists_iff.trans h, hx.ok⟩

theorem imp {P' : α → Prop} (hx : OkWhen x C P) (h : ∀ a, P a → P' a) : OkWhen x C P' :=
  ⟨hx.exists_iff, fun ha => h _ (hx.ok ha)⟩

end OkWhen

end Except

namespace StateT

variable {σ ε α β : Type}

theorem bind_ok_iff {x : StateT σ (Except ε) α} {f : α → StateT σ (Except ε) β} {s s' : σ} {b : β} :
    (x >>= f) s = .ok (b, s') ↔ ∃ a s₁, x s = .ok (a, s₁) ∧ f a s₁ = .ok (b, s') := by
  refine Except.bind_ok_iff.trans ⟨?_, ?_⟩
  · rintro ⟨⟨a, s₁⟩, h, h'⟩
    exact ⟨a, s₁, h, h'⟩
  · rintro ⟨a, s₁, h, h'⟩
    exact ⟨(a, s₁), h, h'⟩

theorem bind_error_iff {x : StateT σ (Except ε) α} {f : α → StateT σ (Except ε) β} {s : σ} {e : ε} :
    (x >>= f) s = .error e ↔ x s = .error e ∨ ∃ a s₁, x s = .ok (a, s₁) ∧ f a s₁ = .error e := by
  refine Except.bind_error_iff.trans (or_congr .rfl ⟨?_, ?_⟩)
  · rintro ⟨⟨a, s₁⟩, h, h'⟩
    exact ⟨a, s₁, h, h'⟩
  · rintro ⟨a, s₁, h, h'⟩
    exact ⟨(a, s₁), h, h'⟩

theorem pure_apply (a : α) (s : σ) : (pure a : StateT σ (Except ε) α) s = .ok (a, s) := rfl

theorem pure_ok_iff {a b : α} {s s' : σ} :
    (pure a : StateT σ (Except ε) α) s = .ok (b, s') ↔ a = b ∧ s = s' := by
  rw [pure_apply, Except.ok.injEq, Prod.mk.injEq]

/-- A bind, once its first part is known to succeed. -/
theorem bind_of_ok {x : StateT σ (Except ε) α} {f : α → StateT σ (Except ε) β} {s s₁ : σ} {a : α}
    (h : x s = .ok (a, s₁)) : (x >>= f) s = f a s₁ := by
  simp [bind, StateT.bind, Except.bind, h]

theorem bind_of_error {x : StateT σ (Except ε) α} {f : α → StateT σ (Except ε) β} {s : σ} {e : ε}
    (h : x s = .error e) : (x >>= f) s = .error e := bind_error_iff.mpr (.inl h)

/-- What follows a bind's first part need agree on its results only. -/
theorem bind_congr {x : StateT σ (Except ε) α} {f g : α → StateT σ (Except ε) β} {s : σ}
    (h : ∀ a s₁, x s = .ok (a, s₁) → f a s₁ = g a s₁) : (x >>= f) s = (x >>= g) s := by
  cases hx : x s with
  | error e => rw [bind_of_error hx, bind_of_error hx]
  | ok r => rw [bind_of_ok hx, bind_of_ok hx, h r.1 r.2 hx]

/-- From every state with `I` the computation succeeds exactly under `C`, and leaves a state with `I`. -/
def OkKeeping (I : σ → Prop) (x : StateT σ (Except ε) α) (C : Prop) : Prop :=
  ∀ s, I s → Except.OkWhen (x s) C fun r => I r.2

namespace OkKeeping

variable {I : σ → Prop} {x : StateT σ (Except ε) α} {f : α → StateT σ (Except ε) β} {C C' : Prop}

theorem pure (a : α) : OkKeeping I (Pure.pure a : StateT σ (Except ε) α) True := fun _ hs => Except.OkWhen.pure hs

theorem bind (hx : OkKeeping I x C) (hf : ∀ a, OkKeeping I (f a) C') : OkKeeping I (x >>= f) (C ∧ C') :=
  fun s hs => (hx s hs).bind fun {a} ha => hf a.1 a.2 ha

theorem congr (hx : OkKeeping I x C) (h : C ↔ C') : OkKeeping I x C' := fun s hs => (hx s hs).congr h

/-- A part that always succeeds, and another. -/
theorem andThen (hx : OkKeeping I x True) (hf : ∀ a, OkKeeping I (f a) C) : OkKeeping I (x >>= f) C :=
  (hx.bind hf).congr (and_iff_right trivial)

theorem map (hx : OkKeeping I x C) (g : α → β) : OkKeeping I (x >>= fun a => Pure.pure (g a)) C :=
  (hx.bind fun a => pure (g a)).congr (and_iff_left trivial)

end OkKeeping

/-- What the computation gives has `P`, from wherever it succeeds. -/
def Gives (x : StateT σ (Except ε) α) (P : α → Prop) : Prop := ∀ s a s', x s = .ok (a, s') → P a

namespace Gives

variable {x : StateT σ (Except ε) α} {f : α → StateT σ (Except ε) β} {P P' : α → Prop} {Q : β → Prop}

theorem pure {a : α} (h : P a) : Gives (Pure.pure a : StateT σ (Except ε) α) P := by
  intro s b s' hb
  obtain ⟨rfl, -⟩ := pure_ok_iff.mp hb
  exact h

theorem bind (hx : Gives x P) (hf : ∀ a, P a → Gives (f a) Q) : Gives (x >>= f) Q := by
  intro s b s' hb
  obtain ⟨a, s₁, ha, hb⟩ := bind_ok_iff.mp hb
  exact hf a (hx s a s₁ ha) s₁ b s' hb

/-- After a part of which nothing is known. -/
theorem after (hf : ∀ a, Gives (f a) Q) : Gives (x >>= f) Q := bind (fun _ _ _ _ => trivial) fun a (_ : True) => hf a

theorem imp (hx : Gives x P) (h : ∀ a, P a → P' a) : Gives x P' := fun s a s' ha => h a (hx s a s' ha)

end Gives

/-- From `s` the computation leaves a state with `I` that `R` leads to, and wherever `R`
leads to from there it comes to the same, and changes nothing. -/
def RepeatsAt (I : σ → Prop) (R : σ → σ → Prop) (x : StateT σ (Except ε) α) (s : σ) : Prop :=
  ∀ ⦃a s'⦄, x s = .ok (a, s') → I s → I s' ∧ R s s' ∧ ∀ s'', R s' s'' → x s'' = .ok (a, s'')

namespace RepeatsAt

variable {I : σ → Prop} {R : σ → σ → Prop} {x : StateT σ (Except ε) α} {f : α → StateT σ (Except ε) β} {s : σ}

theorem pure (hrefl : ∀ s, R s s) (a : α) : RepeatsAt I R (Pure.pure a : StateT σ (Except ε) α) s := by
  intro b s' h hs
  obtain ⟨rfl, rfl⟩ := pure_ok_iff.mp h
  exact ⟨hs, hrefl _, fun s'' _ => rfl⟩

theorem bind (htrans : ∀ {s s' s''}, R s s' → R s' s'' → R s s'') (hx : RepeatsAt I R x s)
    (hf : ∀ a s₁, x s = .ok (a, s₁) → I s₁ → RepeatsAt I R (f a) s₁) : RepeatsAt I R (x >>= f) s := by
  intro b s' h hs
  obtain ⟨a, s₁, h₁, h₂⟩ := bind_ok_iff.mp h
  obtain ⟨hs₁, hR₁, hagain₁⟩ := hx h₁ hs
  obtain ⟨hs', hR₂, hagain₂⟩ := hf a s₁ h₁ hs₁ h₂ hs₁
  refine ⟨hs', htrans hR₁ hR₂, fun s'' hR => ?_⟩
  rw [bind_of_ok (hagain₁ s'' (htrans hR₂ hR))]
  exact hagain₂ s'' hR

/-- The second time, right after the first. -/
theorem again (hrefl : ∀ s, R s s) (hx : RepeatsAt I R x s) {a : α} {s' : σ} (h : x s = .ok (a, s')) (hs : I s) :
    x s' = .ok (a, s') := (hx h hs).2.2 s' (hrefl s')

end RepeatsAt

end StateT

namespace Option

variable {α β : Type}

theorem mapM_of_forall₂ {f : α → Option β} {l : List α} {l' : List β}
    (h : List.Forall₂ (fun a b => f a = some b) l l') :
    l.mapM f = some l' := by
  induction h with
  | nil => rfl
  | cons ha _ ih => simp [ha, ih]

/-- A list read off item by item. -/
theorem mapM_range {f : Nat → Option β} {l : List β} (h : ∀ i b, l[i]? = some b → f i = some b) :
    (List.range l.length).mapM f = some l := by
  refine mapM_of_forall₂ (List.forall₂_iff_get.mpr ⟨List.length_range, fun i hi hi' => ?_⟩)
  simpa using h i _ (List.getElem?_eq_getElem hi')

end Option
