/-
Two programs with states of their own, of which the second mirrors the first.
How their states correspond can grow while they run: an index says what is
known of it, and what was known stays. Which runs of the first are mirrored
depends on where they lead (`leads`), so that what comes later in a run can
be used of its earlier states.
-/
import DGen.Lib.Blocks
import DGen.Lib.Result

namespace Simulation

/-- How the states of two programs correspond, what holds of those of the
first anyway, and from which of them its run goes on as it did. -/
structure Setting (ι σ τ : Type) where
  rel : ι → σ → τ → Prop
  inv : σ → Prop
  leads : σ → Prop
  inv_of_rel : ∀ {i s t}, rel i s t → inv s

variable {ι κ σ τ ε ε' E α β γ δ : Type} {S : Setting ι σ τ}

/-- A run that ends where it leads on began there. -/
def OnTheWay (S : Setting ι σ τ) (x : StateT σ (Except ε) α) : Prop :=
  ∀ ⦃s⦄, S.inv s → ∀ ⦃a s'⦄, x s = .ok (a, s') → S.inv s' ∧ (S.leads s' → S.leads s)

theorem OnTheWay.bind {x : StateT σ (Except ε) α} {f : α → StateT σ (Except ε) γ} (hx : OnTheWay S x)
    (hf : ∀ a, OnTheWay S (f a)) : OnTheWay S (x >>= f) := by
  intro s hs c s' h
  obtain ⟨a, s₁, hx', hf'⟩ := StateT.bind_ok_iff.mp h
  obtain ⟨hs₁, hback⟩ := hx hs hx'
  obtain ⟨hs', hback'⟩ := hf a hs₁ hf'
  exact ⟨hs', fun hl => hback (hback' hl)⟩

theorem OnTheWay.pure {a : α} : OnTheWay S (pure a : StateT σ (Except ε) α) := by
  intro s hs a' s' h
  obtain ⟨-, rfl⟩ := StateT.pure_ok_iff.mp h
  exact ⟨hs, id⟩

/-! ## Machines -/

section

open Blocks

variable {m : Isa κ σ E} {n : Isa κ τ E} {code : Nat → List κ}

/-- Instructions that lead on make runs that do. -/
theorem run_onTheWay
    (hexec : ∀ {c s f s' es}, S.inv s → m.exec c s = some (f, s', es) → S.inv s' ∧ (S.leads s' → S.leads s))
    {c c' : Config σ} {ls : List (κ × List E)} (h : Run m code c ls c') :
    S.inv c.state → S.inv c'.state ∧ (S.leads c'.state → S.leads c.state) := by
  induction h with
  | refl => exact fun hs => ⟨hs, id⟩
  | @step c l c₁ ls c' hstep _ ih =>
    intro hs
    cases c with
    | done => cases hstep
    | run blk pc s =>
      obtain ⟨f, s₁, -, hx, rfl⟩ := step_inv hstep
      obtain ⟨hs₁, hback⟩ := hexec hs hx
      rw [Flow.config_state] at ih
      obtain ⟨hs', hback'⟩ := ih hs₁
      exact ⟨hs', fun hl => hback (hback' hl)⟩

/-- **Instructions that are mirrored make runs that are**, step by step. -/
theorem run_mirrored
    (hway : ∀ {c s f s' es}, S.inv s → m.exec c s = some (f, s', es) → S.inv s' ∧ (S.leads s' → S.leads s))
    (hexec : ∀ {i s t k c f s' es}, c ∈ code k → S.rel i s t → m.exec c s = some (f, s', es) → S.leads s' →
      ∃ j t', n.exec c t = some (f, t', es) ∧ S.rel j s' t')
    {c c' : Config σ} {ls : List (κ × List E)} (h : Run m code c ls c') :
    ∀ {blk pc s s'}, c = .run blk pc s → c' = .done s' → S.leads s' → ∀ {i t}, S.rel i s t →
      ∃ j t', Run n code (.run blk pc t) ls (.done t') ∧ S.rel j s' t' := by
  induction h with
  | refl => exact fun hc hc' => by rw [hc] at hc'; cases hc'
  | step hstep hrest ih =>
    rintro blk pc s s' rfl rfl hl i t hr
    obtain ⟨f, s₁, hi, hx, rfl⟩ := step_inv hstep
    have hs₁ := (hway (S.inv_of_rel hr) hx).1
    have hl₁ : S.leads s₁ := by
      have hback := (run_onTheWay hway hrest (by rwa [Flow.config_state])).2 hl
      rwa [Flow.config_state] at hback
    obtain ⟨j, t₁, hx', hr₁⟩ := hexec (List.mem_of_getElem? hi) hr hx hl₁
    have hfirst : Blocks.step n code (.run blk pc t) = some (_, f.config blk pc t₁) := step_run hi hx'
    cases f with
    | next =>
      obtain ⟨k, t', hrun, hr'⟩ := ih rfl rfl hl hr₁
      exact ⟨k, t', .step hfirst hrun, hr'⟩
    | goto blk' =>
      obtain ⟨k, t', hrun, hr'⟩ := ih rfl rfl hl hr₁
      exact ⟨k, t', .step hfirst hrun, hr'⟩
    | halt =>
      cases hrest with
      | refl => exact ⟨j, t₁, .step hfirst .refl, hr₁⟩
      | step hs => cases hs

end

/-! ## Programs, with how their states correspond -/

variable [Preorder ι]

/-- Where `P` is known of corresponding states, a run of `x` that leads on has
one of `y` beside it, and then `Q` is known of the results. -/
def Mirrored (S : Setting ι σ τ) (P : ι → Prop) (x : StateT σ (Except ε) α) (y : StateT τ (Except ε') β)
    (Q : ι → α → β → Prop) : Prop :=
  ∀ ⦃i s t⦄, S.rel i s t → P i → ∀ ⦃a s'⦄, x s = .ok (a, s') → S.leads s' →
    ∃ j b t', i ≤ j ∧ y t = .ok (b, t') ∧ S.rel j s' t' ∧ Q j a b

/-- What is known stays known. -/
def Lasting (P : ι → Prop) : Prop := ∀ ⦃i j⦄, i ≤ j → P i → P j

theorem Lasting.and {P P' : ι → Prop} (h : Lasting P) (h' : Lasting P') : Lasting fun i => P i ∧ P' i :=
  fun _ _ hij hp => ⟨h hij hp.1, h' hij hp.2⟩

namespace Mirrored

variable {P P' : ι → Prop} {x : StateT σ (Except ε) α} {y : StateT τ (Except ε') β} {Q Q' : ι → α → β → Prop}
  {f : α → StateT σ (Except ε) γ} {g : β → StateT τ (Except ε') δ} {T : ι → γ → δ → Prop}

theorem bind (hx : Mirrored S P x y Q) (hway : OnTheWay S x) (hfway : ∀ a, OnTheWay S (f a))
    (hf : ∀ a b, Mirrored S (fun i => Q i a b) (f a) (g b) T) : Mirrored S P (x >>= f) (y >>= g) T := by
  intro i s t hr hp c s' h hl
  obtain ⟨a, s₁, hx', hf'⟩ := StateT.bind_ok_iff.mp h
  have hs₁ := (hway (S.inv_of_rel hr) hx').1
  obtain ⟨j, b, t₁, hij, hy, hr₁, hq⟩ := hx hr hp hx' ((hfway a hs₁ hf').2 hl)
  obtain ⟨k, d, t', hjk, hg, hr', ht⟩ := hf a b hr₁ hq hf' hl
  exact ⟨k, d, t', hij.trans hjk, StateT.bind_ok_iff.mpr ⟨b, t₁, hy, hg⟩, hr', ht⟩

theorem pure {a : α} {b : β} (h : ∀ i, P i → Q i a b) :
    Mirrored S P (Pure.pure a : StateT σ (Except ε) α) (Pure.pure b : StateT τ (Except ε') β) Q := by
  intro i s t hr hp a' s' hrun _
  obtain ⟨rfl, rfl⟩ := StateT.pure_ok_iff.mp hrun
  exact ⟨i, b, t, le_rfl, rfl, hr, h i hp⟩

theorem imp (hx : Mirrored S P x y Q) (hp : ∀ i, P' i → P i) (hq : ∀ i a b, Q i a b → Q' i a b) :
    Mirrored S P' x y Q' := by
  intro i s t hr hp' a s' h hl
  obtain ⟨j, b, t', hij, hy, hr', hq'⟩ := hx hr (hp i hp') h hl
  exact ⟨j, b, t', hij, hy, hr', hq j a b hq'⟩

/-- What was known before is known after. -/
theorem keeping (hx : Mirrored S P x y Q) (hp : ∀ i, P' i → P i) (hlast : Lasting P') :
    Mirrored S P' x y fun i a b => Q i a b ∧ P' i := by
  intro i s t hr hp' a s' h hl
  obtain ⟨j, b, t', hij, hy, hr', hq⟩ := hx hr (hp i hp') h hl
  exact ⟨j, b, t', hij, hy, hr', hq, hlast hij hp'⟩

/-- A fact that does not depend on how the states correspond. -/
theorem given {C : Prop} (h : C → Mirrored S P x y Q) : Mirrored S (fun i => C ∧ P i) x y Q :=
  fun _ _ _ hr hp => h hp.1 hr hp.2

theorem of_fact {C : Prop} (h : C → Mirrored S (fun _ => True) x y Q) : Mirrored S (fun _ => C) x y Q :=
  fun _ _ _ hr hc => h hc hr trivial

/-- A program that never succeeds has nothing to mirror. -/
theorem of_never (h : ∀ s a s', x s ≠ .ok (a, s')) : Mirrored S P x y Q :=
  fun _ s _ _ _ a s' hx _ => absurd hx (h s a s')

end Mirrored

end Simulation
