/-
Removing unreachable code keeps the meaning of a body.

The pass cuts a body after its first jump and looks into no statement behind
it, so the two bodies agree statement by statement up to that jump, and
execution never gets past it. They are compared at every fuel
(`execBody_eliminate`), where equal results are equal outcomes, stores and
traces; `Ends` and `Diverges` say the same without fuel.
-/
import DGen.Jumps

namespace DGen

variable {Store Value : Type}

/-! ## Without fuel -/

/-- The execution ends in `r`, which no more fuel changes. -/
def Ends (sem : Sem Store Value) (b : Body Symbol) (s : Store) (r : Result Store Value) : Prop :=
  r.outcome ≠ .timeout ∧ ∃ n, ∀ fuel ≥ n, execBody sem fuel b s = r

/-- No fuel is enough. -/
def Diverges (sem : Sem Store Value) (b : Body Symbol) (s : Store) : Prop :=
  ∀ fuel, (execBody sem fuel b s).outcome = .timeout

namespace Result

theorem seq_timeout {r : Result Store Value} {k : Store → Result Store Value}
    (h : (r.seq k).outcome ≠ .timeout) : r.outcome ≠ .timeout := by
  intro hr
  exact h (by rw [seq_other (by simp [hr])]; exact hr)

/-- `seq` of parts that ended, or that later parts did not reach. -/
theorem seq_congr {r r' : Result Store Value} {k k' : Store → Result Store Value}
    (hr : r.outcome ≠ .timeout → r' = r) (hk : ∀ s, (k s).outcome ≠ .timeout → k' s = k s)
    (h : (r.seq k).outcome ≠ .timeout) : r'.seq k' = r.seq k := by
  rw [hr (seq_timeout h)]
  by_cases hn : r.outcome = .normal
  · rw [seq_normal hn] at h ⊢
    rw [seq_normal hn, hk _ h]
  · rw [seq_other hn, seq_other hn]

end Result

/-- One more turn of a loop's fuel, and a body and an increment that have more as well. -/
theorem execLoop_more {cond : Store → Option (Bool × Store × List (Event Value))}
    {body body' inc : Store → Result Store Value}
    (hb : ∀ s, (body s).outcome ≠ .timeout → body' s = body s) (n m : Nat) (hle : n ≤ m) (s : Store)
    (h : (execLoop cond body inc n s).outcome ≠ .timeout) :
    execLoop cond body' inc m s = execLoop cond body inc n s := by
  induction n generalizing m s with
  | zero => exact absurd rfl h
  | succ n ih =>
    obtain ⟨m, rfl⟩ : ∃ k, m = k + 1 := ⟨m - 1, by omega⟩
    simp only [execLoop] at h ⊢
    split
    · rfl
    · rfl
    · rename_i s₁ es hc
      simp only [hc, Result.prepend_outcome] at h
      have hbody : body' s₁ = body s₁ := by
        refine hb s₁ fun ht => ?_
        simp [ht] at h
      rw [hbody]
      congr 1
      have again (ho : (((inc (body s₁).store).seq (execLoop cond body inc n)).prepend
          (body s₁).trace).outcome ≠ .timeout) :
          (inc (body s₁).store).seq (execLoop cond body' inc m) =
            (inc (body s₁).store).seq (execLoop cond body inc n) :=
        Result.seq_congr (fun _ => rfl) (fun s hs => ih m (by omega) s hs) ho
      cases ho : (body s₁).outcome <;> simp only [ho] at h ⊢
      · rw [again h]
      · rw [again h]

theorem exec_more (sem : Sem Store Value) {n m : Nat} (hle : n ≤ m) :
    (∀ st : Stmt Symbol, ∀ s, (execStmt sem n st s).outcome ≠ .timeout →
      execStmt sem m st s = execStmt sem n st s) ∧
    ∀ b : Body Symbol, ∀ s, (execBody sem n b s).outcome ≠ .timeout →
      execBody sem m b s = execBody sem n b s := by
  apply Stmt.induct
  case for_ =>
    intro node p pre c inc b ih s h
    exact Result.seq_congr (fun _ => rfl) (fun s hs => execLoop_more ih n m hle s hs) h
  case if_ =>
    intro node p c b ih s h
    simp only [execStmt] at h ⊢
    split
    · rfl
    · rename_i hc
      simp only [hc, Result.prepend_outcome] at h
      rw [ih _ h]
    · rfl
  case ifElse =>
    intro node p c b e ihb ihe s h
    simp only [execStmt] at h ⊢
    split
    · rfl
    · rename_i hc
      simp only [hc, Result.prepend_outcome] at h
      rw [ihb _ h]
    · rename_i hc
      simp only [hc, Result.prepend_outcome] at h
      rw [ihe _ h]
  case cons =>
    intro st rest ihs ihr s h
    exact Result.seq_congr (ihs s) ihr h
  all_goals
    intros
    rfl

/-- Every execution ends or diverges. -/
theorem ends_or_diverges (sem : Sem Store Value) (b : Body Symbol) (s : Store) :
    (∃ r, Ends sem b s r) ∨ Diverges sem b s := by
  by_cases h : Diverges sem b s
  · exact .inr h
  · obtain ⟨n, hn⟩ := not_forall.mp h
    exact .inl ⟨_, hn, n, fun fuel hle => (exec_more sem hle).2 b s hn⟩

theorem Ends.unique {sem : Sem Store Value} {b : Body Symbol} {s : Store} {r r' : Result Store Value}
    (h : Ends sem b s r) (h' : Ends sem b s r') : r = r' := by
  obtain ⟨-, n, hn⟩ := h
  obtain ⟨-, m, hm⟩ := h'
  rw [← hn (max n m) (le_max_left n m), ← hm (max n m) (le_max_right n m)]

/-! ## The pass -/

/-- Nothing runs after a jump. -/
theorem exec_isJump (sem : Sem Store Value) (fuel : Nat) {st : Stmt Symbol} (h : st.isJump = true) (s : Store) :
    (execStmt sem fuel st s).outcome ≠ .normal := by
  cases st with
  | ret n =>
    simp only [execStmt]
    split <;> simp
  | cont | brk => simp [execStmt]
  | _ => simp [Stmt.isJump] at h

theorem exec_eliminate (sem : Sem Store Value) (fuel : Nat) :
    (∀ st : Stmt Symbol, ∀ s, execStmt sem fuel (eliminateUnreachableCodeVisitStmt st) s = execStmt sem fuel st s) ∧
    ∀ b : Body Symbol, ∀ s, execBody sem fuel (eliminateUnreachableCodeVisitBody b) s = execBody sem fuel b s := by
  apply Stmt.induct
  case for_ =>
    intro node p pre c inc b ih s
    simp only [eliminateUnreachableCodeVisitStmt, execStmt, funext ih]
  case if_ =>
    intro node p c b ih s
    simp only [eliminateUnreachableCodeVisitStmt, execStmt, ih]
  case ifElse =>
    intro node p c b e ihb ihe s
    simp only [eliminateUnreachableCodeVisitStmt, execStmt, ihb, ihe]
  case cons =>
    intro st rest ihs ihr s
    simp only [eliminateUnreachableCodeVisitBody]
    split
    · -- What is cut off is what a jump does not go on to.
      rename_i hj
      have hn := exec_isJump sem fuel hj s
      simp only [execBody]
      rw [Result.seq_other hn, Result.seq_other hn]
    · simp only [execBody, ihs, funext ihr]
  all_goals
    intros
    rfl

/-- A body whose jumps are last has nothing to cut. -/
theorem eliminate_of_jumpsLast {σ : Type} :
    (∀ s : Stmt σ, s.JumpsLast → eliminateUnreachableCodeVisitStmt s = s) ∧
    ∀ b : Body σ, Body.JumpsLast b → eliminateUnreachableCodeVisitBody b = b := by
  apply Stmt.induct
  case for_ =>
    intro node p pre c inc b ih h
    rw [eliminateUnreachableCodeVisitStmt, ih h]
  case if_ =>
    intro node p c b ih h
    rw [eliminateUnreachableCodeVisitStmt, ih h]
  case ifElse =>
    intro node p c b e ihb ihe h
    rw [eliminateUnreachableCodeVisitStmt, ihb h.1, ihe h.2]
  case cons =>
    intro s rest ihs ihr h
    rw [eliminateUnreachableCodeVisitBody]
    split
    · rw [h.1 ‹_›]
    · rw [ihs h.2.1, ihr h.2.2]
  all_goals
    intros
    rfl

/-- **Removing unreachable code preserves meaning**: at every fuel the same
outcome, store and trace, so it ends in the same way or diverges as before.
Its jumps are then last in every body, and the pass has nothing more to do. -/
theorem eliminate_preserves (b : Body Symbol) :
    (∀ {Store Value : Type} (sem : Sem Store Value) (s : Store),
      (∀ fuel, execBody sem fuel (eliminateUnreachableCodeVisitBody b) s = execBody sem fuel b s) ∧
      (∀ r, Ends sem (eliminateUnreachableCodeVisitBody b) s r ↔ Ends sem b s r) ∧
      (Diverges sem (eliminateUnreachableCodeVisitBody b) s ↔ Diverges sem b s)) ∧
    Body.JumpsLast (eliminateUnreachableCodeVisitBody b) ∧
    eliminateUnreachableCodeVisitBody (eliminateUnreachableCodeVisitBody b) = eliminateUnreachableCodeVisitBody b := by
  refine ⟨fun sem s => ?_, eliminate_jumpsLast.2 b, eliminate_of_jumpsLast.2 _ (eliminate_jumpsLast.2 b)⟩
  have hexec (fuel : Nat) := (exec_eliminate sem fuel).2 b s
  exact ⟨hexec, fun r => by simp only [Ends, hexec], by simp only [Diverges, hexec]⟩

end DGen
