/-
The meaning of a body as the language gives it: structured execution, with
the loops, jumps and increments of C.

What a single definition, assignment, condition or returned expression does
to the store is a parameter (`Sem`), shared with the emitted code. Fuel
bounds the iterations of each loop; a result that is no `timeout` is the
same with more.
-/
import DGen.Semantics

namespace DGen

/-- What the parts of a statement do to a store; `none` is an exception.
`z3Gen` is the whole of `prepare_eval_ctx`'s calls for a precondition. -/
structure Sem (Store Value : Type) where
  def_ : DefNode Symbol → Store → Option Store
  asg : AsgNode Symbol → Store → Option Store
  z3Gen : Expr Symbol → PrecondNode Symbol → Store → Option Store
  cond : Expr Symbol → Store → Option (Bool × Store)
  ret : ReturnNode Symbol → Store → Option (Value × Store)

/-- What an execution does, in order. -/
inductive Event (Value : Type)
  | def_ (n : DefNode Symbol)
  | asg (n : AsgNode Symbol)
  | z3Gen (cond : Expr Symbol) (precond : PrecondNode Symbol)
  | cond (e : Expr Symbol) (b : Bool)
  | gatherRes (n : ReturnNode Symbol) (v : Value)

inductive Outcome (Value : Type)
  | normal
  | cont
  | brk
  | ret (n : ReturnNode Symbol) (v : Value)
  | stuck
  | timeout

structure Result (Store Value : Type) where
  outcome : Outcome Value
  store : Store
  trace : List (Event Value)

variable {Store Value : Type}

namespace Result

/-- `es` happened first. -/
def prepend (es : List (Event Value)) (r : Result Store Value) : Result Store Value :=
  { r with trace := es ++ r.trace }

/-- Go on with `k` where `r` ended normally. -/
def seq (r : Result Store Value) (k : Store → Result Store Value) : Result Store Value :=
  match r.outcome with
  | .normal => (k r.store).prepend r.trace
  | _ => r

@[simp] theorem prepend_outcome (es : List (Event Value)) (r : Result Store Value) :
    (r.prepend es).outcome = r.outcome := rfl
@[simp] theorem prepend_store (es : List (Event Value)) (r : Result Store Value) :
    (r.prepend es).store = r.store := rfl
@[simp] theorem prepend_trace (es : List (Event Value)) (r : Result Store Value) :
    (r.prepend es).trace = es ++ r.trace := rfl

theorem seq_normal {r : Result Store Value} (h : r.outcome = .normal) (k : Store → Result Store Value) :
    r.seq k = (k r.store).prepend r.trace := by simp [seq, h]

theorem seq_other {r : Result Store Value} (h : r.outcome ≠ .normal) (k : Store → Result Store Value) :
    r.seq k = r := by
  unfold seq
  split
  · exact absurd ‹_› h
  · rfl

end Result

/-- A condition with its precondition: whether it holds, and what was done. -/
def Sem.evalCond (sem : Sem Store Value) (precond : Option (PrecondNode Symbol)) (cond : Expr Symbol)
    (s : Store) : Option (Bool × Store × List (Event Value)) :=
  match precond with
  | none => (sem.cond cond s).map fun (b, s) => (b, s, [.cond cond b])
  | some p => (sem.z3Gen cond p s).bind fun s =>
    (sem.cond cond s).map fun (b, s) => (b, s, [.z3Gen cond p, .cond cond b])

/-- A part that makes a store, and is then observed. -/
def execPart (e : Event Value) (s : Store) : Option Store → Result Store Value
  | none => ⟨.stuck, s, []⟩
  | some s' => ⟨.normal, s', [e]⟩

/-- A loop's optional assignment. -/
def Sem.execAsg? (sem : Sem Store Value) (n : Option (AsgNode Symbol)) (s : Store) : Result Store Value :=
  match n with
  | none => ⟨.normal, s, []⟩
  | some n => execPart (.asg n) s (sem.asg n s)

/-- The iterations of a loop: a continue goes on to the increment. -/
def execLoop (cond : Store → Option (Bool × Store × List (Event Value)))
    (body inc : Store → Result Store Value) : Nat → Store → Result Store Value
  | 0, s => ⟨.timeout, s, []⟩
  | n + 1, s =>
    match cond s with
    | none => ⟨.stuck, s, []⟩
    | some (false, s, es) => ⟨.normal, s, es⟩
    | some (true, s, es) =>
      let r := body s
      let again := ((inc r.store).seq (execLoop cond body inc n)).prepend r.trace
      Result.prepend es <| match r.outcome with
        | .normal | .cont => again
        | .brk => { r with outcome := .normal }
        | _ => r

mutual
def execStmt (sem : Sem Store Value) (fuel : Nat) : Stmt Symbol → Store → Result Store Value
  | .asg n, s => execPart (.asg n) s (sem.asg n s)
  | .ret n, s =>
    match sem.ret n s with
    | none => ⟨.stuck, s, []⟩
    | some (v, s') => ⟨.ret n v, s', [.gatherRes n v]⟩
  | .def_ n, s => execPart (.def_ n) s (sem.def_ n s)
  | .cont _ _, s => ⟨.cont, s, []⟩
  | .brk _ _, s => ⟨.brk, s, []⟩
  | .for_ _ precond preAsg cond incAsg body, s =>
    (sem.execAsg? preAsg s).seq
      (execLoop (sem.evalCond precond cond) (execBody sem fuel body) (sem.execAsg? incAsg) fuel)
  | .if_ _ precond cond body, s =>
    match sem.evalCond precond cond s with
    | none => ⟨.stuck, s, []⟩
    | some (true, s, es) => (execBody sem fuel body s).prepend es
    | some (false, s, es) => ⟨.normal, s, es⟩
  | .ifElse _ precond cond body elseBody, s =>
    match sem.evalCond precond cond s with
    | none => ⟨.stuck, s, []⟩
    | some (true, s, es) => (execBody sem fuel body s).prepend es
    | some (false, s, es) => (execBody sem fuel elseBody s).prepend es

def execBody (sem : Sem Store Value) (fuel : Nat) : Body Symbol → Store → Result Store Value
  | [], s => ⟨.normal, s, []⟩
  | st :: rest, s => (execStmt sem fuel st s).seq (execBody sem fuel rest)
end

/-! ## What a loop or a body can end in -/

variable {sem : Sem Store Value} {fuel : Nat}

theorem execPart_outcome (e : Event Value) (s : Store) (o : Option Store) :
    (execPart e s o).outcome = .normal ∨ (execPart e s o).outcome = .stuck := by
  cases o <;> simp [execPart]

theorem execAsg?_outcome (sem : Sem Store Value) (n : Option (AsgNode Symbol)) (s : Store) :
    (sem.execAsg? n s).outcome = .normal ∨ (sem.execAsg? n s).outcome = .stuck := by
  cases n with
  | none => exact .inl rfl
  | some n => exact execPart_outcome _ _ _

/-- A loop's jumps stay inside it. -/
theorem execLoop_outcome {cond : Store → Option (Bool × Store × List (Event Value))}
    {body : Store → Result Store Value} {inc : Option (AsgNode Symbol)} (n : Nat) (s : Store) :
    (execLoop cond body (sem.execAsg? inc) n s).outcome ≠ .cont ∧
      (execLoop cond body (sem.execAsg? inc) n s).outcome ≠ .brk := by
  induction n generalizing s with
  | zero => simp [execLoop]
  | succ n ih =>
    have again (s : Store) (es : List (Event Value)) :
        ((((sem.execAsg? inc s).seq (execLoop cond body (sem.execAsg? inc) n)).prepend es).outcome ≠ .cont ∧
        (((sem.execAsg? inc s).seq (execLoop cond body (sem.execAsg? inc) n)).prepend es).outcome ≠ .brk) := by
      rcases execAsg?_outcome sem inc s with h | h
      · rw [Result.seq_normal h]
        exact ih _
      · rw [Result.seq_other (by simp [h])]
        simp [h]
    unfold execLoop
    split
    · simp
    · simp
    · rename_i s' es _
      simp only [Result.prepend_outcome]
      split
      · exact again _ _
      · exact again _ _
      · simp
      · rename_i h₁ h₂ h₃
        exact ⟨h₂, h₃⟩

end DGen
