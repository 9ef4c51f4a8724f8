/-
What the type checker accepts.

`get_type` is called on the root of every expression, on every index, and
from there on every operand; a lookup is checked wherever it stands. So an
accepted function is well typed but for two things nobody looks at: whether
the equal types of an arithmetic operator's operands are numerical, and the
type of an array's length (`typeCheck_wellTyped_iff`).
-/
import DGen.Nodes
import DGen.Terminators

namespace DGen

/-! ## Well-typed expressions -/

/-- `get_type` gives a type, one with `p`. -/
def Expr.typeIs (e : Expr Symbol) (p : Ty → Bool) : Bool :=
  match e.getType with
  | .ok t => p t
  | .error _ => false

/-- `get_type` does not throw. -/
def Expr.typed (e : Expr Symbol) : Bool := e.typeIs fun _ => true

/-- What an operator asks of the types of its operands. -/
def BinOpType.operandsOk (op : BinOpType) (t1 t2 : Ty) : Bool :=
  match op.getOpGroupArgs with
  | .num => t1.isNumerical && t2.isNumerical && t1.eq t2
  | .bool => t1.eqKind .bool && t2.eqKind .bool
  | .any => t1.eq t2

mutual
/-- Every node is well typed. -/
def Expr.wellTyped : Expr Symbol → Bool
  | .char _ _ | .string _ _ | .number _ _ | .bool _ _ | .ident _ => true
  | .binOp node op lhs rhs => (Expr.binOp node op lhs rhs).typed && lhs.wellTyped && rhs.wellTyped &&
    lhs.typeIs fun t1 => rhs.typeIs fun t2 => op.operandsOk t1 t2
  | .arrLookup node i idxs => (Expr.arrLookup node i idxs).typed && wellTypedIdxs idxs
  | .arrCreate _ _ len => len.wellTyped && len.typeIs (·.eqKind .int)
  | .propertyLookup node i p => (Expr.propertyLookup node i p).typed

def Expr.wellTypedIdxs : List (Expr Symbol) → Bool
  | [] => true
  | e :: es => e.wellTyped && e.typeIs (·.eqKind .int) && wellTypedIdxs es
end

mutual
/-- What the checker leaves unchecked: operands of arithmetic operators are
numerical, and the lengths of arrays have type `int`. -/
def Expr.strict : Expr Symbol → Bool
  | .char _ _ | .string _ _ | .number _ _ | .bool _ _ | .ident _ | .propertyLookup _ _ _ => true
  | .binOp _ op lhs rhs => lhs.strict && rhs.strict &&
    (op.getOpGroupArgs != .num || lhs.typeIs (·.isNumerical) && rhs.typeIs (·.isNumerical))
  | .arrLookup _ _ idxs => strictIdxs idxs
  | .arrCreate _ _ len => len.strict && len.typeIs (·.eqKind .int)

def Expr.strictIdxs : List (Expr Symbol) → Bool
  | [] => true
  | e :: es => e.strict && strictIdxs es
end

theorem Expr.typeIs_iff {e : Expr Symbol} {p : Ty → Bool} :
    e.typeIs p = true ↔ ∃ t, e.getType = .ok t ∧ p t = true := by
  unfold typeIs
  cases e.getType <;> simp

theorem Expr.typed_iff {e : Expr Symbol} : e.typed = true ↔ ∃ t, e.getType = .ok t := by
  simp [typed, typeIs_iff]

theorem Expr.typeIs_typed {e : Expr Symbol} {p : Ty → Bool} (h : e.typeIs p = true) : e.typed = true := by
  obtain ⟨t, ht, -⟩ := typeIs_iff.mp h
  exact typed_iff.mpr ⟨t, ht⟩

/-- What `BinOpNode::get_type` checks. -/
theorem binOpGetType_ok_iff {op : BinOpType} {pos : Position} {t1 t2 t : Ty} :
    binOpGetType op pos t1 t2 = .ok t ↔ .ofKind op.getOpGroupRes = t ∧
      (op.getOpGroupArgs = .bool ∧ t1.eqKind .bool = true ∧ t2.eqKind .bool = true ∨
        op.getOpGroupArgs ≠ .bool ∧ t1.eq t2 = true) := by
  unfold binOpGetType
  split <;> split <;> simp_all [buildError]

/-- A typed operator has typed operands, of the types its group asks for. -/
theorem Expr.typed_binOp_iff {node : ASTNode} {op : BinOpType} {lhs rhs : Expr Symbol} :
    (Expr.binOp node op lhs rhs).typed = true ↔ ∃ t1 t2, lhs.getType = .ok t1 ∧ rhs.getType = .ok t2 ∧
      (op.getOpGroupArgs = .bool ∧ t1.eqKind .bool = true ∧ t2.eqKind .bool = true ∨
        op.getOpGroupArgs ≠ .bool ∧ t1.eq t2 = true) := by
  simp only [typed_iff, getType, Except.bind_ok_iff, binOpGetType_ok_iff]
  constructor
  · rintro ⟨t, t1, h1, t2, h2, -, h⟩
    exact ⟨t1, t2, h1, h2, h⟩
  · rintro ⟨t1, t2, h1, h2, h⟩
    exact ⟨_, t1, h1, t2, h2, rfl, h⟩

/-! ## Expressions the checker accepts -/

theorem typeCheckIdx_ok_iff {e : Expr Symbol} :
    typeCheckIdx e = .ok () ↔ e.typeIs (·.eqKind .int) = true := by
  simp only [typeCheckIdx, Except.bind_ok_iff, Expr.typeIs_iff]
  refine exists_congr fun t => and_congr_right fun _ => ?_
  split <;> simp_all [buildError, pure, Except.pure]

theorem typeCheckVisitorExprs_ok_iff {es : List (Expr Symbol)} :
    typeCheckVisitorExprs es = .ok () ↔ ∀ e ∈ es, typeCheckVisitorExpr e = .ok () := by
  induction es with
  | nil => simp [typeCheckVisitorExprs, pure, Except.pure]
  | cons e es ih =>
    simp only [typeCheckVisitorExprs, Except.bind_ok_iff, List.forall_mem_cons, ih]
    constructor
    · rintro ⟨_, h⟩
      exact h
    · exact fun h => ⟨(), h⟩

theorem Expr.wellTypedIdxs_iff {es : List (Expr Symbol)} :
    wellTypedIdxs es = true ↔ ∀ e ∈ es, e.wellTyped = true ∧ e.typeIs (·.eqKind .int) = true := by
  induction es with
  | nil => simp [wellTypedIdxs]
  | cons e es ih => simp [wellTypedIdxs, ih]

theorem Expr.strictIdxs_iff {es : List (Expr Symbol)} :
    strictIdxs es = true ↔ ∀ e ∈ es, e.strict = true := by
  induction es with
  | nil => simp [strictIdxs]
  | cons e es ih => simp [strictIdxs, ih]

/-- A typed expression the checker walks over without an error is well typed
exactly when what is left unchecked in it holds. -/
theorem Expr.wellTyped_iff_strict (e : Expr Symbol) :
    typeCheckVisitorExpr e = .ok () → e.typed = true → (e.wellTyped = true ↔ e.strict = true) := by
  induction e with
  | binOp node op lhs rhs ihl ihr =>
    intro hc ht
    simp only [typeCheckVisitorExpr, Except.bind_ok_iff] at hc
    obtain ⟨_, hl, hr⟩ := hc
    obtain ⟨t1, t2, h1, h2, hop⟩ := typed_binOp_iff.mp ht
    have ihl := ihl hl (typed_iff.mpr ⟨t1, h1⟩)
    have ihr := ihr hr (typed_iff.mpr ⟨t2, h2⟩)
    simp only [wellTyped, strict, Bool.and_eq_true, ht, ihl, ihr, typeIs, h1, h2, true_and]
    refine and_congr_right fun _ => ?_
    rcases hop with ⟨hg, hb⟩ | ⟨hg, heq⟩
    · simp [BinOpType.operandsOk, hg, hb]
    · cases hg' : op.getOpGroupArgs <;> simp_all [BinOpType.operandsOk]
  | arrLookup node i idxs ih =>
    intro hc ht
    simp only [typeCheckVisitorExpr, Except.bind_ok_iff] at hc
    obtain ⟨_, hidx, hes⟩ := hc
    have hidx := fun e he => typeCheckIdx_ok_iff.mp (Except.forM_ok_iff.mp hidx e he)
    have hes := typeCheckVisitorExprs_ok_iff.mp hes
    simp only [wellTyped, strict, ht, Bool.true_and, wellTypedIdxs_iff, strictIdxs_iff]
    refine forall₂_congr fun e he => ?_
    rw [ih e he (hes e he) (typeIs_typed (hidx e he))]
    exact and_iff_left (hidx e he)
  | arrCreate node type len ih =>
    intro hc _
    simp only [wellTyped, strict, Bool.and_eq_true]
    exact and_congr_left fun hlen => ih hc (typeIs_typed hlen)
  | propertyLookup node i p => intro _ ht; simpa [wellTyped, strict] using ht
  | _ => intros; simp [wellTyped, strict]

/-! ## Functions -/

/-- What the checker has found of one statement. -/
def Stmt.Checks (retType : DeclTy) : Stmt Symbol → Prop
  | .asg n => typeCheckVisitorAsg n = .ok ()
  | .ret n => typeCheckVisitorRet retType n = .ok ()
  | .def_ n => typeCheckVisitorDef n = .ok ()
  | .for_ node precond _ cond _ _ => typeCheckCond node.pos "loop stop" cond = .ok () ∧
    precond.toList.forM typeCheckVisitorPrecond = .ok () ∧ typeCheckVisitorExpr cond = .ok ()
  | .if_ node precond cond _ | .ifElse node precond cond _ _ =>
    typeCheckCond node.pos "if operator" cond = .ok () ∧
      precond.toList.forM typeCheckVisitorPrecond = .ok () ∧ typeCheckVisitorExpr cond = .ok ()
  | .cont _ _ | .brk _ _ => True

/-- The checker visits every statement. -/
theorem typeCheck_nodes {ty : DeclTy} :
    (∀ s : Stmt Symbol, typeCheckVisitorStmt ty s = .ok () → ∀ n ∈ s.nodes, n.Checks ty) ∧
    ∀ b : Body Symbol, typeCheckVisitorBody ty b = .ok () → ∀ n ∈ Body.nodes b, n.Checks ty := by
  have hasg {n : Option (AsgNode Symbol)} (h : n.toList.forM typeCheckVisitorAsg = .ok ()) :
      ∀ s ∈ (n.map Stmt.asg).toList, s.Checks ty := by
    cases n with
    | none => simp
    | some n =>
      intro s hs
      obtain rfl : s = .asg n := by simpa using hs
      exact Except.forM_ok_iff.mp h n (by simp)
  apply Stmt.induct
  case for_ =>
    intro node p pre c inc b ih h
    simp only [typeCheckVisitorStmt, Except.bind_ok_iff] at h
    obtain ⟨_, hct, _, hp, _, hpre, _, hc, _, hinc, hb⟩ := h
    simp only [Stmt.nodes, List.forall_mem_cons, List.forall_mem_append]
    exact ⟨⟨hct, hp, hc⟩, ⟨hasg hpre, hasg hinc⟩, ih hb⟩
  case if_ =>
    intro node p c b ih h
    simp only [typeCheckVisitorStmt, Except.bind_ok_iff] at h
    obtain ⟨_, hct, _, hp, _, hc, hb⟩ := h
    simp only [Stmt.nodes, List.forall_mem_cons]
    exact ⟨⟨hct, hp, hc⟩, ih hb⟩
  case ifElse =>
    intro node p c b e ihb ihe h
    simp only [typeCheckVisitorStmt, Except.bind_ok_iff] at h
    obtain ⟨_, hct, _, hp, _, hc, _, hb, he⟩ := h
    simp only [Stmt.nodes, List.forall_mem_cons, List.forall_mem_append]
    exact ⟨⟨hct, hp, hc⟩, ihb hb, ihe he⟩
  case nil => intro _; simp [Body.nodes]
  case cons =>
    intro s rest ihs ihr h
    simp only [typeCheckVisitorBody, Except.bind_ok_iff] at h
    obtain ⟨_, hs, hr⟩ := h
    simp only [Body.nodes, List.forall_mem_append]
    exact ⟨ihs hs, ihr hr⟩
  all_goals
    intros
    simp_all [Stmt.nodes, Stmt.Checks, typeCheckVisitorStmt]

/-- The root of an expression is typed, and the checker has walked over it. -/
def Expr.Checked (e : Expr Symbol) : Prop := typeCheckVisitorExpr e = .ok () ∧ e.typed = true

theorem ite_ok_iff {α : Type} {c : Bool} {pos : Position} {msg : String} {r : Except BuildError α} {a : α} :
    (if c then r else buildError pos msg) = .ok a ↔ c = true ∧ r = .ok a := by
  cases c <;> simp [buildError]

theorem typeCheckVisitorAsg_ok_iff {n : AsgNode Symbol} : typeCheckVisitorAsg n = .ok () ↔
    typeCheckTarget n.lhs = .ok () ∧ (∃ t1 t2, n.lhs.toExpr.getType = .ok t1 ∧ n.rhs.getType = .ok t2 ∧
      t1.isConvertableTo t2 = true) ∧ typeCheckVisitorExpr n.lhs.toExpr = .ok () ∧
      typeCheckVisitorExpr n.rhs = .ok () := by
  simp only [typeCheckVisitorAsg, typeCheckAsg, Except.bind_ok_iff, ite_ok_iff, Except.pure_ok_iff, and_true]
  constructor
  · rintro ⟨_, ht, _, ⟨t1, h1, t2, h2, hc⟩, _, hl, hr⟩
    exact ⟨ht, ⟨t1, t2, h1, h2, hc⟩, hl, hr⟩
  · rintro ⟨ht, ⟨t1, t2, h1, h2, hc⟩, hl, hr⟩
    exact ⟨(), ht, (), ⟨t1, h1, t2, h2, hc⟩, (), hl, hr⟩

theorem typeCheckVisitorDef_ok_iff {n : DefNode Symbol} : typeCheckVisitorDef n = .ok () ↔
    ∀ e ∈ n.rhs, ∃ t, e.getType = .ok t ∧ t.isConvertableTo n.type.toTy = true ∧ typeCheckVisitorExpr e = .ok () := by
  unfold typeCheckVisitorDef
  cases n.rhs with
  | none => simp [pure, Except.pure]
  | some e => simp [ite_ok_iff]

theorem typeCheckVisitorRet_ok_iff {ty : DeclTy} {n : ReturnNode Symbol} : typeCheckVisitorRet ty n = .ok () ↔
    ∃ t, n.expr.getType = .ok t ∧ t.eq ty.toTy = true ∧ typeCheckVisitorExpr n.expr = .ok () := by
  simp [typeCheckVisitorRet, ite_ok_iff]

theorem typeCheckVisitorPrecond_ok_iff {p : Option (PrecondNode Symbol)} :
    p.toList.forM typeCheckVisitorPrecond = .ok () ↔
      ∀ e ∈ precondExpr p, e.typeIs (·.eqKind .bool) = true ∧ typeCheckVisitorExpr e = .ok () := by
  rw [Except.forM_ok_iff]
  cases p with
  | none => simp [precondExpr]
  | some p =>
    simp only [Option.toList_some, List.mem_singleton, forall_eq, typeCheckVisitorPrecond, precondExpr,
      Option.bind_some]
    cases p.expr with
    | none => simp [pure, Except.pure]
    | some e =>
      simp only [Except.bind_ok_iff, ite_ok_iff, Option.toList_some, List.mem_singleton, forall_eq,
        Expr.typeIs_iff, ← and_assoc, exists_and_right]

theorem typeCheckCond_ok_iff {pos : Position} {what : String} {c : Expr Symbol} :
    typeCheckCond pos what c = .ok () ↔ c.typeIs (·.eqKind .bool) = true := by
  simp [typeCheckCond, ite_ok_iff, Expr.typeIs_iff]

/-- The conditions of a checked statement are `bool`. -/
theorem Stmt.Checks.conds {ty : DeclTy} {s : Stmt Symbol} (h : s.Checks ty) :
    ∀ c ∈ s.conds, c.typeIs (·.eqKind .bool) = true ∧ typeCheckVisitorExpr c = .ok () := by
  cases s with
  | for_ | if_ | ifElse =>
    obtain ⟨hct, hp, hc⟩ := h
    simp only [Stmt.conds, List.forall_mem_append, List.forall_mem_singleton]
    exact ⟨typeCheckVisitorPrecond_ok_iff.mp hp, typeCheckCond_ok_iff.mp hct, hc⟩
  | _ => simp [Stmt.conds]

/-- The roots of a checked statement are. -/
theorem Stmt.Checks.exprs {ty : DeclTy} {s : Stmt Symbol} (h : s.Checks ty) : ∀ e ∈ s.exprs, e.Checked := by
  cases s with
  | asg n =>
    obtain ⟨-, ⟨t1, t2, h1, h2, -⟩, hl, hr⟩ := typeCheckVisitorAsg_ok_iff.mp h
    simp only [Stmt.exprs, List.forall_mem_cons]
    exact ⟨⟨hl, Expr.typed_iff.mpr ⟨t1, h1⟩⟩, ⟨hr, Expr.typed_iff.mpr ⟨t2, h2⟩⟩, by simp⟩
  | ret n =>
    obtain ⟨t, ht, -, he⟩ := typeCheckVisitorRet_ok_iff.mp h
    simp only [Stmt.exprs, List.forall_mem_singleton]
    exact ⟨he, Expr.typed_iff.mpr ⟨t, ht⟩⟩
  | def_ n =>
    intro e he
    obtain ⟨t, ht, -, hc⟩ := typeCheckVisitorDef_ok_iff.mp h e (by simpa [Stmt.exprs] using he)
    exact ⟨hc, Expr.typed_iff.mpr ⟨t, ht⟩⟩
  | for_ | if_ | ifElse => exact fun e he => ⟨(h.conds e he).2, Expr.typeIs_typed (h.conds e he).1⟩
  | cont | brk => simp [Stmt.exprs, Stmt.conds]

theorem Stmt.checks_eliminate {ty : DeclTy} {s : Stmt Symbol} :
    (eliminateUnreachableCodeVisitStmt s).Checks ty ↔ s.Checks ty := by cases s <;> rfl

theorem FunctionNode.accept_checks {f : FunctionNode Unit} {g : FunctionNode Symbol} {inputs : List Symbol}
    (h : f.accept = .ok (g, inputs)) {n : Stmt Symbol} (hn : n ∈ Body.nodes g.body) : n.Checks g.retType := by
  obtain ⟨f₁, f₂, -, -, h₃, rfl⟩ := accept_ok h
  obtain ⟨n₀, hn₀, rfl⟩ := nodes_eliminate.2 _ n hn
  exact Stmt.checks_eliminate.mpr (typeCheck_nodes.2 _ h₃ n₀ hn₀)

/-- Every expression of a body is well typed, and every condition is `bool`. -/
def Body.WellTyped (b : Body Symbol) : Prop :=
  ∀ n ∈ Body.nodes b, (∀ e ∈ n.exprs, e.wellTyped = true) ∧ ∀ c ∈ n.conds, c.typeIs (·.eqKind .bool) = true

/-- **An accepted function is well typed** exactly when the operands of its
arithmetic operators are numerical and the lengths of its arrays `int`. -/
theorem typeCheck_wellTyped_iff {f : FunctionNode Symbol} (h : f.typeCheck = .ok ()) :
    Body.WellTyped f.body ↔ ∀ n ∈ Body.nodes f.body, ∀ e ∈ n.exprs, e.strict = true := by
  refine forall₂_congr fun n hn => ?_
  have hc := typeCheck_nodes.2 f.body h n hn
  refine (and_iff_left fun c hmem => (hc.conds c hmem).1).trans (forall₂_congr fun e he => ?_)
  exact Expr.wellTyped_iff_strict e (hc.exprs e he).1 (hc.exprs e he).2

namespace Sample

/-- `int f(int n) { return e }`. -/
def returns (e : Expr Symbol) (h : (Body.keyIds [Stmt.ret ⟨node 1, e⟩]).Nodup) : FunctionNode Symbol :=
  ⟨node 0, ⟨.int, 0⟩, "f", [param 5 "n" ⟨.int, 0⟩], [.ret ⟨node 1, e⟩], h⟩

/-- `1 + 2`. -/
def sumsInts : Expr Symbol := .binOp (node 2) .sum (.number (node 3) 1) (.number (node 4) 2)

/-- `true + true`. -/
def sumsBools : Expr Symbol := .binOp (node 2) .sum (.bool (node 3) true) (.bool (node 4) true)

end Sample

theorem typeCheck_wellTyped_iff_sumsInts :
    Body.WellTyped (Sample.returns Sample.sumsInts (by decide)).body ↔
      ∀ n ∈ Body.nodes (Sample.returns Sample.sumsInts (by decide)).body, ∀ e ∈ n.exprs, e.strict = true :=
  typeCheck_wellTyped_iff (f := Sample.returns Sample.sumsInts (by decide)) rfl

/-- `true + true` is accepted, as an `int`. -/
theorem sumsBools_accepted : ¬ ∀ f : FunctionNode Symbol, f.typeCheck = .ok () → Body.WellTyped f.body :=
  fun h => absurd ((h (Sample.returns Sample.sumsBools (by decide)) rfl _ (List.mem_cons_self ..)).1 Sample.sumsBools
    (List.mem_cons_self ..)) (by decide)

end DGen
