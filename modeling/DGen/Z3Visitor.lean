/-
The solver's side (`CodegenZ3Visitor.h`, `CodegenZ3Visitor.cpp`): the
formulas of a condition and its precondition, and the inputs filled from the
model.

The solver is a parameter, and so is the order in which the map
`syms_to_expr_id` is walked over. A formula is an integer or a boolean one:
an operator of `z3::expr` asserts that its operands are of the sort it takes.
-/
import DGen.Machine

namespace DGen

open Memory

/-! ## Formulas and models -/

inductive ZSort
  | int | bool
  deriving DecidableEq, Repr

/-- The sort an operator gives. -/
def BinOpType.zsort : BinOpType → ZSort
  | .sum | .sub | .mul | .div => .int
  | _ => .bool

def ZExpr.sort : ZExpr → ZSort
  | .intVal _ | .intConst _ => .int
  | .boolVal _ | .boolConst _ | .not _ => .bool
  | .binOp op _ _ => op.zsort

/-- The sorts of operands an operator takes. -/
def BinOpType.zargs (op : BinOpType) (s t : ZSort) : Bool :=
  match op with
  | .or | .and => s == .bool && t == .bool
  | .eq | .neq => s == t
  | _ => s == .int && t == .int

/-- The switch of `gen_expr(BinOpNode *)`. -/
def mkBinOp (op : BinOpType) (lhs rhs : ZExpr) : M ZExpr :=
  if op.zargs lhs.sort rhs.sort then return .binOp op lhs rhs else fault .assertion

/-- `!e`. -/
def mkNot (e : ZExpr) : M ZExpr := if e.sort = .bool then return .not e else fault .assertion

/-- `z3::model`: the constants, each sort with names of its own, and what a
division by zero is. -/
structure Model where
  ints : String → Int
  bools : String → Bool
  divZero : Int → Int

mutual
/-- The integer a formula denotes. -/
def ZExpr.int (m : Model) : ZExpr → Int
  | .intVal v => v
  | .intConst name => m.ints name
  | .binOp op lhs rhs =>
    match op with
    | .sum => lhs.int m + rhs.int m
    | .sub => lhs.int m - rhs.int m
    | .mul => lhs.int m * rhs.int m
    | .div => if rhs.int m = 0 then m.divZero (lhs.int m) else lhs.int m / rhs.int m
    | _ => 0
  | _ => 0

/-- The truth value a formula denotes. -/
def ZExpr.bool (m : Model) : ZExpr → Bool
  | .boolVal b => b
  | .boolConst name => m.bools name
  | .not e => !e.bool m
  | .binOp op lhs rhs =>
    match op with
    | .lt => lhs.int m < rhs.int m
    | .le => lhs.int m ≤ rhs.int m
    | .gt => rhs.int m < lhs.int m
    | .ge => rhs.int m ≤ lhs.int m
    | .eq => if lhs.sort = .int then lhs.int m == rhs.int m else lhs.bool m == rhs.bool m
    | .neq => if lhs.sort = .int then lhs.int m != rhs.int m else lhs.bool m != rhs.bool m
    | .or => lhs.bool m || rhs.bool m
    | .and => lhs.bool m && rhs.bool m
    | _ => false
  | _ => false
end

/-- `model.eval(expr, true)`. -/
def Model.eval (m : Model) (e : ZExpr) : ZVal :=
  match e.sort with
  | .int => .int (e.int m)
  | .bool => .bool (e.bool m)

/-- `solver.check()`, with the model of a `sat`. -/
inductive CheckResult
  | sat (m : Model)
  | unsat
  | unknown

/-- A `sat` comes with a model of the formulas. -/
def Sound (check : List ZExpr → CheckResult) : Prop := ∀ fs m, check fs = .sat m → ∀ f ∈ fs, f.bool m = true

/-- A solver that knows one model. -/
def checkWith (m : Model) (fs : List ZExpr) : CheckResult := if fs.all (·.bool m) then .sat m else .unknown

theorem checkWith_sound (m : Model) : Sound (checkWith m) := by
  intro fs m' h
  unfold checkWith at h
  split at h
  next hall =>
    cases h
    exact List.all_eq_true.mp hall
  next => cases h

/-- An order to walk over `syms_to_expr_id` in. -/
structure Walk where
  order : List (SymId × Nat) → List (SymId × Nat)
  perm : ∀ l, (order l).Perm l

/-! ## `gen_expr` -/

/-- `syms_to_expr_id[sym] = exprs.size(); exprs.push_back(expr);`. -/
def Z3Visitor.record (z : Z3Visitor) (sym : SymId) (expr : ZExpr) : Z3Visitor :=
  { exprs := z.exprs ++ [expr]
    symsToExprId := (sym, z.exprs.length) :: z.symsToExprId.filter (·.1 != sym) }

def record (sym : SymId) (expr : ZExpr) : M Unit :=
  modify fun w => { w with z3 := w.z3.record sym expr }

/-- `get_expr`, recorded unless the symbol has a value. -/
def genSymExpr (sym : SymId) : M ZExpr := do
  let o ← getSym sym
  let expr ← o.getExpr
  if !o.val.hasVal then record sym expr
  return expr

/-- `get_expr_from_void`; a pointer nobody has set points nowhere. -/
def getExprFromVoid (ptr : Option Ptr) (type : Ty) : M ZExpr :=
  match type.getCurrentType with
  | .int => do
    match ← loadMem .int32 (← ofOption .undefined ptr) with
    | .int32 n => return .intVal n.toInt
    | _ => fault .undefined
  | .char => do
    match ← loadMem .int8 (← ofOption .undefined ptr) with
    | .int8 c => return .intVal c.toInt
    | _ => fault .undefined
  | .bool => do
    match ← loadMem .int8 (← ofOption .undefined ptr) with
    | .int8 b => return .boolVal (b != 0)
    | _ => fault .undefined
  | _ => fault (.thrown ("unexpected type on gen_expr: " ++ type.toString))

def genIdent (n : IdentNode Symbol) : M ZExpr := do
  if n.symbol.isInput then genSymExpr (← inputId n.symbol.ref)
  else getExprFromVoid ((← get).ctx.addr n.symbol.ref) n.symbol.type.toTy

/-- `"__arr_" + name + idxs`. -/
def elemName (name : String) (idxs : List (BitVec 32)) : String :=
  "__arr_" ++ name ++ String.join (idxs.map fun i => toString i.toInt ++ "_")

def genArrLookup (node : ASTNode) (n : IdentNode Symbol) (idxs : List (Expr Symbol)) : M ZExpr := do
  if n.symbol.isInput then
    let arr ← inputId n.symbol.ref
    let currentIdxs := (← get).ctx.currentIdxs node.id
    let indexed ← getSymbolByIdxs arr currentIdxs
    let name := elemName (← getSym arr).name currentIdxs
    setSym indexed { (← getSym indexed) with name }
    genSymExpr indexed
  else
    let ptr := (← get).ctx.currentPtr node.id
    match (Expr.arrLookup node n idxs).getType with
    | .ok type => getExprFromVoid ptr type
    | .error e => fault (.build e)

def genPropertyLookup (n : IdentNode Symbol) : M ZExpr := do
  if n.symbol.isInput then
    let sym ← inputId n.symbol.ref
    let o ← getSym sym
    match o.val with
    | .array _ (some size) _ => return .intVal size.toInt
    | .array _ none _ => do
      let expr := ZExpr.intConst (o.name ++ ".len")
      record sym expr
      return expr
    | _ => fault .undefined
  else
    match ← loadMem .ptr (← ofOption .undefined ((← get).ctx.addr n.symbol.ref)) with
    | .ptr p => return .intVal (← getAlloc p).size.toNat
    | _ => fault .undefined

/-- `gen_expr`. -/
def genExpr : Expr Symbol → M ZExpr
  | .bool _ val => return .boolVal val
  | .char _ ch => return .intVal ch.toInt
  | .number _ num => return .intVal num.toInt
  | .ident n => genIdent n
  | .arrLookup node n idxs => genArrLookup node n idxs
  | .binOp _ op lhs rhs => do
    let lhs ← genExpr lhs
    let rhs ← genExpr rhs
    mkBinOp op lhs rhs
  | .propertyLookup _ n _ => genPropertyLookup n
  | .string _ _ | .arrCreate _ _ _ => fault (.thrown "gen expr on wrong ast node")

/-! ## `start_z3_gen` -/

/-- The roll: a precondition with a probability may negate its condition. -/
def rollNegates (prob : BitVec 32) (r : Nat) : Bool := (r % 100 : Int) > prob.toInt

def roll (prob : BitVec 32) (cond : ZExpr) : M ZExpr := do
  if prob != -1 then
    let r ← rand
    if rollNegates prob r then mkNot cond else return cond
  else return cond

/-- `start_z3_gen` up to `solver.check()`: the formulas it adds. The first
`rand` is the solver's seed. -/
def genFormulas (cond : Expr Symbol) (precond : PrecondNode Symbol) : M (List ZExpr) := do
  modify fun w => { w with z3 := ⟨[], []⟩ }
  let condExpr ← genExpr cond
  let _ ← rand
  let condExpr ← roll precond.prob condExpr
  match precond.expr with
  | none => return [condExpr]
  | some e => return [condExpr, ← genExpr e]

/-- The fill loop. -/
def fillLoop (m : Model) (exprs : List ZExpr) : List (SymId × Nat) → M Unit
  | [] => return ()
  | (sym, k) :: items => do
    let expr ← ofOption .undefined exprs[k]?
    fillSym sym (m.eval expr)
    fillLoop m exprs items

/-- `start_z3_gen`. -/
def startZ3Gen (check : List ZExpr → CheckResult) (walk : Walk) (cond : Expr Symbol)
    (precond : PrecondNode Symbol) : M Unit := do
  let formulas ← genFormulas cond precond
  let z3 := (← get).z3
  if z3.exprs.isEmpty then return ()
  else
    match check formulas with
    | .sat m => fillLoop m z3.exprs (walk.order z3.symsToExprId)
    | _ => return ()

end DGen
