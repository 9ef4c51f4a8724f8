/-
The syntax tree (`ast.h`, `ast.cpp`).

`σ` is what an identifier's `symbol` and a definition's `sym` hold: `Unit`
before name resolution has set them, `Symbol` after. Every node carries its
identity (the address `new` returned: jumps name their loop by it, and the
solver's callbacks name the lookup they write) and its position.
-/
import DGen.Types

namespace DGen

structure Position where
  line : Int
  col : Int
  deriving DecidableEq, Repr

structure Err where
  pos : Position
  msg : String
  deriving DecidableEq, Repr

structure BuildError where
  errors : List Err
  deriving DecidableEq, Repr

/-- `throw BuildError(Err{pos, msg})`. -/
def buildError {α : Type} (pos : Position) (msg : String) : Except BuildError α := .error ⟨[⟨pos, msg⟩]⟩

abbrev NodeId := Nat

structure ASTNode where
  id : NodeId
  pos : Position
  deriving DecidableEq, Repr

/-! ## Symbols -/

/-- Which `Symbol` object: the input of the i-th parameter, or the one made
for the k-th definition. -/
inductive SymRef
  | input (i : Nat)
  | var (k : Nat)
  deriving DecidableEq, Repr

/-- The fields of a `Symbol` that `create_symbol` sets and nothing changes
for a named symbol. Its run-time fields are in the run-time state. -/
structure Symbol where
  ref : SymRef
  pos : Position
  type : DeclTy
  name : String
  deriving DecidableEq, Repr

/-- `is_input`. -/
def Symbol.isInput (s : Symbol) : Bool :=
  match s.ref with
  | .input _ => true
  | .var _ => false

/-! ## Expressions -/

inductive BinOpType
  | sum | sub | or | lt | le | gt | ge | eq | neq | mul | div | and
  deriving DecidableEq, Repr

inductive BinOpGroup
  | num | bool | any
  deriving DecidableEq, Repr

structure IdentNode (σ : Type) where
  node : ASTNode
  name : String
  symbol : σ
  deriving DecidableEq, Repr

/-- A `StringNode`, as the module has it. -/
structure StringNode where
  id : NodeId
  str : String
  deriving DecidableEq, Repr

/-- Expressions. `arrCreate` keeps the element type `create` is given; the
node's own `type` is that with `[]` inserted. -/
inductive Expr (σ : Type)
  | char (node : ASTNode) (ch : BitVec 8)
  | string (node : ASTNode) (str : String)
  | number (node : ASTNode) (num : BitVec 32)
  | bool (node : ASTNode) (val : Bool)
  | ident (n : IdentNode σ)
  | binOp (node : ASTNode) (opType : BinOpType) (lhs rhs : Expr σ)
  | arrLookup (node : ASTNode) (ident : IdentNode σ) (idxs : List (Expr σ))
  | arrCreate (node : ASTNode) (elem : DeclTy) (len : Expr σ)
  | propertyLookup (node : ASTNode) (ident : IdentNode σ) (propertyName : String)

/-- Induction over expressions, with the indices of a lookup as a list. -/
@[elab_as_elim, induction_eliminator] theorem Expr.induct {σ : Type} {P : Expr σ → Prop}
    (char : ∀ node ch, P (.char node ch)) (string : ∀ node str, P (.string node str))
    (number : ∀ node num, P (.number node num)) (bool : ∀ node val, P (.bool node val))
    (ident : ∀ n, P (.ident n)) (binOp : ∀ node op l r, P l → P r → P (.binOp node op l r))
    (arrLookup : ∀ node i idxs, (∀ e ∈ idxs, P e) → P (.arrLookup node i idxs))
    (arrCreate : ∀ node elem len, P len → P (.arrCreate node elem len))
    (propertyLookup : ∀ node i p, P (.propertyLookup node i p)) (e : Expr σ) : P e :=
  @Expr.rec σ P (fun es => ∀ e ∈ es, P e) char string number bool ident binOp arrLookup arrCreate
    propertyLookup (fun _ h => nomatch h)
    (fun _ _ ha hes _ h => (List.mem_cons.mp h).elim (fun h => h ▸ ha) (hes _)) e

def Expr.pos {σ : Type} : Expr σ → Position
  | .char n _ | .string n _ | .number n _ | .bool n _ => n.pos
  | .ident n => n.node.pos
  | .binOp n _ _ _ | .arrLookup n _ _ | .arrCreate n _ _ | .propertyLookup n _ _ => n.pos

namespace BinOpType

/-- `BinOpNode::get_op_group_args`. -/
def getOpGroupArgs : BinOpType → BinOpGroup
  | .sum | .sub | .lt | .le | .gt | .ge | .mul | .div => .num
  | .or | .and => .bool
  | .eq | .neq => .any

/-- `BinOpNode::get_op_group_res`. -/
def getOpGroupRes : BinOpType → TypeKind
  | .sum | .sub | .mul | .div => .int
  | .lt | .le | .gt | .ge | .or | .and | .eq | .neq => .bool

/-- `BinOpNode::map_op_type_to_str`. -/
def mapOpTypeToStr : BinOpType → String
  | .sum => "+"
  | .sub => "-"
  | .or => "||"
  | .lt => "<"
  | .le => "<="
  | .gt => ">"
  | .ge => ">="
  | .eq => "=="
  | .neq => "!="
  | .mul => "*"
  | .div => "/"
  | .and => "&&"

end BinOpType

/-- `BinOpNode::get_type`, given the operands' types. -/
def binOpGetType (op : BinOpType) (lhsPos : Position) (t1 t2 : Ty) : Except BuildError Ty :=
  match op.getOpGroupArgs with
  | .num =>
    if t1.eq t2 then .ok (.ofKind op.getOpGroupRes)
    else buildError lhsPos ("invalid arguments types for operation \"" ++ op.mapOpTypeToStr ++
      "\", numerical args expected, got: " ++ t1.toString ++ " and " ++ t2.toString)
  | .bool =>
    if t1.eqKind .bool && t2.eqKind .bool then .ok (.ofKind op.getOpGroupRes)
    else buildError lhsPos ("invalid arguments types for operation \"" ++ op.mapOpTypeToStr ++
      "\", bool arguments expected, got: " ++ t1.toString ++ " and " ++ t2.toString)
  | .any =>
    if t1.eq t2 then .ok (.ofKind op.getOpGroupRes)
    else buildError lhsPos ("incompatible arguments types for operation \"" ++ op.mapOpTypeToStr ++
      "\", got" ++ t1.toString ++ " and " ++ t2.toString)

/-- The loop of `ArrLookupNode::get_type`: one `dropType` an index. -/
def dropTypes (t : Ty) (n : Nat) : Ty := Ty.dropType^[n] t

/-- `ASTNode::get_type`. -/
def Expr.getType : Expr Symbol → Except BuildError Ty
  | .char _ _ => .ok (.ofKind .char)
  | .string _ _ => .ok (.ofKind .string)
  | .number _ _ => .ok (.ofKind .int)
  | .bool _ _ => .ok (.ofKind .bool)
  | .ident n => .ok n.symbol.type.toTy
  | .binOp _ op lhs rhs => do
    let t1 ← lhs.getType
    let t2 ← rhs.getType
    binOpGetType op lhs.pos t1 t2
  | .arrLookup node i idxs =>
    let type := dropTypes i.symbol.type.toTy idxs.length
    if type.eqKind .invalid then buildError node.pos "array dereference on non array variable"
    else .ok type
  | .arrCreate _ elem _ => .ok elem.insertArr.toTy
  | .propertyLookup node i propertyName =>
    if propertyName == "len" then
      let t := i.symbol.type.toTy.getCurrentType
      if t != .arr && t != .string then buildError node.pos "invalid len property on non array symbol"
      else .ok (.ofKind .int)
    else buildError node.pos ("unknown \"" ++ propertyName ++ "\" property")

/-! ## Statements -/

/-- `prob` is -1 when the precondition gives none. -/
structure PrecondNode (σ : Type) where
  node : ASTNode
  prob : BitVec 32
  expr : Option (Expr σ)

/-- What the grammar has on the left of an assignment. -/
inductive LValue (σ : Type)
  | ident (n : IdentNode σ)
  | arrLookup (node : ASTNode) (ident : IdentNode σ) (idxs : List (Expr σ))

def LValue.toExpr {σ : Type} : LValue σ → Expr σ
  | .ident n => .ident n
  | .arrLookup node i idxs => .arrLookup node i idxs

structure AsgNode (σ : Type) where
  node : ASTNode
  lhs : LValue σ
  rhs : Expr σ

structure DefNode (σ : Type) where
  node : ASTNode
  name : String
  type : DeclTy
  rhs : Option (Expr σ)
  sym : σ

structure ReturnNode (σ : Type) where
  node : ASTNode
  expr : Expr σ

/-- Statements; a `BodyNode` is its list of statements. `ifElse` is an
`IfNode` with an `else_body`, `if_` one without; `while` is a `ForNode`
with neither assignment. The `loop` of a jump is unset until
`connect_loops` reaches it. -/
inductive Stmt (σ : Type)
  | asg (n : AsgNode σ)
  | ret (n : ReturnNode σ)
  | def_ (n : DefNode σ)
  | cont (node : ASTNode) (loop : Option NodeId)
  | brk (node : ASTNode) (loop : Option NodeId)
  | for_ (node : ASTNode) (precond : Option (PrecondNode σ)) (preAsg : Option (AsgNode σ))
      (cond : Expr σ) (incAsg : Option (AsgNode σ)) (body : List (Stmt σ))
  | if_ (node : ASTNode) (precond : Option (PrecondNode σ)) (cond : Expr σ) (body : List (Stmt σ))
  | ifElse (node : ASTNode) (precond : Option (PrecondNode σ)) (cond : Expr σ)
      (body elseBody : List (Stmt σ))

abbrev Body (σ : Type) := List (Stmt σ)

/-- Induction over statements (`P`) and bodies (`Q`) together. -/
theorem Stmt.induct {σ : Type} {P : Stmt σ → Prop} {Q : Body σ → Prop}
    (asg : ∀ n, P (.asg n)) (ret : ∀ n, P (.ret n)) (def_ : ∀ n, P (.def_ n))
    (cont : ∀ node loop, P (.cont node loop)) (brk : ∀ node loop, P (.brk node loop))
    (for_ : ∀ node p pre c inc b, Q b → P (.for_ node p pre c inc b))
    (if_ : ∀ node p c b, Q b → P (.if_ node p c b))
    (ifElse : ∀ node p c b e, Q b → Q e → P (.ifElse node p c b e))
    (nil : Q []) (cons : ∀ s rest, P s → Q rest → Q (s :: rest)) : (∀ s, P s) ∧ ∀ b, Q b :=
  ⟨fun s => @Stmt.rec σ P Q asg ret def_ cont brk for_ if_ ifElse nil cons s,
   fun b => @Stmt.rec_1 σ P Q asg ret def_ cont brk for_ if_ ifElse nil cons b⟩

/-- A continue, break or return: what the passes test with three `dynamic_cast`s. -/
def Stmt.isJump {σ : Type} : Stmt σ → Bool
  | .cont _ _ | .brk _ _ | .ret _ => true
  | _ => false

/-! ## Functions -/

mutual
/-- The lookups of an expression, in the order of `children`. -/
def Expr.lookupIds {σ : Type} : Expr σ → List NodeId
  | .binOp _ _ lhs rhs => lhs.lookupIds ++ rhs.lookupIds
  | .arrLookup node _ idxs => node.id :: Expr.lookupIdsList idxs
  | .arrCreate _ _ len => len.lookupIds
  | _ => []

def Expr.lookupIdsList {σ : Type} : List (Expr σ) → List NodeId
  | [] => []
  | e :: es => e.lookupIds ++ Expr.lookupIdsList es
end

/-- The lookups of a condition and its precondition. -/
def condLookupIds {σ : Type} (precond : Option (PrecondNode σ)) (cond : Expr σ) : List NodeId :=
  ((precond.bind (·.expr)).map Expr.lookupIds).getD [] ++ cond.lookupIds

mutual
/-- The nodes that later passes tell apart by address: loops, and the
lookups in conditions and preconditions. -/
def Stmt.keyIds {σ : Type} : Stmt σ → List NodeId
  | .for_ node precond _ cond _ body => node.id :: (condLookupIds precond cond ++ Body.keyIds body)
  | .if_ _ precond cond body => condLookupIds precond cond ++ Body.keyIds body
  | .ifElse _ precond cond body elseBody =>
    condLookupIds precond cond ++ (Body.keyIds body ++ Body.keyIds elseBody)
  | _ => []

def Body.keyIds {σ : Type} : Body σ → List NodeId
  | [] => []
  | s :: rest => s.keyIds ++ Body.keyIds rest
end

/-- A function. Each of the nodes in `keyIds` is an allocation of its own. -/
structure FunctionNode (σ : Type) where
  node : ASTNode
  retType : DeclTy
  name : String
  args : List (DefNode Unit)
  body : Body σ
  distinct : (Body.keyIds body).Nodup

end DGen
