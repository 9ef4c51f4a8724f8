/-
The builder of the syntax tree (`ASTBuilderVisitor`), and the nodes it makes:
each `new` adds an object, with its pointers and the `children` its
constructor sets, and the object's number is the node's identity.
-/
import DGen.Grammar

namespace DGen

/-! ## Nodes -/

/-- A pointer to a node. -/
abbrev NodePtr := Option NodeId

/-- The classes of nodes, with their fields that are pointers to nodes. -/
inductive NodeClass
  | function (args : List NodePtr) (body : NodePtr)
  | body (stmts : List NodePtr)
  | precond (expr : NodePtr)
  | ifNode (precond cond body elseBody : NodePtr)
  | forNode (precond preAsg cond incAsg body : NodePtr)
  | defNode (rhs : NodePtr)
  | continueNode
  | breakNode
  | returnNode (expr : NodePtr)
  | asg (lhs rhs : NodePtr)
  | char
  | string
  | number
  | bool
  | ident
  | binOp (lhs rhs : NodePtr)
  | arrLookup (ident : NodePtr) (idxs : List NodePtr)
  | arrCreate (len : NodePtr)
  | propertyLookup (ident : NodePtr)
  deriving DecidableEq, Repr

/-- The `children` a constructor sets. -/
def NodeClass.children : NodeClass → List NodePtr
  | .function args b => b :: args
  | .body stmts => stmts
  | .precond e => [e]
  | .ifNode p c b e => [p, c, b, e]
  | .forNode p a c i b => [p, a, c, i, b]
  | .defNode rhs => [rhs]
  | .returnNode e => [e]
  | .asg lhs rhs => [lhs, rhs]
  | .binOp lhs rhs => [lhs, rhs]
  | .arrLookup i idxs => i :: idxs
  | .arrCreate len => [len]
  | .propertyLookup i => [i]
  | .continueNode | .breakNode | .char | .string | .number | .bool | .ident => []

structure NodeObj where
  cls : NodeClass
  children : List NodePtr
  deriving DecidableEq, Repr

/-- The nodes there are. -/
abbrev NodeHeap := List NodeObj

inductive BuildFault
  /-- `ASSERT` -/
  | assertion (msg : String)
  /-- a rule is visited at the null pointer -/
  | absentChild
  deriving DecidableEq, Repr

abbrev Build := StateT NodeHeap (Except BuildFault)

def buildFault {α : Type} (f : BuildFault) : Build α := fun _ => .error f

/-- `new`. -/
def newNode (pos : Position) (cls : NodeClass) : Build ASTNode := fun heap =>
  .ok (⟨heap.length, pos⟩, heap ++ [⟨cls, cls.children⟩])

def Expr.id {σ : Type} : Expr σ → NodeId
  | .char n _ | .string n _ | .number n _ | .bool n _ => n.id
  | .ident n => n.node.id
  | .binOp n _ _ _ | .arrLookup n _ _ | .arrCreate n _ _ | .propertyLookup n _ _ => n.id

def Stmt.id {σ : Type} : Stmt σ → NodeId
  | .asg n => n.node.id
  | .ret n => n.node.id
  | .def_ n => n.node.id
  | .cont node _ | .brk node _ | .for_ node _ _ _ _ _ | .if_ node _ _ _ | .ifElse node _ _ _ _ => node.id

/-! ## Constructors -/

def IdentNode.new (pos : Position) (name : String) : Build (IdentNode Unit) := do
  return ⟨← newNode pos .ident, name, ()⟩

def NumberNode.new (pos : Position) (num : BitVec 32) : Build (Expr Unit) := do
  return .number (← newNode pos .number) num

def StringNode.new (pos : Position) (str : String) : Build (Expr Unit) := do
  return .string (← newNode pos .string) str

def BinOpNode.new (pos : Position) (op : BinOpType) (lhs rhs : Expr Unit) : Build (Expr Unit) := do
  return .binOp (← newNode pos (.binOp lhs.id rhs.id)) op lhs rhs

/-- The constructor makes the node of the array's identifier. -/
def ArrLookupNode.new (pos : Position) (name : String) (idxs : List (Expr Unit)) :
    Build (ASTNode × IdentNode Unit × List (Expr Unit)) := do
  let ident ← IdentNode.new pos name
  let node ← newNode pos (.arrLookup ident.node.id (idxs.map (some ·.id)))
  return (node, ident, idxs)

def PropertyLookupNode.new (pos : Position) (name property : String) : Build (Expr Unit) := do
  let ident ← IdentNode.new pos name
  return .propertyLookup (← newNode pos (.propertyLookup ident.node.id)) ident property

/-- `BinOpNode::map_op_type`. -/
def mapOpType (opType : String) : Build BinOpType :=
  match opType with
  | "+" => return .sum
  | "-" => return .sub
  | "||" => return .or
  | "<" => return .lt
  | "<=" => return .le
  | ">" => return .gt
  | ">=" => return .ge
  | "==" => return .eq
  | "!=" => return .neq
  | "*" => return .mul
  | "/" => return .div
  | "&&" => return .and
  | _ => buildFault (.assertion ("invalid bin op type " ++ opType))

/-- `BinOpNode::create`. -/
def BinOpNode.create (pos : Position) (opType : String) (lhs rhs : Expr Unit) : Build (Expr Unit) := do
  BinOpNode.new pos (← mapOpType opType) lhs rhs

mutual
/-- `copy`: what does not override it is not copied. -/
def Expr.copy : Expr Unit → Build (Expr Unit)
  | .number node num => NumberNode.new node.pos num
  | .ident n => do return .ident (← IdentNode.new n.node.pos n.name)
  | .binOp node op lhs rhs => do
    let lhs ← lhs.copy
    let rhs ← rhs.copy
    BinOpNode.new node.pos op lhs rhs
  | .arrLookup node i idxs => do
    let cIdxs ← copyIdxs idxs
    let (node, i, idxs) ← ArrLookupNode.new node.pos i.name cIdxs
    return .arrLookup node i idxs
  | .propertyLookup node i property => PropertyLookupNode.new node.pos i.name property
  | .char node ch => return .char node ch
  | .string node str => return .string node str
  | .bool node val => return .bool node val
  | .arrCreate node elem len => return .arrCreate node elem len

def Expr.copyIdxs : List (Expr Unit) → Build (List (Expr Unit))
  | [] => return []
  | idx :: idxs => do
    let c ← idx.copy
    let cs ← copyIdxs idxs
    return c :: cs
end

inductive AsgType
  | asg | sum | sub | mul | div
  deriving DecidableEq, Repr

/-- `AsgNode::map_asg_type`. -/
def mapAsgType (type : String) : Build AsgType :=
  match type with
  | "=" => return .asg
  | "+=" => return .sum
  | "-=" => return .sub
  | "*=" => return .mul
  | "/=" => return .div
  | _ => buildFault (.assertion ("invalid asg type " ++ type))

/-- The operator of a compound assignment. -/
def AsgType.op? : AsgType → Option BinOpType
  | .asg => none
  | .sum => some .sum
  | .sub => some .sub
  | .mul => some .mul
  | .div => some .div

def AsgNode.new (pos : Position) (lhs : LValue Unit) (rhs : Expr Unit) : Build (AsgNode Unit) := do
  return ⟨← newNode pos (.asg lhs.toExpr.id rhs.id), lhs, rhs⟩

/-- `AsgNode::create`. -/
def AsgNode.create (pos : Position) (lhs : LValue Unit) (type : String) (rhs : Expr Unit) : Build (AsgNode Unit) := do
  match (← mapAsgType type).op? with
  | some op => AsgNode.new pos lhs (← BinOpNode.new pos op (← lhs.toExpr.copy) rhs)
  | none => AsgNode.new pos lhs rhs

/-- `CremNode::map_crem_type`, as the operator it stands for. -/
def mapCremType (type : String) : Build BinOpType :=
  match type with
  | "++" => return .sum
  | "--" => return .sub
  | _ => buildFault (.assertion ("invalid crem type " ++ type))

/-- `CremNode::create`. -/
def CremNode.create (pos : Position) (lhs : LValue Unit) (type : String) : Build (AsgNode Unit) := do
  let op ← mapCremType type
  let copied ← lhs.toExpr.copy
  let one ← NumberNode.new pos 1
  AsgNode.new pos lhs (← BinOpNode.new pos op copied one)

/-! ## Terminals -/

/-- `std::atoi` on digits: `strtol`, cut to an `int`. -/
def atoi (text : String) : BitVec 32 :=
  BitVec.ofNat 32 (min (text.toList.foldl (fun n c => 10 * n + (c.toNat - '0'.toNat)) 0) (2 ^ 63 - 1))

/-- `CharNode::create`: the second byte of the text. -/
def CharNode.create (pos : Position) (text : String) : Build (Expr Unit) := do
  return .char (← newNode pos .char) ((text.toUTF8.toList.map (·.toBitVec)).getD 1 0)

/-- `BoolNode::create`. -/
def BoolNode.create (pos : Position) (text : String) : Build (Expr Unit) :=
  if text.toList.head? = some 't' then do return .bool (← newNode pos .bool) true
  else if text.toList.head? = some 'f' then do return .bool (← newNode pos .bool) false
  else buildFault (.assertion ("invalid bool token " ++ text))

/-- `Type::map_type` on a `SCALAR_TYPE`. -/
def mapType (type : String) : Build ScalarType :=
  match type with
  | "int" => return .int
  | "string" => return .string
  | "char" => return .char
  | "bool" => return .bool
  | _ => buildFault (.assertion ("invalid type " ++ type))

/-- `visitType`. -/
def visitType (t : TypeTree) : Build DeclTy := do
  return ⟨← mapType t.scalar.text, t.nested.length⟩

/-- `visitConst`. -/
def visitConst : ConstTree → Build (Expr Unit)
  | .char t => CharNode.create t.pos t.text
  | .string t => StringNode.new t.pos (String.ofList t.text.toList.tail.dropLast)
  | .num t => NumberNode.new t.pos (atoi t.text)
  | .bool t => BoolNode.create t.pos t.text

/-! ## Expressions -/

/-- `visitF_ident`. -/
def visitFIdent (name : Tok .ident) : Build (IdentNode Unit) := IdentNode.new name.pos name.text

mutual
/-- `visitLogic_expr` and the visits of the rules below it. Those with one
rule on the right are `visitChildren`. -/
def ExprTree.visit : {r : Rule} → ExprTree r → Build (Expr Unit)
  | _, .one _ x => x.visit
  | _, .more _ init op _ x => do
    let lhs ← init.visit
    let rhs ← x.visit
    BinOpNode.create x.startPos op.text lhs rhs
  | _, .logicInnerExpr _ e _ => e.visit
  | _, .cmpOp l op r => do
    let lhs ← l.visit
    let rhs ← r.visit
    BinOpNode.create l.startPos op.text lhs rhs
  | _, .expr e => e.visit
  | _, .innerExpr _ e _ => e.visit
  | _, .const c => visitConst c
  | _, .fIdent name => do return .ident (← visitFIdent name)
  | _, .arrayLookup name idxs => do
    let idxs ← idxs.visit
    let (node, ident, idxs) ← ArrLookupNode.new name.pos name.text idxs
    return .arrLookup node ident idxs
  | _, .arrayCreate t _ l _ => do
    let elem ← visitType t
    let len ← l.visit
    return .arrCreate (← newNode t.scalar.pos (.arrCreate len.id)) elem len
  | _, .propertyLookup name _ property => PropertyLookupNode.new name.pos name.text property.text
  | _, .unaryMinus minus f => do
    let f ← f.visit
    let num ← NumberNode.new minus.pos (-1)
    BinOpNode.new minus.pos .mul num f

def IdxTree.visit : IdxTree → Build (List (Expr Unit))
  | .last _ e _ => do return [← e.visit]
  | .cons _ e _ rest => do
    let idx ← e.visit
    let idxs ← rest.visit
    return idx :: idxs
end

/-! ## Statements -/

def LValueTree.visit : LValueTree → Build (LValue Unit)
  | .fIdent name => do return .ident (← visitFIdent name)
  | .arrayLookup name idxs => do
    let idxs ← idxs.visit
    let (node, ident, idxs) ← ArrLookupNode.new name.pos name.text idxs
    return .arrLookup node ident idxs

/-- `visitSimple_asg` and `visitCrem_asg`. -/
def AsgTree.visit : AsgTree → Build (AsgNode Unit)
  | .assg l op r => do
    let lhs ← l.visit
    let rhs ← r.visit
    AsgNode.create l.startPos lhs op.text rhs
  | .assgType l op r => do
    let lhs ← l.visit
    let rhs ← r.visit
    AsgNode.create l.startPos lhs op.text rhs
  | .crem l op => do
    let lhs ← l.visit
    CremNode.create l.startPos lhs op.text

/-- A part that may be left out. -/
def visitOption {α β : Type} (visit : α → Build β) : Option α → Build (Option β)
  | none => return none
  | some a => do return some (← visit a)

/-- `visitPrecondition`. -/
def visitPrecondition (p : PrecondTree) : Build (PrecondNode Unit) := do
  let prob : BitVec 32 := (p.prob.map fun num => atoi num.text).getD (-1)
  let expr ← visitOption ExprTree.visit p.expr
  return ⟨← newNode p.lbracket.pos (.precond (expr.map (·.id))), prob, expr⟩

/-- `visitLogic_expr` on what a rule with an optional `logic_expr` returns for it. -/
def visitLogicExpr : Option LogicExprTree → Build (Expr Unit)
  | some e => e.visit
  | none => buildFault .absentChild

def DefNode.new (pos : Position) (name : String) (type : DeclTy) (rhs : Option (Expr Unit)) : Build (DefNode Unit) := do
  return ⟨← newNode pos (.defNode (rhs.map (·.id))), name, type, rhs, ()⟩

def IfNode.new (pos : Position) (precond : Option (PrecondNode Unit)) (cond : Expr Unit) (body : NodeId × Body Unit)
    (elseBody : Option (NodeId × Body Unit)) : Build (Stmt Unit) := do
  let node ← newNode pos (.ifNode (precond.map (·.node.id)) cond.id body.1 (elseBody.map (·.1)))
  match elseBody with
  | some e => return .ifElse node precond cond body.2 e.2
  | none => return .if_ node precond cond body.2

def ForNode.new (pos : Position) (precond : Option (PrecondNode Unit)) (preAsg : Option (AsgNode Unit))
    (cond : Expr Unit)
    (incAsg : Option (AsgNode Unit)) (body : NodeId × Body Unit) : Build (Stmt Unit) := do
  let node ← newNode pos (.forNode (precond.map (·.node.id)) (preAsg.map (·.node.id)) cond.id (incAsg.map (·.node.id)) body.1)
  return .for_ node precond preAsg cond incAsg body.2

mutual
/-- The visits of the rules of a statement. -/
def StmtTree.visit : StmtTree → Build (Stmt Unit)
  | .assignment a => do return .asg (← a.visit)
  | .return_ kw e => do
    let expr ← e.visit
    return .ret ⟨← newNode kw.pos (.returnNode expr.id), expr⟩
  | .break_ kw => do return .brk (← newNode kw.pos .breakNode) none
  | .continue_ kw => do return .cont (← newNode kw.pos .continueNode) none
  | .define t name r => do
    let type ← visitType t
    let rhs ← visitOption ExprTree.visit r
    return .def_ (← DefNode.new t.scalar.pos name.text type rhs)
  | .for_ p kw a c i b => do
    let precond ← visitOption visitPrecondition p
    let preAsg ← visitOption AsgTree.visit a
    let cond ← visitLogicExpr c
    let incAsg ← visitOption AsgTree.visit i
    let body ← b.visit
    ForNode.new (startPosOf p kw) precond preAsg cond incAsg body
  | .while_ p kw c b => do
    let precond ← visitOption visitPrecondition p
    let cond ← c.visit
    let body ← b.visit
    ForNode.new (startPosOf p kw) precond none cond none body
  | .if_ p kw c b => do
    let precond ← visitOption visitPrecondition p
    let cond ← c.visit
    let body ← b.visit
    IfNode.new (startPosOf p kw) precond cond body none
  | .ifElse p kw c b e => do
    let precond ← visitOption visitPrecondition p
    let cond ← c.visit
    let body ← b.visit
    let elseBody ← e.visit
    IfNode.new (startPosOf p kw) precond cond body (some elseBody)

/-- `visitBody`: the node, and its statements. -/
def BodyTree.visit : BodyTree → Build (NodeId × Body Unit)
  | .mk lbrace ss => do
    let stmts ← ss.visit
    let node ← newNode lbrace.pos (.body (stmts.map (some ·.id)))
    return (node.id, stmts)

def StmtsTree.visit : StmtsTree → Build (Body Unit)
  | .nil => return []
  | .cons s rest => do
    let stmt ← s.visit
    let stmts ← rest.visit
    return stmt :: stmts
end

/-! ## Functions -/

def visitParam (p : ParamTree) : Build (DefNode Unit) := do
  let type ← visitType p.type
  DefNode.new p.type.scalar.pos p.name.text type none

def visitParams : List ParamTree → Build (List (DefNode Unit))
  | [] => return []
  | p :: ps => do
    let arg ← visitParam p
    let args ← visitParams ps
    return arg :: args

/-- What `visitFunction` gives a `FunctionNode`. -/
structure FunctionFields where
  node : ASTNode
  retType : DeclTy
  name : String
  args : List (DefNode Unit)
  body : Body Unit

/-- `visitFunction`. -/
def visitFunction (f : FunctionTree) : Build FunctionFields := do
  let retType ← visitType f.retType
  let args ← visitParams (f.param :: f.params)
  let body ← f.body.visit
  let node ← newNode f.retType.scalar.pos (.function (args.map (some ·.node.id)) body.1)
  return ⟨node, retType, f.name.text, args, body.2⟩

end DGen
