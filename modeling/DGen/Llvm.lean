/-
Code generation for expressions (`CodegenVisitor.cpp`, `Symbol.cpp`): the
LLVM values of the operands, conditions and stores of `DGen.Codegen`.

A value here is the tree of the instructions that compute it, each operand
evaluated before the instruction and from left to right, which is the order
they are built in. Types are those of LLVM 13: a pointer has a pointee.
-/
import DGen.Ast
import DGen.Lib.Result

namespace DGen

/-- `llvm::Type`, as far as the generated code has them. -/
inductive LTy
  | int (bits : Nat)
  | ptr (pointee : LTy)
  deriving DecidableEq, Repr

/-- How code generation can end early: a `BuildError` from `get_type`, or a
failed assertion (an `ASSERT`, or one of LLVM's own). -/
inductive GenFault
  | thrown (e : BuildError)
  | assertion (msg : String)
  deriving DecidableEq, Repr

/-- `TypeKind`s that end a declared type, as machine types. -/
def scalarLlvmType : TypeKind → Option LTy
  | .int => some (.int 32)
  | .string => some (.ptr (.int 8))
  | .char | .bool => some (.int 8)
  | .arr | .invalid => none

/-- `Symbol::map_type_to_llvm_type`: the last kind of the whole vector, and a
pointer for every kind left before it. -/
def mapTypeToLlvmType (t : Ty) : Except GenFault LTy :=
  match t.types.getLast?.bind scalarLlvmType with
  | some llvmT => .ok (LTy.ptr^[(t.length - 1).toNat] llvmT)
  | none => .error (.assertion ("unexpected type " ++ t.toString ++ ", expected scalar type"))

/-- `getPointerElementType`. -/
def LTy.pointee : LTy → Except GenFault LTy
  | .ptr t => .ok t
  | .int _ => .error (.assertion "pointer element type of a non-pointer")

/-- `get_sizeof` of the symbol `create_symbol` makes for a type; for no kind it makes none. -/
def symbolSizeof (t : Ty) : Except GenFault Nat :=
  match t.getCurrentType with
  | .int => .ok 4
  | .char | .bool => .ok 1
  | .string | .arr => .ok 8
  | .invalid => .error (.assertion "symbol of no type")

/-! ## Values -/

inductive BinInst
  | add | sub | mul | sdiv | or | and
  deriving DecidableEq, Repr

inductive IcmpPred
  | slt | sle | sgt | sge | eq | ne
  deriving DecidableEq, Repr

/-- `llvm::Value`. The calls keep the symbol or node whose address is a
constant in them; `randGen` stands for the four callbacks that give a whole
input, which differ in the class of the symbol only. The `alloca` of no
symbol is a return's `res_ptr`. -/
inductive LVal
  | getInt8 (v : BitVec 8)
  | getInt32 (v : BitVec 32)
  | globalStringPtr (n : StringNode)
  | bin (op : BinInst) (lhs rhs : LVal)
  | icmp (pred : IcmpPred) (lhs rhs : LVal)
  | alloca (s : Option Symbol) (allocated : LTy)
  | load (ty : LTy) (addr : LVal)
  | gep (elem : LTy) (addr idx : LVal)
  | intCast (v : LVal) (dest : LTy)
  | randGen (s : Symbol) (ret : LTy)
  | getValArr (s : Symbol) (idxs : List LVal) (dest : LTy)
  | getPropertyInput (s : Symbol)
  | getPropertyLocal (s : Symbol) (data : LVal)
  | createArr (ret : LTy) (len : LVal) (pointedSizeof : Nat)

/-- `getType`. Arithmetic has the type of its left operand, a comparison is an `i1`. -/
def LVal.ty : LVal → LTy
  | .getInt8 _ => .int 8
  | .getInt32 _ => .int 32
  | .globalStringPtr _ => .ptr (.int 8)
  | .bin _ lhs _ => lhs.ty
  | .icmp _ _ _ => .int 1
  | .alloca _ allocated => .ptr allocated
  | .load t _ | .intCast _ t | .randGen _ t | .getValArr _ _ t | .createArr t _ _ => t
  | .gep elem _ _ => .ptr elem
  | .getPropertyInput _ | .getPropertyLocal _ _ => .int 32

/-- The switch of `code_gen(BinOpNode *)`. -/
def BinOpType.inst : BinOpType → LVal → LVal → LVal
  | .sum => .bin .add
  | .sub => .bin .sub
  | .mul => .bin .mul
  | .div => .bin .sdiv
  | .or => .bin .or
  | .and => .bin .and
  | .lt => .icmp .slt
  | .le => .icmp .sle
  | .gt => .icmp .sgt
  | .ge => .icmp .sge
  | .eq => .icmp .eq
  | .neq => .icmp .ne

/-- `symbol->alloca`, as `create_alloca` makes it. -/
def Symbol.createAlloca (s : Symbol) : Except GenFault LVal := do
  return .alloca (some s) (← mapTypeToLlvmType s.type.toTy)

/-- The return type of `Symbol::code_gen`, by the class of the symbol. -/
def Symbol.randGenType (s : Symbol) : Except GenFault LTy :=
  match s.type.toTy.getCurrentType with
  | .int => .ok (.int 32)
  | .char | .bool => .ok (.int 8)
  | _ => mapTypeToLlvmType s.type.toTy

/-- `CreateLoad` of a variable: its type is the one allocated. -/
def Symbol.loadAlloca (s : Symbol) : Except GenFault LVal := do
  let alloca ← s.createAlloca
  return .load (← alloca.ty.pointee) alloca

def codeGenIdent (n : IdentNode Symbol) : Except GenFault LVal :=
  if n.symbol.isInput then do return .randGen n.symbol (← n.symbol.randGenType)
  else n.symbol.loadAlloca

/-- `ArraySym::code_gen_idx`. -/
def codeGenIdx (s : Symbol) (idxs : List LVal) : Except GenFault LVal := do
  return .getValArr s idxs (← mapTypeToLlvmType (dropTypes s.type.toTy idxs.length))

def codeGenProperty (n : IdentNode Symbol) : Except GenFault LVal :=
  if n.symbol.isInput then return .getPropertyInput n.symbol
  else do return .getPropertyLocal n.symbol (← n.symbol.loadAlloca)

mutual
/-- `code_gen` of an expression. -/
def codeGenExpr : Expr Symbol → Except GenFault LVal
  | .bool _ val => return .getInt8 (if val then 1 else 0)
  | .number _ num => return .getInt32 num
  | .string node str => return .globalStringPtr ⟨node.id, str⟩
  | .char _ ch => return .getInt8 ch
  | .binOp _ op lhs rhs => do
    let lhs ← codeGenExpr lhs
    let rhs ← codeGenExpr rhs
    return op.inst lhs rhs
  | .ident n => codeGenIdent n
  | .arrLookup node n idxs =>
    if n.symbol.isInput then do codeGenIdx n.symbol (← codeGenExprs idxs)
    else do
      let t ← ((Expr.arrLookup node n idxs).getType).mapError .thrown
      let addr ← getLookupAddress (← n.symbol.createAlloca) idxs
      return .load (← mapTypeToLlvmType t) addr
  | .arrCreate _ elem len => do
    let pointedSizeof ← symbolSizeof elem.insertArr.toTy.dropType
    let ret ← mapTypeToLlvmType elem.insertArr.toTy
    return .createArr ret (← codeGenExpr len) pointedSizeof
  | .propertyLookup _ n _ => codeGenProperty n

def codeGenExprs : List (Expr Symbol) → Except GenFault (List LVal)
  | [] => return []
  | e :: es => do
    let v ← codeGenExpr e
    let vs ← codeGenExprs es
    return v :: vs

/-- The loop of `get_address` over the indices of a lookup. -/
def getLookupAddress (addr : LVal) : List (Expr Symbol) → Except GenFault LVal
  | [] => return addr
  | idx :: idxs => do
    let ptr := LVal.load (← addr.ty.pointee) addr
    let elem ← ptr.ty.pointee
    getLookupAddress (.gep elem ptr (← codeGenExpr idx)) idxs
end

/-- `get_address`. -/
def getAddress : LValue Symbol → Except GenFault LVal
  | .ident n => n.symbol.createAlloca
  | .arrLookup _ n idxs => do getLookupAddress (← n.symbol.createAlloca) idxs

/-! ## Stores and branches -/

/-- `CreateIntCast`: nothing to do for a value that has the type. -/
def createIntCast (v : LVal) (dest : LTy) : LVal := if v.ty = dest then v else .intCast v dest

def convertValIfConvertible (v : LVal) (srcT destT : Ty) : Except GenFault LVal :=
  if !destT.eq srcT && srcT.isConvertableTo destT then do return createIntCast v (← mapTypeToLlvmType destT)
  else return v

/-- The operands of a `CreateStore`. -/
structure LStore where
  val : LVal
  addr : LVal

/-- `code_gen(DefNode *)`: nothing is stored without an initialiser. -/
def codeGenDefStore (n : DefNode Symbol) : Except GenFault (List LStore) := do
  let alloca ← n.sym.createAlloca
  match n.rhs with
  | none => return []
  | some rhs => do
    let v ← codeGenExpr rhs
    let rhsT ← rhs.getType.mapError .thrown
    return [⟨← convertValIfConvertible v rhsT n.type.toTy, alloca⟩]

/-- `code_gen(AsgNode *)`. -/
def codeGenAsgStore (n : AsgNode Symbol) : Except GenFault (List LStore) := do
  let addr ← getAddress n.lhs
  let v ← codeGenExpr n.rhs
  let rhsT ← n.rhs.getType.mapError .thrown
  let lhsT ← n.lhs.toExpr.getType.mapError .thrown
  return [⟨← convertValIfConvertible v rhsT lhsT, addr⟩]

/-- `code_gen(ReturnNode *)`: what `gather_res` is called on. -/
def codeGenRetStore (retType : DeclTy) (n : ReturnNode Symbol) : Except GenFault (List LStore) := do
  let resPtr := LVal.alloca none (← mapTypeToLlvmType retType.toTy)
  let v ← codeGenExpr n.expr
  return [⟨v, resPtr⟩]

/-- The stores of a statement, those of the statements in it apart. -/
def Stmt.stores (retType : DeclTy) : Stmt Symbol → Except GenFault (List LStore)
  | .asg n => codeGenAsgStore n
  | .ret n => codeGenRetStore retType n
  | .def_ n => codeGenDefStore n
  | _ => return []

end DGen
