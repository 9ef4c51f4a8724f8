/-
The state of a running generator: the `Symbol` objects of the inputs, the
program's memory, `Symbol::allocated_vals`, `std::rand`, and what the
callbacks of a precondition have left for the solver.

Objects and blocks of memory are allocated from one counter, so that an
address belongs to one of them only. What the addresses are is part of the
state, like what `rand` returns.
-/
import DGen.Ast
import DGen.Lib.Memory
import DGen.Lib.Result

namespace DGen

open Memory

/-! ## Symbol objects -/

/-- A `Symbol *`. -/
abbrev SymId := Nat

/-- The type of an `ArraySym`: a `StringSym`'s, or an array's with its element's. -/
inductive ArrType
  | string
  | arr (elem : DeclTy)
  deriving DecidableEq, Repr

def ArrType.toDecl : ArrType → DeclTy
  | .string => ⟨.string, 0⟩
  | .arr elem => elem.insertArr

/-- The type of `get_pointed_type_elem()`. -/
def ArrType.elem : ArrType → DeclTy
  | .string => ⟨.char, 0⟩
  | .arr elem => elem

/-- The class of a symbol, with the fields that change while a test runs. -/
inductive SymVal
  | number (num : Option (BitVec 32))
  | char (ch : Option (BitVec 8))
  | bool (val : Option Bool)
  | array (type : ArrType) (initedSize : Option (BitVec 32)) (arr : List SymId)
  deriving DecidableEq, Repr

structure SymObj where
  name : String
  val : SymVal
  deriving DecidableEq, Repr

/-- `Symbol::create_symbol`: the class of a type, and nothing determined. -/
def DeclTy.newSym : DeclTy → SymVal
  | ⟨.int, 0⟩ => .number none
  | ⟨.string, 0⟩ => .array .string none []
  | ⟨.char, 0⟩ => .char none
  | ⟨.bool, 0⟩ => .bool none
  | ⟨s, n + 1⟩ => .array (.arr ⟨s, n⟩) none []

def SymVal.elems : SymVal → List SymId
  | .array _ _ arr => arr
  | _ => []

/-- `get_sizeof`. -/
def SymVal.sizeof : SymVal → Nat
  | .number _ => 4
  | .char _ | .bool _ => 1
  | .array _ _ _ => 8

/-- How deep the elements of a type go. -/
def DeclTy.depth : DeclTy → Nat
  | ⟨.string, n⟩ => n + 1
  | ⟨_, n⟩ => n

/-- What a store into an object would do to it. The layout of the classes is
not modelled, only that the object is not the same after it. -/
def SymObj.clobber (o : SymObj) (v : Val) : SymObj :=
  { o with
    val := match o.val, v with
      | .number _, .int32 n => .number (some n)
      | .char _, .int8 c => .char (some c)
      | .bool _, .int8 b => .bool (some (b != 0))
      | .array t _ arr, .int32 n => .array t (some n) arr
      | .array t n _, _ => .array t n []
      | _, _ => .number none }

/-! ## The solver's formulas -/

/-- `z3::expr`, as `gen_expr` builds them. -/
inductive ZExpr
  | intVal (v : Int)
  | boolVal (b : Bool)
  | intConst (name : String)
  | boolConst (name : String)
  | binOp (op : BinOpType) (lhs rhs : ZExpr)
  | not (e : ZExpr)
  deriving DecidableEq, Repr

/-! ## The state -/

/-- `Symbol::alloc_data`. -/
structure AllocData where
  isAlloc : Bool
  size : BitVec 32
  deriving DecidableEq, Repr

/-- The fields of `CodegenZ3Visitor`; `symsToExprId` has one entry a key. -/
structure Z3Visitor where
  exprs : List ZExpr
  symsToExprId : List (SymId × Nat)
  deriving DecidableEq, Repr

/-- What the callbacks of `prepare_eval_ctx` leave for `gen_expr`: `Symbol::addr`,
and `current_ptr` and `current_idxs` of an `ArrLookupNode`. -/
structure EvalCtx where
  addr : SymRef → Option Ptr
  currentPtr : NodeId → Option Ptr
  currentIdxs : NodeId → List (BitVec 32)

structure World where
  /-- what `std::rand` is going to return -/
  rand : Nat → Nat
  /-- where a block begins -/
  addr : Nat → BitVec 64
  /-- the next object or block -/
  next : Nat
  syms : Nat → Option SymObj
  /-- `DGen::inputs` -/
  inputs : List SymId
  /-- the literals of the module, each with its block -/
  globals : List (StringNode × Nat)
  mem : Mem
  allocatedVals : List (Ptr × AllocData)
  /-- the cells of the locals: their `alloca`s -/
  frame : SymRef → Option Ptr
  ctx : EvalCtx
  z3 : Z3Visitor

/-- The bytes of a literal, the closing 0 apart. -/
def StringNode.text (n : StringNode) : List (BitVec 8) := n.str.toUTF8.toList.map fun b => b.toBitVec

/-- What is in its block. -/
def StringNode.bytes (n : StringNode) : List MByte := (n.text ++ [0]).map .byte

/-- What a process is started with: the numbers it will draw, where its
blocks will lie, and the literals of its module. -/
structure Env where
  rand : Nat → Nat
  addr : Nat → BitVec 64
  literals : List StringNode

/-- The state a test starts in: each input an object, nothing of it determined.
The literals lie behind them. -/
def World.start (env : Env) (inputs : List Symbol) : World where
  rand := env.rand
  addr := env.addr
  next := inputs.length + env.literals.length
  syms := fun id => inputs[id]?.map fun s => ⟨s.name, s.type.newSym⟩
  inputs := List.range inputs.length
  globals := env.literals.zipIdx inputs.length
  mem := fun b => if b < inputs.length then none else env.literals[b - inputs.length]?.map StringNode.bytes
  allocatedVals := []
  frame := fun _ => none
  ctx := ⟨fun _ => none, fun _ => none, fun _ => []⟩
  z3 := ⟨[], []⟩

namespace Sample

/-- Every number drawn is this one, and there are no literals. -/
def draws (r : Nat) : Env := ⟨fun _ => r, fun b => BitVec.ofNat 64 (16 * b), []⟩

end Sample

/-- How a run can stop: an exception, a failed assertion of the solver's
interface, or behaviour the language leaves undefined. -/
inductive Fault
  | thrown (msg : String)
  | build (e : BuildError)
  | assertion
  | undefined
  deriving DecidableEq, Repr

abbrev M := StateT World (Except Fault)

def fault {α : Type} (f : Fault) : M α := fun _ => .error f

def ofOption {α : Type} (f : Fault) : Option α → M α
  | some a => pure a
  | none => fault f

def World.drawn (w : World) : World := { w with rand := fun i => w.rand (i + 1) }

/-- `std::rand()`. -/
def rand : M Nat := fun w => .ok (w.rand 0, w.drawn)

def getSym (id : SymId) : M SymObj := fun w =>
  match w.syms id with
  | some o => .ok (o, w)
  | none => .error .undefined

def World.setSym (w : World) (id : SymId) (o : SymObj) : World :=
  { w with syms := Function.update w.syms id (some o) }

@[simp] theorem World.setSym_self (w : World) (id : SymId) (o : SymObj) : (w.setSym id o).syms id = some o :=
  Function.update_self ..

theorem World.setSym_of_ne (w : World) {id j : SymId} (o : SymObj) (h : j ≠ id) :
    (w.setSym id o).syms j = w.syms j := Function.update_of_ne h ..

def setSym (id : SymId) (o : SymObj) : M Unit := fun w => .ok ((), w.setSym id o)

def World.addSym (w : World) (o : SymObj) : World :=
  { w with next := w.next + 1, syms := Function.update w.syms w.next (some o) }

/-- An object of its own for `new`. -/
def newObject (o : SymObj) : M SymId := fun w => .ok (w.next, w.addSym o)

def World.addBlock (w : World) (bytes : List MByte) : World :=
  { w with next := w.next + 1, mem := w.mem.alloc w.next bytes }

/-- A block of its own, with these bytes in it. -/
def newBlock (bytes : List MByte) : M Ptr := fun w => .ok (⟨w.next, 0⟩, w.addBlock bytes)

/-- `malloc`, which never fails here. -/
def malloc (n : Nat) : M Ptr := newBlock (List.replicate n .undef)

def loadMem (c : Chunk) (p : Ptr) : M Val := fun w =>
  match w.mem.load c p with
  | some v => .ok (v, w)
  | none => .error .undefined

/-- A block is a literal's. -/
def World.IsGlobal (w : World) (b : Nat) : Prop := b ∈ w.globals.map (·.2)

instance (w : World) (b : Nat) : Decidable (w.IsGlobal b) := inferInstanceAs (Decidable (b ∈ _))

/-- A store through a pointer, into a block or into what else is there.
Literals are constants. -/
def storeMem (p : Ptr) (v : Val) : M Unit := fun w =>
  match w.syms p.block with
  | some o => .ok ((), w.setSym p.block (o.clobber v))
  | none =>
    if w.IsGlobal p.block then .error .undefined
    else
      match w.mem.store p v with
      | some m => .ok ((), { w with mem := m })
      | none => .error .undefined

/-- `Symbol::allocated_vals[p] = d`. -/
def setAlloc (p : Ptr) (d : AllocData) : M Unit := fun w =>
  .ok ((), { w with allocatedVals := (p, d) :: w.allocatedVals.filter (·.1 != p) })

/-- `Symbol::allocated_vals[p]`, which adds an entry where there is none. -/
def getAlloc (p : Ptr) : M AllocData := fun w =>
  match w.allocatedVals.find? (·.1 == p) with
  | some (_, d) => .ok (d, w)
  | none => .ok (⟨false, 0⟩, { w with allocatedVals := (p, ⟨false, 0⟩) :: w.allocatedVals })

/-- The object of an input. -/
def inputId : SymRef → M SymId
  | .input i => fun w =>
    match w.inputs[i]? with
    | some id => .ok (id, w)
    | none => .error .undefined
  | .var _ => fault .undefined

end DGen
