/-
What the generated code computes: LLVM's instructions on machine values, and
the callbacks it calls.

An instruction whose operands have other types than it takes, a division it
leaves undefined and a load of a byte nothing has been stored in have no
result.
-/
import DGen.Llvm
import DGen.Symbols

namespace DGen

open Memory

def LTy.chunk : LTy → Option Chunk
  | .int 1 => some .int1
  | .int 8 => some .int8
  | .int 32 => some .int32
  | .int _ => none
  | .ptr _ => some .ptr

/-- The bytes a value takes in memory. -/
def LTy.size : LTy → Nat
  | .int bits => (bits + 7) / 8
  | .ptr _ => 8

section

variable {w : Nat}

/-- `sdiv`, which a zero divisor and an overflow leave undefined. -/
def sdivInst (a b : BitVec w) : Option (BitVec w) :=
  if b = 0 ∨ a = BitVec.intMin w ∧ b = -1 then none else some (a.sdiv b)

def BinInst.evalBits (op : BinInst) (a b : BitVec w) : Option (BitVec w) :=
  match op with
  | .add => some (a + b)
  | .sub => some (a - b)
  | .mul => some (a * b)
  | .sdiv => sdivInst a b
  | .or => some (a ||| b)
  | .and => some (a &&& b)

def IcmpPred.evalBits (pred : IcmpPred) (a b : BitVec w) : Bool :=
  match pred with
  | .slt => a.slt b
  | .sle => a.sle b
  | .sgt => b.slt a
  | .sge => b.sle a
  | .eq => a == b
  | .ne => a != b

end

def BinInst.eval (op : BinInst) : Val → Val → Option Val
  | .int32 a, .int32 b => (op.evalBits a b).map .int32
  | .int8 a, .int8 b => (op.evalBits a b).map .int8
  | .int1 a, .int1 b =>
    match op with
    | .or => some (.int1 (a || b))
    | .and => some (.int1 (a && b))
    | _ => none
  | _, _ => none

/-- The address a pointer is, blocks beginning at these. -/
def ptrAddress (addr : Nat → BitVec 64) (p : Ptr) : BitVec 64 := addr p.block + BitVec.ofInt 64 p.offset

/-- Pointers into different blocks are not equal, and are ordered by their addresses. -/
def IcmpPred.eval (pred : IcmpPred) (addr : Nat → BitVec 64) : Val → Val → Option Val
  | .int32 a, .int32 b => some (.int1 (pred.evalBits a b))
  | .int8 a, .int8 b => some (.int1 (pred.evalBits a b))
  | .ptr p, .ptr q =>
    match pred with
    | .eq => some (.int1 (p == q))
    | .ne => some (.int1 (p != q))
    | _ => some (.int1 (pred.evalBits (ptrAddress addr p) (ptrAddress addr q)))
  | _, _ => none

/-- A sign extension or a truncation. -/
def intCast (v : Val) (dest : LTy) : Option Val :=
  match v, dest with
  | .int8 c, .int 32 => some (.int32 (c.signExtend 32))
  | .int32 n, .int 8 => some (.int8 (n.truncate 8))
  | _, _ => none

/-- The callback for a whole input, by the class of its symbol. -/
def randGen (s : Symbol) : M Val := do
  let id ← inputId s.ref
  fillVal arrRandGen id

/-- `create_arr`; the product is a `uint32_t`. -/
def createArr (len : BitVec 32) (pointedSizeof : Nat) : M Ptr :=
  if len.toInt < 0 then fault (.thrown ("create array with len < 0: " ++ toString len.toInt))
  else do
    let data ← malloc (len.toNat * pointedSizeof % 2 ^ 32)
    setAlloc data ⟨true, len⟩
    return data

/-- The bytes before the first 0. -/
def strlenBytes : List MByte → Option Nat
  | .byte b :: bytes => if b = 0 then some 0 else (strlenBytes bytes).map (· + 1)
  | _ => none

/-- `strlen`. -/
def strlen (str : Ptr) : M Nat := fun w =>
  match (w.mem str.block).bind fun bytes => if str.offset < 0 then none else strlenBytes (bytes.drop str.offset.toNat) with
  | some n => .ok (n, w)
  | none => .error .undefined

/-- `set_global_ptr_size`. -/
def setGlobalPtrSize (str : Ptr) : M Unit := do
  let n ← strlen str
  setAlloc str ⟨false, BitVec.ofNat 32 n⟩

/-- The block of a literal, which it has since the module was loaded. -/
def World.globalPtr (w : World) (n : StringNode) : Option Ptr :=
  (w.globals.find? (·.1 == n)).map fun x => ⟨x.2, 0⟩

/-- The code of a `StringNode`. -/
def globalString (n : StringNode) : M Ptr := do
  let w ← get
  let p ← ofOption .undefined (w.globalPtr n)
  setGlobalPtrSize p
  return p

def asPtr : Val → M Ptr
  | .ptr p => return p
  | _ => fault .undefined

def asInt32 : Val → M (BitVec 32)
  | .int32 n => return n
  | _ => fault .undefined

/-- The offset of an index in a `getelementptr`, which sign-extends it. -/
def gepOffset (elem : LTy) : Val → M Int
  | .int32 n => return n.toInt * elem.size
  | .int8 n => return n.toInt * elem.size
  | .int1 b => return (if b then -1 else 0) * elem.size
  | .ptr _ => fault .undefined

mutual
def LVal.eval : LVal → M Val
  | .getInt8 v => return .int8 v
  | .getInt32 v => return .int32 v
  | .globalStringPtr n => return .ptr (← globalString n)
  | .bin op lhs rhs => do
    let a ← lhs.eval
    let b ← rhs.eval
    ofOption .undefined (op.eval a b)
  | .icmp pred lhs rhs => do
    let a ← lhs.eval
    let b ← rhs.eval
    let w ← get
    ofOption .undefined (pred.eval w.addr a b)
  | .alloca (some s) _ => do
    let w ← get
    return .ptr (← ofOption .undefined (w.frame s.ref))
  | .alloca none allocated => return .ptr (← malloc allocated.size)
  | .load ty addr => do
    let p ← asPtr (← addr.eval)
    loadMem (← ofOption .undefined ty.chunk) p
  | .gep elem addr idx => do
    let p ← asPtr (← addr.eval)
    let n ← gepOffset elem (← idx.eval)
    return .ptr (p.add n)
  | .intCast v dest => do
    let a ← v.eval
    ofOption .undefined (DGen.intCast a dest)
  | .randGen s _ => DGen.randGen s
  | .getValArr s idxs _ => do
    let id ← inputId s.ref
    let idxs ← evalIdxs idxs
    DGen.getValArr id idxs
  | .getPropertyInput s => do
    let id ← inputId s.ref
    return .int32 (← getSize id)
  | .getPropertyLocal _ data => do
    let p ← asPtr (← data.eval)
    return .int32 (← getAlloc p).size
  | .createArr _ len pointedSizeof => do
    let n ← asInt32 (← len.eval)
    return .ptr (← DGen.createArr n pointedSizeof)

/-- The `arr_idxs` of a call. -/
def LVal.evalIdxs : List LVal → M (List (BitVec 32))
  | [] => return []
  | v :: vs => do
    let n ← asInt32 (← v.eval)
    let ns ← evalIdxs vs
    return n :: ns
end

/-- A store with the code of its operands: the address comes first in the code. -/
def LStore.exec (st : LStore) : M Unit := do
  let p ← asPtr (← st.addr.eval)
  storeMem p (← st.val.eval)

/-- The `alloca` of a definition: a new cell whenever it is executed. -/
def execAlloca (s : Symbol) (allocated : LTy) : M Unit := do
  let p ← malloc allocated.size
  modify fun w => { w with frame := Function.update w.frame s.ref (some p) }

end DGen
