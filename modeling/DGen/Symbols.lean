/-
Inputs (`Symbol.h`, `Symbol.cpp`): a test's inputs are generated where the
program first reads them, at random or from the solver's model, and stay.

Elements are made when the length of their array is. What walks over the
elements of elements has the depth of the type as its bound: an object that
is not deeper than its type never meets it.
-/
import DGen.Runtime

namespace DGen

open Memory

/-- A scalar's value: what it has, or one drawn now. `cls` tells the class of
symbols it is for, and `put` sets their value. -/
def scalarRandGen {α : Type} (cls : SymVal → Option (Option α)) (put : α → SymVal) (draw : Nat → α)
    (sym : SymId) : M α := do
  let o ← getSym sym
  match cls o.val with
  | some (some v) => return v
  | some none => do
    let r ← rand
    setSym sym { o with val := put (draw r) }
    return draw r
  | none => fault .undefined

def SymVal.number? : SymVal → Option (Option (BitVec 32))
  | .number num => some num
  | _ => none

def SymVal.char? : SymVal → Option (Option (BitVec 8))
  | .char ch => some ch
  | _ => none

def SymVal.bool? : SymVal → Option (Option Bool)
  | .bool val => some val
  | _ => none

/-- `rand() % 200`. -/
def numRandGen : SymId → M (BitVec 32) :=
  scalarRandGen SymVal.number? (fun num => .number (some num)) fun r => BitVec.ofNat 32 (r % 200)

/-- `'a' + abs(rand() % ('z' - 'a'))`. -/
def charRandGen : SymId → M (BitVec 8) :=
  scalarRandGen SymVal.char? (fun ch => .char (some ch)) fun r => BitVec.ofNat 8 (97 + r % 25)

/-- `abs(rand() % 2)`. -/
def boolRandGen (sym : SymId) : M (BitVec 8) := do
  let val ← scalarRandGen SymVal.bool? (fun val => .bool (some val)) (fun r => r % 2 != 0) sym
  return BitVec.ofNat 8 val.toNat

/-! ## Arrays -/

/-- The elements of an object, if it is an array. -/
def elemsOf (syms : Nat → Option SymObj) (id : SymId) : List SymId := ((syms id).map (·.val.elems)).getD []

/-- What the destructors of dropped elements delete, `n` levels of them. -/
def deleteSyms : Nat → List SymId → (Nat → Option SymObj) → Nat → Option SymObj
  | 0, ids, syms => ids.foldl (fun syms id => Function.update syms id none) syms
  | n + 1, ids, syms =>
    ids.foldl (fun syms id => Function.update (deleteSyms n (elemsOf syms id) syms) id none) syms

/-- The pushes of `init_arr`. -/
def pushElems (elem : DeclTy) : Nat → M (List SymId)
  | 0 => return []
  | n + 1 => do
    let id ← newObject ⟨"", elem.newSym⟩
    let ids ← pushElems elem n
    return id :: ids

/-- `inited_size = size; init_arr(size)`: `reserve` throws for a negative size,
`resize(0)` drops the elements there are. -/
def initArr (arr : SymId) (size : BitVec 32) : M Unit := do
  let o ← getSym arr
  match o.val with
  | .array type _ elems =>
    if size.toInt < 0 then fault (.thrown "vector::reserve")
    else do
      modify fun w => { w with syms := deleteSyms type.elem.depth elems w.syms }
      let elems ← pushElems type.elem size.toNat
      setSym arr { o with val := .array type (some size) elems }
  | _ => fault .undefined

/-- `ArraySym::get_size`. -/
def getSize (arr : SymId) : M (BitVec 32) := do
  match (← getSym arr).val with
  | .array _ (some size) _ => return size
  | .array _ none _ => do
    let r ← rand
    let size := BitVec.ofNat 32 (r % 10)
    initArr arr size
    return size
  | _ => fault .undefined

/-- `arr->arr[idx]` after the bound check, which a negative index passes. -/
def getElem (arr : SymId) (idx : BitVec 32) : M SymId := do
  let size ← getSize arr
  if size.toInt ≤ idx.toInt then fault (.thrown "out of bounds")
  else
    match (← getSym arr).val with
    | .array _ _ elems => if idx.toInt < 0 then fault .undefined else ofOption .undefined elems[idx.toNat]?
    | _ => fault .undefined

/-- `ArraySym::get_symbol_by_idxs`. -/
def getSymbolByIdxs (arr : SymId) : List (BitVec 32) → M SymId
  | [] => fault .undefined
  | [idx] => getElem arr idx
  | idx :: idxs => do
    let sub ← getElem arr idx
    getSymbolByIdxs sub idxs

/-- What `fill_dest` copies for a symbol, an array being copied by `copyArr`. -/
def fillVal (copyArr : SymId → M Ptr) (sym : SymId) : M Val := do
  match (← getSym sym).val with
  | .number _ => return .int32 (← numRandGen sym)
  | .bool _ => return .int8 (← boolRandGen sym)
  | .char _ => return .int8 (← charRandGen sym)
  | .array _ _ _ => return .ptr (← copyArr sym)

/-- `fill_dest`. -/
def fillDest (copyArr : SymId → M Ptr) (sym : SymId) (dest : Ptr) : M Unit := do
  storeMem dest (← fillVal copyArr sym)

/-- The loop of `arr_rand_gen`, over elements of `size` bytes. -/
def fillElems (copyArr : SymId → M Ptr) (size : Nat) (data : Ptr) : List SymId → M Unit
  | [] => return ()
  | sym :: syms => do
    fillDest copyArr sym data
    fillElems copyArr size (data.add size) syms

/-- `arr_rand_gen` of an array of at most `n` levels. The product is an `int`. -/
def arrRandGenDepth : Nat → SymId → M Ptr
  | 0, _ => fault .undefined
  | n + 1, arr => do
    let size ← getSize arr
    match (← getSym arr).val with
    | .array type _ elems => do
      let pointedSizeof := type.elem.newSym.sizeof
      if 2 ^ 31 ≤ size.toInt * pointedSizeof then fault .undefined
      else do
        let data ← malloc (size.toNat * pointedSizeof)
        setAlloc data ⟨true, size⟩
        fillElems (arrRandGenDepth n) pointedSizeof data elems
        return data
    | _ => fault .undefined

/-- `arr_rand_gen`. -/
def arrRandGen (arr : SymId) : M Ptr := do
  match (← getSym arr).val with
  | .array type _ _ => arrRandGenDepth type.toDecl.depth arr
  | _ => fault .undefined

/-- `get_val_arr`: what it leaves at `dest`. -/
def getValArr (arr : SymId) (idxs : List (BitVec 32)) : M Val := do
  let sym ← getSymbolByIdxs arr idxs
  fillVal arrRandGen sym

/-! ## Texts -/

/-- `tmp[tmp.size()-1] = ']'`. -/
def closeBracket (s : String) : String := String.ofList (s.toList.dropLast ++ [']'])

/-- The loop of `ArraySym::serialize`: each element with its comma. -/
def serializeElems (serializeElem : SymId → M String) : List SymId → M String
  | [] => return ""
  | sym :: syms => do
    let s ← serializeElem sym
    let rest ← serializeElems serializeElem syms
    return s ++ "," ++ rest

/-- `ArraySym::serialize`. -/
def arraySerialize (serializeElem : SymId → M String) (sym : SymId) : M String := do
  let _ ← getSize sym
  match (← getSym sym).val with
  | .array _ _ elems => return closeBracket ("[" ++ (← serializeElems serializeElem elems))
  | _ => fault .undefined

/-- The loop of `StringSym::serialize`. -/
def serializeChars : List SymId → M (List Char)
  | [] => return []
  | sym :: syms => do
    let ch ← charRandGen sym
    let rest ← serializeChars syms
    return Char.ofNat ch.toNat :: rest

/-- `StringSym::serialize`. -/
def stringSerialize (sym : SymId) : M String := do
  let _ ← getSize sym
  match (← getSym sym).val with
  | .array _ _ elems => return "\"" ++ String.ofList (← serializeChars elems) ++ "\""
  | _ => fault .undefined

/-- `serialize`, by the class of a symbol. -/
def serializeBy (serializeElem : SymId → M String) (sym : SymId) : M String := do
  match (← getSym sym).val with
  | .number _ => return toString (← numRandGen sym).toInt
  | .char _ => return toString (← charRandGen sym).toInt
  | .bool _ => return if (← boolRandGen sym) != 0 then "true" else "false"
  | .array .string _ _ => stringSerialize sym
  | .array (.arr _) _ _ => arraySerialize serializeElem sym

/-- `serialize` of a symbol of at most `n` levels. -/
def serializeDepth : Nat → SymId → M String
  | 0 => serializeBy fun _ => fault .undefined
  | n + 1 => serializeBy (serializeDepth n)

/-- `serialize`. -/
def serialize (sym : SymId) : M String := do
  match (← getSym sym).val with
  | .array type _ _ => serializeDepth type.toDecl.depth sym
  | _ => serializeDepth 0 sym

/-! ## The solver's values -/

/-- `Symbol::has_val`: an array has none, whatever its length. -/
def SymVal.hasVal : SymVal → Bool
  | .number num => num.isSome
  | .char ch => ch.isSome
  | .bool val => val.isSome
  | .array _ _ _ => false

/-- `get_expr`. -/
def SymObj.getExpr (o : SymObj) : M ZExpr :=
  match o.val with
  | .number (some num) => return .intVal num.toInt
  | .number none => return .intConst o.name
  | .char (some ch) => return .intVal ch.toInt
  | .char none => return .intConst o.name
  | .bool (some val) => return .boolVal val
  | .bool none => return .boolConst o.name
  | .array _ _ _ => fault (.thrown "get expr on invalid expr")

/-- What the model's `eval` gives for a constant. -/
inductive ZVal
  | int (v : Int)
  | bool (b : Bool)
  deriving DecidableEq, Repr

/-- `get_numeral_int64`. -/
def ZVal.getNumeralInt64 : ZVal → M Int
  | .int v => if -2 ^ 63 ≤ v ∧ v < 2 ^ 63 then return v
    else fault (.thrown "numeral does not fit in machine int64")
  | .bool _ => fault (.thrown "numeral does not fit in machine int64")

/-- `is_true`. -/
def ZVal.isTrue : ZVal → Bool
  | .bool b => b
  | .int _ => false

/-- `fill_val`. -/
def fillSym (sym : SymId) (expr : ZVal) : M Unit := do
  let o ← getSym sym
  match o.val with
  | .number _ => do
    let v ← expr.getNumeralInt64
    setSym sym { o with val := .number (some (BitVec.ofInt 32 v)) }
  | .char _ => do
    let v ← expr.getNumeralInt64
    setSym sym { o with val := .char (some (BitVec.ofInt 8 (v.tmod 256))) }
  | .bool _ => setSym sym { o with val := .bool (some expr.isTrue) }
  | .array _ _ _ => do
    let v ← expr.getNumeralInt64
    initArr sym (BitVec.ofInt 32 v)

end DGen
