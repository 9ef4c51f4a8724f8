/-
The process the tests of a run share: what `malloc` returns and `free` takes
back, the literals of the module, and `DGen::reset` between two tests.

`malloc` may return any address where nothing is, one that was freed before
too: which it returns is part of the state, like what `rand` does. A run in
which it returned the address of something live has no result.
-/
import DGen.Encoders
import DGen.WriteOnce

namespace DGen

open Memory StateT

/-! ## The state -/

structure Process extends World where
  /-- the blocks `malloc` is going to return -/
  blocks : List Nat
  /-- those it has returned and not been given back -/
  heap : List Nat
  /-- the blocks of the literals, with their bytes before the closing 0 -/
  literals : Nat → Option (List (BitVec 8))
  -- what a run leaves a trace of, and no code reads
  /-- what `malloc` has returned -/
  given : List Ptr
  /-- what `free` has been called with -/
  freed : List Ptr
  /-- the arrays and strings produced since the last reset, each with the number of its elements -/
  produced : List (Ptr × Nat)

abbrev P := StateT Process (Except Fault)

namespace Process

/-- The state before the first test: the literals lie behind the inputs. -/
def start (env : Env) (inputs : List Symbol) (texts : List (List (BitVec 8))) (blocks : List Nat) : Process where
  toWorld :=
    { World.start { env with literals := [] } inputs with
      next := inputs.length + texts.length
      mem := fun b => if b < inputs.length then none
        else texts[b - inputs.length]?.map fun text => (text ++ [0]).map .byte }
  blocks := blocks
  heap := []
  literals := fun b => if b < inputs.length then none else texts[b - inputs.length]?
  given := []
  freed := []
  produced := []

variable {α : Type}

def fault (f : Fault) : P α := fun _ => .error f

/-- What leaves the allocator alone. -/
def lift (x : M α) : P α := fun p =>
  match x p.toWorld with
  | .ok (a, w) => .ok (a, { p with toWorld := w })
  | .error e => .error e

/-- A new block at `b`. -/
def taken (p : Process) (b n : Nat) : Process :=
  { p with
    next := max p.next (b + 1)
    mem := p.mem.alloc b (List.replicate n .undef)
    blocks := p.blocks.tail
    heap := b :: p.heap
    given := ⟨b, 0⟩ :: p.given }

/-- `malloc`. An address that is an object's or a live block's is not fresh. -/
def malloc (n : Nat) : P Ptr := fun p =>
  match p.blocks with
  | b :: _ =>
    if (p.mem b).isNone && (p.syms b).isNone then .ok (⟨b, 0⟩, p.taken b n) else .error .undefined
  | [] => .error .undefined

/-- `free`, of what `malloc` returned and only once. -/
def free (q : Ptr) : P Unit := fun p =>
  if q.offset = 0 ∧ q.block ∈ p.heap then
    .ok ((), { p with
      mem := Function.update p.mem q.block none
      heap := p.heap.erase q.block
      freed := q :: p.freed })
  else .error .undefined

def record (q : Ptr) (n : Nat) : P Unit := modify fun p => { p with produced := (q, n) :: p.produced }

/-- `malloc`, and the entry of what it returned: an array of `n` elements. -/
def allocate (bytes : Nat) (size : BitVec 32) (n : Nat) : P Ptr := do
  let data ← malloc bytes
  lift (setAlloc data ⟨true, size⟩)
  record data n
  return data

/-- A store of the program: never into a literal, nor into a symbol. -/
def storeMem (q : Ptr) (v : Val) : P Unit := fun p =>
  if (p.literals q.block).isNone && (p.syms q.block).isNone then lift (DGen.storeMem q v) p else .error .undefined

/-! ## Producers -/

/-- `create_arr`. -/
def createArr (len : BitVec 32) (pointedSizeof : Nat) : P Ptr :=
  if len.toInt < 0 then fault (.thrown ("create array with len < 0: " ++ toString len.toInt))
  else allocate (len.toNat * pointedSizeof % 2 ^ 32) len len.toNat

/-- What `fill_dest` copies for a symbol, an array being copied by `copyArr`. -/
def fillVal (copyArr : SymId → P Ptr) (sym : SymId) : P Val := do
  match (← lift (getSym sym)).val with
  | .number _ => return .int32 (← lift (numRandGen sym))
  | .bool _ => return .int8 (← lift (boolRandGen sym))
  | .char _ => return .int8 (← lift (charRandGen sym))
  | .array _ _ _ => return .ptr (← copyArr sym)

/-- `fill_dest`. -/
def fillDest (copyArr : SymId → P Ptr) (sym : SymId) (dest : Ptr) : P Unit := do
  storeMem dest (← fillVal copyArr sym)

/-- The loop of `arr_rand_gen`, over elements of `size` bytes. -/
def fillElems (copyArr : SymId → P Ptr) (size : Nat) (data : Ptr) : List SymId → P Unit
  | [] => return ()
  | sym :: syms => do
    fillDest copyArr sym data
    fillElems copyArr size (data.add size) syms

/-- `arr_rand_gen` of an array of at most `n` levels. -/
def arrRandGenDepth : Nat → SymId → P Ptr
  | 0, _ => fault .undefined
  | n + 1, arr => do
    let size ← lift (getSize arr)
    match (← lift (getSym arr)).val with
    | .array type _ elems => do
      let pointedSizeof := type.elem.newSym.sizeof
      if 2 ^ 31 ≤ size.toInt * pointedSizeof then fault .undefined
      else do
        let data ← allocate (size.toNat * pointedSizeof) size elems.length
        fillElems (arrRandGenDepth n) pointedSizeof data elems
        return data
    | _ => fault .undefined

/-- `arr_rand_gen`. -/
def arrRandGen (arr : SymId) : P Ptr := do
  match (← lift (getSym arr)).val with
  | .array type _ _ => arrRandGenDepth type.toDecl.depth arr
  | _ => fault .undefined

/-- `get_val_arr`: what it leaves at `dest`. -/
def getValArr (arr : SymId) (idxs : List (BitVec 32)) : P Val := do
  let sym ← lift (getSymbolByIdxs arr idxs)
  fillVal arrRandGen sym

/-- The literal at an address. One may be the end of another. -/
def literalAt (p : Process) (q : Ptr) : Option (List (BitVec 8)) :=
  (p.literals q.block).bind fun text =>
    if 0 ≤ q.offset ∧ q.offset.toNat ≤ text.length then some (text.drop q.offset.toNat) else none

/-- The code of a `StringNode`, whose literal is at `str`. -/
def evalString (str : Ptr) : P Ptr := do
  match (← get).literalAt str with
  | some text => do
    lift (setGlobalPtrSize str)
    record str text.length
    return str
  | none => fault .undefined

end Process

/-! ## Between two tests -/

/-- `reset_val`. -/
def resetVal (sym : SymId) : M Unit := do
  let o ← getSym sym
  match o.val with
  | .number _ => setSym sym { o with val := .number none }
  | .char _ => setSym sym { o with val := .char none }
  | .bool _ => setSym sym { o with val := .bool none }
  | .array type _ elems => do
    modify fun w => { w with syms := deleteSyms type.elem.depth elems w.syms }
    setSym sym { o with val := .array type none [] }

def resetVals : List SymId → M Unit
  | [] => return ()
  | sym :: syms => do
    resetVal sym
    resetVals syms

namespace Process

/-- The walk of `reset` over the table. -/
def freeAllocs : List (Ptr × AllocData) → P Unit
  | [] => return ()
  | (q, d) :: items => do
    if d.isAlloc then free q
    freeAllocs items

/-- `DGen::reset`. -/
def reset : P Unit := do
  freeAllocs (← get).allocatedVals
  modify fun p => { p with allocatedVals := [], produced := [] }
  lift (resetVals (← get).inputs)

end Process

end DGen
