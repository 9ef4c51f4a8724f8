/-
What evaluating an expression touches: of the inputs, and of the arrays of
the program. Once as the emitted code evaluates it (`LVal.run`), and once read
off the source (`Expr.run`), with both operands of every operator or with
those alone that left-to-right short-circuit evaluation needs.

The code touches what the source does with both operands (`codeGenExpr_run`).
-/
import DGen.LlvmTypes
import DGen.Machine
import DGen.Lib.Traced

namespace DGen

open Memory Traced

inductive Touch
  /-- The whole of an input is read, and generated where it is not yet. -/
  | whole (s : Symbol)
  /-- The length of an input is. -/
  | length (s : Symbol)
  /-- An input is indexed. -/
  | lookup (s : Symbol) (idxs : List (BitVec 32))
  /-- An array of the program is, and this is the element. -/
  | element (p : Ptr)
  /-- An operand is not needed. -/
  | leftOut (e : Expr Symbol)

abbrev Watched := Traced Touch World Fault

/-! ## The code -/

/-- The cell of a local. -/
def Symbol.cell (s : Symbol) : M Ptr := do
  let w ← get
  ofOption .undefined (w.frame s.ref)

/-- The length of an input. -/
def Symbol.inputLen (s : Symbol) : M (BitVec 32) := do
  let id ← inputId s.ref
  getSize id

mutual
/-- `LVal.eval`, with what it touches. -/
def LVal.run : LVal → Watched Val
  | .getInt8 v => return .int8 v
  | .getInt32 v => return .int32 v
  | .globalStringPtr n => return .ptr (← globalString n)
  | .bin op lhs rhs => do
    let a ← lhs.run
    let b ← rhs.run
    ofOption .undefined (op.eval a b)
  | .icmp pred lhs rhs => do
    let a ← lhs.run
    let b ← rhs.run
    let w ← (get : M World)
    ofOption .undefined (pred.eval w.addr a b)
  | .alloca (some s) _ => return .ptr (← s.cell)
  | .alloca none allocated => return .ptr (← malloc allocated.size)
  | .load ty addr => do
    let p ← asPtr (← addr.run)
    let c ← ofOption .undefined ty.chunk
    loadMem c p
  | .gep elem addr idx => do
    let p ← asPtr (← addr.run)
    let n ← gepOffset elem (← idx.run)
    note (.element (p.add n))
    return .ptr (p.add n)
  | .intCast v dest => do
    let a ← v.run
    ofOption .undefined (DGen.intCast a dest)
  | .randGen s _ => do
    note (.whole s)
    DGen.randGen s
  | .getValArr s idxs _ => do
    let id ← inputId s.ref
    let idxs ← runIdxs idxs
    note (.lookup s idxs)
    DGen.getValArr id idxs
  | .getPropertyInput s => do
    note (.length s)
    return .int32 (← s.inputLen)
  | .getPropertyLocal _ data => do
    let p ← asPtr (← data.run)
    return .int32 (← getAlloc p).size
  | .createArr _ len pointedSizeof => do
    let n ← asInt32 (← len.run)
    return .ptr (← DGen.createArr n pointedSizeof)

def LVal.runIdxs : List LVal → Watched (List (BitVec 32))
  | [] => return []
  | v :: vs => do
    let n ← asInt32 (← v.run)
    let ns ← runIdxs vs
    return n :: ns
end

mutual
/-- It is the code's evaluation. -/
theorem LVal.run_result (v : LVal) : v.run.result = v.eval := by
  cases v with
  | getInt8 | getInt32 => rfl
  | globalStringPtr n => simp only [LVal.run, LVal.eval, result_bind, result_lift, result_pure]
  | bin op l r => simp only [LVal.run, LVal.eval, result_bind, result_lift, run_result l, run_result r]
  | icmp pred l r => simp only [LVal.run, LVal.eval, result_bind, result_lift, run_result l, run_result r]
  | alloca s allocated =>
    cases s with
    | none => rfl
    | some s => simp only [LVal.run, LVal.eval, Symbol.cell, result_bind, result_lift, result_pure, bind_assoc]
  | load ty addr => simp only [LVal.run, LVal.eval, result_bind, result_lift, run_result addr]
  | gep elem addr idx =>
    simp only [LVal.run, LVal.eval, result_bind, result_lift, result_pure, result_note, run_result addr,
      run_result idx, pure_bind]
  | intCast v dest => simp only [LVal.run, LVal.eval, result_bind, result_lift, run_result v]
  | randGen s ret => simp only [LVal.run, LVal.eval, result_bind, result_lift, result_note, pure_bind]
  | getValArr s idxs dest =>
    simp only [LVal.run, LVal.eval, result_bind, result_lift, result_note, runIdxs_result idxs, pure_bind]
  | getPropertyInput s =>
    simp only [LVal.run, LVal.eval, Symbol.inputLen, result_bind, result_lift, result_pure, result_note, pure_bind,
      bind_assoc]
  | getPropertyLocal s data =>
    simp only [LVal.run, LVal.eval, result_bind, result_lift, result_pure, run_result data]
  | createArr ret len k => simp only [LVal.run, LVal.eval, result_bind, result_lift, result_pure, run_result len]

theorem LVal.runIdxs_result (vs : List LVal) : (LVal.runIdxs vs).result = LVal.evalIdxs vs := by
  cases vs with
  | nil => rfl
  | cons v vs =>
    simp only [LVal.runIdxs, LVal.evalIdxs, result_bind, result_lift, result_pure, run_result v, runIdxs_result vs]
end

/-! ## The source -/

def compareVals (pred : IcmpPred) (a b : Val) : M Val := do
  let w ← get
  ofOption .undefined (pred.eval w.addr a b)

/-- The value of an operator. -/
def BinOpType.eval (op : BinOpType) (a b : Val) : M Val :=
  match op with
  | .sum => ofOption .undefined (BinInst.add.eval a b)
  | .sub => ofOption .undefined (BinInst.sub.eval a b)
  | .mul => ofOption .undefined (BinInst.mul.eval a b)
  | .div => ofOption .undefined (BinInst.sdiv.eval a b)
  | .or => ofOption .undefined (BinInst.or.eval a b)
  | .and => ofOption .undefined (BinInst.and.eval a b)
  | .lt => compareVals .slt a b
  | .le => compareVals .sle a b
  | .gt => compareVals .sgt a b
  | .ge => compareVals .sge a b
  | .eq => compareVals .eq a b
  | .neq => compareVals .ne a b

/-- The left operand has this value, and decides the result. -/
def BinOpType.decides : BinOpType → Val → Bool
  | .and, .int1 b => !b
  | .and, .int8 v => v == 0
  | .or, .int1 b => b
  | .or, .int8 v => v != 0
  | _, _ => false

/-- What is loaded of an expression's type. -/
def Expr.chunk? (e : Expr Symbol) : Option Chunk := do
  let t ← e.getType.toOption
  let ty ← (mapTypeToLlvmType t).toOption
  ty.chunk

/-- The value of a local. -/
def Symbol.readVar (s : Symbol) : M Val := do
  let p ← s.cell
  let c ← ofOption .undefined s.type.llvm.chunk
  loadMem c p

mutual
/-- The value of an expression, with what evaluating it touches. Operands are
evaluated from left to right: all of them, or if `short`, those that are
needed. One that is left out is accounted for by a single entry, and what
comes after it is evaluated in the state that the code is in there. -/
def Expr.run (short : Bool) : Expr Symbol → Watched Val
  | .bool _ val => return .int8 (if val then 1 else 0)
  | .number _ num => return .int32 num
  | .string node str => return .ptr (← globalString ⟨node.id, str⟩)
  | .char _ ch => return .int8 ch
  | .binOp _ op lhs rhs => do
    let a ← lhs.run short
    let b ← if short && op.decides a then (rhs.run false).summed (.leftOut rhs) else rhs.run short
    op.eval a b
  | .ident n =>
    if n.symbol.isInput then do
      note (.whole n.symbol)
      randGen n.symbol
    else n.symbol.readVar
  | .arrLookup node n idxs =>
    if n.symbol.isInput then do
      let id ← inputId n.symbol.ref
      let is ← Expr.runIdxs short idxs
      note (.lookup n.symbol is)
      getValArr id is
    else do
      let cell ← n.symbol.cell
      let p ← Expr.runElement short idxs n.symbol.type.llvm cell
      let c ← ofOption .undefined (Expr.arrLookup node n idxs).chunk?
      loadMem c p
  | .arrCreate _ elem len => do
    let n ← asInt32 (← len.run short)
    let pointedSizeof ← ofOption .undefined (symbolSizeof elem.insertArr.toTy.dropType).toOption
    return .ptr (← createArr n pointedSizeof)
  | .propertyLookup _ n _ =>
    if n.symbol.isInput then do
      note (.length n.symbol)
      return .int32 (← n.symbol.inputLen)
    else do
      let p ← asPtr (← n.symbol.readVar)
      return .int32 (← getAlloc p).size

def Expr.runIdxs (short : Bool) : List (Expr Symbol) → Watched (List (BitVec 32))
  | [] => return []
  | e :: es => do
    let n ← asInt32 (← e.run short)
    let ns ← Expr.runIdxs short es
    return n :: ns

/-- Where an element is: from the cell of its array, an index after the other. -/
def Expr.runElement (short : Bool) : List (Expr Symbol) → LTy → Ptr → Watched Ptr
  | [], _, cell => return cell
  | idx :: idxs, ty, cell => do
    let elem ← ofOption .undefined ty.pointee.toOption
    let c ← ofOption .undefined ty.chunk
    let data ← asPtr (← loadMem c cell)
    let n ← gepOffset elem (← idx.run short)
    note (.element (data.add n))
    Expr.runElement short idxs elem (data.add n)
end

/-! ## The source and the code -/

theorem BinOpType.inst_run (op : BinOpType) (l r : LVal) :
    (op.inst l r).run = l.run >>= fun a => r.run >>= fun b => liftM (op.eval a b) := by
  cases op <;> simp only [BinOpType.inst, LVal.run, BinOpType.eval, compareVals, lift_bind]

theorem asPtr_ptr (p : Ptr) : (liftM (asPtr (.ptr p)) : Watched Ptr) = pure p := rfl

/-- The code of the indices of a lookup, from the cell of the array on. -/
theorem getLookupAddress_run {es : List (Expr Symbol)} : ∀ {addr a : LVal} {ty : LTy},
    getLookupAddress addr es = .ok a → addr.ty = .ptr ty →
    (∀ e ∈ es, ∀ {v}, codeGenExpr e = .ok v → v.run = e.run false) →
    (a.run >>= fun x => liftM (asPtr x)) =
      (addr.run >>= fun x => liftM (asPtr x)) >>= fun p => Expr.runElement false es ty p := by
  induction es with
  | nil =>
    intro addr a ty h _ _
    obtain rfl := Except.ok.inj h
    simp only [Expr.runElement, bind_pure]
  | cons e es ih =>
    intro addr a ty h hty hidx
    simp only [getLookupAddress, Except.bind_ok_iff] at h
    obtain ⟨t, ht, elem, helem, v, hv, h⟩ := h
    simp only [List.forall_mem_cons] at hidx
    rw [hty, LTy.pointee, Except.ok.injEq] at ht
    subst ht
    have helem : ty.pointee = .ok elem := helem
    rw [ih h rfl hidx.2]
    simp only [LVal.run, Expr.runElement, bind_assoc, pure_bind, hidx.1 hv, helem, Except.toOption, ofOption, lift_pure,
      asPtr_ptr]

theorem codeGenExprs_run {es : List (Expr Symbol)} : ∀ {vs : List LVal}, codeGenExprs es = .ok vs →
    (∀ e ∈ es, ∀ {v}, codeGenExpr e = .ok v → v.run = e.run false) → LVal.runIdxs vs = Expr.runIdxs false es := by
  induction es with
  | nil =>
    intro vs h _
    obtain rfl := Except.ok.inj h
    rfl
  | cons e es ih =>
    intro vs h hes
    simp only [codeGenExprs, Except.bind_ok_iff, Except.pure_ok_iff] at h
    obtain ⟨v, hv, vs', hvs, rfl⟩ := h
    simp only [List.forall_mem_cons] at hes
    rw [LVal.runIdxs, Expr.runIdxs, hes.1 hv, ih hvs hes.2]

/-- The code of a local reads its cell. -/
theorem Symbol.loadAlloca_run {s : Symbol} {v : LVal} (h : s.loadAlloca = .ok v) : v.run = liftM s.readVar := by
  obtain rfl := Except.ok.inj (s.loadAlloca_eq.symm.trans h)
  simp only [LVal.run, Symbol.readVar, lift_bind, bind_assoc, pure_bind, asPtr_ptr]

/-- **The code of an expression** evaluates both operands of every operator,
from left to right. -/
theorem codeGenExpr_run (e : Expr Symbol) : ∀ {v}, codeGenExpr e = .ok v → v.run = e.run false := by
  induction e with
  | char | number | bool | string =>
    intro v h
    obtain rfl := Except.ok.inj h
    rfl
  | binOp node op lhs rhs ihl ihr =>
    intro v h
    simp only [codeGenExpr, Except.bind_ok_iff, Except.pure_ok_iff] at h
    obtain ⟨l, hl, r, hr, rfl⟩ := h
    simp only [BinOpType.inst_run, ihl hl, ihr hr, Expr.run, Bool.false_and, Bool.false_eq_true, if_false]
  | ident n =>
    intro v h
    rw [codeGenExpr, codeGenIdent] at h
    rw [Expr.run]
    split at h
    next hin =>
      obtain ⟨ret, -, h⟩ := Except.bind_ok_iff.mp h
      obtain rfl := Except.pure_ok_iff.mp h
      rw [if_pos hin, LVal.run]
    next hin => rw [if_neg hin, Symbol.loadAlloca_run h]
  | arrLookup node n idxs ih =>
    intro v h
    rw [codeGenExpr] at h
    rw [Expr.run]
    split at h
    next hin =>
      obtain ⟨vs, hvs, h⟩ := Except.bind_ok_iff.mp h
      obtain ⟨dest, -, h⟩ := Except.bind_ok_iff.mp h
      obtain rfl := Except.pure_ok_iff.mp h
      rw [if_pos hin, LVal.run, codeGenExprs_run hvs fun e he _ hv => ih e he hv]
    next hin =>
      simp only [Except.bind_ok_iff, Except.pure_ok_iff, Except.mapError_ok_iff] at h
      obtain ⟨t, ht, a, ha, addr, haddr, ty, hty, rfl⟩ := h
      obtain rfl := Except.ok.inj (n.symbol.createAlloca_eq.symm.trans ha)
      have hrun := getLookupAddress_run haddr rfl fun e he _ hv => ih e he hv
      have hchunk : (Expr.arrLookup node n idxs).chunk? = ty.chunk := by simp [Expr.chunk?, ht, hty, Except.toOption]
      rw [if_neg hin, hchunk, LVal.run, ← bind_assoc, hrun]
      simp only [LVal.run, bind_assoc, pure_bind, asPtr_ptr]
  | arrCreate node elem len ih =>
    intro v h
    simp only [codeGenExpr, Except.bind_ok_iff, Except.pure_ok_iff] at h
    obtain ⟨k, hk, ret, -, l, hl, rfl⟩ := h
    simp only [LVal.run, Expr.run, ih hl, hk, Except.toOption, ofOption, lift_pure, pure_bind]
  | propertyLookup node n p =>
    intro v h
    rw [codeGenExpr, codeGenProperty] at h
    rw [Expr.run]
    split at h
    next hin =>
      obtain rfl := Except.pure_ok_iff.mp h
      rw [if_pos hin, LVal.run]
    next hin =>
      obtain ⟨data, hdata, h⟩ := Except.bind_ok_iff.mp h
      obtain rfl := Except.pure_ok_iff.mp h
      rw [if_neg hin, LVal.run, Symbol.loadAlloca_run hdata]

end DGen
