/-
The two evaluators of arithmetic: `gen_expr` builds a formula over the
solver's integers, `code_gen` instructions on 32 bits.

They agree on `+`, `-` and `*` while nothing overflows. A division is
another matter: the solver's leaves a remainder that is never negative,
`sdiv` rounds to zero, and the two differ where a negative dividend leaves
something over (`arith_agree_iff`).
-/
import DGen.EvalContext
import DGen.Scoping

namespace DGen

open Memory StateT

/-! ## Expressions of ints -/

/-- The operators of arithmetic. -/
def arithOps : List BinOpType := [.sum, .sub, .mul, .div]

/-- An expression of literals and variables of type int with these operators. -/
def Expr.IntOf (ops : List BinOpType) : Expr Symbol → Prop
  | .number _ _ => True
  | .ident n => n.symbol.type = ⟨.int, 0⟩
  | .binOp _ op lhs rhs => op ∈ ops ∧ lhs.IntOf ops ∧ rhs.IntOf ops
  | _ => False

/-- `visitUnary_minus`. -/
def visitUnaryMinus {σ : Type} (node num : ASTNode) (f : Expr σ) : Expr σ :=
  .binOp node .mul (.number num (-1)) f

/-- The integer of an expression, given its variables' and what the operators do. -/
def Expr.intValue (op : BinOpType → Int → Int → Int) (env : Symbol → Int) : Expr Symbol → Int
  | .number _ num => num.toInt
  | .ident n => env n.symbol
  | .binOp _ o lhs rhs => op o (lhs.intValue op env) (rhs.intValue op env)
  | _ => 0

/-- The operators of the language on integers: a quotient is rounded to zero. -/
def BinOpType.onInts : BinOpType → Int → Int → Int
  | .sum, a, b => a + b
  | .sub, a, b => a - b
  | .mul, a, b => a * b
  | .div, a, b => a.tdiv b
  | _, _, _ => 0

/-- The solver's operators: a remainder is never negative. -/
def BinOpType.onZ3 (m : Model) : BinOpType → Int → Int → Int
  | .sum, a, b => a + b
  | .sub, a, b => a - b
  | .mul, a, b => a * b
  | .div, a, b => if b = 0 then m.divZero a else a / b
  | _, _, _ => 0

/-- The integers of an `i32`. -/
def FitsInt32 (n : Int) : Prop := -2 ^ 31 ≤ n ∧ n < 2 ^ 31

/-- No result leaves the range of an int, and no divisor is zero. -/
structure Expr.Regular (env : Symbol → Int) (e : Expr Symbol) : Prop where
  fits : ∀ x ∈ e.genNodes, FitsInt32 (x.intValue BinOpType.onInts env)
  divisor : ∀ node lhs rhs, .binOp node .div lhs rhs ∈ e.genNodes → rhs.intValue BinOpType.onInts env ≠ 0

variable {σ : Type} {e x : Expr Symbol} {env : Symbol → Int} {m : Model} {w : World}

theorem Expr.self_mem_genNodes (e : Expr σ) : e ∈ e.genNodes := by
  cases e <;> simp [genNodes]

theorem Expr.genNodes_trans {x y : Expr σ} (hx : x ∈ y.genNodes) : ∀ {e : Expr σ}, y ∈ e.genNodes → x ∈ e.genNodes := by
  intro e
  induction e with
  | binOp node op l r ihl ihr =>
    intro hy
    simp only [genNodes, List.mem_cons, List.mem_append] at hy
    obtain rfl | hy | hy := hy
    · exact hx
    · exact List.mem_cons_of_mem _ (List.mem_append_left _ (ihl hy))
    · exact List.mem_cons_of_mem _ (List.mem_append_right _ (ihr hy))
  | _ =>
    intro hy
    obtain rfl := List.mem_singleton.mp hy
    exact hx

theorem Expr.IntOf.node {ops : List BinOpType} (h : e.IntOf ops) (hx : x ∈ e.genNodes) :
    x.IntOf ops ∧ x.idents ⊆ e.idents := by
  induction e with
  | binOp node op l r ihl ihr =>
    simp only [Expr.genNodes, List.mem_cons, List.mem_append] at hx
    obtain rfl | hx | hx := hx
    · exact ⟨h, List.Subset.refl _⟩
    · exact ⟨(ihl h.2.1 hx).1, List.Subset.trans (ihl h.2.1 hx).2 (List.subset_append_left ..)⟩
    · exact ⟨(ihr h.2.2 hx).1, List.Subset.trans (ihr h.2.2 hx).2 (List.subset_append_right ..)⟩
  | _ =>
    obtain rfl := List.mem_singleton.mp hx
    exact ⟨h, List.Subset.refl _⟩

theorem Expr.Regular.node (h : e.Regular env) (hx : x ∈ e.genNodes) : x.Regular env :=
  ⟨fun y hy => h.fits y (genNodes_trans hy hx), fun node lhs rhs hy => h.divisor node lhs rhs (genNodes_trans hy hx)⟩

/-- A minus is a multiplication, and negates. -/
theorem visitUnaryMinus_value (node num : ASTNode) {f : Expr Symbol} :
    ((visitUnaryMinus node num f).IntOf arithOps ↔ f.IntOf arithOps) ∧
    (visitUnaryMinus node num f).intValue BinOpType.onInts env = -f.intValue BinOpType.onInts env := by
  simp [visitUnaryMinus, Expr.IntOf, arithOps, Expr.intValue, BinOpType.onInts]

/-! ## The code -/

/-- A symbol of type int has this value: an input that is determined, or a
variable whose cell is the one registered. -/
inductive World.HoldsInt (w : World) (s : Symbol) : BitVec 32 → Prop
  | input {i : Nat} {id : SymId} {name : String} {num : BitVec 32} (hs : s.ref = .input i)
      (hid : w.inputs[i]? = some id) (ho : w.syms id = some ⟨name, .number (some num)⟩) : w.HoldsInt s num
  | var {k : Nat} {p : Ptr} {num : BitVec 32} (hs : s.ref = .var k) (hp : w.frame s.ref = some p)
      (haddr : w.ctx.addr s.ref = some p) (hload : w.mem.load .int32 p = some (.int32 num)) : w.HoldsInt s num

/-- The values of the variables of an expression. -/
def World.Stores (w : World) (env : Symbol → Int) (e : Expr Symbol) : Prop :=
  ∀ i ∈ e.idents, ∃ num, w.HoldsInt i.symbol num ∧ num.toInt = env i.symbol

theorem toInt_eq_of_fits {n : Int} (h : FitsInt32 n) : n.bmod (2 ^ 32) = n := by
  unfold FitsInt32 at h
  exact Int.bmod_eq_of_le (by omega) (by omega)

/-- An instruction gives the result of its operator, unless that overflows. -/
theorem BinOpType.inst_eval {op : BinOpType} (hop : op ∈ arithOps) {l r : LVal} {a b : BitVec 32} {w w₁ w₂ : World}
    (hl : l.eval w = .ok (.int32 a, w₁)) (hr : r.eval w₁ = .ok (.int32 b, w₂))
    (hfits : FitsInt32 (op.onInts a.toInt b.toInt)) (hdiv : op = .div → b.toInt ≠ 0) :
    ∃ n, (op.inst l r).eval w = .ok (.int32 n, w₂) ∧ n.toInt = op.onInts a.toInt b.toInt := by
  have hbin {i : BinInst} {n : BitVec 32} (hn : i.evalBits a b = some n) :
      (LVal.bin i l r).eval w = .ok (.int32 n, w₂) := by
    rw [LVal.eval]
    refine bind_ok_iff.mpr ⟨_, _, hl, bind_ok_iff.mpr ⟨_, _, hr, ofOption_ok_iff.mpr ⟨?_, rfl⟩⟩⟩
    simp [BinInst.eval, hn]
  have hmod := toInt_eq_of_fits hfits
  simp only [arithOps, List.mem_cons, List.not_mem_nil, or_false] at hop
  obtain rfl | rfl | rfl | rfl := hop
  · exact ⟨a + b, hbin rfl, by rw [BitVec.toInt_add]; exact hmod⟩
  · exact ⟨a - b, hbin rfl, by rw [BitVec.toInt_sub]; exact hmod⟩
  · exact ⟨a * b, hbin rfl, by rw [BitVec.toInt_mul]; exact hmod⟩
  · have hb : ¬(b = 0 ∨ a = BitVec.intMin 32 ∧ b = -1) := by
      rintro (rfl | ⟨rfl, rfl⟩)
      · exact hdiv rfl rfl
      · exact absurd hfits.2 (by decide)
    exact ⟨a.sdiv b, hbin (if_neg hb), by rw [BitVec.toInt_sdiv]; exact hmod⟩

/-- A variable is loaded or a determined input read, and the state stays. -/
theorem codeGenIdent_eval {n : IdentNode Symbol} (ht : n.symbol.type = ⟨.int, 0⟩) {num : BitVec 32}
    (h : w.HoldsInt n.symbol num) : ∃ v, codeGenIdent n = .ok v ∧ v.eval w = .ok (.int32 num, w) := by
  cases h with
  | input hs hid ho =>
    refine ⟨.randGen n.symbol (.int 32), by simp [codeGenIdent, Symbol.isInput, hs, Symbol.randGenType, ht]; rfl, ?_⟩
    rw [LVal.eval, randGen]
    refine bind_ok_iff.mpr ⟨_, _, inputId_ok_iff.mpr ⟨⟨_, hs, hid⟩, rfl⟩, ?_⟩
    rw [fillVal]
    refine bind_ok_iff.mpr ⟨_, _, getSym_ok_iff.mpr ⟨ho, rfl⟩, bind_ok_iff.mpr ⟨_, _, ?_, rfl⟩⟩
    exact scalarRandGen_ok_iff.mpr ⟨_, ho, .inl ⟨rfl, rfl⟩⟩
  | @var k p _ hs hp _ hload =>
    refine ⟨.load (.int 32) (.alloca (some n.symbol) (.int 32)), by
      simp [codeGenIdent, Symbol.isInput, hs, Symbol.loadAlloca, Symbol.createAlloca, ht]; exact ⟨rfl, rfl⟩, ?_⟩
    have haddr : (LVal.alloca (some n.symbol) (.int 32)).eval w = .ok (.ptr p, w) := by
      rw [LVal.eval]
      exact bind_ok_iff.mpr ⟨_, _, get_ok_iff.mpr ⟨rfl, rfl⟩,
        bind_ok_iff.mpr ⟨_, _, ofOption_ok_iff.mpr ⟨hp, rfl⟩, rfl⟩⟩
    rw [LVal.eval]
    refine bind_ok_iff.mpr ⟨_, _, haddr, bind_ok_iff.mpr ⟨_, _, asPtr_ok_iff.mpr ⟨rfl, rfl⟩, ?_⟩⟩
    exact bind_ok_iff.mpr ⟨_, _, ofOption_ok_iff.mpr ⟨rfl, rfl⟩, loadMem_ok_iff.mpr ⟨hload, rfl⟩⟩

/-- The code computes the value of the expression. -/
theorem Expr.IntOf.eval (hint : e.IntOf arithOps) (hstore : w.Stores env e) (hreg : e.Regular env) :
    ∃ v n, codeGenExpr e = .ok v ∧ v.eval w = .ok (.int32 n, w) ∧ n.toInt = e.intValue BinOpType.onInts env := by
  induction e with
  | number node num => exact ⟨_, num, rfl, rfl, rfl⟩
  | ident n =>
    obtain ⟨num, hnum, heq⟩ := hstore n (List.mem_singleton_self n)
    obtain ⟨v, hv, heval⟩ := codeGenIdent_eval hint hnum
    exact ⟨v, num, hv, heval, heq⟩
  | binOp node op l r ihl ihr =>
    obtain ⟨hop, hl, hr⟩ := hint
    have hlr := List.forall_mem_append.mp hstore
    have hreg' : l.Regular env ∧ r.Regular env :=
      ⟨hreg.node (by simp [genNodes, l.self_mem_genNodes]), hreg.node (by simp [genNodes, r.self_mem_genNodes])⟩
    obtain ⟨lv, a, hlv, hla, ha⟩ := ihl hl hlr.1 hreg'.1
    obtain ⟨rv, b, hrv, hrb, hb⟩ := ihr hr hlr.2 hreg'.2
    have hself := (Expr.binOp node op l r).self_mem_genNodes
    have hfits : FitsInt32 (op.onInts a.toInt b.toInt) := by
      rw [ha, hb]
      exact hreg.fits _ hself
    have hdiv : op = .div → b.toInt ≠ 0 := by
      rintro rfl
      rw [hb]
      exact hreg.divisor _ _ _ hself
    obtain ⟨n, hn, heq⟩ := BinOpType.inst_eval hop hla hrb hfits hdiv
    exact ⟨op.inst lv rv, n, by simp [codeGenExpr, hlv, hrv], hn, by rw [heq, ha, hb, intValue]⟩
  | _ => cases hint

/-! ## The formula -/

/-- A symbol of type int stands for this value in a formula: its own, or for
an input without one the model's. -/
inductive World.ReadsInt (m : Model) (w : World) (s : Symbol) : Int → Prop
  | held {num : BitVec 32} (h : w.HoldsInt s num) : ReadsInt m w s num.toInt
  | const {i : Nat} {id : SymId} {name : String} (hs : s.ref = .input i) (hid : w.inputs[i]? = some id)
      (ho : w.syms id = some ⟨name, .number none⟩) : ReadsInt m w s (m.ints name)

/-- Only the solver's fields differ. -/
def UpToZ3 (w w' : World) : Prop := ∃ z3, w' = { w with z3 }

theorem UpToZ3.refl (w : World) : UpToZ3 w w := ⟨w.z3, rfl⟩

theorem UpToZ3.trans {w w' w'' : World} (h : UpToZ3 w w') (h' : UpToZ3 w' w'') : UpToZ3 w w'' := by
  obtain ⟨_, rfl⟩ := h
  obtain ⟨z, rfl⟩ := h'
  exact ⟨z, rfl⟩

/-- What an expression is read from is the same. -/
structure SameStore (w w' : World) : Prop where
  inputs : w'.inputs = w.inputs
  syms : w'.syms = w.syms
  frame : w'.frame = w.frame
  addr : w'.ctx.addr = w.ctx.addr
  mem : w'.mem = w.mem

theorem SameStore.trans {w w' w'' : World} (h : SameStore w w') (h' : SameStore w' w'') : SameStore w w'' :=
  ⟨h'.inputs.trans h.inputs, h'.syms.trans h.syms, h'.frame.trans h.frame, h'.addr.trans h.addr, h'.mem.trans h.mem⟩

theorem UpToZ3.sameStore {w w' : World} (h : UpToZ3 w w') : SameStore w w' := by
  obtain ⟨_, rfl⟩ := h
  exact ⟨rfl, rfl, rfl, rfl, rfl⟩

theorem World.ReadsInt.sameStore {s : Symbol} {n : Int} {w' : World} (h : w.ReadsInt m s n) (hw : SameStore w w') :
    w'.ReadsInt m s n := by
  cases h with
  | held h =>
    cases h with
    | input hs hid ho => exact .held (.input hs (hw.inputs ▸ hid) (hw.syms ▸ ho))
    | var hs hp haddr hload => exact .held (.var hs (hw.frame ▸ hp) (hw.addr ▸ haddr) (hw.mem ▸ hload))
  | const hs hid ho => exact .const hs (hw.inputs ▸ hid) (hw.syms ▸ ho)

theorem genIdent_int {n : IdentNode Symbol} (ht : n.symbol.type = ⟨.int, 0⟩) {v : Int} (h : w.ReadsInt m n.symbol v) :
    ∃ z w', genIdent n w = .ok (z, w') ∧ UpToZ3 w w' ∧ z.sort = .int ∧ z.int m = v := by
  have hinput {i : Nat} {id : SymId} (hs : n.symbol.ref = .input i) (hid : w.inputs[i]? = some id) {z : ZExpr}
      {w' : World} (hz : genSymExpr id w = .ok (z, w')) : genIdent n w = .ok (z, w') := by
    rw [genIdent, if_pos (by simp [Symbol.isInput, hs])]
    exact bind_ok_iff.mpr ⟨_, _, inputId_ok_iff.mpr ⟨⟨_, hs, hid⟩, rfl⟩, hz⟩
  cases h with
  | @held num h =>
    cases h with
    | @input i id name _ hs hid ho =>
      refine ⟨.intVal num.toInt, w, hinput hs hid ?_, .refl w, rfl, rfl⟩
      rw [genSymExpr]
      exact bind_ok_iff.mpr ⟨_, _, getSym_ok_iff.mpr ⟨ho, rfl⟩, rfl⟩
    | @var k p _ hs hp haddr hload =>
      refine ⟨.intVal num.toInt, w, ?_, .refl w, rfl, rfl⟩
      rw [genIdent, if_neg (by simp [Symbol.isInput, hs])]
      refine bind_ok_iff.mpr ⟨_, _, get_ok_iff.mpr ⟨rfl, rfl⟩, ?_⟩
      rw [haddr, getExprFromVoid, ht]
      refine bind_ok_iff.mpr ⟨_, _, ofOption_ok_iff.mpr ⟨rfl, rfl⟩, ?_⟩
      exact bind_ok_iff.mpr ⟨_, _, loadMem_ok_iff.mpr ⟨hload, rfl⟩, rfl⟩
  | @const i id name hs hid ho =>
    refine ⟨.intConst name, _, hinput hs hid ?_, ⟨w.z3.record id (.intConst name), rfl⟩, rfl, rfl⟩
    rw [genSymExpr]
    exact bind_ok_iff.mpr ⟨_, _, getSym_ok_iff.mpr ⟨ho, rfl⟩, rfl⟩

/-- The formula denotes the value of the expression with the solver's operators. -/
theorem Expr.IntOf.genExpr {e : Expr Symbol} (hint : e.IntOf arithOps) :
    ∀ {w : World}, (∀ i ∈ e.idents, w.ReadsInt m i.symbol (env i.symbol)) →
      ∃ z w', DGen.genExpr e w = .ok (z, w') ∧ UpToZ3 w w' ∧ z.sort = .int ∧
        z.int m = e.intValue (BinOpType.onZ3 m) env := by
  induction e with
  | number node num => exact fun {w} _ => ⟨_, w, rfl, .refl w, rfl, rfl⟩
  | ident n => exact fun hstore => genIdent_int hint (hstore n (List.mem_singleton_self n))
  | binOp node op l r ihl ihr =>
    intro w hstore
    obtain ⟨hop, hl, hr⟩ := hint
    have hlr := List.forall_mem_append.mp hstore
    obtain ⟨lz, w₁, hlz, hw₁, hls, hlm⟩ := ihl hl hlr.1
    obtain ⟨rz, w₂, hrz, hw₂, hrs, hrm⟩ := ihr hr fun i hi => (hlr.2 i hi).sameStore hw₁.sameStore
    have hargs : op.zargs .int .int = true ∧ op.zsort = .int ∧ ∀ lz rz : ZExpr,
        (ZExpr.binOp op lz rz).int m = op.onZ3 m (lz.int m) (rz.int m) := by
      simp only [arithOps, List.mem_cons, List.not_mem_nil, or_false] at hop
      obtain rfl | rfl | rfl | rfl := hop <;>
        exact ⟨rfl, rfl, fun _ _ => by simp [ZExpr.int, BinOpType.onZ3]⟩
    refine ⟨.binOp op lz rz, w₂, ?_, hw₁.trans hw₂, hargs.2.1, ?_⟩
    · rw [DGen.genExpr]
      refine bind_ok_iff.mpr ⟨_, _, hlz, bind_ok_iff.mpr ⟨_, _, hrz, ?_⟩⟩
      rw [mkBinOp, hls, hrs, hargs.1]
      rfl
    · rw [hargs.2.2, hlm, hrm, intValue]
  | _ => cases hint

/-! ## Agreement -/

/-- The formula denotes the integer that the code computes. -/
def Agree (m : Model) (w : World) (e : Expr Symbol) : Prop :=
  ∃ z w₁ v n w₂, genExpr e w = .ok (z, w₁) ∧ codeGenExpr e = .ok v ∧ v.eval w = .ok (.int32 n, w₂) ∧ z.int m = n.toInt

/-- Both translations have a result, so they agree where the operators do. -/
theorem agree_iff (hint : e.IntOf arithOps) (hstore : w.Stores env e) (hreg : e.Regular env) :
    Agree m w e ↔ e.intValue (BinOpType.onZ3 m) env = e.intValue BinOpType.onInts env := by
  obtain ⟨v, n, hv, hn, heq⟩ := hint.eval hstore hreg
  have hreads : ∀ i ∈ e.idents, w.ReadsInt m i.symbol (env i.symbol) := by
    intro i hi
    obtain ⟨num, hnum, hi'⟩ := hstore i hi
    exact hi' ▸ .held hnum
  obtain ⟨z, w₁, hz, -, -, hzm⟩ := hint.genExpr hreads
  constructor
  · rintro ⟨z', w₁', v', n', w₂', hz', hv', hn', h⟩
    obtain ⟨rfl, -⟩ := Prod.mk.inj (Except.ok.inj (hz.symm.trans hz'))
    obtain rfl := Except.ok.inj (hv.symm.trans hv')
    obtain ⟨hnn, -⟩ := Prod.mk.inj (Except.ok.inj (hn.symm.trans hn'))
    obtain rfl := Val.int32.inj hnn
    rw [← hzm, h, heq]
  · exact fun h => ⟨z, w₁, v, n, w, hz, hv, hn, by rw [hzm, h, heq]⟩

/-- The two quotients are the same where nothing is left over, or the dividend is not negative. -/
theorem ediv_eq_tdiv_iff {a b : Int} (hb : b ≠ 0) : a / b = a.tdiv b ↔ 0 ≤ a ∨ b ∣ a := by
  rw [Int.tdiv_eq_ediv]
  split
  next h => simp [h]
  next h =>
    have : b.sign ≠ 0 := by rwa [ne_eq, Int.sign_eq_zero_iff_zero]
    exact iff_of_false (by omega) h

/-- One node: given its operands', the two values are the same unless it is an inexact division. -/
theorem BinOpType.onZ3_eq_iff {op : BinOpType} {a b : Int} (hdiv : op = .div → b ≠ 0) :
    op.onZ3 m a b = op.onInts a b ↔ (op = .div → 0 ≤ a ∨ b ∣ a) := by
  cases op with
  | div =>
    have hb := hdiv rfl
    simp [onZ3, onInts, hb, ediv_eq_tdiv_iff hb]
  | _ => simp [onZ3, onInts]

/-- **The evaluators agree up to inexact division.** At every node of an
expression without overflow the formula and the code have the same value
exactly when each division's dividend is not negative or leaves nothing over. -/
theorem arith_agree_iff (hint : e.IntOf arithOps) (hstore : w.Stores env e) (hreg : e.Regular env) :
    (∀ x ∈ e.genNodes, Agree m w x) ↔ ∀ node lhs rhs, .binOp node .div lhs rhs ∈ e.genNodes →
      0 ≤ lhs.intValue BinOpType.onInts env ∨
        rhs.intValue BinOpType.onInts env ∣ lhs.intValue BinOpType.onInts env := by
  have hnode {x : Expr Symbol} (hx : x ∈ e.genNodes) :
      Agree m w x ↔ x.intValue (BinOpType.onZ3 m) env = x.intValue BinOpType.onInts env :=
    agree_iff (hint.node hx).1 (fun i hi => hstore i ((hint.node hx).2 hi)) (hreg.node hx)
  constructor
  · intro h node lhs rhs hx
    have hl : lhs ∈ e.genNodes := Expr.genNodes_trans (by simp [Expr.genNodes, lhs.self_mem_genNodes]) hx
    have hr : rhs ∈ e.genNodes := Expr.genNodes_trans (by simp [Expr.genNodes, rhs.self_mem_genNodes]) hx
    have heq := (hnode hx).mp (h _ hx)
    rw [Expr.intValue, Expr.intValue, (hnode hl).mp (h _ hl), (hnode hr).mp (h _ hr)] at heq
    exact (BinOpType.onZ3_eq_iff fun _ => hreg.divisor _ _ _ hx).mp heq rfl
  · intro h x hx
    rw [hnode hx]
    clear hnode
    induction x with
    | binOp node op l r ihl ihr =>
      have hl := ihl (Expr.genNodes_trans (by simp [Expr.genNodes, l.self_mem_genNodes]) hx)
      have hr := ihr (Expr.genNodes_trans (by simp [Expr.genNodes, r.self_mem_genNodes]) hx)
      rw [Expr.intValue, Expr.intValue, hl, hr]
      refine (BinOpType.onZ3_eq_iff ?_).mpr ?_ <;> rintro rfl
      · exact hreg.divisor _ _ _ hx
      · exact h _ _ _ hx
    | _ => rfl

namespace Sample

/-- The input `int n`. -/
def inputN : Symbol := ⟨.input 0, ⟨0, 0⟩, ⟨.int, 0⟩, "n"⟩

/-- `n / 2`. -/
def halfN : Expr Symbol := .binOp (node 1) .div (.ident ⟨node 2, "n", inputN⟩) (.number (node 3) 2)

/-- A state in which `n` is 7. -/
def sevenN : World := (World.start (Sample.draws 0) [inputN]).setSym 0 ⟨"n", .number (some 7)⟩

def zeroModel : Model := ⟨fun _ => 0, fun _ => true, fun _ => 0⟩

/-- `-7 / 2`. -/
def halfNegative : Expr Symbol :=
  .binOp (node 1) .div (visitUnaryMinus (node 2) (node 3) (.number (node 4) 7)) (.number (node 5) 2)

end Sample

theorem arith_agree_iff_halfN : (∀ x ∈ Sample.halfN.genNodes, Agree Sample.zeroModel Sample.sevenN x) ↔
      ∀ node lhs rhs, .binOp node .div lhs rhs ∈ Sample.halfN.genNodes →
        0 ≤ lhs.intValue BinOpType.onInts (fun _ => 7) ∨
          rhs.intValue BinOpType.onInts (fun _ => 7) ∣ lhs.intValue BinOpType.onInts (fun _ => 7) := by
  refine arith_agree_iff ⟨by decide, rfl, trivial⟩ ?_ ⟨?_, ?_⟩
  · intro i hi
    obtain rfl := List.mem_singleton.mp hi
    exact ⟨7, .input rfl rfl (World.setSym_self ..), rfl⟩
  · simp [Sample.halfN, Expr.genNodes, Expr.intValue, BinOpType.onInts, FitsInt32]
  · intro node lhs rhs hx
    simp only [Sample.halfN, Expr.genNodes, List.mem_cons, List.cons_append, List.nil_append, Expr.binOp.injEq,
      reduceCtorEq, List.not_mem_nil, or_false] at hx
    obtain ⟨-, -, -, rfl⟩ := hx
    decide

/-- Minus seven by two: -4 for the solver, -3 for the code. -/
theorem halfNegative_disagrees : ¬ ∀ (e : Expr Symbol) (env : Symbol → Int) (m : Model) (w : World),
    e.IntOf arithOps → w.Stores env e → e.Regular env → Agree m w e := by
  intro h
  have hint : Sample.halfNegative.IntOf arithOps := ⟨by decide, ⟨by decide, trivial, trivial⟩, trivial⟩
  have hstore : Sample.sevenN.Stores (fun _ => 0) Sample.halfNegative := fun i hi => absurd hi List.not_mem_nil
  have hreg : Sample.halfNegative.Regular fun _ => 0 := by
    constructor
    · simp [Sample.halfNegative, visitUnaryMinus, Expr.genNodes, Expr.intValue, BinOpType.onInts, FitsInt32]
    · intro node lhs rhs hx
      simp only [Sample.halfNegative, visitUnaryMinus, Expr.genNodes, List.mem_cons, List.cons_append, List.nil_append,
        Expr.binOp.injEq, reduceCtorEq, List.not_mem_nil, or_false, false_and, and_false] at hx
      obtain ⟨-, -, -, rfl⟩ := hx
      decide
  have hagree := h _ _ Sample.zeroModel _ hint hstore hreg
  exact absurd ((agree_iff hint hstore hreg).mp hagree) (by decide)

end DGen
