/-
The solver's model makes the program take the branch: for a condition and a
precondition of comparisons of ints, joined by `&&` and `||`, the code
evaluates to what the formulas were asserted to be.

The argument goes through the integers of the expressions' variables: the
formulas speak of them (`Expr.CondOf.genExpr`), the fill loop writes them into
the inputs, and the code computes with them (`Expr.CondOf.eval`).
-/
import DGen.Arithmetic
import DGen.ModelValues

namespace DGen

open Memory StateT

/-! ## Conditions -/

def ringOps : List BinOpType := [.sum, .sub, .mul]

def cmpOps : List BinOpType := [.lt, .le, .gt, .ge, .eq, .neq]

/-- Comparisons of int expressions without a division, joined by `&&` and `||`. -/
def Expr.CondOf : Expr Symbol → Prop
  | .binOp _ op lhs rhs =>
    op ∈ cmpOps ∧ lhs.IntOf ringOps ∧ rhs.IntOf ringOps ∨ (op = .and ∨ op = .or) ∧ lhs.CondOf ∧ rhs.CondOf
  | _ => False

/-- A comparison of integers. -/
def BinOpType.compare : BinOpType → Int → Int → Bool
  | .lt, a, b => a < b
  | .le, a, b => a ≤ b
  | .gt, a, b => b < a
  | .ge, a, b => b ≤ a
  | .eq, a, b => a == b
  | .neq, a, b => a != b
  | _, _, _ => false

/-- The truth of a condition, given its variables' integers. -/
def Expr.truth (env : Symbol → Int) : Expr Symbol → Bool
  | .binOp _ op lhs rhs =>
    match op with
    | .and => lhs.truth env && rhs.truth env
    | .or => lhs.truth env || rhs.truth env
    | _ => op.compare (lhs.intValue BinOpType.onInts env) (rhs.intValue BinOpType.onInts env)
  | _ => false

/-- All integers of an expression are ones of 32 bits. -/
def Expr.Fits (env : Symbol → Int) (e : Expr Symbol) : Prop :=
  ∀ x ∈ e.genNodes, FitsInt32 (x.intValue BinOpType.onInts env)

variable {e : Expr Symbol} {env : Symbol → Int} {m : Model} {w : World}

theorem Expr.IntOf.mono {ops ops' : List BinOpType} (h : e.IntOf ops) (hops : ops ⊆ ops') : e.IntOf ops' := by
  induction e with
  | binOp node op l r ihl ihr => exact ⟨hops h.1, ihl h.2.1, ihr h.2.2⟩
  | _ => exact h

theorem Expr.IntOf.arith (h : e.IntOf ringOps) : e.IntOf arithOps := h.mono (by decide)

theorem Expr.IntOf.regular (h : e.IntOf ringOps) (hfits : e.Fits env) : e.Regular env := by
  refine ⟨hfits, fun node lhs rhs hx => ?_⟩
  exact absurd (h.node hx).1.1 (by decide)

/-- Without a division the solver's integers are the language's. -/
theorem Expr.IntOf.onZ3 (h : e.IntOf ringOps) :
    e.intValue (BinOpType.onZ3 m) env = e.intValue BinOpType.onInts env := by
  induction e with
  | binOp node op l r ihl ihr =>
    rw [intValue, intValue, ihl h.2.1, ihr h.2.2]
    obtain hop : op ≠ .div := by
      rintro rfl
      exact absurd h.1 (by decide)
    exact (BinOpType.onZ3_eq_iff fun hd => absurd hd hop).mpr fun hd => absurd hd hop
  | _ => rfl

/-! ## The code -/

/-- A comparison instruction compares the integers. -/
theorem BinOpType.inst_compare {op : BinOpType} (hop : op ∈ cmpOps) {l r : LVal} {a b : BitVec 32} {w w₁ w₂ : World}
    (hl : l.eval w = .ok (.int32 a, w₁)) (hr : r.eval w₁ = .ok (.int32 b, w₂)) :
    (op.inst l r).eval w = .ok (.int1 (op.compare a.toInt b.toInt), w₂) := by
  have hcmp {pred : IcmpPred} (hp : pred.evalBits a b = op.compare a.toInt b.toInt) :
      (LVal.icmp pred l r).eval w = .ok (.int1 (op.compare a.toInt b.toInt), w₂) := by
    refine LVal.icmp_ok_iff.mpr ⟨_, _, _, hl, hr, ?_⟩
    simp [IcmpPred.eval, hp]
  simp only [cmpOps, List.mem_cons, List.not_mem_nil, or_false] at hop
  obtain rfl | rfl | rfl | rfl | rfl | rfl := hop
  case inl | inr.inr.inl => exact hcmp (by simp [IcmpPred.evalBits, compare, BitVec.slt])
  case inr.inl | inr.inr.inr.inl => exact hcmp (by simp [IcmpPred.evalBits, compare, BitVec.sle])
  all_goals
    have heq : (a == b) = (a.toInt == b.toInt) := by
      rw [Bool.eq_iff_iff, beq_iff_eq, beq_iff_eq, BitVec.toInt_inj]
    exact hcmp (by simp only [IcmpPred.evalBits, compare, bne, heq])

theorem Expr.Fits.operands {node : ASTNode} {op : BinOpType} {l r : Expr Symbol}
    (h : (Expr.binOp node op l r).Fits env) : l.Fits env ∧ r.Fits env := by
  simp only [Fits, genNodes, List.forall_mem_cons, List.forall_mem_append] at h
  exact h.2

/-- The code computes the truth of the condition. -/
theorem Expr.CondOf.eval (hcond : e.CondOf) (hstore : w.Stores env e) (hfits : e.Fits env) :
    ∃ v, codeGenExpr e = .ok v ∧ v.eval w = .ok (.int1 (e.truth env), w) := by
  induction e with
  | binOp node op l r ihl ihr =>
    have hlr := List.forall_mem_append.mp hstore
    obtain ⟨hfl, hfr⟩ := hfits.operands
    obtain ⟨hop, hl, hr⟩ | ⟨hop, hl, hr⟩ := hcond
    · obtain ⟨lv, a, hlv, hla, ha⟩ := hl.arith.eval hlr.1 (hl.regular hfl)
      obtain ⟨rv, b, hrv, hrb, hb⟩ := hr.arith.eval hlr.2 (hr.regular hfr)
      refine ⟨op.inst lv rv, by simp [codeGenExpr, hlv, hrv], ?_⟩
      rw [BinOpType.inst_compare hop hla hrb, ha, hb]
      simp only [cmpOps, List.mem_cons, List.not_mem_nil, or_false] at hop
      obtain rfl | rfl | rfl | rfl | rfl | rfl := hop <;> rfl
    · obtain ⟨lv, hlv, hla⟩ := ihl hl hlr.1 hfl
      obtain ⟨rv, hrv, hrb⟩ := ihr hr hlr.2 hfr
      refine ⟨op.inst lv rv, by simp [codeGenExpr, hlv, hrv], ?_⟩
      obtain rfl | rfl := hop <;>
        · rw [BinOpType.inst, LVal.eval]
          exact bind_ok_iff.mpr ⟨_, _, hla, bind_ok_iff.mpr ⟨_, _, hrb, rfl⟩⟩
  | _ => cases hcond

/-! ## The formulas -/

/-- The formula is as true as the condition. -/
theorem Expr.CondOf.genExpr {e : Expr Symbol} (hcond : e.CondOf) :
    ∀ {w : World}, (∀ i ∈ e.idents, w.ReadsInt m i.symbol (env i.symbol)) →
      ∃ z w', DGen.genExpr e w = .ok (z, w') ∧ UpToZ3 w w' ∧ z.sort = .bool ∧ z.bool m = e.truth env := by
  have hbin {op : BinOpType} {l r : Expr Symbol} {lz rz : ZExpr} {w w₁ w₂ : World} {node : ASTNode}
      (hl : DGen.genExpr l w = .ok (lz, w₁)) (hr : DGen.genExpr r w₁ = .ok (rz, w₂))
      (hargs : op.zargs lz.sort rz.sort = true) :
      DGen.genExpr (.binOp node op l r) w = .ok (.binOp op lz rz, w₂) := by
    rw [DGen.genExpr]
    refine bind_ok_iff.mpr ⟨_, _, hl, bind_ok_iff.mpr ⟨_, _, hr, ?_⟩⟩
    rw [mkBinOp, hargs]
    rfl
  induction e with
  | binOp node op l r ihl ihr =>
    intro w hstore
    have hlr := List.forall_mem_append.mp hstore
    obtain ⟨hop, hl, hr⟩ | ⟨hop, hl, hr⟩ := hcond
    · obtain ⟨lz, w₁, hlz, hw₁, hls, hlm⟩ := hl.arith.genExpr hlr.1
      obtain ⟨rz, w₂, hrz, hw₂, hrs, hrm⟩ := hr.arith.genExpr fun i hi => (hlr.2 i hi).sameStore hw₁.sameStore
      rw [hl.onZ3] at hlm
      rw [hr.onZ3] at hrm
      simp only [cmpOps, List.mem_cons, List.not_mem_nil, or_false] at hop
      obtain rfl | rfl | rfl | rfl | rfl | rfl := hop <;>
        exact ⟨_, w₂, hbin hlz hrz (by rw [hls, hrs]; rfl), hw₁.trans hw₂, rfl, by
          simp [ZExpr.bool, truth, BinOpType.compare, hls, hlm, hrm]⟩
    · obtain ⟨lz, w₁, hlz, hw₁, hls, hlm⟩ := ihl hl hlr.1
      obtain ⟨rz, w₂, hrz, hw₂, hrs, hrm⟩ := ihr hr fun i hi => (hlr.2 i hi).sameStore hw₁.sameStore
      obtain rfl | rfl := hop <;>
        exact ⟨_, w₂, hbin hlz hrz (by rw [hls, hrs]; rfl), hw₁.trans hw₂, rfl, by
          simp [ZExpr.bool, truth, hlm, hrm]⟩
  | _ => cases hcond

/-- The roll has the condition negated: the second number drawn is beyond the probability. -/
def Negated (precond : PrecondNode Symbol) (w : World) : Bool :=
  precond.prob != -1 && rollNegates precond.prob (w.rand 1)

theorem roll_bool (precond : PrecondNode Symbol) {z : ZExpr} (hz : z.sort = .bool) {w₀ : World}
    (hr : w.rand 0 = w₀.rand 1) : ∃ z' w', roll precond.prob z w = .ok (z', w') ∧ SameStore w w' ∧
      z'.bool m = (z.bool m != Negated precond w₀) := by
  unfold roll Negated
  by_cases hp : (precond.prob != -1) = true
  · rw [if_pos hp, bind_of_ok (rand_ok_iff.mpr ⟨rfl, rfl⟩), hr, hp]
    split
    next hn =>
      rw [mkNot, if_pos hz]
      exact ⟨_, _, rfl, ⟨rfl, rfl, rfl, rfl, rfl⟩, by simp [ZExpr.bool, hn]⟩
    next hn => exact ⟨_, _, rfl, ⟨rfl, rfl, rfl, rfl, rfl⟩, by simp [hn]⟩
  · rw [if_neg hp, Bool.eq_false_of_not_eq_true hp]
    exact ⟨_, _, rfl, ⟨rfl, rfl, rfl, rfl, rfl⟩, by simp⟩

/-- The formulas say that the condition is true unless negated, and the precondition is true. -/
theorem genFormulas_truth {cond : Expr Symbol} {precond : PrecondNode Symbol} (hcond : cond.CondOf)
    (hpre : ∀ e ∈ precond.expr, e.CondOf)
    (hstore : ∀ i ∈ cond.idents ++ precond.idents, w.ReadsInt m i.symbol (env i.symbol)) :
    ∃ fs w', genFormulas cond precond w = .ok (fs, w') ∧ SameStore w w' ∧
      ((∀ f ∈ fs, f.bool m = true) ↔
        cond.truth env = !Negated precond w ∧ ∀ e ∈ precond.expr, e.truth env = true) := by
  have hcp := List.forall_mem_append.mp hstore
  have hsame : UpToZ3 w { w with z3 := ⟨[], []⟩ } := ⟨_, rfl⟩
  obtain ⟨z, w₁, hz, hw₁, hsort, hzm⟩ := hcond.genExpr fun i hi => (hcp.1 i hi).sameStore hsame.sameStore
  have hw₁ := hsame.trans hw₁
  have hdrawn : SameStore w w₁.drawn := hw₁.sameStore.trans ⟨rfl, rfl, rfl, rfl, rfl⟩
  have hr : w₁.drawn.rand 0 = w.rand 1 := by
    obtain ⟨_, rfl⟩ := hw₁
    rfl
  obtain ⟨z', w₂, hroll, hw₂, hzm'⟩ := roll_bool (m := m) precond hsort hr
  have htruth : z'.bool m = true ↔ cond.truth env = !Negated precond w := by
    rw [hzm', hzm]
    cases cond.truth env <;> cases Negated precond w <;> simp
  rw [genFormulas, bind_of_ok (modify_ok_iff (u := ()).mpr rfl), bind_of_ok hz, bind_of_ok (rand_ok_iff.mpr ⟨rfl, rfl⟩),
    bind_of_ok hroll]
  cases hp : precond.expr with
  | none => exact ⟨_, _, rfl, hdrawn.trans hw₂, by simpa using htruth⟩
  | some e =>
    have hmem : ∀ i ∈ e.idents, w.ReadsInt m i.symbol (env i.symbol) := fun i hi =>
      hcp.2 i (by simpa [PrecondNode.idents, hp] using hi)
    obtain ⟨ze, w₃, hze, hw₃, -, hzem⟩ := (hpre e hp).genExpr fun i hi => (hmem i hi).sameStore (hdrawn.trans hw₂)
    refine ⟨_, _, bind_of_ok hze, (hdrawn.trans hw₂).trans hw₃.sameStore, ?_⟩
    simpa [hzem] using and_congr_left fun _ => htruth

/-! ## The inputs filled -/

/-- The leaves of an expression are numbers and its identifiers. -/
structure Expr.OnVars (e : Expr Symbol) : Prop where
  leaf : ∀ x ∈ e.leaves, (∃ node num, x = .number node num) ∨ ∃ i ∈ e.idents, x = .ident i
  ident : ∀ i ∈ e.idents, .ident i ∈ e.leaves ∧ .ident i ∈ e.genNodes

theorem Expr.OnVars.binOp {node : ASTNode} {op : BinOpType} {l r : Expr Symbol} (hl : l.OnVars) (hr : r.OnVars) :
    (Expr.binOp node op l r).OnVars where
  leaf := by
    refine List.forall_mem_append.mpr ⟨fun x hx => (hl.leaf x hx).imp_right ?_, fun x hx => (hr.leaf x hx).imp_right ?_⟩
    · rintro ⟨i, hi, rfl⟩
      exact ⟨i, List.mem_append_left _ hi, rfl⟩
    · rintro ⟨i, hi, rfl⟩
      exact ⟨i, List.mem_append_right _ hi, rfl⟩
  ident := by
    refine List.forall_mem_append.mpr ⟨fun i hi => ?_, fun i hi => ?_⟩
    · exact ⟨List.mem_append_left _ (hl.ident i hi).1,
        List.mem_cons_of_mem _ (List.mem_append_left _ (hl.ident i hi).2)⟩
    · exact ⟨List.mem_append_right _ (hr.ident i hi).1,
        List.mem_cons_of_mem _ (List.mem_append_right _ (hr.ident i hi).2)⟩

theorem Expr.IntOf.onVars {ops : List BinOpType} (h : e.IntOf ops) : e.OnVars := by
  induction e with
  | number node num => exact ⟨by simp [leaves], by simp [idents]⟩
  | ident i => exact ⟨by simp [leaves, idents], by simp [leaves, idents, genNodes]⟩
  | binOp node op l r ihl ihr => exact (ihl h.2.1).binOp (ihr h.2.2)
  | _ => cases h

theorem Expr.CondOf.onVars (h : e.CondOf) : e.OnVars := by
  induction e with
  | binOp node op l r ihl ihr =>
    obtain ⟨-, hl, hr⟩ | ⟨-, hl, hr⟩ := h
    · exact hl.onVars.binOp hr.onVars
    · exact (ihl hl).binOp (ihr hr)
  | _ => cases h

theorem Expr.OnVars.mem_mentions_iff (h : e.OnVars) {μ : Mention} :
    μ ∈ e.mentions w ↔ ∃ i ∈ e.idents, ∃ id, w.input? i.symbol.ref = some id ∧ μ = .value id [] := by
  rw [mentions, List.mem_filterMap]
  constructor
  · rintro ⟨x, hx, hμ⟩
    obtain ⟨node, num, rfl⟩ | ⟨i, hi, rfl⟩ := h.leaf x hx
    · cases hμ
    · obtain ⟨id, hid, rfl⟩ := Option.map_eq_some_iff.mp hμ
      exact ⟨i, hi, id, hid, rfl⟩
  · rintro ⟨i, hi, id, hid, rfl⟩
    exact ⟨.ident i, (h.ident i hi).1, by simp [mention, hid]⟩

theorem mem_mentions_iff {cond : Expr Symbol} {precond : PrecondNode Symbol} (hcond : cond.CondOf)
    (hpre : ∀ e ∈ precond.expr, e.CondOf) {μ : Mention} : μ ∈ mentions w cond precond ↔
      ∃ i ∈ cond.idents ++ precond.idents, ∃ id, w.input? i.symbol.ref = some id ∧ μ = .value id [] := by
  rw [mentions, List.mem_append, hcond.onVars.mem_mentions_iff]
  simp only [List.mem_append, or_and_right, exists_or]
  refine or_congr_right ?_
  cases hp : precond.expr with
  | none => simp [PrecondNode.idents, hp]
  | some e => simp [PrecondNode.idents, hp, (hpre e hp).onVars.mem_mentions_iff]

/-- The fill loop writes to symbols only. -/
theorem fillLoop_memory {exprs : List ZExpr} {items : List (SymId × Nat)} : ∀ {w w' : World},
    fillLoop m exprs items w = .ok ((), w') →
      w'.inputs = w.inputs ∧ w'.frame = w.frame ∧ w'.ctx = w.ctx ∧ w'.mem = w.mem := by
  induction items with
  | nil =>
    intro w w' h
    obtain ⟨-, rfl⟩ := pure_ok_iff.mp h
    exact ⟨rfl, rfl, rfl, rfl⟩
  | cons item items ih =>
    intro w w' h
    obtain ⟨e, w₁, -, hfill, h⟩ := fillLoop_cons_ok_iff.mp h
    obtain ⟨hi, hf, hc, hm⟩ := ih h
    obtain ⟨_, _, -, -, -, -, rfl⟩ | ⟨_, _, _, _, _, -, -, rfl⟩ := fillSym_ok hfill <;> exact ⟨hi, hf, hc, hm⟩

/-- What a call leaves of a state in which the variables of its expressions
have the integers `env`: the inputs among them are determined so. -/
structure Forced (env : Symbol → Int) (is : List (IdentNode Symbol)) (w w' : World) : Prop where
  inputs : w'.inputs = w.inputs
  stored : ∀ i ∈ is, ∃ num, w'.HoldsInt i.symbol num ∧ num.toInt = env i.symbol
  others : ∀ id o, w.syms id = some o →
    o.val.determined = true ∨ (∀ i ∈ is, w.input? i.symbol.ref ≠ some id) → w'.syms id = some o

theorem World.input?_of_ref {w : World} {s : Symbol} {i : Nat} {id : SymId} (hs : s.ref = .input i)
    (hid : w.inputs[i]? = some id) : w.input? s.ref = some id := by
  rw [hs]
  exact hid

/-- An input of type int that is read. -/
theorem World.ReadsInt.of_input {s : Symbol} {v : Int} {id : SymId} (h : w.ReadsInt m s v)
    (hid : w.input? s.ref = some id) : ∃ name num, w.syms id = some ⟨name, .number num⟩ ∧
      (num = none → v = m.ints name) ∧ ∀ n, num = some n → v = n.toInt := by
  cases h with
  | held h =>
    cases h with
    | input hs hid' ho =>
      obtain rfl := Option.some.inj (hid.symm.trans (input?_of_ref hs hid'))
      exact ⟨_, _, ho, by simp, by simp⟩
    | var hs =>
      rw [hs] at hid
      cases hid
  | const hs hid' ho =>
    obtain rfl := Option.some.inj (hid.symm.trans (input?_of_ref hs hid'))
    exact ⟨_, _, ho, by simp, by simp⟩

section

variable {is : List (IdentNode Symbol)} {ms : List Mention} {w₁ : World}

/-- What is recorded of such a condition is an input without a value, under its name. -/
theorem Recorded.entry_const (hrec : Recorded w ms w₁)
    (hms : ∀ μ ∈ ms, ∃ i ∈ is, ∃ id, w.input? i.symbol.ref = some id ∧ μ = .value id [])
    (hstore : ∀ i ∈ is, w.ReadsInt m i.symbol (env i.symbol)) (hsyms : w₁.syms = w.syms) {sym : SymId} {k : Nat}
    (hk : (sym, k) ∈ w₁.z3.symsToExprId) : ∃ i ∈ is, ∃ name, w.input? i.symbol.ref = some sym ∧
      w.syms sym = some ⟨name, .number none⟩ ∧ w₁.z3.exprs[k]? = some (.intConst name) ∧
      env i.symbol = m.ints name := by
  obtain ⟨e, he, hrecas⟩ := hrec.entry _ k hk
  cases hrecas with
  | @value id path r _ o hdone hr hplace ho _ hval =>
    obtain ⟨i, hi, id', hin, heq⟩ := hms _ hdone
    obtain ⟨rfl, rfl⟩ := Mention.value.inj heq
    obtain rfl := Option.some.inj hplace
    obtain ⟨name, num, hsym, hnone, -⟩ := (hstore i hi).of_input hin
    obtain rfl := Option.some.inj (hr.symm.trans hsym)
    rw [hsyms] at ho
    obtain rfl := Option.some.inj (ho.symm.trans hsym)
    obtain rfl : num = none := by simpa [SymVal.hasVal] using hval
    exact ⟨i, hi, name, hin, hsym, he, hnone rfl⟩
  | length hdone =>
    obtain ⟨_, _, _, _, heq⟩ := hms _ (hdone ▸ List.mem_append_right _ List.mem_cons_self)
    cases heq

/-- The call fills the inputs without a value from the model, and no others. -/
theorem startZ3Gen_forced {check : List ZExpr → CheckResult} (walk : Walk) {cond : Expr Symbol}
    {precond : PrecondNode Symbol} {fs : List ZExpr} (hok : w.Ok)
    (hms : ∀ μ, μ ∈ mentions w cond precond ↔
      ∃ i ∈ is, ∃ id, w.input? i.symbol.ref = some id ∧ μ = .value id [])
    (hstore : ∀ i ∈ is, w.ReadsInt m i.symbol (env i.symbol)) (hfits : ∀ i ∈ is, FitsInt32 (env i.symbol))
    (hgen : genFormulas cond precond w = .ok (fs, w₁)) (hsame : SameStore w w₁) (hsat : check fs = .sat m) :
    ∃ w', startZ3Gen check walk cond precond w = .ok ((), w') ∧ Forced env is w w' := by
  have hrec := genFormulas_recorded hgen hok
  have hentry {sym : SymId} {k : Nat} (hk : (sym, k) ∈ w₁.z3.symsToExprId) :=
    hrec.entry_const (fun μ hμ => (hms μ).mp hμ) hstore hsame.syms hk
  have hkey {i : IdentNode Symbol} (hi : i ∈ is) {id : SymId} {name : String}
      (hin : w.input? i.symbol.ref = some id) (ho : w.syms id = some ⟨name, .number none⟩) :
      ∃ k, (id, k) ∈ w₁.z3.symsToExprId := by
    obtain ⟨sym, o, hplace, ho', -, hkey⟩ := hrec.value id [] ((hms _).mpr ⟨i, hi, id, hin, rfl⟩)
    obtain rfl := Option.some.inj hplace
    rw [hsame.syms, ho] at ho'
    obtain rfl := Option.some.inj ho'
    exact hkey rfl
  -- what is in the end read where the variables' cells are as they were
  have hstored {w' : World} (hin : w'.inputs = w.inputs) (hframe : w'.frame = w.frame)
      (haddr : w'.ctx.addr = w.ctx.addr) (hmem : w'.mem = w.mem)
      (hothers : ∀ id name num, w.syms id = some ⟨name, .number (some num)⟩ → w'.syms id = w.syms id)
      (hset : ∀ id k name, (id, k) ∈ w₁.z3.symsToExprId → w₁.z3.exprs[k]? = some (.intConst name) →
        ∃ name' num, w'.syms id = some ⟨name', .number (some num)⟩ ∧ num.toInt = m.ints name) :
      ∀ i ∈ is, ∃ num, w'.HoldsInt i.symbol num ∧ num.toInt = env i.symbol := by
    intro i hi
    have hreads := hstore i hi
    generalize env i.symbol = v at hreads ⊢
    cases hreads with
    | @held num h =>
      refine ⟨num, ?_, rfl⟩
      cases h with
      | input hs hid ho => exact .input hs (hin ▸ hid) ((hothers _ _ _ ho).trans ho)
      | var hs hp ha hload => exact .var hs (hframe ▸ hp) (haddr ▸ ha) (hmem ▸ hload)
    | const hs hid ho =>
      obtain ⟨k, hk⟩ := hkey hi (World.input?_of_ref hs hid) ho
      obtain ⟨_, _, _, -, ho', he, -⟩ := hentry hk
      obtain rfl := (SymObj.mk.inj (Option.some.inj (ho.symm.trans ho'))).1
      obtain ⟨_, num, hnum, heq⟩ := hset _ k _ hk he
      exact ⟨num, .input hs (hin ▸ hid) hnum, heq⟩
  by_cases hempty : w₁.z3.exprs = []
  · -- nothing is recorded, so the solver is not asked
    refine ⟨w₁, ?_, hsame.inputs, ?_, fun id o ho _ => hsame.syms ▸ ho⟩
    · rw [startZ3Gen, bind_of_ok hgen, bind_of_ok (get_ok_iff.mpr ⟨rfl, rfl⟩)]
      simp [hempty, pure_ok_iff]
    · refine hstored hsame.inputs hsame.frame hsame.addr hsame.mem (fun _ _ _ _ => by rw [hsame.syms]) ?_
      intro id k name _ he
      rw [hempty] at he
      cases he
  · have hreach : ReachesFill check cond precond m w w₁ := ⟨⟨fs, hgen, hsat⟩, hempty⟩
    have hapart : LengthsApart w (mentions w cond precond) := by
      intro id name type elems _ pre post hsplit
      obtain ⟨_, _, _, _, heq⟩ := (hms (.length id)).mp (hsplit ▸ List.mem_append_right _ List.mem_cons_self)
      cases heq
    have hperm := walk.perm w₁.z3.symsToExprId
    have hnodup := (hperm.map (·.1)).nodup_iff.mpr hrec.keys
    have hblank : ∀ item ∈ walk.order w₁.z3.symsToExprId, w₁.Blank item.1 := fun item hi =>
      (hrec.blank_of_apart hapart (hperm.mem_iff.mp hi)).1
    have htakes : AllRecorded SymVal.Takes m w₁.z3.exprs (walk.order w₁.z3.symsToExprId) w₁ := by
      intro sym k hk
      obtain ⟨i, hi, name, -, ho, he, heq⟩ := hentry (hperm.mem_iff.mp hk)
      have hrange := hfits i hi
      rw [heq] at hrange
      exact ⟨⟨name, .number none⟩, _, hsame.syms ▸ ho, he, hrange⟩
    obtain ⟨w', hloop, hall⟩ := (fillLoop_denotes_iff hrec.ok hnodup hblank).mpr htakes
    have hfilled := fillLoop_filled hloop hrec.ok hnodup hblank
    obtain ⟨hin, hframe, hctx, hmem⟩ := fillLoop_memory hloop
    have hlt {id : SymId} {o : SymObj} (ho : w.syms id = some o) : id < w₁.next :=
      hrec.ok.tree.lt_next (hsame.syms ▸ ho)
    have hsyms : ∀ id o, w.syms id = some o →
        o.val.determined = true ∨ (∀ i ∈ is, w.input? i.symbol.ref ≠ some id) → w'.syms id = some o := by
      intro id o ho hout
      rw [hfilled.others id (hlt ho), hsame.syms, ho]
      intro hkeys
      obtain ⟨item, hitem, rfl⟩ := List.mem_map.mp hkeys
      obtain ⟨i, hi, name, hin, ho', -⟩ := hentry (hperm.mem_iff.mp hitem)
      obtain hdet | hnot := hout
      · obtain rfl := Option.some.inj (ho.symm.trans ho')
        cases hdet
      · exact hnot i hi hin
    refine ⟨w', (hreach.startZ3Gen_eq walk).trans hloop, hin.trans hsame.inputs, ?_, hsyms⟩
    refine hstored (hin.trans hsame.inputs) (hframe.trans hsame.frame) (by rw [hctx, hsame.addr])
      (hmem.trans hsame.mem) (fun id name num ho => (hsyms id _ ho (.inl rfl)).trans ho.symm) ?_
    intro id k name hk he
    have hmem' : (id, k) ∈ walk.order w₁.z3.symsToExprId := hperm.mem_iff.mpr hk
    obtain ⟨o', e, ho', he', hd⟩ := hall id k hmem'
    obtain rfl := Option.some.inj (he.symm.trans he')
    obtain ⟨o₁, o₂, ho₁, ho₂, hcls, -⟩ := hfilled.set id (List.mem_map.mpr ⟨_, hmem', rfl⟩)
    obtain ⟨_, _, _, -, hnum, -⟩ := hentry hk
    obtain rfl := Option.some.inj (ho₂.symm.trans ho')
    obtain rfl := Option.some.inj (ho₁.symm.trans (hsame.syms ▸ hnum))
    obtain ⟨name', val⟩ := o₂
    cases val with
    | number num =>
      cases num with
      | some num => exact ⟨name', num, ho', hd⟩
      | none => cases hd
    | _ => cases hcls

end

/-- **The chosen branch is taken.** When the solver's model satisfies the
formulas and its integers and all those of the two expressions are ones of 32
bits, the condition's code evaluates to what the roll has left of it and the
precondition's to true; the inputs they name are determined, and the others
and those determined before are as they were. -/
theorem startZ3Gen_takes_branch {check : List ZExpr → CheckResult} {walk : Walk} {cond : Expr Symbol}
    {precond : PrecondNode Symbol} (hok : w.Ok) (hcond : cond.CondOf) (hpre : ∀ e ∈ precond.expr, e.CondOf)
    (hstore : ∀ i ∈ cond.idents ++ precond.idents, w.ReadsInt m i.symbol (env i.symbol))
    (hfits : cond.Fits env ∧ ∀ e ∈ precond.expr, e.Fits env)
    (hsat : ∃ fs w₁, genFormulas cond precond w = .ok (fs, w₁) ∧ check fs = .sat m ∧ ∀ f ∈ fs, f.bool m = true) :
    ∃ w', startZ3Gen check walk cond precond w = .ok ((), w') ∧
      (∃ v, codeGenExpr cond = .ok v ∧ v.eval w' = .ok (.int1 !Negated precond w, w')) ∧
      (∀ e ∈ precond.expr, ∃ v, codeGenExpr e = .ok v ∧ v.eval w' = .ok (.int1 true, w')) ∧
      (∀ i ∈ cond.idents ++ precond.idents, ∀ id, w.input? i.symbol.ref = some id → w'.Determined id) ∧
      ∀ id o, w.syms id = some o → o.val.determined = true ∨
        (∀ i ∈ cond.idents ++ precond.idents, w.input? i.symbol.ref ≠ some id) → w'.syms id = some o := by
  obtain ⟨fs, w₁, hgen, hcheck, hmodel⟩ := hsat
  obtain ⟨fs', w₁', hgen', hsame, htruth⟩ := genFormulas_truth hcond hpre hstore
  obtain ⟨rfl, rfl⟩ := Prod.mk.inj (Except.ok.inj (hgen.symm.trans hgen'))
  obtain ⟨hc, hp⟩ := htruth.mp hmodel
  have hvars : ∀ i ∈ cond.idents ++ precond.idents, FitsInt32 (env i.symbol) := by
    refine List.forall_mem_append.mpr ⟨fun i hi => hfits.1 _ (hcond.onVars.ident i hi).2, fun i hi => ?_⟩
    obtain ⟨e, he, hi⟩ := List.mem_flatMap.mp hi
    have he := Option.mem_toList.mp he
    exact hfits.2 e he _ ((hpre e he).onVars.ident i hi).2
  obtain ⟨w', hrun, hforced⟩ := startZ3Gen_forced walk hok (fun μ => mem_mentions_iff hcond hpre) hstore hvars hgen hsame
    hcheck
  obtain ⟨hsc, hsp⟩ := List.forall_mem_append.mp hforced.stored
  refine ⟨w', hrun, ?_, fun e he => ?_, fun i hi id hin => ?_, hforced.others⟩
  · rw [← hc]
    exact hcond.eval hsc hfits.1
  · rw [← hp e he]
    refine (hpre e he).eval (fun i hi => hsp i ?_) (hfits.2 e he)
    exact List.mem_flatMap.mpr ⟨e, Option.mem_toList.mpr he, hi⟩
  · obtain ⟨num, hnum, -⟩ := hforced.stored i hi
    cases hnum with
    | input hs hid ho =>
      rw [hforced.inputs] at hid
      obtain rfl := Option.some.inj (hin.symm.trans (World.input?_of_ref hs hid))
      exact ⟨_, ho, rfl⟩
    | var hs =>
      rw [hs] at hin
      cases hin

namespace Sample

/-- `n < 5`. -/
def belowFive : Expr Symbol := .binOp (node 1) .lt (.ident ⟨node 2, "n", inputN⟩) (.number (node 3) 5)

/-- `[P = 50, n >= 0]`. -/
def natural : PrecondNode Symbol :=
  ⟨node 4, 50, some (.binOp (node 5) .ge (.ident ⟨node 6, "n", inputN⟩) (.number (node 7) 0))⟩

end Sample

theorem startZ3Gen_takes_branch_belowFive :
    ∃ w', startZ3Gen (checkWith Sample.zeroModel) Sample.inOrder Sample.belowFive Sample.natural
        (World.start (Sample.draws 0) [Sample.inputN]) = .ok ((), w') ∧
      ∃ v, codeGenExpr Sample.belowFive = .ok v ∧ v.eval w' = .ok (.int1 true, w') := by
  have hcond : Sample.belowFive.CondOf := .inl ⟨by decide, rfl, trivial⟩
  have hpre : ∀ e ∈ Sample.natural.expr, e.CondOf := by
    intro e he
    obtain rfl := Option.some.inj he
    exact .inl ⟨by decide, rfl, trivial⟩
  have hstore : ∀ i ∈ Sample.belowFive.idents ++ Sample.natural.idents,
      (World.start (Sample.draws 0) [Sample.inputN]).ReadsInt Sample.zeroModel i.symbol 0 := by
    intro i hi
    simp only [Sample.belowFive, Sample.natural, PrecondNode.idents, Expr.idents, List.nil_append, List.append_nil,
      Option.toList_some, List.flatMap_cons, List.flatMap_nil, List.cons_append, List.mem_cons, List.not_mem_nil,
      or_false] at hi
    obtain rfl | rfl := hi <;> exact .const rfl rfl rfl
  have hfits : Sample.belowFive.Fits (fun _ => 0) ∧ ∀ e ∈ Sample.natural.expr, e.Fits fun _ => 0 := by
    refine ⟨?_, fun e he => ?_⟩
    · simp [Expr.Fits, Sample.belowFive, Expr.genNodes, Expr.intValue, BinOpType.onInts, FitsInt32]
    · obtain rfl := Option.some.inj he
      simp [Expr.Fits, Expr.genNodes, Expr.intValue, BinOpType.onInts, FitsInt32]
  obtain ⟨w', hrun, heval, -⟩ := @startZ3Gen_takes_branch _ Sample.zeroModel _ (checkWith Sample.zeroModel)
    Sample.inOrder _ _ (World.start_ok (Sample.draws 0) [Sample.inputN]) hcond hpre hstore hfits
    ⟨_, _, rfl, rfl, by decide⟩
  exact ⟨w', hrun, heval⟩

end DGen
