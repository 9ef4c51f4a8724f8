/-
Where a program orders scalars only: the comparisons of its code with `<`,
`<=`, `>` and `>=` are of integers, never of addresses.

`type_check` lets arrays and strings be ordered too. What comes of it depends
on where `malloc` has put them.
-/
import DGen.Compound
import DGen.Dominance

namespace DGen

open Memory StateT

/-! ## The expressions that code is generated for -/

/-- The expressions of a statement that `code_gen` visits, those of the statements in it apart. -/
def Stmt.codeExprs {σ : Type} : Stmt σ → List (Expr σ)
  | .asg n => [n.lhs.toExpr, n.rhs]
  | .ret n => [n.expr]
  | .def_ n => n.rhs.toList
  | s => s.branchConds

/-- The expressions an instruction was generated for. -/
def Instr.exprs : Instr → List (Expr Symbol)
  | .def_ n => n.rhs.toList
  | .asg _ n => [n.lhs.toExpr, n.rhs]
  | .condBr _ c _ _ => [c]
  | .gatherRes n => [n.expr]
  | .z3Gen _ _ | .br _ _ | .retVoid => []

theorem condCode_exprs {P : Expr Symbol → Prop} {p : Option (PrecondNode Symbol)} {site : CondSite} {c : Expr Symbol}
    {t f : Nat} (hc : P c) : ∀ i ∈ condCode p site c t f, ∀ e ∈ i.exprs, P e := by
  cases p <;> simp [condCode, Instr.exprs, hc]

theorem armEndCode_exprs {P : Expr Symbol → Prop} {b : Body Symbol} {m : Nat} :
    ∀ i ∈ armEndCode b m, ∀ e ∈ i.exprs, P e := by
  unfold armEndCode
  split <;> simp [Instr.exprs]

theorem asgCode?_exprs {P : Expr Symbol → Prop} {site : AsgSite} {a : Option (AsgNode Symbol)}
    (h : ∀ s ∈ (a.map Stmt.asg).toList, ∀ e ∈ s.codeExprs, P e) : ∀ i ∈ asgCode? site a, ∀ e ∈ i.exprs, P e := by
  cases a with
  | none => simp [asgCode?]
  | some a =>
    intro i hi
    obtain rfl := List.mem_singleton.mp hi
    exact h (.asg a) (by simp)

theorem loopEndCode_exprs {P : Expr Symbol → Prop} {l : NodeId} {inc : Option (AsgNode Symbol)} {b : Body Symbol} {k : Nat}
    (h : ∀ s ∈ (inc.map Stmt.asg).toList, ∀ e ∈ s.codeExprs, P e) :
    ∀ i ∈ loopEndCode l inc b k, ∀ e ∈ i.exprs, P e := by
  unfold loopEndCode
  split
  · simp
  · exact List.forall_mem_append.mpr ⟨asgCode?_exprs h, by simp [Instr.exprs]⟩

/-- An instruction is generated for expressions of the tree. -/
theorem emitted_exprs {P : Expr Symbol → Prop} :
    (∀ s : Stmt Symbol, ∀ g, (∀ t ∈ s.nodes, ∀ e ∈ t.codeExprs, P e) →
      ∀ i ∈ emitted (codeGenStmtOps s g), ∀ e ∈ i.exprs, P e) ∧
    ∀ b : Body Symbol, ∀ g, (∀ t ∈ Body.nodes b, ∀ e ∈ t.codeExprs, P e) →
      ∀ i ∈ emitted (codeGenBodyOps b g), ∀ e ∈ i.exprs, P e := by
  have hbr {site : BrSite} {dest : Option Nat} : ∀ e ∈ Instr.exprs (.br site dest), P e := List.forall_mem_nil _
  apply Stmt.induct
  case for_ =>
    intro node p pre c inc b ih g h
    simp only [Stmt.nodes, List.forall_mem_cons, List.forall_mem_append] at h
    obtain ⟨hc, ⟨hpre, hinc⟩, hb⟩ := h
    have hcond : P c := hc c (List.mem_singleton_self c)
    simp only [codeGenStmtOps, emitted_append, emitted_map, emitted_forHead, emitted_endBody, emitted_setInsertPoint,
      emitted_nil, List.append_nil, List.forall_mem_append, List.forall_mem_cons]
    exact ⟨asgCode?_exprs hpre, ⟨hbr, condCode_exprs hcond⟩, ih _ hb, loopEndCode_exprs hinc⟩
  case if_ =>
    intro node p c b ih g h
    simp only [Stmt.nodes, List.forall_mem_cons] at h
    have hcond : P c := h.1 c (List.mem_singleton_self c)
    simp only [codeGenStmtOps, emitted_append, emitted_map, emitted_ifHead, emitted_endBody, emitted_setInsertPoint,
      emitted_emit, emitted_nil, List.forall_mem_append, List.forall_mem_cons]
    exact ⟨condCode_exprs hcond, ih _ h.2, armEndCode_exprs, hbr, List.forall_mem_nil _⟩
  case ifElse =>
    intro node p c b e ihb ihe g h
    simp only [Stmt.nodes, List.forall_mem_cons, List.forall_mem_append] at h
    have hcond : P c := h.1 c (List.mem_singleton_self c)
    simp only [codeGenStmtOps, emitted_append, emitted_map, emitted_ifHead, emitted_endBody, emitted_setInsertPoint,
      emitted_nil, List.append_nil, List.forall_mem_append]
    exact ⟨condCode_exprs hcond, ihb _ h.2.1, armEndCode_exprs, ihe _ h.2.2, armEndCode_exprs⟩
  case cons =>
    intro s rest ihs ihr g h
    rw [Body.nodes, List.forall_mem_append] at h
    rw [codeGenBodyOps, emitted_append, List.forall_mem_append]
    exact ⟨ihs _ h.1, ihr _ h.2⟩
  case ret =>
    intro n g h i hi
    simp only [codeGenStmtOps, emitted_emit, emitted_nil, List.mem_cons, List.not_mem_nil, or_false] at hi
    obtain rfl | rfl := hi
    · exact h _ (List.mem_singleton_self _)
    · exact List.forall_mem_nil _
  case asg | def_ =>
    intro n g h i hi
    obtain rfl := List.mem_singleton.mp hi
    exact h _ (List.mem_singleton_self _)
  case cont | brk =>
    intro node l g _ i hi
    obtain rfl := List.mem_singleton.mp hi
    exact List.forall_mem_nil _
  case nil => exact fun _ _ => List.forall_mem_nil _

/-- And their identifiers are used in the scopes of their statements. -/
theorem codeExprs_uses {σ : Type} :
    (∀ s : Stmt σ, ∀ scopes, ∀ t ∈ s.nodes, ∀ e ∈ t.codeExprs, ∀ n ∈ e.idents,
      ∃ scopes', (n, scopes') ∈ s.uses scopes) ∧
    ∀ b : Body σ, ∀ scopes, ∀ t ∈ Body.nodes b, ∀ e ∈ t.codeExprs, ∀ n ∈ e.idents,
      ∃ scopes', (n, scopes') ∈ Body.uses scopes b := by
  have hasg {a : Option (AsgNode σ)} {t : Stmt σ} {e : Expr σ} {n : IdentNode σ} (ht : t ∈ (a.map Stmt.asg).toList)
      (he : e ∈ t.codeExprs) (hn : n ∈ e.idents) : n ∈ a.toList.flatMap AsgNode.idents := by
    cases a with
    | none => cases ht
    | some a =>
      obtain rfl := List.mem_singleton.mp ht
      simp only [Stmt.codeExprs, List.mem_cons, List.not_mem_nil, or_false] at he
      simp only [Option.toList_some, List.flatMap_singleton, AsgNode.idents, LValue.idents, List.mem_append]
      obtain rfl | rfl := he
      · exact .inl hn
      · exact .inr hn
  apply Stmt.induct
  case for_ =>
    intro node p pre c inc b ih scopes t ht e he n hn
    simp only [Stmt.nodes, List.mem_cons, List.mem_append] at ht
    simp only [Stmt.uses, List.mem_append, List.mem_map, Prod.mk.injEq]
    obtain rfl | (ht | ht) | ht := ht
    · obtain rfl := List.mem_singleton.mp he
      exact ⟨scopes, .inl ⟨n, .inr (.inr (.inl hn)), rfl, rfl⟩⟩
    · exact ⟨scopes, .inl ⟨n, .inr (.inl (hasg ht he hn)), rfl, rfl⟩⟩
    · exact ⟨scopes, .inl ⟨n, .inr (.inr (.inr (hasg ht he hn))), rfl, rfl⟩⟩
    · obtain ⟨scopes', h⟩ := ih ([] :: scopes) t ht e he n hn
      exact ⟨scopes', .inr h⟩
  case if_ =>
    intro node p c b ih scopes t ht e he n hn
    obtain rfl | ht := List.mem_cons.mp ht
    · obtain rfl := List.mem_singleton.mp he
      exact ⟨scopes, List.mem_append_left _ (List.mem_map_of_mem (List.mem_append_right _ hn))⟩
    · obtain ⟨scopes', h⟩ := ih ([] :: scopes) t ht e he n hn
      exact ⟨scopes', List.mem_append_right _ h⟩
  case ifElse =>
    intro node p c b e ihb ihe scopes t ht x hx n hn
    simp only [Stmt.nodes, List.mem_cons, List.mem_append] at ht
    obtain rfl | ht | ht := ht
    · obtain rfl := List.mem_singleton.mp hx
      exact ⟨scopes, List.mem_append_left _ (List.mem_map_of_mem (List.mem_append_right _ hn))⟩
    · obtain ⟨scopes', h⟩ := ihb ([] :: scopes) t ht x hx n hn
      exact ⟨scopes', List.mem_append_right _ (List.mem_append_left _ h)⟩
    · obtain ⟨scopes', h⟩ := ihe ([] :: scopes) t ht x hx n hn
      exact ⟨scopes', List.mem_append_right _ (List.mem_append_right _ h)⟩
  case cons =>
    intro s rest ihs ihr scopes t ht e he n hn
    obtain ht | ht := List.mem_append.mp ht
    · obtain ⟨scopes', h⟩ := ihs scopes t ht e he n hn
      exact ⟨scopes', List.mem_append_left _ h⟩
    · obtain ⟨scopes', h⟩ := ihr _ t ht e he n hn
      exact ⟨scopes', List.mem_append_right _ h⟩
  case asg =>
    intro a scopes t ht e he n hn
    have hmem := hasg (a := some a) ht he hn
    rw [Option.toList_some, List.flatMap_singleton] at hmem
    exact ⟨scopes, List.mem_map_of_mem hmem⟩
  case ret =>
    intro r scopes t ht e he n hn
    obtain rfl := List.mem_singleton.mp ht
    obtain rfl := List.mem_singleton.mp he
    exact ⟨scopes, List.mem_map_of_mem hn⟩
  case def_ =>
    intro d scopes t ht e he n hn
    obtain rfl := List.mem_singleton.mp ht
    exact ⟨_, List.mem_map_of_mem (List.mem_flatMap.mpr ⟨e, he, hn⟩)⟩
  case cont | brk =>
    intro node l scopes t ht e he
    obtain rfl := List.mem_singleton.mp ht
    cases he
  case nil => exact fun scopes t ht => by cases ht

/-- The inputs an accepted function names are those of their places. -/
theorem FunctionNode.accept_codeExprs {f : FunctionNode Unit} {g : FunctionNode Symbol} {inputs : List Symbol}
    (h : f.accept = .ok (g, inputs)) {s : Stmt Symbol} (hs : s ∈ Body.nodes g.body) {e : Expr Symbol}
    (he : e ∈ s.codeExprs) : ∀ n ∈ e.idents, n.Resolved inputs := by
  obtain ⟨f₁, f₂, -, h₂, -, rfl⟩ := accept_ok h
  intro n hn hin
  obtain ⟨scopes, huse⟩ := codeExprs_uses.2 _ [[]] s hs e he n hn
  obtain hinput | ⟨k, d, -, hsym⟩ := binding_cases h₂ ((uses_eliminate.2 f₂.body [[]]).subset huse)
  · exact hinput
  · rw [hsym] at hin
    cases hin

/-! ## Ordering scalars -/

/-- `<`, `<=`, `>` and `>=`. -/
def orderOps : List BinOpType := [.lt, .le, .gt, .ge]

/-- Only scalars are ordered. -/
def Expr.OrdersScalars : Expr Symbol → Prop
  | .binOp _ op lhs rhs => op ∈ orderOps → lhs.Scalar ∧ rhs.Scalar
  | _ => True

instance : DecidablePred Expr.OrdersScalars
  | .binOp _ op lhs rhs => inferInstanceAs (Decidable (op ∈ orderOps → lhs.typeIs Ty.isScalar = true ∧
      rhs.typeIs Ty.isScalar = true))
  | .bool _ _ | .number _ _ | .string _ _ | .char _ _ | .ident _ | .arrLookup _ _ _ | .arrCreate _ _ _
  | .propertyLookup _ _ _ => .isTrue trivial

def FunctionNode.OrdersScalars (g : FunctionNode Symbol) : Prop :=
  ∀ s ∈ Body.nodes g.body, ∀ e ∈ s.codeExprs, ∀ x ∈ e.nodes, x.OrdersScalars

instance (g : FunctionNode Symbol) : Decidable g.OrdersScalars := inferInstanceAs (Decidable (∀ s ∈ _, _))

def IcmpPred.orders : IcmpPred → Bool
  | .slt | .sle | .sgt | .sge => true
  | .eq | .ne => false

/-- What it evaluates to is no address. -/
def LVal.Number (inputs : List Symbol) (v : LVal) : Prop :=
  ∀ ⦃w a w'⦄, v.eval w = .ok (a, w') → w.Whole inputs → ∀ p, a ≠ .ptr p

mutual
/-- Only numbers are ordered by it. -/
def LVal.OrdersNumbers (inputs : List Symbol) : LVal → Prop
  | .bin _ lhs rhs => lhs.OrdersNumbers inputs ∧ rhs.OrdersNumbers inputs
  | .icmp pred lhs rhs =>
    (pred.orders = true → lhs.Number inputs) ∧ lhs.OrdersNumbers inputs ∧ rhs.OrdersNumbers inputs
  | .load _ addr => addr.OrdersNumbers inputs
  | .gep _ addr idx => addr.OrdersNumbers inputs ∧ idx.OrdersNumbers inputs
  | .intCast v _ => v.OrdersNumbers inputs
  | .getValArr _ idxs _ => LVal.OrdersNumbersIdxs inputs idxs
  | .getPropertyLocal _ data => data.OrdersNumbers inputs
  | .createArr _ len _ => len.OrdersNumbers inputs
  | _ => True

def LVal.OrdersNumbersIdxs (inputs : List Symbol) : List LVal → Prop
  | [] => True
  | v :: vs => v.OrdersNumbers inputs ∧ LVal.OrdersNumbersIdxs inputs vs
end

section

variable {inputs : List Symbol}

/-- A value that is loaded has the type it is loaded with. -/
theorem LVal.Number.load {ty : LTy} {addr : LVal} (hty : ty.chunk ≠ some .ptr) : (LVal.load ty addr).Number inputs := by
  intro w a w' h _ p
  rintro rfl
  obtain ⟨_, _, -, h⟩ := bind_ok_iff.mp h
  obtain ⟨_, _, -, h⟩ := bind_ok_iff.mp h
  obtain ⟨c, _, hc, h⟩ := bind_ok_iff.mp h
  obtain ⟨hchunk, rfl⟩ := ofOption_ok_iff.mp hc
  have hptr : Chunk.ptr = c := Mem.chunk_of_load (loadMem_ok_iff.mp h).1
  exact hty (hptr ▸ hchunk)

theorem DeclTy.chunk_of_isScalar {d : DeclTy} (h : d.toTy.isScalar = true) : d.llvm.chunk ≠ some .ptr := by
  obtain ⟨s, hs, rfl⟩ := DeclTy.isScalar_iff.mp h
  cases s with
  | string => exact absurd rfl hs
  | _ => exact nofun

/-- What is generated for a scalar symbol is no address. -/
theorem fillVal_number {copyArr : SymId → M Ptr} {sym : SymId} {t : DeclTy} {w w' : World} {v : Val}
    (h : fillVal copyArr sym w = .ok (v, w')) (ht : t.toTy.isScalar = true) (hsym : w.Has t sym) (p : Ptr) : v ≠ .ptr p := by
  rintro rfl
  obtain ⟨⟨name, val⟩, ho, hcls⟩ := hsym
  rw [fillVal, bind_of_ok (getSym_ok_iff.mpr ⟨ho, rfl⟩)] at h
  obtain ⟨s, hs, rfl⟩ := DeclTy.isScalar_iff.mp ht
  cases val with
  | array =>
    cases s with
    | string => exact absurd rfl hs
    | _ => cases hcls
  | _ =>
    obtain ⟨_, _, -, h⟩ := bind_ok_iff.mp h
    cases (pure_ok_iff.mp h).1

/-- The code of a scalar is a number's. -/
theorem codeGenExpr_number {e : Expr Symbol} {v : LVal} (h : codeGenExpr e = .ok v)
    (hres : ∀ n ∈ e.idents, n.Resolved inputs) (hs : e.Scalar) : v.Number inputs := by
  cases e with
  | char | number | bool =>
    obtain rfl := Except.ok.inj h
    rintro w a w' h - p rfl
    cases (pure_ok_iff.mp h).1
  | string =>
    have hscalar : (DeclTy.mk .string 0).toTy.isScalar = true := hs
    cases hscalar
  | arrCreate node elem len =>
    have hscalar : elem.insertArr.toTy.isScalar = true := hs
    obtain ⟨s, -, hty⟩ := DeclTy.isScalar_iff.mp hscalar
    cases hty
  | binOp node op lhs rhs =>
    simp only [codeGenExpr, Except.bind_ok_iff, Except.pure_ok_iff] at h
    obtain ⟨l, -, r, -, rfl⟩ := h
    intro w a w' hrun _
    cases op <;> rw [BinOpType.inst] at hrun
    case sum | sub | mul | div | or | and =>
      obtain ⟨_, _, -, hrun⟩ := bind_ok_iff.mp hrun
      obtain ⟨_, _, -, hrun⟩ := bind_ok_iff.mp hrun
      exact BinInst.eval_int (ofOption_ok_iff.mp hrun).1
    all_goals
      obtain ⟨_, _, _, -, -, hv⟩ := LVal.icmp_ok_iff.mp hrun
      exact IcmpPred.eval_int hv
  | ident n =>
    have hty : n.symbol.type.toTy.isScalar = true := hs
    rw [codeGenExpr, codeGenIdent] at h
    split at h
    next hin =>
      obtain ⟨ret, -, h⟩ := Except.bind_ok_iff.mp h
      obtain rfl := Except.pure_ok_iff.mp h
      intro w a w' hrun hw
      obtain ⟨id, hid, hhas⟩ := hw.inputId (hres n (List.mem_singleton_self n)) hin
      rw [LVal.eval, DGen.randGen, bind_of_ok hid] at hrun
      exact fillVal_number hrun hty hhas
    next =>
      obtain rfl := Except.ok.inj (n.symbol.loadAlloca_eq.symm.trans h)
      exact .load (DeclTy.chunk_of_isScalar hty)
  | arrLookup node n idxs =>
    obtain ⟨t, ht, hscalar⟩ := Expr.typeIs_iff.mp hs
    obtain ⟨-, d, hd, heq⟩ := getType_arrLookup_ok_iff.mp ht
    rw [Ty.isScalar_congr heq] at hscalar
    rw [codeGenExpr] at h
    split at h
    next hin =>
      obtain ⟨vs, hvs, h⟩ := Except.bind_ok_iff.mp h
      obtain ⟨dest, -, h⟩ := Except.bind_ok_iff.mp h
      obtain rfl := Except.pure_ok_iff.mp h
      intro w a w' hrun hw
      obtain ⟨id, hid, hhas⟩ := hw.inputId (hres n List.mem_cons_self) hin
      rw [LVal.eval, bind_of_ok hid] at hrun
      obtain ⟨is, w₁, his, hrun⟩ := bind_ok_iff.mp hrun
      obtain ⟨sub, w₂, hsub, hrun⟩ := bind_ok_iff.mp hrun
      have hs₁ := (LVal.evalIdxs_generates vs his hw.ok).1
      have hw₁ := hw.steps hs₁
      have hs₂ := (getSymbolByIdxs_generates hsub hw₁.ok).1
      obtain ⟨-, hat⟩ := getSymbolByIdxs_sizing hsub hw₁.ok
      have hhas' := (hs₂.later hw₁.ok).has ((hs₁.later hw.ok).has hhas)
      obtain ⟨d', hd', hsub'⟩ := (hw₁.steps hs₂).has_symAt hhas' hat
      rw [evalIdxs_length his, codeGenExprs_length hvs] at hd'
      cases hd.symm.trans hd'
      exact fillVal_number hrun hscalar hsub'
    next =>
      rw [ht] at h
      simp only [Except.bind_ok_iff, Except.pure_ok_iff, Except.mapError, Except.ok.injEq, exists_eq_left',
        mapTypeToLlvmType_of_eq heq] at h
      obtain ⟨_, -, addr, -, rfl⟩ := h
      exact .load (DeclTy.chunk_of_isScalar hscalar)
  | propertyLookup node n p =>
    rw [codeGenExpr, codeGenProperty] at h
    split at h
    · obtain rfl := Except.pure_ok_iff.mp h
      rintro w a w' hrun - p rfl
      obtain ⟨_, _, -, hrun⟩ := bind_ok_iff.mp hrun
      obtain ⟨_, _, -, hrun⟩ := bind_ok_iff.mp hrun
      cases (pure_ok_iff.mp hrun).1
    · obtain ⟨data, -, h⟩ := Except.bind_ok_iff.mp h
      obtain rfl := Except.pure_ok_iff.mp h
      rintro w a w' hrun - p rfl
      obtain ⟨_, _, -, hrun⟩ := bind_ok_iff.mp hrun
      obtain ⟨_, _, -, hrun⟩ := bind_ok_iff.mp hrun
      obtain ⟨_, _, -, hrun⟩ := bind_ok_iff.mp hrun
      cases (pure_ok_iff.mp hrun).1

/-! ## Its code orders numbers -/

theorem getLookupAddress_orders {es : List (Expr Symbol)} : ∀ {addr a : LVal}, getLookupAddress addr es = .ok a →
    addr.OrdersNumbers inputs → (∀ e ∈ es, ∀ {v}, codeGenExpr e = .ok v → v.OrdersNumbers inputs) →
    a.OrdersNumbers inputs := by
  induction es with
  | nil =>
    intro addr a h haddr _
    obtain rfl := Except.ok.inj h
    exact haddr
  | cons e es ih =>
    intro addr a h haddr hidx
    simp only [getLookupAddress, Except.bind_ok_iff] at h
    obtain ⟨t, -, elem, -, v, hv, h⟩ := h
    simp only [List.forall_mem_cons] at hidx
    have hptr : (LVal.load t addr).OrdersNumbers inputs := haddr
    exact ih h ⟨hptr, hidx.1 hv⟩ hidx.2

theorem codeGenExprs_orders {es : List (Expr Symbol)} : ∀ {vs : List LVal}, codeGenExprs es = .ok vs →
    (∀ e ∈ es, ∀ {v}, codeGenExpr e = .ok v → v.OrdersNumbers inputs) → LVal.OrdersNumbersIdxs inputs vs := by
  induction es with
  | nil =>
    intro vs h _
    obtain rfl := Except.ok.inj h
    trivial
  | cons e es ih =>
    intro vs h hes
    simp only [codeGenExprs, Except.bind_ok_iff, Except.pure_ok_iff] at h
    obtain ⟨v, hv, vs', hvs, rfl⟩ := h
    simp only [List.forall_mem_cons] at hes
    exact ⟨hes.1 hv, ih hvs hes.2⟩

theorem Symbol.createAlloca_orders {s : Symbol} {a : LVal} (h : s.createAlloca = .ok a) : a.OrdersNumbers inputs := by
  obtain rfl := Except.ok.inj (s.createAlloca_eq.symm.trans h)
  trivial

theorem Symbol.loadAlloca_orders {s : Symbol} {v : LVal} (h : s.loadAlloca = .ok v) : v.OrdersNumbers inputs := by
  obtain rfl := Except.ok.inj (s.loadAlloca_eq.symm.trans h)
  trivial

/-- **Where an expression orders scalars only, its code orders numbers only.** -/
theorem codeGenExpr_orders (e : Expr Symbol) : ∀ {v}, codeGenExpr e = .ok v → (∀ n ∈ e.idents, n.Resolved inputs) →
    (∀ x ∈ e.nodes, x.OrdersScalars) → v.OrdersNumbers inputs := by
  induction e with
  | char | number | bool | string =>
    intro v h _ _
    obtain rfl := Except.ok.inj h
    trivial
  | arrCreate node elem len ih =>
    intro v h hres hs
    simp only [codeGenExpr, Except.bind_ok_iff, Except.pure_ok_iff] at h
    obtain ⟨_, -, _, -, l, hl, rfl⟩ := h
    have hlen : l.OrdersNumbers inputs := ih hl hres (List.forall_mem_cons.mp hs).2
    exact hlen
  | ident n =>
    intro v h _ _
    rw [codeGenExpr, codeGenIdent] at h
    split at h
    · obtain ⟨ret, -, h⟩ := Except.bind_ok_iff.mp h
      obtain rfl := Except.pure_ok_iff.mp h
      trivial
    · exact Symbol.loadAlloca_orders h
  | binOp node op lhs rhs ihl ihr =>
    intro v h hres hs
    simp only [codeGenExpr, Except.bind_ok_iff, Except.pure_ok_iff] at h
    obtain ⟨l, hl, r, hr, rfl⟩ := h
    simp only [Expr.idents, Expr.nodes, List.forall_mem_append, List.forall_mem_cons] at hres hs
    have hl' := ihl hl hres.1 hs.2.1
    have hr' := ihr hr hres.2 hs.2.2
    have hnum (hop : op ∈ orderOps) : l.Number inputs := codeGenExpr_number hl hres.1 (hs.1 hop).1
    cases op with
    | lt | le | gt | ge => exact ⟨fun _ => hnum (by decide), hl', hr'⟩
    | eq | neq => exact ⟨fun hop => absurd hop (by decide), hl', hr'⟩
    | _ => exact ⟨hl', hr'⟩
  | arrLookup node n idxs ih =>
    intro v h hres hs
    simp only [Expr.idents, Expr.nodes, List.forall_mem_cons, Expr.forall_mem_identsList,
      Expr.forall_mem_nodesList] at hres hs
    have hidxs : ∀ e ∈ idxs, ∀ {v}, codeGenExpr e = .ok v → v.OrdersNumbers inputs :=
      fun e he _ hv => ih e he hv (hres.2 e he) (hs.2 e he)
    rw [codeGenExpr] at h
    split at h
    · obtain ⟨vs, hvs, h⟩ := Except.bind_ok_iff.mp h
      obtain ⟨dest, -, h⟩ := Except.bind_ok_iff.mp h
      obtain rfl := Except.pure_ok_iff.mp h
      exact codeGenExprs_orders hvs hidxs
    · simp only [Except.bind_ok_iff, Except.pure_ok_iff] at h
      obtain ⟨t, -, a, ha, addr, haddr, ty, -, rfl⟩ := h
      have haddr' : addr.OrdersNumbers inputs := getLookupAddress_orders haddr (Symbol.createAlloca_orders ha) hidxs
      exact haddr'
  | propertyLookup node n p =>
    intro v h _ _
    rw [codeGenExpr, codeGenProperty] at h
    split at h
    · obtain rfl := Except.pure_ok_iff.mp h
      trivial
    · obtain ⟨data, hdata, h⟩ := Except.bind_ok_iff.mp h
      obtain rfl := Except.pure_ok_iff.mp h
      have hdata' : data.OrdersNumbers inputs := Symbol.loadAlloca_orders hdata
      exact hdata'

/-- Both operands of a store do. -/
def LStore.OrdersNumbers (inputs : List Symbol) (st : LStore) : Prop :=
  st.addr.OrdersNumbers inputs ∧ st.val.OrdersNumbers inputs

/-- An instruction of a function whose inputs are these, which orders scalars only. -/
structure Instr.Orders (inputs : List Symbol) (i : Instr) : Prop where
  resolved : ∀ e ∈ i.exprs, ∀ n ∈ e.idents, n.Resolved inputs
  scalars : ∀ e ∈ i.exprs, ∀ x ∈ e.nodes, x.OrdersScalars

theorem Instr.Orders.codeGen {i : Instr} (h : i.Orders inputs) {e : Expr Symbol} (he : e ∈ i.exprs) {v : LVal}
    (hv : codeGenExpr e = .ok v) : v.OrdersNumbers inputs :=
  codeGenExpr_orders e hv (h.resolved e he) (h.scalars e he)

theorem getAddress_orders {l : LValue Symbol} {a : LVal} (h : getAddress l = .ok a)
    (hres : ∀ n ∈ l.toExpr.idents, n.Resolved inputs) (hs : ∀ x ∈ l.toExpr.nodes, x.OrdersScalars) :
    a.OrdersNumbers inputs := by
  cases l with
  | ident n => exact Symbol.createAlloca_orders h
  | arrLookup node n idxs =>
    obtain ⟨a₀, ha₀, h⟩ := Except.bind_ok_iff.mp h
    simp only [LValue.toExpr, Expr.idents, Expr.nodes, List.forall_mem_cons, Expr.forall_mem_identsList,
      Expr.forall_mem_nodesList] at hres hs
    exact getLookupAddress_orders h (Symbol.createAlloca_orders ha₀) fun e he _ hv =>
      codeGenExpr_orders e hv (hres.2 e he) (hs.2 e he)

theorem convertValIfConvertible_orders {v u : LVal} {srcT destT : Ty}
    (h : convertValIfConvertible v srcT destT = .ok u) (hv : v.OrdersNumbers inputs) : u.OrdersNumbers inputs := by
  unfold convertValIfConvertible at h
  split at h
  · obtain ⟨t, -, h⟩ := Except.bind_ok_iff.mp h
    obtain rfl := Except.pure_ok_iff.mp h
    unfold createIntCast
    split <;> exact hv
  · obtain rfl := Except.pure_ok_iff.mp h
    exact hv

theorem codeGenDefStore_orders {n : DefNode Symbol} {sts : List LStore} (h : codeGenDefStore n = .ok sts)
    (hi : (Instr.def_ n).Orders inputs) : ∀ st ∈ sts, st.OrdersNumbers inputs := by
  obtain ⟨alloca, ha, h⟩ := Except.bind_ok_iff.mp h
  split at h
  next =>
    obtain rfl := Except.pure_ok_iff.mp h
    exact List.forall_mem_nil _
  next rhs hrhs =>
    simp only [Except.bind_ok_iff, Except.pure_ok_iff] at h
    obtain ⟨v, hv, _, -, u, hu, rfl⟩ := h
    have hmem : rhs ∈ (Instr.def_ n).exprs := Option.mem_toList.mpr hrhs
    exact List.forall_mem_singleton.mpr
      ⟨Symbol.createAlloca_orders ha, convertValIfConvertible_orders hu (hi.codeGen hmem hv)⟩

theorem codeGenAsgStore_orders {site : AsgSite} {n : AsgNode Symbol} {sts : List LStore}
    (h : codeGenAsgStore n = .ok sts) (hi : (Instr.asg site n).Orders inputs) : ∀ st ∈ sts, st.OrdersNumbers inputs := by
  simp only [codeGenAsgStore, Except.bind_ok_iff, Except.pure_ok_iff] at h
  obtain ⟨addr, haddr, v, hv, _, -, _, -, u, hu, rfl⟩ := h
  have hlhs : n.lhs.toExpr ∈ (Instr.asg site n).exprs := List.mem_cons_self
  have hrhs : n.rhs ∈ (Instr.asg site n).exprs := List.mem_cons_of_mem _ List.mem_cons_self
  exact List.forall_mem_singleton.mpr ⟨getAddress_orders haddr (hi.resolved _ hlhs) (hi.scalars _ hlhs),
    convertValIfConvertible_orders hu (hi.codeGen hrhs hv)⟩

theorem codeGenRetStore_orders {retType : DeclTy} {n : ReturnNode Symbol} {sts : List LStore}
    (h : codeGenRetStore retType n = .ok sts) (hi : (Instr.gatherRes n).Orders inputs) :
    ∀ st ∈ sts, st.OrdersNumbers inputs := by
  simp only [codeGenRetStore, Except.bind_ok_iff, Except.pure_ok_iff] at h
  obtain ⟨_, -, v, hv, rfl⟩ := h
  exact List.forall_mem_singleton.mpr ⟨trivial, hi.codeGen List.mem_cons_self hv⟩

/-- **So do the instructions of an accepted function** that orders scalars only. -/
theorem codeGen_orders {f : FunctionNode Unit} {g : FunctionNode Symbol} (haccept : f.accept = .ok (g, inputs))
    (hs : g.OrdersScalars) {k : Nat} {i : Instr} (hi : i ∈ (codeGen g).code k) : i.Orders inputs := by
  have hi' : i ∈ emitted (codeGenBodyOps g.body Gen.start) := by simpa [codeGenOps] using emitted_of_code hi
  exact ⟨emitted_exprs.2 _ _ (fun _ hs' _ he => FunctionNode.accept_codeExprs haccept hs' he) i hi',
    emitted_exprs.2 _ _ (fun s hs' e he => hs s hs' e he) i hi'⟩

end

end DGen
