/-
Name resolution is lexical scoping.

`Body.uses` gives every identifier of a body with what is in scope there:
for each body around it, innermost first, the definitions directly in that
body that come before it in traversal order. Nothing of it mentions symbol
tables; `type_ast` agrees with it (`typeAst_lexical`).
-/
import DGen.Semantics

namespace DGen

variable {σ : Type}

/-! ## Identifiers -/

mutual
/-- The identifiers of an expression, in the order of `children`. -/
def Expr.idents : Expr σ → List (IdentNode σ)
  | .ident i => [i]
  | .binOp _ _ lhs rhs => lhs.idents ++ rhs.idents
  | .arrLookup _ i idxs => i :: Expr.identsList idxs
  | .arrCreate _ _ len => len.idents
  | .propertyLookup _ i _ => [i]
  | _ => []

def Expr.identsList : List (Expr σ) → List (IdentNode σ)
  | [] => []
  | e :: es => e.idents ++ Expr.identsList es
end

def LValue.idents (l : LValue σ) : List (IdentNode σ) := l.toExpr.idents

def AsgNode.idents (n : AsgNode σ) : List (IdentNode σ) := n.lhs.idents ++ n.rhs.idents

def PrecondNode.idents (p : PrecondNode σ) : List (IdentNode σ) := p.expr.toList.flatMap Expr.idents

/-- The definitions in scope: a list for each enclosing body, innermost
first, and in each the last definition first. -/
abbrev Scopes (σ : Type) := List (List (DefNode σ))

def Scopes.declare (d : DefNode σ) : Scopes σ → Scopes σ
  | [] => [[d]]
  | scope :: outer => (d :: scope) :: outer

/-- What a statement leaves in scope for those behind it. -/
def Stmt.declare (scopes : Scopes σ) : Stmt σ → Scopes σ
  | .def_ d => scopes.declare d
  | _ => scopes

mutual
def Stmt.uses (scopes : Scopes σ) : Stmt σ → List (IdentNode σ × Scopes σ)
  | .asg n => n.idents.map (·, scopes)
  | .ret n => n.expr.idents.map (·, scopes)
  | .def_ d => (d.rhs.toList.flatMap Expr.idents).map (·, scopes.declare d)
  | .cont _ _ | .brk _ _ => []
  | .for_ _ precond preAsg cond incAsg body =>
    (precond.toList.flatMap PrecondNode.idents ++ (preAsg.toList.flatMap AsgNode.idents ++ (cond.idents ++
      incAsg.toList.flatMap AsgNode.idents))).map (·, scopes) ++ Body.uses ([] :: scopes) body
  | .if_ _ precond cond body =>
    (precond.toList.flatMap PrecondNode.idents ++ cond.idents).map (·, scopes) ++ Body.uses ([] :: scopes) body
  | .ifElse _ precond cond body elseBody =>
    (precond.toList.flatMap PrecondNode.idents ++ cond.idents).map (·, scopes) ++
      (Body.uses ([] :: scopes) body ++ Body.uses ([] :: scopes) elseBody)

/-- Every identifier of a body, with the definitions in scope. -/
def Body.uses (scopes : Scopes σ) : Body σ → List (IdentNode σ × Scopes σ)
  | [] => []
  | s :: rest => s.uses scopes ++ Body.uses (Stmt.declare scopes s) rest
end

/-- The last definition of the name in the innermost body that has one. -/
def Scopes.visible (scopes : Scopes σ) (name : String) : Option (DefNode σ) :=
  scopes.findSome? fun scope => scope.find? (·.name == name)

/-- A name is declared by a visible definition, or by a parameter. -/
def Declared (args : List (DefNode Unit)) (scopes : Scopes Unit) (name : String) : Prop :=
  (scopes.visible name).isSome = true ∨ ∃ arg ∈ args, arg.name = name

/-- The input of the parameter of a name, of the last if there are several. -/
def paramSymbol (args : List (DefNode Unit)) (name : String) : Option Symbol :=
  (inputSymbols args).reverse.find? (·.name == name)

/-- What lexical scoping binds a name to. -/
def Scopes.binding (args : List (DefNode Unit)) (scopes : Scopes Symbol) (name : String) : Option Symbol :=
  ((scopes.visible name).map (·.sym)).or (paramSymbol args name)

mutual
/-- The definitions of a statement or a body and of those in it, in traversal order. -/
def Stmt.defs : Stmt σ → List (DefNode σ)
  | .def_ d => [d]
  | .for_ _ _ _ _ _ body | .if_ _ _ _ body => Body.defs body
  | .ifElse _ _ _ body elseBody => Body.defs body ++ Body.defs elseBody
  | _ => []

def Body.defs : Body σ → List (DefNode σ)
  | [] => []
  | s :: rest => s.defs ++ Body.defs rest
end

/-! ## Trees without their symbols -/

def IdentNode.forget (i : IdentNode σ) : IdentNode Unit := { i with symbol := () }

mutual
def Expr.forget : Expr σ → Expr Unit
  | .char node ch => .char node ch
  | .string node str => .string node str
  | .number node num => .number node num
  | .bool node val => .bool node val
  | .ident i => .ident i.forget
  | .binOp node op lhs rhs => .binOp node op lhs.forget rhs.forget
  | .arrLookup node i idxs => .arrLookup node i.forget (Expr.forgetList idxs)
  | .arrCreate node elem len => .arrCreate node elem len.forget
  | .propertyLookup node i propertyName => .propertyLookup node i.forget propertyName

def Expr.forgetList : List (Expr σ) → List (Expr Unit)
  | [] => []
  | e :: es => e.forget :: Expr.forgetList es
end

def PrecondNode.forget (p : PrecondNode σ) : PrecondNode Unit :=
  { node := p.node, prob := p.prob, expr := p.expr.map Expr.forget }

def LValue.forget : LValue σ → LValue Unit
  | .ident i => .ident i.forget
  | .arrLookup node i idxs => .arrLookup node i.forget (Expr.forgetList idxs)

def AsgNode.forget (n : AsgNode σ) : AsgNode Unit :=
  { node := n.node, lhs := n.lhs.forget, rhs := n.rhs.forget }

def DefNode.forget (d : DefNode σ) : DefNode Unit :=
  { node := d.node, name := d.name, type := d.type, rhs := d.rhs.map Expr.forget, sym := () }

mutual
def Stmt.forget : Stmt σ → Stmt Unit
  | .asg n => .asg n.forget
  | .ret n => .ret { node := n.node, expr := n.expr.forget }
  | .def_ d => .def_ d.forget
  | .cont node loop => .cont node loop
  | .brk node loop => .brk node loop
  | .for_ node precond preAsg cond incAsg body =>
    .for_ node (precond.map PrecondNode.forget) (preAsg.map AsgNode.forget) cond.forget
      (incAsg.map AsgNode.forget) (Body.forget body)
  | .if_ node precond cond body => .if_ node (precond.map PrecondNode.forget) cond.forget (Body.forget body)
  | .ifElse node precond cond body elseBody =>
    .ifElse node (precond.map PrecondNode.forget) cond.forget (Body.forget body) (Body.forget elseBody)

def Body.forget : Body σ → Body Unit
  | [] => []
  | s :: rest => s.forget :: Body.forget rest
end

def Scopes.forget (scopes : Scopes σ) : Scopes Unit := scopes.map (·.map DefNode.forget)

theorem Scopes.visible_forget (scopes : Scopes σ) (name : String) :
    scopes.forget.visible name = (scopes.visible name).map DefNode.forget := by
  induction scopes with
  | nil => rfl
  | cons scope outer ih =>
    have hfind : (scope.map DefNode.forget).find? (·.name == name) =
        (scope.find? (·.name == name)).map DefNode.forget := List.find?_map ..
    simp only [visible, forget, List.map_cons, List.findSome?_cons, hfind] at ih ⊢
    cases scope.find? (·.name == name) with
    | some d => rfl
    | none => exact ih

theorem Scopes.declare_forget (scopes : Scopes σ) (d : DefNode σ) :
    (scopes.declare d).forget = scopes.forget.declare d.forget := by cases scopes <;> rfl

theorem Stmt.declare_forget (scopes : Scopes σ) (s : Stmt σ) :
    (Stmt.declare scopes s).forget = Stmt.declare scopes.forget s.forget := by
  cases s with
  | def_ d => exact scopes.declare_forget d
  | _ => rfl

/-! ## Resolution of the parts of a statement -/

/-- The identifiers are bound as the table says. -/
def SymbolTable.Binds (table : SymbolTable) (is : List (IdentNode Symbol)) : Prop :=
  ∀ i ∈ is, table.findSymbol i.name = some i.symbol

/-- The table has a symbol for each of the identifiers. -/
def SymbolTable.Finds (table : SymbolTable) (is : List (IdentNode Unit)) : Prop :=
  ∀ i ∈ is, (table.findSymbol i.name).isSome = true

section Parts
variable {table : SymbolTable}

@[simp] theorem SymbolTable.binds_nil : table.Binds [] := fun _ h => nomatch h
@[simp] theorem SymbolTable.finds_nil : table.Finds [] := fun _ h => nomatch h

@[simp] theorem SymbolTable.binds_cons {i : IdentNode Symbol} {is : List (IdentNode Symbol)} :
    table.Binds (i :: is) ↔ table.findSymbol i.name = some i.symbol ∧ table.Binds is := List.forall_mem_cons

@[simp] theorem SymbolTable.finds_cons {i : IdentNode Unit} {is : List (IdentNode Unit)} :
    table.Finds (i :: is) ↔ (table.findSymbol i.name).isSome = true ∧ table.Finds is := List.forall_mem_cons

@[simp] theorem SymbolTable.binds_append {is js : List (IdentNode Symbol)} :
    table.Binds (is ++ js) ↔ table.Binds is ∧ table.Binds js := List.forall_mem_append

@[simp] theorem SymbolTable.finds_append {is js : List (IdentNode Unit)} :
    table.Finds (is ++ js) ↔ table.Finds is ∧ table.Finds js := List.forall_mem_append

theorem typeVisitorIdent_okWhen (i : IdentNode Unit) :
    (typeVisitorIdent table i).OkWhen (table.Finds [i]) fun i' => i'.forget = i ∧ table.Binds [i'] := by
  unfold typeVisitorIdent
  cases hs : table.findSymbol i.name with
  | none => exact ⟨by simp [buildError, hs], fun h => by simp [buildError] at h⟩
  | some s => exact (Except.OkWhen.pure ⟨rfl, by simp [hs]⟩).congr (by simp [hs])

theorem typeVisitorExprs_okWhen {es : List (Expr Unit)}
    (ih : ∀ e ∈ es, (typeVisitorExpr table e).OkWhen (table.Finds e.idents)
      fun e' => e'.forget = e ∧ table.Binds e'.idents) :
    (typeVisitorExprs table es).OkWhen (table.Finds (Expr.identsList es))
      fun es' => Expr.forgetList es' = es ∧ table.Binds (Expr.identsList es') := by
  induction es with
  | nil => exact (Except.OkWhen.pure ⟨rfl, by simp [Expr.identsList]⟩).congr (by simp [Expr.identsList])
  | cons e es ihes =>
    simp only [List.forall_mem_cons] at ih
    rw [typeVisitorExprs]
    refine (ih.1.bind fun he => (ihes ih.2).bind fun hes => .pure ?_).congr (by simp [Expr.identsList])
    exact ⟨by simp [Expr.forgetList, he.1, hes.1], by simp [Expr.identsList, he.2, hes.2]⟩

theorem typeVisitorExpr_okWhen (e : Expr Unit) : (typeVisitorExpr table e).OkWhen (table.Finds e.idents)
    fun e' => e'.forget = e ∧ table.Binds e'.idents := by
  induction e with
  | ident i =>
    refine ((typeVisitorIdent_okWhen i).bind fun hi => .pure ?_).congr (by simp [Expr.idents])
    exact ⟨by simp [Expr.forget, hi.1], by simpa [Expr.idents] using hi.2⟩
  | binOp node op l r ihl ihr =>
    rw [typeVisitorExpr]
    refine (ihl.bind fun hl => ihr.bind fun hr => .pure ?_).congr (by simp [Expr.idents])
    exact ⟨by simp [Expr.forget, hl.1, hr.1], by simp [Expr.idents, hl.2, hr.2]⟩
  | arrLookup node i idxs ih =>
    rw [typeVisitorExpr]
    refine ((typeVisitorIdent_okWhen i).bind fun hi => (typeVisitorExprs_okWhen ih).bind fun hidxs => .pure ?_).congr
      (by simp [Expr.idents])
    exact ⟨by simp [Expr.forget, hi.1, hidxs.1], by simpa [Expr.idents, hidxs.2] using hi.2⟩
  | arrCreate node elem len ih =>
    rw [typeVisitorExpr]
    refine (ih.bind fun hlen => .pure ?_).congr (by simp [Expr.idents])
    exact ⟨by simp [Expr.forget, hlen.1], by simp [Expr.idents, hlen.2]⟩
  | propertyLookup node i p =>
    rw [typeVisitorExpr]
    refine ((typeVisitorIdent_okWhen i).bind fun hi => .pure ?_).congr (by simp [Expr.idents])
    exact ⟨by simp [Expr.forget, hi.1], by simpa [Expr.idents] using hi.2⟩
  | _ =>
    exact (Except.OkWhen.pure ⟨rfl, by simp [Expr.idents]⟩).congr (by simp [Expr.idents])

/-- A part that may be missing. -/
theorem typeVisitorOpt_okWhen {α : Type → Type} {visit : α Unit → Except BuildError (α Symbol)}
    {idents : ∀ {σ}, α σ → List (IdentNode σ)} {forget : α Symbol → α Unit}
    (hv : ∀ a, (visit a).OkWhen (table.Finds (idents a)) fun a' => forget a' = a ∧ table.Binds (idents a'))
    (o : Option (α Unit)) :
    (typeVisitorOpt visit o).OkWhen (table.Finds (o.toList.flatMap idents))
      fun o' => o'.map forget = o ∧ table.Binds (o'.toList.flatMap idents) := by
  cases o with
  | none => exact (Except.OkWhen.pure (by simp)).congr (by simp)
  | some a => exact ((hv a).bind fun ha => .pure (by simp [ha.1, ha.2])).congr (by simp)

theorem typeVisitorPrecond_okWhen (p : PrecondNode Unit) : (typeVisitorPrecond table p).OkWhen (table.Finds p.idents)
    fun p' => p'.forget = p ∧ table.Binds p'.idents := by
  unfold typeVisitorPrecond
  refine ((typeVisitorOpt_okWhen (typeVisitorExpr_okWhen) p.expr).bind fun he => .pure ?_).congr
    (by simp [PrecondNode.idents])
  exact ⟨by simp [PrecondNode.forget, he.1], he.2⟩

theorem typeVisitorLValue_okWhen (l : LValue Unit) : (typeVisitorLValue table l).OkWhen (table.Finds l.idents)
    fun l' => l'.forget = l ∧ table.Binds l'.idents := by
  cases l with
  | ident i =>
    refine ((typeVisitorIdent_okWhen i).bind fun hi => .pure ?_).congr (by simp [LValue.idents, LValue.toExpr, Expr.idents])
    exact ⟨by simp [LValue.forget, hi.1], by simpa [LValue.idents, LValue.toExpr, Expr.idents] using hi.2⟩
  | arrLookup node i idxs =>
    refine ((typeVisitorIdent_okWhen i).bind fun hi =>
      (typeVisitorExprs_okWhen fun e _ => typeVisitorExpr_okWhen e).bind fun hidxs => .pure ?_).congr
      (by simp [LValue.idents, LValue.toExpr, Expr.idents])
    exact ⟨by simp [LValue.forget, hi.1, hidxs.1],
      by simpa [LValue.idents, LValue.toExpr, Expr.idents, hidxs.2] using hi.2⟩

theorem typeVisitorAsg_okWhen (n : AsgNode Unit) : (typeVisitorAsg table n).OkWhen (table.Finds n.idents)
    fun n' => n'.forget = n ∧ table.Binds n'.idents := by
  unfold typeVisitorAsg
  refine ((typeVisitorLValue_okWhen n.lhs).bind fun hl => (typeVisitorExpr_okWhen n.rhs).bind fun hr => .pure ?_).congr
    (by simp [AsgNode.idents])
  exact ⟨by simp [AsgNode.forget, hl.1, hr.1], by simp [AsgNode.idents, hl.2, hr.2]⟩

end Parts

/-! ## Tables and scopes -/

/-- The chain of tables finds what lexical scoping binds. -/
def Agrees (args : List (DefNode Unit)) (table : SymbolTable) (scopes : Scopes Symbol) : Prop :=
  ∀ name, table.findSymbol name = scopes.binding args name

/-- An identifier is bound as lexical scoping has it. -/
def Bound (args : List (DefNode Unit)) (u : IdentNode Symbol × Scopes Symbol) : Prop :=
  u.2.binding args u.1.name = some u.1.symbol

theorem SymbolTable.findSymbol_addSymbol (table : SymbolTable) (n name : String) (s : Symbol) :
    (table.addSymbol n s).findSymbol name = if n = name then some s else table.findSymbol name := by
  cases table <;> by_cases h : n = name <;> simp [addSymbol, findSymbol, h]

theorem Scopes.visible_declare (scopes : Scopes σ) (d : DefNode σ) (name : String) :
    (scopes.declare d).visible name = if d.name = name then some d else scopes.visible name := by
  cases scopes <;> by_cases h : d.name = name <;> simp [declare, visible, List.findSome?_cons, h]

theorem paramSymbol_isSome (args : List (DefNode Unit)) (name : String) :
    (paramSymbol args name).isSome = true ↔ ∃ arg ∈ args, arg.name = name := by
  rw [paramSymbol, List.find?_isSome]
  simp only [List.mem_reverse, inputSymbols, List.mem_mapIdx, beq_iff_eq]
  constructor
  · rintro ⟨_, ⟨i, hi, rfl⟩, hn⟩
    exact ⟨args[i], List.getElem_mem hi, hn⟩
  · rintro ⟨arg, harg, hn⟩
    obtain ⟨i, hi, rfl⟩ := List.getElem_of_mem harg
    exact ⟨_, ⟨i, hi, rfl⟩, hn⟩

section Agrees
variable {args : List (DefNode Unit)} {table : SymbolTable} {scopes : Scopes Symbol} (h : Agrees args table scopes)
include h

theorem Agrees.found (name : String) :
    (table.findSymbol name).isSome = true ↔ Declared args scopes.forget name := by
  rw [h name, Scopes.binding, Declared, Scopes.visible_forget, ← paramSymbol_isSome, Option.isSome_or,
    Bool.or_eq_true, Option.isSome_map, Option.isSome_map]

theorem Agrees.finds (is : List (IdentNode Unit)) :
    table.Finds is ↔ ∀ u ∈ is.map (·, scopes.forget), Declared args u.2 u.1.name := by
  simp only [SymbolTable.Finds, h.found, List.forall_mem_map]

theorem Agrees.binds (is : List (IdentNode Symbol)) :
    table.Binds is ↔ ∀ u ∈ is.map (·, scopes), Bound args u := by
  simp only [SymbolTable.Binds, h _, Bound, List.forall_mem_map]

/-- A nested body starts with an empty table and an empty scope. -/
theorem Agrees.enter (k : Nat) : Agrees args (([] :: table, k) : TypeState).1 ([] :: scopes) := h

theorem Agrees.declare (d : DefNode Symbol) : Agrees args (table.addSymbol d.name d.sym) (scopes.declare d) := by
  intro name
  rw [SymbolTable.findSymbol_addSymbol, Scopes.binding, Scopes.visible_declare, h name]
  split <;> rfl

end Agrees

/-- The input of each parameter is found by its name. -/
theorem inputTable_agrees (args : List (DefNode Unit)) : Agrees args (inputTable args) [[]] := by
  intro name
  have hfold (l : List Symbol) (table : SymbolTable) :
      (l.foldl (fun table s => table.addSymbol s.name s) table).findSymbol name =
        (l.reverse.find? (·.name == name)).or (table.findSymbol name) := by
    induction l generalizing table with
    | nil => rfl
    | cons s l ih =>
      rw [List.foldl_cons, ih, SymbolTable.findSymbol_addSymbol, List.reverse_cons, List.find?_append, Option.or_assoc]
      by_cases hs : s.name = name <;> simp [hs]
  rw [inputTable, hfold]
  simp [Scopes.binding, paramSymbol, Scopes.visible, SymbolTable.findSymbol]

/-! ## Resolution -/

/-- The symbol `create_symbol` makes for the k-th definition. -/
def DefNode.symbolAt (k : Nat) (d : DefNode σ) : Symbol :=
  { ref := .var k, pos := d.node.pos, type := d.type, name := d.name }

/-- Every definition has the symbol of its number, from `k` on. -/
def Numbered : Nat → List (DefNode Symbol) → Prop
  | _, [] => True
  | k, d :: ds => d.sym = d.symbolAt k ∧ Numbered (k + 1) ds

theorem numbered_append {k : Nat} {ds ds' : List (DefNode Symbol)} :
    Numbered k (ds ++ ds') ↔ Numbered k ds ∧ Numbered (k + ds.length) ds' := by
  induction ds generalizing k with
  | nil => simp [Numbered]
  | cons d ds ih => simp only [List.cons_append, Numbered, ih, List.length_cons, and_assoc, Nat.add_assoc,
      Nat.add_comm 1]

theorem numbered_iff {k : Nat} {ds : List (DefNode Symbol)} :
    Numbered k ds ↔ ∀ (i : Nat) (d : DefNode Symbol), ds[i]? = some d → d.sym = d.symbolAt (k + i) := by
  induction ds generalizing k with
  | nil => simp [Numbered]
  | cons d ds ih =>
    rw [Numbered, ih]
    constructor
    · rintro ⟨h, h'⟩ i d' hd
      cases i with
      | zero => cases hd; exact h
      | succ i => rw [h' i d' hd]; congr 1; omega
    · refine fun h => ⟨h 0 d rfl, fun i d' hd => ?_⟩
      rw [h (i + 1) d' hd]
      congr 1
      omega

/-- What resolution makes of a statement. -/
structure Stmt.Resolved (args : List (DefNode Unit)) (st : TypeState) (scopes : Scopes Symbol) (s : Stmt Unit)
    (r : Stmt Symbol × TypeState) : Prop where
  forget : r.1.forget = s
  bound : ∀ u ∈ r.1.uses scopes, Bound args u
  agrees : Agrees args r.2.1 (Stmt.declare scopes r.1)
  numbered : Numbered st.2 r.1.defs
  count : r.2.2 = st.2 + r.1.defs.length

structure Body.Resolved (args : List (DefNode Unit)) (st : TypeState) (scopes : Scopes Symbol) (b : Body Unit)
    (r : Body Symbol × TypeState) : Prop where
  forget : Body.forget r.1 = b
  bound : ∀ u ∈ Body.uses scopes r.1, Bound args u
  numbered : Numbered st.2 (Body.defs r.1)
  count : r.2.2 = st.2 + (Body.defs r.1).length

/-- A statement that defines nothing leaves the scopes alone. -/
theorem Stmt.Resolved.leaf {args : List (DefNode Unit)} {st : TypeState} {scopes : Scopes Symbol} {s : Stmt Unit}
    {s' : Stmt Symbol} (h : Agrees args st.1 scopes) (hf : s'.forget = s) (hb : ∀ u ∈ s'.uses scopes, Bound args u)
    (hd : Stmt.declare scopes s' = scopes) (hn : s'.defs = []) : s.Resolved args st scopes (s', st) :=
  ⟨hf, hb, by simpa only [hd] using h, by simp [hn, Numbered], by simp [hn]⟩

theorem typeVisitorDef_okWhen {args : List (DefNode Unit)} {st : TypeState} {scopes : Scopes Symbol}
    (h : Agrees args st.1 scopes) (d : DefNode Unit) :
    (typeVisitorDef st d).OkWhen (∀ u ∈ (Stmt.def_ d).uses scopes.forget, Declared args u.2 u.1.name)
      fun r => (Stmt.def_ d).Resolved args st scopes (.def_ r.1, r.2) := by
  -- The symbol does not depend on the initialiser, nor does what it does to the scopes.
  have hdecl (rhs : Option (Expr Symbol)) : Agrees args (st.1.addSymbol d.name (d.symbolAt st.2))
      (scopes.declare { node := d.node, name := d.name, type := d.type, rhs, sym := d.symbolAt st.2 }) :=
    h.declare { node := d.node, name := d.name, type := d.type, rhs, sym := d.symbolAt st.2 }
  unfold typeVisitorDef
  refine ((typeVisitorOpt_okWhen typeVisitorExpr_okWhen d.rhs).bind fun hr => .pure ?_).congr ?_
  · refine ⟨?_, ?_, hdecl _, ⟨rfl, trivial⟩, rfl⟩
    · simp [Stmt.forget, DefNode.forget, hr.1]
    · exact ((hdecl _).binds _).mp hr.2
  · have hfound (name : String) : ((st.1.addSymbol d.name (d.symbolAt st.2)).findSymbol name).isSome = true ↔
        Declared args (scopes.forget.declare d) name := by
      rw [SymbolTable.findSymbol_addSymbol, Declared, Scopes.visible_declare]
      split
      · simp
      · exact h.found name
    rw [and_true, Stmt.uses, List.forall_mem_map]
    exact forall₂_congr fun i _ => hfound i.name

theorem typeVisitor_okWhen {args : List (DefNode Unit)} :
    (∀ s : Stmt Unit, ∀ {st : TypeState} {scopes : Scopes Symbol}, Agrees args st.1 scopes →
      (typeVisitorStmt st s).OkWhen (∀ u ∈ s.uses scopes.forget, Declared args u.2 u.1.name)
        (s.Resolved args st scopes)) ∧
    ∀ b : Body Unit, ∀ {st : TypeState} {scopes : Scopes Symbol}, Agrees args st.1 scopes →
      (typeVisitorBody st b).OkWhen (∀ u ∈ Body.uses scopes.forget b, Declared args u.2 u.1.name)
        (Body.Resolved args st scopes b) := by
  apply Stmt.induct
  case asg =>
    intro n st scopes h
    rw [typeVisitorStmt]
    refine ((typeVisitorAsg_okWhen n).bind fun hn => .pure ?_).congr (by rw [and_true, h.finds]; rfl)
    exact .leaf h (by simp [Stmt.forget, hn.1]) ((h.binds _).mp hn.2) rfl rfl
  case ret =>
    intro n st scopes h
    rw [typeVisitorStmt]
    refine ((typeVisitorExpr_okWhen n.expr).bind fun hn => .pure ?_).congr (by rw [and_true, h.finds]; rfl)
    exact .leaf h (by simp [Stmt.forget, hn.1]) ((h.binds _).mp hn.2) rfl rfl
  case def_ =>
    intro d st scopes h
    rw [typeVisitorStmt]
    exact ((typeVisitorDef_okWhen h d).bind fun hd => .pure hd).congr (by rw [and_true])
  case cont | brk =>
    intro node loop st scopes h
    refine (Except.OkWhen.pure (.leaf h rfl ?_ rfl rfl)).congr ?_ <;> simp [Stmt.uses]
  case for_ =>
    intro node p pre c inc b ih st scopes h
    rw [typeVisitorStmt]
    refine ((typeVisitorOpt_okWhen typeVisitorPrecond_okWhen p).bind fun hp =>
      (typeVisitorOpt_okWhen typeVisitorAsg_okWhen pre).bind fun hpre => (typeVisitorExpr_okWhen c).bind fun hc =>
      (typeVisitorOpt_okWhen typeVisitorAsg_okWhen inc).bind fun hinc => (ih (h.enter _)).bind fun hb =>
        .pure ?_).congr ?_
    · refine ⟨?_, ?_, h, hb.numbered, hb.count⟩
      · simp [Stmt.forget, hp.1, hpre.1, hc.1, hinc.1, hb.forget]
      · rw [Stmt.uses, List.forall_mem_append, ← h.binds]
        exact ⟨by simp [hp.2, hpre.2, hc.2, hinc.2], hb.bound⟩
    · rw [Stmt.uses, List.forall_mem_append, ← h.finds]
      simp [and_assoc, Scopes.forget]
  case if_ =>
    intro node p c b ih st scopes h
    rw [typeVisitorStmt]
    refine ((typeVisitorOpt_okWhen typeVisitorPrecond_okWhen p).bind fun hp => (typeVisitorExpr_okWhen c).bind fun hc =>
      (ih (h.enter _)).bind fun hb => .pure ?_).congr ?_
    · refine ⟨?_, ?_, h, hb.numbered, hb.count⟩
      · simp [Stmt.forget, hp.1, hc.1, hb.forget]
      · rw [Stmt.uses, List.forall_mem_append, ← h.binds]
        exact ⟨by simp [hp.2, hc.2], hb.bound⟩
    · rw [Stmt.uses, List.forall_mem_append, ← h.finds]
      simp [and_assoc, Scopes.forget]
  case ifElse =>
    intro node p c b e ihb ihe st scopes h
    rw [typeVisitorStmt]
    refine ((typeVisitorOpt_okWhen typeVisitorPrecond_okWhen p).bind fun hp => (typeVisitorExpr_okWhen c).bind fun hc =>
      (ihb (h.enter _)).bind fun {rb} hb => (ihe (h.enter rb.2.2)).bind fun he => .pure ?_).congr ?_
    · refine ⟨?_, ?_, h, ?_, ?_⟩
      · simp [Stmt.forget, hp.1, hc.1, hb.forget, he.forget]
      · rw [Stmt.uses, List.forall_mem_append, List.forall_mem_append, ← h.binds]
        exact ⟨by simp [hp.2, hc.2], hb.bound, he.bound⟩
      · rw [Stmt.defs, numbered_append, ← hb.count]
        exact ⟨hb.numbered, he.numbered⟩
      · rw [Stmt.defs, List.length_append, ← Nat.add_assoc, ← hb.count]
        exact he.count
    · rw [Stmt.uses, List.forall_mem_append, List.forall_mem_append, ← h.finds]
      simp [and_assoc, Scopes.forget]
  case nil =>
    intro st scopes h
    exact (Except.OkWhen.pure ⟨rfl, by simp [Body.uses], trivial, rfl⟩).congr (by simp [Body.uses])
  case cons =>
    intro s rest ihs ihr st scopes h
    rw [typeVisitorBody]
    have hrest : (∀ u ∈ Body.uses scopes.forget (s :: rest), Declared args u.2 u.1.name) ↔
        (∀ u ∈ s.uses scopes.forget, Declared args u.2 u.1.name) ∧
        ∀ u ∈ Body.uses (Stmt.declare scopes.forget s) rest, Declared args u.2 u.1.name := by
      rw [Body.uses, List.forall_mem_append]
    refine ((ihs h).bind fun hs => ((ihr hs.agrees).bind fun hr => .pure ?_).congr ?_).congr hrest.symm
    · refine ⟨?_, ?_, ?_, ?_⟩
      · simp [Body.forget, hs.forget, hr.forget]
      · rw [Body.uses, List.forall_mem_append]
        exact ⟨hs.bound, hr.bound⟩
      · rw [Body.defs, numbered_append, ← hs.count]
        exact ⟨hs.numbered, hr.numbered⟩
      · rw [Body.defs, List.length_append, ← Nat.add_assoc, ← hs.count]
        exact hr.count
    · rw [and_true, Stmt.declare_forget, hs.forget]

/-- **Name resolution is lexical scoping.** `type_ast` succeeds exactly when
every identifier of the body is declared, by a definition in scope or by a
parameter. The tree is then as it was, each definition has a symbol of its
own, and each identifier the symbol of the last definition of its name in the
innermost body that has one in scope, or else the parameter's input. -/
theorem typeAst_lexical (f : FunctionNode Unit) :
    ((∃ r, f.typeAst = .ok r) ↔ ∀ u ∈ Body.uses [[]] f.body, Declared f.args u.2 u.1.name) ∧
    ∀ g inputs, f.typeAst = .ok (g, inputs) →
      inputs = inputSymbols f.args ∧ Body.forget g.body = f.body ∧
      (∀ u ∈ Body.uses [[]] g.body, u.2.binding f.args u.1.name = some u.1.symbol) ∧
      ∀ (k : Nat) (d : DefNode Symbol), (Body.defs g.body)[k]? = some d → d.sym = d.symbolAt k := by
  have hagrees : Agrees f.args ((inputTable f.args, 0) : TypeState).1 [[]] := inputTable_agrees f.args
  have hres := typeVisitor_okWhen.2 f.body hagrees
  refine ⟨(Iff.trans ⟨?_, ?_⟩ hres.exists_iff), fun g inputs h => ?_⟩
  · rintro ⟨⟨g, inputs⟩, h⟩
    obtain ⟨⟨st, hb⟩, -⟩ := FunctionNode.typeAst_ok h
    exact ⟨_, hb⟩
  · rintro ⟨r, h⟩
    unfold FunctionNode.typeAst
    split
    · rename_i he
      cases he.symm.trans h
    · exact ⟨_, rfl⟩
  · obtain ⟨⟨st, hb⟩, -, -, rfl⟩ := FunctionNode.typeAst_ok h
    have hr := hres.ok hb
    refine ⟨rfl, hr.forget, hr.bound, fun k d hd => ?_⟩
    simpa using numbered_iff.mp hr.numbered k d hd

end DGen
