/-
The passes before code generation (`Semantics.h`, `Semantics.cpp`,
`SymbolTable.h`, `SymbolTable.cpp`), in the order `DGen::generate_json`
runs them: `connect_loops`, `type_ast`, `type_check`,
`eliminate_unreachable_code`.
-/
import DGen.Ast
import DGen.Lib.Result

namespace DGen

variable {σ : Type}

/-! ## Unreachable code -/

mutual
/-- The bodies of a statement that is no jump. -/
def eliminateUnreachableCodeVisitStmt : Stmt σ → Stmt σ
  | .for_ node precond preAsg cond incAsg body =>
    .for_ node precond preAsg cond incAsg (eliminateUnreachableCodeVisitBody body)
  | .if_ node precond cond body => .if_ node precond cond (eliminateUnreachableCodeVisitBody body)
  | .ifElse node precond cond body elseBody =>
    .ifElse node precond cond (eliminateUnreachableCodeVisitBody body)
      (eliminateUnreachableCodeVisitBody elseBody)
  | s => s

def eliminateUnreachableCodeVisitBody : Body σ → Body σ
  | [] => []
  | s :: rest =>
    if s.isJump then [s]
    else eliminateUnreachableCodeVisitStmt s :: eliminateUnreachableCodeVisitBody rest
end

/-! ## Loops -/

mutual
def connectLoopsVisitStmt (loop : Option NodeId) : Stmt σ → Except BuildError (Stmt σ)
  | .for_ node precond preAsg cond incAsg body => do
    let body ← connectLoopsVisitBody (some node.id) body
    return .for_ node precond preAsg cond incAsg body
  | .if_ node precond cond body => do
    let body ← connectLoopsVisitBody loop body
    return .if_ node precond cond body
  | .ifElse node precond cond body elseBody => do
    let body ← connectLoopsVisitBody loop body
    let elseBody ← connectLoopsVisitBody loop elseBody
    return .ifElse node precond cond body elseBody
  | s => return s

/-- The first continue or break ends the walk over its body: the statements
after it keep the `loop` they have. -/
def connectLoopsVisitBody (loop : Option NodeId) : Body σ → Except BuildError (Body σ)
  | [] => return []
  | .cont node _ :: rest =>
    match loop with
    | none => buildError node.pos "cannot match a continue node to a loop"
    | some l => return .cont node (some l) :: rest
  | .brk node _ :: rest =>
    match loop with
    | none => buildError node.pos "cannot match a break node to a loop"
    | some l => return .brk node (some l) :: rest
  | s :: rest => do
    let s ← connectLoopsVisitStmt loop s
    let rest ← connectLoopsVisitBody loop rest
    return s :: rest
end

/-! ## Names -/

/-- A table and its outer tables, innermost first; in a table the last symbol added under
a name comes first. -/
abbrev SymbolTable := List (List (String × Symbol))

def SymbolTable.addSymbol (name : String) (symbol : Symbol) : SymbolTable → SymbolTable
  | [] => [[(name, symbol)]]
  | table :: outer => ((name, symbol) :: table) :: outer

def SymbolTable.findSymbol (name : String) : SymbolTable → Option Symbol
  | [] => none
  | table :: outer =>
    match table.find? (·.1 == name) with
    | some (_, symbol) => some symbol
    | none => findSymbol name outer

/-- `type_visitor` on an identifier. -/
def typeVisitorIdent (table : SymbolTable) (i : IdentNode Unit) : Except BuildError (IdentNode Symbol) :=
  match table.findSymbol i.name with
  | none => buildError i.node.pos ("undefined symbol " ++ i.name)
  | some symbol => return { node := i.node, name := i.name, symbol }

mutual
/-- `type_visitor` on an expression and its children. -/
def typeVisitorExpr (table : SymbolTable) : Expr Unit → Except BuildError (Expr Symbol)
  | .char node ch => return .char node ch
  | .string node str => return .string node str
  | .number node num => return .number node num
  | .bool node val => return .bool node val
  | .ident i => do return .ident (← typeVisitorIdent table i)
  | .binOp node op lhs rhs => do
    let lhs ← typeVisitorExpr table lhs
    let rhs ← typeVisitorExpr table rhs
    return .binOp node op lhs rhs
  | .arrLookup node i idxs => do
    let i ← typeVisitorIdent table i
    let idxs ← typeVisitorExprs table idxs
    return .arrLookup node i idxs
  | .arrCreate node elem len => do return .arrCreate node elem (← typeVisitorExpr table len)
  | .propertyLookup node i propertyName => do
    return .propertyLookup node (← typeVisitorIdent table i) propertyName

def typeVisitorExprs (table : SymbolTable) : List (Expr Unit) → Except BuildError (List (Expr Symbol))
  | [] => return []
  | e :: es => do
    let e ← typeVisitorExpr table e
    let es ← typeVisitorExprs table es
    return e :: es
end

/-- `type_visitor` on a child that may be null. -/
def typeVisitorOpt {α β : Type} (visit : α → Except BuildError β) : Option α → Except BuildError (Option β)
  | none => return none
  | some a => do return some (← visit a)

def typeVisitorPrecond (table : SymbolTable) (p : PrecondNode Unit) :
    Except BuildError (PrecondNode Symbol) := do
  let expr ← typeVisitorOpt (typeVisitorExpr table) p.expr
  return { node := p.node, prob := p.prob, expr }

def typeVisitorLValue (table : SymbolTable) : LValue Unit → Except BuildError (LValue Symbol)
  | .ident i => do return .ident (← typeVisitorIdent table i)
  | .arrLookup node i idxs => do
    let i ← typeVisitorIdent table i
    let idxs ← typeVisitorExprs table idxs
    return .arrLookup node i idxs

def typeVisitorAsg (table : SymbolTable) (n : AsgNode Unit) : Except BuildError (AsgNode Symbol) := do
  let lhs ← typeVisitorLValue table n.lhs
  let rhs ← typeVisitorExpr table n.rhs
  return { node := n.node, lhs, rhs }

/-- The table is threaded through a body, with the number of symbols made so far. -/
abbrev TypeState := SymbolTable × Nat

/-- A definition is in the table before its own initialiser is visited. -/
def typeVisitorDef (st : TypeState) (n : DefNode Unit) : Except BuildError (DefNode Symbol × TypeState) := do
  let sym : Symbol := { ref := .var st.2, pos := n.node.pos, type := n.type, name := n.name }
  let table := st.1.addSymbol n.name sym
  let rhs ← typeVisitorOpt (typeVisitorExpr table) n.rhs
  return ({ node := n.node, name := n.name, type := n.type, rhs, sym }, (table, st.2 + 1))

mutual
/-- `type_visitor` on a statement. -/
def typeVisitorStmt (st : TypeState) : Stmt Unit → Except BuildError (Stmt Symbol × TypeState)
  | .asg n => do return (.asg (← typeVisitorAsg st.1 n), st)
  | .ret n => do return (.ret { node := n.node, expr := (← typeVisitorExpr st.1 n.expr) }, st)
  | .def_ n => do
    let (n, st) ← typeVisitorDef st n
    return (.def_ n, st)
  | .cont node loop => return (.cont node loop, st)
  | .brk node loop => return (.brk node loop, st)
  | .for_ node precond preAsg cond incAsg body => do
    let precond ← typeVisitorOpt (typeVisitorPrecond st.1) precond
    let preAsg ← typeVisitorOpt (typeVisitorAsg st.1) preAsg
    let cond ← typeVisitorExpr st.1 cond
    let incAsg ← typeVisitorOpt (typeVisitorAsg st.1) incAsg
    let (body, inner) ← typeVisitorBody ([] :: st.1, st.2) body
    return (.for_ node precond preAsg cond incAsg body, (st.1, inner.2))
  | .if_ node precond cond body => do
    let precond ← typeVisitorOpt (typeVisitorPrecond st.1) precond
    let cond ← typeVisitorExpr st.1 cond
    let (body, inner) ← typeVisitorBody ([] :: st.1, st.2) body
    return (.if_ node precond cond body, (st.1, inner.2))
  | .ifElse node precond cond body elseBody => do
    let precond ← typeVisitorOpt (typeVisitorPrecond st.1) precond
    let cond ← typeVisitorExpr st.1 cond
    let (body, inner) ← typeVisitorBody ([] :: st.1, st.2) body
    let (elseBody, inner) ← typeVisitorBody ([] :: st.1, inner.2) elseBody
    return (.ifElse node precond cond body elseBody, (st.1, inner.2))

def typeVisitorBody (st : TypeState) : Body Unit → Except BuildError (Body Symbol × TypeState)
  | [] => return ([], st)
  | s :: rest => do
    let (s, st) ← typeVisitorStmt st s
    let (rest, st) ← typeVisitorBody st rest
    return (s :: rest, st)
end

/-- The input symbols `type_ast` makes, one a parameter. -/
def inputSymbols (args : List (DefNode Unit)) : List Symbol :=
  args.mapIdx fun i arg => { ref := .input i, pos := arg.node.pos, type := arg.type, name := arg.name }

/-- The table with the inputs: of two parameters of one name, the later is found. -/
def inputTable (args : List (DefNode Unit)) : SymbolTable :=
  (inputSymbols args).foldl (fun table s => table.addSymbol s.name s) [[]]

/-! ## Types -/

/-- `type_check_visitor` on an index of a lookup. -/
def typeCheckIdx (idx : Expr Symbol) : Except BuildError Unit := do
  let t ← idx.getType
  if t.eqKind .int then return () else buildError idx.pos "index should have int type"

mutual
/-- `type_check_visitor` on an expression and its children: only lookups are checked. -/
def typeCheckVisitorExpr : Expr Symbol → Except BuildError Unit
  | .binOp _ _ lhs rhs => do
    typeCheckVisitorExpr lhs
    typeCheckVisitorExpr rhs
  | .arrLookup _ _ idxs => do
    idxs.forM typeCheckIdx
    typeCheckVisitorExprs idxs
  | .arrCreate _ _ len => typeCheckVisitorExpr len
  | _ => return ()

def typeCheckVisitorExprs : List (Expr Symbol) → Except BuildError Unit
  | [] => return ()
  | e :: es => do
    typeCheckVisitorExpr e
    typeCheckVisitorExprs es
end

/-- `type_check_precondition`, then the expression. -/
def typeCheckVisitorPrecond (p : PrecondNode Symbol) : Except BuildError Unit :=
  match p.expr with
  | none => return ()
  | some expr => do
    let t ← expr.getType
    if t.eqKind .bool then typeCheckVisitorExpr expr
    else buildError p.node.pos "precondition must be evaluated to bool"

def typeCheckAsg (n : AsgNode Symbol) : Except BuildError Unit := do
  let lhsT ← n.lhs.toExpr.getType
  let rhsT ← n.rhs.getType
  if lhsT.isConvertableTo rhsT then return ()
  else buildError n.node.pos ("assignment sides have different types: " ++ lhsT.toString ++
    " and " ++ rhsT.toString)

def typeCheckTarget : LValue Symbol → Except BuildError Unit
  | .ident i =>
    if i.symbol.isInput then buildError i.node.pos "can not assign to input variable" else return ()
  | .arrLookup node i _ =>
    if i.symbol.isInput then buildError node.pos "can not assign to input variable" else return ()

def typeCheckVisitorAsg (n : AsgNode Symbol) : Except BuildError Unit := do
  typeCheckTarget n.lhs
  typeCheckAsg n
  typeCheckVisitorExpr n.lhs.toExpr
  typeCheckVisitorExpr n.rhs

def typeCheckVisitorDef (n : DefNode Symbol) : Except BuildError Unit :=
  match n.rhs with
  | none => return ()
  | some rhs => do
    let t ← rhs.getType
    if t.isConvertableTo n.type.toTy then typeCheckVisitorExpr rhs
    else buildError n.node.pos ("define statement have different types declared and evaluated: " ++
      n.type.toTy.toString ++ " and " ++ t.toString)

def typeCheckVisitorRet (retType : DeclTy) (n : ReturnNode Symbol) : Except BuildError Unit := do
  let t ← n.expr.getType
  if t.eq retType.toTy then typeCheckVisitorExpr n.expr
  else buildError n.node.pos ("ret type is different, expected " ++ retType.toTy.toString ++
    ", got " ++ t.toString)

/-- The check of a loop's or an if's condition; `what` begins its message. -/
def typeCheckCond (pos : Position) (what : String) (cond : Expr Symbol) : Except BuildError Unit := do
  let t ← cond.getType
  if t.eqKind .bool then return ()
  else buildError pos (what ++ " condition must be evaluated to bool, got " ++ t.toString)

mutual
/-- `type_check_visitor` on a statement and its children, in the order of `children`. -/
def typeCheckVisitorStmt (retType : DeclTy) : Stmt Symbol → Except BuildError Unit
  | .asg n => typeCheckVisitorAsg n
  | .ret n => typeCheckVisitorRet retType n
  | .def_ n => typeCheckVisitorDef n
  | .cont _ _ | .brk _ _ => return ()
  | .for_ node precond preAsg cond incAsg body => do
    typeCheckCond node.pos "loop stop" cond
    precond.toList.forM typeCheckVisitorPrecond
    preAsg.toList.forM typeCheckVisitorAsg
    typeCheckVisitorExpr cond
    incAsg.toList.forM typeCheckVisitorAsg
    typeCheckVisitorBody retType body
  | .if_ node precond cond body => do
    typeCheckCond node.pos "if operator" cond
    precond.toList.forM typeCheckVisitorPrecond
    typeCheckVisitorExpr cond
    typeCheckVisitorBody retType body
  | .ifElse node precond cond body elseBody => do
    typeCheckCond node.pos "if operator" cond
    precond.toList.forM typeCheckVisitorPrecond
    typeCheckVisitorExpr cond
    typeCheckVisitorBody retType body
    typeCheckVisitorBody retType elseBody

def typeCheckVisitorBody (retType : DeclTy) : Body Symbol → Except BuildError Unit
  | [] => return ()
  | s :: rest => do
    typeCheckVisitorStmt retType s
    typeCheckVisitorBody retType rest
end

/-! ## No pass makes or merges nodes -/

theorem keyIds_eliminate : (∀ s : Stmt σ, (eliminateUnreachableCodeVisitStmt s).keyIds.Sublist s.keyIds) ∧
    ∀ b : Body σ, (Body.keyIds (eliminateUnreachableCodeVisitBody b)).Sublist (Body.keyIds b) := by
  apply Stmt.induct <;> intros <;>
    simp only [eliminateUnreachableCodeVisitStmt, eliminateUnreachableCodeVisitBody, Stmt.keyIds, Body.keyIds,
      List.Sublist.refl]
  case for_ ih => exact ((List.Sublist.refl _).append ih).cons_cons _
  case if_ ih => exact (List.Sublist.refl _).append ih
  case ifElse ih₁ ih₂ => exact (List.Sublist.refl _).append (ih₁.append ih₂)
  case cons s rest ihs ihr =>
    split
    · simp [Body.keyIds]
    · exact ihs.append ihr

theorem keyIds_connectLoops :
    (∀ s : Stmt σ, ∀ {loop s'}, connectLoopsVisitStmt loop s = .ok s' → s'.keyIds = s.keyIds) ∧
    ∀ b : Body σ, ∀ {loop b'}, connectLoopsVisitBody loop b = .ok b' → Body.keyIds b' = Body.keyIds b := by
  apply Stmt.induct
  case for_ =>
    intro node p pre c inc b ih loop s' h
    simp only [connectLoopsVisitStmt, Except.bind_ok_iff, Except.pure_ok_iff] at h
    obtain ⟨b', hb, rfl⟩ := h
    simp only [Stmt.keyIds, ih hb]
  case if_ =>
    intro node p c b ih loop s' h
    simp only [connectLoopsVisitStmt, Except.bind_ok_iff, Except.pure_ok_iff] at h
    obtain ⟨b', hb, rfl⟩ := h
    simp only [Stmt.keyIds, ih hb]
  case ifElse =>
    intro node p c b e ihb ihe loop s' h
    simp only [connectLoopsVisitStmt, Except.bind_ok_iff, Except.pure_ok_iff] at h
    obtain ⟨b', hb, e', he, rfl⟩ := h
    simp only [Stmt.keyIds, ihb hb, ihe he]
  case cons =>
    intro s rest ihs ihr loop b' h
    cases s
    case cont | brk =>
      cases loop <;> simp only [connectLoopsVisitBody, buildError, reduceCtorEq, Except.pure_ok_iff] at h
      subst h
      rfl
    all_goals
      simp only [connectLoopsVisitBody, Except.bind_ok_iff, Except.pure_ok_iff] at h
      obtain ⟨s', hs, rest', hr, rfl⟩ := h
      simp only [Body.keyIds, ihs hs, ihr hr]
  case nil =>
    intro loop b' h
    simp only [connectLoopsVisitBody, Except.pure_ok_iff] at h
    rw [← h]
  all_goals
    intros
    simp_all [connectLoopsVisitStmt]

theorem typeVisitorExprs_forall₂ {table : SymbolTable} : ∀ {es : List (Expr Unit)} {es' : List (Expr Symbol)},
    typeVisitorExprs table es = .ok es' → List.Forall₂ (fun e e' => typeVisitorExpr table e = .ok e') es es'
  | [], _, h => by simp only [typeVisitorExprs, Except.pure_ok_iff] at h; subst h; exact .nil
  | _ :: _, _, h => by
    simp only [typeVisitorExprs, Except.bind_ok_iff, Except.pure_ok_iff] at h
    obtain ⟨_, he, _, hes, rfl⟩ := h
    exact .cons he (typeVisitorExprs_forall₂ hes)

theorem lookupIdsList_eq_flatMap (es : List (Expr σ)) : Expr.lookupIdsList es = es.flatMap Expr.lookupIds := by
  induction es with
  | nil => rfl
  | cons e es ih => simp only [Expr.lookupIdsList, ih, List.flatMap_cons]

theorem lookupIds_typeVisitor {table : SymbolTable} (e : Expr Unit) :
    ∀ {e'}, typeVisitorExpr table e = .ok e' → e'.lookupIds = e.lookupIds := by
  induction e with
  | binOp node op l r ihl ihr =>
    intro e' h
    simp only [typeVisitorExpr, Except.bind_ok_iff, Except.pure_ok_iff] at h
    obtain ⟨l', hl, r', hr, rfl⟩ := h
    simp only [Expr.lookupIds, ihl hl, ihr hr]
  | arrLookup node i idxs ih =>
    intro e' h
    simp only [typeVisitorExpr, Except.bind_ok_iff, Except.pure_ok_iff] at h
    obtain ⟨i', -, idxs', hidxs, rfl⟩ := h
    simp only [Expr.lookupIds, lookupIdsList_eq_flatMap, List.cons.injEq, true_and]
    have h₂ := typeVisitorExprs_forall₂ hidxs
    clear hidxs
    induction h₂ with
    | nil => rfl
    | cons h _ ih₂ =>
      simp only [List.mem_cons, forall_eq_or_imp] at ih
      rw [List.flatMap_cons, List.flatMap_cons, ih.1 h, ih₂ ih.2]
  | arrCreate node ty len ih =>
    intro e' h
    simp only [typeVisitorExpr, Except.bind_ok_iff, Except.pure_ok_iff] at h
    obtain ⟨len', hlen, rfl⟩ := h
    simp only [Expr.lookupIds, ih hlen]
  | _ =>
    intro e' h
    simp only [typeVisitorExpr, Except.bind_ok_iff, Except.pure_ok_iff] at h
    first | subst h; rfl | obtain ⟨_, -, rfl⟩ := h; rfl

theorem condLookupIds_typeVisitor {table : SymbolTable} {p : Option (PrecondNode Unit)} {p'} {c : Expr Unit} {c'}
    (hp : typeVisitorOpt (typeVisitorPrecond table) p = .ok p') (hc : typeVisitorExpr table c = .ok c') :
    condLookupIds p' c' = condLookupIds p c := by
  rw [condLookupIds, condLookupIds, lookupIds_typeVisitor c hc]
  congr 1
  cases p with
  | none =>
    simp only [typeVisitorOpt, Except.pure_ok_iff] at hp
    subst hp
    rfl
  | some p =>
    simp only [typeVisitorOpt, typeVisitorPrecond, Except.bind_ok_iff, Except.pure_ok_iff] at hp
    obtain ⟨_, ⟨e', he, rfl⟩, rfl⟩ := hp
    cases hpe : p.expr with
    | none =>
      simp only [hpe, Except.pure_ok_iff] at he
      subst he
      simp [hpe]
    | some e =>
      simp only [hpe, Except.bind_ok_iff, Except.pure_ok_iff] at he
      obtain ⟨e', he, rfl⟩ := he
      simp [hpe, lookupIds_typeVisitor e he]

theorem keyIds_typeVisitor :
    (∀ s : Stmt Unit, ∀ {st r}, typeVisitorStmt st s = .ok r → r.1.keyIds = s.keyIds) ∧
    ∀ b : Body Unit, ∀ {st r}, typeVisitorBody st b = .ok r → Body.keyIds r.1 = Body.keyIds b := by
  apply Stmt.induct
  case for_ =>
    intro node p pre c inc b ih st r h
    simp only [typeVisitorStmt, Except.bind_ok_iff, Except.pure_ok_iff] at h
    obtain ⟨p', hp, pre', -, c', hc, inc', -, ⟨b', st'⟩, hb, rfl⟩ := h
    simp only [Stmt.keyIds, ih hb, condLookupIds_typeVisitor hp hc]
  case if_ =>
    intro node p c b ih st r h
    simp only [typeVisitorStmt, Except.bind_ok_iff, Except.pure_ok_iff] at h
    obtain ⟨p', hp, c', hc, ⟨b', st'⟩, hb, rfl⟩ := h
    simp only [Stmt.keyIds, ih hb, condLookupIds_typeVisitor hp hc]
  case ifElse =>
    intro node p c b e ihb ihe st r h
    simp only [typeVisitorStmt, Except.bind_ok_iff, Except.pure_ok_iff] at h
    obtain ⟨p', hp, c', hc, ⟨b', st'⟩, hb, ⟨e', st''⟩, he, rfl⟩ := h
    simp only [Stmt.keyIds, ihb hb, ihe he, condLookupIds_typeVisitor hp hc]
  case cons =>
    intro s rest ihs ihr st r h
    simp only [typeVisitorBody, Except.bind_ok_iff, Except.pure_ok_iff] at h
    obtain ⟨⟨s', st'⟩, hs, ⟨rest', st''⟩, hr, rfl⟩ := h
    simp only [Body.keyIds, ihs hs, ihr hr]
  case nil =>
    intro st r h
    simp only [typeVisitorBody, Except.pure_ok_iff] at h
    subst h
    rfl
  all_goals
    intros
    simp_all only [typeVisitorStmt, Except.bind_ok_iff, Except.pure_ok_iff]
    rename_i h
    obtain ⟨_, -, rfl⟩ := h
    rfl

/-! ## The passes on a function -/

namespace FunctionNode

def connectLoops (f : FunctionNode σ) : Except BuildError (FunctionNode σ) :=
  match h : connectLoopsVisitBody none f.body with
  | .error e => .error e
  | .ok body => .ok { f with body, distinct := by rw [keyIds_connectLoops.2 _ h]; exact f.distinct }

/-- The function with its symbols, and the inputs. -/
def typeAst (f : FunctionNode Unit) : Except BuildError (FunctionNode Symbol × List Symbol) :=
  match h : typeVisitorBody (inputTable f.args, 0) f.body with
  | .error e => .error e
  | .ok r => .ok ({ f with body := r.1, distinct := by rw [keyIds_typeVisitor.2 _ h]; exact f.distinct },
      inputSymbols f.args)

def typeCheck (f : FunctionNode Symbol) : Except BuildError Unit := typeCheckVisitorBody f.retType f.body

def eliminateUnreachableCode (f : FunctionNode σ) : FunctionNode σ :=
  { f with
    body := eliminateUnreachableCodeVisitBody f.body
    distinct := f.distinct.sublist (keyIds_eliminate.2 _) }

/-- What `DGen::generate_json` hands to code generation. -/
def accept (f : FunctionNode Unit) : Except BuildError (FunctionNode Symbol × List Symbol) := do
  let f ← f.connectLoops
  let (f, inputs) ← f.typeAst
  f.typeCheck
  return (f.eliminateUnreachableCode, inputs)

theorem connectLoops_ok {f g : FunctionNode σ} (h : f.connectLoops = .ok g) :
    connectLoopsVisitBody none f.body = .ok g.body ∧ g.retType = f.retType ∧ g.args = f.args := by
  unfold connectLoops at h
  split at h
  · cases h
  · rename_i hb
    cases h
    exact ⟨hb, rfl, rfl⟩

theorem typeAst_ok {f : FunctionNode Unit} {g : FunctionNode Symbol} {inputs : List Symbol}
    (h : f.typeAst = .ok (g, inputs)) :
    (∃ st, typeVisitorBody (inputTable f.args, 0) f.body = .ok (g.body, st)) ∧ g.retType = f.retType ∧
      g.args = f.args ∧ inputs = inputSymbols f.args := by
  unfold typeAst at h
  split at h
  · cases h
  · rename_i r hb
    cases h
    exact ⟨⟨r.2, hb⟩, rfl, rfl, rfl⟩

/-- The stages of an accepted function. -/
theorem accept_ok {f : FunctionNode Unit} {g : FunctionNode Symbol} {inputs : List Symbol}
    (h : f.accept = .ok (g, inputs)) :
    ∃ f₁ f₂, f.connectLoops = .ok f₁ ∧ f₁.typeAst = .ok (f₂, inputs) ∧ f₂.typeCheck = .ok () ∧
      g = f₂.eliminateUnreachableCode := by
  simp only [accept, Except.bind_ok_iff, Except.pure_ok_iff, Prod.mk.injEq] at h
  obtain ⟨f₁, h₁, ⟨f₂, i₂⟩, h₂, _, h₃, rfl, rfl⟩ := h
  exact ⟨f₁, f₂, h₁, h₂, h₃, rfl⟩

end FunctionNode

end DGen
