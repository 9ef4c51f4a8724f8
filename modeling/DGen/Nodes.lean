/-
Every statement and every expression of a function, wherever it stands, and
what the passes make of each.
-/
import DGen.Semantics

namespace DGen

/-! ## Expressions -/

mutual
/-- The expression and those in it. -/
def Expr.nodes {σ : Type} : Expr σ → List (Expr σ)
  | .binOp node op lhs rhs => .binOp node op lhs rhs :: (lhs.nodes ++ rhs.nodes)
  | .arrLookup node i idxs => .arrLookup node i idxs :: nodesList idxs
  | .arrCreate node elem len => .arrCreate node elem len :: len.nodes
  | e => [e]

def Expr.nodesList {σ : Type} : List (Expr σ) → List (Expr σ)
  | [] => []
  | e :: es => e.nodes ++ nodesList es
end

theorem Expr.mem_nodes_self {σ : Type} (e : Expr σ) : e ∈ e.nodes := by cases e <;> simp [nodes]

theorem Expr.forall_mem_nodesList {σ : Type} {P : Expr σ → Prop} {es : List (Expr σ)} :
    (∀ s ∈ nodesList es, P s) ↔ ∀ e ∈ es, ∀ s ∈ e.nodes, P s := by
  induction es with
  | nil => simp [nodesList]
  | cons e es ih => simp only [nodesList, List.forall_mem_append, List.forall_mem_cons, ih]

/-! ## Statements -/

mutual
/-- The statement and those in it, the assignments of its loops among them. -/
def Stmt.nodes {σ : Type} : Stmt σ → List (Stmt σ)
  | .for_ node precond preAsg cond incAsg body =>
    .for_ node precond preAsg cond incAsg body ::
      ((preAsg.map Stmt.asg).toList ++ (incAsg.map Stmt.asg).toList ++ Body.nodes body)
  | .if_ node precond cond body => .if_ node precond cond body :: Body.nodes body
  | .ifElse node precond cond body elseBody =>
    .ifElse node precond cond body elseBody :: (Body.nodes body ++ Body.nodes elseBody)
  | s => [s]

def Body.nodes {σ : Type} : Body σ → List (Stmt σ)
  | [] => []
  | s :: rest => s.nodes ++ Body.nodes rest
end

/-- The expression of a precondition, if it has one. -/
def precondExpr {σ : Type} (p : Option (PrecondNode σ)) : List (Expr σ) := (p.bind (·.expr)).toList

/-- A statement's conditions, those of the statements in it apart. -/
def Stmt.conds {σ : Type} : Stmt σ → List (Expr σ)
  | .for_ _ precond _ cond _ _ | .if_ _ precond cond _ | .ifElse _ precond cond _ _ =>
    precondExpr precond ++ [cond]
  | _ => []

/-- The roots of a statement's expressions, those of the statements in it apart. -/
def Stmt.exprs {σ : Type} : Stmt σ → List (Expr σ)
  | .asg n => [n.lhs.toExpr, n.rhs]
  | .ret n => [n.expr]
  | .def_ n => n.rhs.toList
  | s => s.conds

/-- The literals of a function, each a global of the module. -/
def FunctionNode.literals {σ : Type} (f : FunctionNode σ) : List StringNode :=
  (Body.nodes f.body).flatMap fun s => s.exprs.flatMap fun e => e.nodes.filterMap fun
    | .string node str => some ⟨node.id, str⟩
    | _ => none

/-- The condition a statement's `CreateCondBr` is given. -/
def Stmt.branchConds {σ : Type} : Stmt σ → List (Expr σ)
  | .for_ _ _ _ cond _ _ | .if_ _ _ cond _ | .ifElse _ _ cond _ _ => [cond]
  | _ => []

/-- The precondition and the condition of an if or a loop. -/
def Stmt.branch {σ : Type} : Stmt σ → Option (Option (PrecondNode σ) × Expr σ)
  | .for_ _ precond _ cond _ _ | .if_ _ precond cond _ | .ifElse _ precond cond _ _ => some (precond, cond)
  | _ => none

theorem Stmt.branch_conds {σ : Type} {s : Stmt σ} {p : Option (PrecondNode σ)} {c : Expr σ}
    (h : s.branch = some (p, c)) : s.conds = precondExpr p ++ [c] := by
  cases s <;> cases h <;> rfl

/-- The lookups of a condition and its precondition are nodes of the function. -/
theorem condLookupIds_sublist {σ : Type} {s : Stmt σ} {p : Option (PrecondNode σ)} {c : Expr σ}
    (h : s.branch = some (p, c)) :
    (∀ t : Stmt σ, s ∈ t.nodes → (condLookupIds p c).Sublist t.keyIds) ∧
    ∀ b : Body σ, s ∈ Body.nodes b → (condLookupIds p c).Sublist (Body.keyIds b) := by
  have hasg {a : Option (AsgNode σ)} : s ∉ (a.map Stmt.asg).toList := by
    intro hs
    cases a with
    | none => simp at hs
    | some a =>
      obtain rfl : s = .asg a := by simpa using hs
      cases h
  apply Stmt.induct
  case for_ =>
    intro node p' pre c' inc b ih hs
    simp only [Stmt.nodes, List.mem_cons, List.mem_append] at hs
    rw [Stmt.keyIds]
    obtain rfl | (hs | hs) | hs := hs
    · cases h
      exact (List.sublist_append_left ..).cons _
    · exact absurd hs hasg
    · exact absurd hs hasg
    · exact ((ih hs).trans (List.sublist_append_right ..)).cons _
  case if_ =>
    intro node p' c' b ih hs
    simp only [Stmt.nodes, List.mem_cons] at hs
    rw [Stmt.keyIds]
    obtain rfl | hs := hs
    · cases h
      exact List.sublist_append_left ..
    · exact (ih hs).trans (List.sublist_append_right ..)
  case ifElse =>
    intro node p' c' b e ihb ihe hs
    simp only [Stmt.nodes, List.mem_cons, List.mem_append] at hs
    rw [Stmt.keyIds]
    obtain rfl | hs | hs := hs
    · cases h
      exact List.sublist_append_left ..
    · exact ((ihb hs).trans (List.sublist_append_left ..)).trans (List.sublist_append_right ..)
    · exact ((ihe hs).trans (List.sublist_append_right ..)).trans (List.sublist_append_right ..)
  case nil => simp [Body.nodes]
  case cons =>
    intro t rest iht ihr hs
    simp only [Body.nodes, List.mem_append] at hs
    rw [Body.keyIds]
    obtain hs | hs := hs
    · exact (iht hs).trans (List.sublist_append_left ..)
    · exact (ihr hs).trans (List.sublist_append_right ..)
  all_goals
    intros
    simp_all [Stmt.nodes, Stmt.branch]

theorem Stmt.branchConds_subset {σ : Type} {s : Stmt σ} {c : Expr σ} (h : c ∈ s.branchConds) :
    c ∈ s.conds ∧ c ∈ s.exprs := by
  cases s <;> simp_all [branchConds, conds, exprs]

/-! ## Through the passes -/

theorem Stmt.mem_nodes_self {σ : Type} (s : Stmt σ) : s ∈ s.nodes := by cases s <;> simp [nodes]

theorem Stmt.nodes_of_isJump {σ : Type} {s : Stmt σ} (h : s.isJump = true) : s.nodes = [s] := by
  cases s <;> first | rfl | cases h

theorem Stmt.eliminate_of_isJump {σ : Type} {s : Stmt σ} (h : s.isJump = true) :
    eliminateUnreachableCodeVisitStmt s = s := by
  cases s <;> first | rfl | cases h

/-- Elimination drops statements, and touches the bodies of the others only. -/
theorem nodes_eliminate {σ : Type} :
    (∀ s : Stmt σ, ∀ n ∈ (eliminateUnreachableCodeVisitStmt s).nodes,
      ∃ m ∈ s.nodes, n = eliminateUnreachableCodeVisitStmt m) ∧
    ∀ b : Body σ, ∀ n ∈ Body.nodes (eliminateUnreachableCodeVisitBody b),
      ∃ m ∈ Body.nodes b, n = eliminateUnreachableCodeVisitStmt m := by
  apply Stmt.induct
  case for_ =>
    intro node p pre c inc b ih n hn
    simp only [eliminateUnreachableCodeVisitStmt, Stmt.nodes, List.mem_cons, List.mem_append] at hn
    rcases hn with rfl | hn | hn
    · exact ⟨.for_ node p pre c inc b, Stmt.mem_nodes_self _, rfl⟩
    · refine ⟨n, by simp only [Stmt.nodes, List.mem_cons, List.mem_append]; exact .inr (.inl hn), ?_⟩
      simp only [Option.mem_toList, Option.map_eq_some_iff] at hn
      obtain ⟨_, -, rfl⟩ | ⟨_, -, rfl⟩ := hn <;> rfl
    · obtain ⟨m, hm, rfl⟩ := ih n hn
      exact ⟨m, by simp [Stmt.nodes, hm], rfl⟩
  case if_ =>
    intro node p c b ih n hn
    simp only [eliminateUnreachableCodeVisitStmt, Stmt.nodes, List.mem_cons] at hn
    rcases hn with rfl | hn
    · exact ⟨.if_ node p c b, Stmt.mem_nodes_self _, rfl⟩
    · obtain ⟨m, hm, rfl⟩ := ih n hn
      exact ⟨m, by simp [Stmt.nodes, hm], rfl⟩
  case ifElse =>
    intro node p c b e ihb ihe n hn
    simp only [eliminateUnreachableCodeVisitStmt, Stmt.nodes, List.mem_cons, List.mem_append] at hn
    rcases hn with rfl | hn | hn
    · exact ⟨.ifElse node p c b e, Stmt.mem_nodes_self _, rfl⟩
    · obtain ⟨m, hm, rfl⟩ := ihb n hn
      exact ⟨m, by simp [Stmt.nodes, hm], rfl⟩
    · obtain ⟨m, hm, rfl⟩ := ihe n hn
      exact ⟨m, by simp [Stmt.nodes, hm], rfl⟩
  case nil => simp [eliminateUnreachableCodeVisitBody, Body.nodes]
  case cons =>
    intro s rest ihs ihr n hn
    rw [eliminateUnreachableCodeVisitBody] at hn
    split at hn
    next hj =>
      have hnodes := Stmt.nodes_of_isJump hj
      simp only [Body.nodes, hnodes, List.append_nil, List.mem_singleton] at hn
      exact ⟨s, by simp [Body.nodes, hnodes], hn.trans (Stmt.eliminate_of_isJump hj).symm⟩
    next =>
      simp only [Body.nodes, List.mem_append] at hn ⊢
      obtain ⟨m, hm, rfl⟩ | ⟨m, hm, rfl⟩ := hn.imp (ihs n) (ihr n)
      · exact ⟨m, .inl hm, rfl⟩
      · exact ⟨m, .inr hm, rfl⟩
  all_goals
    intros
    simp_all only [Stmt.nodes, eliminateUnreachableCodeVisitStmt, List.mem_singleton, exists_eq_left]

/-- Every symbol of a table has `P`. -/
def SymbolTable.All (P : Symbol → Prop) (table : SymbolTable) : Prop := ∀ t ∈ table, ∀ e ∈ t, P e.2

theorem SymbolTable.All.addSymbol {P : Symbol → Prop} {table : SymbolTable} (h : table.All P) (n : String)
    {s : Symbol} (hs : P s) : (table.addSymbol n s).All P := by
  cases table with
  | nil => simpa [SymbolTable.addSymbol, SymbolTable.All] using hs
  | cons t outer =>
    simp only [SymbolTable.All, SymbolTable.addSymbol, List.forall_mem_cons] at h ⊢
    exact ⟨⟨hs, h.1⟩, h.2⟩

theorem SymbolTable.All.findSymbol {P : Symbol → Prop} {n : String} {s : Symbol} :
    ∀ {table : SymbolTable}, table.All P → table.findSymbol n = some s → P s
  | [], _, h => by cases h
  | t :: outer, hall, h => by
    simp only [SymbolTable.All, List.forall_mem_cons] at hall
    rw [SymbolTable.findSymbol] at h
    split at h
    next e he =>
      cases h
      exact hall.1 _ (List.mem_of_find?_eq_some he)
    next => exact SymbolTable.All.findSymbol hall.2 h

theorem SymbolTable.All.enter {P : Symbol → Prop} {table : SymbolTable} (h : table.All P) :
    SymbolTable.All P ([] :: table) := by
  simpa [SymbolTable.All] using h

/-- A statement that resolution has made, over a table whose symbols have `P`. -/
def Stmt.ResolvedFrom (P : Symbol → Prop) (n : Stmt Symbol) (m : Stmt Unit) : Prop :=
  ∃ st st', st.1.All P ∧ typeVisitorStmt st m = .ok (n, st')

theorem typeVisitorDef_all {P : Symbol → Prop} (hvar : ∀ s : Symbol, s.isInput = false → P s) {st : TypeState}
    {n : DefNode Unit} {r : DefNode Symbol × TypeState} (h : typeVisitorDef st n = .ok r)
    (hall : st.1.All P) : r.2.1.All P := by
  simp only [typeVisitorDef, Except.bind_ok_iff, Except.pure_ok_iff] at h
  obtain ⟨_, -, rfl⟩ := h
  exact hall.addSymbol n.name (hvar _ rfl)

/-- Resolution makes a statement of a statement. -/
theorem nodes_typeVisitor {P : Symbol → Prop} (hvar : ∀ s : Symbol, s.isInput = false → P s) :
    (∀ s : Stmt Unit, ∀ {st r}, typeVisitorStmt st s = .ok r → st.1.All P →
      r.2.1.All P ∧ ∀ n ∈ r.1.nodes, ∃ m ∈ s.nodes, n.ResolvedFrom P m) ∧
    ∀ b : Body Unit, ∀ {st r}, typeVisitorBody st b = .ok r → st.1.All P →
      r.2.1.All P ∧ ∀ n ∈ Body.nodes r.1, ∃ m ∈ Body.nodes b, n.ResolvedFrom P m := by
  have hasg {a : Option (AsgNode Unit)} {a' : Option (AsgNode Symbol)} {st : TypeState} (hall : st.1.All P)
      (h : typeVisitorOpt (typeVisitorAsg st.1) a = .ok a') :
      ∀ n ∈ (a'.map Stmt.asg).toList, ∃ m ∈ (a.map Stmt.asg).toList, n.ResolvedFrom P m := by
    intro n hn
    cases a with
    | none =>
      simp only [typeVisitorOpt, Except.pure_ok_iff] at h
      subst h
      simp at hn
    | some a =>
      simp only [typeVisitorOpt, Except.bind_ok_iff, Except.pure_ok_iff] at h
      obtain ⟨a', ha, rfl⟩ := h
      simp only [Option.map_some, Option.toList_some, List.mem_singleton] at hn
      subst hn
      exact ⟨.asg a, by simp, st, st, hall, by simp [typeVisitorStmt, ha, bind, Except.bind, pure, Except.pure]⟩
  have hleaf {s : Stmt Unit} {st : TypeState} {n : Stmt Symbol} (h : typeVisitorStmt st s = .ok (n, st))
      (hall : st.1.All P) (hn : n.nodes = [n]) :
      st.1.All P ∧ ∀ n' ∈ n.nodes, ∃ m ∈ s.nodes, n'.ResolvedFrom P m := by
    rw [hn, List.forall_mem_singleton]
    exact ⟨hall, s, s.mem_nodes_self, st, st, hall, h⟩
  apply Stmt.induct
  case for_ =>
    intro node p pre c inc b ih st r h hall
    have h' := h
    simp only [typeVisitorStmt, Except.bind_ok_iff, Except.pure_ok_iff] at h
    obtain ⟨p', hp, pre', hpre, c', hc, inc', hinc, ⟨b', st'⟩, hb, rfl⟩ := h
    refine ⟨hall, ?_⟩
    simp only [Stmt.nodes, List.forall_mem_cons, List.forall_mem_append]
    refine ⟨⟨_, List.mem_cons_self .., st, _, hall, h'⟩, ⟨fun n hn => ?_, fun n hn => ?_⟩, fun n hn => ?_⟩
    · obtain ⟨m, hm, hr⟩ := hasg hall hpre n hn
      exact ⟨m, by simp [hm], hr⟩
    · obtain ⟨m, hm, hr⟩ := hasg hall hinc n hn
      exact ⟨m, by simp [hm], hr⟩
    · obtain ⟨m, hm, hr⟩ := (ih hb hall.enter).2 n hn
      exact ⟨m, by simp [hm], hr⟩
  case if_ =>
    intro node p c b ih st r h hall
    have h' := h
    simp only [typeVisitorStmt, Except.bind_ok_iff, Except.pure_ok_iff] at h
    obtain ⟨p', hp, c', hc, ⟨b', st'⟩, hb, rfl⟩ := h
    refine ⟨hall, ?_⟩
    simp only [Stmt.nodes, List.forall_mem_cons]
    refine ⟨⟨_, List.mem_cons_self .., st, _, hall, h'⟩, fun n hn => ?_⟩
    obtain ⟨m, hm, hr⟩ := (ih hb hall.enter).2 n hn
    exact ⟨m, by simp [hm], hr⟩
  case ifElse =>
    intro node p c b e ihb ihe st r h hall
    have h' := h
    simp only [typeVisitorStmt, Except.bind_ok_iff, Except.pure_ok_iff] at h
    obtain ⟨p', hp, c', hc, ⟨b', st'⟩, hb, ⟨e', st''⟩, he, rfl⟩ := h
    refine ⟨hall, ?_⟩
    simp only [Stmt.nodes, List.forall_mem_cons, List.forall_mem_append]
    refine ⟨⟨_, List.mem_cons_self .., st, _, hall, h'⟩, fun n hn => ?_, fun n hn => ?_⟩
    · obtain ⟨m, hm, hr⟩ := (ihb hb hall.enter).2 n hn
      exact ⟨m, by simp [hm], hr⟩
    · obtain ⟨m, hm, hr⟩ := (ihe he hall.enter).2 n hn
      exact ⟨m, by simp [hm], hr⟩
  case def_ =>
    intro d st r h hall
    have h' := h
    simp only [typeVisitorStmt, Except.bind_ok_iff, Except.pure_ok_iff] at h
    obtain ⟨⟨d', st'⟩, hd, rfl⟩ := h
    refine ⟨typeVisitorDef_all hvar hd hall, ?_⟩
    simp only [Stmt.nodes, List.forall_mem_singleton]
    exact ⟨_, List.mem_singleton_self _, st, _, hall, h'⟩
  case nil =>
    intro st r h hall
    simp only [typeVisitorBody, Except.pure_ok_iff] at h
    subst h
    exact ⟨hall, by simp [Body.nodes]⟩
  case cons =>
    intro s rest ihs ihr st r h hall
    simp only [typeVisitorBody, Except.bind_ok_iff, Except.pure_ok_iff] at h
    obtain ⟨⟨s', st'⟩, hs, ⟨rest', st''⟩, hr, rfl⟩ := h
    obtain ⟨hall', hs⟩ := ihs hs hall
    obtain ⟨hall'', hr⟩ := ihr hr hall'
    refine ⟨hall'', ?_⟩
    simp only [Body.nodes, List.forall_mem_append]
    refine ⟨fun n hn => ?_, fun n hn => ?_⟩
    · obtain ⟨m, hm, h⟩ := hs n hn
      exact ⟨m, by simp [hm], h⟩
    · obtain ⟨m, hm, h⟩ := hr n hn
      exact ⟨m, by simp [hm], h⟩
  case asg | ret =>
    intro n st r h hall
    have h' := h
    simp only [typeVisitorStmt, Except.bind_ok_iff, Except.pure_ok_iff] at h
    obtain ⟨_, -, rfl⟩ := h
    exact hleaf h' hall rfl
  case cont | brk =>
    intro node loop st r h hall
    have h' := h
    simp only [typeVisitorStmt, Except.pure_ok_iff] at h
    subst h
    exact hleaf h' hall rfl

theorem inputTable_all (args : List (DefNode Unit)) : (inputTable args).All fun s => s ∈ inputSymbols args := by
  have hfold : ∀ (l : List Symbol) (table : SymbolTable), table.All (· ∈ inputSymbols args) →
      (∀ s ∈ l, s ∈ inputSymbols args) →
      (l.foldl (fun table s => table.addSymbol s.name s) table).All (· ∈ inputSymbols args) := by
    intro l
    induction l with
    | nil => exact fun _ h _ => h
    | cons s l ih =>
      intro table h hl
      exact ih _ (h.addSymbol _ (hl s (by simp))) fun s hs => hl s (by simp [hs])
  exact hfold _ _ (by simp [SymbolTable.All]) fun _ hs => hs

/-- The statements of an accepted function: each is resolved, with the
function's inputs for its input symbols, and then rid of unreachable code. -/
theorem FunctionNode.accept_nodes {f : FunctionNode Unit} {g : FunctionNode Symbol} {inputs : List Symbol}
    (h : f.accept = .ok (g, inputs)) {n : Stmt Symbol} (hn : n ∈ Body.nodes g.body) :
    ∃ n₀ m, n = eliminateUnreachableCodeVisitStmt n₀ ∧
      n₀.ResolvedFrom (fun s => s.isInput = true → s ∈ inputs) m := by
  obtain ⟨f₁, f₂, -, h₂, -, rfl⟩ := accept_ok h
  obtain ⟨⟨st, hb⟩, -, -, rfl⟩ := typeAst_ok h₂
  obtain ⟨n₀, hn₀, rfl⟩ := nodes_eliminate.2 _ n hn
  have hvar : ∀ s : Symbol, s.isInput = false → s.isInput = true → s ∈ inputSymbols f₁.args := by simp_all
  have hall : (inputTable f₁.args).All fun s => s.isInput = true → s ∈ inputSymbols f₁.args :=
    fun t ht e he _ => inputTable_all f₁.args t ht e he
  obtain ⟨m, -, hres⟩ := ((nodes_typeVisitor hvar).2 _ hb hall).2 n₀ hn₀
  exact ⟨n₀, m, rfl, hres⟩

end DGen
