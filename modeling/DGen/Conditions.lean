/-
The conditions an accepted program gives the solver, in any state a run comes
to: which of them the translation has no case for (`unsupported_iff`).

Lookups are nodes of their own, so that a lookup's indices are those its own
callback has set, as many as it has; and resolution has bound the identifiers.
-/
import DGen.Unsupported
import DGen.Dominance
import DGen.Forcing

namespace DGen

open Memory StateT

/-! ## Accepted conditions -/

/-- The identifiers of a condition and its precondition are used in the scopes of their statement. -/
theorem branch_uses {σ : Type} {n : Stmt σ} {p : Option (PrecondNode σ)} {c : Expr σ} (h : n.branch = some (p, c)) :
    (∀ s : Stmt σ, n ∈ s.nodes → ∀ scopes, ∃ scopes', ∀ i ∈ p.toList.flatMap PrecondNode.idents ++ c.idents,
      (i, scopes') ∈ s.uses scopes) ∧
    ∀ b : Body σ, n ∈ Body.nodes b → ∀ scopes, ∃ scopes', ∀ i ∈ p.toList.flatMap PrecondNode.idents ++ c.idents,
      (i, scopes') ∈ Body.uses scopes b := by
  have hasg {a : Option (AsgNode σ)} : n ∉ (a.map Stmt.asg).toList := by
    intro hn
    cases a with
    | none => simp at hn
    | some a =>
      obtain rfl : n = .asg a := by simpa using hn
      cases h
  apply Stmt.induct
  case for_ =>
    intro node p' pre c' inc b ih hn scopes
    simp only [Stmt.nodes, List.mem_cons, List.mem_append] at hn
    obtain rfl | (hn | hn) | hn := hn
    · cases h
      refine ⟨scopes, fun i hi => ?_⟩
      simp only [List.mem_append] at hi
      simp only [Stmt.uses, List.mem_append, List.mem_map, Prod.mk.injEq, and_true, exists_eq_right]
      exact .inl (hi.imp id fun hi => .inr (.inl hi))
    · exact absurd hn hasg
    · exact absurd hn hasg
    · obtain ⟨scopes', hall⟩ := ih hn ([] :: scopes)
      exact ⟨scopes', fun i hi => List.mem_append_right _ (hall i hi)⟩
  case if_ =>
    intro node p' c' b ih hn scopes
    simp only [Stmt.nodes, List.mem_cons] at hn
    obtain rfl | hn := hn
    · cases h
      exact ⟨scopes, fun i hi => List.mem_append_left _ (List.mem_map_of_mem hi)⟩
    · obtain ⟨scopes', hall⟩ := ih hn ([] :: scopes)
      exact ⟨scopes', fun i hi => List.mem_append_right _ (hall i hi)⟩
  case ifElse =>
    intro node p' c' b e ihb ihe hn scopes
    simp only [Stmt.nodes, List.mem_cons, List.mem_append] at hn
    obtain rfl | hn | hn := hn
    · cases h
      exact ⟨scopes, fun i hi => List.mem_append_left _ (List.mem_map_of_mem hi)⟩
    · obtain ⟨scopes', hall⟩ := ihb hn ([] :: scopes)
      exact ⟨scopes', fun i hi => List.mem_append_right _ (List.mem_append_left _ (hall i hi))⟩
    · obtain ⟨scopes', hall⟩ := ihe hn ([] :: scopes)
      exact ⟨scopes', fun i hi => List.mem_append_right _ (List.mem_append_right _ (hall i hi))⟩
  case nil => simp [Body.nodes]
  case cons =>
    intro t rest iht ihr hn scopes
    simp only [Body.nodes, List.mem_append] at hn
    obtain hn | hn := hn
    · obtain ⟨scopes', hall⟩ := iht hn scopes
      exact ⟨scopes', fun i hi => List.mem_append_left _ (hall i hi)⟩
    · obtain ⟨scopes', hall⟩ := ihr hn (Stmt.declare scopes t)
      exact ⟨scopes', fun i hi => List.mem_append_right _ (hall i hi)⟩
  all_goals
    intros
    simp_all [Stmt.nodes, Stmt.branch]

/-- A symbol in scope, or of one of some definitions. -/
def DefinedBy (scopes : Scopes Symbol) (defs : List (DefNode Symbol)) (x : Symbol) : Prop :=
  x ∈ scopes.symbols ∨ ∃ d ∈ defs, d.sym = x

theorem DefinedBy.mono {scopes : Scopes Symbol} {defs defs' : List (DefNode Symbol)} {x : Symbol}
    (h : DefinedBy scopes defs x) (hsub : ∀ d ∈ defs, d ∈ defs') : DefinedBy scopes defs' x :=
  h.imp_right fun ⟨d, hd, hx⟩ => ⟨d, hsub d hd, hx⟩

theorem DefinedBy.enter {scopes : Scopes Symbol} {defs : List (DefNode Symbol)} {x : Symbol}
    (h : DefinedBy ([] :: scopes) defs x) : DefinedBy scopes defs x := by rwa [DefinedBy, Scopes.symbols_enter] at h

/-- What is in scope is defined in the body, or was in scope before. -/
theorem uses_defined : (∀ s : Stmt Symbol, ∀ scopes, (∀ u ∈ s.uses scopes, ∀ x ∈ u.2.symbols, DefinedBy scopes s.defs x) ∧
      ∀ x ∈ (Stmt.declare scopes s).symbols, DefinedBy scopes s.defs x) ∧
    ∀ b : Body Symbol, ∀ scopes, ∀ u ∈ Body.uses scopes b, ∀ x ∈ u.2.symbols, DefinedBy scopes (Body.defs b) x := by
  have hhere {is : List (IdentNode Symbol)} {scopes : Scopes Symbol} {defs : List (DefNode Symbol)} :
      ∀ u ∈ is.map (·, scopes), ∀ x ∈ u.2.symbols, DefinedBy scopes defs x := by
    intro u hu x hx
    obtain ⟨i, -, rfl⟩ := List.mem_map.mp hu
    exact .inl hx
  apply Stmt.induct
  case for_ | if_ =>
    intros
    rename_i ih scopes
    refine ⟨fun u hu => ?_, fun x hx => .inl hx⟩
    obtain hu | hu := List.mem_append.mp hu
    · exact hhere u hu
    · exact fun x hx => (ih _ u hu x hx).enter
  case ifElse =>
    intro node p c b e ihb ihe scopes
    refine ⟨fun u hu => ?_, fun x hx => .inl hx⟩
    obtain hu | hu := List.mem_append.mp hu
    · exact hhere u hu
    · obtain hu | hu := List.mem_append.mp hu
      · exact fun x hx => (ihb _ u hu x hx).enter.mono fun d hd => List.mem_append_left _ hd
      · exact fun x hx => (ihe _ u hu x hx).enter.mono fun d hd => List.mem_append_right _ hd
  case def_ =>
    intro d scopes
    have hdeclared : ∀ x ∈ (scopes.declare d).symbols, DefinedBy scopes [d] x := by
      intro x hx
      rw [Scopes.symbols_declare] at hx
      exact hx.imp id fun hx => ⟨d, List.mem_singleton_self d, hx.symm⟩
    refine ⟨fun u hu => ?_, hdeclared⟩
    obtain ⟨i, -, rfl⟩ := List.mem_map.mp hu
    exact hdeclared
  case nil => exact fun scopes u hu => by cases hu
  case cons =>
    intro s rest ihs ihr scopes u hu x hx
    rw [Body.defs]
    obtain hu | hu := List.mem_append.mp hu
    · exact ((ihs scopes).1 u hu x hx).mono fun d hd => List.mem_append_left _ hd
    · obtain hin | hdef := ihr _ u hu x hx
      · exact ((ihs scopes).2 x hin).mono fun d hd => List.mem_append_left _ hd
      · exact .inr (hdef.imp fun d hd => ⟨List.mem_append_right _ hd.1, hd.2⟩)
  case cont | brk => exact fun _ _ _ => ⟨fun u hu => (by cases hu), fun x hx => .inl hx⟩
  all_goals exact fun _ _ => ⟨hhere, fun x hx => .inl hx⟩

/-- Resolution binds to a parameter's input, or to the variable of a definition of the body. -/
theorem binding_cases {f : FunctionNode Unit} {g : FunctionNode Symbol} {inputs : List Symbol}
    (h : f.typeAst = .ok (g, inputs)) {u : IdentNode Symbol × Scopes Symbol} (hu : u ∈ Body.uses [[]] g.body) :
    (∃ i, u.1.symbol.ref = .input i ∧ inputs[i]? = some u.1.symbol) ∨
      ∃ (k : Nat) (d : DefNode Symbol), (Body.defs g.body)[k]? = some d ∧ u.1.symbol = d.symbolAt k := by
  obtain ⟨rfl, -, hbound, hsyms⟩ := (typeAst_lexical f).2 g inputs h
  have hbinding := hbound u hu
  rw [Scopes.binding] at hbinding
  cases hv : u.2.visible u.1.name with
  | some d =>
    rw [hv] at hbinding
    have hsym : d.sym = u.1.symbol := by simpa using hbinding
    obtain ⟨scope, hscope, hd⟩ := List.exists_of_findSome?_eq_some hv
    have hmem : u.1.symbol ∈ u.2.symbols := ⟨scope, hscope, d, List.mem_of_find?_eq_some hd, hsym⟩
    obtain hin | ⟨d', hd', hsym'⟩ := uses_defined.2 _ [[]] u hu _ hmem
    · simp [Scopes.symbols] at hin
    · obtain ⟨k, hk⟩ := List.getElem?_of_mem hd'
      exact .inr ⟨k, d', hk, hsym'.symm.trans (hsyms k d' hk)⟩
  | none =>
    rw [hv] at hbinding
    have hmem : u.1.symbol ∈ inputSymbols f.args := List.mem_reverse.mp (List.mem_of_find?_eq_some hbinding)
    obtain ⟨i, hi, hs⟩ := List.mem_mapIdx.mp hmem
    refine .inl ⟨i, by rw [← hs], ?_⟩
    rw [← hs, inputSymbols, List.getElem?_mapIdx, List.getElem?_eq_getElem hi]
    rfl

/-- What is known of the conditions of an accepted function: their types, and the
symbols of their identifiers, which for variables are one a reference. -/
theorem FunctionNode.accept_formulas {f : FunctionNode Unit} {g : FunctionNode Symbol} {inputs : List Symbol}
    (h : f.accept = .ok (g, inputs)) {s : Stmt Symbol} (hs : s ∈ Body.nodes g.body) {precond : PrecondNode Symbol}
    {cond : Expr Symbol} (hb : s.branch = some (some precond, cond)) :
    FormulasTyped inputs cond precond ∧ ∀ n ∈ precond.idents ++ cond.idents, ∀ n' ∈ precond.idents ++ cond.idents,
      n.symbol.isInput = false → n'.symbol.isInput = false → n.symbol.ref = n'.symbol.ref → n.symbol = n'.symbol := by
  have hchecks := (accept_checks h hs).conds
  obtain ⟨f₁, f₂, -, h₂, -, rfl⟩ := accept_ok h
  obtain ⟨scopes, huses⟩ := (branch_uses hb).2 _ hs [[]]
  rw [Option.toList_some, List.flatMap_singleton] at huses
  have hcases n (hn : n ∈ precond.idents ++ cond.idents) :=
    binding_cases h₂ ((uses_eliminate.2 f₂.body [[]]).subset (huses n hn))
  rw [Stmt.branch_conds hb] at hchecks
  refine ⟨⟨?_, fun e he => ?_, fun n hn hnin => ?_⟩, fun n hn n' hn' hnin hnin' href => ?_⟩
  · obtain ⟨hty, -⟩ := hchecks cond (List.mem_append_right _ (List.mem_singleton_self _))
    obtain ⟨t, ht, hk⟩ := Expr.typeIs_iff.mp hty
    exact ⟨t, ht, (Ty.eqKind_iff.mp hk).2⟩
  · obtain ⟨hty, -⟩ := hchecks e (List.mem_append_left _ (by simp [precondExpr, he]))
    obtain ⟨t, ht, -⟩ := Expr.typeIs_iff.mp hty
    exact ⟨t, ht⟩
  · obtain hinput | ⟨k, d, -, hsym⟩ := hcases n hn
    · exact hinput
    · rw [hsym] at hnin
      cases hnin
  · have hvar : ∀ n ∈ precond.idents ++ cond.idents, n.symbol.isInput = false →
        ∃ (k : Nat) (d : DefNode Symbol), (Body.defs f₂.body)[k]? = some d ∧ n.symbol = d.symbolAt k := by
      intro n hn hnin
      obtain ⟨i, href, -⟩ | hvar := hcases n hn
      · rw [Symbol.isInput, href] at hnin
        cases hnin
      · exact hvar
    obtain ⟨k, d, hd, hsym⟩ := hvar n hn hnin
    obtain ⟨k', d', hd', hsym'⟩ := hvar n' hn' hnin'
    rw [hsym, hsym'] at href
    obtain rfl := SymRef.var.inj href
    cases hd.symm.trans hd'
    exact hsym.trans hsym'.symm

/-! ## A state in which every operand answers -/

/-- The lookup that an operand is. -/
def Expr.ownLookup : Expr Symbol → Option NodeId
  | .arrLookup node _ _ => some node.id
  | _ => none

theorem ownLookup_sublist (e : Expr Symbol) : (e.leaves.filterMap Expr.ownLookup).Sublist e.lookupIds := by
  induction e with
  | binOp node op lhs rhs ihl ihr =>
    rw [Expr.leaves, List.filterMap_append, Expr.lookupIds]
    exact ihl.append ihr
  | arrLookup node n idxs => exact List.sublist_append_left [node.id] _
  | _ => exact List.nil_sublist _

theorem leaves_idents (e : Expr Symbol) : ∀ x ∈ e.leaves, ∀ n ∈ x.idents, n ∈ e.idents := by
  induction e with
  | binOp node op lhs rhs ihl ihr =>
    intro x hx n hn
    rw [Expr.idents]
    obtain hx | hx := List.mem_append.mp hx
    · exact List.mem_append_left _ (ihl x hx n hn)
    · exact List.mem_append_right _ (ihr x hx n hn)
  | _ =>
    intro x hx n hn
    obtain rfl := List.mem_singleton.mp hx
    exact hn

/-- A block of zeros, and one with its address. -/
theorem exists_blocks (inputs : List Symbol) : ∃ (w : World) (p q : Ptr), w.Whole inputs ∧ w.Ones ∧
    w.mem.load .int32 p = some (.int32 0) ∧ w.mem.load .int8 p = some (.int8 0) ∧
      w.mem.load .ptr q = some (.ptr p) := by
  obtain ⟨w, hw⟩ : ∃ w, w = World.start (Sample.draws 1) inputs := ⟨_, rfl⟩
  have hwhole : w.Whole inputs := hw ▸ World.Whole.start _ _
  have hones : w.Ones := by
    subst hw
    refine ⟨fun _ => rfl, fun j name type n elems hj => ?_⟩
    obtain ⟨s, -, hs⟩ := Option.map_eq_some_iff.mp hj
    have hval := congrArg SymObj.val hs
    obtain h | h | h | ⟨_, h⟩ := s.type.newSym_cases <;> cases h.symm.trans hval
  obtain ⟨w₁, hw₁⟩ : ∃ w₁, w₁ = w.addBlock (List.replicate 4 (.byte 0)) := ⟨_, rfl⟩
  obtain ⟨w₂, hw₂⟩ : ∃ w₂, w₂ = w₁.addBlock (List.replicate 8 .undef) := ⟨_, rfl⟩
  have hs₂ : w.Steps w₂ := by
    subst hw₂ hw₁
    exact .tail (.single (.block w _ (by simp))) (.block _ _ (by simp))
  have hzeros : w₂.mem w.next = some (List.replicate 4 (.byte 0)) := by
    subst hw₂ hw₁
    have hne : w.next ≠ w.next + 1 := Nat.ne_of_lt (Nat.lt_succ_self _)
    exact (Function.update_of_ne hne ..).trans (Function.update_self ..)
  have hcell : w₂.mem (w.next + 1) = some (List.replicate 8 .undef) := by
    subst hw₂ hw₁
    exact Function.update_self ..
  have hdata (b : Nat) (hlo : w.next ≤ b) (hhi : b < w.next + 2) : w₂.DataPtr ⟨b, 0⟩ := by
    subst hw₂ hw₁
    exact ⟨hwhole.ok.tree.fresh b hlo, hhi⟩
  have hm := Mem.store_of_bounds (m := w₂.mem) (p := ⟨w.next + 1, 0⟩) (v := .ptr ⟨w.next, 0⟩) hcell (Int.le_refl _) (by simp [Val.chunk, Chunk.size])
  have hcells : ¬w₂.IsGlobal (w.next + 1) := fun hb =>
    absurd (hwhole.ok.global_dataPtr (hs₂.sameStatic.isGlobal hb)).2 (Nat.not_lt.mpr (Nat.le_succ _))
  have hs₃ := hs₂.tail (.store (hdata _ (by omega) (by omega)) hcells
    (fun q hq => Val.ptr.inj hq ▸ hdata _ (by omega) (by omega)) hm)
  have hbytes : (Function.update w₂.mem (w.next + 1) (some (Mem.splice (List.replicate 8 .undef)
      (Val.ptr ⟨w.next, 0⟩).encode 0))) w.next = some (List.replicate 4 (.byte 0)) :=
    (Function.update_of_ne (Nat.ne_of_lt (Nat.lt_succ_self _)) ..).trans hzeros
  refine ⟨_, ⟨w.next, 0⟩, ⟨w.next + 1, 0⟩, hwhole.steps hs₃, ?_, ?_, ?_, Mem.load_store hm⟩
  · subst hw₂ hw₁
    exact hones
  · rw [Mem.load, Mem.slice_some hbytes (Int.le_refl _) (by simp [Chunk.size])]
    rfl
  · rw [Mem.load, Mem.slice_some hbytes (Int.le_refl _) (by simp [Chunk.size])]
    rfl

/-- Where lookups are nodes of their own and variables have symbols of their own, all operands can answer. -/
theorem exists_plain (inputs : List Symbol) {xs : List (Expr Symbol)} (hids : (xs.filterMap Expr.ownLookup).Nodup)
    (hrefs : ∀ x ∈ xs, ∀ n ∈ x.idents, ∀ x' ∈ xs, ∀ n' ∈ x'.idents, n.symbol.isInput = false →
      n'.symbol.isInput = false →
      n.symbol.ref = n'.symbol.ref → n.symbol = n'.symbol) : ∃ w : World, w.Plain inputs xs := by
  classical
  obtain ⟨w, p, q, hw, hones, h32, h8, hptr⟩ := exists_blocks inputs
  let isArray (r : SymRef) : Prop := ∃ x ∈ xs, ∃ n ∈ x.idents, n.symbol.isInput = false ∧
    n.symbol.type.elem? ≠ none ∧ n.symbol.ref = r
  let idxsOf : Expr Symbol → List (BitVec 32)
    | .arrLookup _ _ idxs => List.replicate idxs.length 0
    | _ => []
  let ctx : EvalCtx :=
    { addr := fun r => some (if isArray r then q else p)
      currentPtr := fun _ => some p
      currentIdxs := fun id => ((xs.find? fun x => x.ownLookup == some id).map idxsOf).getD [] }
  refine ⟨{ w with ctx }, ⟨⟨hw.ok.tree, hw.ok.mem, hw.ok.frame, hw.ok.globals⟩, hw.alive, hw.typed⟩, hones, fun x hx => ?_⟩
  cases x with
  | ident n =>
    intro hin hscalar
    refine ⟨p, congrArg some (if_neg ?_), h32, h8⟩
    rintro ⟨x', hx', n', hn', hin', harr, href⟩
    rw [hrefs _ hx' n' hn' _ hx n (List.mem_singleton_self n) hin' hin href] at harr
    exact harr hscalar
  | propertyLookup node n prop =>
    intro hin harr
    exact ⟨q, p, congrArg some (if_pos ⟨_, hx, n, List.mem_singleton_self n, hin, harr, rfl⟩), hptr⟩
  | arrLookup node n idxs =>
    refine ⟨?_, p, rfl, h32, h8⟩
    obtain ⟨x', hx'⟩ : ∃ x', xs.find? (fun x => x.ownLookup == some node.id) = some x' := by
      rw [← Option.isSome_iff_exists, List.find?_isSome]
      exact ⟨_, hx, by simp [Expr.ownLookup]⟩
    have hown : x'.ownLookup = some node.id := by simpa using List.find?_some hx'
    obtain rfl := eq_of_nodup_filterMap hids (List.mem_of_find?_eq_some hx') hx hown rfl
    show ((xs.find? fun x => x.ownLookup == some node.id).map idxsOf).getD [] = _
    rw [hx']
    rfl
  | _ => trivial

/-! ## States of a run -/

/-- The lookups of an expression, with how many indices each has. -/
def Expr.arities {σ : Type} (e : Expr σ) : List (NodeId × Nat) :=
  e.nodes.filterMap fun
    | .arrLookup node _ idxs => some (node.id, idxs.length)
    | _ => none

def condArities {σ : Type} (precond : Option (PrecondNode σ)) (cond : Expr σ) : List (NodeId × Nat) :=
  ((precond.bind (·.expr)).map Expr.arities).getD [] ++ cond.arities

def Stmt.arities {σ : Type} (s : Stmt σ) : List (NodeId × Nat) :=
  match s.branch with
  | some (precond, cond) => condArities precond cond
  | none => []

theorem arities_list {σ : Type} {es : List (Expr σ)} (ih : ∀ e ∈ es, e.arities.map Prod.fst = e.lookupIds) :
    ((Expr.nodesList es).filterMap fun
      | .arrLookup node _ idxs => some (node.id, idxs.length)
      | _ => none).map Prod.fst = Expr.lookupIdsList es := by
  induction es with
  | nil => rfl
  | cons e es ihes =>
    rw [Expr.nodesList, List.filterMap_append, List.map_append, ihes fun e he => ih e (List.mem_cons_of_mem _ he)]
    exact congrArg (· ++ _) (ih e (List.mem_cons_self ..))

theorem arities_fst {σ : Type} (e : Expr σ) : e.arities.map Prod.fst = e.lookupIds := by
  induction e with
  | binOp node op lhs rhs ihl ihr =>
    rw [Expr.lookupIds, ← ihl, ← ihr, ← List.map_append]
    simp only [Expr.arities, Expr.nodes, List.filterMap_cons_none, List.filterMap_append]
  | arrLookup node n idxs ih =>
    rw [Expr.lookupIds, ← arities_list ih]
    rfl
  | arrCreate node elem len ih =>
    rw [Expr.lookupIds, ← ih]
    rfl
  | _ => rfl

theorem condArities_fst {σ : Type} (precond : Option (PrecondNode σ)) (cond : Expr σ) :
    (condArities precond cond).map Prod.fst = condLookupIds precond cond := by
  rw [condArities, condLookupIds, List.map_append, arities_fst]
  cases precond.bind (·.expr) with
  | none => rfl
  | some e => exact congrArg (· ++ _) (arities_fst e)

/-- The lookups of the conditions of a function are nodes of their own. -/
theorem arities_sublist {σ : Type} : (∀ s : Stmt σ, ((s.nodes.flatMap Stmt.arities).map Prod.fst).Sublist s.keyIds) ∧
    ∀ b : Body σ, (((Body.nodes b).flatMap Stmt.arities).map Prod.fst).Sublist (Body.keyIds b) := by
  have hasg (a : Option (AsgNode σ)) : (a.map Stmt.asg).toList.flatMap Stmt.arities = [] := by
    cases a <;> rfl
  apply Stmt.induct
  case for_ =>
    intro node p pre c inc b ih
    rw [Stmt.nodes, Stmt.keyIds, List.flatMap_cons, List.flatMap_append, List.flatMap_append, hasg, hasg,
      List.map_append]
    exact .cons _ (.append (condArities_fst p c ▸ .refl _) ih)
  case if_ =>
    intro node p c b ih
    rw [Stmt.nodes, Stmt.keyIds, List.flatMap_cons, List.map_append]
    exact .append (condArities_fst p c ▸ .refl _) ih
  case ifElse =>
    intro node p c b e ihb ihe
    rw [Stmt.nodes, Stmt.keyIds, List.flatMap_cons, List.flatMap_append, List.map_append, List.map_append]
    exact .append (condArities_fst p c ▸ .refl _) (ihb.append ihe)
  case nil => exact .refl _
  case cons =>
    intro s rest ihs ihr
    rw [Body.nodes, Body.keyIds, List.flatMap_append, List.map_append]
    exact ihs.append ihr
  all_goals
    intros
    exact .refl _

theorem arity_unique {g : FunctionNode Symbol} {s s' : Stmt Symbol} (hs : s ∈ Body.nodes g.body)
    (hs' : s' ∈ Body.nodes g.body)
    {id : NodeId} {m n : Nat} (h : (id, m) ∈ s.arities) (h' : (id, n) ∈ s'.arities) : m = n := by
  have hnodup := g.distinct.sublist (arities_sublist.2 g.body)
  exact (Prod.mk.inj (List.inj_on_of_nodup_map hnodup (List.mem_flatMap.mpr ⟨s, hs, h⟩)
    (List.mem_flatMap.mpr ⟨s', hs', h'⟩) rfl)).2

theorem leaves_nodes (e : Expr Symbol) : ∀ x ∈ e.leaves, x ∈ e.nodes := by
  induction e with
  | binOp node op lhs rhs ihl ihr =>
    intro x hx
    rw [Expr.nodes]
    obtain hx | hx := List.mem_append.mp hx
    · exact List.mem_cons_of_mem _ (List.mem_append_left _ (ihl x hx))
    · exact List.mem_cons_of_mem _ (List.mem_append_right _ (ihr x hx))
  | _ =>
    intro x hx
    obtain rfl := List.mem_singleton.mp hx
    exact Expr.mem_nodes_self _

theorem leaf_arity {e : Expr Symbol} {node : ASTNode} {n : IdentNode Symbol} {idxs : List (Expr Symbol)}
    (h : .arrLookup node n idxs ∈ e.leaves) : (node.id, idxs.length) ∈ e.arities :=
  List.mem_filterMap.mpr ⟨_, leaves_nodes e _ h, rfl⟩

/-- What a callback sets the indices of is a lookup with as many. -/
def Callback.Counts (as : List (NodeId × Nat)) : Callback → Prop
  | .updArrIdxs node idxs => (node, idxs.length) ∈ as
  | _ => True

theorem Callback.Counts.mono {as as' : List (NodeId × Nat)} {c : Callback} (h : c.Counts as)
    (hsub : ∀ a ∈ as, a ∈ as') :
    c.Counts as' := by
  cases c with
  | updArrIdxs => exact hsub _ h
  | _ => trivial

theorem codeGenExprs_length {es : List (Expr Symbol)} :
    ∀ {vs : List LVal}, codeGenExprs es = .ok vs → vs.length = es.length := by
  induction es with
  | nil =>
    intro vs h
    obtain rfl := Except.ok.inj h
    rfl
  | cons e es ih =>
    intro vs h
    simp only [codeGenExprs, Except.bind_ok_iff, Except.pure_ok_iff] at h
    obtain ⟨v, -, vs', hvs, rfl⟩ := h
    exact congrArg (· + 1) (ih hvs)

theorem evalIdxs_length {vs : List LVal} : ∀ {w w' : World} {is : List (BitVec 32)},
    LVal.evalIdxs vs w = .ok (is, w') → is.length = vs.length := by
  induction vs with
  | nil =>
    intro w w' is h
    obtain ⟨rfl, -⟩ := pure_ok_iff.mp h
    rfl
  | cons v vs ih =>
    intro w w' is h
    obtain ⟨a, w₁, -, h⟩ := bind_ok_iff.mp h
    obtain ⟨n, w₂, -, h⟩ := bind_ok_iff.mp h
    obtain ⟨ns, w₃, hns, h⟩ := bind_ok_iff.mp h
    obtain ⟨rfl, -⟩ := pure_ok_iff.mp h
    exact congrArg (· + 1) (ih hns)

theorem prepareIdent_counts {n : IdentNode Symbol} {cs : List Callback} (h : prepareIdent n = .ok cs)
    {as : List (NodeId × Nat)} :
    ∀ c ∈ cs, c.Counts as := by
  obtain rfl := Except.ok.inj ((prepareIdent_eq n).symm.trans h)
  rw [IdentNode.callbacks, List.forall_mem_map]
  exact fun _ _ => trivial

theorem traverseAstCb_counts {e : Expr Symbol} {cs : List Callback} (h : traverseAstCb e = .ok cs) :
    ∀ c ∈ cs, c.Counts e.arities := by
  cases e with
  | ident n => exact prepareIdent_counts h
  | propertyLookup node n prop => exact prepareIdent_counts h
  | arrLookup node n idxs =>
    rw [traverseAstCb, prepareArrLookup] at h
    split at h <;> simp only [Except.bind_ok_iff, Except.pure_ok_iff] at h
    · obtain ⟨vs, hvs, rfl⟩ := h
      rw [List.forall_mem_singleton]
      show (node.id, vs.length) ∈ _
      rw [codeGenExprs_length hvs]
      exact List.mem_filterMap.mpr ⟨_, Expr.mem_nodes_self _, rfl⟩
    · obtain ⟨_, -, _, -, rfl⟩ := h
      rw [List.forall_mem_singleton]
      trivial
  | _ =>
    obtain rfl := Except.ok.inj h
    exact List.forall_mem_nil _

theorem visitAll_counts {es : List (Expr Symbol)}
    (ih : ∀ e ∈ es, ∀ {cs}, visitChildren e = .ok cs → ∀ c ∈ cs, c.Counts e.arities) :
    ∀ {cs}, visitAll es = .ok cs → ∀ c ∈ cs, ∃ e ∈ es, c.Counts e.arities := by
  induction es with
  | nil =>
    intro cs h
    obtain rfl := Except.ok.inj h
    exact List.forall_mem_nil _
  | cons e es ihes =>
    intro cs h c hc
    simp only [visitAll, Except.bind_ok_iff, Except.pure_ok_iff] at h
    obtain ⟨l, hl, l', hl', rest, hrest, rfl⟩ := h
    obtain hc | hc := List.mem_append.mp hc
    · refine ⟨e, List.mem_cons_self .., ?_⟩
      obtain hc | hc := List.mem_append.mp hc
      · exact traverseAstCb_counts hl c hc
      · exact ih e (List.mem_cons_self ..) hl' c hc
    · obtain ⟨e', he', hcounts⟩ := ihes (fun e' he' => ih e' (List.mem_cons_of_mem _ he')) hrest c hc
      exact ⟨e', List.mem_cons_of_mem _ he', hcounts⟩

theorem visitChildren_counts (e : Expr Symbol) : ∀ {cs}, visitChildren e = .ok cs → ∀ c ∈ cs, c.Counts e.arities := by
  induction e with
  | binOp node op lhs rhs ihl ihr =>
    intro cs h c hc
    have hl : ∀ a ∈ lhs.arities, a ∈ (Expr.binOp node op lhs rhs).arities := by
      intro a ha
      simp only [Expr.arities, Expr.nodes, List.filterMap_cons_none, List.filterMap_append]
      exact List.mem_append_left _ ha
    have hr : ∀ a ∈ rhs.arities, a ∈ (Expr.binOp node op lhs rhs).arities := by
      intro a ha
      simp only [Expr.arities, Expr.nodes, List.filterMap_cons_none, List.filterMap_append]
      exact List.mem_append_right _ ha
    simp only [visitChildren, Except.bind_ok_iff, Except.pure_ok_iff] at h
    obtain ⟨l, hl₁, l', hl₂, r, hr₁, r', hr₂, rfl⟩ := h
    obtain hc | hc := List.mem_append.mp hc <;> obtain hc | hc := List.mem_append.mp hc
    · exact (traverseAstCb_counts hl₁ c hc).mono hl
    · exact (ihl hl₂ c hc).mono hl
    · exact (traverseAstCb_counts hr₁ c hc).mono hr
    · exact (ihr hr₂ c hc).mono hr
  | arrLookup node n idxs ih =>
    intro cs h c hc
    simp only [visitChildren, Except.bind_ok_iff, Except.pure_ok_iff] at h
    obtain ⟨i, hi, is, his, rfl⟩ := h
    obtain hc | hc := List.mem_append.mp hc
    · exact prepareIdent_counts hi c hc
    · obtain ⟨e, he, hcounts⟩ := visitAll_counts (fun e he => ih e he) his c hc
      refine hcounts.mono fun a ha => ?_
      obtain ⟨x, hx, hsome⟩ := List.mem_filterMap.mp ha
      refine List.mem_filterMap.mpr ⟨x, List.mem_cons_of_mem _ ?_, hsome⟩
      clear ih his
      induction idxs with
      | nil => cases he
      | cons e' es ihes =>
        rw [Expr.nodesList]
        obtain rfl | he := List.mem_cons.mp he
        · exact List.mem_append_left _ hx
        · exact List.mem_append_right _ (ihes he)
  | arrCreate node elem len ih =>
    intro cs h c hc
    simp only [visitChildren, Except.bind_ok_iff, Except.pure_ok_iff] at h
    obtain ⟨l, hl, l', hl', rfl⟩ := h
    obtain hc | hc := List.mem_append.mp hc
    · exact traverseAstCb_counts hl c hc
    · exact ih hl' c hc
  | propertyLookup node n prop =>
    intro cs h
    exact prepareIdent_counts h
  | _ =>
    intro cs h
    obtain rfl := Except.ok.inj h
    exact List.forall_mem_nil _

/-- **A callback sets as many indices** as the lookup it is for has. -/
theorem prepareEvalCtx_counts {cond : Expr Symbol} {precond : PrecondNode Symbol} {cs : List Callback}
    (h : prepareEvalCtx cond precond = .ok cs) : ∀ c ∈ cs, c.Counts (condArities (some precond) cond) := by
  simp only [prepareEvalCtx, Except.bind_ok_iff, Except.pure_ok_iff] at h
  obtain ⟨p, hp, l, hl, rfl⟩ := h
  intro c hc
  obtain hc | hc := List.mem_append.mp hc
  · obtain ⟨e, he, hcounts⟩ := visitAll_counts (fun e _ => visitChildren_counts e) hp c hc
    refine hcounts.mono fun a ha => List.mem_append_left _ ?_
    rw [Option.bind_some, Option.mem_toList.mp he]
    exact ha
  · exact (visitChildren_counts cond hl c hc).mono fun a ha => List.mem_append_right _ ha

/-- What the code of a function does: its callbacks are those of its conditions. -/
def Op.Of (g : FunctionNode Symbol) : Op → Prop
  | .callback c => ∃ s ∈ Body.nodes g.body, ∃ precond cond cs, s.branch = some (some precond, cond) ∧
      prepareEvalCtx cond precond = .ok cs ∧ c ∈ cs
  | _ => True

/-- The states of a run, over any number of tests: `reset` between two gives memory back. -/
inductive World.Reached (g : FunctionNode Symbol) (inputs : List Symbol) : World → Prop
  | start (env : Env) : Reached g inputs (World.start env inputs)
  | op {op : Op} {w w' : World} (h : Reached g inputs w) (hop : op.Of g) (hexec : op.exec w = .ok ((), w')) :
    Reached g inputs w'
  | reset {mem : Mem} {w w' : World} (h : Reached g inputs w) (hmem : ∀ b bs, mem b = some bs → w.mem b = some bs)
    (hreset : resetVals w.inputs { w with mem, allocatedVals := [] } = .ok ((), w')) : Reached g inputs w'

section

variable {g : FunctionNode Symbol} {inputs : List Symbol} {w w' : World}

theorem World.Whole.resetVals {syms : List SymId} : ∀ {w : World}, w.Whole inputs → resetVals syms w = .ok ((), w') →
    w'.Whole inputs := by
  induction syms with
  | nil =>
    intro w hw h
    obtain ⟨-, rfl⟩ := pure_ok_iff.mp h
    exact hw
  | cons sym syms ih =>
    intro w hw h
    obtain ⟨_, w₁, h₁, h⟩ := bind_ok_iff.mp h
    exact ih (hw.resetVal h₁) h

/-- Memory is given back. -/
theorem World.Whole.freed (h : w.Whole inputs) {mem : Mem} (hmem : ∀ b bs, mem b = some bs → w.mem b = some bs) :
    World.Whole inputs { w with mem, allocatedVals := [] } :=
  ⟨⟨h.ok.tree, fun b bs p i hb => h.ok.mem b bs p i (hmem b bs hb), h.ok.frame, fun x hx =>
    ⟨(h.ok.globals x hx).1, fun bs hbs => (h.ok.globals x hx).2 bs (hmem x.2 bs hbs)⟩⟩, h.alive, h.typed⟩

theorem World.Reached.whole (h : w.Reached g inputs) : w.Whole inputs := by
  induction h with
  | start env => exact World.Whole.start env inputs
  | op _ _ hexec ih => exact ih.op hexec
  | reset _ hmem hreset ih => exact (ih.freed hmem).resetVals hreset

/-- What operations lead to is reached. -/
theorem World.Reached.run {ops : List Op} (hops : ∀ op ∈ ops, op.Of g) :
    ∀ {w w' : World}, w.Reached g inputs → runOps ops w = .ok ((), w') → w'.Reached g inputs := by
  induction ops with
  | nil =>
    intro w w' hw h
    obtain ⟨-, rfl⟩ := pure_ok_iff.mp h
    exact hw
  | cons op ops ih =>
    intro w w' hw h
    obtain ⟨_, w₁, hop, h⟩ := bind_ok_iff.mp h
    rw [List.forall_mem_cons] at hops
    exact ih hops.2 (hw.op hops.1 hop) h

/-- Only a callback touches the context. -/
theorem Op.exec_ctx {op : Op} (h : op.exec w = .ok ((), w')) (hok : w.Ok) (hop : ∀ c, op ≠ .callback c) :
    w'.ctx = w.ctx := by
  obtain ⟨-, w₁, frame, ctx, hs, rfl, rfl | ⟨c, hc⟩⟩ | ⟨_, _, _, _, hz3⟩ := op.exec_cases h hok
  · exact hs.sameStatic.ctx
  · exact absurd hc (hop c)
  · obtain ⟨fs, w₁, hfs, hfill⟩ := startZ3Gen_cases hz3
    have hctx := (genFormulas_recorded hfs hok).grown.ctx
    obtain rfl | ⟨m, hfill⟩ := hfill
    · exact hctx
    · exact (fillLoop_memory hfill).2.2.1.trans hctx

/-- A callback sets the indices of its lookup to as many as it has. -/
theorem Callback.exec_currentIdxs {c : Callback} {as : List (NodeId × Nat)} (hc : c.Counts as)
    (h : c.exec w = .ok ((), w'))
    (hok : w.Ok) (id : NodeId) : w'.ctx.currentIdxs id = w.ctx.currentIdxs id ∨
      (id, (w'.ctx.currentIdxs id).length) ∈ as := by
  by_cases hid : c.field = .currentIdxs id
  · cases c with
    | updArrIdxs node idxs =>
      obtain rfl := CtxField.currentIdxs.inj hid
      obtain ⟨is, w₁, his, h⟩ := bind_ok_iff.mp h
      obtain rfl := modify_ok_iff.mp h
      refine .inr ?_
      show (node, (Function.update w₁.ctx.currentIdxs node is node).length) ∈ as
      rw [Function.update_self, evalIdxs_length his]
      exact hc
    | _ => cases hid
  · exact .inl (((exec_keeps h hok).2 _ (Ne.symm hid)).symm)

theorem resetVal_static {sym : SymId} (h : resetVal sym w = .ok ((), w')) :
    w'.ctx = w.ctx ∧ w'.globals = w.globals := by
  obtain ⟨⟨name, val⟩, _, hget, h⟩ := bind_ok_iff.mp h
  obtain ⟨-, rfl⟩ := getSym_ok_iff.mp hget
  cases val with
  | number | char | bool =>
    obtain rfl := setSym_ok_iff.mp h
    exact ⟨rfl, rfl⟩
  | array type s elems =>
    obtain ⟨_, _, hdel, hset⟩ := bind_ok_iff.mp h
    obtain rfl := modify_ok_iff.mp hdel
    obtain rfl := setSym_ok_iff.mp hset
    exact ⟨rfl, rfl⟩

/-- Resetting inputs leaves the context, and the literals where they are. -/
theorem resetVals_static {syms : List SymId} : ∀ {w : World}, resetVals syms w = .ok ((), w') →
    w'.ctx = w.ctx ∧ w'.globals = w.globals := by
  induction syms with
  | nil =>
    intro w h
    obtain ⟨-, rfl⟩ := pure_ok_iff.mp h
    exact ⟨rfl, rfl⟩
  | cons sym syms ih =>
    intro w h
    obtain ⟨_, w₁, h₁, h⟩ := bind_ok_iff.mp h
    obtain ⟨hctx, hglobals⟩ := resetVal_static h₁
    obtain ⟨hctx', hglobals'⟩ := ih h
    exact ⟨hctx'.trans hctx, hglobals'.trans hglobals⟩

/-- **In every state of a run** the current indices of a lookup are as many as it has, or none. -/
theorem World.Reached.counted (h : w.Reached g inputs) (id : NodeId) :
    w.ctx.currentIdxs id = [] ∨ ∃ s ∈ Body.nodes g.body, (id, (w.ctx.currentIdxs id).length) ∈ s.arities := by
  induction h with
  | start env => exact .inl rfl
  | @op op w w' hreach hop hexec ih =>
    by_cases hcb : ∃ c, op = .callback c
    · obtain ⟨c, rfl⟩ := hcb
      obtain ⟨s, hs, precond, cond, cs, hb, hcs, hc⟩ := hop
      obtain heq | hmem := c.exec_currentIdxs (prepareEvalCtx_counts hcs c hc) hexec hreach.whole.ok id
      · rwa [heq]
      · refine .inr ⟨s, hs, ?_⟩
        rwa [Stmt.arities, hb]
    · rwa [op.exec_ctx hexec hreach.whole.ok fun c hc => hcb ⟨c, hc⟩]
  | reset _ _ hreset ih => rwa [(resetVals_static hreset).1]

theorem World.Reached.indexed (h : w.Reached g inputs) {s : Stmt Symbol} (hs : s ∈ Body.nodes g.body)
    {precond : PrecondNode Symbol}
    {cond : Expr Symbol} (hb : s.branch = some (some precond, cond)) :
      ∀ x ∈ formulaLeaves cond precond, w.Indexed x := by
  intro x hx
  cases x with
  | arrLookup node n idxs =>
    refine (h.counted node.id).imp_right fun ⟨s', hs', hcount⟩ => arity_unique hs' hs hcount ?_
    rw [Stmt.arities, hb]
    obtain hx | hx := List.mem_append.mp hx
    · exact List.mem_append_right _ (leaf_arity hx)
    · obtain ⟨e, he, hx⟩ := List.mem_flatMap.mp hx
      refine List.mem_append_left _ ?_
      rw [Option.bind_some, Option.mem_toList.mp he]
      exact leaf_arity hx
  | _ => trivial

end

/-! ## Which conditions the solver can be given -/

theorem FunctionNode.accept_plain {f : FunctionNode Unit} {g : FunctionNode Symbol} {inputs : List Symbol}
    (h : f.accept = .ok (g, inputs)) {s : Stmt Symbol} (hs : s ∈ Body.nodes g.body) {precond : PrecondNode Symbol}
    {cond : Expr Symbol} (hb : s.branch = some (some precond, cond)) :
    ∃ w : World, w.Plain inputs (formulaLeaves cond precond) := by
  obtain ⟨-, hrefs⟩ := FunctionNode.accept_formulas h hs hb
  have hidents : ∀ x ∈ formulaLeaves cond precond, ∀ n ∈ x.idents, n ∈ precond.idents ++ cond.idents := by
    intro x hx n hn
    obtain hx | hx := List.mem_append.mp hx
    · exact List.mem_append_right _ (leaves_idents cond x hx n hn)
    · obtain ⟨e, he, hx⟩ := List.mem_flatMap.mp hx
      refine List.mem_append_left _ ?_
      rw [PrecondNode.idents, Option.mem_toList.mp he]
      simpa using leaves_idents e x hx n hn
  have hids : ((formulaLeaves cond precond).filterMap Expr.ownLookup).Nodup := by
    have hsub : ((precond.expr.toList.flatMap Expr.leaves ++ cond.leaves).filterMap Expr.ownLookup).Sublist
        (condLookupIds (some precond) cond) := by
      rw [List.filterMap_append, condLookupIds, Option.bind_some]
      refine .append ?_ (ownLookup_sublist cond)
      cases precond.expr with
      | none => exact .refl _
      | some e => simpa using ownLookup_sublist e
    have hnodup := (g.distinct.sublist ((condLookupIds_sublist hb).2 _ hs)).sublist hsub
    rw [List.filterMap_append] at hnodup
    rw [formulaLeaves, List.filterMap_append]
    exact List.nodup_append_comm.mp hnodup
  exact exists_plain inputs hids fun x hx n hn x' hx' n' hn' =>
    hrefs n (hidents x hx n hn) n' (hidents x' hx' n' hn')

/-- **A condition comes to no operand without a translation**, whatever the
state, exactly if its sorts do not; and the states of a run are such states. -/
theorem unsupported_iff {f : FunctionNode Unit} {g : FunctionNode Symbol} {inputs : List Symbol}
    (h : f.accept = .ok (g, inputs))
    {s : Stmt Symbol} (hs : s ∈ Body.nodes g.body) {precond : PrecondNode Symbol} {cond : Expr Symbol}
    (hb : s.branch = some (some precond, cond)) :
    ((∀ w : World, w.Whole inputs → (∀ x ∈ formulaLeaves cond precond, w.Indexed x) → ∀ e, genFormulas cond precond w = .error e →
        ¬ e.Unsupported) ↔ formulaSorts cond precond ≠ .error .unsupported) ∧
      ∀ w : World, w.Reached g inputs → w.Whole inputs ∧ ∀ x ∈ formulaLeaves cond precond, w.Indexed x := by
  have hty := (FunctionNode.accept_formulas h hs hb).1
  refine ⟨⟨fun hall hsorts => ?_, fun hsorts w hw hidx e he hun => hsorts (genFormulas_sorted hw hty hidx he hun)⟩,
    fun w hw => ⟨hw.whole, hw.indexed hs hb⟩⟩
  obtain ⟨w, hw⟩ := FunctionNode.accept_plain h hs hb
  obtain ⟨e, he, hun⟩ := genFormulas_meets hw hty hsorts
  exact hall w hw.whole (fun x hx => (hw.answers x hx).indexed) e he hun

namespace Sample

/-- `int f(string s) { [] if s == "a" { return 1 } return 2 }`. -/
def comparesStrings : FunctionNode Unit where
  node := node 0
  retType := ⟨.int, 0⟩
  name := "f"
  args := [param 1 "s" ⟨.string, 0⟩]
  body := [.if_ (node 2) (some noPrecond) (.binOp (node 3) .eq (ident 4 "s") (.string (node 5) "a")) [ret 6 (num 7 1)],
    ret 8 (num 9 2)]
  distinct := by decide

end Sample

theorem unsupported_iff_looksUp : ∃ g inputs s precond cond, Sample.looksUp.accept = .ok (g, inputs) ∧
    s ∈ Body.nodes g.body ∧
    s.branch = some (some precond, cond) ∧ formulaSorts cond precond ≠ .error .unsupported ∧
      ∀ w : World, w.Reached g inputs → ∀ e, genFormulas cond precond w = .error e → ¬ e.Unsupported := by
  obtain ⟨g, inputs, s, precond, cond, hg, hs, hb, hsorts⟩ :
      ∃ g inputs s precond cond, Sample.looksUp.accept = .ok (g, inputs) ∧
      s ∈ Body.nodes g.body ∧ s.branch = some (some precond, cond) ∧ formulaSorts cond precond ≠ .error .unsupported :=
    ⟨_, _, _, _, _, rfl, List.mem_cons_self .., rfl, by decide⟩
  obtain ⟨hiff, hruns⟩ := unsupported_iff hg hs hb
  exact ⟨g, inputs, s, precond, cond, hg, hs, hb, hsorts, fun w hw => hiff.mpr hsorts w (hruns w hw).1 (hruns w hw).2⟩

/-- Strings can be compared, and have no translation. -/
theorem comparesStrings_unsupported : ¬ ∀ (f : FunctionNode Unit) (g : FunctionNode Symbol) (inputs : List Symbol),
    f.accept = .ok (g, inputs) → ∀ s ∈ Body.nodes g.body, ∀ (precond : PrecondNode Symbol) (cond : Expr Symbol),
      s.branch = some (some precond, cond) → ∀ w : World, w.Reached g inputs →
        ∀ e, genFormulas cond precond w = .error e →
        ¬ e.Unsupported := by
  intro h
  exact h Sample.comparesStrings _ _ rfl _ (List.mem_cons_self ..) _ _ rfl _ (.start (Sample.draws 0)) _ rfl (.inr (.inl rfl))

end DGen
