/-
Definitions dominate uses.

Resolution gives each identifier the symbol of a definition in scope, which
stands before it in a body around it. Code generation follows the same
scopes: the blocks a statement adds may count on the definitions in scope at
the statement (`codeGen_flow`), and a forward analysis carries that to every
path through the blocks (`codeGen_dominates`).
-/
import DGen.Lib.Dataflow
import DGen.Emission
import DGen.Scoping
import DGen.EvalContext

namespace DGen

open Dataflow

/-! ## Identifiers in scope -/

/-- The variables among the identifiers' symbols. -/
def localsOf (is : List (IdentNode Symbol)) : List Symbol :=
  (is.map (·.symbol)).filter fun s => !s.isInput

/-- The symbols of the definitions in scope. -/
def Scopes.symbols (scopes : Scopes Symbol) : Set Symbol := {s | ∃ scope ∈ scopes, ∃ d ∈ scope, d.sym = s}

/-- An identifier is an input, or a variable whose definition is in scope. -/
def InScope (u : IdentNode Symbol × Scopes Symbol) : Prop :=
  u.1.symbol.isInput = true ∨ u.1.symbol ∈ u.2.symbols

theorem Scopes.symbols_declare (scopes : Scopes Symbol) (d : DefNode Symbol) :
    (scopes.declare d).symbols = scopes.symbols ∪ {d.sym} := by
  ext s
  cases scopes with
  | nil => simp [symbols, declare, eq_comm]
  | cons scope outer =>
    simp only [symbols, declare, List.exists_mem_cons_iff, Set.mem_ofPred_eq, Set.mem_union, Set.mem_singleton_iff,
      eq_comm (b := s)]
    rw [or_assoc, or_comm]

@[simp] theorem Scopes.symbols_enter (scopes : Scopes Symbol) : Scopes.symbols ([] :: scopes) = scopes.symbols := by
  simp [symbols]

theorem Stmt.symbols_declare (scopes : Scopes Symbol) (s : Stmt Symbol) :
    scopes.symbols ⊆ (Stmt.declare scopes s).symbols := by
  cases s with
  | def_ d =>
    rw [Stmt.declare, Scopes.symbols_declare]
    exact Set.subset_union_left
  | _ => exact subset_rfl

theorem locals_inScope {is : List (IdentNode Symbol)} {scopes : Scopes Symbol}
    (h : ∀ u ∈ is.map (·, scopes), InScope u) : ∀ s ∈ localsOf is, s ∈ scopes.symbols := by
  intro s hs
  simp only [localsOf, List.mem_filter, List.mem_map, Bool.not_eq_true'] at hs
  obtain ⟨⟨i, hi, rfl⟩, hin⟩ := hs
  obtain hin' | hmem := List.forall_mem_map.mp h i hi
  · rw [hin] at hin'
    cases hin'
  · exact hmem

/-- What resolution binds is in scope. -/
theorem inScope_of_binding {args : List (DefNode Unit)} {u : IdentNode Symbol × Scopes Symbol}
    (h : u.2.binding args u.1.name = some u.1.symbol) : InScope u := by
  rw [Scopes.binding] at h
  cases hv : u.2.visible u.1.name with
  | some d =>
    rw [hv] at h
    have hsym : d.sym = u.1.symbol := by simpa using h
    obtain ⟨scope, hscope, hd⟩ := List.exists_of_findSome?_eq_some hv
    exact .inr ⟨scope, hscope, d, List.mem_of_find?_eq_some hd, hsym⟩
  | none =>
    rw [hv] at h
    have hmem : u.1.symbol ∈ inputSymbols args := List.mem_reverse.mp (List.mem_of_find?_eq_some h)
    obtain ⟨i, hi, hs⟩ := List.mem_mapIdx.mp hmem
    exact .inl (by rw [← hs]; rfl)

/-- The elimination takes nothing out of scope. -/
theorem uses_eliminate {σ : Type} :
    (∀ s : Stmt σ, ∀ scopes, (Stmt.uses scopes (eliminateUnreachableCodeVisitStmt s)).Sublist (s.uses scopes) ∧
      Stmt.declare scopes (eliminateUnreachableCodeVisitStmt s) = Stmt.declare scopes s) ∧
    ∀ b : Body σ, ∀ scopes, (Body.uses scopes (eliminateUnreachableCodeVisitBody b)).Sublist (Body.uses scopes b) := by
  apply Stmt.induct
  case for_ | if_ =>
    intros
    rename_i ih scopes
    exact ⟨(List.Sublist.refl _).append (ih _), rfl⟩
  case ifElse =>
    intro node p c b e ihb ihe scopes
    exact ⟨(List.Sublist.refl _).append ((ihb _).append (ihe _)), rfl⟩
  case nil => intro scopes; exact List.Sublist.refl _
  case cons =>
    intro s rest ihs ihr scopes
    rw [eliminateUnreachableCodeVisitBody, Body.uses]
    split
    · simp [Body.uses]
    · rw [Body.uses, (ihs scopes).2]
      exact (ihs scopes).1.append (ihr _)
  all_goals
    intros
    exact ⟨List.Sublist.refl _, rfl⟩

/-- Every identifier of an accepted function is in scope. -/
theorem FunctionNode.accept_inScope {f : FunctionNode Unit} {g : FunctionNode Symbol} {inputs : List Symbol}
    (h : f.accept = .ok (g, inputs)) : ∀ u ∈ Body.uses [[]] g.body, InScope u := by
  obtain ⟨f₁, f₂, -, h₂, -, rfl⟩ := accept_ok h
  intro u hu
  exact inScope_of_binding (((typeAst_lexical f₁).2 f₂ inputs h₂).2.2.1 u ((uses_eliminate.2 f₂.body [[]]).subset hu))

/-! ## What an instruction needs -/

namespace Instr

/-- The variables an instruction's operands are generated from. -/
def locals : Instr → List Symbol
  | .def_ n => localsOf (n.rhs.toList.flatMap Expr.idents)
  | .asg _ n => localsOf n.idents
  | .z3Gen cond precond => localsOf (precond.idents ++ cond.idents)
  | .condBr _ cond _ _ => localsOf cond.idents
  | .gatherRes n => localsOf n.expr.idents
  | .br _ _ | .retVoid => []

/-- The variable an instruction allocates. -/
def defines : Instr → Set Symbol
  | .def_ n => {n.sym}
  | _ => ∅

/-- The variables that have to be allocated before: an initialiser may name the one it is for. -/
def needs (i : Instr) : Set Symbol := {s | s ∈ i.locals ∧ s ∉ i.defines}

/-- The successors of a terminator. -/
def succs : Instr → Option (List Nat)
  | .condBr _ _ ifTrue ifFalse => some [ifTrue, ifFalse]
  | .br _ dest => some dest.toList
  | .retVoid => some []
  | _ => none

/-- `Dataflow.Fits`, among the first `n` blocks. -/
def Fits (n : Nat) (start : Nat → Set Symbol) (D : Set Symbol) (i : Instr) : Prop :=
  Dataflow.Fits start succs needs D i ∧ ∀ ks, i.succs = some ks → ∀ k ∈ ks, k < n

end Instr

/-! ## Emission keeps the analysis sound -/

/-- `D` may be counted on where the builder stands, and what there is of the blocks is sound. -/
structure Gen.Flow (g : Gen) (start : Nat → Set Symbol) (D : Set Symbol) : Prop where
  cur_lt : g.cur < g.size
  sound : ∀ k < g.size, Through Instr.defines (Instr.Fits g.size start) (start k) (g.code k)
  avail : D ⊆ start g.cur ∪ gens Instr.defines (g.code g.cur)
  empty : ∀ k, g.size ≤ k → g.code k = []

namespace Gen.Flow

variable {g : Gen} {start start' : Nat → Set Symbol} {D E : Set Symbol}

theorem mono (h : g.Flow start D) (hE : E ⊆ D) : g.Flow start E := ⟨h.cur_lt, h.sound, hE.trans h.avail, h.empty⟩

/-- What new blocks may count on is free. -/
theorem congr (h : g.Flow start D) (hag : ∀ k < g.size, start' k = start k) : g.Flow start' D := by
  refine ⟨h.cur_lt, fun k hk => ?_, by rw [hag _ h.cur_lt]; exact h.avail, h.empty⟩
  rw [hag k hk]
  refine (h.sound k hk).mono (fun D E i hDE hfit => ?_) subset_rfl
  refine ⟨⟨hfit.1.1.trans hDE, fun ks hs k hk => ?_⟩, hfit.2⟩
  rw [hag k (hfit.2 ks hs k hk)]
  exact (hfit.1.2 ks hs k hk).trans hDE

theorem createBlock (h : g.Flow start D) (n : String) : (g.createBlock n).Flow start D := by
  have hlt := h.cur_lt
  refine ⟨by simp; omega, fun k hk => ?_, ?_, fun k hk => ?_⟩
  · simp only [Gen.createBlock_toBuilder, Blocks.Builder.createBlock_code, Blocks.Builder.createBlock_size] at hk ⊢
    split
    · trivial
    · refine (h.sound k (by omega)).mono (fun D E i hDE hfit => ?_) subset_rfl
      exact ⟨⟨hfit.1.1.trans hDE, fun ks hs k hk => (hfit.1.2 ks hs k hk).trans hDE⟩,
        fun ks hs k hk => Nat.lt_succ_of_lt (hfit.2 ks hs k hk)⟩
  · simpa [hlt.ne] using h.avail
  · simp only [Gen.createBlock_toBuilder, Blocks.Builder.createBlock_code, Blocks.Builder.createBlock_size] at hk ⊢
    rw [if_neg (by omega), h.empty k (by omega)]

theorem setLoop (h : g.Flow start D) (l : NodeId) (c m : Nat) : (g.setLoop l c m).Flow start D :=
  ⟨h.cur_lt, h.sound, h.avail, h.empty⟩

theorem setInsertPoint (h : g.Flow start D) {k : Nat} (hk : k < g.size) (hE : E ⊆ start k) :
    (g.setInsertPoint k).Flow start E := ⟨hk, h.sound, hE.trans Set.subset_union_left, h.empty⟩

theorem emit (h : g.Flow start D) {i : Instr} (hn : i.needs ⊆ D)
    (hs : ∀ ks, i.succs = some ks → ∀ k ∈ ks, k < g.size ∧ start k ⊆ D) :
    (g.emit i).Flow start (D ∪ i.defines) := by
  have hlt := h.cur_lt
  refine ⟨hlt, fun k hk => ?_, ?_, fun k hk => ?_⟩
  · simp only [Gen.emit_toBuilder, Blocks.Builder.emit_code, Blocks.Builder.emit_size] at hk ⊢
    split
    · rename_i hc
      subst hc
      refine through_append.mpr ⟨h.sound _ hk, ⟨⟨hn.trans h.avail, fun ks hk k hm => ?_⟩, fun ks hk k hm => ?_⟩, trivial⟩
      · exact (hs ks hk k hm).2.trans h.avail
      · exact (hs ks hk k hm).1
    · exact h.sound k hk
  · simp only [Gen.emit_toBuilder, Blocks.Builder.emit_code, Blocks.Builder.emit_cur, if_true, gens_append, gens,
      Set.union_empty, ← Set.union_assoc]
    exact Set.union_subset_union_left _ h.avail
  · simp only [Gen.emit_toBuilder, Blocks.Builder.emit_code, Blocks.Builder.emit_size] at hk ⊢
    rw [if_neg (by omega), h.empty k hk]

/-- An instruction that neither branches nor defines. -/
theorem emit_plain (h : g.Flow start D) {i : Instr} (hl : ∀ s ∈ i.locals, s ∈ D) (hs : i.succs = none) :
    (g.emit i).Flow start D := by
  refine (h.emit (fun s hs => hl s hs.1) fun ks hk => ?_).mono Set.subset_union_left
  rw [hs] at hk
  cases hk

/-- A branch. -/
theorem emit_branch (h : g.Flow start D) {i : Instr} {ks : List Nat} (hl : ∀ s ∈ i.locals, s ∈ D)
    (hi : i.succs = some ks) (hs : ∀ k ∈ ks, k < g.size ∧ start k ⊆ D) : (g.emit i).Flow start D := by
  refine (h.emit (fun s hs => hl s hs.1) fun ks' hk => ?_).mono Set.subset_union_left
  rw [hi] at hk
  cases hk
  exact hs

theorem asg? (h : g.Flow start D) (site : AsgSite) {n : Option (AsgNode Symbol)}
    (hl : ∀ s ∈ localsOf (n.toList.flatMap AsgNode.idents), s ∈ D) : (codeGenAsg? site n g).Flow start D := by
  cases n with
  | none => exact h
  | some n => exact h.emit_plain (by simpa [Instr.locals] using hl) rfl

theorem cond (h : g.Flow start D) {p : Option (PrecondNode Symbol)} (site : CondSite) {c : Expr Symbol} {t f : Nat}
    (hl : ∀ s ∈ localsOf (p.toList.flatMap PrecondNode.idents ++ c.idents), s ∈ D)
    (ht : t < g.size ∧ start t ⊆ D) (hf : f < g.size ∧ start f ⊆ D) : (codeGenCond p site c t f g).Flow start D := by
  have hc : ∀ s ∈ localsOf c.idents, s ∈ D := by
    intro s hs
    refine hl s ?_
    simp only [localsOf, List.map_append, List.filter_append, List.mem_append]
    exact .inr hs
  have hbr : ∀ k ∈ [t, f], k < g.size ∧ start k ⊆ D := by simp [ht, hf]
  cases p with
  | none => exact h.emit_branch hc rfl hbr
  | some p => exact (h.emit_plain (by simpa [Instr.locals] using hl) rfl).emit_branch hc rfl hbr

/-- New blocks may count on what there is here. -/
theorem fresh (h : g.Flow start D) : ∃ start', (∀ k < g.size, start' k = start k) ∧ g.Flow start' D ∧
    ∀ k, g.size ≤ k → start' k = D := by
  refine ⟨fun k => if k < g.size then start k else D, fun k hk => if_pos hk, h.congr fun k hk => if_pos hk,
    fun k hk => if_neg (by omega)⟩

theorem ifHead (h : g.Flow start D) (hnew : ∀ k, g.size ≤ k → start k = D) (node : ASTNode)
    {p : Option (PrecondNode Symbol)} {c : Expr Symbol}
    (hl : ∀ s ∈ localsOf (p.toList.flatMap PrecondNode.idents ++ c.idents), s ∈ D) :
    (codeGenIfHead node p c g).Flow start D := by
  have hD (k : Nat) (hk : g.size ≤ k) : start k ⊆ D := by rw [hnew k hk]
  refine Gen.Flow.setInsertPoint (D := D) ?_ (by simp; omega) (by rw [hnew _ (Nat.le_refl _)])
  exact (((h.createBlock _).createBlock _).createBlock _).cond _ hl
    ⟨by simp; omega, hD _ (Nat.le_refl _)⟩ ⟨by simp, hD _ (Nat.le_succ _)⟩

theorem forHead (h : g.Flow start D) (hnew : ∀ k, g.size ≤ k → start k = D) (node : ASTNode)
    {p : Option (PrecondNode Symbol)} {c : Expr Symbol}
    (hl : ∀ s ∈ localsOf (p.toList.flatMap PrecondNode.idents ++ c.idents), s ∈ D) :
    (codeGenForHead node p c g).Flow start D := by
  have hD (k : Nat) (hk : g.size ≤ k) : start k ⊆ D := by rw [hnew k hk]
  have hentry : (codeGenForEntry node g).Flow start D := by
    refine ((((h.createBlock _).createBlock _).createBlock _).setLoop _ _ _).emit_branch (by simp [Instr.locals]) rfl ?_
    simpa [Nat.add_assoc] using hD _ (Nat.le_refl _)
  have hcond : ((codeGenForEntry node g).setInsertPoint g.size).Flow start D :=
    hentry.setInsertPoint (by simp [codeGenForEntry]; omega) (by rw [hnew _ (Nat.le_refl _)])
  refine Gen.Flow.setInsertPoint (D := D) ?_ (by simp [codeGenForEntry]) (by rw [hnew _ (Nat.le_succ _)])
  exact hcond.cond _ hl ⟨by simp [codeGenForEntry], hD _ (Nat.le_succ _)⟩ ⟨by simp [codeGenForEntry], hD _ (by omega)⟩

theorem armEnd (h : g.Flow start D) (b : Body Symbol) {m : Nat} (hm : m < g.size ∧ start m ⊆ D) :
    (codeGenArmEnd b m g).Flow start D := by
  unfold codeGenArmEnd
  split
  · exact h
  · exact h.emit_branch (by simp [Instr.locals]) rfl (by simpa using hm)

theorem loopEnd (h : g.Flow start D) (l : NodeId) {inc : Option (AsgNode Symbol)} (b : Body Symbol) {c : Nat}
    (hl : ∀ s ∈ localsOf (inc.toList.flatMap AsgNode.idents), s ∈ D) (hc : c < g.size ∧ start c ⊆ D) :
    (codeGenLoopEnd l inc b c g).Flow start D := by
  unfold codeGenLoopEnd
  split
  · exact h
  · exact (h.asg? _ hl).emit_branch (by simp [Instr.locals]) rfl (by simpa using hc)

end Gen.Flow

/-- The blocks of the loop around count on no more than there is here. -/
def Gen.LoopFlow (g : Gen) (start : Nat → Set Symbol) (loop : Option NodeId) (D : Set Symbol) : Prop :=
  ∀ l ∈ loop, ∃ c m, g.loops l = some (c, m) ∧ (c < g.size ∧ start c ⊆ D) ∧ m < g.size ∧ start m ⊆ D

theorem Gen.LoopFlow.mono {g g' : Gen} {start start' : Nat → Set Symbol} {loop : Option NodeId} {D D' : Set Symbol}
    (h : g.LoopFlow start loop D) (hl : ∀ l ∈ loop, g'.loops l = g.loops l) (hs : g.size ≤ g'.size)
    (hag : ∀ k < g.size, start' k = start k) (hD : D ⊆ D') : g'.LoopFlow start' loop D' := by
  intro l hmem
  obtain ⟨c, m, hcm, ⟨hc, hcD⟩, hm, hmD⟩ := h l hmem
  exact ⟨c, m, by rw [hl l hmem, hcm], ⟨by omega, by rw [hag c hc]; exact hcD.trans hD⟩,
    by omega, by rw [hag m hm]; exact hmD.trans hD⟩

/-- What a statement or a body needs of where it is generated: `ids` are its
loops and lookups, `uses` its identifiers. -/
structure Gen.FlowAt (g : Gen) (start : Nat → Set Symbol) (scopes : Scopes Symbol) (loop : Option NodeId)
    (ids : List NodeId) (uses : List (IdentNode Symbol × Scopes Symbol)) : Prop where
  flow : g.Flow start scopes.symbols
  loopFlow : g.LoopFlow start loop scopes.symbols
  outer : ∀ l ∈ loop, l ∉ ids
  nodup : ids.Nodup
  inScope : ∀ u ∈ uses, InScope u

/-- A body's code is sound, and what follows it may count on what it did. -/
def Body.Flows (b : Body Symbol) : Prop :=
  ∀ {g : Gen} {start scopes loop}, g.FlowAt start scopes loop (Body.keyIds b) (Body.uses scopes b) →
    Body.Connected loop b → ∃ start', (∀ k < g.size, start' k = start k) ∧
      (codeGenBody b g).Flow start' (Scopes.symbols scopes)

/-- The first part of an if. -/
theorem Body.Flows.then {b : Body Symbol} (hb : Body.Flows b) {g : Gen} {start : Nat → Set Symbol}
    {scopes : Scopes Symbol} {loop : Option NodeId} {node : ASTNode} {p : Option (PrecondNode Symbol)}
    {c : Expr Symbol} (h : g.Flow start scopes.symbols) (hloop : g.LoopFlow start loop scopes.symbols)
    (hl : ∀ l ∈ loop, l ∉ Body.keyIds b) (hnd : (Body.keyIds b).Nodup)
    (hp : ∀ u ∈ (p.toList.flatMap PrecondNode.idents ++ c.idents).map (·, scopes), InScope u)
    (hu : ∀ u ∈ Body.uses ([] :: scopes) b, InScope u) (hc : Body.Connected loop b) :
    ∃ start', (∀ k < g.size, start' k = start k) ∧ (∀ k, g.size ≤ k → k < g.size + 3 → start' k = scopes.symbols) ∧
      (codeGenThen node p c b g).Flow start' scopes.symbols := by
  obtain ⟨start₁, hag₁, h₁, hnew⟩ := h.fresh
  have hhead := h₁.ifHead hnew node (locals_inScope hp)
  have hloop₁ : (codeGenIfHead node p c g).LoopFlow start₁ loop (Scopes.symbols ([] :: scopes)) :=
    hloop.mono (fun _ _ => by simp) (by simp) hag₁ (by simp)
  rw [← Scopes.symbols_enter] at hhead
  obtain ⟨start₂, hag₂, h₂⟩ := hb ⟨hhead, hloop₁, hl, hnd, hu⟩ hc
  rw [Scopes.symbols_enter] at h₂
  have hsize := (codeGen_extends.2 b _ hhead.cur_lt).size_le
  simp only [codeGenIfHead_size] at hsize hag₂
  have hD (k : Nat) (hk : g.size ≤ k) (hk' : k < g.size + 3) : start₂ k = Scopes.symbols scopes := by
    rw [hag₂ k hk', hnew k hk]
  refine ⟨start₂, fun k hk => (hag₂ k (by omega)).trans (hag₁ k hk), hD, ?_⟩
  refine (h₂.armEnd b ⟨by omega, ?_⟩).setInsertPoint (by simp; omega) ?_ <;> rw [hD _ (by omega) (by omega)]

/-- **Code generation follows the scopes**: from a block that may count on
the definitions in scope, a statement's code is sound, and what follows it may
count on them and on the one it makes. -/
theorem codeGen_flow :
    (∀ s : Stmt Symbol, ∀ {g : Gen} {start scopes loop}, g.FlowAt start scopes loop s.keyIds (s.uses scopes) →
      s.Connected loop → ∃ start', (∀ k < g.size, start' k = start k) ∧
        (codeGenStmt s g).Flow start' (Stmt.declare scopes s).symbols) ∧
    ∀ b : Body Symbol, Body.Flows b := by
  apply Stmt.induct
  case asg =>
    intro n g start scopes loop h _
    exact ⟨start, fun _ _ => rfl, h.flow.emit_plain (locals_inScope h.inScope) rfl⟩
  case ret =>
    intro n g start scopes loop h _
    have hres : (g.emit (.gatherRes n)).Flow start scopes.symbols := h.flow.emit_plain (locals_inScope h.inScope) rfl
    exact ⟨start, fun _ _ => rfl, hres.emit_branch (by simp [Instr.locals]) rfl (by simp)⟩
  case def_ =>
    intro d g start scopes loop h _
    refine ⟨start, fun _ _ => rfl, ?_⟩
    rw [Stmt.declare, Scopes.symbols_declare]
    refine h.flow.emit (i := .def_ d) (fun s hs => ?_) fun ks hk => nomatch hk
    have := locals_inScope h.inScope s hs.1
    rw [Scopes.symbols_declare] at this
    exact this.resolve_right hs.2
  case cont | brk =>
    intro node l g start scopes loop h hc
    obtain ⟨hsome, rfl⟩ := hc
    obtain ⟨l, rfl⟩ := Option.isSome_iff_exists.mp hsome
    obtain ⟨c, m, hcm, hcD, hmD⟩ := h.loopFlow l rfl
    refine ⟨start, fun _ _ => rfl, h.flow.emit_branch (by simp [Instr.locals]) rfl ?_⟩
    simpa [hcm]
  case for_ =>
    intro node p pre c inc b ih g start scopes loop h hc
    have hu := h.inScope
    have hnd := h.nodup
    rw [Stmt.uses, List.map_append, List.map_append, List.map_append, List.forall_mem_append, List.forall_mem_append,
      List.forall_mem_append, List.forall_mem_append] at hu
    obtain ⟨⟨hp, hpre, hcond, hinc⟩, hbody⟩ := hu
    simp only [Stmt.keyIds, List.nodup_cons, List.mem_append, not_or, List.nodup_append] at hnd
    have h₀ := h.flow.asg? (.pre node.id) (locals_inScope hpre)
    have hsize₀ := codeGenAsg?_size (.pre node.id) pre g
    rw [codeGenStmt_for]
    generalize codeGenAsg? (.pre node.id) pre g = g₀ at h₀ hsize₀ ⊢
    obtain ⟨start₁, hag₁, h₁, hnew⟩ := h₀.fresh
    have hD (k : Nat) (hk : g₀.size ≤ k) : start₁ k ⊆ Scopes.symbols scopes := by rw [hnew k hk]
    have hhead : (codeGenForHead node p c g₀).Flow start₁ (Scopes.symbols ([] :: scopes)) := by
      rw [Scopes.symbols_enter]
      refine h₁.forHead hnew node (locals_inScope ?_)
      rw [List.map_append, List.forall_mem_append]
      exact ⟨hp, hcond⟩
    have hloop : (codeGenForHead node p c g₀).LoopFlow start₁ (some node.id) (Scopes.symbols ([] :: scopes)) := by
      rintro l ⟨⟩
      rw [Scopes.symbols_enter]
      exact ⟨g₀.size, g₀.size + 2, by simp, ⟨by simp, hD _ (Nat.le_refl _)⟩, by simp, hD _ (by omega)⟩
    obtain ⟨start₂, hag₂, h₂⟩ := ih ⟨hhead, hloop, by rintro l ⟨⟩; exact hnd.1.2, hnd.2.2.1, hbody⟩ hc
    rw [Scopes.symbols_enter] at h₂
    have hsize := (codeGen_extends.2 b _ hhead.cur_lt).size_le
    simp only [codeGenForHead_size] at hsize hag₂
    have hend : (codeGenLoop node p c inc b g₀).Flow start₂ (Scopes.symbols scopes) :=
      h₂.loopEnd _ b (locals_inScope hinc) ⟨by omega, by rw [hag₂ _ (by omega)]; exact hD _ (Nat.le_refl _)⟩
    refine ⟨start₂, fun k hk => (hag₂ k (by omega)).trans (hag₁ k (by omega)), hend.setInsertPoint ?_ ?_⟩
    · simp only [codeGenLoop, codeGenLoopEnd_size]
      omega
    · rw [hag₂ _ (by omega), hnew _ (by omega)]
      rfl
  case if_ =>
    intro node p c b ih g start scopes loop h hc
    obtain ⟨hp, hu⟩ := List.forall_mem_append.mp h.inScope
    obtain ⟨-, hnd, -⟩ := List.nodup_append.mp h.nodup
    have hl (l : NodeId) (hm : l ∈ loop) : l ∉ Body.keyIds b := fun hb => h.outer l hm (List.mem_append_right _ hb)
    obtain ⟨start', hag, hD, hthen⟩ := ih.then h.flow h.loopFlow hl hnd hp hu hc
    have hlt : g.size + 2 < (codeGenThen node p c b g).size := codeGenThen_size_le node p c b
    rw [codeGenStmt_if]
    refine ⟨start', hag, ?_⟩
    refine Gen.Flow.setInsertPoint (D := Scopes.symbols scopes) ?_ hlt (by rw [hD _ (by omega) (by omega)]; rfl)
    exact hthen.emit_branch (by simp [Instr.locals]) rfl (by simpa [hD] using hlt)
  case ifElse =>
    intro node p c b e ihb ihe g start scopes loop h hc
    obtain ⟨hp, hu⟩ := List.forall_mem_append.mp h.inScope
    obtain ⟨hub, hue⟩ := List.forall_mem_append.mp hu
    obtain ⟨-, hnd, -⟩ := List.nodup_append.mp h.nodup
    obtain ⟨hndb, hnde, -⟩ := List.nodup_append.mp hnd
    have hl (l : NodeId) (hm : l ∈ loop) : l ∉ Body.keyIds b ∧ l ∉ Body.keyIds e := by
      have := h.outer l hm
      simp only [Stmt.keyIds, List.mem_append, not_or] at this
      exact this.2
    obtain ⟨start₁, hag₁, hD, hthen⟩ :=
      ihb.then h.flow h.loopFlow (fun l hm => (hl l hm).1) hndb hp hub hc.1
    have hlt : g.size + 2 < (codeGenThen node p c b g).size := codeGenThen_size_le node p c b
    have hloop₁ : (codeGenThen node p c b g).LoopFlow start₁ loop (Scopes.symbols ([] :: scopes)) := by
      refine h.loopFlow.mono (fun l hm => ?_) (by omega) hag₁ (by simp)
      simp [codeGenThen, codeGen_loops.2 b _ (hl l hm).1]
    rw [← Scopes.symbols_enter] at hthen
    obtain ⟨start₂, hag₂, h₂⟩ := ihe ⟨hthen, hloop₁, fun l hm => (hl l hm).2, hnde, hue⟩ hc.2
    rw [Scopes.symbols_enter] at h₂
    have hsize := (codeGen_extends.2 e _ hthen.cur_lt).size_le
    have hm : start₂ (g.size + 2) = Scopes.symbols scopes := by rw [hag₂ _ hlt, hD _ (by omega) (by omega)]
    rw [codeGenStmt_ifElse]
    refine ⟨start₂, fun k hk => (hag₂ k (by omega)).trans (hag₁ k hk), ?_⟩
    exact (h₂.armEnd e ⟨by omega, by rw [hm]⟩).setInsertPoint (by simp; omega) (by rw [hm]; rfl)
  case nil => intro g start scopes loop h _; exact ⟨start, fun _ _ => rfl, h.flow⟩
  case cons =>
    intro s rest ihs ihr g start scopes loop h hc
    obtain ⟨hus, hur⟩ := List.forall_mem_append.mp h.inScope
    obtain ⟨hnds, hndr, -⟩ := List.nodup_append.mp h.nodup
    have hl (l : NodeId) (hm : l ∈ loop) : l ∉ s.keyIds ∧ l ∉ Body.keyIds rest := by
      simpa [Body.keyIds] using h.outer l hm
    obtain ⟨start₁, hag₁, h₁⟩ := ihs ⟨h.flow, h.loopFlow, fun l hm => (hl l hm).1, hnds, hus⟩ hc.1
    have hsize := (codeGen_extends.1 s g h.flow.cur_lt).size_le
    have hloop₁ : (codeGenStmt s g).LoopFlow start₁ loop (Stmt.declare scopes s).symbols :=
      h.loopFlow.mono (fun l hm => codeGen_loops.1 s g (hl l hm).1) hsize hag₁ (Stmt.symbols_declare scopes s)
    obtain ⟨start₂, hag₂, h₂⟩ := ihr ⟨h₁, hloop₁, fun l hm => (hl l hm).2, hndr, hur⟩ hc.2
    exact ⟨start₂, fun k hk => (hag₂ k (by omega)).trans (hag₁ k hk), h₂.mono (Stmt.symbols_declare scopes s)⟩

/-! ## The order of emission -/

/-- The instructions of a list of operations. -/
def emitted (ops : List EmitOp) : List Instr :=
  ops.filterMap fun | .emit i => some i | _ => none

@[simp] theorem emitted_append (ops ops' : List EmitOp) : emitted (ops ++ ops') = emitted ops ++ emitted ops' :=
  List.filterMap_append

@[simp] theorem emitted_map (is : List Instr) : emitted (is.map .emit) = is := by
  induction is with
  | nil => rfl
  | cons i is ih => exact congrArg _ ih

theorem mem_emitted_iff {ops : List EmitOp} {i : Instr} : i ∈ emitted ops ↔ .emit i ∈ ops := by
  simp only [emitted, List.mem_filterMap]
  constructor
  · rintro ⟨op, hop, h⟩
    cases op <;> cases h
    exact hop
  · exact fun h => ⟨_, h, rfl⟩

@[simp] theorem emitted_nil : emitted [] = [] := rfl
@[simp] theorem emitted_emit (i : Instr) (ops : List EmitOp) : emitted (.emit i :: ops) = i :: emitted ops := rfl
@[simp] theorem emitted_createBlock (n : String) (ops : List EmitOp) :
    emitted (.createBlock n :: ops) = emitted ops := rfl
@[simp] theorem emitted_setInsertPoint (k : Nat) (ops : List EmitOp) :
    emitted (.setInsertPoint k :: ops) = emitted ops := rfl
@[simp] theorem emitted_setLoop (l : NodeId) (c m : Nat) (ops : List EmitOp) :
    emitted (.setLoop l c m :: ops) = emitted ops := rfl
@[simp] theorem emitted_endBody (b : Body Symbol) (ops : List EmitOp) :
    emitted (.endBody b :: ops) = emitted ops := rfl

/-- Every variable an instruction needs has been allocated when it is emitted. -/
abbrev Defined (D : Set Symbol) (is : List Instr) : Prop := Through Instr.defines (fun D i => i.needs ⊆ D) D is

theorem defined_of_locals {D : Set Symbol} {is : List Instr} (h : ∀ i ∈ is, ∀ s ∈ i.locals, s ∈ D) :
    Defined D is :=
  through_iff.mpr fun done i rest heq s hs => .inl (h i (by simp [heq]) s hs.1)

theorem Defined.mono {D E : Set Symbol} {is : List Instr} (h : Defined D is) (hDE : D ⊆ E) : Defined E is :=
  Through.mono (fun _ _ _ hDE h => h.trans hDE) hDE h

theorem Defined.append {D : Set Symbol} {is js : List Instr} (h : Defined D is) (h' : Defined D js) :
    Defined D (is ++ js) := through_append.mpr ⟨h, h'.mono Set.subset_union_left⟩

@[simp] theorem emitted_forHead (node : ASTNode) (p : Option (PrecondNode Symbol)) (c : Expr Symbol) (g : Gen) :
    emitted (codeGenForHeadOps node p c g) = .br (.enter node.id) (some g.size) ::
      condCode p (.ofLoop node.id) c (g.size + 1) (g.size + 2) := by
  simp [codeGenForHeadOps, codeGenCondOps]

@[simp] theorem emitted_ifHead (node : ASTNode) (p : Option (PrecondNode Symbol)) (c : Expr Symbol) (g : Gen) :
    emitted (codeGenIfHeadOps node p c g) = condCode p (.ofIf node.id) c g.size (g.size + 1) := by
  simp [codeGenIfHeadOps, codeGenCondOps]

theorem condCode_locals {p : Option (PrecondNode Symbol)} {site : CondSite} {c : Expr Symbol} {t f : Nat}
    {D : Set Symbol} (h : ∀ s ∈ localsOf (p.toList.flatMap PrecondNode.idents ++ c.idents), s ∈ D) :
    ∀ i ∈ condCode p site c t f, ∀ s ∈ i.locals, s ∈ D := by
  have hc : ∀ s ∈ localsOf c.idents, s ∈ D := by
    intro s hs
    refine h s ?_
    simp only [localsOf, List.map_append, List.filter_append, List.mem_append]
    exact .inr hs
  cases p with
  | none => simpa [condCode, Instr.locals] using hc
  | some p => simpa [condCode, Instr.locals] using ⟨by simpa using h, hc⟩

theorem asgCode?_locals {site : AsgSite} {n : Option (AsgNode Symbol)} {D : Set Symbol}
    (h : ∀ s ∈ localsOf (n.toList.flatMap AsgNode.idents), s ∈ D) :
    ∀ i ∈ asgCode? site n, ∀ s ∈ i.locals, s ∈ D := by
  cases n with
  | none => simp [asgCode?]
  | some n => simpa [asgCode?, Instr.locals] using h

theorem armEndCode_locals (b : Body Symbol) (m : Nat) (D : Set Symbol) :
    ∀ i ∈ armEndCode b m, ∀ s ∈ i.locals, s ∈ D := by
  unfold armEndCode
  split <;> simp [Instr.locals]

theorem loopEndCode_locals {l : NodeId} {inc : Option (AsgNode Symbol)} {b : Body Symbol} {c : Nat} {D : Set Symbol}
    (h : ∀ s ∈ localsOf (inc.toList.flatMap AsgNode.idents), s ∈ D) :
    ∀ i ∈ loopEndCode l inc b c, ∀ s ∈ i.locals, s ∈ D := by
  unfold loopEndCode
  split
  · simp
  · rw [List.forall_mem_append]
    exact ⟨asgCode?_locals h, by simp [Instr.locals]⟩

/-- The instructions are emitted in an order in which definitions come first. -/
theorem codeGenOps_defined :
    (∀ s : Stmt Symbol, ∀ g {D : Set Symbol} {scopes : Scopes Symbol}, scopes.symbols ⊆ D →
      (∀ u ∈ s.uses scopes, InScope u) → Defined D (emitted (codeGenStmtOps s g)) ∧
        (Stmt.declare scopes s).symbols ⊆ D ∪ gens Instr.defines (emitted (codeGenStmtOps s g))) ∧
    ∀ b : Body Symbol, ∀ g {D : Set Symbol} {scopes : Scopes Symbol}, scopes.symbols ⊆ D →
      (∀ u ∈ Body.uses scopes b, InScope u) → Defined D (emitted (codeGenBodyOps b g)) := by
  apply Stmt.induct
  case asg | ret =>
    intro n g D scopes hD hu
    refine ⟨defined_of_locals ?_, hD.trans Set.subset_union_left⟩
    have := locals_inScope hu
    simpa [codeGenStmtOps, Instr.locals] using fun s hs => hD (this s hs)
  case def_ =>
    intro d g D scopes hD hu
    rw [Stmt.declare, Scopes.symbols_declare]
    refine ⟨⟨fun s hs => ?_, trivial⟩, ?_⟩
    · have := locals_inScope hu s hs.1
      rw [Scopes.symbols_declare] at this
      exact hD (this.resolve_right hs.2)
    · simpa [codeGenStmtOps, gens, Instr.defines] using Set.insert_subset_insert hD
  case cont | brk =>
    intro node l g D scopes hD _
    exact ⟨defined_of_locals (by simp [codeGenStmtOps, Instr.locals]), hD.trans Set.subset_union_left⟩
  case for_ =>
    intro node p pre c inc b ih g D scopes hD hu
    rw [Stmt.uses, List.map_append, List.map_append, List.map_append, List.forall_mem_append, List.forall_mem_append,
      List.forall_mem_append, List.forall_mem_append] at hu
    obtain ⟨⟨hp, hpre, hcond, hinc⟩, hbody⟩ := hu
    refine ⟨?_, hD.trans Set.subset_union_left⟩
    have hhead : ∀ u ∈ (p.toList.flatMap PrecondNode.idents ++ c.idents).map (·, scopes), InScope u := by
      rw [List.map_append, List.forall_mem_append]
      exact ⟨hp, hcond⟩
    simp only [codeGenStmtOps, emitted_append, emitted_map, emitted_forHead, emitted_endBody, emitted_setInsertPoint,
      emitted_nil, List.append_nil]
    refine (defined_of_locals (asgCode?_locals fun s hs => hD (locals_inScope hpre s hs))).append
      (Defined.append (defined_of_locals ?_) ((ih _ (by rwa [Scopes.symbols_enter]) hbody).append
        (defined_of_locals (loopEndCode_locals fun s hs => hD (locals_inScope hinc s hs)))))
    rw [List.forall_mem_cons]
    exact ⟨by simp [Instr.locals], condCode_locals fun s hs => hD (locals_inScope hhead s hs)⟩
  case if_ =>
    intro node p c b ih g D scopes hD hu
    obtain ⟨hp, hbody⟩ := List.forall_mem_append.mp hu
    refine ⟨?_, hD.trans Set.subset_union_left⟩
    simp only [codeGenStmtOps, emitted_append, emitted_map, emitted_ifHead, emitted_endBody, emitted_setInsertPoint,
      emitted_emit, emitted_nil]
    exact (defined_of_locals (condCode_locals fun s hs => hD (locals_inScope hp s hs))).append
      ((ih _ (by rwa [Scopes.symbols_enter]) hbody).append ((defined_of_locals (armEndCode_locals _ _ _)).append
        (defined_of_locals (by simp [Instr.locals]))))
  case ifElse =>
    intro node p c b e ihb ihe g D scopes hD hu
    obtain ⟨hp, hbodies⟩ := List.forall_mem_append.mp hu
    obtain ⟨hb, he⟩ := List.forall_mem_append.mp hbodies
    refine ⟨?_, hD.trans Set.subset_union_left⟩
    simp only [codeGenStmtOps, emitted_append, emitted_map, emitted_ifHead, emitted_endBody, emitted_setInsertPoint,
      emitted_nil, List.append_nil]
    exact (defined_of_locals (condCode_locals fun s hs => hD (locals_inScope hp s hs))).append
      ((ihb _ (by rwa [Scopes.symbols_enter]) hb).append ((defined_of_locals (armEndCode_locals _ _ _)).append
        ((ihe _ (by rwa [Scopes.symbols_enter]) he).append (defined_of_locals (armEndCode_locals _ _ _)))))
  case nil => intros; trivial
  case cons =>
    intro s rest ihs ihr g D scopes hD hu
    obtain ⟨hus, hur⟩ := List.forall_mem_append.mp hu
    obtain ⟨hs, hdecl⟩ := ihs g hD hus
    rw [codeGenBodyOps, emitted_append]
    exact through_append.mpr ⟨hs, ihr _ hdecl hur⟩

/-! ## The variables in the generated operands -/

mutual
/-- The variables whose `alloca` a value is computed from, in the order of the code. -/
def LVal.allocas : LVal → List Symbol
  | .alloca s _ => s.toList
  | .bin _ lhs rhs | .icmp _ lhs rhs => lhs.allocas ++ rhs.allocas
  | .load _ addr => addr.allocas
  | .gep _ addr idx => addr.allocas ++ idx.allocas
  | .intCast v _ => v.allocas
  | .getValArr _ idxs _ => LVal.allocasList idxs
  | .getPropertyLocal _ data => data.allocas
  | .createArr _ len _ => len.allocas
  | _ => []

def LVal.allocasList : List LVal → List Symbol
  | [] => []
  | v :: vs => v.allocas ++ LVal.allocasList vs
end

@[simp] theorem localsOf_nil : localsOf [] = [] := rfl

@[simp] theorem localsOf_append (is js : List (IdentNode Symbol)) :
    localsOf (is ++ js) = localsOf is ++ localsOf js := by
  simp [localsOf]

theorem localsOf_cons (i : IdentNode Symbol) (is : List (IdentNode Symbol)) :
    localsOf (i :: is) = (if i.symbol.isInput then [] else [i.symbol]) ++ localsOf is := by
  cases h : i.symbol.isInput <;> simp [localsOf, h]

theorem Symbol.createAlloca_allocas {s : Symbol} {v : LVal} (h : s.createAlloca = .ok v) : v.allocas = [s] := by
  simp only [createAlloca, Except.bind_ok_iff, Except.pure_ok_iff] at h
  obtain ⟨t, -, rfl⟩ := h
  rfl

theorem Symbol.loadAlloca_allocas {s : Symbol} {v : LVal} (h : s.loadAlloca = .ok v) : v.allocas = [s] := by
  simp only [loadAlloca, Except.bind_ok_iff, Except.pure_ok_iff] at h
  obtain ⟨a, ha, t, -, rfl⟩ := h
  rw [LVal.allocas, createAlloca_allocas ha]

theorem BinOpType.inst_allocas (op : BinOpType) (l r : LVal) : (op.inst l r).allocas = l.allocas ++ r.allocas := by
  cases op <;> rfl

theorem codeGenExprs_allocas {es : List (Expr Symbol)}
    (ih : ∀ e ∈ es, ∀ {v}, codeGenExpr e = .ok v → v.allocas = localsOf e.idents) :
    (∀ {vs}, codeGenExprs es = .ok vs → LVal.allocasList vs = localsOf (Expr.identsList es)) ∧
    ∀ {addr v}, getLookupAddress addr es = .ok v → v.allocas = addr.allocas ++ localsOf (Expr.identsList es) := by
  induction es with
  | nil =>
    refine ⟨fun h => ?_, fun h => ?_⟩
    · simp only [codeGenExprs, Except.pure_ok_iff] at h
      subst h
      rfl
    · simp only [getLookupAddress, Except.pure_ok_iff] at h
      subst h
      simp [Expr.identsList]
  | cons e es ihes =>
    simp only [List.forall_mem_cons] at ih
    obtain ⟨he, hes⟩ := ih
    refine ⟨fun h => ?_, fun h => ?_⟩
    · simp only [codeGenExprs, Except.bind_ok_iff, Except.pure_ok_iff] at h
      obtain ⟨v, hv, vs, hvs, rfl⟩ := h
      simp [LVal.allocasList, Expr.identsList, he hv, (ihes hes).1 hvs]
    · simp only [getLookupAddress, Except.bind_ok_iff] at h
      obtain ⟨t, -, t', -, idx, hidx, h⟩ := h
      simp [(ihes hes).2 h, LVal.allocas, Expr.identsList, he hidx]

/-- The code of an expression is computed from the variables it names. -/
theorem codeGenExpr_allocas (e : Expr Symbol) :
    ∀ {v}, codeGenExpr e = .ok v → v.allocas = localsOf e.idents := by
  induction e with
  | ident n =>
    intro v h
    rw [codeGenExpr, codeGenIdent] at h
    rw [Expr.idents, localsOf_cons]
    split at h
    · simp only [Except.bind_ok_iff, Except.pure_ok_iff] at h
      obtain ⟨t, -, rfl⟩ := h
      simp [LVal.allocas, *]
    · simp [Symbol.loadAlloca_allocas h, *]
  | binOp node op l r ihl ihr =>
    intro v h
    simp only [codeGenExpr, Except.bind_ok_iff, Except.pure_ok_iff] at h
    obtain ⟨lv, hl, rv, hr, rfl⟩ := h
    simp [BinOpType.inst_allocas, Expr.idents, ihl hl, ihr hr]
  | arrLookup node n idxs ih =>
    intro v h
    rw [codeGenExpr] at h
    rw [Expr.idents, localsOf_cons]
    split at h
    · simp only [codeGenIdx, Except.bind_ok_iff, Except.pure_ok_iff] at h
      obtain ⟨vs, hvs, t, -, rfl⟩ := h
      simp [LVal.allocas, (codeGenExprs_allocas ih).1 hvs, *]
    · simp only [Except.bind_ok_iff, Except.pure_ok_iff] at h
      obtain ⟨t, -, a, ha, addr, haddr, t', -, rfl⟩ := h
      simp [LVal.allocas, (codeGenExprs_allocas ih).2 haddr, Symbol.createAlloca_allocas ha, *]
  | arrCreate node elem len ih =>
    intro v h
    simp only [codeGenExpr, Except.bind_ok_iff, Except.pure_ok_iff] at h
    obtain ⟨_, -, _, -, l, hl, rfl⟩ := h
    simp [LVal.allocas, Expr.idents, ih hl]
  | propertyLookup node n p =>
    intro v h
    rw [codeGenExpr, codeGenProperty] at h
    rw [Expr.idents, localsOf_cons]
    split at h
    · simp only [Except.pure_ok_iff] at h
      subst h
      simp [LVal.allocas, *]
    · simp only [Except.bind_ok_iff, Except.pure_ok_iff] at h
      obtain ⟨d, hd, rfl⟩ := h
      simp [LVal.allocas, Symbol.loadAlloca_allocas hd, *]
  | _ =>
    intro v h
    simp only [codeGenExpr, Except.pure_ok_iff] at h
    subst h
    rfl

def Callback.operands : Callback → List LVal
  | updIdentAddr _ addr | updArrLookupAddr _ addr => [addr]
  | updArrIdxs _ idxs => idxs

/-- The callbacks register variables of `L` only. -/
def Registers (L : List Symbol) (cs : List Callback) : Prop := ∀ c ∈ cs, LVal.allocasList c.operands ⊆ L

theorem Registers.append {L L' : List Symbol} {cs cs' : List Callback} (h : Registers L cs) (h' : Registers L' cs') :
    Registers (L ++ L') (cs ++ cs') :=
  List.forall_mem_append.mpr ⟨fun c hc => List.Subset.trans (h c hc) (List.subset_append_left ..),
    fun c hc => List.Subset.trans (h' c hc) (List.subset_append_right ..)⟩

theorem Registers.mono {L L' : List Symbol} {cs : List Callback} (h : Registers L cs) (hL : L ⊆ L') :
    Registers L' cs := fun c hc => List.Subset.trans (h c hc) hL

theorem prepareIdent_registers {n : IdentNode Symbol} {cs : List Callback} (h : prepareIdent n = .ok cs) :
    Registers (localsOf [n]) cs := by
  unfold prepareIdent at h
  split at h
  · simp only [Except.pure_ok_iff] at h
    subst h
    exact fun _ hc => absurd hc List.not_mem_nil
  · simp only [Except.bind_ok_iff, Except.pure_ok_iff] at h
    obtain ⟨a, ha, rfl⟩ := h
    simp [Registers, Callback.operands, LVal.allocasList, Symbol.createAlloca_allocas ha, localsOf_cons, *]

theorem traverseAstCb_registers {e : Expr Symbol} {cs : List Callback} (h : traverseAstCb e = .ok cs) :
    Registers (localsOf e.idents) cs := by
  cases e with
  | ident n | propertyLookup _ n _ => exact prepareIdent_registers h
  | arrLookup node n idxs =>
    rw [traverseAstCb, prepareArrLookup] at h
    rw [Expr.idents, localsOf_cons]
    have hidxs := codeGenExprs_allocas fun (e : Expr Symbol) (_ : e ∈ idxs) => codeGenExpr_allocas e
    split at h
    · simp only [Except.bind_ok_iff, Except.pure_ok_iff] at h
      obtain ⟨vs, hvs, rfl⟩ := h
      simp [Registers, Callback.operands, hidxs.1 hvs]
    · simp only [Except.bind_ok_iff, Except.pure_ok_iff] at h
      obtain ⟨a, ha, addr, haddr, rfl⟩ := h
      simp [Registers, Callback.operands, LVal.allocasList, hidxs.2 haddr, Symbol.createAlloca_allocas ha, *]
  | _ =>
    simp only [traverseAstCb, Except.pure_ok_iff] at h
    subst h
    exact fun _ hc => absurd hc List.not_mem_nil

theorem visitAll_registers {es : List (Expr Symbol)}
    (ih : ∀ e ∈ es, ∀ {cs}, visitChildren e = .ok cs → Registers (localsOf e.idents) cs) :
    ∀ {cs}, visitAll es = .ok cs → Registers (localsOf (Expr.identsList es)) cs := by
  induction es with
  | nil =>
    intro cs h
    simp only [visitAll, Except.pure_ok_iff] at h
    subst h
    exact fun _ hc => absurd hc List.not_mem_nil
  | cons e es ihes =>
    intro cs h
    simp only [List.forall_mem_cons] at ih
    simp only [visitAll, Except.bind_ok_iff, Except.pure_ok_iff] at h
    obtain ⟨l, hl, l', hl', rest, hrest, rfl⟩ := h
    rw [Expr.identsList, localsOf_append]
    refine Registers.append ?_ (ihes ih.2 hrest)
    exact ((traverseAstCb_registers hl).append (ih.1 hl')).mono (by simp)

theorem visitChildren_registers (e : Expr Symbol) :
    ∀ {cs}, visitChildren e = .ok cs → Registers (localsOf e.idents) cs := by
  induction e with
  | binOp node op l r ihl ihr =>
    intro cs h
    simp only [visitChildren, Except.bind_ok_iff, Except.pure_ok_iff] at h
    obtain ⟨c₁, h₁, c₂, h₂, c₃, h₃, c₄, h₄, rfl⟩ := h
    rw [Expr.idents, localsOf_append]
    exact (((traverseAstCb_registers h₁).append (ihl h₂)).mono (by simp)).append
      (((traverseAstCb_registers h₃).append (ihr h₄)).mono (by simp))
  | arrLookup node n idxs ih =>
    intro cs h
    simp only [visitChildren, Except.bind_ok_iff, Except.pure_ok_iff] at h
    obtain ⟨c₁, h₁, c₂, h₂, rfl⟩ := h
    exact ((prepareIdent_registers h₁).append (visitAll_registers ih h₂)).mono (by simp [← localsOf_append, Expr.idents])
  | arrCreate node elem len ih =>
    intro cs h
    simp only [visitChildren, Except.bind_ok_iff, Except.pure_ok_iff] at h
    obtain ⟨c₁, h₁, c₂, h₂, rfl⟩ := h
    exact ((traverseAstCb_registers h₁).append (ih h₂)).mono (by simp [Expr.idents])
  | propertyLookup node n p => intro cs h; exact prepareIdent_registers h
  | _ =>
    intro cs h
    simp only [visitChildren, Except.pure_ok_iff] at h
    subst h
    exact fun _ hc => absurd hc List.not_mem_nil

theorem prepareEvalCtx_registers {cond : Expr Symbol} {precond : PrecondNode Symbol} {cs : List Callback}
    (h : prepareEvalCtx cond precond = .ok cs) : Registers (localsOf (precond.idents ++ cond.idents)) cs := by
  simp only [prepareEvalCtx, Except.bind_ok_iff, Except.pure_ok_iff] at h
  obtain ⟨ps, hps, cs, hcs, rfl⟩ := h
  rw [localsOf_append]
  refine ((visitAll_registers (fun e _ => visitChildren_registers e) hps).mono ?_).append (visitChildren_registers cond hcs)
  cases h : precond.expr <;> simp [PrecondNode.idents, Expr.identsList, h]

/-- The machine values behind an instruction: what it stores and where, what
the callbacks register, what it branches on. -/
def Instr.operands (retType : DeclTy) : Instr → Except GenFault (List LVal)
  | .def_ n => do return (← codeGenDefStore n).flatMap fun st => [st.val, st.addr]
  | .asg _ n => do return (← codeGenAsgStore n).flatMap fun st => [st.addr, st.val]
  | .z3Gen cond precond => do return (← prepareEvalCtx cond precond).flatMap Callback.operands
  | .condBr _ cond _ _ => do return [← codeGenExpr cond]
  | .gatherRes n => do return (← codeGenRetStore retType n).flatMap fun st => [st.val, st.addr]
  | .br _ _ | .retVoid => return []

theorem Instr.mem_defines_iff {i : Instr} {s : Symbol} : s ∈ i.defines ↔ ∃ n, i = .def_ n ∧ n.sym = s := by
  cases i <;> simp [defines, eq_comm]

/-- An access to a variable: its `alloca`, or a use of that in a load, a store or a call. -/
inductive Access
  | alloca (s : Symbol)
  | touch (s : Symbol)

/-- A definition begins with its `alloca`. -/
def Instr.ownAlloca : Instr → List Access
  | .def_ n => [.alloca n.sym]
  | _ => []

/-- The accesses of an instruction in the order of the code. -/
def Instr.accesses (retType : DeclTy) (i : Instr) : List Access :=
  i.ownAlloca ++
    match i.operands retType with
    | .ok vs => (LVal.allocasList vs).map .touch
    | .error _ => []

theorem convert_allocas {v v' : LVal} {t t' : Ty} (h : convertValIfConvertible v t t' = .ok v') :
    v'.allocas = v.allocas := by
  unfold convertValIfConvertible at h
  split at h
  · simp only [Except.bind_ok_iff, Except.pure_ok_iff] at h
    obtain ⟨dest, -, rfl⟩ := h
    unfold createIntCast
    split <;> rfl
  · simp only [Except.pure_ok_iff] at h
    rw [h]

/-- The symbol an assignment is to. -/
def LValue.target : LValue Symbol → Symbol
  | .ident n | .arrLookup _ n _ => n.symbol

theorem getAddress_allocas {l : LValue Symbol} {v : LVal} (h : getAddress l = .ok v) :
    v.allocas ⊆ l.target :: localsOf l.idents := by
  cases l with
  | ident n => simp [Symbol.createAlloca_allocas h, LValue.target]
  | arrLookup node n idxs =>
    simp only [getAddress, Except.bind_ok_iff] at h
    obtain ⟨a, ha, haddr⟩ := h
    have hidxs := codeGenExprs_allocas fun (e : Expr Symbol) (_ : e ∈ idxs) => codeGenExpr_allocas e
    rw [hidxs.2 haddr, Symbol.createAlloca_allocas ha, LValue.idents, LValue.toExpr, Expr.idents, localsOf_cons]
    exact List.cons_subset_cons _ (List.subset_append_right ..)

/-- The symbols whose `alloca` code generation reads: `get_address` does so of an input's as well. -/
def Instr.pointers : Instr → List Symbol
  | .asg _ n => n.lhs.target :: localsOf n.idents
  | i => i.locals

theorem LVal.allocasList_flatMap {α : Type} (f : α → List LVal) (as : List α) :
    LVal.allocasList (as.flatMap f) = as.flatMap fun a => LVal.allocasList (f a) := by
  have happend (vs ws : List LVal) : LVal.allocasList (vs ++ ws) = LVal.allocasList vs ++ LVal.allocasList ws := by
    induction vs with
    | nil => rfl
    | cons v vs ih => simp [allocasList, ih]
  induction as with
  | nil => rfl
  | cons a as ih => simp [happend, ih]

/-- What is generated for an instruction is computed from what it names. -/
theorem Instr.operands_pointers {retType : DeclTy} {i : Instr} {vs : List LVal} (h : i.operands retType = .ok vs) :
    ∀ s ∈ LVal.allocasList vs, s ∈ i.pointers ∨ s ∈ i.defines := by
  cases i with
  | def_ n =>
    simp only [operands, codeGenDefStore, Except.bind_ok_iff, Except.pure_ok_iff] at h
    obtain ⟨sts, ⟨a, ha, h⟩, rfl⟩ := h
    cases hn : n.rhs with
    | none =>
      simp only [hn, Except.pure_ok_iff] at h
      subst h
      simp [LVal.allocasList]
    | some rhs =>
      simp only [hn, Except.bind_ok_iff, Except.pure_ok_iff] at h
      obtain ⟨v, hv, t, -, v', hv', rfl⟩ := h
      simp [LVal.allocasList, convert_allocas hv', codeGenExpr_allocas rhs hv, Symbol.createAlloca_allocas ha,
        pointers, locals, defines, hn]
  | asg site n =>
    simp only [operands, codeGenAsgStore, Except.bind_ok_iff, Except.pure_ok_iff] at h
    obtain ⟨sts, ⟨a, ha, v, hv, t, -, t', -, v', hv', rfl⟩, rfl⟩ := h
    intro s hs
    simp only [List.flatMap_cons, List.flatMap_nil, List.append_nil, LVal.allocasList, convert_allocas hv',
      codeGenExpr_allocas n.rhs hv, List.mem_append] at hs
    simp only [pointers, AsgNode.idents, localsOf_append, List.mem_cons, List.mem_append]
    obtain hs | hs := hs
    · obtain rfl | hs := List.mem_cons.mp (getAddress_allocas ha hs)
      · exact .inl (.inl rfl)
      · exact .inl (.inr (.inl hs))
    · exact .inl (.inr (.inr hs))
  | z3Gen cond precond =>
    simp only [operands, Except.bind_ok_iff, Except.pure_ok_iff] at h
    obtain ⟨cs, hcs, rfl⟩ := h
    intro s hs
    rw [LVal.allocasList_flatMap, List.mem_flatMap] at hs
    obtain ⟨c, hc, hs⟩ := hs
    exact .inl (prepareEvalCtx_registers hcs c hc hs)
  | condBr site cond t f =>
    simp only [operands, Except.bind_ok_iff, Except.pure_ok_iff] at h
    obtain ⟨v, hv, rfl⟩ := h
    intro s hs
    exact .inl (by simpa [LVal.allocasList, codeGenExpr_allocas cond hv, pointers, locals] using hs)
  | gatherRes n =>
    simp only [operands, codeGenRetStore, Except.bind_ok_iff, Except.pure_ok_iff] at h
    obtain ⟨sts, ⟨t, -, v, hv, rfl⟩, rfl⟩ := h
    intro s hs
    exact .inl (by
      simpa [LVal.allocasList, LVal.allocas, codeGenExpr_allocas n.expr hv, pointers, locals] using hs)
  | br | retVoid =>
    simp only [operands, Except.pure_ok_iff] at h
    subst h
    simp [LVal.allocasList]

theorem Instr.alloca_mem_accesses {retType : DeclTy} {i : Instr} {s : Symbol} (h : s ∈ i.defines) :
    .alloca s ∈ i.accesses retType := by
  obtain ⟨n, rfl, rfl⟩ := mem_defines_iff.mp h
  simp [accesses, ownAlloca]

/-- What is touched is named, and touched after the `alloca` where the instruction has that itself. -/
theorem Instr.touched {retType : DeclTy} {i : Instr} {before after : List Access} {s : Symbol}
    (h : i.accesses retType = before ++ .touch s :: after) :
    (s ∈ i.pointers ∨ s ∈ i.defines) ∧ (s ∈ i.defines → .alloca s ∈ before) := by
  constructor
  · have hmem : Access.touch s ∈ i.accesses retType := by rw [h]; simp
    rw [accesses] at hmem
    obtain hmem | hmem := List.mem_append.mp hmem
    · cases i <;> simp [ownAlloca] at hmem
    · cases hvs : i.operands retType with
      | error e => simp [hvs] at hmem
      | ok vs =>
        simp only [hvs, List.mem_map, Access.touch.injEq, exists_eq_right] at hmem
        exact operands_pointers hvs s hmem
  · intro hs
    obtain ⟨n, rfl, rfl⟩ := mem_defines_iff.mp hs
    simp only [accesses, ownAlloca, List.singleton_append] at h
    cases before with
    | nil => cases (List.cons.inj h).1
    | cons a before =>
      obtain ⟨rfl, -⟩ := List.cons.inj h
      exact List.mem_cons_self

/-! ## Accepted functions -/

theorem asgCode?_nodes {σ : AsgSite} {o : Option (AsgNode Symbol)} {site : AsgSite} {n : AsgNode Symbol}
    (h : .asg site n ∈ asgCode? σ o) : Stmt.asg n ∈ (o.map Stmt.asg).toList := by
  cases o <;> simp_all [asgCode?]

theorem condCode_not_asg {p : Option (PrecondNode Symbol)} {s : CondSite} {c : Expr Symbol} {t f : Nat}
    {site : AsgSite} {n : AsgNode Symbol} : .asg site n ∉ condCode p s c t f := by
  cases p <;> simp [condCode]

theorem armEndCode_not_asg {b : Body Symbol} {m : Nat} {site : AsgSite} {n : AsgNode Symbol} :
    .asg site n ∉ armEndCode b m := by
  unfold armEndCode
  split <;> simp

/-- An assignment is emitted for one of the tree. -/
theorem emitted_asg {site : AsgSite} {n : AsgNode Symbol} :
    (∀ s : Stmt Symbol, ∀ g, .asg site n ∈ emitted (codeGenStmtOps s g) → Stmt.asg n ∈ s.nodes) ∧
    ∀ b : Body Symbol, ∀ g, .asg site n ∈ emitted (codeGenBodyOps b g) → Stmt.asg n ∈ Body.nodes b := by
  apply Stmt.induct
  case for_ =>
    intro node p pre c inc b ih g h
    simp only [codeGenStmtOps, emitted_append, emitted_map, emitted_forHead, emitted_endBody, emitted_setInsertPoint,
      emitted_nil, List.append_nil, List.mem_append, List.mem_cons, reduceCtorEq, condCode_not_asg, false_or] at h
    simp only [Stmt.nodes, List.mem_cons, reduceCtorEq, false_or, List.mem_append]
    obtain h | h | h := h
    · exact .inl (.inl (asgCode?_nodes h))
    · exact .inr (ih _ h)
    · unfold loopEndCode at h
      split at h
      · cases h
      · simp only [List.mem_append, List.mem_singleton, reduceCtorEq, or_false] at h
        exact .inl (.inr (asgCode?_nodes h))
  case if_ =>
    intro node p c b ih g h
    simp only [codeGenStmtOps, emitted_append, emitted_map, emitted_ifHead, emitted_endBody, emitted_setInsertPoint,
      emitted_emit, emitted_nil, List.mem_append, List.mem_singleton, reduceCtorEq, condCode_not_asg,
      armEndCode_not_asg, false_or, or_false] at h
    exact List.mem_cons_of_mem _ (ih _ h)
  case ifElse =>
    intro node p c b e ihb ihe g h
    simp only [codeGenStmtOps, emitted_append, emitted_map, emitted_ifHead, emitted_endBody, emitted_setInsertPoint,
      emitted_nil, List.append_nil, List.mem_append, condCode_not_asg, armEndCode_not_asg, false_or, or_false] at h
    exact List.mem_cons_of_mem _ (List.mem_append.mpr (h.imp (ihb _) (ihe _)))
  case cons =>
    intro s rest ihs ihr g h
    rw [codeGenBodyOps, emitted_append, List.mem_append] at h
    exact List.mem_append.mpr (h.imp (ihs _) (ihr _))
  all_goals
    intros
    rename_i h
    simp_all [codeGenStmtOps, codeGenBodyOps, Stmt.nodes]

theorem mem_code_run {ops : List EmitOp} {i : Instr} {k : Nat} :
    ∀ {g : Gen}, i ∈ (EmitOp.run ops g).code k → i ∈ g.code k ∨ i ∈ emitted ops := by
  induction ops with
  | nil => exact fun h => .inl h
  | cons op ops ih =>
    intro g h
    obtain h | hrest := ih h
    · cases op with
      | emit j =>
        simp only [EmitOp.apply, Gen.emit_toBuilder, Blocks.Builder.emit_code] at h
        split at h
        · obtain h | h := List.mem_append.mp h
          · exact .inl h
          · exact .inr (by simp [List.mem_singleton.mp h])
        · exact .inl h
      | createBlock n =>
        simp only [EmitOp.apply, Gen.createBlock_toBuilder, Blocks.Builder.createBlock_code] at h
        split at h
        · cases h
        · exact .inl h
      | setInsertPoint | setLoop | endBody => exact .inl h
    · refine .inr ?_
      cases op with
      | emit j => exact List.mem_cons_of_mem _ hrest
      | _ => exact hrest

/-- What is in the code was emitted. -/
theorem emitted_of_code {g : FunctionNode Symbol} {i : Instr} {k : Nat} (hi : i ∈ (codeGen g).code k) :
    i ∈ emitted (codeGenOps g) := by
  rw [← codeGenOps_run] at hi
  exact (mem_code_run hi).resolve_left List.not_mem_nil

/-- The variables an instruction of an accepted function names are none of its inputs. -/
theorem FunctionNode.accept_pointers {f : FunctionNode Unit} {g : FunctionNode Symbol} {inputs : List Symbol}
    (h : f.accept = .ok (g, inputs)) {i : Instr} (hi : i ∈ emitted (codeGenOps g)) :
      ∀ s ∈ i.pointers, s ∈ i.locals := by
  cases i with
  | asg site n =>
    have hmem : Instr.asg site n ∈ emitted (codeGenBodyOps g.body Gen.start) := by
      simpa [codeGenOps] using hi
    obtain ⟨ht, -⟩ := typeCheckVisitorAsg_ok_iff.mp (accept_checks h (emitted_asg.2 _ _ hmem))
    have hin : n.lhs.target.isInput = false ∧ n.lhs.target ∈ n.lhs.idents.map (·.symbol) := by
      cases hl : n.lhs with
      | ident j | arrLookup _ j _ =>
        rw [hl, typeCheckTarget] at ht
        cases hj : j.symbol.isInput
        · exact ⟨hj, by simp [LValue.target, LValue.idents, LValue.toExpr, Expr.idents]⟩
        · simp [hj, buildError] at ht
    intro s hs
    obtain rfl | hs := List.mem_cons.mp hs
    · refine List.mem_filter.mpr ⟨?_, by simp [hin.1]⟩
      rw [AsgNode.idents, List.map_append]
      exact List.mem_append_left _ hin.2
    · exact hs
  | _ => exact fun s hs => hs

/-- **Definitions dominate uses.** On every path from the entry to an
instruction, the `alloca` of each variable the instruction reads, writes or
registers has been passed; and the same of the order of emission, so code
generation finds no `alloca` unset. -/
theorem codeGen_dominates {f : FunctionNode Unit} {g : FunctionNode Symbol} {inputs : List Symbol}
    (h : f.accept = .ok (g, inputs)) :
    (∀ is b p i, Path Instr.succs (codeGen g).code 0 0 is b p → ((codeGen g).code b)[p]? = some i →
      ∀ before s after, i.accesses g.retType = before ++ .touch s :: after →
        .alloca s ∈ is.flatMap (Instr.accesses g.retType) ++ before) ∧
    ∀ done i rest, codeGenOps g = done ++ .emit i :: rest → ∀ s ∈ i.pointers,
      s ∈ i.defines ∨ ∃ n, .emit (.def_ n) ∈ done ∧ n.sym = s := by
  have hin := FunctionNode.accept_inScope h
  have hnone : Scopes.symbols [[]] = ∅ := by simp [Scopes.symbols]
  constructor
  · intro is b p i hpath hi before s after hacc
    have hstart : Gen.start.Flow (fun _ => ∅) (Scopes.symbols [[]]) :=
      ⟨Nat.one_pos, fun _ _ => trivial, by simp [hnone], fun _ _ => rfl⟩
    obtain ⟨start, hag, hflow⟩ := codeGen_flow.2 g.body
      ⟨hstart, by simp [Gen.LoopFlow], by simp, g.distinct, hin⟩ (FunctionNode.accept_jumps h).2
    have hsound : Dataflow.Sound Instr.defines Instr.needs Instr.succs (codeGen g).code start := by
      intro k
      by_cases hk : k < (codeGen g).size
      · refine (hflow.sound k hk).mono (fun D E i hDE hfit => ?_) subset_rfl
        exact ⟨hfit.1.1.trans hDE, fun ks hs k hk => (hfit.1.2 ks hs k hk).trans hDE⟩
      · have hempty : (codeGen g).code k = [] := hflow.empty k (Nat.le_of_not_lt hk)
        rw [hempty]
        trivial
    obtain ⟨hnamed, hown⟩ := Instr.touched hacc
    rw [List.mem_append]
    by_cases hdef : s ∈ i.defines
    · exact .inr (hown hdef)
    · have hlocal := FunctionNode.accept_pointers h (emitted_of_code (List.mem_of_getElem? hi)) s (hnamed.resolve_right hdef)
      obtain ⟨j, hj, hs⟩ := mem_gens.mp (hsound.needed (hag 0 Nat.one_pos) hpath hi ⟨hlocal, hdef⟩)
      exact .inl (List.mem_flatMap.mpr ⟨j, hj, Instr.alloca_mem_accesses hs⟩)
  · intro done i rest hops s hs
    have hdef : Defined ∅ (emitted (codeGenOps g)) := by
      have := codeGenOps_defined.2 g.body Gen.start hnone.subset hin
      simpa [codeGenOps] using this
    have hi : i ∈ emitted (codeGenOps g) := by simp [hops]
    by_cases hown : s ∈ i.defines
    · exact .inl hown
    · have hneed := through_iff.mp hdef (emitted done) i (emitted rest) (by simp [hops])
        ⟨FunctionNode.accept_pointers h hi s hs, hown⟩
      rw [Set.empty_union] at hneed
      obtain ⟨j, hj, hsj⟩ := mem_gens.mp hneed
      obtain ⟨n, rfl, rfl⟩ := Instr.mem_defines_iff.mp hsj
      exact .inr ⟨n, mem_emitted_iff.mp hj, rfl⟩

/-- `int f(int n) { int k = n k = k + 1 return k }`. -/
def Sample.keeps : FunctionNode Unit where
  node := node 0
  retType := ⟨.int, 0⟩
  name := "f"
  args := [param 1 "n" ⟨.int, 0⟩]
  body := [
    .def_ ⟨node 2, "k", ⟨.int, 0⟩, some (ident 3 "n"), ()⟩,
    .asg ⟨node 4, var 5 "k", .binOp (node 6) .sum (ident 7 "k") (num 8 1)⟩,
    ret 9 (ident 10 "k")]
  distinct := by decide

theorem codeGen_dominates_keeps : ∃ g inputs, Sample.keeps.accept = .ok (g, inputs) ∧
    (∀ is b p i, Path Instr.succs (codeGen g).code 0 0 is b p → ((codeGen g).code b)[p]? = some i →
      ∀ before s after, i.accesses g.retType = before ++ .touch s :: after →
        .alloca s ∈ is.flatMap (Instr.accesses g.retType) ++ before) ∧
    ∀ done i rest, codeGenOps g = done ++ .emit i :: rest → ∀ s ∈ i.pointers,
      s ∈ i.defines ∨ ∃ n, .emit (.def_ n) ∈ done ∧ n.sym = s :=
  ⟨_, _, rfl, codeGen_dominates (f := Sample.keeps) rfl⟩

end DGen
