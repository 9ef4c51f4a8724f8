/-
The evaluation context of a precondition (`prepare_eval_ctx`): the callbacks
emitted in front of `z3_gen`, and whether they set what `gen_expr` reads.

The callbacks come from `visitChildren`, which leaves out the node it starts
at: all of the precondition's expression, but not the root of the condition.
So what `gen_expr` reads is set, and current, unless that root reads
something itself (`evalCtx_fresh_iff`).
-/
import DGen.Z3Visitor
import DGen.Steps
import DGen.LlvmTypes

namespace DGen

open Memory StateT

/-! ## The callbacks -/

/-- The calls `prepare_eval_ctx` emits, with their operands. -/
inductive Callback
  | updIdentAddr (s : Symbol) (addr : LVal)
  | updArrLookupAddr (node : NodeId) (addr : LVal)
  | updArrIdxs (node : NodeId) (idxs : List LVal)

/-- `prepare_eval_ctx(IdentNode *)`. -/
def prepareIdent (n : IdentNode Symbol) : Except GenFault (List Callback) :=
  if n.symbol.isInput then return []
  else do return [.updIdentAddr n.symbol (← n.symbol.createAlloca)]

/-- `prepare_eval_ctx(ArrLookupNode *)`. -/
def prepareArrLookup (node : ASTNode) (n : IdentNode Symbol) (idxs : List (Expr Symbol)) :
    Except GenFault (List Callback) :=
  if n.symbol.isInput then do return [.updArrIdxs node.id (← codeGenExprs idxs)]
  else do return [.updArrLookupAddr node.id (← getLookupAddress (← n.symbol.createAlloca) idxs)]

/-- `traverse_ast_cb`. -/
def traverseAstCb : Expr Symbol → Except GenFault (List Callback)
  | .ident n => prepareIdent n
  | .arrLookup node n idxs => prepareArrLookup node n idxs
  | .propertyLookup _ n _ => prepareIdent n
  | _ => return []

mutual
/-- `visitChildren`: each child, and then its children. -/
def visitChildren : Expr Symbol → Except GenFault (List Callback)
  | .binOp _ _ lhs rhs => do
    let l ← traverseAstCb lhs
    let l' ← visitChildren lhs
    let r ← traverseAstCb rhs
    let r' ← visitChildren rhs
    return l ++ l' ++ (r ++ r')
  | .arrLookup _ n idxs => do
    let i ← prepareIdent n
    let is ← visitAll idxs
    return i ++ is
  | .arrCreate _ _ len => do
    let l ← traverseAstCb len
    let l' ← visitChildren len
    return l ++ l'
  | .propertyLookup _ n _ => prepareIdent n
  | _ => return []

def visitAll : List (Expr Symbol) → Except GenFault (List Callback)
  | [] => return []
  | e :: es => do
    let l ← traverseAstCb e
    let l' ← visitChildren e
    let rest ← visitAll es
    return l ++ l' ++ rest
end

/-- `prepare_eval_ctx(ASTNode *, PrecondNode *)`, without the call of `z3_gen`. -/
def prepareEvalCtx (cond : Expr Symbol) (precond : PrecondNode Symbol) : Except GenFault (List Callback) := do
  let p ← visitAll precond.expr.toList
  let c ← visitChildren cond
  return p ++ c

/-- `upd_ident_addr`, `upd_arr_lookup_addr`, `upd_arr_idxs`, with the code of the operands. -/
def Callback.exec : Callback → M Unit
  | .updIdentAddr s addr => do
    let p ← asPtr (← addr.eval)
    modify fun w => { w with ctx.addr := Function.update w.ctx.addr s.ref (some p) }
  | .updArrLookupAddr node addr => do
    let p ← asPtr (← addr.eval)
    modify fun w => { w with ctx.currentPtr := Function.update w.ctx.currentPtr node (some p) }
  | .updArrIdxs node idxs => do
    let is ← LVal.evalIdxs idxs
    modify fun w => { w with ctx.currentIdxs := Function.update w.ctx.currentIdxs node is }

def execAll : List Callback → M Unit
  | [] => return ()
  | c :: cs => do
    c.exec
    execAll cs

/-- A program comes, first of all in a test, to the precondition of a
statement: the callbacks have been called, and `z3_gen` is next. -/
def FirstCall (f : FunctionNode Unit) (env : Env) (cond : Expr Symbol) (precond : PrecondNode Symbol)
    (w : World) : Prop :=
  ∃ g inputs s cbs, f.accept = .ok (g, inputs) ∧ s ∈ Body.nodes g.body ∧ s.branch = some (some precond, cond) ∧
    prepareEvalCtx cond precond = .ok cbs ∧ execAll cbs (World.start env inputs) = .ok ((), w)

/-! ## What a callback sets -/

inductive CtxField
  | addr (r : SymRef)
  | currentPtr (node : NodeId)
  | currentIdxs (node : NodeId)
  deriving DecidableEq, Repr

def EvalCtx.SameAt : CtxField → EvalCtx → EvalCtx → Prop
  | .addr r, c, c' => c.addr r = c'.addr r
  | .currentPtr n, c, c' => c.currentPtr n = c'.currentPtr n
  | .currentIdxs n, c, c' => c.currentIdxs n = c'.currentIdxs n

theorem EvalCtx.SameAt.refl (f : CtxField) (c : EvalCtx) : SameAt f c c := by cases f <;> rfl

theorem EvalCtx.SameAt.trans {f : CtxField} {c c' c'' : EvalCtx} (h : SameAt f c c') (h' : SameAt f c' c'') :
    SameAt f c c'' := by
  cases f <;> exact Eq.trans h h'

namespace Callback

def field : Callback → CtxField
  | updIdentAddr s _ => .addr s.ref
  | updArrLookupAddr node _ => .currentPtr node
  | updArrIdxs node _ => .currentIdxs node

/-- The lookup a callback is for. -/
def lookupId : Callback → Option NodeId
  | updIdentAddr _ _ => none
  | updArrLookupAddr node _ | updArrIdxs node _ => some node

/-- The address of a variable is that of its cell. -/
def Plain : Callback → Prop
  | updIdentAddr s addr => ∃ t, addr = .alloca (some s) t
  | _ => True

/-- A callback evaluates its operands and sets its own field. -/
theorem exec_keeps {c : Callback} {w w' : World} {u : Unit} (h : c.exec w = .ok (u, w')) (hok : w.Ok) :
    w'.Ok ∧ ∀ f, f ≠ c.field → EvalCtx.SameAt f w.ctx w'.ctx := by
  have hctx : ∀ {w₁ : World} (ctx : EvalCtx), w.Steps w₁ → World.Ok { w₁ with ctx } := by
    intro w₁ ctx hs
    have := hs.ok hok
    exact ⟨this.tree, this.mem, this.frame, this.globals⟩
  cases c with
  | updIdentAddr s addr =>
    obtain ⟨v, w₁, hv, h⟩ := bind_ok_iff.mp h
    obtain ⟨p, _, hp, h⟩ := bind_ok_iff.mp h
    obtain ⟨rfl, rfl⟩ := asPtr_ok_iff.mp hp
    obtain ⟨hs, -⟩ := addr.eval_steps hv hok
    obtain rfl := modify_ok_iff.mp h
    refine ⟨hctx _ hs, fun f hf => ?_⟩
    cases f <;> simp only [field, ne_eq, CtxField.addr.injEq] at hf <;>
      simp [EvalCtx.SameAt, hs.sameStatic.ctx, Function.update_of_ne, hf]
  | updArrLookupAddr node addr =>
    obtain ⟨v, w₁, hv, h⟩ := bind_ok_iff.mp h
    obtain ⟨p, _, hp, h⟩ := bind_ok_iff.mp h
    obtain ⟨rfl, rfl⟩ := asPtr_ok_iff.mp hp
    obtain ⟨hs, -⟩ := addr.eval_steps hv hok
    obtain rfl := modify_ok_iff.mp h
    refine ⟨hctx _ hs, fun f hf => ?_⟩
    cases f <;> simp only [field, ne_eq, CtxField.currentPtr.injEq] at hf <;>
      simp [EvalCtx.SameAt, hs.sameStatic.ctx, Function.update_of_ne, hf]
  | updArrIdxs node idxs =>
    obtain ⟨is, w₁, hv, h⟩ := bind_ok_iff.mp h
    obtain ⟨hs, -⟩ := LVal.evalIdxs_generates idxs hv hok
    obtain rfl := modify_ok_iff.mp h
    refine ⟨hctx _ hs, fun f hf => ?_⟩
    cases f <;> simp only [field, ne_eq, CtxField.currentIdxs.injEq] at hf <;>
      simp [EvalCtx.SameAt, hs.sameStatic.ctx, Function.update_of_ne, hf]

end Callback

theorem execAll_cons_ok_iff {c : Callback} {cs : List Callback} {w w' : World} :
    execAll (c :: cs) w = .ok ((), w') ↔ ∃ w₁, c.exec w = .ok ((), w₁) ∧ execAll cs w₁ = .ok ((), w') := by
  rw [execAll, bind_ok_iff]
  constructor
  · rintro ⟨_, w₁, h⟩
    exact ⟨w₁, h⟩
  · rintro ⟨w₁, h⟩
    exact ⟨(), w₁, h⟩

theorem execAll_append_ok_iff {cs cs' : List Callback} : ∀ {w w' : World},
    execAll (cs ++ cs') w = .ok ((), w') ↔ ∃ w₁, execAll cs w = .ok ((), w₁) ∧ execAll cs' w₁ = .ok ((), w') := by
  induction cs with
  | nil =>
    intro w w'
    simp [execAll, pure_ok_iff]
  | cons c cs ih =>
    intro w w'
    simp only [List.cons_append, execAll_cons_ok_iff, ih]
    constructor
    · rintro ⟨w₁, h₁, w₂, h₂, h⟩
      exact ⟨w₂, ⟨w₁, h₁, h₂⟩, h⟩
    · rintro ⟨w₂, ⟨w₁, h₁, h₂⟩, h⟩
      exact ⟨w₁, h₁, w₂, h₂, h⟩

theorem execAll_keeps {cs : List Callback} : ∀ {w w' : World}, execAll cs w = .ok ((), w') → w.Ok →
    w'.Ok ∧ ∀ f, (∀ c ∈ cs, c.field ≠ f) → EvalCtx.SameAt f w.ctx w'.ctx := by
  induction cs with
  | nil =>
    intro w w' h hok
    obtain ⟨-, rfl⟩ := pure_ok_iff.mp h
    exact ⟨hok, fun f _ => .refl f _⟩
  | cons c cs ih =>
    intro w w' h hok
    obtain ⟨w₁, h₁, h⟩ := execAll_cons_ok_iff.mp h
    obtain ⟨hok₁, hsame₁⟩ := c.exec_keeps h₁ hok
    obtain ⟨hok', hsame⟩ := ih h hok₁
    refine ⟨hok', fun f hf => (hsame₁ f fun he => hf c (by simp) he.symm).trans (hsame f fun d hd => ?_)⟩
    exact hf d (by simp [hd])

theorem FirstCall.ok {f : FunctionNode Unit} {env : Env} {cond : Expr Symbol} {precond : PrecondNode Symbol}
    {w : World} (h : FirstCall f env cond precond w) : w.Ok := by
  obtain ⟨g, inputs, s, cbs, -, -, -, -, hrun⟩ := h
  exact (execAll_keeps hrun (World.start_ok env inputs)).1

/-- The last element with a property. -/
theorem exists_last {α : Type} {p : α → Prop} {l : List α} (h : ∃ a ∈ l, p a) :
    ∃ pre a post, l = pre ++ a :: post ∧ p a ∧ ∀ b ∈ post, ¬ p b := by
  induction l with
  | nil => simp at h
  | cons d l ih =>
    by_cases hl : ∃ a ∈ l, p a
    · obtain ⟨pre, a, post, rfl, ha, hpost⟩ := ih hl
      exact ⟨d :: pre, a, post, rfl, ha, hpost⟩
    · obtain ⟨a, hmem, ha⟩ := h
      obtain rfl | hmem := List.mem_cons.mp hmem
      · exact ⟨[], a, l, rfl, ha, fun b hb hpb => hl ⟨b, hb, hpb⟩⟩
      · exact absurd ⟨a, hmem, ha⟩ hl

theorem eq_of_nodup_filterMap {α β : Type} {g : α → Option β} {x : β} {l : List α}
    (h : (l.filterMap g).Nodup) {a b : α} (ha : a ∈ l) (hb : b ∈ l) (hga : g a = some x) (hgb : g b = some x) :
    a = b := by
  induction l with
  | nil => cases ha
  | cons c l ih =>
    have hnot : ∀ {d : α}, d ∈ l → g d = some x → x ∈ l.filterMap g := fun hd hg =>
      List.mem_filterMap.mpr ⟨_, hd, hg⟩
    have htail : (l.filterMap g).Nodup := by
      cases hc : g c with
      | none => simpa [List.filterMap_cons, hc] using h
      | some y => exact (List.nodup_cons.mp (by simpa [List.filterMap_cons, hc] using h)).2
    obtain rfl | ha' := List.mem_cons.mp ha <;> obtain rfl | hb' := List.mem_cons.mp hb
    · rfl
    · rw [List.filterMap_cons, hga] at h
      exact absurd (hnot hb' hgb) (List.nodup_cons.mp h).1
    · rw [List.filterMap_cons, hgb] at h
      exact absurd (hnot ha' hga) (List.nodup_cons.mp h).1
    · exact ih htail ha' hb'

/-! ## Which callbacks are emitted -/

/-- The nodes `gen_expr` visits. It stays out of the indices of a lookup. -/
def Expr.genNodes {σ : Type} : Expr σ → List (Expr σ)
  | .binOp node op lhs rhs => .binOp node op lhs rhs :: (lhs.genNodes ++ rhs.genNodes)
  | e => [e]

/-- The variable of an identifier, if it is a local. -/
def IdentNode.localRef (n : IdentNode Symbol) : Option SymRef :=
  if n.symbol.isInput then none else some n.symbol.ref

/-- The locals an expression mentions. -/
def Expr.localRefs (e : Expr Symbol) : List SymRef :=
  e.nodes.filterMap fun
    | .ident n | .arrLookup _ n _ | .propertyLookup _ n _ => n.localRef
    | _ => none

/-- The callback of an identifier. -/
def IdentNode.callbacks (n : IdentNode Symbol) : List Callback :=
  n.localRef.toList.map fun _ => .updIdentAddr n.symbol (.alloca (some n.symbol) n.symbol.type.llvm)

theorem prepareIdent_eq (n : IdentNode Symbol) : prepareIdent n = .ok n.callbacks := by
  unfold prepareIdent IdentNode.callbacks IdentNode.localRef
  split
  · rfl
  · simp [Symbol.createAlloca_eq, Bind.bind, Except.bind, Pure.pure, Except.pure]

/-- A list of callbacks: one for each of some lookups, in order, and some for
each of some locals. -/
structure Emits (ids : List NodeId) (refs : List SymRef) (cs : List Callback) : Prop where
  plain : ∀ c ∈ cs, c.Plain
  lookups : cs.filterMap Callback.lookupId = ids
  locals : ∀ r, (∃ c ∈ cs, c.field = .addr r) ↔ r ∈ refs

theorem Emits.nil : Emits [] [] [] := ⟨by simp, rfl, by simp⟩

theorem Emits.append {ids ids' : List NodeId} {refs refs' : List SymRef} {cs cs' : List Callback}
    (h : Emits ids refs cs) (h' : Emits ids' refs' cs') : Emits (ids ++ ids') (refs ++ refs') (cs ++ cs') where
  plain := by
    simp only [List.forall_mem_append]
    exact ⟨h.plain, h'.plain⟩
  lookups := by rw [List.filterMap_append, h.lookups, h'.lookups]
  locals := fun r => by
    rw [List.mem_append, ← h.locals, ← h'.locals]
    simp only [List.mem_append, or_and_right, exists_or]

theorem IdentNode.emits (n : IdentNode Symbol) : Emits [] n.localRef.toList n.callbacks := by
  unfold callbacks localRef
  split
  · exact .nil
  · refine ⟨?_, rfl, ?_⟩ <;> simp [Callback.Plain, Callback.field, eq_comm]

theorem Emits.lookup {c : Callback} {id : NodeId} (hid : c.lookupId = some id) : Emits [id] [] [c] := by
  cases c <;> cases hid
  all_goals exact ⟨by simp [Callback.Plain], rfl, by simp [Callback.field]⟩

/-- What a node and those below it emit. -/
def traverse (e : Expr Symbol) : Except GenFault (List Callback) := do
  let l ← traverseAstCb e
  let l' ← visitChildren e
  return l ++ l'

theorem traverse_ok_iff {e : Expr Symbol} {cs : List Callback} : traverse e = .ok cs ↔
    ∃ l l', traverseAstCb e = .ok l ∧ visitChildren e = .ok l' ∧ l ++ l' = cs := by
  simp only [traverse, Except.bind_ok_iff, Except.pure_ok_iff]
  constructor
  · rintro ⟨l, h, l', h', rfl⟩
    exact ⟨l, l', h, h', rfl⟩
  · rintro ⟨l, l', h, h', rfl⟩
    exact ⟨l, h, l', h', rfl⟩

theorem visitAll_cons_ok_iff {e : Expr Symbol} {es : List (Expr Symbol)} {cs : List Callback} :
    visitAll (e :: es) = .ok cs ↔ ∃ l l', traverse e = .ok l ∧ visitAll es = .ok l' ∧ l ++ l' = cs := by
  simp only [visitAll, traverse, Except.bind_ok_iff, Except.pure_ok_iff]
  constructor
  · rintro ⟨l, h, l', h', r, hr, rfl⟩
    exact ⟨_, r, ⟨l, h, l', h', rfl⟩, hr, rfl⟩
  · rintro ⟨_, r, ⟨l, h, l', h', rfl⟩, hr, rfl⟩
    exact ⟨l, h, l', h', r, hr, rfl⟩

theorem traverse_binOp_ok_iff {node : ASTNode} {op : BinOpType} {lhs rhs : Expr Symbol} {cs : List Callback} :
    visitChildren (.binOp node op lhs rhs) = .ok cs ↔
      ∃ l r, traverse lhs = .ok l ∧ traverse rhs = .ok r ∧ l ++ r = cs := by
  simp only [visitChildren, traverse, Except.bind_ok_iff, Except.pure_ok_iff]
  constructor
  · rintro ⟨l, h, l', h', r, hr, r', hr', rfl⟩
    exact ⟨_, _, ⟨l, h, l', h', rfl⟩, ⟨r, hr, r', hr', rfl⟩, rfl⟩
  · rintro ⟨_, _, ⟨l, h, l', h', rfl⟩, ⟨r, hr, r', hr', rfl⟩, rfl⟩
    exact ⟨l, h, l', h', r, hr, r', hr', rfl⟩

/-- The one callback of a lookup. -/
theorem prepareArrLookup_emits {node : ASTNode} {n : IdentNode Symbol} {idxs : List (Expr Symbol)}
    {cs : List Callback} (h : prepareArrLookup node n idxs = .ok cs) : Emits [node.id] [] cs := by
  unfold prepareArrLookup at h
  split at h
  · simp only [Except.bind_ok_iff, Except.pure_ok_iff] at h
    obtain ⟨_, -, rfl⟩ := h
    exact .lookup rfl
  · simp only [Except.bind_ok_iff, Except.pure_ok_iff] at h
    obtain ⟨_, -, _, -, rfl⟩ := h
    exact .lookup rfl

theorem localRefs_nodesList (es : List (Expr Symbol)) :
    ((Expr.nodesList es).filterMap fun
      | .ident n | .arrLookup _ n _ | .propertyLookup _ n _ => n.localRef
      | _ => none) = es.flatMap Expr.localRefs := by
  induction es with
  | nil => rfl
  | cons e es ih =>
    rw [Expr.nodesList, List.filterMap_append, ih]
    rfl

theorem visitAll_emits {es : List (Expr Symbol)}
    (ih : ∀ e ∈ es, ∀ {cs}, traverse e = .ok cs → Emits e.lookupIds e.localRefs cs) :
    ∀ {cs}, visitAll es = .ok cs → Emits (Expr.lookupIdsList es) (es.flatMap Expr.localRefs) cs := by
  induction es with
  | nil =>
    intro cs h
    cases h
    exact .nil
  | cons e es ihes =>
    intro cs h
    obtain ⟨l, l', hl, hl', rfl⟩ := visitAll_cons_ok_iff.mp h
    exact (ih e (by simp) hl).append (ihes (fun e he => ih e (by simp [he])) hl')

/-- **A node and those below it emit** one callback for each lookup, and a
local's for each local mentioned. -/
theorem traverse_emits (e : Expr Symbol) : ∀ {cs}, traverse e = .ok cs → Emits e.lookupIds e.localRefs cs := by
  induction e with
  | binOp node op lhs rhs ihl ihr =>
    intro cs h
    obtain ⟨l, l', hl, hl', rfl⟩ := traverse_ok_iff.mp h
    cases hl
    obtain ⟨a, b, ha, hb, rfl⟩ := traverse_binOp_ok_iff.mp hl'
    have hrefs : (Expr.binOp node op lhs rhs).localRefs = lhs.localRefs ++ rhs.localRefs := by
      simp [Expr.localRefs, Expr.nodes]
    rw [hrefs]
    exact (ihl ha).append (ihr hb)
  | arrLookup node i idxs ih =>
    intro cs h
    obtain ⟨l, l', hl, hl', rfl⟩ := traverse_ok_iff.mp h
    simp only [visitChildren, prepareIdent_eq, Except.bind_ok_iff, Except.ok.injEq, exists_eq_left',
      Except.pure_ok_iff] at hl'
    obtain ⟨r, hr, rfl⟩ := hl'
    have hrefs : (Expr.arrLookup node i idxs).localRefs = i.localRef.toList ++ idxs.flatMap Expr.localRefs := by
      rw [← localRefs_nodesList]
      cases hi : i.localRef <;> simp [Expr.localRefs, Expr.nodes, hi]
    rw [hrefs]
    exact (prepareArrLookup_emits hl).append (i.emits.append (visitAll_emits ih hr))
  | arrCreate node elem len ih =>
    intro cs h
    obtain ⟨l, l', hl, hl', rfl⟩ := traverse_ok_iff.mp h
    cases hl
    have hrefs : (Expr.arrCreate node elem len).localRefs = len.localRefs := by
      simp [Expr.localRefs, Expr.nodes]
    rw [hrefs]
    exact ih hl'
  | ident n =>
    intro cs h
    obtain ⟨l, l', hl, hl', rfl⟩ := traverse_ok_iff.mp h
    cases hl'
    obtain rfl := Except.ok.inj ((prepareIdent_eq n).symm.trans hl)
    have hrefs : (Expr.ident n).localRefs = n.localRef.toList := by
      cases hn : n.localRef <;> simp [Expr.localRefs, Expr.nodes, hn]
    rw [hrefs, List.append_nil]
    exact n.emits
  | propertyLookup node n p =>
    intro cs h
    obtain ⟨l, l', hl, hl', rfl⟩ := traverse_ok_iff.mp h
    obtain rfl := Except.ok.inj ((prepareIdent_eq n).symm.trans hl)
    obtain rfl := Except.ok.inj ((prepareIdent_eq n).symm.trans hl')
    have hrefs : (Expr.propertyLookup node n p).localRefs = n.localRef.toList := by
      cases hn : n.localRef <;> simp [Expr.localRefs, Expr.nodes, hn]
    rw [hrefs]
    have h := n.emits.append n.emits
    exact ⟨h.plain, h.lookups, fun r => (h.locals r).trans (by simp)⟩
  | _ =>
    intro cs h
    cases h
    exact .nil

/-- What `gen_expr` reads has its callback. -/
theorem own_mem_traverse (e : Expr Symbol) : ∀ {cs}, traverse e = .ok cs →
    ∀ x ∈ e.genNodes, ∀ {own}, traverseAstCb x = .ok [own] → own ∈ cs := by
  have hleaf : ∀ {e : Expr Symbol} {cs}, traverse e = .ok cs → ∀ {own}, traverseAstCb e = .ok [own] → own ∈ cs := by
    intro e cs h own ho
    obtain ⟨l, l', hl, -, rfl⟩ := traverse_ok_iff.mp h
    obtain rfl := Except.ok.inj (hl.symm.trans ho)
    simp
  induction e with
  | binOp node op lhs rhs ihl ihr =>
    intro cs h x hx own ho
    simp only [Expr.genNodes, List.mem_cons, List.mem_append] at hx
    obtain rfl | hx := hx
    · exact hleaf h ho
    · obtain ⟨l, l', hl, hl', rfl⟩ := traverse_ok_iff.mp h
      cases hl
      obtain ⟨a, b, ha, hb, rfl⟩ := traverse_binOp_ok_iff.mp hl'
      obtain hx | hx := hx
      · exact List.mem_append_right _ (List.mem_append_left _ (ihl ha x hx ho))
      · exact List.mem_append_right _ (List.mem_append_right _ (ihr hb x hx ho))
  | _ =>
    intro cs h x hx own ho
    simp only [Expr.genNodes, List.mem_singleton] at hx
    subst hx
    exact hleaf h ho

/-! ## What `gen_expr` reads is current -/

/-- The field `gen_expr` reads at `x` has been set, by a callback that did
what the node's own does at that moment, and nothing has set it since. -/
def Fresh (cbs : List Callback) (w w' : World) (x : Expr Symbol) : Prop :=
  ∀ own, traverseAstCb x = .ok [own] → ∃ pre c post w₁ w₂, cbs = pre ++ c :: post ∧
    execAll pre w = .ok ((), w₁) ∧ c.field = own.field ∧ c.exec w₁ = .ok ((), w₂) ∧
    own.exec w₁ = .ok ((), w₂) ∧ execAll post w₂ = .ok ((), w') ∧ EvalCtx.SameAt own.field w₂.ctx w'.ctx

theorem Callback.exec_ident_congr {s s' : Symbol} {t t' : LTy} (h : s.ref = s'.ref) :
    (updIdentAddr s (.alloca (some s) t)).exec = (updIdentAddr s' (.alloca (some s') t')).exec := by
  simp [exec, LVal.eval, h]

/-- Callbacks of one field do the same, where each lookup has one. -/
theorem Emits.exec_eq {ids : List NodeId} {refs : List SymRef} {cbs : List Callback} (h : Emits ids refs cbs)
    (hids : ids.Nodup) {c own : Callback} (hc : c ∈ cbs) (hown : own ∈ cbs ∨ own.lookupId = none ∧ own.Plain)
    (hf : c.field = own.field) : c.exec = own.exec := by
  have hplain := h.plain c hc
  have hsame : ∀ {id}, c.lookupId = some id → own.lookupId = some id → own ∈ cbs → c = own := by
    intro id hcid hoid hmem
    exact eq_of_nodup_filterMap (by rw [h.lookups]; exact hids) hc hmem hcid hoid
  cases c <;> cases own <;> simp only [Callback.field, CtxField.addr.injEq, CtxField.currentPtr.injEq,
    CtxField.currentIdxs.injEq, reduceCtorEq] at hf
  · obtain ⟨t, rfl⟩ := hplain
    have hplain' := hown.elim (h.plain _) And.right
    obtain ⟨t', rfl⟩ := hplain'
    exact Callback.exec_ident_congr hf
  · subst hf
    obtain hown | ⟨hown, -⟩ := hown
    · rw [hsame rfl rfl hown]
    · cases hown
  · subst hf
    obtain hown | ⟨hown, -⟩ := hown
    · rw [hsame rfl rfl hown]
    · cases hown

section

variable {ids : List NodeId} {refs : List SymRef} {cbs : List Callback} {w w' : World} {x : Expr Symbol}
  {own : Callback}

/-- A field is fresh once a callback of its own is among those run. -/
theorem Emits.fresh_iff (h : Emits ids refs cbs) (hids : ids.Nodup) (hok : w.Ok)
    (hrun : execAll cbs w = .ok ((), w')) (ho : traverseAstCb x = .ok [own])
    (hown : own ∈ cbs ∨ own.lookupId = none ∧ own.Plain) :
    Fresh cbs w w' x ↔ ∃ c ∈ cbs, c.field = own.field := by
  constructor
  · intro hf
    obtain ⟨pre, c, post, _, _, rfl, -, hfield, -⟩ := hf own ho
    exact ⟨c, by simp, hfield⟩
  · intro hex own' ho'
    obtain rfl := List.singleton_inj.mp (Except.ok.inj (ho.symm.trans ho'))
    obtain ⟨pre, c, post, rfl, hfield, hpost⟩ := exists_last hex
    obtain ⟨w₁, hpre, hrest⟩ := execAll_append_ok_iff.mp hrun
    obtain ⟨w₂, hc, hrest⟩ := execAll_cons_ok_iff.mp hrest
    have hok₂ := (c.exec_keeps hc (execAll_keeps hpre hok).1).1
    have heq := h.exec_eq hids (by simp) hown hfield
    exact ⟨pre, c, post, w₁, w₂, rfl, hpre, hfield, hc, heq ▸ hc, hrest,
      (execAll_keeps hrest hok₂).2 _ fun d hd => hpost d hd⟩

end

/-- Whether the root of a condition, which `visitChildren` leaves out, is set
all the same: a lookup is not, a local only through the precondition. -/
def Expr.rootCovered (precond : PrecondNode Symbol) : Expr Symbol → Prop
  | .arrLookup _ _ _ => False
  | .ident n => ∀ r, n.localRef = some r → r ∈ precond.expr.toList.flatMap Expr.localRefs
  | _ => True

/-- The callbacks of a condition's children: all but the root's own. -/
theorem visitChildren_emits {e : Expr Symbol} {cs : List Callback} (h : visitChildren e = .ok cs) :
    ∃ ids refs, Emits ids refs cs ∧ ids.Sublist e.lookupIds ∧
      ∀ node i idxs, e = .arrLookup node i idxs → ids = Expr.lookupIdsList idxs := by
  cases e with
  | arrLookup node i idxs =>
    simp only [visitChildren, prepareIdent_eq, Except.bind_ok_iff, Except.ok.injEq, exists_eq_left',
      Except.pure_ok_iff] at h
    obtain ⟨r, hr, rfl⟩ := h
    refine ⟨_, _, i.emits.append (visitAll_emits (fun e _ => traverse_emits e) hr), List.sublist_cons_self .., ?_⟩
    intro _ _ _ he
    cases he
    rfl
  | ident n =>
    cases h
    exact ⟨_, _, .nil, .refl _, fun _ _ _ he => by cases he⟩
  | propertyLookup node n p =>
    obtain rfl := Except.ok.inj ((prepareIdent_eq n).symm.trans h)
    exact ⟨_, _, n.emits, .refl _, fun _ _ _ he => by cases he⟩
  | binOp node op lhs rhs =>
    exact ⟨_, _, traverse_emits _ (traverse_ok_iff.mpr ⟨[], cs, rfl, h, rfl⟩), .refl _, fun _ _ _ he => by cases he⟩
  | arrCreate node elem len =>
    exact ⟨_, _, traverse_emits _ (traverse_ok_iff.mpr ⟨[], cs, rfl, h, rfl⟩), .refl _, fun _ _ _ he => by cases he⟩
  | _ =>
    cases h
    exact ⟨_, _, .nil, .refl _, fun _ _ _ he => by cases he⟩

theorem codeGenExpr_arrLookup_own {node : ASTNode} {n : IdentNode Symbol} {idxs : List (Expr Symbol)} {v : LVal}
    (h : codeGenExpr (.arrLookup node n idxs) = .ok v) :
    ∃ own, traverseAstCb (.arrLookup node n idxs) = .ok [own] ∧
      own.field = if n.symbol.isInput then .currentIdxs node.id else .currentPtr node.id := by
  rw [codeGenExpr] at h
  simp only [traverseAstCb, prepareArrLookup]
  split at h
  next hi =>
    obtain ⟨vs, hvs, -⟩ := Except.bind_ok_iff.mp h
    exact ⟨.updArrIdxs node.id vs, by simp [hi, hvs, Bind.bind, Except.bind, Pure.pure, Except.pure],
      by simp [hi, Callback.field]⟩
  next hi =>
    simp only [Except.bind_ok_iff, Symbol.createAlloca_eq] at h
    obtain ⟨_, -, _, hal, a, ha, -⟩ := h
    cases hal
    exact ⟨.updArrLookupAddr node.id a, by simp [hi, Symbol.createAlloca_eq, ha, Bind.bind, Except.bind, Pure.pure, Except.pure],
      by simp [hi, Callback.field]⟩

theorem own_mem_visitAll {es : List (Expr Symbol)} : ∀ {cs}, visitAll es = .ok cs →
    ∀ x ∈ es.flatMap Expr.genNodes, ∀ {own}, traverseAstCb x = .ok [own] → own ∈ cs := by
  induction es with
  | nil => simp
  | cons e es ih =>
    intro cs h x hx own ho
    obtain ⟨l, l', hl, hl', rfl⟩ := visitAll_cons_ok_iff.mp h
    simp only [List.flatMap_cons, List.mem_append] at hx ⊢
    exact hx.imp (fun hx => own_mem_traverse e hl x hx ho) fun hx => ih hl' x hx ho

/-- Below a root with no callback of its own nothing is left out. -/
theorem own_mem_visitChildren {e : Expr Symbol} {cs : List Callback} (h : visitChildren e = .ok cs)
    (hroot : traverseAstCb e = .ok [] ∨ ∃ node n p, e = .propertyLookup node n p) :
    ∀ x ∈ e.genNodes, ∀ {own}, traverseAstCb x = .ok [own] → own ∈ cs := by
  obtain hroot | ⟨node, n, p, rfl⟩ := hroot
  · exact own_mem_traverse e (traverse_ok_iff.mpr ⟨[], cs, hroot, h, rfl⟩)
  · intro x hx own ho
    simp only [Expr.genNodes, List.mem_singleton] at hx
    subst hx
    rw [Except.ok.inj (h.symm.trans ho)]
    simp

theorem Callback.lookupId_of_field {c : Callback} {id : NodeId}
    (h : c.field = .currentIdxs id ∨ c.field = .currentPtr id) : c.lookupId = some id := by
  cases c <;> simp_all [field, lookupId]

theorem IdentNode.callbacks_of_localRef {n : IdentNode Symbol} {r : SymRef} (h : n.localRef = some r) :
    ∃ own, n.callbacks = [own] ∧ own.field = .addr r ∧ own.lookupId = none ∧ own.Plain := by
  have hr : n.symbol.ref = r := by
    unfold localRef at h
    split at h
    · cases h
    · exact Option.some.inj h
  exact ⟨.updIdentAddr n.symbol (.alloca (some n.symbol) n.symbol.type.llvm), by simp [callbacks, h],
    by simp [Callback.field, hr], rfl, _, rfl⟩

/-- **What `gen_expr` reads is set, and current,** each time `z3_gen` is
called, exactly when the root of the condition is covered. -/
theorem evalCtx_fresh_iff {g : FunctionNode Symbol} {s : Stmt Symbol} {precond : PrecondNode Symbol}
    {cond : Expr Symbol} {cbs : List Callback} {v : LVal} {w w' : World} (hs : s ∈ Body.nodes g.body)
    (hb : s.branch = some (some precond, cond)) (hcbs : prepareEvalCtx cond precond = .ok cbs)
    (hv : codeGenExpr cond = .ok v) (hok : w.Ok) (hrun : execAll cbs w = .ok ((), w')) :
    (∀ x ∈ precond.expr.toList.flatMap Expr.genNodes ++ cond.genNodes, Fresh cbs w w' x) ↔
      cond.rootCovered precond := by
  simp only [prepareEvalCtx, Except.bind_ok_iff, Except.pure_ok_iff] at hcbs
  obtain ⟨cp, hcp, cc, hcc, rfl⟩ := hcbs
  have hp := visitAll_emits (fun e _ => traverse_emits e) hcp
  obtain ⟨ids, refs, hc, hsub, hlookup⟩ := visitChildren_emits hcc
  have hall := hp.append hc
  -- each lookup of the two expressions is a node of its own
  have hnodup : (Expr.lookupIdsList precond.expr.toList ++ cond.lookupIds).Nodup := by
    have hlist : condLookupIds (some precond) cond =
        Expr.lookupIdsList precond.expr.toList ++ cond.lookupIds := by
      cases hpe : precond.expr <;> simp [condLookupIds, hpe, Expr.lookupIdsList]
    rw [← hlist]
    exact g.distinct.sublist ((condLookupIds_sublist hb).2 _ hs)
  have hids := hnodup.sublist ((List.Sublist.refl _).append hsub)
  have hmem : ∀ {x}, (∀ {own}, traverseAstCb x = .ok [own] → own ∈ cp ++ cc) → Fresh (cp ++ cc) w w' x :=
    fun h own ho => (hall.fresh_iff hids hok hrun ho (.inl (h ho))).mpr ⟨own, h ho, rfl⟩ own ho
  have hpre : ∀ x ∈ precond.expr.toList.flatMap Expr.genNodes, Fresh (cp ++ cc) w w' x :=
    fun x hx => hmem fun ho => List.mem_append_left _ (own_mem_visitAll hcp x hx ho)
  rw [List.forall_mem_append, and_iff_right hpre]
  have hinner : (traverseAstCb cond = .ok [] ∨ ∃ node n p, cond = .propertyLookup node n p) →
      ∀ x ∈ cond.genNodes, Fresh (cp ++ cc) w w' x :=
    fun hroot x hx => hmem fun ho => List.mem_append_right _ (own_mem_visitChildren hcc hroot x hx ho)
  cases cond with
  | arrLookup node n idxs =>
    refine iff_of_false (fun hf => ?_) id
    obtain ⟨own, ho, hfield⟩ := codeGenExpr_arrLookup_own hv
    obtain ⟨pre, c, post, _, _, hsplit, -, hcf, -⟩ := hf _ (by simp [Expr.genNodes]) own ho
    have hcid : c.lookupId = some node.id := by
      refine Callback.lookupId_of_field ?_
      rw [hcf, hfield]
      split <;> simp
    have hin : node.id ∈ Expr.lookupIdsList precond.expr.toList ++ ids := by
      rw [← hall.lookups, hsplit]
      exact List.mem_filterMap.mpr ⟨c, by simp, hcid⟩
    rw [hlookup node n idxs rfl] at hin
    rw [Expr.lookupIds, List.nodup_middle] at hnodup
    exact (List.nodup_cons.mp hnodup).1 hin
  | ident n =>
    cases hcc
    simp only [Expr.genNodes, List.forall_mem_singleton, Expr.rootCovered, List.append_nil] at hall hrun ⊢
    have hown : traverseAstCb (.ident n) = .ok n.callbacks := prepareIdent_eq n
    constructor
    · intro hf r hr
      obtain ⟨own, hcb, hfield, -⟩ := n.callbacks_of_localRef hr
      obtain ⟨pre, c, post, _, _, hsplit, -, hcf, -⟩ := hf own (hcb ▸ hown)
      exact (hp.locals r).mp ⟨c, by simp [hsplit], hcf.trans hfield⟩
    · intro hcov own ho
      cases hr : n.localRef with
      | none =>
        rw [hown, IdentNode.callbacks, hr] at ho
        cases ho
      | some r =>
        obtain ⟨own', hcb, hfield, hid, hplain⟩ := n.callbacks_of_localRef hr
        obtain rfl := List.singleton_inj.mp (hcb.symm.trans (Except.ok.inj (hown.symm.trans ho)))
        obtain ⟨c, hcmem, hcf⟩ := (hp.locals r).mpr (hcov r hr)
        exact (hp.fresh_iff (hnodup.sublist (List.sublist_append_left ..)) hok hrun ho (.inr ⟨hid, hplain⟩)).mpr
          ⟨c, hcmem, hcf.trans hfield.symm⟩ own' ho
  | propertyLookup node n p => exact iff_of_true (hinner (.inr ⟨node, n, p, rfl⟩)) trivial
  | _ => exact iff_of_true (hinner (.inl rfl)) trivial

namespace Sample

def lookup (i j : NodeId) (name : String) (idx : Expr Unit) : Expr Unit :=
  .arrLookup (node i) ⟨node j, name, ()⟩ [idx]

/-- `[]`: a precondition with neither a probability nor an expression. -/
def noPrecond : PrecondNode Unit := ⟨node 20, -1, none⟩

/-- `int f(int[] a) { [] if a[0] < 1 { return 1 } return 2 }`. -/
def looksUp : FunctionNode Unit where
  node := node 0
  retType := ⟨.int, 0⟩
  name := "f"
  args := [param 1 "a" ⟨.int, 1⟩]
  body := [.if_ (node 2) (some noPrecond) (.binOp (node 3) .lt (lookup 4 5 "a" (num 6 0)) (num 7 1))
    [ret 8 (num 9 1)], ret 10 (num 11 2)]
  distinct := by decide

/-- `int f(bool[] a) { [] if a[0] { return 1 } return 2 }`. -/
def looksUpRoot : FunctionNode Unit where
  node := node 0
  retType := ⟨.int, 0⟩
  name := "f"
  args := [param 1 "a" ⟨.bool, 1⟩]
  body := [.if_ (node 2) (some noPrecond) (lookup 4 5 "a" (num 6 0)) [ret 8 (num 9 1)], ret 10 (num 11 2)]
  distinct := by decide

end Sample

theorem evalCtx_fresh_iff_looksUp : ∃ g inputs s precond cond cbs w',
    Sample.looksUp.accept = .ok (g, inputs) ∧ s ∈ Body.nodes g.body ∧ s.branch = some (some precond, cond) ∧
      prepareEvalCtx cond precond = .ok cbs ∧ cbs ≠ [] ∧
      execAll cbs (World.start (Sample.draws 0) inputs) = .ok ((), w') ∧
      ((∀ x ∈ precond.expr.toList.flatMap Expr.genNodes ++ cond.genNodes,
        Fresh cbs (World.start (Sample.draws 0) inputs) w' x) ↔ cond.rootCovered precond) := by
  obtain ⟨g, inputs, hg⟩ : ∃ g inputs, Sample.looksUp.accept = .ok (g, inputs) := ⟨_, _, rfl⟩
  have hstmt : ∃ s ∈ Body.nodes g.body, ∃ precond cond cbs v w', s.branch = some (some precond, cond) ∧
      prepareEvalCtx cond precond = .ok cbs ∧ cbs ≠ [] ∧ codeGenExpr cond = .ok v ∧
      execAll cbs (World.start (Sample.draws 0) inputs) = .ok ((), w') := by
    cases hg
    exact ⟨_, List.mem_cons_self .., _, _, _, _, _, rfl, rfl, List.cons_ne_nil _ _, rfl, rfl⟩
  obtain ⟨s, hs, precond, cond, cbs, v, w', hb, hcbs, hne, hv, hrun⟩ := hstmt
  exact ⟨g, inputs, s, precond, cond, cbs, w', hg, hs, hb, hcbs, hne, hrun,
    evalCtx_fresh_iff hs hb hcbs hv (World.start_ok _ _) hrun⟩

/-- Nothing sets the indices of a lookup that is the whole condition. -/
theorem looksUpRoot_unset : ¬ ∀ (f : FunctionNode Unit) (g : FunctionNode Symbol) (inputs : List Symbol),
    f.accept = .ok (g, inputs) → ∀ s ∈ Body.nodes g.body, ∀ (precond : PrecondNode Symbol) (cond : Expr Symbol),
      s.branch = some (some precond, cond) → ∀ cbs, prepareEvalCtx cond precond = .ok cbs →
        ∀ w w' : World, w.Ok → execAll cbs w = .ok ((), w') →
          ∀ x ∈ precond.expr.toList.flatMap Expr.genNodes ++ cond.genNodes, Fresh cbs w w' x := by
  intro h
  obtain ⟨pre, c, post, -, -, hsplit, -⟩ := h Sample.looksUpRoot _ _ rfl _ (List.mem_cons_self ..) _ _ rfl [] rfl
    (World.start (Sample.draws 0) []) _ (World.start_ok _ _) rfl _ (List.mem_cons_self ..) _ rfl
  simp at hsplit

end DGen
