/-
Which programs the builder builds, and which pointers the passes follow.

A builder that succeeds leaves no pointer null but those of parts that may be
left out (`Filled`), and these no pass follows unchecked. It fails at the
header of a `for` without a condition, and nowhere else (`builds_iff`).
-/
import DGen.Deletion

namespace DGen

open StateT

/-! ## Headers -/

mutual
/-- Every header of a `for` has its condition. -/
def StmtTree.HasConditions : StmtTree → Prop
  | .for_ _ _ _ c _ b => c.isSome ∧ b.HasConditions
  | .while_ _ _ _ b | .if_ _ _ _ b => b.HasConditions
  | .ifElse _ _ _ b e => b.HasConditions ∧ e.HasConditions
  | .assignment _ | .return_ _ _ | .break_ _ | .continue_ _ | .define _ _ _ => True

def BodyTree.HasConditions : BodyTree → Prop
  | .mk _ ss => ss.HasConditions

def StmtsTree.HasConditions : StmtsTree → Prop
  | .nil => True
  | .cons s rest => s.HasConditions ∧ rest.HasConditions
end

/-! ## What the builder leaves null -/

/-- The pointers of parts that may not be left out. -/
def NodeClass.required : NodeClass → List NodePtr
  | .function args b => b :: args
  | .body stmts => stmts
  | .ifNode _ c b _ => [c, b]
  | .forNode _ _ c _ b => [c, b]
  | .returnNode e => [e]
  | .asg lhs rhs => [lhs, rhs]
  | .binOp lhs rhs => [lhs, rhs]
  | .arrLookup i idxs => i :: idxs
  | .arrCreate len => [len]
  | .propertyLookup i => [i]
  | .precond _ | .defNode _ | .continueNode | .breakNode | .char | .string | .number | .bool | .ident => []

/-- A node as its constructor leaves it, with all it must have. -/
structure NodeObj.Filled (obj : NodeObj) : Prop where
  children : obj.children = obj.cls.children
  required : ∀ p ∈ obj.cls.required, p.isSome

/-- Nodes were added, and all are filled. -/
structure NodeHeap.Grown (base heap : NodeHeap) : Prop where
  isPrefix : base <+: heap
  filled : ∀ obj ∈ heap, obj.Filled

/-- From a grown heap the build succeeds exactly under `C`, and grows it. -/
abbrev Builds (base : NodeHeap) {α : Type} (m : Build α) (C : Prop) : Prop := OkKeeping base.Grown m C

variable {base : NodeHeap}

theorem newNode_builds {pos : Position} {cls : NodeClass} (h : ∀ p ∈ cls.required, p.isSome) :
    Builds base (newNode pos cls) True := by
  intro heap hheap
  have hnew : base.Grown (heap ++ [⟨cls, cls.children⟩]) := by
    refine ⟨hheap.isPrefix.trans (List.prefix_append ..), List.forall_mem_append.mpr ⟨hheap.filled, ?_⟩⟩
    exact List.forall_mem_singleton.mpr ⟨rfl, h⟩
  refine ⟨iff_of_true ⟨_, rfl⟩ trivial, fun hr => ?_⟩
  obtain rfl := Except.ok.inj hr
  exact hnew

theorem identNode_builds (pos : Position) (name : String) : Builds base (IdentNode.new pos name) True :=
  (newNode_builds (List.forall_mem_nil _)).map _

theorem numberNode_builds (pos : Position) (num : BitVec 32) : Builds base (NumberNode.new pos num) True :=
  (newNode_builds (List.forall_mem_nil _)).map _

theorem binOpNode_builds (pos : Position) (op : BinOpType) (lhs rhs : Expr Unit) :
    Builds base (BinOpNode.new pos op lhs rhs) True :=
  (newNode_builds (by simp [NodeClass.required])).map _

theorem arrLookupNode_builds (pos : Position) (name : String) (idxs : List (Expr Unit)) :
    Builds base (ArrLookupNode.new pos name idxs) True :=
  (identNode_builds pos name).andThen fun _ => (newNode_builds (by simp [NodeClass.required])).map _

theorem propertyLookupNode_builds (pos : Position) (name property : String) :
    Builds base (PropertyLookupNode.new pos name property) True :=
  (identNode_builds pos name).andThen fun _ => (newNode_builds (by simp [NodeClass.required])).map _

/-! ## Texts -/

theorem pure_builds {α : Type} {m : Build α} (h : ∃ a, m = pure a) : Builds base m True := by
  obtain ⟨a, rfl⟩ := h
  exact .pure a

/-- The operators of the grammar are operators. -/
theorem mapOpType_builds {k : TokenKind} (op : Tok k) (h : k = .cmpOp ∨ ∃ c : Chain, k ∈ c.ops) :
    Builds base (mapOpType op.text) True := by
  refine pure_builds ?_
  obtain ⟨text, pos, hlexes⟩ := op
  obtain rfl | ⟨c, hop⟩ := h
  · simp only [TokenKind.Lexes, List.mem_cons, List.not_mem_nil, or_false] at hlexes
    obtain rfl | rfl | rfl | rfl | rfl | rfl := hlexes <;> exact ⟨_, rfl⟩
  · cases c <;> simp only [Chain.ops, List.mem_cons, List.not_mem_nil, or_false] at hop
    case logicExpr | logicT =>
      subst hop
      obtain rfl : text = _ := hlexes
      exact ⟨_, rfl⟩
    case expr | t =>
      obtain rfl | rfl := hop <;> obtain rfl : text = _ := hlexes <;> exact ⟨_, rfl⟩

theorem mapType_builds (t : Tok .scalarType) : Builds base (mapType t.text) True := by
  obtain ⟨text, pos, hlexes⟩ := t
  refine pure_builds ?_
  simp only [TokenKind.Lexes, List.mem_cons, List.not_mem_nil, or_false] at hlexes
  obtain rfl | rfl | rfl | rfl := hlexes <;> exact ⟨_, rfl⟩

theorem mapAsgType_builds {k : TokenKind} (op : Tok k) (h : k = .assg ∨ k = .assgType) :
    Builds base (mapAsgType op.text) True := by
  obtain ⟨text, pos, hlexes⟩ := op
  refine pure_builds ?_
  obtain rfl | rfl := h
  · obtain rfl : text = _ := hlexes
    exact ⟨_, rfl⟩
  · simp only [TokenKind.Lexes, List.mem_cons, List.not_mem_nil, or_false] at hlexes
    obtain rfl | rfl | rfl | rfl := hlexes <;> exact ⟨_, rfl⟩

theorem mapCremType_builds (op : Tok .cremType) : Builds base (mapCremType op.text) True := by
  obtain ⟨text, pos, hlexes⟩ := op
  refine pure_builds ?_
  simp only [TokenKind.Lexes, List.mem_cons, List.not_mem_nil, or_false] at hlexes
  obtain rfl | rfl := hlexes <;> exact ⟨_, rfl⟩

theorem boolNode_builds (t : Tok .bool) : Builds base (BoolNode.create t.pos t.text) True := by
  have hnode (val : Bool) : Builds base (do return .bool (← newNode t.pos .bool) val : Build (Expr Unit)) True :=
    (newNode_builds (List.forall_mem_nil _)).map _
  have htext := t.lexes
  simp only [TokenKind.Lexes, List.mem_cons, List.not_mem_nil, or_false] at htext
  obtain h | h := htext
  · rw [h]
    exact hnode true
  · rw [h]
    exact hnode false

theorem visitType_builds (t : TypeTree) : Builds base (visitType t) True := (mapType_builds t.scalar).map _

theorem visitConst_builds (c : ConstTree) : Builds base (visitConst c) True := by
  cases c with
  | char t => exact (newNode_builds (List.forall_mem_nil _)).map _
  | string t => exact (newNode_builds (List.forall_mem_nil _)).map _
  | num t => exact numberNode_builds t.pos _
  | bool t => exact boolNode_builds t

/-! ## Expressions -/

theorem binOpCreate_builds {k : TokenKind} (pos : Position) (op : Tok k) (h : k = .cmpOp ∨ ∃ c : Chain, k ∈ c.ops)
    (lhs rhs : Expr Unit) : Builds base (BinOpNode.create pos op.text lhs rhs) True :=
  (mapOpType_builds op h).andThen fun op => binOpNode_builds pos op lhs rhs

theorem exprVisit_builds : (∀ (r : Rule) (d : ExprTree r), Builds base d.visit True) ∧ ∀ d :
    IdxTree, Builds base d.visit True := by
  apply ExprTree.induct
  case one => exact fun _ _ ih => ih
  case more =>
    intro c init k op hop x ihinit ihx
    exact ihinit.andThen fun lhs => ihx.andThen fun rhs => binOpCreate_builds _ op (.inr ⟨c, hop⟩) lhs rhs
  case logicInnerExpr => exact fun _ _ _ ih => ih
  case cmpOp =>
    intro l op r ihl ihr
    exact ihl.andThen fun lhs => ihr.andThen fun rhs => binOpCreate_builds _ op (.inl rfl) lhs rhs
  case expr => exact fun _ ih => ih
  case innerExpr => exact fun _ _ _ ih => ih
  case const => exact visitConst_builds
  case fIdent => exact fun name => (identNode_builds name.pos name.text).map _
  case arrayLookup =>
    intro name idxs ih
    exact ih.andThen fun es => (arrLookupNode_builds _ _ es).map _
  case arrayCreate =>
    intro t l len r ih
    exact (visitType_builds t).andThen fun _ => ih.andThen fun n =>
      (newNode_builds (by simp [NodeClass.required])).map _
  case propertyLookup => exact fun name _ property => propertyLookupNode_builds name.pos name.text property.text
  case unaryMinus =>
    intro minus f ih
    exact ih.andThen fun e => (numberNode_builds minus.pos _).andThen fun num => binOpNode_builds _ _ num e
  case last => exact fun _ _ _ ih => ih.map _
  case cons => exact fun _ _ _ _ ih ihrest => ih.andThen fun _ => ihrest.map _

/-- Copying never fails. -/
theorem copy_builds (e : Expr Unit) : Builds base e.copy True := by
  have hlist {es : List (Expr Unit)} (ih : ∀ e ∈ es, Builds base e.copy True) :
      Builds base (Expr.copyIdxs es) True := by
    induction es with
    | nil => exact .pure _
    | cons e es ihes =>
      obtain ⟨ihe, ihrest⟩ := List.forall_mem_cons.mp ih
      exact ihe.andThen fun _ => (ihes ihrest).map _
  induction e with
  | number node num => exact numberNode_builds node.pos num
  | ident n => exact (identNode_builds n.node.pos n.name).map _
  | propertyLookup node n property => exact propertyLookupNode_builds node.pos n.name property
  | binOp node op lhs rhs ihl ihr => exact ihl.andThen fun l => ihr.andThen fun r => binOpNode_builds node.pos op l r
  | arrLookup node n idxs ih => exact (hlist ih).andThen fun es => (arrLookupNode_builds node.pos n.name es).map _
  | _ => exact .pure _

/-! ## Statements -/

theorem lvalue_builds (l : LValueTree) : Builds base l.visit True := by
  cases l with
  | fIdent name => exact (identNode_builds name.pos name.text).map _
  | arrayLookup name idxs => exact (exprVisit_builds.2 idxs).andThen fun es =>
      (arrLookupNode_builds name.pos name.text es).map _

theorem asgNode_builds (pos : Position) (lhs : LValue Unit) (rhs : Expr Unit) :
    Builds base (AsgNode.new pos lhs rhs) True :=
  (newNode_builds (by simp [NodeClass.required])).map _

theorem asgCreate_builds {k : TokenKind} (pos : Position) (lhs : LValue Unit) (op : Tok k)
    (h : k = .assg ∨ k = .assgType)
    (rhs : Expr Unit) : Builds base (AsgNode.create pos lhs op.text rhs) True := by
  refine (mapAsgType_builds op h).andThen fun t => ?_
  split
  · exact (copy_builds lhs.toExpr).andThen fun c => (binOpNode_builds pos _ c rhs).andThen fun e =>
      asgNode_builds pos lhs e
  · exact asgNode_builds pos lhs rhs

theorem cremCreate_builds (pos : Position) (lhs : LValue Unit) (op : Tok .cremType) :
    Builds base (CremNode.create pos lhs op.text) True :=
  (mapCremType_builds op).andThen fun bop => (copy_builds lhs.toExpr).andThen fun c =>
    (numberNode_builds pos 1).andThen fun one => (binOpNode_builds pos bop c one).andThen fun e =>
      asgNode_builds pos lhs e

theorem asgVisit_builds (a : AsgTree) : Builds base a.visit True := by
  cases a with
  | assg l op r =>
    exact (lvalue_builds l).andThen fun lhs => (exprVisit_builds.1 _ r).andThen fun rhs =>
      asgCreate_builds _ lhs op (.inl rfl) rhs
  | assgType l op r =>
    exact (lvalue_builds l).andThen fun lhs => (exprVisit_builds.1 _ r).andThen fun rhs =>
      asgCreate_builds _ lhs op (.inr rfl) rhs
  | crem l op => exact (lvalue_builds l).andThen fun lhs => cremCreate_builds _ lhs op

theorem visitOption_builds {α β : Type} {visit : α → Build β} (h : ∀ a, Builds base (visit a) True) (o : Option α) :
    Builds base (visitOption visit o) True := by
  cases o with
  | none => exact .pure _
  | some a => exact (h a).map _

theorem optionExpr_builds (o : Option LogicExprTree) : Builds base (visitOption ExprTree.visit o) True :=
  visitOption_builds (exprVisit_builds.1 _) o

theorem visitPrecondition_builds (p : PrecondTree) : Builds base (visitPrecondition p) True :=
  (optionExpr_builds p.expr).andThen fun _ => (newNode_builds (List.forall_mem_nil _)).map _

theorem precond_builds (o : Option PrecondTree) : Builds base (visitOption visitPrecondition o) True :=
  visitOption_builds visitPrecondition_builds o

/-- A `logic_expr` that the rule has is visited, and one that it has not is not. -/
theorem visitLogicExpr_builds (c : Option LogicExprTree) : Builds base (visitLogicExpr c) (c.isSome = true) := by
  cases c with
  | none =>
    refine fun heap _ => ⟨iff_of_false ?_ Bool.noConfusion, fun h => ?_⟩
    · rintro ⟨r, h⟩
      cases h
    · cases h
  | some e => exact (exprVisit_builds.1 _ e).congr (iff_of_true trivial rfl)

theorem defNode_builds (pos : Position) (name : String) (type : DeclTy) (rhs : Option (Expr Unit)) :
    Builds base (DefNode.new pos name type rhs) True := (newNode_builds (List.forall_mem_nil _)).map _

theorem forNode_builds (pos : Position) (precond : Option (PrecondNode Unit)) (preAsg : Option (AsgNode Unit))
    (cond : Expr Unit)
    (incAsg : Option (AsgNode Unit)) (body : NodeId × Body Unit) :
      Builds base (ForNode.new pos precond preAsg cond incAsg body) True :=
  (newNode_builds (by simp [NodeClass.required])).map _

theorem ifNode_builds (pos : Position) (precond : Option (PrecondNode Unit)) (cond : Expr Unit)
    (body : NodeId × Body Unit)
    (elseBody : Option (NodeId × Body Unit)) : Builds base (IfNode.new pos precond cond body elseBody) True := by
  refine (newNode_builds (by simp [NodeClass.required])).andThen fun node => ?_
  cases elseBody with
  | none => exact .pure _
  | some e => exact .pure _

theorem stmtVisit_builds : (∀ s : StmtTree, Builds base s.visit s.HasConditions) ∧
    (∀ b : BodyTree, Builds base b.visit b.HasConditions) ∧
    ∀ ss : StmtsTree, Builds base ss.visit ss.HasConditions := by
  apply StmtTree.induct
  case assignment => exact fun a => (asgVisit_builds a).map _
  case return_ =>
    intro kw e
    exact (exprVisit_builds.1 _ e).andThen fun _ => (newNode_builds (by simp [NodeClass.required])).map _
  case break_ => exact fun kw => (newNode_builds (List.forall_mem_nil _)).map _
  case continue_ => exact fun kw => (newNode_builds (List.forall_mem_nil _)).map _
  case define =>
    intro t name r
    exact (visitType_builds t).andThen fun type => (optionExpr_builds r).andThen fun rhs =>
      (defNode_builds _ _ type rhs).map _
  case for_ =>
    intro p kw a c i b ih
    exact (precond_builds p).andThen fun precond => (visitOption_builds asgVisit_builds a).andThen fun preAsg =>
      (visitLogicExpr_builds c).bind fun cond => (visitOption_builds asgVisit_builds i).andThen fun incAsg =>
        (ih.bind fun body => forNode_builds _ precond preAsg cond incAsg body).congr (and_iff_left trivial)
  case while_ =>
    intro p kw c b ih
    exact (precond_builds p).andThen fun precond => (exprVisit_builds.1 _ c).andThen fun cond =>
      (ih.bind fun body => forNode_builds _ precond none cond none body).congr (and_iff_left trivial)
  case if_ =>
    intro p kw c b ih
    exact (precond_builds p).andThen fun precond => (exprVisit_builds.1 _ c).andThen fun cond =>
      (ih.bind fun body => ifNode_builds _ precond cond body none).congr (and_iff_left trivial)
  case ifElse =>
    intro p kw c b e ihb ihe
    exact (precond_builds p).andThen fun precond => (exprVisit_builds.1 _ c).andThen fun cond => ihb.bind fun body =>
      (ihe.bind fun elseBody => ifNode_builds _ precond cond body (some elseBody)).congr (and_iff_left trivial)
  case mk =>
    intro lbrace ss ih
    refine (ih.bind fun stmts => (newNode_builds ?_).map _).congr (and_iff_left trivial)
    simp [NodeClass.required]
  case nil => exact .pure _
  case cons => exact fun _ _ ihs ihr => ihs.bind fun _ => ihr.map _

theorem visitParams_builds (ps : List ParamTree) : Builds base (visitParams ps) True := by
  induction ps with
  | nil => exact .pure _
  | cons p ps ih =>
    refine OkKeeping.andThen ?_ fun _ => ih.map _
    exact (visitType_builds p.type).andThen fun type => defNode_builds _ _ type none

/-- **The builder builds** a function exactly if every header has its condition. -/
theorem visitFunction_builds (f : FunctionTree) : Builds base (visitFunction f) f.body.HasConditions := by
  refine (visitType_builds f.retType).andThen fun _ => (visitParams_builds _).andThen fun args => ?_
  refine ((stmtVisit_builds.2.1 f.body).bind fun body => (newNode_builds ?_).map _).congr (and_iff_left trivial)
  simp [NodeClass.required]

/-! ## The passes -/

/-- What a pass does with the fields of a node. -/
inductive FieldAccess
  /-- reads fields of the node at a pointer -/
  | deref (p : NodePtr)
  /-- goes on at a pointer -/
  | visit (p : NodePtr)
  /-- goes on at a pointer that is not null -/
  | checked (p : NodePtr)
  /-- dereferences the symbol of the node, null until `type_ast` comes to it -/
  | symbol
  deriving DecidableEq, Repr

inductive Pass
  | connectLoops | typeAst | typeCheck | eliminateUnreachableCode | codeGen
  deriving DecidableEq, Repr

/-- `visitChildren`. -/
def NodeObj.visitChildren (obj : NodeObj) : List FieldAccess := obj.children.map .checked

/-- `connect_loops_visit_body` and `eliminate_unreachable_code_visit_body`:
`dynamic_cast` leaves a null statement null. -/
def visitBodyAccesses : NodeClass → List FieldAccess
  | .body stmts => stmts.map .checked
  | .forNode _ _ _ _ body => [.visit body]
  | .ifNode _ _ body elseBody => [.visit body, .checked elseBody]
  | _ => []

/-- `type_check_visitor`, and `get_type` where it is called on a node. -/
def typeCheckAccesses : NodeClass → List FieldAccess
  | .precond expr => [.checked expr]
  | .returnNode expr => [.visit expr]
  | .asg lhs rhs => [.visit lhs, .visit rhs]
  | .defNode rhs => [.checked rhs]
  | .forNode _ _ cond _ _ => [.visit cond]
  | .ifNode _ cond _ _ => [.visit cond]
  | .ident => [.symbol]
  | .binOp lhs rhs => [.visit lhs, .visit rhs]
  | .arrLookup ident idxs => .visit ident :: idxs.map .visit
  | .propertyLookup ident => [.visit ident]
  | _ => []

/-- `code_gen`, `get_address`, `is_last_stmt_br`, and `prepare_eval_ctx` with
its `visitChildren` below a precondition and a condition. -/
def codeGenAccesses : NodeClass → List FieldAccess
  | .body stmts => stmts.map .visit
  | .precond expr => [.checked expr]
  | .ifNode precond cond body elseBody => [.checked precond, .visit cond, .visit body, .checked elseBody]
  | .forNode precond preAsg cond incAsg body =>
    [.checked preAsg, .checked precond, .visit cond, .visit body, .checked incAsg]
  | .defNode rhs => [.symbol, .checked rhs]
  | .returnNode expr => [.visit expr]
  | .asg lhs rhs => [.visit lhs, .visit rhs]
  | .ident => [.symbol]
  | .binOp lhs rhs => [.visit lhs, .visit rhs]
  | .arrLookup ident idxs => .visit ident :: idxs.map .visit
  | .arrCreate len => [.visit len]
  | .propertyLookup ident => [.visit ident]
  -- `loop` of a jump is set by `connect_loops` (`Connected`)
  | .continueNode | .breakNode => []
  | .function _ _ | .char | .string | .number | .bool => []

/-- What a pass does at a node. `type_visitor` sets the symbols of the nodes it comes to. -/
def Pass.accesses (pass : Pass) (obj : NodeObj) : List FieldAccess :=
  match pass with
  | .connectLoops | .eliminateUnreachableCode => visitBodyAccesses obj.cls
  | .typeAst => obj.visitChildren
  | .typeCheck => obj.visitChildren ++ typeCheckAccesses obj.cls
  | .codeGen => codeGenAccesses obj.cls

/-- What a pass does at the function. -/
def Pass.start (pass : Pass) (obj : NodeObj) : List FieldAccess :=
  match obj.cls with
  | .function args body =>
    match pass with
    | .connectLoops | .eliminateUnreachableCode | .codeGen => [.visit body]
    | .typeAst => args.map .deref ++ [.visit body]
    | .typeCheck => obj.visitChildren
  | _ => []

/-- A pass goes on at `child`. -/
def Follows (accesses : List FieldAccess) (child : NodeId) : Prop :=
  .visit (some child) ∈ accesses ∨ .checked (some child) ∈ accesses

/-- Where a pass comes to from the object of a function, if no error ends it before. -/
inductive Visits (pass : Pass) (heap : NodeHeap) (func : NodeObj) : NodeId → Prop
  | start {child : NodeId} : Follows (pass.start func) child → Visits pass heap func child
  | step {id child : NodeId} {obj : NodeObj} : Visits pass heap func id → heap[id]? = some obj →
      Follows (pass.accesses obj) child → Visits pass heap func child

/-- No null pointer is dereferenced. -/
def FieldAccess.Safe (hasSymbol : Prop) : FieldAccess → Prop
  | .deref p | .visit p => p.isSome
  | .checked _ => True
  | .symbol => hasSymbol

/-- The nodes as a pass finds them. -/
def Pass.heap (pass : Pass) (heap : NodeHeap) (func : NodeId) : NodeHeap :=
  match pass with
  | .codeGen => heap.eliminate func
  | _ => heap

/-- At the function, and wherever the pass comes to, there is a node, and no null pointer is dereferenced. -/
def Pass.NullSafe (pass : Pass) (heap : NodeHeap) (func : NodeId) : Prop :=
  ∃ obj, (pass.heap heap func)[func]? = some obj ∧ (∀ access ∈ pass.start obj, access.Safe False) ∧
    ∀ id, Visits pass (pass.heap heap func) obj id → ∃ obj', (pass.heap heap func)[id]? = some obj' ∧
      ∀ access ∈ pass.accesses obj', access.Safe (Visits .typeAst heap obj id)

/-! ## What is followed -/

/-- The accesses are to fields of a class, and unchecked only to those that are never null. -/
structure OfFields (accesses : List FieldAccess) (cls : NodeClass) : Prop where
  visit : ∀ p, .visit p ∈ accesses → p ∈ cls.required
  deref : ∀ p, .deref p ∈ accesses → p ∈ cls.required
  checked : ∀ p, .checked p ∈ accesses → p ∈ cls.children

section

variable {cls cls' : NodeClass} {obj obj' : NodeObj} {p : NodePtr} {child : NodeId} {accesses accesses' : List FieldAccess}

theorem required_children (h : p ∈ cls.required) : p ∈ cls.children := by
  cases cls <;> simp only [NodeClass.required, NodeClass.children, List.mem_cons, List.not_mem_nil,
    or_false] at h ⊢ <;> tauto

theorem OfFields.mono (h : OfFields accesses cls) (hr : cls.required ⊆ cls'.required)
    (hc : cls.children ⊆ cls'.children) :
    OfFields accesses cls' :=
  ⟨fun p hp => hr (h.visit p hp), fun p hp => hr (h.deref p hp), fun p hp => hc (h.checked p hp)⟩

theorem OfFields.append (h : OfFields accesses cls) (h' : OfFields accesses' cls) :
    OfFields (accesses ++ accesses') cls :=
  ⟨fun p hp => (List.mem_append.mp hp).elim (h.visit p) (h'.visit p),
    fun p hp => (List.mem_append.mp hp).elim (h.deref p) (h'.deref p),
    fun p hp => (List.mem_append.mp hp).elim (h.checked p) (h'.checked p)⟩

theorem visitBody_ofFields (cls : NodeClass) : OfFields (visitBodyAccesses cls) cls := by
  constructor <;> cases cls <;> simp [visitBodyAccesses, NodeClass.required, NodeClass.children]

theorem typeCheck_ofFields (cls : NodeClass) : OfFields (typeCheckAccesses cls) cls := by
  constructor <;> cases cls <;> simp [typeCheckAccesses, NodeClass.required, NodeClass.children]

theorem codeGen_ofFields (cls : NodeClass) : OfFields (codeGenAccesses cls) cls := by
  constructor <;> cases cls <;> simp [codeGenAccesses, NodeClass.required, NodeClass.children]

theorem visitChildren_ofFields (h : obj.children = cls.children) : OfFields obj.visitChildren cls := by
  constructor <;> simp [NodeObj.visitChildren, h]

theorem Cut.required (h : Cut obj obj') : obj'.cls.required ⊆ obj.cls.required := by
  cases h with
  | refl => exact List.Subset.refl _
  | resize stmts children n => exact List.take_subset n stmts

theorem Cut.cls_children (h : Cut obj obj') : obj'.cls.children ⊆ obj.cls.children := by
  cases h with
  | refl => exact List.Subset.refl _
  | resize stmts children n => exact List.take_subset n stmts

/-- A pass follows the fields its node has from the builder. -/
theorem accesses_ofFields (hobj : obj.Filled) (hcut : Cut obj obj') (pass : Pass) :
    OfFields (pass.accesses obj') obj.cls := by
  have hmono {accesses : List FieldAccess} (h : OfFields accesses obj'.cls) : OfFields accesses obj.cls :=
    h.mono hcut.required hcut.cls_children
  have hchildren := visitChildren_ofFields (hcut.children.trans hobj.children)
  cases pass with
  | connectLoops | eliminateUnreachableCode => exact hmono (visitBody_ofFields _)
  | typeAst => exact hchildren
  | typeCheck => exact hchildren.append (hmono (typeCheck_ofFields _))
  | codeGen => exact hmono (codeGen_ofFields _)

theorem start_ofFields {args : List NodePtr} {body : NodePtr} (hcls : obj.cls = .function args body)
    (hobj : obj.Filled) (pass : Pass) :
    OfFields (pass.start obj) obj.cls := by
  have hchildren := visitChildren_ofFields hobj.children
  rw [hcls] at hchildren
  rw [Pass.start, hcls]
  cases pass with
  | connectLoops | eliminateUnreachableCode | codeGen => constructor <;> simp [NodeClass.required, NodeClass.children]
  | typeAst =>
    constructor <;> simp [NodeClass.required, NodeClass.children]
    exact fun p hp => .inr hp
  | typeCheck => exact hchildren

/-- Where a pass goes on is a child. -/
theorem OfFields.follows (h : OfFields accesses cls) (hchild : Follows accesses child) : some child ∈ cls.children :=
  hchild.elim (fun hv => required_children (h.visit _ hv)) (h.checked _)

/-- What is read of a filled node is not null. -/
theorem OfFields.safe {hasSymbol : Prop} (h : OfFields accesses obj.cls) (hobj : obj.Filled)
    (hsymbol : .symbol ∈ accesses → hasSymbol) :
    ∀ access ∈ accesses, access.Safe hasSymbol := by
  intro access hmem
  cases access with
  | deref p => exact hobj.required p (h.deref p hmem)
  | visit p => exact hobj.required p (h.visit p hmem)
  | checked p => trivial
  | symbol => exact hsymbol hmem

end

/-! ## No null pointer is followed -/

/-- A parameter's node, as the builder leaves it. -/
def paramObj : NodeObj := ⟨.defNode none, [none]⟩

/-- The nodes of a function, as the builder leaves them. -/
structure Built (heap : NodeHeap) (func : NodeId) (obj : NodeObj) (args : List NodePtr) (body : NodePtr) : Prop where
  get : heap[func]? = some obj
  cls : obj.cls = .function args body
  filled : ∀ obj ∈ heap, obj.Filled
  ordered : Forest.Ordered heap.links
  params : ∀ arg, some arg ∈ args → heap[arg]? = some paramObj

namespace Built

variable {heap : NodeHeap} {func : NodeId} {obj : NodeObj} {args : List NodePtr} {body : NodePtr}

theorem cuts (heap : NodeHeap) (func : NodeId) (pass : Pass) : heap.Cuts (pass.heap heap func) := by
  cases pass with
  | codeGen => exact eliminate_cuts heap func
  | _ => exact .refl heap

/-- What a pass finds is what the builder made, cut at most. -/
theorem found (h : Built heap func obj args body) {pass : Pass} {id : NodeId} {obj' : NodeObj}
    (hget : (pass.heap heap func)[id]? = some obj') : ∃ o, heap[id]? = some o ∧ o.Filled ∧ Cut o obj' := by
  have hrel := cuts heap func pass id
  rw [hget] at hrel
  generalize ho : heap[id]? = o at hrel
  cases hrel with
  | some hcut => exact ⟨_, rfl, h.filled _ (List.mem_of_getElem? ho), hcut⟩

/-- There is a node at every child. -/
theorem child (h : Built heap func obj args body) {id c : NodeId} {o : NodeObj} (hget : heap[id]? = some o)
    (hc : some c ∈ o.cls.children) (pass : Pass) : ∃ o', (pass.heap heap func)[c]? = some o' := by
  have hlt : id < heap.length := (List.getElem?_eq_some_iff.mp hget).1
  have hmem : c ∈ heap.owned id := by
    rw [NodeHeap.owned, hget]
    exact List.reduceOption_mem_iff.mpr ((h.filled o (List.mem_of_getElem? hget)).children ▸ hc)
  rw [owned_eq] at hmem
  have hrel := cuts heap func pass c
  rw [List.getElem?_eq_getElem ((h.ordered id c hmem).trans hlt)] at hrel
  generalize (pass.heap heap func)[c]? = o' at hrel
  cases hrel with
  | some _ => exact ⟨_, rfl⟩

/-- No pass cuts the function's own node. -/
theorem get_heap (h : Built heap func obj args body) (pass : Pass) : (pass.heap heap func)[func]? = some obj := by
  have hrel := cuts heap func pass func
  rw [h.get] at hrel
  have hcls := h.cls
  generalize (pass.heap heap func)[func]? = o' at hrel
  cases hrel with
  | some hcut =>
    cases hcut with
    | refl => rfl
    | resize stmts children n => cases hcls

theorem visited (h : Built heap func obj args body) {pass : Pass} {id : NodeId}
    (hv : Visits pass (pass.heap heap func) obj id) :
    ∃ obj', (pass.heap heap func)[id]? = some obj' := by
  cases hv with
  | start hchild => exact h.child h.get ((start_ofFields h.cls (h.filled _ (List.mem_of_getElem? h.get)) pass).follows hchild) pass
  | step hv hget hchild =>
    obtain ⟨o, ho, hfilled, hcut⟩ := h.found hget
    exact h.child ho ((accesses_ofFields hfilled hcut pass).follows hchild) pass

/-- No pass comes to a node that `type_ast` does not come to, but `type_check` to the parameters. -/
theorem visits_typeAst (h : Built heap func obj args body) {pass : Pass} {id : NodeId}
    (hv : Visits pass (pass.heap heap func) obj id) :
    Visits .typeAst heap obj id ∨ pass = .typeCheck ∧ heap[id]? = some paramObj := by
  have hobj := h.filled _ (List.mem_of_getElem? h.get)
  have hbody {child : NodeId} (hchild : some child = body) : Visits .typeAst heap obj child := by
    refine .start (.inl ?_)
    rw [Pass.start, h.cls]
    exact List.mem_append_right _ (hchild ▸ List.mem_singleton_self _)
  induction hv with
  | @start child hchild =>
    have hmem := (start_ofFields h.cls hobj pass).follows hchild
    rw [h.cls, NodeClass.children, List.mem_cons] at hmem
    rw [Pass.start, h.cls, Follows] at hchild
    cases pass with
    | typeCheck => exact hmem.imp hbody fun harg => ⟨rfl, h.params child harg⟩
    | connectLoops | eliminateUnreachableCode | codeGen | typeAst =>
      refine .inl (hbody ?_)
      simpa using hchild
  | @step id child obj' hv hget hchild ih =>
    obtain ⟨o, ho, hfilled, hcut⟩ := h.found hget
    obtain hast | ⟨rfl, hparam⟩ := ih
    · refine .inl (.step hast ho (.inr ?_))
      have hmem := (accesses_ofFields hfilled hcut pass).follows hchild
      exact List.mem_map_of_mem (hfilled.children ▸ hmem)
    · obtain rfl : paramObj = obj' := Option.some.inj (hparam.symm.trans hget)
      -- a parameter has no initialiser
      simp [Follows, Pass.accesses, NodeObj.visitChildren, paramObj, typeCheckAccesses] at hchild

/-- A symbol that is dereferenced was set. -/
theorem symbol_set (h : Built heap func obj args body) {pass : Pass} {id : NodeId} {obj' : NodeObj}
    (hv : Visits pass (pass.heap heap func) obj id) (hget : (pass.heap heap func)[id]? = some obj')
    (hsymbol : .symbol ∈ pass.accesses obj') : Visits .typeAst heap obj id := by
  obtain hast | ⟨rfl, hparam⟩ := h.visits_typeAst hv
  · exact hast
  · obtain rfl : paramObj = obj' := Option.some.inj (hparam.symm.trans hget)
    simp [Pass.accesses, NodeObj.visitChildren, paramObj, typeCheckAccesses] at hsymbol

/-- **No pass dereferences a null pointer.** -/
theorem nullSafe (h : Built heap func obj args body) (pass : Pass) : pass.NullSafe heap func := by
  have hobj := h.filled _ (List.mem_of_getElem? h.get)
  refine ⟨obj, h.get_heap pass, (start_ofFields h.cls hobj pass).safe hobj fun hsymbol => ?_, fun id hv => ?_⟩
  · rw [Pass.start, h.cls] at hsymbol
    cases pass <;> simp [NodeObj.visitChildren] at hsymbol
  · obtain ⟨obj', hget⟩ := h.visited hv
    obtain ⟨o, ho, hfilled, hcut⟩ := h.found hget
    exact ⟨obj', hget, (accesses_ofFields hfilled hcut pass).safe hfilled (h.symbol_set hv hget)⟩

end Built

/-! ## What the builder builds -/

/-- What a build leaves, from filled nodes. -/
theorem grown_of_ok {α : Type} {m : Build α} {C : Prop} (hm : ∀ base, Builds base m C) {heap heap' : NodeHeap} {a : α}
    (h : m heap = .ok (a, heap')) (hfilled : ∀ obj ∈ heap, obj.Filled) : heap.Grown heap' :=
  (hm heap heap ⟨List.prefix_rfl, hfilled⟩).ok h

theorem get_mono {heap heap' : NodeHeap} (h : heap <+: heap') {id : NodeId} {obj : NodeObj}
    (hget : heap[id]? = some obj) :
    heap'[id]? = some obj := by
  obtain ⟨rest, rfl⟩ := h
  exact (List.getElem?_append_left (List.getElem?_eq_some_iff.mp hget).1).trans hget

theorem visitParams_params {ps : List ParamTree} : ∀ {heap heap' : NodeHeap} {args : List (DefNode Unit)},
    visitParams ps heap = .ok (args, heap') → (∀ obj ∈ heap, obj.Filled) →
      ∀ arg ∈ args, heap'[arg.node.id]? = some paramObj := by
  induction ps with
  | nil =>
    intro heap heap' args h _
    obtain ⟨rfl, rfl⟩ := pure_ok_iff.mp h
    exact List.forall_mem_nil _
  | cons p ps ih =>
    intro heap heap' args h hfilled
    obtain ⟨arg, h₁, hp, h⟩ := bind_ok_iff.mp h
    obtain ⟨args', h₂, hps, h⟩ := bind_ok_iff.mp h
    obtain ⟨rfl, rfl⟩ := pure_ok_iff.mp h
    obtain ⟨type, h₀, ht, hd⟩ := bind_ok_iff.mp hp
    have htype := grown_of_ok (fun base => visitType_builds p.type) ht hfilled
    have harg := grown_of_ok (fun base => defNode_builds _ _ type none) hd htype.filled
    have hrest := grown_of_ok (fun base => visitParams_builds ps) hps harg.filled
    obtain ⟨node, _, hn, hd⟩ := bind_ok_iff.mp hd
    obtain ⟨rfl, rfl⟩ := pure_ok_iff.mp hd
    obtain ⟨rfl, rfl⟩ := newNode_ok_iff.mp hn
    refine List.forall_mem_cons.mpr ⟨get_mono hrest.isPrefix ?_, ih hps harg.filled⟩
    exact List.getElem?_concat_length

theorem visitFunction_built {f : FunctionTree} {fn : FunctionFields} {heap : NodeHeap}
    (h : visitFunction f [] = .ok (fn, heap)) :
    ∃ obj args body, Built heap fn.node.id obj args body := by
  have hempty : ∀ obj ∈ ([] : NodeHeap), obj.Filled := List.forall_mem_nil _
  have hall := grown_of_ok (fun base => visitFunction_builds f) h hempty
  obtain ⟨shared, hgrows, -⟩ := visitFunction_makes h
  obtain ⟨retType, h₀, ht, h⟩ := bind_ok_iff.mp h
  obtain ⟨args, h₁, hargs, h⟩ := bind_ok_iff.mp h
  obtain ⟨body, h₂, hb, h⟩ := bind_ok_iff.mp h
  obtain ⟨node, _, hn, h⟩ := bind_ok_iff.mp h
  obtain ⟨rfl, rfl⟩ := pure_ok_iff.mp h
  have htype := grown_of_ok (fun base => visitType_builds f.retType) ht hempty
  have hparams := grown_of_ok (fun base => visitParams_builds _) hargs htype.filled
  have hbody := grown_of_ok (fun base => stmtVisit_builds.2.1 f.body) hb hparams.filled
  obtain ⟨rfl, rfl⟩ := newNode_ok_iff.mp hn
  refine ⟨_, _, _, List.getElem?_concat_length, rfl, hall.filled, hgrows.ordered, fun arg harg => ?_⟩
  obtain ⟨d, hd, hid⟩ := List.mem_map.mp harg
  obtain rfl := Option.some.inj hid
  exact get_mono (hbody.isPrefix.trans (List.prefix_append ..)) (visitParams_params hargs htype.filled d hd)

/-- **A function is built, and no pass follows a null pointer**, exactly if every `for` header has its condition. -/
theorem builder_total_iff (f : FunctionTree) :
    (∃ fn heap, visitFunction f [] = .ok (fn, heap) ∧ ∀ pass : Pass, pass.NullSafe heap fn.node.id) ↔
      f.body.HasConditions := by
  have hempty : NodeHeap.Grown [] [] := ⟨List.prefix_rfl, List.forall_mem_nil _⟩
  have hbuilds := (visitFunction_builds f [] hempty).exists_iff
  rw [← hbuilds]
  constructor
  · rintro ⟨fn, heap, h, -⟩
    exact ⟨_, h⟩
  · rintro ⟨⟨fn, heap⟩, h⟩
    obtain ⟨obj, args, body, hbuilt⟩ := visitFunction_built h
    exact ⟨fn, heap, h, hbuilt.nullSafe⟩

namespace Sample

/-- `for ; ;` with a `break`, and `return 1`. -/
def forever : FunctionTree :=
  function (.cons (.for_ none (tok .for_ "for" 0 rfl) none none none
      (.mk (tok .lbrace "\x7b" 0 rfl) (.cons (.break_ (tok .break_ "break" 0 rfl)) .nil)))
    (.cons (.return_ (tok .return_ "return" 0 rfl) (toLogicExpr (toExpr one))) .nil))

end Sample

/-- `for ; ;`: the builder visits a `logic_expr` that is not there. -/
theorem forever_absentChild : visitFunction Sample.forever [] = .error .absentChild := rfl

end DGen
