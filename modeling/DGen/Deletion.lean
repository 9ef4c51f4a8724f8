/-
How often the nodes of the syntax tree are deleted.

The left side of a compound assignment and the copy of it under the
assignment's operator may have nodes in common. Nothing else shares nodes, and
elimination takes none out of `children` (`deleted_once_iff`).
-/
import DGen.Ownership

namespace DGen

open Forest StateT

/-! ## Assignments -/

/-- A left side, as the expression it is. -/
def LValueTree.toExprTree : LValueTree → ExprTree .f
  | .fIdent name => .fIdent name
  | .arrayLookup name idxs => .arrayLookup name idxs

theorem LValueTree.visit_toExpr {l : LValueTree} {heap heap' : NodeHeap} {lhs : LValue Unit}
    (h : l.visit heap = .ok (lhs, heap')) :
    l.toExprTree.visit heap = .ok (lhs.toExpr, heap') := by
  cases l with
  | fIdent name =>
    obtain ⟨n, _, hn, h⟩ := bind_ok_iff.mp h
    obtain ⟨rfl, rfl⟩ := pure_ok_iff.mp h
    exact bind_ok_iff.mpr ⟨n, _, hn, rfl⟩
  | arrayLookup name idxs =>
    obtain ⟨es, h₁, hidxs, h⟩ := bind_ok_iff.mp h
    obtain ⟨r, h₂, hr, h⟩ := bind_ok_iff.mp h
    obtain ⟨rfl, rfl⟩ := pure_ok_iff.mp h
    exact bind_ok_iff.mpr ⟨es, h₁, hidxs, bind_ok_iff.mpr ⟨r, _, hr, rfl⟩⟩

/-- The left side of a compound assignment, an increment or a decrement has
nothing in its indices that is not copied. -/
def AsgTree.Copied : AsgTree → Prop
  | .assg _ _ _ => True
  | .assgType l _ _ | .crem l _ => ∀ tok ∈ l.toExprTree.yield, tok.kind.uncopied = false

instance (a : AsgTree) : Decidable a.Copied :=
  match a with
  | .assg _ _ _ => inferInstanceAs (Decidable True)
  | .assgType l _ _ | .crem l _ => inferInstanceAs (Decidable (∀ tok ∈ l.toExprTree.yield, tok.kind.uncopied = false))

section

variable {heap heap' heap'' : NodeHeap} {pos : Position} {whole : Prop}

theorem asgNode_makes (roots : List NodeId) {lhs : LValue Unit} {rhs : Expr Unit} {a : AsgNode Unit}
    (h : AsgNode.new pos lhs rhs heap' = .ok (a, heap'')) (hroots : Makes heap heap' (roots ++ [lhs.toExpr.id, rhs.id]) whole) :
    Makes heap heap'' (roots ++ [a.node.id]) whole := by
  obtain ⟨node, _, hn, h⟩ := bind_ok_iff.mp h
  obtain ⟨rfl, rfl⟩ := pure_ok_iff.mp h
  exact Makes.node roots hn hroots

theorem exprVisit_makes {r : Rule} {d : ExprTree r} {e : Expr Unit} (h : d.visit heap = .ok (e, heap'))
    (hg : Ordered heap.links) : Makes heap heap' [e.id] True :=
  .of_grows (exprVisit_grows.1 r d h hg)

/-- A copy of the left side. -/
theorem lvalue_copy {l : LValueTree} {lhs : LValue Unit} {h₁ h₂ : NodeHeap} {c : Expr Unit}
    (h : l.visit heap = .ok (lhs, h₁))
    (hle : h₁.length ≤ h₂.length) (hg : Ordered h₂.links) (hc : lhs.toExpr.copy h₂ = .ok (c, heap')) :
    Makes h₂ heap' [c.id] (∀ tok ∈ l.toExprTree.yield, tok.kind.uncopied = false) := by
  have hvisit := LValueTree.visit_toExpr h
  have hspan := exprVisit_span.1 _ _ hvisit
  refine (copy_makes _ hc hg fun i hi => ?_).congr (exprVisit_uncopied.1 _ _ hvisit)
  exact (hspan.bounds i ((uncopied_sublist _).subset hi)).2.trans_le hle

/-- An assignment of an operator over a copy of the left side and a right side. -/
theorem compound_makes {op : BinOpType} {lhs : LValue Unit} {c rhs e : Expr Unit} {a : AsgNode Unit} {h₁ : NodeHeap}
    (hroots : Makes heap heap' [lhs.toExpr.id, c.id, rhs.id] whole) (hbin : BinOpNode.new pos op c rhs heap' = .ok (e, h₁))
    (hasg : AsgNode.new pos lhs e h₁ = .ok (a, heap'')) : Makes heap heap'' [a.node.id] whole :=
  asgNode_makes [] hasg (binOpNode_makes [lhs.toExpr.id] hbin hroots)

end

theorem mapAsgType_same {type : String} {heap heap' : NodeHeap} {t : AsgType}
    (h : mapAsgType type heap = .ok (t, heap')) :
    heap = heap' := by
  unfold mapAsgType at h
  split at h
  all_goals first | exact (pure_ok_iff.mp h).2 | cases h

theorem mapCremType_same {type : String} {heap heap' : NodeHeap} {t : BinOpType}
    (h : mapCremType type heap = .ok (t, heap')) :
    heap = heap' := by
  unfold mapCremType at h
  split at h
  all_goals first | exact (pure_ok_iff.mp h).2 | cases h

theorem mapAsgType_assg {type : String} {heap heap' : NodeHeap} {t : AsgType} (htext : type = "=")
    (h : mapAsgType type heap = .ok (t, heap')) : t = .asg := by
  subst htext
  obtain ⟨rfl, -⟩ := pure_ok_iff.mp h
  rfl

theorem mapAsgType_compound {type : String} {heap heap' : NodeHeap} {t : AsgType} (htext : type ∈ ["+=", "-=", "*=", "/="])
    (h : mapAsgType type heap = .ok (t, heap')) : ∃ op, t.op? = some op := by
  simp only [List.mem_cons, List.not_mem_nil, or_false] at htext
  obtain rfl | rfl | rfl | rfl := htext
  all_goals
    obtain ⟨rfl, -⟩ := pure_ok_iff.mp h
    exact ⟨_, rfl⟩

/-- **An assignment shares nodes** exactly if it copies what is not copied. -/
theorem asgVisit_makes {a : AsgTree} {heap heap' : NodeHeap} {n : AsgNode Unit} (h : a.visit heap = .ok (n, heap'))
    (hg : Ordered heap.links) : Makes heap heap' [n.node.id] a.Copied := by
  cases a with
  | assg l op r =>
    obtain ⟨lhs, h₁, hl, h⟩ := bind_ok_iff.mp h
    obtain ⟨rhs, h₂, hr, h⟩ := bind_ok_iff.mp h
    obtain ⟨t, _, ht, h⟩ := bind_ok_iff.mp h
    obtain rfl := mapAsgType_same ht
    obtain rfl := mapAsgType_assg op.lexes ht
    have hlhs := exprVisit_makes (LValueTree.visit_toExpr hl) hg
    have hboth := hlhs.trans (exprVisit_makes hr hlhs.ordered)
    exact asgNode_makes [] h (hboth.congr (and_iff_left trivial))
  | assgType l op r =>
    obtain ⟨lhs, h₁, hl, h⟩ := bind_ok_iff.mp h
    obtain ⟨rhs, h₂, hr, h⟩ := bind_ok_iff.mp h
    obtain ⟨t, _, ht, h⟩ := bind_ok_iff.mp h
    obtain rfl := mapAsgType_same ht
    obtain ⟨bop, hop⟩ := mapAsgType_compound op.lexes ht
    rw [hop] at h
    obtain ⟨c, h₃, hc, h⟩ := bind_ok_iff.mp h
    obtain ⟨e, h₄, hbin, h⟩ := bind_ok_iff.mp h
    have hlhs := exprVisit_makes (LValueTree.visit_toExpr hl) hg
    have hrhs := exprVisit_makes hr hlhs.ordered
    have hboth := hlhs.trans hrhs
    have hcopy := lvalue_copy hl hrhs.length_le hrhs.ordered hc
    refine compound_makes ?_ hbin h
    refine ((hboth.trans hcopy).of_perm ?_).congr ?_
    · exact .cons _ (.swap ..)
    · exact ⟨fun h => h.2, fun h => ⟨⟨trivial, trivial⟩, h⟩⟩
  | crem l op =>
    obtain ⟨lhs, h₁, hl, h⟩ := bind_ok_iff.mp h
    obtain ⟨bop, _, hop, h⟩ := bind_ok_iff.mp h
    obtain rfl := mapCremType_same hop
    obtain ⟨c, h₂, hc, h⟩ := bind_ok_iff.mp h
    obtain ⟨one, h₃, hone, h⟩ := bind_ok_iff.mp h
    obtain ⟨e, h₄, hbin, h⟩ := bind_ok_iff.mp h
    have hlhs := exprVisit_makes (LValueTree.visit_toExpr hl) hg
    have hcopy := lvalue_copy hl (Nat.le_refl _) hlhs.ordered hc
    have hnum := Makes.of_grows (numberNode_grows hone hcopy.ordered)
    refine compound_makes (((hlhs.trans hcopy).trans hnum).congr ?_) hbin h
    exact ⟨fun h => h.1.2, fun h => ⟨⟨trivial, h⟩, trivial⟩⟩

/-! ## Statements -/

mutual
/-- The assignments of a statement, those in its header among them. -/
def StmtTree.assignments : StmtTree → List AsgTree
  | .assignment a => [a]
  | .for_ _ _ a _ i b => a.toList ++ (i.toList ++ b.assignments)
  | .while_ _ _ _ b | .if_ _ _ _ b => b.assignments
  | .ifElse _ _ _ b e => b.assignments ++ e.assignments
  | .return_ _ _ | .break_ _ | .continue_ _ | .define _ _ _ => []

def BodyTree.assignments : BodyTree → List AsgTree
  | .mk _ ss => ss.assignments

def StmtsTree.assignments : StmtsTree → List AsgTree
  | .nil => []
  | .cons s rest => s.assignments ++ rest.assignments
end

section

variable {heap heap' heap'' : NodeHeap} {roots : List NodeId} {whole : Prop}

theorem reduceOption_cons {α : Type} (o : Option α) (l : List (Option α)) :
    (o :: l).reduceOption = o.toList ++ l.reduceOption := by
  cases o <;> rfl

/-- A part that may be left out. -/
theorem visitOption_makes {α β : Type} {visit : α → Build β} {root : β → NodeId} {w : α → Prop} {o : Option α}
    {r : Option β}
    (h : visitOption visit o heap = .ok (r, heap')) (hg : Ordered heap.links)
    (hvisit : ∀ {a b h₁}, visit a heap = .ok (b, h₁) → Makes heap h₁ [root b] (w a)) :
    Makes heap heap' (r.map root).toList (∀ a ∈ o.toList, w a) := by
  cases o with
  | none =>
    obtain ⟨rfl, rfl⟩ := pure_ok_iff.mp h
    exact (Makes.nil hg).congr (iff_of_true trivial (by simp))
  | some a =>
    obtain ⟨b, _, hb, h⟩ := bind_ok_iff.mp h
    obtain ⟨rfl, rfl⟩ := pure_ok_iff.mp h
    exact (hvisit hb).congr (by simp)

theorem optionExpr_makes {o : Option LogicExprTree} {r : Option (Expr Unit)}
    (h : visitOption ExprTree.visit o heap = .ok (r, heap'))
    (hg : Ordered heap.links) : Makes heap heap' (r.map Expr.id).toList True :=
  (visitOption_makes (w := fun _ => True) h hg fun he => exprVisit_makes he hg).congr (by simp)

theorem visitPrecondition_makes {p : PrecondTree} {n : PrecondNode Unit} (h : visitPrecondition p heap = .ok (n, heap'))
    (hg : Ordered heap.links) : Makes heap heap' [n.node.id] True := by
  obtain ⟨e, h₁, he, h⟩ := bind_ok_iff.mp h
  obtain ⟨node, _, hn, h⟩ := bind_ok_iff.mp h
  obtain ⟨rfl, rfl⟩ := pure_ok_iff.mp h
  refine Makes.node [] hn ?_
  rw [NodeClass.children, List.reduceOption_singleton]
  exact optionExpr_makes he hg

theorem precond_makes {o : Option PrecondTree} {r : Option (PrecondNode Unit)}
    (h : visitOption visitPrecondition o heap = .ok (r, heap')) (hg : Ordered heap.links) :
    Makes heap heap' (r.map (·.node.id)).toList True :=
  (visitOption_makes (w := fun _ => True) h hg fun hp => visitPrecondition_makes hp hg).congr (by simp)

theorem visitLogicExpr_ok_iff {c : Option LogicExprTree} {e : Expr Unit} :
    visitLogicExpr c heap = .ok (e, heap') ↔ ∃ d, c = some d ∧ d.visit heap = .ok (e, heap') := by
  constructor
  · intro h
    cases c with
    | none => cases h
    | some d => exact ⟨d, rfl, h⟩
  · rintro ⟨d, rfl, h⟩
    exact h

theorem forNode_makes {pos : Position} {precond : Option (PrecondNode Unit)} {preAsg incAsg : Option (AsgNode Unit)}
    {cond : Expr Unit} {body : NodeId × Body Unit} {n : Stmt Unit}
    (h : ForNode.new pos precond preAsg cond incAsg body heap' = .ok (n, heap''))
    (hroots : Makes heap heap' ((precond.map (·.node.id)).toList ++ (preAsg.map (·.node.id)).toList ++ [cond.id] ++
      (incAsg.map (·.node.id)).toList ++ [body.1]) whole) : Makes heap heap'' [n.id] whole := by
  obtain ⟨node, _, hn, h⟩ := bind_ok_iff.mp h
  obtain ⟨rfl, rfl⟩ := pure_ok_iff.mp h
  refine Makes.node [] hn ?_
  simpa [NodeClass.children, reduceOption_cons] using hroots

theorem ifNode_makes {pos : Position} {precond : Option (PrecondNode Unit)} {cond : Expr Unit}
    {body : NodeId × Body Unit}
    {elseBody : Option (NodeId × Body Unit)} {n : Stmt Unit} (h : IfNode.new pos precond cond body elseBody heap' = .ok (n, heap''))
    (hroots : Makes heap heap' ((precond.map (·.node.id)).toList ++ [cond.id] ++ [body.1] ++ (elseBody.map (·.1)).toList) whole) :
    Makes heap heap'' [n.id] whole := by
  obtain ⟨node, h₁, hn, h⟩ := bind_ok_iff.mp h
  have hid : n.id = node.id ∧ h₁ = heap'' := by
    cases elseBody with
    | none =>
      obtain ⟨rfl, rfl⟩ := pure_ok_iff.mp h
      exact ⟨rfl, rfl⟩
    | some e =>
      obtain ⟨rfl, rfl⟩ := pure_ok_iff.mp h
      exact ⟨rfl, rfl⟩
  obtain ⟨hid, rfl⟩ := hid
  rw [hid]
  refine Makes.node [] hn ?_
  simpa [NodeClass.children, reduceOption_cons] using hroots

theorem defNode_makes {pos : Position} {name : String} {type : DeclTy} {rhs : Option (Expr Unit)} {d : DefNode Unit}
    (h : DefNode.new pos name type rhs heap' = .ok (d, heap'')) (hroots : Makes heap heap' (rhs.map Expr.id).toList whole) :
    Makes heap heap'' [d.node.id] whole := by
  obtain ⟨node, _, hn, h⟩ := bind_ok_iff.mp h
  obtain ⟨rfl, rfl⟩ := pure_ok_iff.mp h
  refine Makes.node [] hn ?_
  simpa [NodeClass.children, reduceOption_cons] using hroots

end

/-- **The nodes of a statement are a tree** exactly if its assignments copy nothing that is not copied. -/
theorem stmtVisit_makes :
    (∀ (s : StmtTree) {heap heap' : NodeHeap} {n : Stmt Unit}, s.visit heap = .ok (n, heap') → Ordered heap.links →
      Makes heap heap' [n.id] (∀ a ∈ s.assignments, a.Copied)) ∧
    (∀ (b : BodyTree) {heap heap' : NodeHeap} {r : NodeId × Body Unit}, b.visit heap = .ok (r, heap') →
      Ordered heap.links →
      Makes heap heap' [r.1] (∀ a ∈ b.assignments, a.Copied)) ∧
    ∀ (ss : StmtsTree) {heap heap' : NodeHeap} {ns : Body Unit}, ss.visit heap = .ok (ns, heap') → Ordered heap.links →
      Makes heap heap' (ns.map Stmt.id) (∀ a ∈ ss.assignments, a.Copied) := by
  apply StmtTree.induct
  case assignment =>
    intro a heap heap' n h hg
    obtain ⟨a', _, ha, h⟩ := bind_ok_iff.mp h
    obtain ⟨rfl, rfl⟩ := pure_ok_iff.mp h
    exact (asgVisit_makes ha hg).congr List.forall_mem_singleton.symm
  case return_ =>
    intro kw e heap heap' n h hg
    obtain ⟨expr, h₁, he, h⟩ := bind_ok_iff.mp h
    obtain ⟨node, _, hn, h⟩ := bind_ok_iff.mp h
    obtain ⟨rfl, rfl⟩ := pure_ok_iff.mp h
    exact (Makes.node [] hn (exprVisit_makes he hg)).congr (iff_of_true trivial (List.forall_mem_nil _))
  case break_ | continue_ =>
    intro kw heap heap' n h hg
    obtain ⟨node, _, hn, h⟩ := bind_ok_iff.mp h
    obtain ⟨rfl, rfl⟩ := pure_ok_iff.mp h
    exact (Makes.of_grows (grows_leaf hn rfl hg)).congr (iff_of_true trivial (List.forall_mem_nil _))
  case define =>
    intro t name r heap heap' n h hg
    obtain ⟨type, _, ht, h⟩ := bind_ok_iff.mp h
    obtain rfl := visitType_same ht
    obtain ⟨rhs, h₁, hr, h⟩ := bind_ok_iff.mp h
    obtain ⟨d, _, hd, h⟩ := bind_ok_iff.mp h
    obtain ⟨rfl, rfl⟩ := pure_ok_iff.mp h
    exact (defNode_makes hd (optionExpr_makes hr hg)).congr (iff_of_true trivial (List.forall_mem_nil _))
  case for_ =>
    intro p kw a c i b ih heap heap' n h hg
    obtain ⟨precond, h₁, hp, h⟩ := bind_ok_iff.mp h
    obtain ⟨preAsg, h₂, ha, h⟩ := bind_ok_iff.mp h
    obtain ⟨cond, h₃, hc, h⟩ := bind_ok_iff.mp h
    obtain ⟨incAsg, h₄, hi, h⟩ := bind_ok_iff.mp h
    obtain ⟨body, h₅, hb, h⟩ := bind_ok_iff.mp h
    have hprecond := precond_makes hp hg
    have hpre := visitOption_makes ha hprecond.ordered fun hx => asgVisit_makes hx hprecond.ordered
    obtain ⟨e, -, hc⟩ := visitLogicExpr_ok_iff.mp hc
    have hcond := exprVisit_makes hc hpre.ordered
    have hinc := visitOption_makes hi hcond.ordered fun hx => asgVisit_makes hx hcond.ordered
    refine (forNode_makes h ((((hprecond.trans hpre).trans hcond).trans hinc).trans (ih hb hinc.ordered))).congr ?_
    simp only [StmtTree.assignments, List.forall_mem_append]
    tauto
  case while_ =>
    intro p kw c b ih heap heap' n h hg
    obtain ⟨precond, h₁, hp, h⟩ := bind_ok_iff.mp h
    obtain ⟨cond, h₂, hc, h⟩ := bind_ok_iff.mp h
    obtain ⟨body, h₃, hb, h⟩ := bind_ok_iff.mp h
    have hprecond := precond_makes hp hg
    have hcond := exprVisit_makes hc hprecond.ordered
    have hroots := (hprecond.trans hcond).trans (ih hb hcond.ordered)
    refine (forNode_makes h (hroots.of_perm ?_)).congr ?_
    · simp
    · exact ⟨fun h => h.2, fun h => ⟨⟨trivial, trivial⟩, h⟩⟩
  case if_ =>
    intro p kw c b ih heap heap' n h hg
    obtain ⟨precond, h₁, hp, h⟩ := bind_ok_iff.mp h
    obtain ⟨cond, h₂, hc, h⟩ := bind_ok_iff.mp h
    obtain ⟨body, h₃, hb, h⟩ := bind_ok_iff.mp h
    have hprecond := precond_makes hp hg
    have hcond := exprVisit_makes hc hprecond.ordered
    have hroots := (hprecond.trans hcond).trans (ih hb hcond.ordered)
    refine (ifNode_makes h (hroots.of_perm ?_)).congr ?_
    · simp
    · exact ⟨fun h => h.2, fun h => ⟨⟨trivial, trivial⟩, h⟩⟩
  case ifElse =>
    intro p kw c b e ihb ihe heap heap' n h hg
    obtain ⟨precond, h₁, hp, h⟩ := bind_ok_iff.mp h
    obtain ⟨cond, h₂, hc, h⟩ := bind_ok_iff.mp h
    obtain ⟨body, h₃, hb, h⟩ := bind_ok_iff.mp h
    obtain ⟨elseBody, h₄, he, h⟩ := bind_ok_iff.mp h
    have hprecond := precond_makes hp hg
    have hcond := exprVisit_makes hc hprecond.ordered
    have hbody := ihb hb hcond.ordered
    refine (ifNode_makes h (((hprecond.trans hcond).trans hbody).trans (ihe he hbody.ordered))).congr ?_
    rw [StmtTree.assignments, List.forall_mem_append]
    exact ⟨fun h => ⟨h.1.2, h.2⟩, fun h => ⟨⟨⟨trivial, trivial⟩, h.1⟩, h.2⟩⟩
  case mk =>
    intro lbrace ss ih heap heap' r h hg
    obtain ⟨stmts, h₁, hs, h⟩ := bind_ok_iff.mp h
    obtain ⟨node, _, hn, h⟩ := bind_ok_iff.mp h
    obtain ⟨rfl, rfl⟩ := pure_ok_iff.mp h
    refine Makes.node [] hn ?_
    rw [NodeClass.children, reduceOption_map_some]
    exact ih hs hg
  case nil =>
    intro heap heap' ns h hg
    obtain ⟨rfl, rfl⟩ := pure_ok_iff.mp h
    exact (Makes.nil hg).congr (iff_of_true trivial (List.forall_mem_nil _))
  case cons =>
    intro s rest ihs ihr heap heap' ns h hg
    obtain ⟨n, h₁, hs, h⟩ := bind_ok_iff.mp h
    obtain ⟨ns', h₂, hr, h⟩ := bind_ok_iff.mp h
    obtain ⟨rfl, rfl⟩ := pure_ok_iff.mp h
    have hstmt := ihs hs hg
    refine (hstmt.trans (ihr hr hstmt.ordered)).congr ?_
    rw [StmtsTree.assignments, List.forall_mem_append]

theorem visitParams_makes {ps : List ParamTree} : ∀ {heap heap' : NodeHeap} {args : List (DefNode Unit)},
    visitParams ps heap = .ok (args, heap') → Ordered heap.links → Makes heap heap' (args.map (·.node.id)) True := by
  induction ps with
  | nil =>
    intro heap heap' args h hg
    obtain ⟨rfl, rfl⟩ := pure_ok_iff.mp h
    exact Makes.nil hg
  | cons p ps ih =>
    intro heap heap' args h hg
    obtain ⟨arg, h₁, hp, h⟩ := bind_ok_iff.mp h
    obtain ⟨args', h₂, hps, h⟩ := bind_ok_iff.mp h
    obtain ⟨rfl, rfl⟩ := pure_ok_iff.mp h
    obtain ⟨type, _, ht, hd⟩ := bind_ok_iff.mp hp
    obtain rfl := visitType_same ht
    have harg := defNode_makes hd (Makes.nil hg)
    exact (harg.trans (ih hps harg.ordered)).congr (and_iff_left trivial)

theorem visitFunction_makes {f : FunctionTree} {fn : FunctionFields} {heap : NodeHeap}
    (h : visitFunction f [] = .ok (fn, heap)) :
    Makes [] heap [fn.node.id] (∀ a ∈ f.body.assignments, a.Copied) := by
  obtain ⟨retType, _, ht, h⟩ := bind_ok_iff.mp h
  obtain rfl := visitType_same ht
  obtain ⟨args, h₁, hargs, h⟩ := bind_ok_iff.mp h
  obtain ⟨body, h₂, hb, h⟩ := bind_ok_iff.mp h
  obtain ⟨node, _, hn, h⟩ := bind_ok_iff.mp h
  obtain ⟨rfl, rfl⟩ := pure_ok_iff.mp h
  have hempty : Ordered (NodeHeap.links []) := fun _ _ hc => by cases hc
  have hparams := visitParams_makes hargs hempty
  refine Makes.node [] hn (((hparams.trans (stmtVisit_makes.2.1 _ hb hparams.ordered)).of_perm ?_).congr (and_iff_right trivial))
  rw [NodeClass.children, List.reduceOption_cons_of_some, reduceOption_map_some]
  exact List.perm_append_comm

/-! ## Elimination -/

def NodeHeap.cls (heap : NodeHeap) (id : NodeId) : Option NodeClass := (heap[id]?).map (·.cls)

/-- `body->stmts.resize`: the body's `children` stay as they are. -/
def NodeHeap.resize (heap : NodeHeap) (body : NodeId) (n : Nat) : NodeHeap :=
  heap.modify body fun obj =>
    match obj.cls with
    | .body stmts => { obj with cls := .body (stmts.take n) }
    | _ => obj

/-- The loop over a body's statements, from the `i`th on. -/
def eliminateStmts (visitBody : NodePtr → NodeHeap → NodeHeap) (body : NodeId) :
    Nat → List NodePtr → NodeHeap → NodeHeap
  | _, [], heap => heap
  | i, stmt :: stmts, heap =>
    match stmt.bind heap.cls with
    | some .continueNode | some .breakNode | some (.returnNode _) => heap.resize body (i + 1)
    | some (.forNode _ _ _ _ loopBody) => eliminateStmts visitBody body (i + 1) stmts (visitBody loopBody heap)
    | some (.ifNode _ _ thenBody elseBody) =>
      let heap := visitBody thenBody heap
      let heap := if elseBody.isSome then visitBody elseBody heap else heap
      eliminateStmts visitBody body (i + 1) stmts heap
    | _ => eliminateStmts visitBody body (i + 1) stmts heap

/-- `eliminate_unreachable_code_visit_body`, on the nodes. -/
def eliminateBody : Nat → NodePtr → NodeHeap → NodeHeap
  | 0, _, heap => heap
  | _ + 1, none, heap => heap
  | n + 1, some body, heap =>
    match heap.cls body with
    | some (.body stmts) => eliminateStmts (eliminateBody n) body 0 stmts heap
    | _ => heap

/-- `eliminate_unreachable_code`, on the nodes: a body is not nested deeper than there are nodes. -/
def NodeHeap.eliminate (heap : NodeHeap) (func : NodeId) : NodeHeap :=
  match heap.cls func with
  | some (.function _ body) => eliminateBody heap.length body heap
  | _ => heap

/-- What elimination may do to a node: cut the statements of a body. -/
inductive Cut : NodeObj → NodeObj → Prop
  | refl (obj : NodeObj) : Cut obj obj
  | resize (stmts children : List NodePtr) (n : Nat) : Cut ⟨.body stmts, children⟩ ⟨.body (stmts.take n), children⟩

theorem Cut.children {obj obj' : NodeObj} (h : Cut obj obj') : obj'.children = obj.children := by
  cases h <;> rfl

theorem Cut.trans {obj₁ obj₂ obj₃ : NodeObj} (h : Cut obj₁ obj₂) (h' : Cut obj₂ obj₃) : Cut obj₁ obj₃ := by
  cases h with
  | refl => exact h'
  | resize stmts children n =>
    cases h' with
    | refl => exact .resize ..
    | resize _ _ m =>
      rw [List.take_take]
      exact .resize ..

/-- No node is but cut. -/
def NodeHeap.Cuts (heap heap' : NodeHeap) : Prop := ∀ id : NodeId, Option.Rel Cut heap[id]? heap'[id]?

theorem NodeHeap.Cuts.refl (heap : NodeHeap) : heap.Cuts heap := by
  intro id
  cases heap[id]? with
  | none => exact .none
  | some obj => exact .some (.refl obj)

theorem NodeHeap.Cuts.trans {heap₁ heap₂ heap₃ : NodeHeap} (h : heap₁.Cuts heap₂) (h' : heap₂.Cuts heap₃) :
    heap₁.Cuts heap₃ := by
  intro id
  have h₁₂ := h id
  have h₂₃ := h' id
  generalize heap₁[id]? = o₁, heap₂[id]? = o₂, heap₃[id]? = o₃ at h₁₂ h₂₃ ⊢
  cases h₁₂ with
  | none => exact h₂₃
  | some hcut =>
    cases h₂₃ with
    | some hcut' => exact .some (hcut.trans hcut')

theorem resize_cuts (heap : NodeHeap) (body : NodeId) (n : Nat) : heap.Cuts (heap.resize body n) := by
  intro id
  rw [NodeHeap.resize, List.getElem?_modify]
  cases heap[id]? with
  | none => exact .none
  | some obj =>
    refine .some ?_
    obtain ⟨cls, children⟩ := obj
    split
    · cases cls with
      | body stmts => exact .resize ..
      | _ => exact .refl _
    · exact .refl _

theorem eliminateStmts_cuts {visitBody : NodePtr → NodeHeap → NodeHeap}
    (hvisit : ∀ b (heap : NodeHeap), heap.Cuts (visitBody b heap)) {body : NodeId} :
    ∀ (stmts : List NodePtr) (i : Nat) (heap : NodeHeap), heap.Cuts (eliminateStmts visitBody body i stmts heap) := by
  intro stmts
  induction stmts with
  | nil => exact fun _ heap => .refl heap
  | cons stmt stmts ih =>
    intro i heap
    rw [eliminateStmts]
    split
    · exact resize_cuts heap body (i + 1)
    · exact resize_cuts heap body (i + 1)
    · exact resize_cuts heap body (i + 1)
    · exact (hvisit _ heap).trans (ih _ _)
    · refine NodeHeap.Cuts.trans ?_ (ih _ _)
      split
      · exact (hvisit _ heap).trans (hvisit _ _)
      · exact hvisit _ heap
    · exact ih _ heap

theorem eliminateBody_cuts : ∀ (n : Nat) (body : NodePtr) (heap : NodeHeap), heap.Cuts (eliminateBody n body heap) := by
  intro n
  induction n with
  | zero => exact fun _ heap => .refl heap
  | succ n ih =>
    intro body heap
    cases body with
    | none => exact .refl heap
    | some body =>
      rw [eliminateBody]
      split
      · exact eliminateStmts_cuts ih _ _ heap
      · exact .refl heap

/-- **Elimination deletes no node** and takes none from `children`. -/
theorem eliminate_cuts (heap : NodeHeap) (func : NodeId) : heap.Cuts (heap.eliminate func) := by
  rw [NodeHeap.eliminate]
  split
  · exact eliminateBody_cuts _ _ heap
  · exact .refl heap

theorem NodeHeap.Cuts.links {heap heap' : NodeHeap} (h : heap.Cuts heap') : heap'.links = heap.links := by
  refine List.ext_getElem? fun id => ?_
  rw [NodeHeap.links, NodeHeap.links, List.getElem?_map, List.getElem?_map]
  have hid := h id
  generalize heap[id]? = o, heap'[id]? = o' at hid ⊢
  cases hid with
  | none => rfl
  | some hcut => exact congrArg (fun children : List NodePtr => some children.reduceOption) hcut.children

/-! ## Deleted once -/

/-- **The nodes of a function are a tree and each deleted once**, before and after
elimination, exactly if no compound assignment, increment or decrement has what is
not copied in the indices of its left side. -/
theorem deleted_once_iff {f : FunctionTree} {fn : FunctionFields} {heap : NodeHeap}
    (h : visitFunction f [] = .ok (fn, heap)) :
    ((heap.IsTree fn.node.id ∧ heap.DeletedOnce fn.node.id) ∧
      (heap.eliminate fn.node.id).IsTree fn.node.id ∧ (heap.eliminate fn.node.id).DeletedOnce fn.node.id) ↔
    ∀ a ∈ f.body.assignments, a.Copied := by
  obtain ⟨shared, hgrows, hshared⟩ := visitFunction_makes h
  have hafter := hgrows
  rw [← (eliminate_cuts heap fn.node.id).links] at hafter
  rw [← hshared, deletedOnce_iff hafter, deletedOnce_iff hgrows, and_self]

namespace Sample

def identA : Tok .ident := tok .ident "a" 0 ⟨'a', [], rfl, rfl, List.forall_mem_singleton.mpr (.inl rfl)⟩

def three : ExprTree .f := .const (.num (tok .num "3" 0 ⟨'3', [], rfl, List.forall_mem_singleton.mpr rfl, fun _ => rfl⟩))

def indexOf (e : ExprTree (.chain .expr)) : IdxTree := .last (tok .lbracket "[" 0 rfl) e (tok .rbracket "]" 0 rfl)

/-- `int[] a = int[3]`, `a[e] += 1` and `return a[1]`. -/
def addAt (e : ExprTree (.chain .expr)) : FunctionTree :=
  function (.cons (.define ⟨typeInt.scalar, [tok .nestedType "[]" 3 rfl]⟩ identA
      (some (toLogicExpr (toExpr (.arrayCreate typeInt (tok .lbracket "[" 0 rfl) (toExpr three) (tok .rbracket "]" 0 rfl))))))
    (.cons (.assignment (.assgType (.arrayLookup identA (indexOf e)) (tok .assgType "+=" 0 List.mem_cons_self)
      (toLogicExpr (toExpr one))))
    (.cons (.return_ (tok .return_ "return" 0 rfl) (toLogicExpr (toExpr (.arrayLookup identA (indexOf (toExpr one)))))) .nil)))

/-- `'b' - 'a'` -/
def letters : ExprTree (.chain .expr) :=
  .more .expr (toExpr (.const (.char (tok .char "'b'" 0 (.inl ⟨'b', rfl⟩))))) (tok .minus "-" 0 rfl) (by decide)
    (.one .t (.const (.char (tok .char "'a'" 0 (.inl ⟨'a', rfl⟩)))))

end Sample

theorem deleted_once_iff_one : ∃ fn heap, visitFunction (Sample.addAt (Sample.toExpr Sample.one)) [] = .ok (fn, heap) ∧
    (heap.IsTree fn.node.id ∧ heap.DeletedOnce fn.node.id) ∧
      (heap.eliminate fn.node.id).IsTree fn.node.id ∧ (heap.eliminate fn.node.id).DeletedOnce fn.node.id :=
  ⟨_, _, rfl, (deleted_once_iff (f := Sample.addAt (Sample.toExpr Sample.one)) rfl).mpr (by decide)⟩

/-- `a['b' - 'a'] += 1`: the two characters are below both lookups, and deleted twice. -/
theorem letters_deletedTwice : ∃ fn heap, visitFunction (Sample.addAt Sample.letters) [] = .ok (fn, heap) ∧
    ¬ heap.IsTree fn.node.id ∧ ¬ heap.DeletedOnce fn.node.id :=
  ⟨_, _, rfl, fun h => absurd h.length_eq (by decide), fun h => absurd h.length_eq (by decide)⟩

end DGen
