/-
Who owns the nodes of an expression and of its copy.

`copy` returns the node itself where a class does not override it, so a copy
shares with the original the nodes that are not copied, and no others
(`copy_makes`).
-/
import DGen.Lib.Forest
import DGen.Lib.Result
import DGen.Builder
import Mathlib.Data.List.ReduceOption

namespace DGen

open Forest StateT

/-! ## Deleting -/

/-- The children a node deletes: `~ASTNode` skips null pointers. -/
def NodeHeap.owned (heap : NodeHeap) (id : NodeId) : List NodeId :=
  ((heap[id]?).map fun obj => obj.children.reduceOption).getD []

/-- `delete`: what the destructors of the children delete, and then the node. -/
def NodeHeap.deletes (heap : NodeHeap) : Nat → NodeId → List NodeId
  | 0, _ => []
  | n + 1, id => (heap.owned id).flatMap (deletes heap n) ++ [id]

/-- `delete func`, of all the nodes there are. -/
def NodeHeap.DeletedOnce (heap : NodeHeap) (func : NodeId) : Prop :=
  (heap.deletes heap.length func).Perm (List.range heap.length)

/-- Every node but the root is a child of one node, and occurs once among its children. -/
def NodeHeap.IsTree (heap : NodeHeap) (root : NodeId) : Prop :=
  (root :: (List.range heap.length).flatMap heap.owned).Perm (List.range heap.length)

def NodeHeap.links (heap : NodeHeap) : Links := heap.map fun obj => obj.children.reduceOption

theorem owned_eq (heap : NodeHeap) : heap.owned = children heap.links := by
  funext id
  rw [NodeHeap.owned, children, NodeHeap.links, List.getD_eq_getElem?_getD, List.getElem?_map]

theorem deletes_eq (heap : NodeHeap) : ∀ n id, heap.deletes n id = postorder heap.links n id := by
  intro n
  induction n with
  | zero => exact fun _ => rfl
  | succ n ih =>
    intro id
    rw [NodeHeap.deletes, postorder, owned_eq, flatMap_congr fun c _ => ih c]

theorem links_length (heap : NodeHeap) : heap.links.length = heap.length := List.length_map ..

/-- What is a tree is deleted once, and what is not is not. -/
theorem deletedOnce_iff {heap : NodeHeap} {func : NodeId} {shared : List NodeId}
    (h : Grows [] heap.links [func] shared) :
    heap.IsTree func ∧ heap.DeletedOnce func ↔ shared = [] := by
  have hlt : func < heap.length := by
    rw [← links_length]
    exact h.bound func (List.mem_singleton_self func)
  have hdel : heap.deletes heap.length func = below heap.links func := by rw [deletes_eq, postorder_below h.ordered hlt]
  have htree := h.tree_iff
  rw [links_length] at htree
  rw [NodeHeap.DeletedOnce, hdel, htree, and_iff_right_iff_imp]
  intro hshared
  rw [NodeHeap.IsTree, owned_eq, ← links_length]
  refine children_perm h.ordered ?_
  rw [links_length]
  exact htree.mpr hshared

/-! ## What a visit makes -/

section

variable {heap heap' : NodeHeap} {g : Links} {shared : List NodeId} {pos : Position}

theorem newNode_ok_iff {cls : NodeClass} {node : ASTNode} : newNode pos cls heap = .ok (node, heap') ↔
    node = ⟨heap.length, pos⟩ ∧ heap' = heap ++ [⟨cls, cls.children⟩] := by
  rw [newNode, Except.ok.injEq, Prod.mk.injEq, eq_comm, @eq_comm _ heap']

/-- A new node over the roots that are its children. -/
theorem Grows.node (roots : List NodeId) {cls : NodeClass} {node : ASTNode}
    (hn : newNode pos cls heap = .ok (node, heap'))
    (h : Grows g heap.links (roots ++ cls.children.reduceOption) shared) :
      Grows g heap'.links (roots ++ [node.id]) shared := by
  obtain ⟨rfl, rfl⟩ := newNode_ok_iff.mp hn
  have hlinks : NodeHeap.links (heap ++ [⟨cls, cls.children⟩]) = heap.links ++ [cls.children.reduceOption] :=
    List.map_append
  rw [hlinks]
  show Grows g _ (roots ++ [heap.length]) shared
  rw [← links_length]
  exact h.new

/-- A new node without children. -/
theorem grows_leaf {cls : NodeClass} {node : ASTNode} (hn : newNode pos cls heap = .ok (node, heap'))
    (hcls : cls.children = []) (hg : Ordered heap.links) : Grows heap.links heap'.links [node.id] [] := by
  refine Grows.node [] hn ?_
  rw [hcls]
  exact Grows.refl hg

theorem identNode_grows {name : String} {n : IdentNode Unit} (h : IdentNode.new pos name heap = .ok (n, heap'))
    (hg : Ordered heap.links) : Grows heap.links heap'.links [n.node.id] [] := by
  obtain ⟨node, _, hn, h⟩ := bind_ok_iff.mp h
  obtain ⟨rfl, rfl⟩ := pure_ok_iff.mp h
  exact grows_leaf hn rfl hg

theorem numberNode_grows {num : BitVec 32} {e : Expr Unit} (h : NumberNode.new pos num heap = .ok (e, heap'))
    (hg : Ordered heap.links) : Grows heap.links heap'.links [e.id] [] := by
  obtain ⟨node, _, hn, h⟩ := bind_ok_iff.mp h
  obtain ⟨rfl, rfl⟩ := pure_ok_iff.mp h
  exact grows_leaf hn rfl hg

theorem binOpNode_grows (roots : List NodeId) {op : BinOpType} {lhs rhs e : Expr Unit}
    (h : BinOpNode.new pos op lhs rhs heap = .ok (e, heap'))
    (hroots : Grows g heap.links (roots ++ [lhs.id, rhs.id]) shared) :
      Grows g heap'.links (roots ++ [e.id]) shared := by
  obtain ⟨node, _, hn, h⟩ := bind_ok_iff.mp h
  obtain ⟨rfl, rfl⟩ := pure_ok_iff.mp h
  exact Grows.node roots hn hroots

theorem reduceOption_map_some {α : Type} {f : α → NodeId} (l : List α) :
    (l.map fun a => some (f a)).reduceOption = l.map f := by
  induction l with
  | nil => rfl
  | cons a l ih => rw [List.map_cons, List.map_cons, List.reduceOption_cons_of_some, ih]

/-- A lookup's identifier is made after its indices. -/
theorem arrLookupNode_grows (roots : List NodeId) {name : String} {idxs : List (Expr Unit)}
    {r : ASTNode × IdentNode Unit × List (Expr Unit)}
    (h : ArrLookupNode.new pos name idxs heap = .ok (r, heap')) (hidxs : Grows g heap.links (roots ++ idxs.map Expr.id) shared) :
    r.2.2 = idxs ∧ Grows g heap'.links (roots ++ [r.1.id]) shared := by
  obtain ⟨i, h₁, hi, h⟩ := bind_ok_iff.mp h
  obtain ⟨node, _, hn, h⟩ := bind_ok_iff.mp h
  obtain ⟨rfl, rfl⟩ := pure_ok_iff.mp h
  refine ⟨rfl, Grows.node roots hn ?_⟩
  have hboth := hidxs.trans (identNode_grows hi hidxs.ordered)
  rw [List.append_nil, List.append_assoc] at hboth
  refine hboth.of_perm (List.Perm.append_left _ ?_) (.refl _)
  rw [NodeClass.children, List.reduceOption_cons_of_some, reduceOption_map_some]
  exact List.perm_append_comm

theorem propertyLookupNode_grows {name property : String} {e : Expr Unit}
    (h : PropertyLookupNode.new pos name property heap = .ok (e, heap')) (hg : Ordered heap.links) :
    Grows heap.links heap'.links [e.id] [] := by
  obtain ⟨i, h₁, hi, h⟩ := bind_ok_iff.mp h
  obtain ⟨node, _, hn, h⟩ := bind_ok_iff.mp h
  obtain ⟨rfl, rfl⟩ := pure_ok_iff.mp h
  exact Grows.node [] hn (identNode_grows hi hg)

theorem mapOpType_same {text : String} {op : BinOpType} (h : mapOpType text heap = .ok (op, heap')) : heap = heap' := by
  unfold mapOpType at h
  split at h
  all_goals first | exact (pure_ok_iff.mp h).2 | cases h

theorem binOpCreate_grows (roots : List NodeId) {text : String} {lhs rhs e : Expr Unit}
    (h : BinOpNode.create pos text lhs rhs heap = .ok (e, heap'))
    (hroots : Grows g heap.links (roots ++ [lhs.id, rhs.id]) shared) :
      Grows g heap'.links (roots ++ [e.id]) shared := by
  obtain ⟨op, _, hop, h⟩ := bind_ok_iff.mp h
  obtain rfl := mapOpType_same hop
  exact binOpNode_grows roots h hroots

theorem mapType_same {text : String} {t : ScalarType} (h : mapType text heap = .ok (t, heap')) : heap = heap' := by
  unfold mapType at h
  split at h
  all_goals first | exact (pure_ok_iff.mp h).2 | cases h

theorem visitType_same {t : TypeTree} {d : DeclTy} (h : visitType t heap = .ok (d, heap')) : heap = heap' := by
  obtain ⟨_, _, ht, h⟩ := bind_ok_iff.mp h
  obtain rfl := mapType_same ht
  exact (pure_ok_iff.mp h).2

theorem visitConst_grows {c : ConstTree} {e : Expr Unit} (h : visitConst c heap = .ok (e, heap'))
    (hg : Ordered heap.links) :
    Grows heap.links heap'.links [e.id] [] := by
  have hleaf {cls : NodeClass} {f : ASTNode → Expr Unit} (hcls : cls.children = []) (hf : ∀ node, (f node).id = node.id)
      (h : (do return f (← newNode c.token.pos cls) : Build (Expr Unit)) heap = .ok (e, heap')) :
      Grows heap.links heap'.links [e.id] [] := by
    obtain ⟨node, _, hn, h⟩ := bind_ok_iff.mp h
    obtain ⟨rfl, rfl⟩ := pure_ok_iff.mp h
    rw [hf]
    exact grows_leaf hn hcls hg
  cases c with
  | num t => exact numberNode_grows h hg
  | bool t =>
    rw [visitConst, BoolNode.create] at h
    split at h
    · exact hleaf rfl (fun _ => rfl) h
    · split at h
      · exact hleaf rfl (fun _ => rfl) h
      · cases h
  | char t => exact hleaf rfl (fun _ => rfl) h
  | string t => exact hleaf rfl (fun _ => rfl) h

end

/-- **A visit of an expression makes a tree** of new nodes. -/
theorem exprVisit_grows : (∀ (r : Rule) (d : ExprTree r) {heap heap' : NodeHeap} {e : Expr Unit}, d.visit heap = .ok (e, heap') →
      Ordered heap.links → Grows heap.links heap'.links [e.id] []) ∧
    ∀ (d : IdxTree) {heap heap' : NodeHeap} {es : List (Expr Unit)}, d.visit heap = .ok (es, heap') →
      Ordered heap.links →
      Grows heap.links heap'.links (es.map Expr.id) [] := by
  apply ExprTree.induct
  case one => exact fun _ _ ih _ _ _ => ih
  case more =>
    intro c init k op hop x ihinit ihx heap heap' e h hg
    obtain ⟨lhs, h₁, hl, h⟩ := bind_ok_iff.mp h
    obtain ⟨rhs, h₂, hr, h⟩ := bind_ok_iff.mp h
    have hinit := ihinit hl hg
    exact binOpCreate_grows [] h (hinit.trans (ihx hr hinit.ordered))
  case cmpOp =>
    intro l op r ihl ihr heap heap' e h hg
    obtain ⟨lhs, h₁, hl, h⟩ := bind_ok_iff.mp h
    obtain ⟨rhs, h₂, hr, h⟩ := bind_ok_iff.mp h
    have hlhs := ihl hl hg
    exact binOpCreate_grows [] h (hlhs.trans (ihr hr hlhs.ordered))
  case logicInnerExpr | innerExpr => exact fun _ _ _ ih _ _ _ => ih
  case expr => exact fun _ ih _ _ _ => ih
  case const => exact fun c _ _ _ => visitConst_grows
  case fIdent =>
    intro name heap heap' e h hg
    obtain ⟨n, _, hn, h⟩ := bind_ok_iff.mp h
    obtain ⟨rfl, rfl⟩ := pure_ok_iff.mp h
    exact identNode_grows hn hg
  case arrayLookup =>
    intro name idxs ih heap heap' e h hg
    obtain ⟨es, h₁, hidxs, h⟩ := bind_ok_iff.mp h
    obtain ⟨⟨node, i, es'⟩, h₂, hnew, h⟩ := bind_ok_iff.mp h
    obtain ⟨rfl, rfl⟩ := pure_ok_iff.mp h
    exact (arrLookupNode_grows [] hnew (ih hidxs hg)).2
  case arrayCreate =>
    intro t l len r ih heap heap' e h hg
    obtain ⟨elem, h₁, ht, h⟩ := bind_ok_iff.mp h
    obtain rfl := visitType_same ht
    obtain ⟨n, h₂, hlen, h⟩ := bind_ok_iff.mp h
    obtain ⟨node, h₃, hn, h⟩ := bind_ok_iff.mp h
    obtain ⟨rfl, rfl⟩ := pure_ok_iff.mp h
    exact Grows.node [] hn (ih hlen hg)
  case propertyLookup => exact fun _ _ _ _ _ _ => propertyLookupNode_grows
  case unaryMinus =>
    intro minus f ih heap heap' e h hg
    obtain ⟨f', h₁, hf, h⟩ := bind_ok_iff.mp h
    obtain ⟨num, h₂, hnum, h⟩ := bind_ok_iff.mp h
    have hoperand := ih hf hg
    have hboth := hoperand.trans (numberNode_grows hnum hoperand.ordered)
    exact binOpNode_grows [] h (hboth.of_perm (List.Perm.swap ..) (.refl _))
  case last =>
    intro l e r ih heap heap' es h hg
    obtain ⟨idx, _, he, h⟩ := bind_ok_iff.mp h
    obtain ⟨rfl, rfl⟩ := pure_ok_iff.mp h
    exact ih he hg
  case cons =>
    intro l e r rest ih ihrest heap heap' es h hg
    obtain ⟨idx, h₁, he, h⟩ := bind_ok_iff.mp h
    obtain ⟨idxs, h₂, hrest, h⟩ := bind_ok_iff.mp h
    obtain ⟨rfl, rfl⟩ := pure_ok_iff.mp h
    have hidx := ih he hg
    exact hidx.trans (ihrest hrest hidx.ordered)

/-! ## The nodes of an expression -/

mutual
def Expr.nodeIds : Expr Unit → List NodeId
  | .binOp node _ lhs rhs => node.id :: (lhs.nodeIds ++ rhs.nodeIds)
  | .arrLookup node i idxs => node.id :: i.node.id :: nodeIdsList idxs
  | .arrCreate node _ len => node.id :: len.nodeIds
  | .propertyLookup node i _ => [node.id, i.node.id]
  | .ident n => [n.node.id]
  | .char node _ | .string node _ | .number node _ | .bool node _ => [node.id]

def Expr.nodeIdsList : List (Expr Unit) → List NodeId
  | [] => []
  | e :: es => e.nodeIds ++ nodeIdsList es
end

mutual
/-- The nodes that `copy` comes to and does not copy. -/
def Expr.uncopied : Expr Unit → List NodeId
  | .binOp _ _ lhs rhs => lhs.uncopied ++ rhs.uncopied
  | .arrLookup _ _ idxs => uncopiedList idxs
  | .char node _ | .string node _ | .bool node _ | .arrCreate node _ _ => [node.id]
  | .number _ _ | .ident _ | .propertyLookup _ _ _ => []

def Expr.uncopiedList : List (Expr Unit) → List NodeId
  | [] => []
  | e :: es => e.uncopied ++ uncopiedList es
end

theorem uncopied_sublist (e : Expr Unit) : e.uncopied.Sublist e.nodeIds := by
  have hlist {es : List (Expr Unit)} (ih : ∀ e ∈ es, e.uncopied.Sublist e.nodeIds) :
      (Expr.uncopiedList es).Sublist (Expr.nodeIdsList es) := by
    induction es with
    | nil => exact .refl _
    | cons e es ihes =>
      rw [Expr.uncopiedList, Expr.nodeIdsList]
      obtain ⟨he, hes⟩ := List.forall_mem_cons.mp ih
      exact he.append (ihes hes)
  induction e with
  | binOp node op lhs rhs ihl ihr =>
    rw [Expr.uncopied, Expr.nodeIds]
    exact (ihl.append ihr).cons _
  | arrLookup node i idxs ih =>
    rw [Expr.uncopied, Expr.nodeIds]
    exact ((hlist ih).cons _).cons _
  | arrCreate node elem len =>
    rw [Expr.uncopied, Expr.nodeIds]
    exact (List.nil_sublist _).cons_cons _
  | char | string | bool => exact .refl _
  | _ => exact List.nil_sublist _

/-- Nodes made between two moments, each once. -/
structure Span (m n : Nat) (ids : List NodeId) : Prop where
  le : m ≤ n
  nodup : ids.Nodup
  bounds : ∀ i ∈ ids, m ≤ i ∧ i < n

namespace Span

variable {l m n : Nat} {ids ids' : List NodeId}

theorem nil (m : Nat) : Span m m [] := ⟨Nat.le_refl m, List.nodup_nil, by simp⟩

theorem trans (h : Span l m ids) (h' : Span m n ids') : Span l n (ids ++ ids') where
  le := h.le.trans h'.le
  nodup := by
    refine List.nodup_append.mpr ⟨h.nodup, h'.nodup, fun i hi j hj hij => ?_⟩
    exact absurd (h.bounds i hi).2 (Nat.not_lt.mpr (hij ▸ (h'.bounds j hj).1))
  bounds := by
    rw [List.forall_mem_append]
    exact ⟨fun i hi => ⟨(h.bounds i hi).1, (h.bounds i hi).2.trans_le h'.le⟩,
      fun i hi => ⟨h.le.trans (h'.bounds i hi).1, (h'.bounds i hi).2⟩⟩

theorem perm (h : Span m n ids) (hp : ids.Perm ids') : Span m n ids' :=
  ⟨h.le, hp.nodup_iff.mp h.nodup, fun i hi => h.bounds i (hp.mem_iff.mpr hi)⟩

theorem node {heap heap' : NodeHeap} {pos : Position} {cls : NodeClass} {node : ASTNode}
    (hn : newNode pos cls heap = .ok (node, heap')) (h : Span m heap.length ids) :
      Span m heap'.length (node.id :: ids) := by
  obtain ⟨rfl, rfl⟩ := newNode_ok_iff.mp hn
  have hnew : Span heap.length (heap ++ [(⟨cls, cls.children⟩ : NodeObj)]).length [heap.length] := by
    rw [List.length_append]
    exact ⟨Nat.le_succ _, List.nodup_singleton _, by simp⟩
  exact (h.trans hnew).perm List.perm_append_comm

end Span

section

variable {heap heap' : NodeHeap} {pos : Position} {m : Nat} {ids : List NodeId}

theorem identNode_span {name : String} {n : IdentNode Unit} (h : IdentNode.new pos name heap = .ok (n, heap'))
    (hs : Span m heap.length ids) : Span m heap'.length (n.node.id :: ids) := by
  obtain ⟨node, _, hn, h⟩ := bind_ok_iff.mp h
  obtain ⟨rfl, rfl⟩ := pure_ok_iff.mp h
  exact hs.node hn

theorem numberNode_span {num : BitVec 32} {e : Expr Unit} (h : NumberNode.new pos num heap = .ok (e, heap'))
    (hs : Span m heap.length ids) : Span m heap'.length (e.nodeIds ++ ids) := by
  obtain ⟨node, _, hn, h⟩ := bind_ok_iff.mp h
  obtain ⟨rfl, rfl⟩ := pure_ok_iff.mp h
  exact hs.node hn

theorem binOpNode_span {op : BinOpType} {lhs rhs e : Expr Unit} (h : BinOpNode.new pos op lhs rhs heap = .ok (e, heap'))
    (hs : Span m heap.length (lhs.nodeIds ++ rhs.nodeIds)) : Span m heap'.length e.nodeIds := by
  obtain ⟨node, _, hn, h⟩ := bind_ok_iff.mp h
  obtain ⟨rfl, rfl⟩ := pure_ok_iff.mp h
  exact hs.node hn

theorem binOpCreate_span {text : String} {lhs rhs e : Expr Unit}
    (h : BinOpNode.create pos text lhs rhs heap = .ok (e, heap'))
    (hs : Span m heap.length (lhs.nodeIds ++ rhs.nodeIds)) : Span m heap'.length e.nodeIds := by
  obtain ⟨op, _, hop, h⟩ := bind_ok_iff.mp h
  obtain rfl := mapOpType_same hop
  exact binOpNode_span h hs

theorem arrLookupNode_span {name : String} {idxs : List (Expr Unit)} {r : ASTNode × IdentNode Unit × List (Expr Unit)}
    (h : ArrLookupNode.new pos name idxs heap = .ok (r, heap')) (hs : Span m heap.length (Expr.nodeIdsList idxs)) :
    Span m heap'.length (Expr.arrLookup r.1 r.2.1 r.2.2).nodeIds := by
  obtain ⟨i, h₁, hi, h⟩ := bind_ok_iff.mp h
  obtain ⟨node, _, hn, h⟩ := bind_ok_iff.mp h
  obtain ⟨rfl, rfl⟩ := pure_ok_iff.mp h
  exact (identNode_span hi hs).node hn

theorem visitConst_span {c : ConstTree} {e : Expr Unit} (h : visitConst c heap = .ok (e, heap')) :
    Span heap.length heap'.length e.nodeIds := by
  have hleaf {cls : NodeClass} {f : ASTNode → Expr Unit} (hf : ∀ node, (f node).nodeIds = [node.id])
      (h : (do return f (← newNode c.token.pos cls) : Build (Expr Unit)) heap = .ok (e, heap')) :
      Span heap.length heap'.length e.nodeIds := by
    obtain ⟨node, _, hn, h⟩ := bind_ok_iff.mp h
    obtain ⟨rfl, rfl⟩ := pure_ok_iff.mp h
    rw [hf]
    exact (Span.nil _).node hn
  cases c with
  | num t =>
    have hs := numberNode_span h (Span.nil _)
    rwa [List.append_nil] at hs
  | bool t =>
    rw [visitConst, BoolNode.create] at h
    split at h
    · exact hleaf (fun _ => rfl) h
    · split at h
      · exact hleaf (fun _ => rfl) h
      · cases h
  | char t => exact hleaf (fun _ => rfl) h
  | string t => exact hleaf (fun _ => rfl) h

end

/-- The nodes of a visited expression are those made for it. -/
theorem exprVisit_span : (∀ (r : Rule) (d : ExprTree r) {heap heap' : NodeHeap} {e : Expr Unit}, d.visit heap = .ok (e, heap') →
      Span heap.length heap'.length e.nodeIds) ∧
    ∀ (d : IdxTree) {heap heap' : NodeHeap} {es : List (Expr Unit)}, d.visit heap = .ok (es, heap') →
      Span heap.length heap'.length (Expr.nodeIdsList es) := by
  apply ExprTree.induct
  case one => exact fun _ _ ih _ _ _ => ih
  case more =>
    intro c init k op hop x ihinit ihx heap heap' e h
    obtain ⟨lhs, h₁, hl, h⟩ := bind_ok_iff.mp h
    obtain ⟨rhs, h₂, hr, h⟩ := bind_ok_iff.mp h
    exact binOpCreate_span h ((ihinit hl).trans (ihx hr))
  case cmpOp =>
    intro l op r ihl ihr heap heap' e h
    obtain ⟨lhs, h₁, hl, h⟩ := bind_ok_iff.mp h
    obtain ⟨rhs, h₂, hr, h⟩ := bind_ok_iff.mp h
    exact binOpCreate_span h ((ihl hl).trans (ihr hr))
  case logicInnerExpr | innerExpr => exact fun _ _ _ ih _ _ _ => ih
  case expr => exact fun _ ih _ _ _ => ih
  case const => exact fun c _ _ _ => visitConst_span
  case fIdent =>
    intro name heap heap' e h
    obtain ⟨n, _, hn, h⟩ := bind_ok_iff.mp h
    obtain ⟨rfl, rfl⟩ := pure_ok_iff.mp h
    exact identNode_span hn (Span.nil _)
  case arrayLookup =>
    intro name idxs ih heap heap' e h
    obtain ⟨es, h₁, hidxs, h⟩ := bind_ok_iff.mp h
    obtain ⟨⟨node, i, es'⟩, h₂, hnew, h⟩ := bind_ok_iff.mp h
    obtain ⟨rfl, rfl⟩ := pure_ok_iff.mp h
    exact arrLookupNode_span hnew (ih hidxs)
  case arrayCreate =>
    intro t l len r ih heap heap' e h
    obtain ⟨elem, h₁, ht, h⟩ := bind_ok_iff.mp h
    obtain rfl := visitType_same ht
    obtain ⟨n, h₂, hlen, h⟩ := bind_ok_iff.mp h
    obtain ⟨node, h₃, hn, h⟩ := bind_ok_iff.mp h
    obtain ⟨rfl, rfl⟩ := pure_ok_iff.mp h
    exact (ih hlen).node hn
  case propertyLookup =>
    intro name dot property heap heap' e h
    obtain ⟨i, h₁, hi, h⟩ := bind_ok_iff.mp h
    obtain ⟨node, _, hn, h⟩ := bind_ok_iff.mp h
    obtain ⟨rfl, rfl⟩ := pure_ok_iff.mp h
    exact (identNode_span hi (Span.nil _)).node hn
  case unaryMinus =>
    intro minus f ih heap heap' e h
    obtain ⟨f', h₁, hf, h⟩ := bind_ok_iff.mp h
    obtain ⟨num, h₂, hnum, h⟩ := bind_ok_iff.mp h
    exact binOpNode_span h (numberNode_span hnum (ih hf))
  case last =>
    intro l e r ih heap heap' es h
    obtain ⟨idx, _, he, h⟩ := bind_ok_iff.mp h
    obtain ⟨rfl, rfl⟩ := pure_ok_iff.mp h
    rw [Expr.nodeIdsList, Expr.nodeIdsList, List.append_nil]
    exact ih he
  case cons =>
    intro l e r rest ih ihrest heap heap' es h
    obtain ⟨idx, h₁, he, h⟩ := bind_ok_iff.mp h
    obtain ⟨idxs, h₂, hrest, h⟩ := bind_ok_iff.mp h
    obtain ⟨rfl, rfl⟩ := pure_ok_iff.mp h
    exact (ih he).trans (ihrest hrest)

/-! ## Copies -/

/-- New nodes below `roots`, and nothing else exactly if `whole`. -/
def Makes (heap heap' : NodeHeap) (roots : List NodeId) (whole : Prop) : Prop :=
  ∃ shared, Grows heap.links heap'.links roots shared ∧ (shared = [] ↔ whole)

namespace Makes

variable {heap heap' heap'' : NodeHeap} {roots roots' : List NodeId} {whole whole' : Prop}

theorem of_grows (h : Grows heap.links heap'.links roots []) : Makes heap heap' roots True :=
  ⟨[], h, iff_true_intro rfl⟩

theorem nil (hg : Ordered heap.links) : Makes heap heap [] True := of_grows (.refl hg)

theorem ordered (h : Makes heap heap' roots whole) : Ordered heap'.links := by
  obtain ⟨_, h, -⟩ := h
  exact h.ordered

theorem length_le (h : Makes heap heap' roots whole) : heap.length ≤ heap'.length := by
  obtain ⟨_, h, -⟩ := h
  have := h.length_le
  rwa [links_length, links_length] at this

theorem congr (h : Makes heap heap' roots whole) (hw : whole ↔ whole') : Makes heap heap' roots whole' := by
  obtain ⟨shared, h, hs⟩ := h
  exact ⟨shared, h, hs.trans hw⟩

theorem of_perm (h : Makes heap heap' roots whole) (hp : roots.Perm roots') : Makes heap heap' roots' whole := by
  obtain ⟨shared, h, hs⟩ := h
  exact ⟨shared, h.of_perm hp (.refl _), hs⟩

theorem trans (h : Makes heap heap' roots whole) (h' : Makes heap' heap'' roots' whole') :
    Makes heap heap'' (roots ++ roots') (whole ∧ whole') := by
  obtain ⟨shared, h, hs⟩ := h
  obtain ⟨shared', h', hs'⟩ := h'
  exact ⟨_, h.trans h', List.append_eq_nil_iff.trans (and_congr hs hs')⟩

theorem node (roots : List NodeId) {pos : Position} {cls : NodeClass} {node : ASTNode}
    (hn : newNode pos cls heap' = .ok (node, heap''))
    (h : Makes heap heap' (roots ++ cls.children.reduceOption) whole) :
      Makes heap heap'' (roots ++ [node.id]) whole := by
  obtain ⟨shared, h, hs⟩ := h
  exact ⟨shared, Grows.node roots hn h, hs⟩

end Makes

theorem binOpNode_makes (roots : List NodeId) {heap heap' heap'' : NodeHeap} {whole : Prop} {pos : Position}
    {op : BinOpType}
    {lhs rhs e : Expr Unit} (h : BinOpNode.new pos op lhs rhs heap' = .ok (e, heap''))
    (hroots : Makes heap heap' (roots ++ [lhs.id, rhs.id]) whole) : Makes heap heap'' (roots ++ [e.id]) whole := by
  obtain ⟨shared, hroots, hs⟩ := hroots
  exact ⟨shared, binOpNode_grows roots h hroots, hs⟩

/-- What is returned and not copied. -/
theorem old_makes {heap : NodeHeap} {id : NodeId} (hid : id < heap.length) (hg : Ordered heap.links) :
    Makes heap heap [id] ([id] = []) := by
  refine ⟨_, Grows.old hg (by rwa [links_length]), ?_⟩
  refine iff_of_false (fun hnil => ?_) (List.cons_ne_nil _ _)
  have hself := mem_below_self heap.links id
  rw [hnil] at hself
  cases hself

/-- **A copy is disjoint from what it copies** exactly if the copying comes to nothing that is not copied. -/
theorem copy_makes (e : Expr Unit) : ∀ {heap heap' : NodeHeap} {c : Expr Unit}, e.copy heap = .ok (c, heap') →
    Ordered heap.links → (∀ i ∈ e.uncopied, i < heap.length) → Makes heap heap' [c.id] (e.uncopied = []) := by
  have hlist {es : List (Expr Unit)} (ih : ∀ e ∈ es, ∀ {heap heap' : NodeHeap} {c : Expr Unit}, e.copy heap = .ok (c, heap') →
      Ordered heap.links → (∀ i ∈ e.uncopied, i < heap.length) → Makes heap heap' [c.id] (e.uncopied = [])) :
      ∀ {heap heap' : NodeHeap} {cs : List (Expr Unit)}, Expr.copyIdxs es heap = .ok (cs, heap') → Ordered heap.links →
        (∀ i ∈ Expr.uncopiedList es, i < heap.length) →
          Makes heap heap' (cs.map Expr.id) (Expr.uncopiedList es = []) := by
    induction es with
    | nil =>
      intro heap heap' cs h hg _
      obtain ⟨rfl, rfl⟩ := pure_ok_iff.mp h
      exact (Makes.nil hg).congr (iff_of_true trivial rfl)
    | cons e es ihes =>
      intro heap heap' cs h hg hlt
      obtain ⟨c, h₁, hc, h⟩ := bind_ok_iff.mp h
      obtain ⟨cs', h₂, hcs, h⟩ := bind_ok_iff.mp h
      obtain ⟨rfl, rfl⟩ := pure_ok_iff.mp h
      obtain ⟨hlt, hlts⟩ := List.forall_mem_append.mp hlt
      obtain ⟨ihe, ihrest⟩ := List.forall_mem_cons.mp ih
      have hhead := ihe hc hg hlt
      have hrest := ihes ihrest hcs hhead.ordered fun i hi => (hlts i hi).trans_le hhead.length_le
      exact (hhead.trans hrest).congr List.append_eq_nil_iff.symm
  induction e with
  | number node num =>
    intro heap heap' c h hg _
    exact (Makes.of_grows (numberNode_grows h hg)).congr (iff_of_true trivial rfl)
  | ident n =>
    intro heap heap' c h hg _
    obtain ⟨i, _, hi, h⟩ := bind_ok_iff.mp h
    obtain ⟨rfl, rfl⟩ := pure_ok_iff.mp h
    exact (Makes.of_grows (identNode_grows hi hg)).congr (iff_of_true trivial rfl)
  | propertyLookup node n prop =>
    intro heap heap' c h hg _
    exact (Makes.of_grows (propertyLookupNode_grows h hg)).congr (iff_of_true trivial rfl)
  | binOp node op lhs rhs ihl ihr =>
    intro heap heap' c h hg hlt
    obtain ⟨l, h₁, hl, h⟩ := bind_ok_iff.mp h
    obtain ⟨r, h₂, hr, h⟩ := bind_ok_iff.mp h
    obtain ⟨hltl, hltr⟩ := List.forall_mem_append.mp hlt
    have hlhs := ihl hl hg hltl
    have hrhs := ihr hr hlhs.ordered fun i hi => (hltr i hi).trans_le hlhs.length_le
    exact binOpNode_makes [] h ((hlhs.trans hrhs).congr List.append_eq_nil_iff.symm)
  | arrLookup node n idxs ih =>
    intro heap heap' c h hg hlt
    obtain ⟨cs, h₁, hcs, h⟩ := bind_ok_iff.mp h
    obtain ⟨⟨node', n', cs'⟩, h₂, hnew, h⟩ := bind_ok_iff.mp h
    obtain ⟨rfl, rfl⟩ := pure_ok_iff.mp h
    obtain ⟨shared, hmade, hs⟩ := hlist ih hcs hg hlt
    exact ⟨shared, (arrLookupNode_grows [] hnew hmade).2, hs⟩
  | _ =>
    intro heap heap' c h hg hlt
    obtain ⟨rfl, rfl⟩ := pure_ok_iff.mp h
    exact old_makes (hlt _ (List.mem_singleton_self _)) hg

/-! ## What is not copied -/

/-- The tokens of what `copy` does not copy. -/
def TokenKind.uncopied : TokenKind → Bool
  | .char | .string | .bool | .scalarType => true
  | _ => false

/-- Whether a copy comes to such nodes can be told from the tokens. -/
theorem exprVisit_uncopied : (∀ (r : Rule) (d : ExprTree r) {heap heap' : NodeHeap} {e : Expr Unit}, d.visit heap = .ok (e, heap') →
      (e.uncopied = [] ↔ ∀ tok ∈ d.yield, tok.kind.uncopied = false)) ∧
    ∀ (d : IdxTree) {heap heap' : NodeHeap} {es : List (Expr Unit)}, d.visit heap = .ok (es, heap') →
      (Expr.uncopiedList es = [] ↔ ∀ tok ∈ d.yield, tok.kind.uncopied = false) := by
  have hnew {pos : Position} {op : BinOpType} {lhs rhs e : Expr Unit} {heap heap' : NodeHeap}
      (h : BinOpNode.new pos op lhs rhs heap = .ok (e, heap')) : e.uncopied = lhs.uncopied ++ rhs.uncopied := by
    obtain ⟨node, _, hn, h⟩ := bind_ok_iff.mp h
    obtain ⟨rfl, rfl⟩ := pure_ok_iff.mp h
    rfl
  have hcreate {pos : Position} {text : String} {lhs rhs e : Expr Unit} {heap heap' : NodeHeap}
      (h : BinOpNode.create pos text lhs rhs heap = .ok (e, heap')) : e.uncopied = lhs.uncopied ++ rhs.uncopied := by
    obtain ⟨op, _, -, h⟩ := bind_ok_iff.mp h
    exact hnew h
  have hop {c : Chain} {k : TokenKind} (h : k ∈ c.ops) : k.uncopied = false := by
    cases c <;> simp only [Chain.ops, List.mem_cons, List.not_mem_nil,
      or_false] at h <;> (rcases h with rfl | rfl) <;> rfl
  apply ExprTree.induct
  case one => exact fun _ _ ih _ _ _ => ih
  case more =>
    intro c init k op hk x ihinit ihx heap heap' e h
    obtain ⟨lhs, h₁, hl, h⟩ := bind_ok_iff.mp h
    obtain ⟨rhs, h₂, hr, h⟩ := bind_ok_iff.mp h
    rw [hcreate h, List.append_eq_nil_iff, ihinit hl, ihx hr, ExprTree.yield, List.forall_mem_append,
      List.forall_mem_cons]
    exact and_congr_right fun _ => (and_iff_right (hop hk)).symm
  case cmpOp =>
    intro l op r ihl ihr heap heap' e h
    obtain ⟨lhs, h₁, hl, h⟩ := bind_ok_iff.mp h
    obtain ⟨rhs, h₂, hr, h⟩ := bind_ok_iff.mp h
    rw [hcreate h, List.append_eq_nil_iff, ihl hl, ihr hr, ExprTree.yield, List.forall_mem_append, List.forall_mem_cons]
    exact and_congr_right fun _ => (and_iff_right (rfl)).symm
  case logicInnerExpr | innerExpr =>
    intro l e r ih heap heap' e' h
    rw [ih h, ExprTree.yield, List.forall_mem_cons, List.forall_mem_append, List.forall_mem_singleton]
    exact ⟨fun h => ⟨rfl, h, rfl⟩, fun h => h.2.1⟩
  case expr => exact fun _ ih _ _ _ => ih
  case const =>
    intro c heap heap' e h
    have hleaf {cls : NodeClass} {f : ASTNode → Expr Unit} {p : Prop}
        (h : (do return f (← newNode c.token.pos cls) : Build (Expr Unit)) heap = .ok (e, heap'))
        (hf : ∀ node, (f node).uncopied = [] ↔ p) : e.uncopied = [] ↔ p := by
      obtain ⟨node, _, hn, h⟩ := bind_ok_iff.mp h
      obtain ⟨rfl, rfl⟩ := pure_ok_iff.mp h
      exact hf node
    rw [ExprTree.yield, List.forall_mem_singleton]
    cases c with
    | num t => exact hleaf h fun _ => iff_of_true rfl rfl
    | bool t =>
      rw [ExprTree.visit, visitConst, BoolNode.create] at h
      split at h
      · exact hleaf h fun _ => iff_of_false (List.cons_ne_nil _ _) Bool.noConfusion
      · split at h
        · exact hleaf h fun _ => iff_of_false (List.cons_ne_nil _ _) Bool.noConfusion
        · cases h
    | char t => exact hleaf h fun _ => iff_of_false (List.cons_ne_nil _ _) Bool.noConfusion
    | string t => exact hleaf h fun _ => iff_of_false (List.cons_ne_nil _ _) Bool.noConfusion
  case fIdent =>
    intro name heap heap' e h
    obtain ⟨n, _, -, h⟩ := bind_ok_iff.mp h
    obtain ⟨rfl, -⟩ := pure_ok_iff.mp h
    rw [ExprTree.yield, List.forall_mem_singleton]
    exact iff_of_true rfl (rfl)
  case arrayLookup =>
    intro name idxs ih heap heap' e h
    obtain ⟨es, h₁, hidxs, h⟩ := bind_ok_iff.mp h
    obtain ⟨r, h₂, hl, h⟩ := bind_ok_iff.mp h
    obtain ⟨rfl, rfl⟩ := pure_ok_iff.mp h
    obtain ⟨i, _, -, hl⟩ := bind_ok_iff.mp hl
    obtain ⟨node, _, -, hl⟩ := bind_ok_iff.mp hl
    obtain ⟨rfl, -⟩ := pure_ok_iff.mp hl
    rw [ExprTree.yield, List.forall_mem_cons]
    exact (ih hidxs).trans (and_iff_right (rfl)).symm
  case arrayCreate =>
    intro t l len r ih heap heap' e h
    obtain ⟨elem, h₁, ht, h⟩ := bind_ok_iff.mp h
    obtain ⟨n, h₂, hlen, h⟩ := bind_ok_iff.mp h
    obtain ⟨node, h₃, hn, h⟩ := bind_ok_iff.mp h
    obtain ⟨rfl, rfl⟩ := pure_ok_iff.mp h
    refine iff_of_false (List.cons_ne_nil _ _) fun hall => ?_
    exact Bool.noConfusion (hall t.scalar.token (List.mem_cons_self ..))
  case propertyLookup =>
    intro name dot property heap heap' e h
    obtain ⟨i, _, -, h⟩ := bind_ok_iff.mp h
    obtain ⟨node, _, -, h⟩ := bind_ok_iff.mp h
    obtain ⟨rfl, -⟩ := pure_ok_iff.mp h
    refine iff_of_true rfl ?_
    simp only [ExprTree.yield, List.forall_mem_cons]
    exact ⟨rfl, rfl, rfl, List.forall_mem_nil _⟩
  case unaryMinus =>
    intro minus f ih heap heap' e h
    obtain ⟨f', h₁, hf, h⟩ := bind_ok_iff.mp h
    obtain ⟨num, h₂, hnum, h⟩ := bind_ok_iff.mp h
    obtain ⟨node, _, -, hnum⟩ := bind_ok_iff.mp hnum
    obtain ⟨rfl, -⟩ := pure_ok_iff.mp hnum
    rw [hnew h, ExprTree.yield, List.forall_mem_cons]
    exact (ih hf).trans (and_iff_right (rfl)).symm
  case last =>
    intro l e r ih heap heap' es h
    obtain ⟨idx, _, he, h⟩ := bind_ok_iff.mp h
    obtain ⟨rfl, rfl⟩ := pure_ok_iff.mp h
    rw [Expr.uncopiedList, Expr.uncopiedList, List.append_nil, ih he, IdxTree.yield, List.forall_mem_cons,
      List.forall_mem_append,
      List.forall_mem_singleton]
    exact ⟨fun h => ⟨rfl, h, rfl⟩, fun h => h.2.1⟩
  case cons =>
    intro l e r rest ih ihrest heap heap' es h
    obtain ⟨idx, h₁, he, h⟩ := bind_ok_iff.mp h
    obtain ⟨idxs, h₂, hrest, h⟩ := bind_ok_iff.mp h
    obtain ⟨rfl, rfl⟩ := pure_ok_iff.mp h
    rw [Expr.uncopiedList, List.append_eq_nil_iff, ih he, ihrest hrest, IdxTree.yield, List.forall_mem_cons,
      List.forall_mem_append,
      List.forall_mem_cons]
    exact ⟨fun h => ⟨rfl, h.1, rfl, h.2⟩, fun h => ⟨h.2.1, h.2.2.2⟩⟩

end DGen
