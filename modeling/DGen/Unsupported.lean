/-
Which formulas there is a translation for.

The checker compares types, and lets operands of any type be compared; the
translation has cases for numbers, characters and truth values, and throws
where it comes to anything else. That can be told from the sorts alone, in the
order of the translation (`genFormulas_sorted`, `genFormulas_meets`).
-/
import DGen.Arrays
import DGen.Laziness
import DGen.Scoping

namespace DGen

open Memory StateT

/-! ## Sorts of translations -/

/-- What is thrown where a translation has no case. -/
def Fault.Unsupported (e : Fault) : Prop :=
  e = .thrown "gen expr on wrong ast node" ∨ e = .thrown "get expr on invalid expr" ∨
    ∃ t : Ty, e = .thrown ("unexpected type on gen_expr: " ++ t.toString)

/-- Why an expression has no sort: there is no case for an operand, Z3 takes no
operands of their sorts, or a lookup has no indices. -/
inductive Refusal
  | unsupported | assertion | undefined
  deriving DecidableEq, Repr

/-- The sort of a value, for the types that `get_expr` and `get_expr_from_void` have cases for. -/
def Ty.zsort (t : Ty) : Except Refusal ZSort :=
  match t.getCurrentType with
  | .int | .char => .ok .int
  | .bool => .ok .bool
  | _ => .error .unsupported

def BinOpType.zsortOf (op : BinOpType) (s t : ZSort) : Except Refusal ZSort :=
  if op.zargs s t then .ok op.zsort else .error .assertion

/-- The sort of an expression's translation, its operands in the order of `gen_expr`. -/
def Expr.zsort : Expr Symbol → Except Refusal ZSort
  | .bool _ _ => .ok .bool
  | .char _ _ | .number _ _ | .propertyLookup _ _ _ => .ok .int
  | .ident n => n.symbol.type.toTy.zsort
  | .arrLookup node n idxs =>
    if n.symbol.isInput && idxs.isEmpty then .error .undefined
    else ((Expr.arrLookup node n idxs).getType.mapError fun _ => .undefined) >>= Ty.zsort
  | .binOp _ op lhs rhs => do
    let s ← lhs.zsort
    let t ← rhs.zsort
    op.zsortOf s t
  | .string _ _ | .arrCreate _ _ _ => .error .unsupported

/-- Whether the formulas of `start_z3_gen` have sorts: that of the condition, then that of the precondition. -/
def formulaSorts (cond : Expr Symbol) (precond : PrecondNode Symbol) : Except Refusal Unit := do
  let _ ← cond.zsort
  match precond.expr with
  | none => return ()
  | some e => do
    let _ ← e.zsort
    return ()

/-- A lookup has as many current indices as it has indices, or none if nothing has set them. -/
def World.Indexed (w : World) : Expr Symbol → Prop
  | .arrLookup node _ idxs => w.ctx.currentIdxs node.id = [] ∨ (w.ctx.currentIdxs node.id).length = idxs.length
  | _ => True

theorem World.Indexed.congr {w w' : World} {x : Expr Symbol} (h : w.Indexed x) (hctx : w'.ctx = w.ctx) :
    w'.Indexed x := by
  cases x with
  | arrLookup =>
    rw [Indexed, hctx]
    exact h
  | _ => trivial

/-- The operands of a condition and of its precondition. -/
def formulaLeaves (cond : Expr Symbol) (precond : PrecondNode Symbol) : List (Expr Symbol) :=
  cond.leaves ++ precond.expr.toList.flatMap Expr.leaves

/-! ## What a translation gives -/

/-- A translation is of the sort that was told, and throws for want of a case only where that was told. -/
def Sorted (r : Except Refusal ZSort) (res : Except Fault (ZExpr × World)) : Prop :=
  (∀ z w', res = .ok (z, w') → r = .ok z.sort) ∧ ∀ e, res = .error e → e.Unsupported → r = .error .unsupported

theorem not_unsupported_undefined : ¬ Fault.undefined.Unsupported := by
  rintro (h | h | ⟨_, h⟩) <;> cases h

theorem not_unsupported_assertion : ¬ Fault.assertion.Unsupported := by
  rintro (h | h | ⟨_, h⟩) <;> cases h

theorem not_unsupported_outOfBounds : ¬ (Fault.thrown "out of bounds").Unsupported := by
  rintro (h | h | ⟨t, h⟩)
  · exact absurd (Fault.thrown.inj h) (by decide)
  · exact absurd (Fault.thrown.inj h) (by decide)
  · have hhead := congrArg (fun s : String => s.toList.head?) (Fault.thrown.inj h)
    simp at hhead

theorem OnlyUndefined.not_unsupported {α : Type} {x : M α} (hx : OnlyUndefined x) {w : World} {e : Fault}
    (h : x w = .error e) : ¬ e.Unsupported := by
  obtain rfl := hx h
  exact not_unsupported_undefined

theorem getElem_error {arr : SymId} {idx : BitVec 32} {w : World} {e : Fault} (h : getElem arr idx w = .error e) :
    ¬ e.Unsupported := by
  obtain h | ⟨size, w₁, -, h⟩ := bind_error_iff.mp h
  · exact OnlyUndefined.getSize.not_unsupported h
  · split at h
    · cases h
      exact not_unsupported_outOfBounds
    · obtain h | ⟨⟨name, val⟩, w₂, -, h⟩ := bind_error_iff.mp h
      · exact OnlyUndefined.getSym.not_unsupported h
      · cases val with
        | array type s elems =>
          dsimp only at h
          split at h
          · exact OnlyUndefined.fault.not_unsupported h
          · exact OnlyUndefined.ofOption.not_unsupported h
        | _ => exact OnlyUndefined.fault.not_unsupported h

theorem getSymbolByIdxs_error {idxs : List (BitVec 32)} : ∀ {arr : SymId} {w : World} {e : Fault},
    getSymbolByIdxs arr idxs w = .error e → ¬ e.Unsupported := by
  induction idxs with
  | nil => exact fun h => OnlyUndefined.fault.not_unsupported h
  | cons idx idxs ih =>
    intro arr w e h
    cases idxs with
    | nil => exact getElem_error h
    | cons idx' idxs =>
      obtain h | ⟨sub, w₁, -, h⟩ := bind_error_iff.mp h
      · exact getElem_error h
      · exact ih h

section

variable {α : Type} {w : World} {r : Except Refusal ZSort}

theorem Sorted.fault {e : Fault} (h : ¬ e.Unsupported) : Sorted r ((DGen.fault e : M ZExpr) w) := by
  refine ⟨fun _ _ hok => by simp at hok, fun e' he hun => ?_⟩
  cases he
  exact absurd hun h

theorem Sorted.thrown {e : Fault} : Sorted (.error .unsupported) ((DGen.fault e : M ZExpr) w) :=
  ⟨fun _ _ hok => by simp at hok, fun _ _ _ => rfl⟩

theorem Sorted.pure {z : ZExpr} (h : r = .ok z.sort) : Sorted r ((pure z : M ZExpr) w) := by
  refine ⟨fun _ _ hok => ?_, fun _ he => by cases he⟩
  obtain ⟨rfl, -⟩ := pure_ok_iff.mp hok
  exact h

/-- A part that reads, and then what is made of it. -/
theorem Sorted.bind {x : M α} {f : α → M ZExpr} (hx : ∀ e, x w = .error e → ¬ e.Unsupported)
    (hf : ∀ a w₁, x w = .ok (a, w₁) → Sorted r (f a w₁)) : Sorted r ((x >>= f) w) := by
  constructor
  · intro z w' h
    obtain ⟨a, w₁, h₁, h₂⟩ := bind_ok_iff.mp h
    exact (hf a w₁ h₁).1 z w' h₂
  · intro e h hun
    obtain h | ⟨a, w₁, h₁, h₂⟩ := bind_error_iff.mp h
    · exact absurd hun (hx e h)
    · exact (hf a w₁ h₁).2 e h₂ hun

/-- `get_expr_from_void` has the sort of the type. -/
theorem getExprFromVoid_sorted {ptr : Option Ptr} {t : Ty} : Sorted t.zsort (getExprFromVoid ptr t w) := by
  have hload : ∀ {c : Chunk} {f : Val → M ZExpr}, (∀ v w₁, Sorted t.zsort (f v w₁)) →
      Sorted t.zsort ((do f (← loadMem c (← ofOption .undefined ptr))) w) := fun hf =>
    .bind (fun _ => OnlyUndefined.ofOption.not_unsupported) fun _ _ _ =>
      .bind (fun _ => OnlyUndefined.loadMem.not_unsupported) fun v w₁ _ => hf v w₁
  have hundef {w₁ : World} : Sorted t.zsort ((DGen.fault .undefined : M ZExpr) w₁) := .fault not_unsupported_undefined
  rw [getExprFromVoid]
  cases ht : t.getCurrentType with
  | int | char | bool =>
    refine hload fun v w₁ => ?_
    cases v <;> first | exact hundef | exact .pure (by rw [Ty.zsort, ht]; rfl)
  | _ =>
    have hnone : t.zsort = .error .unsupported := by rw [Ty.zsort, ht]
    rw [hnone]
    exact .thrown

/-- `get_expr` has the sort of the type that its symbol is of the class of. -/
theorem getExpr_sorted {o : SymObj} {t : DeclTy} (h : o.val.cls = t.newSym) : Sorted t.toTy.zsort (o.getExpr w) := by
  obtain ⟨name, val⟩ := o
  obtain ⟨s, n⟩ := t
  cases n with
  | zero =>
    cases s with
    | int =>
      obtain ⟨num, rfl⟩ := cls_eq_number h
      cases num <;> exact .pure rfl
    | char =>
      obtain ⟨ch, rfl⟩ := cls_eq_char h
      cases ch <;> exact .pure rfl
    | bool =>
      obtain ⟨b, rfl⟩ := cls_eq_bool h
      cases b <;> exact .pure rfl
    | string =>
      obtain ⟨size, elems, rfl⟩ := cls_eq_array h
      exact Sorted.thrown (w := w)
  | succ n =>
    rw [DeclTy.newSym_succ] at h
    obtain ⟨size, elems, rfl⟩ := cls_eq_array h
    exact Sorted.thrown (w := w)

end

/-! ## What a translation leaves -/

/-- Each number drawn is 1, and so is each length that was. -/
def World.Ones (w : World) : Prop :=
  (∀ i, w.rand i = 1) ∧ ∀ (j : Nat) name type n elems, w.syms j = some ⟨name, .array type (some n) elems⟩ → n = 1

/-- Memory and what `prepare_eval_ctx` has set are the same, and lengths stay 1. -/
structure World.Reads (w w' : World) : Prop where
  ctx : w'.ctx = w.ctx
  mem : w'.mem = w.mem
  ones : w.Ones → w'.Ones

/-- Every run of `x` reads. -/
def ReadsOnly {α : Type} (x : M α) : Prop := ∀ ⦃w a w'⦄, x w = .ok (a, w') → w.Reads w'

namespace ReadsOnly

variable {α β : Type} {x : M α}

theorem bind {f : α → M β} (hx : ReadsOnly x) (hf : ∀ a, ReadsOnly (f a)) : ReadsOnly (x >>= f) := by
  intro w b w' h
  obtain ⟨a, w₁, h₁, h₂⟩ := bind_ok_iff.mp h
  have hr := hx h₁
  have hr' := hf a h₂
  exact ⟨hr'.ctx.trans hr.ctx, hr'.mem.trans hr.mem, fun h => hr'.ones (hr.ones h)⟩

theorem read (h : ∀ {w a w'}, x w = .ok (a, w') → w = w') : ReadsOnly x := fun _ _ _ hx => by
  obtain rfl := h hx
  exact ⟨rfl, rfl, id⟩

theorem pure {a : α} : ReadsOnly (pure a : M α) := read fun h => (pure_ok_iff.mp h).2

theorem fault {e : Fault} : ReadsOnly (DGen.fault e : M α) := read fun h => by simp at h

theorem ofOption {f : Fault} {o : Option α} : ReadsOnly (ofOption f o) := read fun h => (ofOption_ok_iff.mp h).2

theorem getSym {id : SymId} : ReadsOnly (getSym id) := read fun h => (getSym_ok_iff.mp h).2

theorem inputId {r : SymRef} : ReadsOnly (inputId r) := read fun h => (inputId_ok_iff.mp h).2

theorem get : ReadsOnly (get : M World) := read fun h => (get_ok_iff.mp h).2

theorem record {sym : SymId} {e : ZExpr} : ReadsOnly (record sym e) := by
  intro w a w' h
  obtain rfl := modify_ok_iff.mp h
  exact ⟨rfl, rfl, id⟩

theorem getAlloc {p : Ptr} : ReadsOnly (getAlloc p) := by
  intro w d w' h
  unfold DGen.getAlloc at h
  split at h <;> cases h <;> exact ⟨rfl, rfl, id⟩

theorem getSize {arr : SymId} : ReadsOnly (getSize arr) := by
  intro w size w' h
  obtain ⟨name, type, s, elems, ho, ⟨-, rfl⟩ | ⟨-, rfl, rfl⟩⟩ := getSize_ok_iff.mp h
  · exact ⟨rfl, rfl, id⟩
  · refine ⟨rfl, rfl, fun hones => ⟨fun i => hones.1 (i + 1), fun j name' type' n elems' hj => ?_⟩⟩
    obtain ⟨-, hnew⟩ | ⟨-, -, hnew⟩ | ⟨-, hold⟩ := World.rebuild_some hj
    · cases hnew
      rw [hones.1 0]
      rfl
    · have hval := congrArg SymObj.val hnew
      obtain h | h | h | ⟨_, h⟩ := type.elem.newSym_cases <;> cases h.symm.trans hval.symm
    · exact hones.2 j name' type' n elems' hold

theorem getElem {arr : SymId} {idx : BitVec 32} : ReadsOnly (getElem arr idx) := by
  refine getSize.bind fun size => ?_
  split
  · exact fault
  · refine getSym.bind fun o => ?_
    split
    · split
      · exact fault
      · exact ofOption
    · exact fault

theorem getSymbolByIdxs : ∀ {idxs : List (BitVec 32)} {arr : SymId}, ReadsOnly (getSymbolByIdxs arr idxs)
  | [], _ => fault
  | [_], _ => getElem
  | _ :: _ :: _, _ => getElem.bind fun _ => getSymbolByIdxs

/-- A name is set. -/
theorem rename {id : SymId} {name : String} {o : SymObj} {w w' : World} (ho : w.syms id = some o)
    (h : setSym id { o with name } w = .ok ((), w')) : w.Reads w' := by
  obtain rfl := setSym_ok_iff.mp h
  refine ⟨rfl, rfl, fun hones => ⟨hones.1, fun j name' type n elems hj => ?_⟩⟩
  by_cases hjid : j = id
  · subst hjid
    rw [World.setSym_self] at hj
    obtain ⟨name₀, val⟩ := o
    cases hj
    exact hones.2 j name₀ type n elems ho
  · exact hones.2 j name' type n elems ((World.setSym_of_ne _ _ hjid).symm.trans hj)

theorem getExpr {o : SymObj} : ReadsOnly o.getExpr := by
  obtain ⟨name, val⟩ := o
  rcases val with (_ | _) | (_ | _) | (_ | _) | _ <;> first | exact pure | exact fault

theorem genSymExpr {sym : SymId} : ReadsOnly (genSymExpr sym) := by
  refine getSym.bind fun o => getExpr.bind fun expr => ?_
  split
  · exact record.bind fun _ => pure
  · exact pure

theorem genArrLookup {node : ASTNode} {n : IdentNode Symbol} {idxs : List (Expr Symbol)} :
    ReadsOnly (genArrLookup node n idxs) := by
  rw [DGen.genArrLookup]
  split
  · refine inputId.bind fun arr => get.bind fun w => getSymbolByIdxs.bind fun indexed => getSym.bind fun o => ?_
    intro w₁ z w' h
    obtain ⟨o', _, ho', h⟩ := bind_ok_iff.mp h
    obtain ⟨hindexed, rfl⟩ := getSym_ok_iff.mp ho'
    obtain ⟨_, w₂, hset, h⟩ := bind_ok_iff.mp h
    have hr := rename hindexed hset
    have hr' := genSymExpr h
    exact ⟨hr'.ctx.trans hr.ctx, hr'.mem.trans hr.mem, fun h => hr'.ones (hr.ones h)⟩
  · refine get.bind fun w => ?_
    split
    · exact read getExprFromVoid_ok
    · exact fault

theorem genPropertyLookup {n : IdentNode Symbol} : ReadsOnly (genPropertyLookup n) := by
  rw [DGen.genPropertyLookup]
  split
  · refine inputId.bind fun id => getSym.bind fun o => ?_
    split
    · exact pure
    · exact record.bind fun _ => pure
    · exact fault
  · refine get.bind fun w => ofOption.bind fun p => (read fun h => (loadMem_ok_iff.mp h).2).bind fun v => ?_
    split
    · exact getAlloc.bind fun _ => pure
    · exact fault

/-- A translation changes neither memory nor what was prepared for it. -/
theorem genExpr (e : Expr Symbol) : ReadsOnly (genExpr e) := by
  induction e with
  | binOp node op lhs rhs ihl ihr =>
    refine ihl.bind fun l => ihr.bind fun r => ?_
    unfold mkBinOp
    split
    · exact pure
    · exact fault
  | ident n =>
    show ReadsOnly (genIdent n)
    rw [genIdent]
    split
    · exact inputId.bind fun _ => genSymExpr
    · exact get.bind fun _ => read getExprFromVoid_ok
  | arrLookup => exact genArrLookup
  | propertyLookup => exact genPropertyLookup
  | string | arrCreate => exact fault
  | _ => exact pure

theorem rand : ReadsOnly rand := by
  intro w r w' h
  obtain ⟨-, rfl⟩ := rand_ok_iff.mp h
  exact ⟨rfl, rfl, fun hones => ⟨fun i => hones.1 (i + 1), hones.2⟩⟩

theorem roll {prob : BitVec 32} {z : ZExpr} : ReadsOnly (roll prob z) := by
  unfold DGen.roll
  split
  · refine rand.bind fun r => ?_
    split
    · unfold mkNot
      split
      · exact pure
      · exact fault
    · exact pure
  · exact pure

end ReadsOnly

/-! ## Sorts are kept to -/

section

variable {inputs : List Symbol} {w : World}

/-- The symbol of an identifier, if an input, is the one of its place. -/
def IdentNode.Resolved (inputs : List Symbol) (n : IdentNode Symbol) : Prop :=
  n.symbol.isInput = true → ∃ i, n.symbol.ref = .input i ∧ inputs[i]? = some n.symbol

/-- The object of an input is of its type's class. -/
theorem World.Whole.inputId (hw : w.Whole inputs) {n : IdentNode Symbol} (hn : n.Resolved inputs)
    (hin : n.symbol.isInput = true) : ∃ id, DGen.inputId n.symbol.ref w = .ok (id, w) ∧ w.Has n.symbol.type id := by
  obtain ⟨i, href, hi⟩ := hn hin
  obtain ⟨hlt, hget⟩ := List.getElem?_eq_some_iff.mp hi
  have hlt' : i < w.inputs.length := hw.typed.length_eq ▸ hlt
  have hhas : w.Has inputs[i].type w.inputs[i] := hw.typed.get hlt hlt'
  refine ⟨w.inputs[i], inputId_ok_iff.mpr ⟨⟨i, href, List.getElem?_eq_getElem hlt'⟩, rfl⟩, hget ▸ hhas⟩

theorem genSymExpr_sorted {t : DeclTy} {id : SymId} (h : w.Has t id) : Sorted t.toTy.zsort (genSymExpr id w) := by
  obtain ⟨o, ho, hcls⟩ := h
  have hget : getSym id w = .ok (o, w) := getSym_ok_iff.mpr ⟨ho, rfl⟩
  have hsort := getExpr_sorted (w := w) hcls
  rw [genSymExpr, bind_of_ok hget]
  constructor
  · intro z w' h
    obtain ⟨expr, w₁, hexpr, h⟩ := bind_ok_iff.mp h
    obtain rfl : expr = z := by
      split at h
      · obtain ⟨_, _, -, h⟩ := bind_ok_iff.mp h
        exact (pure_ok_iff.mp h).1
      · exact (pure_ok_iff.mp h).1
    exact hsort.1 _ _ hexpr
  · intro e h hun
    obtain h | ⟨expr, w₁, -, h⟩ := bind_error_iff.mp h
    · exact hsort.2 e h hun
    · split at h <;> cases h

theorem genIdent_sorted (hw : w.Whole inputs) {n : IdentNode Symbol} (hn : n.Resolved inputs) :
    Sorted n.symbol.type.toTy.zsort (genIdent n w) := by
  rw [genIdent]
  cases hin : n.symbol.isInput with
  | true =>
    obtain ⟨id, hid, hhas⟩ := hw.inputId hn hin
    rw [if_pos rfl, bind_of_ok hid]
    exact genSymExpr_sorted hhas
  | false => exact getExprFromVoid_sorted

/-- A lookup is translated as what it comes to, an element of the type that its indices leave. -/
theorem genArrLookup_sorted (hw : w.Whole inputs) {node : ASTNode} {n : IdentNode Symbol}
    {idxs : List (Expr Symbol)} {t : Ty}
    (hn : n.Resolved inputs) (hty : (Expr.arrLookup node n idxs).getType = .ok t)
    (hidx : w.Indexed (.arrLookup node n idxs)) :
    Sorted (Expr.arrLookup node n idxs).zsort (genArrLookup node n idxs w) := by
  obtain ⟨-, d, hd, heq⟩ := getType_arrLookup_ok_iff.mp hty
  rw [genArrLookup, Expr.zsort, hty]
  cases hin : n.symbol.isInput with
  | false => exact getExprFromVoid_sorted
  | true =>
    obtain ⟨id, hid, hhas⟩ := hw.inputId hn hin
    have hctx : (get : M World) w = .ok (w, w) := rfl
    rw [if_pos rfl, bind_of_ok hid, bind_of_ok hctx]
    refine .bind (fun _ => getSymbolByIdxs_error) fun e w₁ hrun => ?_
    obtain ⟨hsizing, hat⟩ := getSymbolByIdxs_sizing hrun hw.ok
    have hs := (getSymbolByIdxs_generates hrun hw.ok).1
    have hw₁ := hw.steps hs
    -- there are indices, and as many as the lookup has
    have hlen : (w.ctx.currentIdxs node.id).length = idxs.length ∧ idxs ≠ [] := by
      obtain hnil | hlen := hidx
      · rw [hnil] at hrun
        simp [getSymbolByIdxs] at hrun
      · refine ⟨hlen, ?_⟩
        rintro rfl
        rw [List.length_eq_zero_iff.mp hlen] at hrun
        simp [getSymbolByIdxs] at hrun
    obtain ⟨d', hd', hhas'⟩ := hw₁.has_symAt ((hs.later hw.ok).has hhas) hat
    rw [hlen.1] at hd'
    obtain rfl := Option.some.inj (hd.symm.trans hd')
    have hsort : t.zsort = d.toTy.zsort := by rw [Ty.zsort, Ty.zsort, Ty.getCurrentType_congr heq]
    have hnotEmpty : (true && idxs.isEmpty) = false := by simpa using hlen.2
    rw [hnotEmpty, if_neg Bool.false_ne_true]
    show Sorted t.zsort _
    rw [hsort]
    refine .bind (fun _ => OnlyUndefined.getSym.not_unsupported) fun o w₂ ho => ?_
    obtain ⟨-, rfl⟩ := getSym_ok_iff.mp ho
    refine .bind (fun _ => OnlyUndefined.getSym.not_unsupported) fun o' w₂ ho' => ?_
    obtain ⟨hindexed, rfl⟩ := getSym_ok_iff.mp ho'
    refine .bind (fun _ he => by cases he) fun _ w₂ hset => ?_
    obtain rfl := setSym_ok_iff.mp hset
    obtain ⟨_, hhas', hcls⟩ := hhas'
    cases hhas'.symm.trans hindexed
    exact genSymExpr_sorted ⟨_, World.setSym_self .., hcls⟩

theorem genPropertyLookup_sorted {n : IdentNode Symbol} : Sorted (.ok .int) (genPropertyLookup n w) := by
  have hundef {w₁ : World} : Sorted (.ok .int) ((DGen.fault .undefined : M ZExpr) w₁) :=
    .fault not_unsupported_undefined
  rw [genPropertyLookup]
  split
  · refine .bind (fun _ => OnlyUndefined.inputId.not_unsupported) fun id _ _ => ?_
    refine .bind (fun _ => OnlyUndefined.getSym.not_unsupported) fun o _ _ => ?_
    obtain ⟨name, val⟩ := o
    cases val with
    | array type size elems =>
      cases size with
      | some size => exact .pure rfl
      | none => exact .bind (fun _ he => by cases he) fun _ _ _ => .pure rfl
    | _ => exact hundef
  · refine .bind (fun _ he => by cases he) fun _ _ _ => ?_
    refine .bind (fun _ => OnlyUndefined.ofOption.not_unsupported) fun _ _ _ => ?_
    refine .bind (fun _ => OnlyUndefined.loadMem.not_unsupported) fun v _ _ => ?_
    cases v with
    | ptr p => exact .bind (fun _ => OnlyUndefined.getAlloc.not_unsupported) fun _ _ _ => .pure rfl
    | _ => exact hundef

/-- **A translation has the sort** that was told of it, and comes to an operand without a case only where that was told. -/
theorem genExpr_sorted (e : Expr Symbol) : ∀ {w : World} {t : Ty}, w.Whole inputs → e.getType = .ok t →
    (∀ n ∈ e.idents, n.Resolved inputs) → (∀ x ∈ e.leaves, w.Indexed x) → Sorted e.zsort (genExpr e w) := by
  induction e with
  | binOp node op lhs rhs ihl ihr =>
    intro w t hw hty hn hidx
    simp only [Expr.getType, Except.bind_ok_iff] at hty
    obtain ⟨t₁, hty₁, t₂, hty₂, -⟩ := hty
    simp only [Expr.idents, List.forall_mem_append] at hn
    simp only [Expr.leaves, List.forall_mem_append] at hidx
    have hl := ihl hw hty₁ hn.1 hidx.1
    have hr {z w₁} (h₁ : genExpr lhs w = .ok (z, w₁)) : Sorted rhs.zsort (genExpr rhs w₁) := by
      refine ihr (Maintains.genExpr lhs h₁ hw) hty₂ hn.2 fun x hx => ?_
      exact (hidx.2 x hx).congr (ReadsOnly.genExpr lhs h₁).ctx
    have hmk {l r : ZExpr} {w₂ : World} : Sorted (op.zsortOf l.sort r.sort) (mkBinOp op l r w₂) := by
      rw [mkBinOp, BinOpType.zsortOf]
      split
      · exact .pure rfl
      · exact .fault not_unsupported_assertion
    constructor
    · intro z w' h
      obtain ⟨l, w₁, h₁, h⟩ := bind_ok_iff.mp h
      obtain ⟨r, w₂, h₂, h⟩ := bind_ok_iff.mp h
      rw [Expr.zsort, hl.1 _ _ h₁, (hr h₁).1 _ _ h₂]
      exact hmk.1 _ _ h
    · intro e h hun
      obtain h₁ | ⟨l, w₁, h₁, h⟩ := bind_error_iff.mp h
      · rw [Expr.zsort, hl.2 e h₁ hun]
        rfl
      · obtain h₂ | ⟨r, w₂, h₂, h⟩ := bind_error_iff.mp h
        · rw [Expr.zsort, hl.1 _ _ h₁, (hr h₁).2 e h₂ hun]
          rfl
        · rw [Expr.zsort, hl.1 _ _ h₁, (hr h₁).1 _ _ h₂]
          exact hmk.2 e h hun
  | ident n =>
    intro w t hw hty hn _
    exact genIdent_sorted hw (hn n (List.mem_singleton_self n))
  | arrLookup node n idxs =>
    intro w t hw hty hn hidx
    exact genArrLookup_sorted hw (hn n (List.mem_cons_self ..)) hty (hidx _ (List.mem_singleton_self _))
  | propertyLookup node n p => exact fun _ _ _ _ => genPropertyLookup_sorted
  | string | arrCreate => exact fun _ _ _ _ => .thrown
  | _ => exact fun _ _ _ _ => .pure rfl

end

/-! ## States in which nothing is cut short -/

/-- What an operand's translation reads is there: a number or a truth value
where a variable's or a lookup's should be, an array where a length is asked
of, and for a lookup the index 0 at each level. -/
def World.Answers (w : World) : Expr Symbol → Prop
  | .ident n => n.symbol.isInput = false → n.symbol.type.elem? = none → ∃ p, w.ctx.addr n.symbol.ref = some p ∧
      w.mem.load .int32 p = some (.int32 0) ∧ w.mem.load .int8 p = some (.int8 0)
  | .arrLookup node _ idxs => w.ctx.currentIdxs node.id = List.replicate idxs.length 0 ∧
      ∃ p, w.ctx.currentPtr node.id = some p ∧ w.mem.load .int32 p = some (.int32 0) ∧
        w.mem.load .int8 p = some (.int8 0)
  | .propertyLookup _ n _ => n.symbol.isInput = false → n.symbol.type.elem? ≠ none →
      ∃ p q, w.ctx.addr n.symbol.ref = some p ∧ w.mem.load .ptr p = some (.ptr q)
  | _ => True

theorem World.Answers.congr {w w' : World} {x : Expr Symbol} (h : w.Answers x) (hctx : w'.ctx = w.ctx)
    (hmem : w'.mem = w.mem) : w'.Answers x := by
  cases x with
  | ident | arrLookup | propertyLookup =>
    rw [Answers, hctx, hmem]
    exact h
  | _ => trivial

theorem World.Answers.indexed {w : World} {x : Expr Symbol} (h : w.Answers x) : w.Indexed x := by
  cases x with
  | arrLookup node n idxs =>
    refine .inr ?_
    rw [h.1, List.length_replicate]
  | _ => trivial

/-- A translation has a result where there is a sort, and throws where there is no case. -/
def Meets (r : Except Refusal ZSort) (res : Except Fault (ZExpr × World)) : Prop :=
  (∀ s, r = .ok s → ∃ z w', res = .ok (z, w')) ∧ (r = .error .unsupported → ∃ e, res = .error e ∧ e.Unsupported)

section

variable {w : World} {r : Except Refusal ZSort}

theorem Meets.pure {z : ZExpr} {s : ZSort} : Meets (.ok s) ((pure z : M ZExpr) w) :=
  ⟨fun _ _ => ⟨z, w, rfl⟩, fun h => by cases h⟩

theorem Meets.thrown {e : Fault} (h : e.Unsupported) : Meets (.error .unsupported) ((DGen.fault e : M ZExpr) w) :=
  ⟨fun _ h => (by cases h), fun _ => ⟨e, rfl, h⟩⟩

theorem DeclTy.elem?_of_zsort {t : DeclTy} {s : ZSort} (h : t.toTy.zsort = .ok s) : t.elem? = none := by
  obtain ⟨sc, k⟩ := t
  cases k with
  | zero => cases sc <;> first | rfl | exact nomatch h
  | succ k => exact nomatch h

theorem getExprFromVoid_meets {ptr : Option Ptr} {t : Ty} (h : ∀ s, t.zsort = .ok s → ∃ p, ptr = some p ∧
    w.mem.load .int32 p = some (.int32 0) ∧ w.mem.load .int8 p = some (.int8 0)) :
    Meets t.zsort (getExprFromVoid ptr t w) := by
  cases ht : t.getCurrentType with
  | int | char | bool =>
    have hsort : ∃ s, t.zsort = .ok s := by
      rw [Ty.zsort, ht]
      exact ⟨_, rfl⟩
    obtain ⟨s, hs⟩ := hsort
    obtain ⟨p, rfl, h32, h8⟩ := h s hs
    have hptr : ofOption Fault.undefined (some p) w = .ok (p, w) := rfl
    rw [hs, getExprFromVoid, ht]
    dsimp only
    rw [bind_of_ok hptr, bind_of_ok (loadMem_ok_iff.mpr ⟨by assumption, rfl⟩)]
    exact Meets.pure (w := w)
  | _ =>
    have hnone : t.zsort = .error .unsupported := by rw [Ty.zsort, ht]
    rw [hnone, getExprFromVoid, ht]
    exact Meets.thrown (w := w) (.inr (.inr ⟨t, rfl⟩))

theorem genSymExpr_meets {t : DeclTy} {id : SymId} (h : w.Has t id) : Meets t.toTy.zsort (genSymExpr id w) := by
  obtain ⟨⟨name, val⟩, ho, hcls⟩ := h
  have hget : getSym id w = .ok (⟨name, val⟩, w) := getSym_ok_iff.mpr ⟨ho, rfl⟩
  have hthrown : ∀ {size elems type}, val = .array type size elems →
      Meets (.error .unsupported) (genSymExpr id w) := by
    rintro size elems type rfl
    rw [genSymExpr, bind_of_ok hget]
    exact Meets.thrown (w := w) (.inr (.inl rfl))
  have hexpr : ∀ {z : ZExpr} {s : ZSort}, SymObj.getExpr ⟨name, val⟩ w = .ok (z, w) →
      Meets (.ok s) (genSymExpr id w) := by
    intro z s hz
    rw [genSymExpr, bind_of_ok hget, bind_of_ok hz]
    refine ⟨fun _ _ => ?_, fun h => by cases h⟩
    split <;> exact ⟨_, _, rfl⟩
  obtain ⟨s, n⟩ := t
  cases n with
  | zero =>
    cases s with
    | int =>
      obtain ⟨num, rfl⟩ := cls_eq_number hcls
      cases num <;> exact hexpr rfl
    | char =>
      obtain ⟨ch, rfl⟩ := cls_eq_char hcls
      cases ch <;> exact hexpr rfl
    | bool =>
      obtain ⟨b, rfl⟩ := cls_eq_bool hcls
      cases b <;> exact hexpr rfl
    | string =>
      obtain ⟨size, elems, rfl⟩ := cls_eq_array hcls
      exact hthrown rfl
  | succ n =>
    rw [DeclTy.newSym_succ] at hcls
    obtain ⟨size, elems, rfl⟩ := cls_eq_array hcls
    exact hthrown rfl

theorem getSize_one {arr : SymId} {size : BitVec 32} {w' : World} (hones : w.Ones)
    (h : getSize arr w = .ok (size, w')) :
    size = 1 := by
  obtain ⟨name, type, s, elems, ho, ⟨rfl, -⟩ | ⟨-, rfl, -⟩⟩ := getSize_ok_iff.mp h
  · exact hones.2 _ name type size elems ho
  · rw [hones.1 0]
    rfl

theorem inRange_ones {k : Nat} : ∀ {arr : SymId} {w : World}, w.Ones → InRange arr (List.replicate k 0) w := by
  induction k with
  | zero => exact fun _ => trivial
  | succ k ih =>
    intro arr w hones size w' hsize
    obtain rfl := getSize_one hones hsize
    exact ⟨by decide, by decide, fun e _ => ih ((ReadsOnly.getSize hsize).ones hones)⟩

end

section

variable {inputs : List Symbol} {w : World}

theorem genIdent_meets (hw : w.Whole inputs) {n : IdentNode Symbol} (hn : n.Resolved inputs)
    (hans : w.Answers (.ident n)) :
    Meets n.symbol.type.toTy.zsort (genIdent n w) := by
  rw [genIdent]
  cases hin : n.symbol.isInput with
  | true =>
    obtain ⟨id, hid, hhas⟩ := hw.inputId hn hin
    rw [if_pos rfl, bind_of_ok hid]
    exact genSymExpr_meets hhas
  | false =>
    exact getExprFromVoid_meets fun s hs => hans hin (DeclTy.elem?_of_zsort hs)

theorem genArrLookup_meets (hw : w.Whole inputs) (hones : w.Ones) {node : ASTNode} {n : IdentNode Symbol}
    {idxs : List (Expr Symbol)} {t : Ty} (hn : n.Resolved inputs) (hty : (Expr.arrLookup node n idxs).getType = .ok t)
    (hans : w.Answers (.arrLookup node n idxs)) :
    Meets (Expr.arrLookup node n idxs).zsort (genArrLookup node n idxs w) := by
  obtain ⟨-, d, hd, heq⟩ := getType_arrLookup_ok_iff.mp hty
  obtain ⟨hzeros, hptr⟩ := hans
  rw [genArrLookup, Expr.zsort, hty]
  cases hin : n.symbol.isInput with
  | false => exact getExprFromVoid_meets fun _ _ => hptr
  | true =>
    cases idxs with
    | nil => exact ⟨fun _ h => (by cases h), fun h => (by cases h)⟩
    | cons idx idxs =>
      have hsort : t.zsort = d.toTy.zsort := by rw [Ty.zsort, Ty.zsort, Ty.getCurrentType_congr heq]
      obtain ⟨id, hid, hhas⟩ := hw.inputId hn hin
      have hctx : (get : M World) w = .ok (w, w) := rfl
      obtain ⟨c, w₁, d', hrun, hs, hat, hd', hhas'⟩ :=
        @getSymbolByIdxs_returns (List.replicate (idx :: idxs).length 0) w _ _ hw.ok hw.alive hhas (by simp)
          (by rw [List.length_replicate]; exact elems?_depth hd) (inRange_ones hones)
      have helem : (true && (idx :: idxs).isEmpty) = false := rfl
      rw [List.length_replicate] at hd'
      obtain rfl := Option.some.inj (hd.symm.trans hd')
      rw [if_pos rfl, bind_of_ok hid, bind_of_ok hctx, hzeros, bind_of_ok hrun, helem, if_neg Bool.false_ne_true]
      show Meets t.zsort _
      have hok₁ := hs.ok hw.ok
      obtain ⟨oa, hoa, -⟩ := (hs.later hw.ok).has hhas
      obtain ⟨oc, hoc, hcls⟩ := hhas'
      rw [hsort, bind_of_ok (getSym_ok_iff.mpr ⟨hoa, rfl⟩), bind_of_ok (getSym_ok_iff.mpr ⟨hoc, rfl⟩),
        bind_of_ok (a := ()) (setSym_ok_iff.mpr rfl)]
      exact genSymExpr_meets ⟨_, World.setSym_self .., hcls⟩

/-- A length is asked of an array. -/
theorem DeclTy.elem?_of_getType {node : ASTNode} {n : IdentNode Symbol} {p : String} {t : Ty}
    (h : (Expr.propertyLookup node n p).getType = .ok t) : ∃ e, n.symbol.type.elem? = some e := by
  rw [Expr.getType] at h
  split at h
  · dsimp only at h
    split at h
    · cases h
    · rename_i harr
      generalize n.symbol.type = ty at harr ⊢
      obtain ⟨sc, k⟩ := ty
      cases k with
      | zero => cases sc <;> first | exact ⟨_, rfl⟩ | exact absurd (by decide) harr
      | succ k => exact ⟨_, rfl⟩
  · cases h

theorem genPropertyLookup_meets (hw : w.Whole inputs) {node : ASTNode} {n : IdentNode Symbol} {p : String} {t : Ty}
    (hn : n.Resolved inputs) (hty : (Expr.propertyLookup node n p).getType = .ok t)
    (hans : w.Answers (.propertyLookup node n p)) : Meets (.ok .int) (genPropertyLookup n w) := by
  obtain ⟨e, he⟩ := DeclTy.elem?_of_getType hty
  rw [genPropertyLookup]
  cases hin : n.symbol.isInput with
  | true =>
    obtain ⟨id, hid, hhas⟩ := hw.inputId hn hin
    obtain ⟨name, type, size, elems, ho, -⟩ := hhas.array he
    rw [if_pos rfl, bind_of_ok hid, bind_of_ok (getSym_ok_iff.mpr ⟨ho, rfl⟩)]
    cases size with
    | some size => exact Meets.pure (w := w)
    | none => exact ⟨fun _ _ => ⟨_, _, rfl⟩, fun h => (by cases h)⟩
  | false =>
    obtain ⟨p, q, haddr, hload⟩ := hans hin (by simp [he])
    have hctx : (get : M World) w = .ok (w, w) := rfl
    have hptr : ofOption Fault.undefined (w.ctx.addr n.symbol.ref) w = .ok (p, w) := by
      rw [haddr]
      rfl
    obtain ⟨d, w₁, halloc⟩ : ∃ d w₁, getAlloc q w = .ok (d, w₁) := by
      unfold getAlloc
      split <;> exact ⟨_, _, rfl⟩
    rw [if_neg Bool.false_ne_true, bind_of_ok hctx, bind_of_ok hptr, bind_of_ok (loadMem_ok_iff.mpr ⟨hload, rfl⟩)]
    exact ⟨fun _ _ => ⟨_, _, bind_of_ok halloc⟩, fun h => (by cases h)⟩

/-- A state in which the operands answer stays one. -/
structure World.Plain (inputs : List Symbol) (xs : List (Expr Symbol)) (w : World) : Prop where
  whole : w.Whole inputs
  ones : w.Ones
  answers : ∀ x ∈ xs, w.Answers x

theorem World.Plain.reads {w' : World} {xs ys : List (Expr Symbol)} (h : w.Plain inputs xs) (hr : w.Reads w')
    (hw' : w'.Whole inputs) (hsub : ∀ x ∈ ys, x ∈ xs) : w'.Plain inputs ys :=
  ⟨hw', hr.ones h.ones, fun x hx => (h.answers x (hsub x hx)).congr hr.ctx hr.mem⟩

/-- **A translation comes to what was told of it**, where its operands answer. -/
theorem genExpr_meets (e : Expr Symbol) : ∀ {w : World} {t : Ty}, w.Plain inputs e.leaves → e.getType = .ok t →
    (∀ n ∈ e.idents, n.Resolved inputs) → Meets e.zsort (genExpr e w) := by
  induction e with
  | binOp node op lhs rhs ihl ihr =>
    intro w t hw hty hn
    simp only [Expr.getType, Except.bind_ok_iff] at hty
    obtain ⟨t₁, hty₁, t₂, hty₂, -⟩ := hty
    simp only [Expr.idents, List.forall_mem_append] at hn
    have hkept : w.Reads w := ⟨rfl, rfl, fun h => h⟩
    have hl := ihl (hw.reads hkept hw.whole fun x hx => List.mem_append_left _ hx) hty₁ hn.1
    have hsl := genExpr_sorted lhs hw.whole hty₁ hn.1 fun x hx => (hw.answers x (List.mem_append_left _ hx)).indexed
    have hplain {z w₁} (h₁ : genExpr lhs w = .ok (z, w₁)) : w₁.Plain inputs rhs.leaves :=
      hw.reads (ReadsOnly.genExpr lhs h₁) (Maintains.genExpr lhs h₁ hw.whole) fun x hx => List.mem_append_right _ hx
    have hr {z w₁} (h₁ : genExpr lhs w = .ok (z, w₁)) := ihr (hplain h₁) hty₂ hn.2
    have hsr {z w₁} (h₁ : genExpr lhs w = .ok (z, w₁)) : Sorted rhs.zsort (genExpr rhs w₁) :=
      genExpr_sorted rhs (hplain h₁).whole hty₂ hn.2 fun x hx => ((hplain h₁).answers x hx).indexed
    constructor
    · intro s hs
      simp only [Expr.zsort, Except.bind_ok_iff] at hs
      obtain ⟨sl, hsl', sr, hsr', hs⟩ := hs
      obtain ⟨l, w₁, h₁⟩ := hl.1 sl hsl'
      obtain ⟨r, w₂, h₂⟩ := (hr h₁).1 sr hsr'
      obtain rfl := Except.ok.inj (hsl'.symm.trans (hsl.1 _ _ h₁))
      obtain rfl := Except.ok.inj (hsr'.symm.trans ((hsr h₁).1 _ _ h₂))
      have hargs : op.zargs l.sort r.sort = true := by
        by_contra hargs
        rw [BinOpType.zsortOf, if_neg hargs] at hs
        cases hs
      refine ⟨.binOp op l r, w₂, (bind_of_ok h₁).trans ((bind_of_ok h₂).trans ?_)⟩
      rw [mkBinOp, if_pos hargs]
      rfl
    · intro hun
      obtain hun | ⟨sl, hsl', hun⟩ := Except.bind_error_iff.mp hun
      · obtain ⟨e, he, hune⟩ := hl.2 hun
        exact ⟨e, bind_error_iff.mpr (.inl he), hune⟩
      · obtain ⟨l, w₁, h₁⟩ := hl.1 sl hsl'
        obtain hun | ⟨sr, hsr', hun⟩ := Except.bind_error_iff.mp hun
        · obtain ⟨e, he, hune⟩ := (hr h₁).2 hun
          exact ⟨e, (bind_of_ok h₁).trans (bind_error_iff.mpr (.inl he)), hune⟩
        · unfold BinOpType.zsortOf at hun
          split at hun <;> cases hun
  | ident n =>
    intro w t hw hty hn
    exact genIdent_meets hw.whole (hn n (List.mem_singleton_self n)) (hw.answers _ (List.mem_singleton_self _))
  | arrLookup node n idxs =>
    intro w t hw hty hn
    exact genArrLookup_meets hw.whole hw.ones (hn n (List.mem_cons_self ..)) hty (hw.answers _ (List.mem_singleton_self _))
  | propertyLookup node n p =>
    intro w t hw hty hn
    exact genPropertyLookup_meets hw.whole (hn n (List.mem_singleton_self n)) hty (hw.answers _ (List.mem_singleton_self _))
  | string | arrCreate =>
    intro w t _ _ _
    exact Meets.thrown (w := w) (.inl rfl)
  | _ =>
    intro w t _ _ _
    exact Meets.pure (w := w)

end

/-! ## The formulas of `start_z3_gen` -/

/-- What the checker has as `bool` is a truth value to the solver. -/
theorem zsort_of_getType (e : Expr Symbol) : ∀ {t : Ty} {s : ZSort}, e.getType = .ok t → t.getCurrentType = .bool →
    e.zsort = .ok s → s = .bool := by
  have hty {t : Ty} {s : ZSort} (hbool : t.getCurrentType = .bool) (hs : t.zsort = .ok s) : s = .bool := by
    rw [Ty.zsort, hbool] at hs
    exact (Except.ok.inj hs).symm
  cases e with
  | bool node val =>
    intro t s _ _ hs
    exact (Except.ok.inj hs).symm
  | char | number =>
    intro t s ht hbool _
    cases ht
    cases hbool
  | propertyLookup node n p =>
    intro t s ht hbool _
    rw [Expr.getType] at ht
    split at ht
    · dsimp only at ht
      split at ht
      · cases ht
      · cases ht
        cases hbool
    · cases ht
  | string | arrCreate =>
    intro t s _ _ hs
    cases hs
  | ident n =>
    intro t s ht hbool hs
    cases ht
    exact hty hbool hs
  | arrLookup node n idxs =>
    intro t s ht hbool hs
    rw [Expr.zsort, ht] at hs
    split at hs
    · cases hs
    · exact hty hbool hs
  | binOp node op lhs rhs =>
    intro t s ht hbool hs
    simp only [Expr.getType, Except.bind_ok_iff, binOpGetType_ok_iff] at ht
    obtain ⟨_, -, _, -, rfl, -⟩ := ht
    simp only [Expr.zsort, Except.bind_ok_iff] at hs
    obtain ⟨_, -, _, -, hs⟩ := hs
    unfold BinOpType.zsortOf at hs
    split at hs <;> cases hs
    cases op <;> first | rfl | cases hbool

section

variable {inputs : List Symbol} {w : World} {cond : Expr Symbol} {precond : PrecondNode Symbol}

theorem roll_error {prob : BitVec 32} {z : ZExpr} {e : Fault} (h : roll prob z w = .error e) : ¬ e.Unsupported := by
  unfold roll at h
  split at h
  · obtain h | ⟨r, w₁, -, h⟩ := bind_error_iff.mp h
    · cases h
    · split at h
      · unfold mkNot at h
        split at h <;> cases h
        exact not_unsupported_assertion
      · cases h
  · cases h

theorem roll_returns {prob : BitVec 32} {z : ZExpr} (hz : z.sort = .bool) : ∃ z' w', roll prob z w = .ok (z', w') := by
  have hrand : rand w = .ok (w.rand 0, w.drawn) := rfl
  unfold roll
  split
  · rw [bind_of_ok hrand]
    split
    · rw [mkNot, if_pos hz]
      exact ⟨_, _, rfl⟩
    · exact ⟨_, _, rfl⟩
  · exact ⟨_, _, rfl⟩

/-- What the checker knows of a condition with a precondition, and resolution of their identifiers. -/
structure FormulasTyped (inputs : List Symbol) (cond : Expr Symbol) (precond : PrecondNode Symbol) : Prop where
  condType : ∃ t, cond.getType = .ok t ∧ t.getCurrentType = .bool
  exprType : ∀ e, precond.expr = some e → ∃ t, e.getType = .ok t
  resolved : ∀ n ∈ precond.idents ++ cond.idents, n.Resolved inputs

theorem FormulasTyped.expr (h : FormulasTyped inputs cond precond) {e : Expr Symbol} (he : precond.expr = some e) :
    ∀ n ∈ e.idents, n.Resolved inputs := by
  refine fun n hn => h.resolved n (List.mem_append_left _ ?_)
  rw [PrecondNode.idents, he]
  simpa using hn

theorem mem_formulaLeaves_of_expr {e x : Expr Symbol} (he : precond.expr = some e) (hx : x ∈ e.leaves) :
    x ∈ formulaLeaves cond precond := by
  refine List.mem_append_right _ ?_
  rw [he]
  simpa using hx

/-- `start_z3_gen` begins with no formula. -/
def World.cleared (w : World) : World := { w with z3 := ⟨[], []⟩ }

theorem World.Whole.cleared (hw : w.Whole inputs) : w.cleared.Whole inputs :=
  ⟨⟨hw.ok.tree, hw.ok.mem, hw.ok.frame, hw.ok.globals⟩, hw.alive, hw.typed⟩

/-- The roll of the condition leaves the inputs there. -/
theorem World.Whole.rolled {w' : World} (hw : w.Whole inputs) {prob : BitVec 32} {z z' : ZExpr}
    (h : roll prob z w.drawn = .ok (z', w')) : w'.Whole inputs := by
  obtain ⟨r, l, rfl⟩ := roll_quiet h
  exact ⟨⟨hw.ok.tree, hw.ok.mem, hw.ok.frame, hw.ok.globals⟩, hw.alive, hw.typed⟩

/-- The formulas come to an operand without a case only where that was told. -/
theorem genFormulas_sorted (hw : w.Whole inputs) (hty : FormulasTyped inputs cond precond)
    (hidx : ∀ x ∈ formulaLeaves cond precond, w.Indexed x) {e : Fault} (h : genFormulas cond precond w = .error e)
    (hun : e.Unsupported) : formulaSorts cond precond = .error .unsupported := by
  obtain ⟨t, ht, -⟩ := hty.condType
  have hclear : (modify World.cleared : M Unit) w = .ok ((), w.cleared) := rfl
  have hcond := genExpr_sorted cond hw.cleared ht (fun n hn => hty.resolved n (List.mem_append_right _ hn))
    fun x hx => (hidx x (List.mem_append_left _ hx)).congr rfl
  rw [formulaSorts]
  obtain h | ⟨z, w₁, h₁, h⟩ := bind_error_iff.mp ((bind_of_ok hclear).symm.trans h)
  · rw [hcond.2 e h hun]
    rfl
  · have hrand : rand w₁ = .ok (w₁.rand 0, w₁.drawn) := rfl
    rw [bind_of_ok hrand] at h
    obtain h | ⟨z', w₂, h₂, h⟩ := bind_error_iff.mp h
    · exact absurd hun (roll_error h)
    · rw [hcond.1 _ _ h₁]
      cases hexpr : precond.expr with
      | none =>
        rw [hexpr] at h
        cases h
      | some pe =>
        rw [hexpr] at h
        obtain ⟨t', ht'⟩ := hty.exprType pe hexpr
        have hctx := (ReadsOnly.roll h₂).ctx.trans (ReadsOnly.genExpr cond h₁).ctx
        have hpre := genExpr_sorted pe ((Maintains.genExpr cond h₁ hw.cleared).rolled h₂) ht' (hty.expr hexpr) fun x hx =>
          (hidx x (mem_formulaLeaves_of_expr hexpr hx)).congr hctx
        obtain h | ⟨_, _, -, h⟩ := bind_error_iff.mp h
        · exact Except.bind_error_iff.mpr (.inr ⟨_, rfl, Except.bind_error_iff.mpr (.inl (hpre.2 e h hun))⟩)
        · cases h

/-- The formulas come to an operand without a case where that was told, if the operands before it answer. -/
theorem genFormulas_meets (hw : w.Plain inputs (formulaLeaves cond precond)) (hty : FormulasTyped inputs cond precond)
    (h : formulaSorts cond precond = .error .unsupported) :
    ∃ e, genFormulas cond precond w = .error e ∧ e.Unsupported := by
  obtain ⟨t, ht, hbool⟩ := hty.condType
  have hclear : (modify World.cleared : M Unit) w = .ok ((), w.cleared) := rfl
  have hw₀ : w.cleared.Plain inputs cond.leaves := ⟨hw.whole.cleared, hw.ones, fun x hx =>
    (hw.answers x (List.mem_append_left _ hx)).congr rfl rfl⟩
  have hres : ∀ n ∈ cond.idents, n.Resolved inputs := fun n hn => hty.resolved n (List.mem_append_right _ hn)
  have hcond := genExpr_meets cond hw₀ ht hres
  obtain h | ⟨s, hs, h⟩ := Except.bind_error_iff.mp h
  · obtain ⟨e, he, hun⟩ := hcond.2 h
    exact ⟨e, (bind_of_ok hclear).trans (bind_error_iff.mpr (.inl he)), hun⟩
  · obtain rfl := zsort_of_getType cond ht hbool hs
    obtain ⟨z, w₁, h₁⟩ := hcond.1 _ hs
    have hsort := (genExpr_sorted cond hw₀.whole ht hres fun x hx => (hw₀.answers x hx).indexed).1 z w₁ h₁
    obtain ⟨z', w₂, h₂⟩ : ∃ z' w₂, roll precond.prob z w₁.drawn = .ok (z', w₂) :=
      roll_returns (Except.ok.inj (hsort.symm.trans hs))
    cases hexpr : precond.expr with
    | none =>
      rw [hexpr] at h
      cases h
    | some pe =>
      rw [hexpr] at h
      obtain ⟨t', ht'⟩ := hty.exprType pe hexpr
      have hrand : rand w₁ = .ok (w₁.rand 0, w₁.drawn) := rfl
      have hr := ReadsOnly.genExpr cond h₁
      have hr' := ReadsOnly.rand hrand
      have hr'' := ReadsOnly.roll h₂
      have hplain : w₂.Plain inputs pe.leaves :=
        ⟨(Maintains.genExpr cond h₁ hw₀.whole).rolled h₂, hr''.ones (hr'.ones (hr.ones hw₀.ones)), fun x hx =>
          (hw.answers x (mem_formulaLeaves_of_expr hexpr hx)).congr (hr''.ctx.trans hr.ctx) (hr''.mem.trans hr.mem)⟩
      have hpre := genExpr_meets pe hplain ht' (hty.expr hexpr)
      obtain h | ⟨_, -, h⟩ := Except.bind_error_iff.mp h
      · obtain ⟨e, he, hun⟩ := hpre.2 h
        refine ⟨e, (bind_of_ok hclear).trans ((bind_of_ok h₁).trans ?_), hun⟩
        rw [bind_of_ok hrand, bind_of_ok h₂, hexpr]
        exact bind_error_iff.mpr (.inl he)
      · cases h

end

end DGen
