/-
What `start_z3_gen` records on its way to the solver: which inputs the
condition and its precondition mention, in the order `gen_expr` comes to
them, and what `syms_to_expr_id` and `exprs` hold of them then.

Whether a mention is recorded can be told from the state before: an input
that has a value is not, and a length is not once a lookup has drawn it.
-/
import DGen.Z3Visitor
import DGen.Steps

namespace DGen

open Memory StateT

/-! ## Mentions -/

/-- An input read by `gen_expr`: it or an element of it, or its length. -/
inductive Mention
  | value (id : SymId) (path : List (BitVec 32))
  | length (id : SymId)
  deriving DecidableEq, Repr

/-- The nodes of an expression that are no operators, in order. -/
def Expr.leaves {σ : Type} : Expr σ → List (Expr σ)
  | .binOp _ _ lhs rhs => lhs.leaves ++ rhs.leaves
  | e => [e]

def World.input? (w : World) : SymRef → Option SymId
  | .input i => w.inputs[i]?
  | .var _ => none

def Expr.mention (w : World) : Expr Symbol → Option Mention
  | .ident n => (w.input? n.symbol.ref).map (.value · [])
  | .arrLookup node n _ => (w.input? n.symbol.ref).map (.value · (w.ctx.currentIdxs node.id))
  | .propertyLookup _ n _ => (w.input? n.symbol.ref).map .length
  | _ => none

def Expr.mentions (w : World) (e : Expr Symbol) : List Mention := e.leaves.filterMap (Expr.mention w)

/-- The mentions of a condition, and then those of its precondition. -/
def mentions (w : World) (cond : Expr Symbol) (precond : PrecondNode Symbol) : List Mention :=
  cond.mentions w ++ precond.expr.toList.flatMap (Expr.mentions w)

/-- `gen_expr` of a mention. -/
def genMention : Mention → M ZExpr
  | .value id [] => genSymExpr id
  | .value id (i :: path) => do
    let indexed ← getSymbolByIdxs id (i :: path)
    let name := elemName (← getSym id).name (i :: path)
    setSym indexed { (← getSym indexed) with name }
    genSymExpr indexed
  | .length id => do
    let o ← getSym id
    match o.val with
    | .array _ (some size) _ => return .intVal size.toInt
    | .array _ none _ => do
      let expr := ZExpr.intConst (o.name ++ ".len")
      record id expr
      return expr
    | _ => fault .undefined

/-- A run that leaves everything but the numbers to come and the table of arrays. -/
def Quiet (w w' : World) : Prop := ∃ r l, w' = { w with rand := r, allocatedVals := l }

theorem Quiet.refl (w : World) : Quiet w w := ⟨w.rand, w.allocatedVals, rfl⟩

theorem inputId_input? {w w' : World} {r : SymRef} {id : SymId} (h : inputId r w = .ok (id, w')) :
    w.input? r = some id ∧ w = w' := by
  obtain ⟨⟨i, rfl, hi⟩, rfl⟩ := inputId_ok_iff.mp h
  exact ⟨hi, rfl⟩

theorem Symbol.isInput_iff {s : Symbol} {w : World} : s.isInput = false → w.input? s.ref = none := by
  unfold isInput
  cases s.ref <;> simp [World.input?]

theorem getExprFromVoid_ok {ptr : Option Ptr} {type : Ty} {w w' : World} {z : ZExpr}
    (h : getExprFromVoid ptr type w = .ok (z, w')) : w = w' := by
  have hload : ∀ {c : Chunk} {f : Val → M ZExpr},
      (∀ {v z} {w₁ w₂ : World}, f v w₁ = .ok (z, w₂) → w₁ = w₂) →
      (do f (← loadMem c (← ofOption .undefined ptr))) w = .ok (z, w') → w = w' := by
    intro c f hf h
    obtain ⟨p, _, hp, h⟩ := bind_ok_iff.mp h
    obtain ⟨-, rfl⟩ := ofOption_ok_iff.mp hp
    obtain ⟨v, _, hv, h⟩ := bind_ok_iff.mp h
    obtain ⟨-, rfl⟩ := loadMem_ok_iff.mp hv
    exact hf h
  unfold getExprFromVoid at h
  cases ht : type.getCurrentType <;> rw [ht] at h
  case int | char | bool =>
    refine hload (fun {v z w₁ w₂} hv => ?_) h
    cases v <;> first | exact (pure_ok_iff.mp hv).2 | simp at hv
  all_goals simp at h

/-- What is no operator is a mention, or records nothing. -/
theorem genExpr_leaf {x : Expr Symbol} (hx : ∀ node op lhs rhs, x ≠ .binOp node op lhs rhs) {w w' : World} {z : ZExpr}
    (h : genExpr x w = .ok (z, w')) :
    (x.mention w = none ∧ Quiet w w') ∨ ∃ μ, x.mention w = some μ ∧ genMention μ w = .ok (z, w') := by
  cases x with
  | binOp node op lhs rhs => exact absurd rfl (hx node op lhs rhs)
  | ident n =>
    simp only [genExpr, genIdent] at h
    split at h
    next hi =>
      obtain ⟨id, _, hid, h⟩ := bind_ok_iff.mp h
      obtain ⟨hin, rfl⟩ := inputId_input? hid
      exact .inr ⟨.value id [], by simp [Expr.mention, hin], h⟩
    next hi =>
      obtain ⟨_, _, hg, h⟩ := bind_ok_iff.mp h
      obtain ⟨rfl, rfl⟩ := get_ok_iff.mp hg
      obtain rfl := getExprFromVoid_ok h
      exact .inl ⟨by simp [Expr.mention, Symbol.isInput_iff (Bool.not_eq_true _ ▸ hi)], .refl _⟩
  | arrLookup node n idxs =>
    simp only [genExpr, genArrLookup] at h
    split at h
    next hi =>
      obtain ⟨id, _, hid, h⟩ := bind_ok_iff.mp h
      obtain ⟨hin, rfl⟩ := inputId_input? hid
      obtain ⟨_, _, hg, h⟩ := bind_ok_iff.mp h
      obtain ⟨rfl, rfl⟩ := get_ok_iff.mp hg
      refine .inr ⟨.value id (w.ctx.currentIdxs node.id), by simp [Expr.mention, hin], ?_⟩
      cases hpath : w.ctx.currentIdxs node.id with
      | nil =>
        rw [hpath] at h
        obtain ⟨_, _, hg, -⟩ := bind_ok_iff.mp h
        simp [getSymbolByIdxs] at hg
      | cons i path =>
        rw [hpath] at h
        exact h
    next hi =>
      obtain ⟨_, _, hg, h⟩ := bind_ok_iff.mp h
      obtain ⟨rfl, rfl⟩ := get_ok_iff.mp hg
      cases ht : (Expr.arrLookup node n idxs).getType with
      | ok t =>
        rw [ht] at h
        obtain rfl := getExprFromVoid_ok h
        exact .inl ⟨by simp [Expr.mention, Symbol.isInput_iff (Bool.not_eq_true _ ▸ hi)], .refl _⟩
      | error e =>
        rw [ht] at h
        simp at h
  | propertyLookup node n p =>
    simp only [genExpr, genPropertyLookup] at h
    split at h
    next hi =>
      obtain ⟨id, _, hid, h⟩ := bind_ok_iff.mp h
      obtain ⟨hin, rfl⟩ := inputId_input? hid
      exact .inr ⟨.length id, by simp [Expr.mention, hin], h⟩
    next hi =>
      refine .inl ⟨by simp [Expr.mention, Symbol.isInput_iff (Bool.not_eq_true _ ▸ hi)], ?_⟩
      obtain ⟨_, _, hg, h⟩ := bind_ok_iff.mp h
      obtain ⟨rfl, rfl⟩ := get_ok_iff.mp hg
      obtain ⟨_, _, hp, h⟩ := bind_ok_iff.mp h
      obtain ⟨-, rfl⟩ := ofOption_ok_iff.mp hp
      obtain ⟨v, _, hv, h⟩ := bind_ok_iff.mp h
      obtain ⟨-, rfl⟩ := loadMem_ok_iff.mp hv
      cases v with
      | ptr p =>
        obtain ⟨d, _, hd, h⟩ := bind_ok_iff.mp h
        obtain ⟨l, rfl⟩ := getAlloc_ok hd
        obtain ⟨-, rfl⟩ := pure_ok_iff.mp h
        exact ⟨w.rand, l, rfl⟩
      | _ => simp at h
  | bool | char | number =>
    obtain ⟨-, rfl⟩ := pure_ok_iff.mp h
    exact .inl ⟨rfl, .refl _⟩
  | string | arrCreate => simp [genExpr] at h

/-! ## Growing -/

/-- `has_val` of a scalar, and whether an array has its length. -/
def SymVal.determined : SymVal → Bool
  | .number num => num.isSome
  | .char ch => ch.isSome
  | .bool val => val.isSome
  | .array _ size _ => size.isSome

/-- What there is stays, but for the length of an array that had none, and
what is new has no value. -/
structure Grown (w w' : World) : Prop where
  inputs : w'.inputs = w.inputs
  globals : w'.globals = w.globals
  ctx : w'.ctx = w.ctx
  next : w.next ≤ w'.next
  kept : ∀ j o, w.syms j = some o → ∃ o', w'.syms j = some o' ∧ (j ∈ w.inputs → o'.name = o.name) ∧
    (o'.val = o.val ∨ ∃ type size elems, o.val = .array type none [] ∧ o'.val = .array type (some size) elems ∧
      ∀ e : Nat, e ∈ elems → w.next ≤ e)
  new : ∀ j o, w.syms j = none → w'.syms j = some o →
    w.next ≤ j ∧ o.val.hasVal = false ∧ ∀ e : Nat, e ∈ o.val.elems → w.next ≤ e

namespace Grown

variable {w w' w'' : World}

theorem of_syms (hinputs : w'.inputs = w.inputs) (hglobals : w'.globals = w.globals) (hctx : w'.ctx = w.ctx)
    (hnext : w.next ≤ w'.next) (hsyms : w'.syms = w.syms) : Grown w w' where
  inputs := hinputs
  globals := hglobals
  ctx := hctx
  next := hnext
  kept := fun j o ho => ⟨o, by rw [hsyms]; exact ho, fun _ => rfl, .inl rfl⟩
  new := fun j o hnone ho => by
    rw [hsyms] at ho
    cases hnone.symm.trans ho

theorem refl (w : World) : Grown w w := .of_syms rfl rfl rfl (Nat.le_refl _) rfl

theorem trans (h : Grown w w') (h' : Grown w' w'') : Grown w w'' where
  inputs := h'.inputs.trans h.inputs
  globals := h'.globals.trans h.globals
  ctx := h'.ctx.trans h.ctx
  next := Nat.le_trans h.next h'.next
  kept := by
    intro j o ho
    obtain ⟨o', ho', hname, hval⟩ := h.kept j o ho
    obtain ⟨o'', ho'', hname', hval'⟩ := h'.kept j o' ho'
    refine ⟨o'', ho'', fun hj => (hname' (h.inputs ▸ hj)).trans (hname hj), ?_⟩
    obtain hval' | ⟨type, size, elems, hnone, hval', helems⟩ := hval'
    · exact hval' ▸ hval
    · obtain hval | ⟨_, _, _, -, hval, -⟩ := hval
      · exact .inr ⟨type, size, elems, hval ▸ hnone, hval', fun e he => Nat.le_trans h.next (helems e he)⟩
      · cases hval.symm.trans hnone
  new := by
    intro j o hnone ho
    cases ho' : w'.syms j with
    | none =>
      obtain ⟨hle, hval, helems⟩ := h'.new j o ho' ho
      exact ⟨Nat.le_trans h.next hle, hval, fun e he => Nat.le_trans h.next (helems e he)⟩
    | some o' =>
      obtain ⟨hle, hval, helems⟩ := h.new j o' hnone ho'
      obtain ⟨o'', ho'', -, hval'⟩ := h'.kept j o' ho'
      cases ho.symm.trans ho''
      obtain hval' | ⟨type, size, elems, -, hval', helems'⟩ := hval'
      · exact ⟨hle, hval' ▸ hval, hval' ▸ helems⟩
      · exact ⟨hle, by rw [hval']; rfl, by rw [hval']; exact fun e he => Nat.le_trans h.next (helems' e he)⟩

/-- What there is has been there, or is new. -/
theorem val_eq (h : Grown w w') {j : SymId} {o' : SymObj} (ho' : w'.syms j = some o') (hval : o'.val.hasVal = true) :
    ∃ o, w.syms j = some o ∧ o'.val = o.val := by
  cases ho : w.syms j with
  | none =>
    have := (h.new j o' ho ho').2.1
    rw [hval] at this
    cases this
  | some o =>
    obtain ⟨o'', ho'', -, hsame | ⟨_, _, _, -, hsized, -⟩⟩ := h.kept j o ho
    · cases ho'.symm.trans ho''
      exact ⟨o, rfl, hsame⟩
    · cases ho'.symm.trans ho''
      rw [hsized] at hval
      cases hval

/-- No value is given or taken away. -/
theorem hasVal_eq (h : Grown w w') {j : SymId} {o o' : SymObj} (ho : w.syms j = some o)
    (ho' : w'.syms j = some o') : o'.val.hasVal = o.val.hasVal := by
  obtain ⟨o'', ho'', -, hsame | ⟨_, _, _, hnone, hsized, -⟩⟩ := h.kept j o ho
  · cases ho'.symm.trans ho''
    rw [hsame]
  · cases ho'.symm.trans ho''
    rw [hnone, hsized]
    rfl

theorem cls_eq (h : Grown w w') {j : SymId} {o o' : SymObj} (ho : w.syms j = some o)
    (ho' : w'.syms j = some o') : o'.val.cls = o.val.cls := by
  obtain ⟨o'', ho'', -, hsame | ⟨_, _, _, hnone, hsized, -⟩⟩ := h.kept j o ho
  · cases ho'.symm.trans ho''
    rw [hsame]
  · cases ho'.symm.trans ho''
    rw [hnone, hsized]
    rfl

theorem getElem?_elemsOf (h : Grown w w') {p e : SymId} {n : Nat} (he : (elemsOf w.syms p)[n]? = some e) :
    (elemsOf w'.syms p)[n]? = some e := by
  obtain ⟨o, ho, hmem⟩ := mem_elemsOf_iff.mp (List.mem_of_getElem? he)
  obtain ⟨o', ho', -, hsame | ⟨_, _, _, hnone, -⟩⟩ := h.kept p o ho
  · rw [elemsOf_of_some ho']
    rw [elemsOf_of_some ho] at he
    rw [hsame]
    exact he
  · rw [hnone] at hmem
    cases hmem

theorem symAt (h : Grown w w') {path : List (BitVec 32)} {id e : SymId} (he : symAt w.syms id path = some e) :
    DGen.symAt w'.syms id path = some e :=
  symAt_mono (fun _ _ _ => h.getElem?_elemsOf) he

/-- What is at a place now and was there before was at that place. -/
theorem symAt_back (h : Grown w w') (htree : Tree w.syms w.inputs w.next) {path : List (BitVec 32)} :
    ∀ {id e : SymId} {o : SymObj}, DGen.symAt w'.syms id path = some e → w.syms e = some o →
      DGen.symAt w.syms id path = some e := by
  induction path using List.reverseRecOn with
  | nil => exact fun he _ => he
  | append_singleton path i ih =>
    intro id e o he ho
    obtain ⟨c, hpath, hi, hc⟩ := symAt_snoc_iff.mp he
    obtain ⟨oc', hoc', hmem⟩ := mem_elemsOf_iff.mp (List.mem_of_getElem? hc)
    have hlt := htree.lt_next ho
    cases hoc : w.syms c with
    | none =>
      have := (h.new c oc' hoc hoc').2.2 e hmem
      omega
    | some oc =>
      obtain ⟨oc'', hoc'', -, hsame | ⟨_, _, _, -, hsized, helems⟩⟩ := h.kept c oc hoc
      · cases hoc'.symm.trans hoc''
        refine symAt_snoc_iff.mpr ⟨c, ih hpath hoc, hi, ?_⟩
        rw [elemsOf_of_some hoc, ← hsame, ← elemsOf_of_some hoc']
        exact hc
      · cases hoc'.symm.trans hoc''
        rw [hsized] at hmem
        have := helems e hmem
        omega

end Grown

/-! ## Looking an element up -/

/-- What looking an element of `arr` up does: `arr` gets its length, and no other input changes. -/
structure Sizing (arr : SymId) (w w' : World) : Prop where
  ok : w'.Ok
  grown : Grown w w'
  z3 : w'.z3 = w.z3
  others : ∀ r : Nat, r < w.next → r ≠ arr → r ∈ w.inputs → w'.syms r = w.syms r
  sized : ∃ o, w'.syms arr = some o ∧ o.val.determined = true

theorem grown_rebuild {w : World} {arr : Nat} {name : String} {type : ArrType} {elems : List SymId}
    (size : BitVec 32) (htree : Tree w.syms w.inputs w.next)
    (ho : w.syms arr = some ⟨name, .array type none elems⟩) :
    Grown w (w.rebuild arr name type elems size) ∧
      ∀ j : Nat, j < w.next → j ≠ arr → (w.rebuild arr name type elems size).syms j = w.syms j := by
  obtain rfl := htree.elems_nil ho
  have hold : ∀ j : Nat, j < w.next → j ≠ arr → (w.rebuild arr name type [] size).syms j = w.syms j := by
    intro j hj hne
    rw [World.rebuild, World.setSym_of_ne _ _ hne, World.pushed_syms_of_lt (by exact hj), deleteSyms_nil]
  refine ⟨⟨rfl, rfl, rfl, Nat.le_add_right .., fun j o hj => ?_, fun j o hj hj' => ?_⟩, hold⟩
  · by_cases hne : j = arr
    · subst hne
      cases ho.symm.trans hj
      exact ⟨_, World.setSym_self .., fun _ => rfl,
        .inr ⟨type, size, _, rfl, rfl, fun e he => (List.mem_range'_1.mp he).1⟩⟩
    · exact ⟨o, (hold j (htree.lt_next hj) hne).trans hj, fun _ => rfl, .inl rfl⟩
  · obtain ⟨rfl, -⟩ | ⟨-, hr, rfl⟩ | ⟨-, hx⟩ := World.rebuild_some hj'
    · cases hj.symm.trans ho
    · refine ⟨hr.1, ?_, by simp⟩
      obtain h | h | h | ⟨_, h⟩ := type.elem.newSym_cases <;> simp [h, SymVal.hasVal]
    · cases hj.symm.trans hx

theorem getSize_sizing {arr : SymId} {size : BitVec 32} {w w' : World} (h : getSize arr w = .ok (size, w'))
    (hok : w.Ok) : Sizing arr w w' := by
  have hok' := (getSize_generates h hok).1.ok hok
  obtain ⟨name, type, s, elems, hsym, ⟨rfl, rfl⟩ | ⟨rfl, -, rfl⟩⟩ := getSize_ok_iff.mp h
  · exact ⟨hok, .refl _, rfl, fun _ _ _ _ => rfl, _, hsym, rfl⟩
  · obtain ⟨hgrown, hold⟩ := grown_rebuild (w := w.drawn) size hok.tree hsym
    exact ⟨hok', (Grown.of_syms rfl rfl rfl (Nat.le_refl _) rfl : Grown w w.drawn).trans hgrown, rfl,
      fun r hr hne _ => hold r hr hne, _, World.setSym_self .., rfl⟩

theorem getElem_sizing {arr e : SymId} {idx : BitVec 32} {w w' : World} (h : getElem arr idx w = .ok (e, w'))
    (hok : w.Ok) : Sizing arr w w' ∧ symAt w'.syms arr [idx] = some e := by
  obtain ⟨size, w₁, hs, h⟩ := bind_ok_iff.mp h
  have hsizing := getSize_sizing hs hok
  split at h
  · simp at h
  · obtain ⟨⟨name, val⟩, _, hget, h⟩ := bind_ok_iff.mp h
    obtain ⟨ho, rfl⟩ := getSym_ok_iff.mp hget
    cases val with
    | array type s elems =>
      simp only at h
      split at h
      · simp at h
      · obtain ⟨he, rfl⟩ := ofOption_ok_iff.mp h
        refine ⟨hsizing, symAt_cons_iff.mpr ⟨e, by omega, ?_, rfl⟩⟩
        rw [elemsOf_of_some ho]
        exact he
    | _ => simp at h

theorem Sizing.trans_below {arr sub : SymId} {w w' w'' : World} (h : Sizing arr w w') (hsub : sub ∉ w.inputs)
    (h' : Sizing sub w' w'') : Sizing arr w w'' where
  ok := h'.ok
  grown := h.grown.trans h'.grown
  z3 := h'.z3.trans h.z3
  others := by
    intro r hr hne hin
    rw [h'.others r (Nat.lt_of_lt_of_le hr h.grown.next) (fun he => hsub (he ▸ hin)) (h.grown.inputs ▸ hin)]
    exact h.others r hr hne hin
  sized := by
    obtain ⟨o, ho, hd⟩ := h.sized
    obtain ⟨o', ho', -, hsame | ⟨_, _, _, -, hsized, -⟩⟩ := h'.grown.kept arr o ho
    · exact ⟨o', ho', hsame ▸ hd⟩
    · exact ⟨o', ho', by rw [hsized]; rfl⟩

theorem getSymbolByIdxs_sizing : ∀ {path : List (BitVec 32)} {arr e : SymId} {w w' : World},
    getSymbolByIdxs arr path w = .ok (e, w') → w.Ok → Sizing arr w w' ∧ symAt w'.syms arr path = some e
  | [], _, _, _, _, h, _ => by simp [getSymbolByIdxs] at h
  | [_], _, _, _, _, h, hok => getElem_sizing h hok
  | i :: j :: path, arr, e, w, w', h, hok => by
    obtain ⟨sub, w₁, hsub, h⟩ := bind_ok_iff.mp h
    obtain ⟨hsizing, hat⟩ := getElem_sizing hsub hok
    obtain ⟨hsizing', hat'⟩ := getSymbolByIdxs_sizing h hsizing.ok
    obtain ⟨c, hi, hc, hcsub⟩ := symAt_cons_iff.mp hat
    obtain rfl := Option.some.inj hcsub
    have hnin := (hsizing.ok.tree.child arr c (List.mem_of_getElem? hc)).2
    exact ⟨hsizing.trans_below (hsizing.grown.inputs ▸ hnin) hsizing',
      symAt_cons_iff.mpr ⟨c, hi, hsizing'.grown.getElem?_elemsOf hc, hat'⟩⟩

/-! ## One mention -/

def SymVal.isArray : SymVal → Bool
  | .array _ _ _ => true
  | _ => false

/-- The constant `get_expr` makes of a symbol without a value. -/
def SymVal.const (v : SymVal) (name : String) : ZExpr :=
  match v with
  | .bool _ => .boolConst name
  | _ => .intConst name

/-- The name of what is at some indices of an input. -/
def constName (name : String) (path : List (BitVec 32)) : String := if path = [] then name else elemName name path

/-- An expression is recorded unless the input has a value. -/
def Z3Visitor.recordUnless (z : Z3Visitor) (hasVal : Bool) (sym : SymId) (e : ZExpr) : Z3Visitor :=
  if hasVal then z else z.record sym e

section

variable {z : Z3Visitor} {b : Bool} {sym s : SymId} {e : ZExpr} {k : Nat}

theorem Z3Visitor.recordUnless_keys (h : (z.symsToExprId.map (·.1)).Nodup) :
    ((z.recordUnless b sym e).symsToExprId.map (·.1)).Nodup := by
  cases b with
  | true => exact h
  | false =>
    simp only [recordUnless, record, Bool.false_eq_true, if_false, List.map_cons, List.nodup_cons]
    refine ⟨by simp, h.sublist (List.filter_sublist.map _)⟩

/-- An entry is the new one, or an old one. -/
theorem Z3Visitor.recordUnless_entry (h : (s, k) ∈ (z.recordUnless b sym e).symsToExprId) :
    (s = sym ∧ b = false ∧ (z.recordUnless b sym e).exprs[k]? = some e) ∨
      ((s, k) ∈ z.symsToExprId ∧ ∀ e', z.exprs[k]? = some e' → (z.recordUnless b sym e).exprs[k]? = some e') := by
  cases b with
  | true => exact .inr ⟨h, fun _ he => he⟩
  | false =>
    simp only [recordUnless, record, Bool.false_eq_true, if_false, List.mem_cons, Prod.mk.injEq, List.mem_filter] at h ⊢
    obtain ⟨rfl, rfl⟩ | ⟨h, -⟩ := h
    · exact .inl ⟨rfl, trivial, by simp⟩
    · refine .inr ⟨h, fun e' he => ?_⟩
      obtain ⟨hlt, -⟩ := List.getElem?_eq_some_iff.mp he
      rw [List.getElem?_append_left hlt]
      exact he

theorem Z3Visitor.recordUnless_mem (h : (∃ k, (s, k) ∈ z.symsToExprId) ∨ s = sym ∧ b = false) :
    ∃ k, (s, k) ∈ (z.recordUnless b sym e).symsToExprId := by
  cases b with
  | true =>
    obtain h | ⟨-, h⟩ := h
    · exact h
    · cases h
  | false =>
    simp only [recordUnless, record, Bool.false_eq_true, if_false, List.mem_cons, List.mem_filter]
    by_cases hs : s = sym
    · exact ⟨_, .inl (by rw [hs])⟩
    · obtain ⟨k, hk⟩ | ⟨h, -⟩ := h
      · exact ⟨k, .inr ⟨hk, by simpa using hs⟩⟩
      · exact absurd h hs

end

theorem genSymExpr_ok {sym : SymId} {w w' : World} {z : ZExpr} (h : genSymExpr sym w = .ok (z, w')) :
    ∃ o, w.syms sym = some o ∧ o.val.isArray = false ∧
      w' = { w with z3 := w.z3.recordUnless o.val.hasVal sym (o.val.const o.name) } := by
  obtain ⟨⟨name, val⟩, _, hget, h⟩ := bind_ok_iff.mp h
  obtain ⟨ho, rfl⟩ := getSym_ok_iff.mp hget
  obtain ⟨e, w₁, he, h⟩ := bind_ok_iff.mp h
  refine ⟨_, ho, ?_⟩
  have hfresh : ∀ {e : ZExpr} {w₁ : World}, (do
      record sym e
      return e : M ZExpr) w = .ok (z, w₁) → w₁ = { w with z3 := w.z3.record sym e } := by
    intro e w₁ h
    obtain ⟨_, _, hr, h⟩ := bind_ok_iff.mp h
    obtain ⟨-, rfl⟩ := pure_ok_iff.mp h
    exact (modify_ok_iff.mp hr).symm
  cases val with
  | number v | char v | bool v =>
    cases v <;> obtain ⟨rfl, rfl⟩ := pure_ok_iff.mp he
    · exact ⟨rfl, hfresh h⟩
    · exact ⟨rfl, (pure_ok_iff.mp h).2.symm⟩
  | array => simp [SymObj.getExpr] at he

theorem genMention_length_ok {id : SymId} {w w' : World} {z : ZExpr} (h : genMention (.length id) w = .ok (z, w')) :
    ∃ o, w.syms id = some o ∧ o.val.isArray = true ∧
      w' = { w with z3 := w.z3.recordUnless o.val.determined id (.intConst (o.name ++ ".len")) } := by
  obtain ⟨⟨name, val⟩, _, hget, h⟩ := bind_ok_iff.mp h
  obtain ⟨ho, rfl⟩ := getSym_ok_iff.mp hget
  refine ⟨_, ho, ?_⟩
  cases val with
  | array type s elems =>
    cases s with
    | some size => exact ⟨rfl, (pure_ok_iff.mp h).2.symm⟩
    | none =>
      obtain ⟨_, _, hr, h⟩ := bind_ok_iff.mp h
      obtain ⟨-, rfl⟩ := pure_ok_iff.mp h
      exact ⟨rfl, (modify_ok_iff.mp hr).symm⟩
  | _ => simp at h

/-- A symbol is given a value or a name. -/
theorem World.Ok.setSym {w : World} (hok : w.Ok) {id : SymId} {o o' : SymObj} (ho : w.syms id = some o)
    (hcls : o'.val.cls = o.val.cls) (helems : o'.val.elems = o.val.elems) (hsized : o'.val.Sized) :
    (w.setSym id o').Ok := by
  have hdata : ∀ {p}, w.DataPtr p → (w.setSym id o').DataPtr p := by
    intro p hp
    refine ⟨?_, hp.2⟩
    rw [World.setSym_of_ne]
    · exact hp.1
    · rintro rfl
      cases hp.1.symm.trans ho
  exact ⟨hok.tree.update ho hcls helems hsized, fun b bs p i hb hmem => hdata (hok.mem b bs p i hb hmem),
    fun r p hp => hdata (hok.frame r p hp), fun x hx => ⟨hdata (hok.globals x hx).1, (hok.globals x hx).2⟩⟩

theorem grown_rename {w : World} {sym : SymId} {o : SymObj} (ho : w.syms sym = some o) (hnin : sym ∉ w.inputs)
    (name : String) : Grown w (w.setSym sym { o with name }) where
  inputs := rfl
  globals := rfl
  ctx := rfl
  next := Nat.le_refl _
  kept := by
    intro j x hx
    by_cases hj : j = sym
    · subst hj
      cases ho.symm.trans hx
      exact ⟨_, World.setSym_self .., fun hin => absurd hin hnin, .inl rfl⟩
    · exact ⟨x, (World.setSym_of_ne _ _ hj).trans hx, fun _ => rfl, .inl rfl⟩
  new := by
    intro j x hnone hx
    have hj : j ≠ sym := by
      rintro rfl
      cases hnone.symm.trans ho
    cases hnone.symm.trans ((World.setSym_of_ne _ _ hj).symm.trans hx)

/-- What a mention of a value comes to before it is recorded. -/
structure Reaches (id : SymId) (path : List (BitVec 32)) (w w' : World) (sym : SymId) (o : SymObj) : Prop where
  ok : w'.Ok
  grown : Grown w w'
  z3 : w'.z3 = w.z3
  others : ∀ r : Nat, r < w.next → r ≠ id → r ∈ w.inputs → w'.syms r = w.syms r
  sized : ∀ r, w'.syms id = some r → r.val.isArray = true → r.val.determined = true
  place : symAt w'.syms id path = some sym
  obj : w'.syms sym = some o
  name : ∀ r, w.syms id = some r → o.name = constName r.name path
  scalar : o.val.isArray = false

theorem genMention_value_ok {id : SymId} {path : List (BitVec 32)} {w w' : World} {z : ZExpr}
    (h : genMention (.value id path) w = .ok (z, w')) (hok : w.Ok) (hid : id ∈ w.inputs) :
    ∃ w₁ sym o, Reaches id path w w₁ sym o ∧
      w' = { w₁ with z3 := w₁.z3.recordUnless o.val.hasVal sym (o.val.const o.name) } := by
  cases path with
  | nil =>
    obtain ⟨o, ho, hscalar, rfl⟩ := genSymExpr_ok h
    refine ⟨w, id, o, ⟨hok, .refl _, rfl, fun _ _ _ _ => rfl, fun r hr harr => ?_, rfl, ho, fun r hr => ?_, hscalar⟩, rfl⟩
    · cases ho.symm.trans hr
      rw [hscalar] at harr
      cases harr
    · cases ho.symm.trans hr
      rfl
  | cons i path =>
    obtain ⟨sym, w₁, hsym, h⟩ := bind_ok_iff.mp h
    obtain ⟨hsizing, hat⟩ := getSymbolByIdxs_sizing hsym hok
    obtain ⟨r, _, hgr, h⟩ := bind_ok_iff.mp h
    obtain ⟨hr, rfl⟩ := getSym_ok_iff.mp hgr
    obtain ⟨o, _, hgo, h⟩ := bind_ok_iff.mp h
    obtain ⟨ho, rfl⟩ := getSym_ok_iff.mp hgo
    obtain ⟨_, _, hs, h⟩ := bind_ok_iff.mp h
    obtain rfl := setSym_ok_iff.mp hs
    obtain ⟨o', ho', hscalar, rfl⟩ := genSymExpr_ok h
    rw [World.setSym_self] at ho'
    cases ho'
    -- the element is no input, so its new name is not an input's
    have hnin : sym ∉ w₁.inputs := by
      obtain ⟨c, -, -, hc⟩ := symAt_snoc_iff.mp ((List.dropLast_concat_getLast (List.cons_ne_nil i path)).symm ▸ hat)
      exact (hsizing.ok.tree.child c sym (List.mem_of_getElem? hc)).2
    have hrename := grown_rename ho hnin (elemName r.name (i :: path))
    have hother : ∀ j : Nat, j ∈ w₁.inputs → (w₁.setSym sym { o with name := elemName r.name (i :: path) }).syms j = w₁.syms j :=
      fun j hj => World.setSym_of_ne _ _ fun he => hnin (he ▸ hj)
    have hin₁ : id ∈ w₁.inputs := hsizing.grown.inputs ▸ hid
    refine ⟨w₁.setSym sym { o with name := elemName r.name (i :: path) }, sym,
      { o with name := elemName r.name (i :: path) }, ⟨hsizing.ok.setSym ho rfl rfl (hsizing.ok.tree.sized _ o ho), hsizing.grown.trans hrename,
      hsizing.z3, fun j hj hne hin => ?_, fun r' hr' _ => ?_, hrename.symAt hat, World.setSym_self .., fun r' hr' => ?_,
      hscalar⟩, rfl⟩
    · rw [hother j (hsizing.grown.inputs ▸ hin)]
      exact hsizing.others j hj hne hin
    · obtain ⟨x, hx, hd⟩ := hsizing.sized
      rw [hother id hin₁, hx] at hr'
      cases hr'
      exact hd
    · obtain ⟨x, hx, hname, -⟩ := hsizing.grown.kept id r' hr'
      cases hr.symm.trans hx
      simp [constName, hname hid]

/-! ## What is recorded -/

/-- A constant that stands for an undetermined input of the state before,
`done` being the mentions there were. -/
inductive RecordedAs (w₀ : World) (done : List Mention) (w : World) : SymId → ZExpr → Prop
  | value {id : SymId} {path : List (BitVec 32)} {r : SymObj} {sym : SymId} {o : SymObj}
    (hdone : .value id path ∈ done) (hr : w₀.syms id = some r) (hplace : symAt w.syms id path = some sym)
    (ho : w.syms sym = some o) (hscalar : o.val.isArray = false) (hval : o.val.hasVal = false) :
    RecordedAs w₀ done w sym (o.val.const (constName r.name path))
  | length {id : SymId} {pre post : List Mention} {r : SymObj} (hdone : done = pre ++ .length id :: post)
    (hpre : ∀ path, .value id path ∉ pre) (hr : w₀.syms id = some r) (harr : r.val.isArray = true)
    (hval : r.val.determined = false) : RecordedAs w₀ done w id (.intConst (r.name ++ ".len"))

structure Recorded (w₀ : World) (done : List Mention) (w : World) : Prop where
  before : w₀.Ok
  ok : w.Ok
  grown : Grown w₀ w
  inputs : ∀ id path, .value id path ∈ done ∨ .length id ∈ done → id ∈ w.inputs
  /-- a lookup has drawn the length, and nothing else has -/
  looked : ∀ id path r, .value id path ∈ done → w.syms id = some r → r.val.isArray = true → r.val.determined = true
  unlooked : ∀ id : Nat, id ∈ w₀.inputs → (∀ path, .value id path ∉ done) → w.syms id = w₀.syms id
  keys : (w.z3.symsToExprId.map (·.1)).Nodup
  entry : ∀ sym k, (sym, k) ∈ w.z3.symsToExprId → ∃ e, w.z3.exprs[k]? = some e ∧ RecordedAs w₀ done w sym e
  value : ∀ id path, .value id path ∈ done → ∃ sym o, symAt w.syms id path = some sym ∧ w.syms sym = some o ∧
    o.val.isArray = false ∧ (o.val.hasVal = false → ∃ k, (sym, k) ∈ w.z3.symsToExprId)
  length : ∀ id pre post r, done = pre ++ .length id :: post → (∀ path, .value id path ∉ pre) →
    w₀.syms id = some r → r.val.determined = false → ∃ k, (id, k) ∈ w.z3.symsToExprId

theorem RecordedAs.mono {w₀ w w' : World} {done : List Mention} {sym : SymId} {e : ZExpr}
    (h : RecordedAs w₀ done w sym e) (hg : Grown w w') (rest : List Mention) :
    RecordedAs w₀ (done ++ rest) w' sym e := by
  cases h with
  | value hdone hr hplace ho hscalar hval =>
    obtain ⟨o', ho', -, hsame | ⟨_, _, _, hnone, -⟩⟩ := hg.kept _ _ ho
    · rw [← hsame] at hscalar hval ⊢
      exact .value (List.mem_append_left _ hdone) hr (hg.symAt hplace) ho' hscalar hval
    · rw [hnone] at hscalar
      cases hscalar
  | @length _ pre post _ hdone hpre hr harr hval =>
    exact .length (by rw [hdone, List.append_assoc, List.cons_append]) hpre hr harr hval

namespace Recorded

variable {w₀ w w' : World} {done : List Mention}

theorem start (hok : w₀.Ok) : Recorded w₀ [] { w₀ with z3 := ⟨[], []⟩ } where
  before := hok
  ok := ⟨hok.tree, hok.mem, hok.frame, hok.globals⟩
  grown := .of_syms rfl rfl rfl (Nat.le_refl _) rfl
  inputs := by simp
  looked := by simp
  unlooked := fun _ _ _ => rfl
  keys := by simp
  entry := by simp
  value := by simp
  length := by simp

theorem quiet (h : Recorded w₀ done w) (hq : Quiet w w') : Recorded w₀ done w' := by
  obtain ⟨r, l, rfl⟩ := hq
  have hg : Grown w { w with rand := r, allocatedVals := l } := .of_syms rfl rfl rfl (Nat.le_refl _) rfl
  exact { h with
    ok := ⟨h.ok.tree, h.ok.mem, h.ok.frame, h.ok.globals⟩
    grown := h.grown.trans hg
    entry := fun sym k hk => by
      obtain ⟨e, he, hrec⟩ := h.entry sym k hk
      exact ⟨e, he, List.append_nil done ▸ hrec.mono hg []⟩ }

/-- A mention, which is recorded or not. -/
theorem step (h : Recorded w₀ done w) {μ : Mention} {w₁ : World} {b : Bool} {sym : SymId} {e : ZExpr}
    (hok : w₁.Ok) (hg : Grown w w₁) (hz : w₁.z3 = w.z3)
    (hin : ∀ id path, μ = .value id path ∨ μ = .length id → id ∈ w.inputs)
    (hlooked : ∀ id path r, μ = .value id path → w₁.syms id = some r → r.val.isArray = true → r.val.determined = true)
    (hunlooked : ∀ id : Nat, id ∈ w.inputs → (∀ path, μ ≠ .value id path) → w₁.syms id = w.syms id)
    (hrec : b = false → RecordedAs w₀ (done ++ [μ]) w₁ sym e)
    (hvalue : ∀ id path, μ = .value id path → symAt w₁.syms id path = some sym ∧
      ∃ o, w₁.syms sym = some o ∧ o.val.isArray = false ∧ b = o.val.hasVal)
    (hlength : ∀ id r, μ = .length id → (∀ path, .value id path ∉ done) → w₀.syms id = some r →
      r.val.determined = false → sym = id ∧ b = false) :
    Recorded w₀ (done ++ [μ]) { w₁ with z3 := w₁.z3.recordUnless b sym e } := by
  have hg' : Grown w₁ { w₁ with z3 := w₁.z3.recordUnless b sym e } := .of_syms rfl rfl rfl (Nat.le_refl _) rfl
  have hold : ∀ {s}, (∃ k, (s, k) ∈ w.z3.symsToExprId) → ∃ k, (s, k) ∈ (w₁.z3.recordUnless b sym e).symsToExprId :=
    fun hk => Z3Visitor.recordUnless_mem (.inl (hz ▸ hk))
  refine ⟨h.before, ⟨hok.tree, hok.mem, hok.frame, hok.globals⟩, h.grown.trans (hg.trans hg'), fun id path hmem => ?_,
    fun id path r hmem hr harr => ?_, fun id hid hmem => ?_, Z3Visitor.recordUnless_keys (hz ▸ h.keys),
    fun s k hk => ?_, fun id path hmem => ?_, fun id pre post r hdone hpre hr hval => ?_⟩
  · simp only [List.mem_append, List.mem_singleton] at hmem
    show id ∈ w₁.inputs
    rw [hg.inputs]
    obtain (hmem | rfl) | (hmem | rfl) := hmem
    · exact h.inputs id path (.inl hmem)
    · exact hin id path (.inl rfl)
    · exact h.inputs id path (.inr hmem)
    · exact hin id path (.inr rfl)
  · simp only [List.mem_append, List.mem_singleton] at hmem
    obtain hmem | rfl := hmem
    · obtain ⟨sym', o', hplace, ho', -⟩ := h.value id path hmem
      obtain ⟨r', hr'⟩ := symAt_some hplace ho'
      obtain ⟨r'', hr'', -, hsame | ⟨_, _, _, -, hsized, -⟩⟩ := hg.kept id r' hr'
      · cases hr.symm.trans hr''
        rw [hsame] at harr ⊢
        exact h.looked id path r' hmem hr' harr
      · cases hr.symm.trans hr''
        rw [hsized]
        rfl
    · exact hlooked id path r rfl hr harr
  · simp only [List.mem_append, List.mem_singleton, not_or] at hmem
    exact (hunlooked id (h.grown.inputs ▸ hid) fun path he => (hmem path).2 he.symm).trans
      (h.unlooked id hid fun path => (hmem path).1)
  · obtain ⟨rfl, hb, he⟩ | ⟨hk, he⟩ := Z3Visitor.recordUnless_entry hk
    · exact ⟨e, he, List.append_nil (done ++ [μ]) ▸ (hrec hb).mono hg' []⟩
    · obtain ⟨e', he', hrec'⟩ := h.entry s k (hz ▸ hk)
      exact ⟨e', he e' (hz ▸ he'), hrec'.mono (hg.trans hg') [μ]⟩
  · simp only [List.mem_append, List.mem_singleton] at hmem
    obtain hmem | rfl := hmem
    · obtain ⟨s, o, hplace, ho, hscalar, hkey⟩ := h.value id path hmem
      obtain ⟨o', ho', -, hsame | ⟨_, _, _, hnone, -⟩⟩ := hg.kept s o ho
      · exact ⟨s, o', hg.symAt hplace, ho', hsame ▸ hscalar, fun hval => hold (hkey (hsame ▸ hval))⟩
      · rw [hnone] at hscalar
        cases hscalar
    · obtain ⟨hplace, o, ho, hscalar, rfl⟩ := hvalue id path rfl
      exact ⟨sym, o, hplace, ho, hscalar, fun hval => Z3Visitor.recordUnless_mem (.inr ⟨rfl, hval⟩)⟩
  · obtain rfl | ⟨post, ν, rfl⟩ := post.eq_nil_or_concat
    · obtain ⟨rfl, hμ⟩ := List.append_inj' hdone rfl
      obtain ⟨rfl, hb⟩ := hlength id r (List.singleton_inj.mp hμ) hpre hr hval
      exact Z3Visitor.recordUnless_mem (.inr ⟨rfl, hb⟩)
    · rw [List.concat_eq_append, ← List.cons_append, ← List.append_assoc] at hdone
      obtain ⟨hdone, -⟩ := List.append_inj' hdone rfl
      exact hold (h.length id pre post r hdone hpre hr hval)

theorem mention (h : Recorded w₀ done w) {μ : Mention} {z : ZExpr}
    (hin : ∀ id path, μ = .value id path ∨ μ = .length id →
    id ∈ w.inputs) (hgen : genMention μ w = .ok (z, w')) : Recorded w₀ (done ++ [μ]) w' := by
  cases μ with
  | value id path =>
    have hid := hin id path (.inl rfl)
    obtain ⟨w₁, sym, o, hreach, rfl⟩ := genMention_value_ok hgen h.ok hid
    obtain ⟨r₁, hr₁⟩ := symAt_some hreach.place hreach.obj
    -- the input is no new object, so its name is the one it had
    have hlt := h.before.tree.below id (h.grown.inputs ▸ hid)
    obtain ⟨r₀, hr₀⟩ : ∃ r₀, w₀.syms id = some r₀ := by
      cases hr₀ : w₀.syms id with
      | some r₀ => exact ⟨r₀, rfl⟩
      | none =>
        exact absurd hlt (Nat.not_lt.mpr ((h.grown.trans hreach.grown).new id r₁ hr₀ hr₁).1)
    obtain ⟨r, hr, hname, -⟩ := h.grown.kept id r₀ hr₀
    refine h.step hreach.ok hreach.grown hreach.z3 hin (fun id' path' x he hx => ?_) (fun j hj hne => ?_)
      (fun hval => ?_) (fun id' path' he => ?_) fun id' x he => ?_
    · cases he
      exact hreach.sized x hx
    · exact hreach.others j (h.ok.tree.below j hj) (fun he => hne path (he ▸ rfl)) hj
    · rw [hreach.name r hr, hname (h.grown.inputs ▸ hid)]
      exact .value (by simp) hr₀ hreach.place hreach.obj hreach.scalar hval
    · cases he
      exact ⟨hreach.place, o, hreach.obj, hreach.scalar, rfl⟩
    · cases he
  | length id =>
    have hid := hin id [] (.inr rfl)
    obtain ⟨o, hsym, harr, rfl⟩ := genMention_length_ok hgen
    have hunlooked : (∀ path, .value id path ∉ done) → w.syms id = w₀.syms id := h.unlooked id (h.grown.inputs ▸ hid)
    refine h.step h.ok (.refl w) rfl hin (fun _ _ _ he => by cases he) (fun _ _ _ => rfl) (fun hval => ?_)
      (fun _ _ he => by cases he) fun id' r he hpre hr hval => ?_
    · have hpre : ∀ path, .value id path ∉ done := by
        intro path hmem
        cases hval.symm.trans (h.looked id path o hmem hsym harr)
      exact .length rfl hpre (hunlooked hpre ▸ hsym) harr hval
    · cases he
      have hro := (hunlooked hpre).trans hr
      cases hsym.symm.trans hro
      exact ⟨rfl, hval⟩

end Recorded

theorem World.input?_congr {w w₀ : World} (h : w.inputs = w₀.inputs) (r : SymRef) : w.input? r = w₀.input? r := by
  cases r <;> simp [input?, h]

theorem Expr.mention_congr {w w₀ : World} (h : w.inputs = w₀.inputs) (hctx : w.ctx = w₀.ctx) (x : Expr Symbol) :
    x.mention w = x.mention w₀ := by
  cases x <;> simp [mention, World.input?_congr h, hctx]

theorem World.mem_of_input? {w : World} {r : SymRef} {id : SymId} (h : w.input? r = some id) : id ∈ w.inputs := by
  cases r with
  | input i => exact List.mem_of_getElem? h
  | var k => cases h

theorem Expr.mention_mem {w : World} {x : Expr Symbol} {id : SymId} {path : List (BitVec 32)}
    (h : x.mention w = some (.value id path) ∨ x.mention w = some (.length id)) : id ∈ w.inputs := by
  cases x <;> simp only [mention, Option.map_eq_some_iff, Mention.value.injEq, Mention.length.injEq, reduceCtorEq,
    and_false, exists_false, or_false, false_or, or_self] at h
  all_goals
    obtain ⟨_, hin, h⟩ := h
    simp only [← h]
    exact World.mem_of_input? hin

/-- `gen_expr` adds the mentions of an expression. -/
theorem genExpr_recorded {w₀ : World} (e : Expr Symbol) : ∀ {done : List Mention} {w w' : World} {z : ZExpr},
    genExpr e w = .ok (z, w') → Recorded w₀ done w → Recorded w₀ (done ++ e.mentions w₀) w' := by
  have hleaf : ∀ {x : Expr Symbol}, (∀ node op lhs rhs, x ≠ .binOp node op lhs rhs) → x.leaves = [x] →
      ∀ {done : List Mention} {w w' : World} {z : ZExpr}, genExpr x w = .ok (z, w') → Recorded w₀ done w →
        Recorded w₀ (done ++ x.mentions w₀) w' := by
    intro x hx hleaves done w w' z h hrec
    have hmention := x.mention_congr hrec.grown.inputs hrec.grown.ctx
    rw [Expr.mentions, hleaves]
    obtain ⟨hnone, hq⟩ | ⟨μ, hμ, hgen⟩ := genExpr_leaf hx h
    · rw [hmention] at hnone
      simpa [hnone] using hrec.quiet hq
    · have := hrec.mention (fun id path he => ?_) hgen
      · rw [hmention] at hμ
        simpa [hμ] using this
      · exact Expr.mention_mem (he.imp (· ▸ hμ) (· ▸ hμ))
  induction e with
  | binOp node op lhs rhs ihl ihr =>
    intro done w w' z h hrec
    obtain ⟨zl, w₁, hl, h⟩ := bind_ok_iff.mp h
    obtain ⟨zr, w₂, hr, h⟩ := bind_ok_iff.mp h
    have hw : w₂ = w' := by
      unfold mkBinOp at h
      split at h
      · exact (pure_ok_iff.mp h).2
      · simp at h
    subst hw
    have := ihr hr (ihl hl hrec)
    rw [List.append_assoc] at this
    simpa [Expr.mentions, Expr.leaves] using this
  | _ => exact hleaf (fun _ _ _ _ he => by cases he) rfl

theorem mkNot_ok {e z : ZExpr} {w w' : World} (h : mkNot e w = .ok (z, w')) : w = w' := by
  unfold mkNot at h
  split at h
  · exact (pure_ok_iff.mp h).2
  · simp at h

theorem roll_quiet {prob : BitVec 32} {e z : ZExpr} {w w' : World} (h : roll prob e w = .ok (z, w')) : Quiet w w' := by
  unfold roll at h
  split at h
  · obtain ⟨r, _, hr, h⟩ := bind_ok_iff.mp h
    obtain ⟨-, rfl⟩ := rand_ok_iff.mp hr
    refine ⟨fun i => w.rand (i + 1), w.allocatedVals, ?_⟩
    split at h
    · exact (mkNot_ok h).symm
    · exact (pure_ok_iff.mp h).2.symm
  · obtain ⟨-, rfl⟩ := pure_ok_iff.mp h
    exact .refl w

/-- **What is recorded** when the solver is called: the mentions of the condition and the precondition. -/
theorem genFormulas_recorded {cond : Expr Symbol} {precond : PrecondNode Symbol} {fs : List ZExpr} {w w' : World}
    (h : genFormulas cond precond w = .ok (fs, w')) (hok : w.Ok) : Recorded w (mentions w cond precond) w' := by
  obtain ⟨_, _, hm, h⟩ := bind_ok_iff.mp h
  obtain rfl := modify_ok_iff.mp hm
  obtain ⟨zc, w₁, hc, h⟩ := bind_ok_iff.mp h
  have hrec := genExpr_recorded cond hc (.start hok)
  obtain ⟨_, w₂, hr, h⟩ := bind_ok_iff.mp h
  obtain ⟨-, rfl⟩ := rand_ok_iff.mp hr
  obtain ⟨zc', w₃, hroll, h⟩ := bind_ok_iff.mp h
  have hrec := (hrec.quiet ⟨_, _, rfl⟩).quiet (roll_quiet hroll)
  cases hp : precond.expr with
  | none =>
    rw [hp] at h
    obtain ⟨-, rfl⟩ := pure_ok_iff.mp h
    simpa [mentions, hp] using hrec
  | some e =>
    rw [hp] at h
    obtain ⟨ze, w₄, he, h⟩ := bind_ok_iff.mp h
    obtain ⟨-, rfl⟩ := pure_ok_iff.mp h
    simpa [mentions, hp] using genExpr_recorded e he hrec

end DGen
