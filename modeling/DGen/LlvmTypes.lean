/-
Which values have the machine type of their source type.

`get_type` and `code_gen` disagree on three things. A comparison is a `bool`
for the one and an `i1` for the other, which keeps a `bool` in an `i8`;
arithmetic is an `int` for the one and has its operands' type for the other;
and a branch takes an `i1`, while its condition is a `bool`. Everything else
agrees, so a function is generated with the types its source has exactly
when it does none of the three (`codeGen_typed_iff`).
-/
import DGen.Llvm
import DGen.TypeCheck

namespace DGen

/-! ## Machine types of declared types -/

def ScalarType.llvm : ScalarType → LTy
  | .int => .int 32
  | .string => .ptr (.int 8)
  | .char | .bool => .int 8

def DeclTy.llvm (d : DeclTy) : LTy := LTy.ptr^[d.nested] d.scalar.llvm

/-- The declared type below `n` indices. -/
def DeclTy.elems? : DeclTy → Nat → Option DeclTy
  | d, 0 => some d
  | d, n + 1 => d.elem?.bind fun e => e.elems? n

theorem scalarLlvmType_kind (s : ScalarType) : scalarLlvmType s.kind = some s.llvm := by cases s <;> rfl

theorem mapTypeToLlvmType_of_eq {t : Ty} {d : DeclTy} (h : t.eq d.toTy = true) :
    mapTypeToLlvmType t = .ok d.llvm := by
  obtain ⟨hlen, htypes⟩ := Ty.eq_toTy_iff.mp h
  have hlast : t.types.getLast? = some d.scalar.kind := by
    have := congrArg List.getLast? htypes
    rw [List.getLast?_drop, List.getLast?_concat] at this
    split at this
    · cases this
    · exact this
  simp [mapTypeToLlvmType, hlast, scalarLlvmType_kind, hlen, DeclTy.llvm]

@[simp] theorem mapTypeToLlvmType_toTy (d : DeclTy) : mapTypeToLlvmType d.toTy = .ok d.llvm :=
  mapTypeToLlvmType_of_eq (Ty.eq_refl _)

theorem mapTypeToLlvmType_ofKind (s : ScalarType) : mapTypeToLlvmType (.ofKind s.kind) = .ok s.llvm :=
  mapTypeToLlvmType_toTy ⟨s, 0⟩

/-- A pointer to elements points to the type of one. -/
theorem DeclTy.llvm_of_elem? {d e : DeclTy} (h : d.elem? = some e) : d.llvm = .ptr e.llvm := by
  match d, h with
  | ⟨s, n + 1⟩, h =>
    cases h
    exact Function.iterate_succ_apply' LTy.ptr n _
  | ⟨.string, 0⟩, h => cases h; rfl

theorem dropTypes_toTy {n : Nat} : ∀ {t : Ty} {d : DeclTy}, t.eq d.toTy = true →
    (∃ e, d.elems? n = some e ∧ (dropTypes t n).eq e.toTy = true) ∨
      d.elems? n = none ∧ (dropTypes t n).length ≤ 0 := by
  have hneg : ∀ {n : Nat} {t : Ty}, t.length ≤ 0 → (dropTypes t n).length ≤ 0 := by
    intro n
    induction n with
    | zero => exact fun h => h
    | succ n ih => exact fun h => ih (Ty.dropType_length_nonpos h)
  induction n with
  | zero => exact fun h => .inl ⟨_, rfl, h⟩
  | succ n ih =>
    intro t d h
    rcases Ty.dropType_toTy h with ⟨e, he, heq⟩ | ⟨hnone, hlen⟩
    · simpa [DeclTy.elems?, he, dropTypes] using ih heq
    · have hlen : (dropTypes t.dropType n).length ≤ 0 := hneg hlen
      exact .inr ⟨by simp [DeclTy.elems?, hnone], hlen⟩

/-- A lookup that has a type has a declared one. -/
theorem getType_arrLookup_ok_iff {node : ASTNode} {i : IdentNode Symbol} {idxs : List (Expr Symbol)} {t : Ty} :
    (Expr.arrLookup node i idxs).getType = .ok t ↔ dropTypes i.symbol.type.toTy idxs.length = t ∧
      ∃ d, i.symbol.type.elems? idxs.length = some d ∧ t.eq d.toTy = true := by
  simp only [Expr.getType]
  rcases dropTypes_toTy (n := idxs.length) (Ty.eq_refl i.symbol.type.toTy) with ⟨d, hd, heq⟩ | ⟨hnone, hlen⟩
  · have hk : (dropTypes i.symbol.type.toTy idxs.length).eqKind .invalid = false := by
      rw [Bool.eq_false_iff, ne_eq, Ty.eqKind_iff, Ty.getCurrentType_congr heq]
      rintro ⟨-, h⟩
      obtain ⟨s, n⟩ := d
      cases n <;> cases s <;> cases h
    simp only [hk, Bool.false_eq_true, if_false, Except.ok.injEq, hd, Option.some.injEq]
    exact ⟨fun h => ⟨h, d, rfl, h ▸ heq⟩, fun h => h.1⟩
  · have hk : (dropTypes i.symbol.type.toTy idxs.length).eqKind .invalid = true :=
      Ty.eqKind_iff.mpr ⟨by omega, Ty.getCurrentType_of_length_nonpos hlen⟩
    simp [hk, buildError, hnone]

/-- Every type `get_type` gives is a declared one. -/
theorem Expr.getType_declared {e : Expr Symbol} {t : Ty} (h : e.getType = .ok t) :
    ∃ d : DeclTy, t.eq d.toTy = true := by
  cases e with
  | arrLookup node i idxs =>
    obtain ⟨-, d, -, hd⟩ := getType_arrLookup_ok_iff.mp h
    exact ⟨d, hd⟩
  | binOp node op l r =>
    simp only [getType, Except.bind_ok_iff, binOpGetType_ok_iff] at h
    obtain ⟨_, -, _, -, rfl, -⟩ := h
    cases op
    all_goals first | exact ⟨⟨.int, 0⟩, rfl⟩ | exact ⟨⟨.bool, 0⟩, rfl⟩
  | propertyLookup node i p =>
    simp only [getType] at h
    split at h <;> try split at h
    all_goals cases h
    exact ⟨⟨.int, 0⟩, rfl⟩
  | char => cases h; exact ⟨⟨.char, 0⟩, rfl⟩
  | string => cases h; exact ⟨⟨.string, 0⟩, rfl⟩
  | number => cases h; exact ⟨⟨.int, 0⟩, rfl⟩
  | bool => cases h; exact ⟨⟨.bool, 0⟩, rfl⟩
  | ident n => cases h; exact ⟨_, Ty.eq_refl _⟩
  | arrCreate => cases h; exact ⟨_, Ty.eq_refl _⟩

/-- The machine type tells `int` from the other types. -/
theorem DeclTy.llvm_eq_int32_iff {d : DeclTy} {t : Ty} (h : t.eq d.toTy = true) :
    d.llvm = .int 32 ↔ t.eqKind .int = true := by
  rw [Ty.eqKind_congr h]
  match d with
  | ⟨s, n + 1⟩ =>
    have hk : (DeclTy.mk s (n + 1)).toTy.eqKind .int = false := by
      rw [Bool.eq_false_iff, ne_eq, Ty.eqKind_iff, Ty.toTy_length]
      push_cast
      omega
    simp [llvm, Function.iterate_succ_apply', hk]
  | ⟨s, 0⟩ => cases s <;> decide

theorem mapTypeToLlvmType_of_eqKind {t : Ty} {e : Expr Symbol} (h : e.getType = .ok t) {s : ScalarType}
    (hk : t.eqKind s.kind = true) : mapTypeToLlvmType t = .ok s.llvm := by
  obtain ⟨⟨s', n⟩, heq⟩ := Expr.getType_declared h
  obtain ⟨hlen, hkind⟩ := Ty.eqKind_iff.mp hk
  obtain rfl : n = 0 := by
    have := (Ty.eq_toTy_iff.mp heq).1
    push_cast at this
    omega
  obtain rfl : s' = s := by
    have : s'.kind = s.kind := by rw [← hkind, Ty.getCurrentType_congr heq]; rfl
    cases s <;> cases s' <;> simp_all [ScalarType.kind]
  exact mapTypeToLlvmType_of_eq heq

/-! ## Typed values -/

mutual
/-- Every arithmetic instruction and comparison has operands of one type. -/
def LVal.operandsAgree : LVal → Bool
  | .getInt8 _ | .getInt32 _ | .globalStringPtr _ | .alloca _ _ | .randGen _ _ | .getPropertyInput _ => true
  | .bin _ lhs rhs | .icmp _ lhs rhs => lhs.ty == rhs.ty && lhs.operandsAgree && rhs.operandsAgree
  | .load _ v | .intCast v _ | .getPropertyLocal _ v | .createArr _ v _ => v.operandsAgree
  | .gep _ addr idx => addr.operandsAgree && idx.operandsAgree
  | .getValArr _ idxs _ => operandsAgreeList idxs

def LVal.operandsAgreeList : List LVal → Bool
  | [] => true
  | v :: vs => v.operandsAgree && operandsAgreeList vs
end

/-- `code_gen` of the expression has the machine type of its `get_type`. -/
def Expr.MachineTyped (e : Expr Symbol) : Prop :=
  ∃ t v, e.getType = .ok t ∧ codeGenExpr e = .ok v ∧ mapTypeToLlvmType t = .ok v.ty ∧ v.operandsAgree = true

/-- What an operator does that its source type does not show: compare, or
calculate with anything but `int`s. -/
def Expr.plain : Expr Symbol → Bool
  | .binOp _ op lhs rhs =>
    match op with
    | .lt | .le | .gt | .ge | .eq | .neq => false
    | .sum | .sub | .mul | .div => lhs.typeIs (·.eqKind .int) && rhs.typeIs (·.eqKind .int)
    | .or | .and => true
  | _ => true

theorem mapTypeToLlvmType_int32_iff {e : Expr Symbol} {t : Ty} (h : e.getType = .ok t) :
    mapTypeToLlvmType t = .ok (.int 32) ↔ t.eqKind .int = true := by
  obtain ⟨d, hd⟩ := Expr.getType_declared h
  rw [mapTypeToLlvmType_of_eq hd, Except.ok.injEq]
  exact DeclTy.llvm_eq_int32_iff hd

section BinOp

variable {node : ASTNode} {op : BinOpType} {lhs rhs : Expr Symbol} {t1 t2 : Ty} {v1 v2 : LVal}

theorem codeGenExpr_binOp (c1 : codeGenExpr lhs = .ok v1) (c2 : codeGenExpr rhs = .ok v2) :
    codeGenExpr (.binOp node op lhs rhs) = .ok (op.inst v1 v2) := by
  rw [codeGenExpr, c1, c2]
  rfl

/-- An operator's own part in being machine typed. -/
theorem Expr.machineTyped_binOp_iff (h1 : lhs.getType = .ok t1) (c1 : codeGenExpr lhs = .ok v1)
    (h2 : rhs.getType = .ok t2) (c2 : codeGenExpr rhs = .ok v2) :
    (Expr.binOp node op lhs rhs).MachineTyped ↔ (Expr.binOp node op lhs rhs).typed = true ∧
      mapTypeToLlvmType (.ofKind op.getOpGroupRes) = .ok (op.inst v1 v2).ty ∧
      (op.inst v1 v2).operandsAgree = true := by
  simp only [MachineTyped, codeGenExpr_binOp c1 c2, typed_iff, getType, h1, h2, Except.ok.injEq]
  constructor
  · rintro ⟨t, _, ht, rfl, hm, ha⟩
    obtain ⟨rfl, -⟩ := binOpGetType_ok_iff.mp ht
    exact ⟨⟨_, ht⟩, hm, ha⟩
  · rintro ⟨⟨t, ht⟩, hm, ha⟩
    obtain ⟨rfl, -⟩ := binOpGetType_ok_iff.mp ht
    exact ⟨_, _, ht, rfl, hm, ha⟩

end BinOp

/-- Over operands of the machine types of their source types, an operator is
right when it is plain. -/
theorem Expr.machineTyped_binOp {node : ASTNode} {op : BinOpType} {lhs rhs : Expr Symbol}
    (hl : lhs.MachineTyped) (hr : rhs.MachineTyped) :
    (Expr.binOp node op lhs rhs).MachineTyped ↔
      (Expr.binOp node op lhs rhs).typed = true ∧ (Expr.binOp node op lhs rhs).plain = true := by
  obtain ⟨t1, v1, h1, c1, m1, a1⟩ := hl
  obtain ⟨t2, v2, h2, c2, m2, a2⟩ := hr
  rw [machineTyped_binOp_iff h1 c1 h2 c2]
  refine and_congr_right fun ht => ?_
  have hint1 := mapTypeToLlvmType_int32_iff h1
  have hint2 := mapTypeToLlvmType_int32_iff h2
  rw [m1, Except.ok.injEq] at hint1
  rw [m2, Except.ok.injEq] at hint2
  have hint : mapTypeToLlvmType (.ofKind .int) = .ok (.int 32) := mapTypeToLlvmType_ofKind .int
  have hbool : mapTypeToLlvmType (.ofKind .bool) = .ok (.int 8) := mapTypeToLlvmType_ofKind .bool
  cases op
  case lt | le | gt | ge | eq | neq =>
    simp [BinOpType.getOpGroupRes, hbool, BinOpType.inst, LVal.ty, plain]
  case sum | sub | mul | div =>
    simp only [BinOpType.getOpGroupRes, hint, BinOpType.inst, LVal.ty, Except.ok.injEq, LVal.operandsAgree,
      a1, a2, Bool.and_true, beq_iff_eq, plain, typeIs, h1, h2, Bool.and_eq_true, ← hint1, ← hint2]
    exact ⟨fun h => ⟨h.1.symm, h.2.symm.trans h.1.symm⟩, fun h => ⟨h.1.symm, h.1.trans h.2.symm⟩⟩
  case or | and =>
    obtain ⟨t1', t2', h1', h2', ⟨-, hb1, hb2⟩ | ⟨hg, -⟩⟩ := typed_binOp_iff.mp ht
    · cases h1.symm.trans h1'
      cases h2.symm.trans h2'
      have e1 := m1.symm.trans (mapTypeToLlvmType_of_eqKind h1 (s := .bool) hb1)
      have e2 := m2.symm.trans (mapTypeToLlvmType_of_eqKind h2 (s := .bool) hb2)
      simp only [Except.ok.injEq, ScalarType.llvm] at e1 e2
      simp [BinOpType.getOpGroupRes, hbool, BinOpType.inst, LVal.ty, LVal.operandsAgree, a1, a2, e1, e2, plain]
    · exact absurd rfl hg

theorem codeGenExprs_of_typed {es : List (Expr Symbol)} (h : ∀ e ∈ es, e.MachineTyped) :
    ∃ vs, codeGenExprs es = .ok vs ∧ vs.length = es.length ∧ LVal.operandsAgreeList vs = true := by
  induction es with
  | nil => exact ⟨[], rfl, rfl, rfl⟩
  | cons e es ih =>
    obtain ⟨_, v, -, hv, -, ha⟩ := h e (by simp)
    obtain ⟨vs, hvs, hlen, has⟩ := ih fun e he => h e (by simp [he])
    refine ⟨v :: vs, ?_, by simp [hlen], by simp [LVal.operandsAgreeList, ha, has]⟩
    rw [codeGenExprs, hv, hvs]
    rfl

/-- The address of an element points to the element's machine type. -/
theorem getLookupAddress_of_typed {idxs : List (Expr Symbol)} (h : ∀ e ∈ idxs, e.MachineTyped) :
    ∀ {addr : LVal} {d d' : DeclTy}, addr.ty = .ptr d.llvm → addr.operandsAgree = true →
      d.elems? idxs.length = some d' →
      ∃ a, getLookupAddress addr idxs = .ok a ∧ a.ty = .ptr d'.llvm ∧ a.operandsAgree = true := by
  induction idxs with
  | nil =>
    intro addr d d' hty ha hd
    cases hd
    exact ⟨addr, rfl, hty, ha⟩
  | cons e es ih =>
    intro addr d d' hty ha hd
    obtain ⟨_, v, -, hv, -, hva⟩ := h e (by simp)
    obtain ⟨d₁, hd₁, hd⟩ := Option.bind_eq_some_iff.mp hd
    have hptr := DeclTy.llvm_of_elem? hd₁
    have hgep : (LVal.gep d₁.llvm (.load d.llvm addr) v).ty = .ptr d₁.llvm := rfl
    obtain ⟨a, hga, haty, haa⟩ := ih (fun e he => h e (by simp [he])) hgep
      (by simp [LVal.operandsAgree, ha, hva]) hd
    refine ⟨a, ?_, haty, haa⟩
    rw [getLookupAddress, hty, hv]
    simp only [LTy.pointee, LVal.ty, hptr, bind, Except.bind] at hga ⊢
    exact hga

theorem Symbol.createAlloca_eq (s : Symbol) : s.createAlloca = .ok (.alloca (some s) s.type.llvm) := by
  simp [createAlloca, mapTypeToLlvmType_toTy, bind, Except.bind, pure, Except.pure]

theorem Symbol.loadAlloca_eq (s : Symbol) :
    s.loadAlloca = .ok (.load s.type.llvm (.alloca (some s) s.type.llvm)) := by
  simp [loadAlloca, createAlloca_eq, LVal.ty, LTy.pointee, bind, Except.bind, pure, Except.pure]

theorem Symbol.randGenType_eq (s : Symbol) : s.randGenType = .ok s.type.llvm := by
  obtain ⟨_, _, ⟨sc, n⟩, _⟩ := s
  cases n with
  | zero => cases sc <;> rfl
  | succ n =>
    have hk : (DeclTy.mk sc (n + 1)).toTy.getCurrentType = .arr := by
      simp [Ty.getCurrentType_eq_head, DeclTy.toTy, List.replicate_succ]
    simp [randGenType, hk]

theorem Expr.machineTyped_ident (n : IdentNode Symbol) : (Expr.ident n).MachineTyped := by
  cases hi : n.symbol.isInput with
  | true =>
    refine ⟨_, .randGen n.symbol n.symbol.type.llvm, rfl, ?_, mapTypeToLlvmType_toTy _, rfl⟩
    simp [codeGenExpr, codeGenIdent, hi, Symbol.randGenType_eq, bind, Except.bind, pure, Except.pure]
  | false =>
    refine ⟨_, .load n.symbol.type.llvm (.alloca (some n.symbol) n.symbol.type.llvm), rfl, ?_,
      mapTypeToLlvmType_toTy _, rfl⟩
    simp [codeGenExpr, codeGenIdent, hi, Symbol.loadAlloca_eq]

/-- A lookup in typed indices is right when it has a type. -/
theorem Expr.machineTyped_arrLookup {node : ASTNode} {i : IdentNode Symbol} {idxs : List (Expr Symbol)}
    (h : ∀ e ∈ idxs, e.MachineTyped) :
    (Expr.arrLookup node i idxs).MachineTyped ↔ (Expr.arrLookup node i idxs).typed = true := by
  rw [typed_iff]
  constructor
  · rintro ⟨t, -, ht, -⟩
    exact ⟨t, ht⟩
  rintro ⟨t, ht⟩
  obtain ⟨hdrop, d, hd, heq⟩ := getType_arrLookup_ok_iff.mp ht
  have hmap := mapTypeToLlvmType_of_eq heq
  cases hi : i.symbol.isInput with
  | true =>
    obtain ⟨vs, hvs, hlen, ha⟩ := codeGenExprs_of_typed h
    refine ⟨t, .getValArr i.symbol vs d.llvm, ht, ?_, hmap, ha⟩
    simp [codeGenExpr, hi, hvs, codeGenIdx, hlen, hdrop, hmap, bind, Except.bind, pure, Except.pure]
  | false =>
    obtain ⟨a, ha, -, hag⟩ := getLookupAddress_of_typed h
      (show (LVal.alloca (some i.symbol) i.symbol.type.llvm).ty = .ptr i.symbol.type.llvm from rfl) rfl hd
    refine ⟨t, .load d.llvm a, ht, ?_, hmap, hag⟩
    simp [codeGenExpr, hi, ht, Symbol.createAlloca_eq, ha, hmap, bind, Except.bind, pure, Except.pure,
      Except.mapError]

theorem Expr.machineTyped_arrCreate {node : ASTNode} {elem : DeclTy} {len : Expr Symbol}
    (h : len.MachineTyped) : (Expr.arrCreate node elem len).MachineTyped := by
  obtain ⟨_, v, -, hv, -, ha⟩ := h
  have helem : elem.insertArr.toTy.dropType.eq elem.toTy = true := Ty.dropType_arr (Ty.eq_refl _)
  obtain ⟨k, hk⟩ : ∃ k, symbolSizeof elem.insertArr.toTy.dropType = .ok k := by
    rw [symbolSizeof, Ty.getCurrentType_congr helem]
    obtain ⟨s, n⟩ := elem
    cases n <;> cases s <;> exact ⟨_, rfl⟩
  refine ⟨_, .createArr elem.insertArr.llvm v k, rfl, ?_, mapTypeToLlvmType_toTy _, ha⟩
  simp [codeGenExpr, hk, hv, bind, Except.bind, pure, Except.pure]

theorem Expr.machineTyped_propertyLookup {node : ASTNode} {i : IdentNode Symbol} {p : String} :
    (Expr.propertyLookup node i p).MachineTyped ↔ (Expr.propertyLookup node i p).typed = true := by
  rw [typed_iff]
  constructor
  · rintro ⟨t, -, ht, -⟩
    exact ⟨t, ht⟩
  rintro ⟨t, ht⟩
  have hmap : mapTypeToLlvmType t = .ok (.int 32) := by
    simp only [getType] at ht
    split at ht <;> try split at ht
    all_goals cases ht
    exact mapTypeToLlvmType_ofKind .int
  cases hi : i.symbol.isInput with
  | true =>
    refine ⟨t, .getPropertyInput i.symbol, ht, ?_, hmap, rfl⟩
    simp [codeGenExpr, codeGenProperty, hi, pure, Except.pure]
  | false =>
    refine ⟨t, .getPropertyLocal i.symbol (.load i.symbol.type.llvm (.alloca (some i.symbol) i.symbol.type.llvm)),
      ht, ?_, hmap, rfl⟩
    simp [codeGenExpr, codeGenProperty, hi, Symbol.loadAlloca_eq, bind, Except.bind, pure, Except.pure]

/-- **The values of an expression** have the machine types of their source
types exactly when all of it has types and is plain. -/
theorem Expr.machineTyped_nodes_iff (e : Expr Symbol) :
    (∀ s ∈ e.nodes, s.MachineTyped) ↔ ∀ s ∈ e.nodes, s.typed = true ∧ s.plain = true := by
  induction e with
  | binOp node op lhs rhs ihl ihr =>
    simp only [nodes, List.forall_mem_cons, List.forall_mem_append, ← ihl, ← ihr]
    exact and_congr_left fun h => machineTyped_binOp (h.1 _ lhs.mem_nodes_self) (h.2 _ rhs.mem_nodes_self)
  | arrLookup node i idxs ih =>
    simp only [nodes, List.forall_mem_cons, forall_mem_nodesList]
    rw [← forall₂_congr ih]
    refine and_congr_left fun h => ?_
    rw [machineTyped_arrLookup fun e he => h e he e e.mem_nodes_self]
    exact (and_iff_left rfl).symm
  | arrCreate node elem len ih =>
    simp only [nodes, List.forall_mem_cons, ← ih]
    exact and_congr_left fun h => iff_of_true (machineTyped_arrCreate (h _ len.mem_nodes_self)) ⟨rfl, rfl⟩
  | propertyLookup node i p =>
    simp only [nodes, List.forall_mem_singleton, machineTyped_propertyLookup]
    exact (and_iff_left rfl).symm
  | ident n => simpa [nodes] using iff_of_true (machineTyped_ident n) ⟨rfl, rfl⟩
  | char node ch => simpa [nodes] using iff_of_true ⟨_, .getInt8 ch, rfl, rfl, rfl, rfl⟩ ⟨rfl, rfl⟩
  | string node str => simpa [nodes] using iff_of_true ⟨_, .globalStringPtr ⟨node.id, str⟩, rfl, rfl, rfl, rfl⟩ ⟨rfl, rfl⟩
  | number node num => simpa [nodes] using iff_of_true ⟨_, .getInt32 num, rfl, rfl, rfl, rfl⟩ ⟨rfl, rfl⟩
  | bool node val => simpa [nodes] using iff_of_true ⟨_, .getInt8 _, rfl, rfl, rfl, rfl⟩ ⟨rfl, rfl⟩

/-! ## Stores and branches -/

/-- What a statement's own code promises: values of the machine types of
their source types, stores of exactly the pointee, branches on an `i1`. -/
structure Stmt.MachineTyped (retType : DeclTy) (s : Stmt Symbol) : Prop where
  exprs : ∀ e ∈ s.exprs, ∀ x ∈ e.nodes, x.MachineTyped
  stores : ∃ l, s.stores retType = .ok l ∧ ∀ st ∈ l, st.addr.ty = .ptr st.val.ty
  branches : ∀ c ∈ s.branchConds, ∃ v, codeGenExpr c = .ok v ∧ v.ty = .int 1

theorem Ty.isConvertableTo_comm (t u : Ty) : t.isConvertableTo u = u.isConvertableTo t := by
  have heq : t.eq u = u.eq t := Bool.eq_iff_iff.mpr ⟨eq_symm, eq_symm⟩
  simp only [isConvertableTo, heq, Bool.and_comm]

theorem createIntCast_ty (v : LVal) (dest : LTy) : (createIntCast v dest).ty = dest := by
  unfold createIntCast
  split
  next h => exact h
  next => rfl

/-- A convertible value ends up with the type of its destination. -/
theorem convertValIfConvertible_ty {v : LVal} {src dest : Ty} {d : DeclTy}
    (hsrc : mapTypeToLlvmType src = .ok v.ty) (hdest : dest.eq d.toTy = true)
    (hc : src.isConvertableTo dest = true) :
    ∃ v', convertValIfConvertible v src dest = .ok v' ∧ v'.ty = d.llvm := by
  unfold convertValIfConvertible
  rw [hc, Bool.and_true, mapTypeToLlvmType_of_eq hdest]
  cases he : dest.eq src with
  | true =>
    have := hsrc.symm.trans (mapTypeToLlvmType_of_eq (Ty.eq_trans (Ty.eq_symm he) hdest))
    exact ⟨v, rfl, by simpa using this⟩
  | false => exact ⟨createIntCast v d.llvm, rfl, createIntCast_ty _ _⟩

theorem getAddress_of_typed {n : LValue Symbol} (h : ∀ x ∈ n.toExpr.nodes, x.MachineTyped) :
    ∃ (a : LVal) (t : Ty) (d : DeclTy), getAddress n = .ok a ∧ n.toExpr.getType = .ok t ∧
      t.eq d.toTy = true ∧ a.ty = .ptr d.llvm := by
  cases n with
  | ident i =>
    exact ⟨.alloca (some i.symbol) i.symbol.type.llvm, _, i.symbol.type, i.symbol.createAlloca_eq, rfl,
      Ty.eq_refl _, rfl⟩
  | arrLookup node i idxs =>
    obtain ⟨t, v, ht, -⟩ := h _ (Expr.mem_nodes_self _)
    simp only [LValue.toExpr, Expr.nodes, List.forall_mem_cons, Expr.forall_mem_nodesList] at h
    obtain ⟨-, d, hd, heq⟩ := getType_arrLookup_ok_iff.mp ht
    have haddr : (LVal.alloca (some i.symbol) i.symbol.type.llvm).ty = .ptr i.symbol.type.llvm := rfl
    obtain ⟨a, ha, hty, -⟩ := getLookupAddress_of_typed (fun e he => h.2 e he e e.mem_nodes_self) haddr rfl hd
    refine ⟨a, t, d, ?_, ht, heq, hty⟩
    simp [getAddress, Symbol.createAlloca_eq, ha, bind, Except.bind]

theorem codeGenAsgStore_of_typed {n : AsgNode Symbol} (hl : ∀ x ∈ n.lhs.toExpr.nodes, x.MachineTyped)
    (hr : n.rhs.MachineTyped) (hc : typeCheckVisitorAsg n = .ok ()) :
    ∃ l, codeGenAsgStore n = .ok l ∧ ∀ st ∈ l, st.addr.ty = .ptr st.val.ty := by
  obtain ⟨-, ⟨t1, t2, h1, h2, hconv⟩, -⟩ := typeCheckVisitorAsg_ok_iff.mp hc
  obtain ⟨a, t, d, ha, ht, hd, haty⟩ := getAddress_of_typed hl
  obtain ⟨t', v, ht', hv, hm, -⟩ := hr
  cases h1.symm.trans ht
  cases h2.symm.trans ht'
  rw [Ty.isConvertableTo_comm] at hconv
  obtain ⟨v', hv', hty⟩ := convertValIfConvertible_ty hm hd hconv
  refine ⟨[⟨v', a⟩], ?_, by simp [haty, hty]⟩
  simp [codeGenAsgStore, ha, hv, h1, h2, hv', bind, Except.bind, pure, Except.pure, Except.mapError]

theorem codeGenRetStore_of_typed {ty : DeclTy} {n : ReturnNode Symbol} (h : n.expr.MachineTyped)
    (hc : typeCheckVisitorRet ty n = .ok ()) :
    ∃ l, codeGenRetStore ty n = .ok l ∧ ∀ st ∈ l, st.addr.ty = .ptr st.val.ty := by
  obtain ⟨t, ht, heq, -⟩ := typeCheckVisitorRet_ok_iff.mp hc
  obtain ⟨t', v, ht', hv, hm, -⟩ := h
  cases ht.symm.trans ht'
  have hty : ty.llvm = v.ty := by simpa using (mapTypeToLlvmType_of_eq heq).symm.trans hm
  refine ⟨[⟨v, .alloca none ty.llvm⟩], ?_, by simp [LVal.ty, hty]⟩
  simp [codeGenRetStore, hv, bind, Except.bind, pure, Except.pure]

theorem codeGenDefStore_of_typed {n : DefNode Symbol} (hsym : n.sym.type = n.type)
    (h : ∀ e ∈ n.rhs, e.MachineTyped) (hc : typeCheckVisitorDef n = .ok ()) :
    ∃ l, codeGenDefStore n = .ok l ∧ ∀ st ∈ l, st.addr.ty = .ptr st.val.ty := by
  obtain ⟨node, name, type, rhs, sym⟩ := n
  cases rhs with
  | none =>
    refine ⟨[], ?_, by simp⟩
    simp [codeGenDefStore, Symbol.createAlloca_eq, bind, Except.bind, pure, Except.pure]
  | some e =>
    obtain ⟨t, ht, hconv, -⟩ := typeCheckVisitorDef_ok_iff.mp hc e rfl
    obtain ⟨t', v, ht', hv, hm, -⟩ := h e rfl
    cases ht.symm.trans ht'
    obtain ⟨v', hv', hty⟩ := convertValIfConvertible_ty hm (Ty.eq_refl type.toTy) hconv
    refine ⟨[⟨v', .alloca (some sym) type.llvm⟩], ?_, by simp [LVal.ty, hty]⟩
    simp only at hsym
    simp [codeGenDefStore, Symbol.createAlloca_eq, hsym, hv, ht, hv', bind, Except.bind, pure, Except.pure,
      Except.mapError]

/-! ## Functions -/

/-- The symbol of a definition has its type. -/
theorem FunctionNode.accept_declared {f : FunctionNode Unit} {g : FunctionNode Symbol} {inputs : List Symbol}
    (h : f.accept = .ok (g, inputs)) {d : DefNode Symbol} (hd : .def_ d ∈ Body.nodes g.body) :
    d.sym.type = d.type := by
  obtain ⟨n₀, m, heq, st, st', -, hres⟩ := accept_nodes h hd
  cases n₀ <;> simp only [eliminateUnreachableCodeVisitStmt, reduceCtorEq, Stmt.def_.injEq] at heq
  subst heq
  cases m <;> simp only [typeVisitorStmt, typeVisitorDef, Except.bind_ok_iff, Except.pure_ok_iff,
    Prod.mk.injEq, reduceCtorEq, false_and, and_false, exists_false, Stmt.def_.injEq] at hres
  obtain ⟨_, ⟨_, _, rfl⟩, rfl, -⟩ := hres
  rfl

/-- **A function is generated with its source types** exactly when it has no
branch, and no expression in it compares, calculates with anything but
`int`s or is one `get_type` throws on. -/
theorem codeGen_typed_iff {f : FunctionNode Unit} {g : FunctionNode Symbol} {inputs : List Symbol}
    (h : f.accept = .ok (g, inputs)) :
    (∀ s ∈ Body.nodes g.body, s.MachineTyped g.retType) ↔
      ∀ s ∈ Body.nodes g.body, s.branchConds = [] ∧
        ∀ e ∈ s.exprs, ∀ x ∈ e.nodes, x.typed = true ∧ x.plain = true := by
  refine forall₂_congr fun s hs => ?_
  have hc := FunctionNode.accept_checks h hs
  simp only [← Expr.machineTyped_nodes_iff]
  constructor
  · intro hm
    refine ⟨List.eq_nil_iff_forall_not_mem.mpr fun c hcond => ?_, hm.exprs⟩
    -- the condition is a bool, so its value would be an i8 and an i1
    obtain ⟨v, hv, hty⟩ := hm.branches c hcond
    obtain ⟨hcond, hexpr⟩ := Stmt.branchConds_subset hcond
    obtain ⟨t, v', ht, hv', hmap, -⟩ := hm.exprs c hexpr c c.mem_nodes_self
    obtain ⟨t', ht', hbool⟩ := Expr.typeIs_iff.mp (hc.conds c hcond).1
    cases ht.symm.trans ht'
    cases hv.symm.trans hv'
    rw [mapTypeToLlvmType_of_eqKind (s := .bool) ht hbool, hty] at hmap
    cases hmap
  · rintro ⟨hnil, he⟩
    refine ⟨he, ?_, by simp [hnil]⟩
    cases s with
    | asg n =>
      exact codeGenAsgStore_of_typed (he n.lhs.toExpr (by simp [Stmt.exprs]))
        (he n.rhs (by simp [Stmt.exprs]) _ n.rhs.mem_nodes_self) hc
    | ret n => exact codeGenRetStore_of_typed (he n.expr (by simp [Stmt.exprs]) _ n.expr.mem_nodes_self) hc
    | def_ n =>
      exact codeGenDefStore_of_typed (FunctionNode.accept_declared h hs)
        (fun e hmem => he e (by simpa [Stmt.exprs] using hmem) e e.mem_nodes_self) hc
    | _ => exact ⟨[], rfl, by simp⟩

namespace Sample

/-- `int f(int n) { int k = n + 1 return k }`. -/
def adds : FunctionNode Unit where
  node := node 0
  retType := ⟨.int, 0⟩
  name := "f"
  args := [param 1 "n" ⟨.int, 0⟩]
  body := [.def_ ⟨node 2, "k", ⟨.int, 0⟩, some (.binOp (node 3) .sum (ident 4 "n") (num 5 1)), ()⟩,
    ret 6 (ident 7 "k")]
  distinct := by decide

/-- `bool f(int n) { bool b = n < 1 return b }`. -/
def compares : FunctionNode Unit where
  node := node 0
  retType := ⟨.bool, 0⟩
  name := "f"
  args := [param 1 "n" ⟨.int, 0⟩]
  body := [.def_ ⟨node 2, "b", ⟨.bool, 0⟩, some (.binOp (node 3) .lt (ident 4 "n") (num 5 1)), ()⟩,
    ret 6 (ident 7 "b")]
  distinct := by decide

end Sample

theorem codeGen_typed_iff_adds : ∃ g inputs, Sample.adds.accept = .ok (g, inputs) ∧
    ((∀ s ∈ Body.nodes g.body, s.MachineTyped g.retType) ↔
      ∀ s ∈ Body.nodes g.body, s.branchConds = [] ∧
        ∀ e ∈ s.exprs, ∀ x ∈ e.nodes, x.typed = true ∧ x.plain = true) :=
  ⟨_, _, rfl, codeGen_typed_iff (f := Sample.adds) rfl⟩

/-- An `i1` goes into the `i8` of `b`. -/
theorem compares_untyped : ¬ ∀ (f : FunctionNode Unit) (g : FunctionNode Symbol) (inputs : List Symbol),
    f.accept = .ok (g, inputs) → ∀ s ∈ Body.nodes g.body, s.MachineTyped g.retType := by
  intro h
  obtain ⟨l, hl, hst⟩ := (h Sample.compares _ _ rfl _ (List.mem_cons_self ..)).stores
  cases hl
  exact absurd (hst _ (List.mem_cons_self ..)) (by decide)

end DGen
