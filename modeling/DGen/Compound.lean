/-
Compound assignments (`AsgNode::create`, `CremNode::create`).

They are built over a copy of what they assign to, so that its indices are
evaluated twice, and evaluation generates the inputs it reads. The second
time it finds them, with the values it gave them (`codeGenExpr_repeats`): a
compound assignment is one read and one write of one cell (`compound_one_cell`).
-/
import DGen.Builder
import DGen.Conditions

namespace DGen

open Memory StateT

/-! ## Evaluating twice -/

/-- What evaluation leaves in place, as long as it makes no memory. -/
structure World.Kept (w w' : World) : Prop where
  addr : w'.addr = w.addr
  inputs : w'.inputs = w.inputs
  frame : w'.frame = w.frame
  mem : w'.mem = w.mem
  lasting : ∀ (j : Nat) o, w.syms j = some o → o.val.determined = true → w'.syms j = some o
  known : ∀ q d, w.alloc? q = some d → w'.alloc? q = some d

namespace World.Kept

variable {w w' w'' : World}

theorem refl (w : World) : w.Kept w := ⟨rfl, rfl, rfl, rfl, fun _ _ h _ => h, fun _ _ h => h⟩

theorem trans (h : w.Kept w') (h' : w'.Kept w'') : w.Kept w'' where
  addr := h'.addr.trans h.addr
  inputs := h'.inputs.trans h.inputs
  frame := h'.frame.trans h.frame
  mem := h'.mem.trans h.mem
  lasting := fun j o ho hd => h'.lasting j o (h.lasting j o ho hd) hd
  known := fun q d hd => h'.known q d (h.known q d hd)

theorem of_generated (hg : w.Generated w') (hs : w.Steps w') : w.Kept w' :=
  ⟨hs.sameStatic.addr, hg.inputs, hs.sameStatic.frame, hg.mem, hg.lasting,
    fun q _ h => (Process.alloc?_congr hg.table q).trans h⟩

theorem of_looked (hl : w.Looked w') : w.Kept w' := by
  have hrest := hl.rest
  exact ⟨by rw [hrest], by rw [hrest], by rw [hrest], by rw [hrest], fun j o ho _ => by rw [hrest]; exact ho, hl.known⟩

end World.Kept

/-- What has been looked up is known. -/
theorem getAlloc_alloc? {p : Ptr} {d : AllocData} {w w' : World} (h : getAlloc p w = .ok (d, w')) :
    w'.alloc? p = some d := by
  unfold getAlloc at h
  split at h
  next hfind =>
    cases h
    rw [World.alloc?, hfind]
    rfl
  next =>
    cases h
    exact alloc?_cons_self

theorem DeclTy.isScalar_iff {t : DeclTy} : t.toTy.isScalar = true ↔ ∃ s, s ≠ ScalarType.string ∧ t = ⟨s, 0⟩ := by
  obtain ⟨s, n⟩ := t
  cases n with
  | zero => cases s <;> simp [DeclTy.toTy, Ty.isScalar, Ty.length, Ty.eqKind, Ty.getCurrentType, ScalarType.kind]
  | succ n =>
    have hlen : ((DeclTy.mk s (n + 1)).toTy.length == 1) = false := by
      rw [Ty.toTy_length, beq_eq_false_iff_ne]
      push_cast
      omega
    simp [Ty.isScalar, hlen]

/-- The second time comes to the same as the first, and does nothing. -/
abbrev Repeats {α : Type} (inputs : List Symbol) (x : M α) (w : World) : Prop :=
  RepeatsAt (World.Whole inputs) World.Kept x w

namespace Repeats

variable {α β : Type} {inputs : List Symbol} {x : M α} {f : α → M β} {w : World}

theorem pure {a : α} : Repeats inputs (pure a : M α) w := RepeatsAt.pure World.Kept.refl a

theorem bind (hx : Repeats inputs x w) (hf : ∀ a w₁, x w = .ok (a, w₁) → w₁.Whole inputs → Repeats inputs (f a) w₁) :
    Repeats inputs (x >>= f) w := RepeatsAt.bind World.Kept.trans hx hf

theorem fault {e : Fault} : Repeats inputs (DGen.fault e : M α) w := fun _ _ h => by simp at h

theorem ofOption {e : Fault} {o : Option α} : Repeats inputs (ofOption e o) w := by
  cases o with
  | none => exact fault
  | some a => exact pure

/-- What depends on the addresses. -/
theorem ofAddr {e : Fault} {f : (Nat → BitVec 64) → Option α} :
    Repeats inputs (do let w ← get; DGen.ofOption e (f w.addr)) w := by
  intro a w' h hw
  obtain ⟨_, _, hg, h⟩ := bind_ok_iff.mp h
  obtain ⟨rfl, rfl⟩ := get_ok_iff.mp hg
  obtain ⟨ha, rfl⟩ := ofOption_ok_iff.mp h
  refine ⟨hw, .refl _, fun w'' hk => ?_⟩
  rw [bind_of_ok (get_ok_iff.mpr ⟨rfl, rfl⟩)]
  exact ofOption_ok_iff.mpr ⟨hk.addr ▸ ha, rfl⟩

theorem asPtr {v : Val} : Repeats inputs (asPtr v) w := by
  cases v <;> first | exact pure | exact fault

theorem asInt32 {v : Val} : Repeats inputs (asInt32 v) w := by
  cases v <;> first | exact pure | exact fault

theorem gepOffset {elem : LTy} {v : Val} : Repeats inputs (gepOffset elem v) w := by
  cases v <;> first | exact pure | exact fault

theorem loadMem {c : Chunk} {p : Ptr} : Repeats inputs (loadMem c p) w := by
  intro v w' h hw
  obtain ⟨hload, rfl⟩ := loadMem_ok_iff.mp h
  exact ⟨hw, .refl _, fun w'' hk => loadMem_ok_iff.mpr ⟨hk.mem ▸ hload, rfl⟩⟩

theorem inputId {r : SymRef} : Repeats inputs (inputId r) w := by
  intro id w' h hw
  obtain ⟨⟨i, hr, hi⟩, rfl⟩ := inputId_ok_iff.mp h
  exact ⟨hw, .refl _, fun w'' hk => inputId_ok_iff.mpr ⟨⟨i, hr, hk.inputs ▸ hi⟩, rfl⟩⟩

theorem getAlloc {p : Ptr} : Repeats inputs (getAlloc p) w := by
  intro d w' h hw
  refine ⟨hw.steps (getAlloc_generates h hw.ok).1, .of_looked (getAlloc_looked h), fun w'' hk => ?_⟩
  exact getAlloc_of_some (hk.known p d (getAlloc_alloc? h))

/-- Generation repeats if what it leaves determined gives the same again. -/
theorem generating {post : World → α → Prop} (hs : Stepwise x post) (hg : SymbolsOnly x)
    (hagain : ∀ {a w'}, x w = .ok (a, w') → ∀ w'', w'.Kept w'' → x w'' = .ok (a, w'')) : Repeats inputs x w := by
  intro a w' h hw
  have hsteps := (hs h hw.ok).1
  exact ⟨hw.steps hsteps, .of_generated (hg h hw.ok.tree) hsteps, hagain h⟩

/-- A value that is there, or has just been drawn. -/
theorem scalarRandGen_again {cls : SymVal → Option (Option α)} {put : α → SymVal} {draw : Nat → α} {sym : SymId} {v : α}
    {w' : World} (hget : ∀ val v, cls val = some (some v) → val.determined = true) (hput : cls (put v) = some (some v))
    (h : scalarRandGen cls put draw sym w = .ok (v, w')) (w'' : World) (hk : w'.Kept w'') :
    scalarRandGen cls put draw sym w'' = .ok (v, w'') := by
  obtain ⟨o, ho, hcls⟩ := scalarRandGen_holds hput h
  exact scalarRandGen_ok_iff.mpr ⟨o, hk.lasting sym o ho (hget _ _ hcls), .inl ⟨hcls, rfl⟩⟩

theorem numRandGen {sym : SymId} : Repeats inputs (numRandGen sym) w :=
  generating numRandGen_generates .numRandGen fun h => scalarRandGen_again
    (fun val v hcls => by cases val <;> simp_all [SymVal.number?, SymVal.determined]) rfl h

theorem charRandGen {sym : SymId} : Repeats inputs (charRandGen sym) w :=
  generating charRandGen_generates .charRandGen fun h => scalarRandGen_again
    (fun val v hcls => by cases val <;> simp_all [SymVal.char?, SymVal.determined]) rfl h

theorem boolRandGen {sym : SymId} : Repeats inputs (boolRandGen sym) w := by
  refine generating boolRandGen_generates .boolRandGen fun {b w'} h w'' hk => ?_
  obtain ⟨val, _, hval, h⟩ := bind_ok_iff.mp h
  obtain ⟨rfl, rfl⟩ := pure_ok_iff.mp h
  have hagain := scalarRandGen_again (fun val v hcls => by cases val <;> simp_all [SymVal.bool?, SymVal.determined])
    rfl hval w'' hk
  rw [DGen.boolRandGen, bind_of_ok hagain]
  rfl

theorem getSize_again {arr : SymId} {size : BitVec 32} {w' : World} (h : DGen.getSize arr w = .ok (size, w'))
    (w'' : World)
    (hk : w'.Kept w'') : DGen.getSize arr w'' = .ok (size, w'') := by
  obtain ⟨name, type, elems, ho⟩ := getSize_holds h
  exact getSize_ok_iff.mpr ⟨name, type, _, elems, hk.lasting arr _ ho rfl, .inl ⟨rfl, rfl⟩⟩

theorem getSize {arr : SymId} : Repeats inputs (getSize arr) w :=
  generating getSize_generates .getSize getSize_again

theorem getElem {arr : SymId} {idx : BitVec 32} : Repeats inputs (getElem arr idx) w := by
  refine generating getElem_generates .getElem fun {e w'} h w'' hk => ?_
  obtain ⟨size, w₁, hsize, -⟩ := bind_ok_iff.mp h
  obtain ⟨name, type, elems, ho⟩ := getSize_holds hsize
  rw [getElem_eq hsize ho] at h
  obtain rfl : w₁ = w' := by
    split at h
    · cases h
    · split at h
      · cases h
      · exact (ofOption_ok_iff.mp h).2
  rw [getElem_eq (getSize_again hsize w'' hk) (hk.lasting arr _ ho rfl)]
  split at h
  next => cases h
  next hhi =>
    rw [if_neg hhi]
    split at h
    next => cases h
    next hlo =>
      rw [if_neg hlo]
      exact ofOption_ok_iff.mpr ⟨(ofOption_ok_iff.mp h).1, rfl⟩

theorem getSymbolByIdxs : ∀ {idxs : List (BitVec 32)} {arr : SymId} {w : World},
    Repeats inputs (getSymbolByIdxs arr idxs) w
  | [], _, _ => fault
  | [_], _, _ => getElem
  | _ :: _ :: _, _, _ => getElem.bind fun _ _ _ _ => getSymbolByIdxs

/-- `fill_dest` for a symbol whose value `gen` gives, and leaves determined. -/
theorem fillVal_of {copyArr : SymId → M Ptr} {sym : SymId} (gen : M α) (put : α → Val) (P : SymVal → Prop)
    (heq : ∀ {w : World} {o : SymObj}, w.syms sym = some o → P o.val →
      fillVal copyArr sym w = (do return put (← gen) : M Val) w)
    (hgen : Repeats inputs gen w)
    (hleft : ∀ {a w'}, gen w = .ok (a, w') → ∃ o, w'.syms sym = some o ∧ P o.val ∧ o.val.determined = true)
    {o : SymObj} (ho : w.syms sym = some o) (hP : P o.val) : Repeats inputs (fillVal copyArr sym) w := by
  intro v w' h hw
  rw [heq ho hP] at h
  obtain ⟨a, _, ha, h⟩ := bind_ok_iff.mp h
  obtain ⟨rfl, rfl⟩ := pure_ok_iff.mp h
  obtain ⟨hw', hk, hagain⟩ := hgen ha hw
  refine ⟨hw', hk, fun w'' hk' => ?_⟩
  obtain ⟨o', ho', hP', hdet⟩ := hleft ha
  rw [heq (hk'.lasting sym o' ho' hdet) hP', bind_of_ok (hagain w'' hk')]
  rfl

/-- A scalar's value is there once it has been read. -/
theorem fillVal {copyArr : SymId → M Ptr} {sym : SymId} {t : DeclTy} (ht : t.toTy.isScalar = true)
    (hsym : w.Has t sym) :
    Repeats inputs (fillVal copyArr sym) w := by
  obtain ⟨⟨name, val⟩, ho, hcls⟩ := hsym
  have heq {w : World} {o : SymObj} (ho : w.syms sym = some o) : DGen.fillVal copyArr sym w = _ :=
    bind_of_ok (getSym_ok_iff.mpr ⟨ho, rfl⟩)
  obtain ⟨s, hs, rfl⟩ := DeclTy.isScalar_iff.mp ht
  cases s with
  | string => exact absurd rfl hs
  | int =>
    obtain ⟨num, rfl⟩ := cls_eq_number hcls
    refine fillVal_of (DGen.numRandGen sym) .int32 (fun val => ∃ num, val = .number num) (fun ho hP => ?_) numRandGen (fun h => ?_) ho
      ⟨num, rfl⟩
    · obtain ⟨num, hnum⟩ := hP
      rw [heq ho, hnum]
    · obtain ⟨name, ho⟩ := numRandGen_holds h
      exact ⟨_, ho, ⟨_, rfl⟩, rfl⟩
  | char =>
    obtain ⟨ch, rfl⟩ := cls_eq_char hcls
    refine fillVal_of (DGen.charRandGen sym) .int8 (fun val => ∃ ch, val = .char ch) (fun ho hP => ?_) charRandGen (fun h => ?_) ho
      ⟨ch, rfl⟩
    · obtain ⟨ch, hch⟩ := hP
      rw [heq ho, hch]
    · obtain ⟨name, ho⟩ := charRandGen_holds h
      exact ⟨_, ho, ⟨_, rfl⟩, rfl⟩
  | bool =>
    obtain ⟨b, rfl⟩ := cls_eq_bool hcls
    refine fillVal_of (DGen.boolRandGen sym) .int8 (fun val => ∃ b, val = .bool b) (fun ho hP => ?_) boolRandGen (fun h => ?_) ho
      ⟨b, rfl⟩
    · obtain ⟨b, hb⟩ := hP
      rw [heq ho, hb]
    · obtain ⟨b, name, -, ho⟩ := boolRandGen_holds h
      exact ⟨_, ho, ⟨_, rfl⟩, rfl⟩

end Repeats

/-! ## Index expressions -/

/-- The index expressions of an lvalue. -/
def LValue.idxs {σ : Type} : LValue σ → List (Expr σ)
  | .ident _ => []
  | .arrLookup _ _ idxs => idxs

theorem Ty.isScalar_congr {t u : Ty} (h : t.eq u = true) : t.isScalar = u.isScalar := by
  simp only [Ty.isScalar, (Ty.eq_iff.mp h).1, Ty.eqKind_congr h]

section

variable {inputs : List Symbol}

/-- Wherever it is evaluated, a second time comes to the same. -/
def LVal.Repeats (inputs : List Symbol) (v : LVal) : Prop := ∀ w, DGen.Repeats inputs v.eval w

namespace LVal.Repeats

variable {v addr lhs rhs : LVal} {vs : List LVal}

theorem alloca (s : Symbol) (ty : LTy) : (LVal.alloca (some s) ty).Repeats inputs := by
  intro w v w' h hw
  obtain ⟨_, _, hg, h⟩ := bind_ok_iff.mp h
  obtain ⟨rfl, rfl⟩ := get_ok_iff.mp hg
  obtain ⟨p, _, ho, h⟩ := bind_ok_iff.mp h
  obtain ⟨hp, rfl⟩ := ofOption_ok_iff.mp ho
  obtain ⟨rfl, rfl⟩ := pure_ok_iff.mp h
  refine ⟨hw, .refl _, fun w'' hk => ?_⟩
  have hget : (get : M World) w'' = .ok (w'', w'') := rfl
  have hcell : DGen.ofOption .undefined (w''.frame s.ref) w'' = .ok (p, w'') :=
    ofOption_ok_iff.mpr ⟨hk.frame ▸ hp, rfl⟩
  rw [LVal.eval, bind_of_ok hget, bind_of_ok hcell]
  rfl

theorem load (h : addr.Repeats inputs) (ty : LTy) : (LVal.load ty addr).Repeats inputs := fun w => by
  rw [LVal.eval]
  exact (h w).bind fun _ _ _ _ => DGen.Repeats.asPtr.bind fun _ _ _ _ => DGen.Repeats.ofOption.bind fun _ _ _ _ =>
    DGen.Repeats.loadMem

theorem gep (haddr : addr.Repeats inputs) (hidx : v.Repeats inputs) (elem : LTy) :
    (LVal.gep elem addr v).Repeats inputs := fun w => by
  rw [LVal.eval]
  exact (haddr w).bind fun _ _ _ _ => DGen.Repeats.asPtr.bind fun _ _ _ _ => (hidx _).bind fun _ _ _ _ =>
    DGen.Repeats.gepOffset.bind fun _ _ _ _ => DGen.Repeats.pure

theorem inst (hl : lhs.Repeats inputs) (hr : rhs.Repeats inputs) (op : BinOpType) :
    (op.inst lhs rhs).Repeats inputs := by
  have hbin (i : BinInst) : (LVal.bin i lhs rhs).Repeats inputs := fun w => by
    rw [LVal.eval]
    exact (hl w).bind fun _ _ _ _ => (hr _).bind fun _ _ _ _ => DGen.Repeats.ofOption
  have hicmp (pred : IcmpPred) : (LVal.icmp pred lhs rhs).Repeats inputs := fun w => by
    rw [LVal.eval]
    exact (hl w).bind fun _ _ _ _ => (hr _).bind fun _ _ _ _ =>
      @DGen.Repeats.ofAddr _ _ _ .undefined fun addr => pred.eval addr _ _
  cases op <;> first | exact hbin _ | exact hicmp _

theorem evalIdxs (h : ∀ v ∈ vs, v.Repeats inputs) (w : World) : DGen.Repeats inputs (LVal.evalIdxs vs) w := by
  induction vs generalizing w with
  | nil => exact DGen.Repeats.pure
  | cons v vs ih =>
    rw [LVal.evalIdxs]
    simp only [List.forall_mem_cons] at h
    exact (h.1 w).bind fun _ _ _ _ => DGen.Repeats.asInt32.bind fun _ _ _ _ => (ih h.2 _).bind fun _ _ _ _ =>
      DGen.Repeats.pure

/-- An input that is a scalar. -/
theorem randGen {n : IdentNode Symbol} (hn : n.Resolved inputs) (hin : n.symbol.isInput = true)
    (hty : n.symbol.type.toTy.isScalar = true) (ret : LTy) : (LVal.randGen n.symbol ret).Repeats inputs := by
  intro w v w' h hw
  obtain ⟨id, hid, hhas⟩ := hw.inputId hn hin
  refine DGen.Repeats.bind .inputId (fun a w₁ ha _ => ?_) h hw
  cases hid.symm.trans ha
  exact .fillVal hty hhas

/-- A scalar below an input. -/
theorem getValArr {n : IdentNode Symbol} {d : DeclTy} (hn : n.Resolved inputs) (hin : n.symbol.isInput = true)
    (hd : n.symbol.type.elems? vs.length = some d) (hty : d.toTy.isScalar = true) (hvs : ∀ v ∈ vs, v.Repeats inputs)
    (dest : LTy) : (LVal.getValArr n.symbol vs dest).Repeats inputs := by
  intro w v w' h hw
  obtain ⟨id, hid, hhas⟩ := hw.inputId hn hin
  rw [LVal.eval] at h ⊢
  refine DGen.Repeats.bind .inputId (fun a w₁ ha _ => ?_) h hw
  cases hid.symm.trans ha
  refine (evalIdxs hvs w).bind fun is w₁ his hw₁ => ?_
  have hhas₁ := ((LVal.evalIdxs_generates vs his hw.ok).1.later hw.ok).has hhas
  refine DGen.Repeats.getSymbolByIdxs.bind fun sub w₂ hsub hw₂ => ?_
  obtain ⟨hsizing, hat⟩ := getSymbolByIdxs_sizing hsub hw₁.ok
  have hhas₂ := ((getSymbolByIdxs_generates hsub hw₁.ok).1.later hw₁.ok).has hhas₁
  obtain ⟨d', hd', hsub'⟩ := hw₂.has_symAt hhas₂ hat
  rw [evalIdxs_length his] at hd'
  cases hd.symm.trans hd'
  exact .fillVal hty hsub'

theorem getPropertyInput (s : Symbol) : (LVal.getPropertyInput s).Repeats inputs := fun w => by
  rw [LVal.eval]
  exact DGen.Repeats.inputId.bind fun _ _ _ _ => DGen.Repeats.getSize.bind fun _ _ _ _ => DGen.Repeats.pure

theorem getPropertyLocal (h : v.Repeats inputs) (s : Symbol) : (LVal.getPropertyLocal s v).Repeats inputs := fun w => by
  rw [LVal.eval]
  exact (h w).bind fun _ _ _ _ => DGen.Repeats.asPtr.bind fun _ _ _ _ => DGen.Repeats.getAlloc.bind fun _ _ _ _ =>
    DGen.Repeats.pure

end LVal.Repeats

theorem Expr.forall_mem_identsList {σ : Type} {P : IdentNode σ → Prop} {es : List (Expr σ)} :
    (∀ i ∈ identsList es, P i) ↔ ∀ e ∈ es, ∀ i ∈ e.idents, P i := by
  induction es with
  | nil => simp [identsList]
  | cons e es ih => simp only [identsList, List.forall_mem_append, List.forall_mem_cons, ih]

/-- The address of an element repeats, if the code of the indices does. -/
theorem getLookupAddress_repeats {idxs : List (Expr Symbol)} : ∀ {addr a : LVal}, getLookupAddress addr idxs = .ok a →
    addr.Repeats inputs → (∀ e ∈ idxs, ∀ {v}, codeGenExpr e = .ok v → v.Repeats inputs) → a.Repeats inputs := by
  induction idxs with
  | nil =>
    intro addr a h haddr _
    obtain rfl := Except.ok.inj h
    exact haddr
  | cons e es ih =>
    intro addr a h haddr hidx
    simp only [getLookupAddress, Except.bind_ok_iff] at h
    obtain ⟨t, -, elem, -, v, hv, h⟩ := h
    simp only [List.forall_mem_cons] at hidx
    exact ih h ((haddr.load t).gep (hidx.1 hv) elem) hidx.2

theorem codeGenExprs_repeats {es : List (Expr Symbol)} : ∀ {vs : List LVal}, codeGenExprs es = .ok vs →
    (∀ e ∈ es, ∀ {v}, codeGenExpr e = .ok v → v.Repeats inputs) → ∀ v ∈ vs, v.Repeats inputs := by
  induction es with
  | nil =>
    intro vs h _
    obtain rfl := Except.ok.inj h
    exact List.forall_mem_nil _
  | cons e es ih =>
    intro vs h hes
    simp only [codeGenExprs, Except.bind_ok_iff, Except.pure_ok_iff] at h
    obtain ⟨v, hv, vs', hvs, rfl⟩ := h
    simp only [List.forall_mem_cons] at hes ⊢
    exact ⟨hes.1 hv, ih hvs hes.2⟩

theorem Symbol.createAlloca_repeats {s : Symbol} {a : LVal} (h : s.createAlloca = .ok a) : a.Repeats inputs := by
  obtain rfl := Except.ok.inj (s.createAlloca_eq.symm.trans h)
  exact .alloca _ _

theorem Symbol.loadAlloca_repeats {s : Symbol} {v : LVal} (h : s.loadAlloca = .ok v) : v.Repeats inputs := by
  obtain rfl := Except.ok.inj (s.loadAlloca_eq.symm.trans h)
  exact .load (.alloca _ _) _

/-- Neither a string nor an array: what the node reads or makes is a scalar. -/
def Expr.Scalar (e : Expr Symbol) : Prop := e.typeIs Ty.isScalar = true

/-- **Over scalars, what an expression evaluates to is found again**, with
nothing left to draw: the inputs it reads have been given their values. -/
theorem codeGenExpr_repeats (e : Expr Symbol) : ∀ {v}, codeGenExpr e = .ok v → (∀ n ∈ e.idents, n.Resolved inputs) →
    (∀ x ∈ e.nodes, x.Scalar) → v.Repeats inputs := by
  induction e with
  | char node ch =>
    intro v h _ _
    obtain rfl := Except.ok.inj h
    exact fun _ => .pure
  | number node num =>
    intro v h _ _
    obtain rfl := Except.ok.inj h
    exact fun _ => .pure
  | bool node val =>
    intro v h _ _
    obtain rfl := Except.ok.inj h
    exact fun _ => .pure
  | string node str =>
    intro v _ _ hs
    have hscalar : (DeclTy.mk .string 0).toTy.isScalar = true := hs _ (Expr.mem_nodes_self _)
    cases hscalar
  | arrCreate node elem len _ =>
    intro v _ _ hs
    have hscalar : elem.insertArr.toTy.isScalar = true := hs _ (Expr.mem_nodes_self _)
    obtain ⟨s, -, hty⟩ := DeclTy.isScalar_iff.mp hscalar
    cases hty
  | ident n =>
    intro v h hres hs
    have hty : n.symbol.type.toTy.isScalar = true := hs _ (Expr.mem_nodes_self _)
    rw [codeGenExpr, codeGenIdent] at h
    split at h
    next hin =>
      obtain ⟨ret, -, h⟩ := Except.bind_ok_iff.mp h
      obtain rfl := Except.pure_ok_iff.mp h
      exact .randGen (hres n (List.mem_singleton_self _)) hin hty ret
    next => exact Symbol.loadAlloca_repeats h
  | binOp node op lhs rhs ihl ihr =>
    intro v h hres hs
    simp only [codeGenExpr, Except.bind_ok_iff, Except.pure_ok_iff] at h
    obtain ⟨l, hl, r, hr, rfl⟩ := h
    simp only [Expr.idents, Expr.nodes, List.forall_mem_append, List.forall_mem_cons] at hres hs
    exact (ihl hl hres.1 hs.2.1).inst (ihr hr hres.2 hs.2.2) op
  | arrLookup node n idxs ih =>
    intro v h hres hs
    simp only [Expr.idents, Expr.nodes, List.forall_mem_cons, Expr.forall_mem_identsList,
      Expr.forall_mem_nodesList] at hres hs
    have hidxs : ∀ e ∈ idxs, ∀ {v}, codeGenExpr e = .ok v → v.Repeats inputs :=
      fun e he _ hv => ih e he hv (hres.2 e he) (hs.2 e he)
    rw [codeGenExpr] at h
    split at h
    next hin =>
      obtain ⟨vs, hvs, h⟩ := Except.bind_ok_iff.mp h
      obtain ⟨dest, -, h⟩ := Except.bind_ok_iff.mp h
      obtain rfl := Except.pure_ok_iff.mp h
      obtain ⟨t, ht, hscalar⟩ := Expr.typeIs_iff.mp hs.1
      obtain ⟨-, d, hd, heq⟩ := getType_arrLookup_ok_iff.mp ht
      rw [Ty.isScalar_congr heq] at hscalar
      exact .getValArr hres.1 hin (codeGenExprs_length hvs ▸ hd) hscalar (codeGenExprs_repeats hvs hidxs) dest
    next =>
      simp only [Except.bind_ok_iff, Except.pure_ok_iff] at h
      obtain ⟨t, -, a, ha, addr, haddr, ty, -, rfl⟩ := h
      exact .load (getLookupAddress_repeats haddr (Symbol.createAlloca_repeats ha) hidxs) ty
  | propertyLookup node n p =>
    intro v h _ _
    rw [codeGenExpr, codeGenProperty] at h
    split at h
    next =>
      obtain rfl := Except.pure_ok_iff.mp h
      exact .getPropertyInput _
    next =>
      obtain ⟨data, hdata, h⟩ := Except.bind_ok_iff.mp h
      obtain rfl := Except.pure_ok_iff.mp h
      exact .getPropertyLocal (Symbol.loadAlloca_repeats hdata) _

/-- The address of an lvalue repeats, if its indices are over scalars. -/
theorem getAddress_repeats {l : LValue Symbol} {a : LVal} (h : getAddress l = .ok a)
    (hres : ∀ n ∈ l.idents, n.Resolved inputs)
    (hidx : ∀ e ∈ l.idxs, ∀ x ∈ e.nodes, x.Scalar) : a.Repeats inputs := by
  cases l with
  | ident n => exact Symbol.createAlloca_repeats h
  | arrLookup node n idxs =>
    obtain ⟨a₀, ha₀, h⟩ := Except.bind_ok_iff.mp h
    simp only [LValue.idents, LValue.toExpr, Expr.idents, List.forall_mem_cons, Expr.forall_mem_identsList] at hres
    exact getLookupAddress_repeats h (Symbol.createAlloca_repeats ha₀) fun e he _ hv =>
      codeGenExpr_repeats e hv (hres.2 e he) (hidx e he)

end

/-! ## Copies -/

/-- One is generated as the other is. -/
structure Expr.Alike (c e : Expr Symbol) : Prop where
  pos : c.pos = e.pos
  getType : c.getType = e.getType
  codeGen : codeGenExpr c = codeGenExpr e

theorem Expr.Alike.refl (e : Expr Symbol) : e.Alike e := ⟨rfl, rfl, rfl⟩

theorem newNode_ok {pos : Position} {cls : NodeClass} {heap heap' : NodeHeap} {node : ASTNode}
    (h : newNode pos cls heap = .ok (node, heap')) : node.pos = pos := by
  cases h
  rfl

theorem IdentNode.new_ok {pos : Position} {name : String} {heap heap' : NodeHeap} {n : IdentNode Unit}
    (h : IdentNode.new pos name heap = .ok (n, heap')) : n.node.pos = pos ∧ n.name = name := by
  obtain ⟨node, _, hnode, h⟩ := bind_ok_iff.mp h
  obtain ⟨rfl, rfl⟩ := pure_ok_iff.mp h
  exact ⟨newNode_ok hnode, rfl⟩

section

variable {table : SymbolTable}

theorem typeVisitorIdent_ok_iff {n : IdentNode Unit} {n' : IdentNode Symbol} : typeVisitorIdent table n = .ok n' ↔
    ∃ s, table.findSymbol n.name = some s ∧ ⟨n.node, n.name, s⟩ = n' := by
  unfold typeVisitorIdent
  split <;> simp_all [buildError]

/-- An identifier of the same name is bound to the same symbol. -/
theorem typeVisitorIdent_symbol {c n : IdentNode Unit} {c' n' : IdentNode Symbol} (hname : c.name = n.name)
    (hc : typeVisitorIdent table c = .ok c') (hn : typeVisitorIdent table n = .ok n') : c'.symbol = n'.symbol := by
  obtain ⟨s, hs, rfl⟩ := typeVisitorIdent_ok_iff.mp hc
  obtain ⟨s', hs', rfl⟩ := typeVisitorIdent_ok_iff.mp hn
  exact Option.some.inj (hs.symm.trans (hname ▸ hs'))

theorem codeGenIdent_congr {c n : IdentNode Symbol} (h : c.symbol = n.symbol) : codeGenIdent c = codeGenIdent n := by
  rw [codeGenIdent, codeGenIdent, h]

theorem codeGenProperty_congr {c n : IdentNode Symbol} (h : c.symbol = n.symbol) :
    codeGenProperty c = codeGenProperty n := by
  rw [codeGenProperty, codeGenProperty, h]

theorem codeGenExprs_congr {cs es : List (Expr Symbol)} (h : List.Forall₂ Expr.Alike cs es) :
    codeGenExprs cs = codeGenExprs es := by
  induction h with
  | nil => rfl
  | cons h _ ih => rw [codeGenExprs, codeGenExprs, h.codeGen, ih]

theorem getLookupAddress_congr {cs es : List (Expr Symbol)} (h : List.Forall₂ Expr.Alike cs es) (addr : LVal) :
    getLookupAddress addr cs = getLookupAddress addr es := by
  induction h generalizing addr with
  | nil => rfl
  | cons h _ ih => simp only [getLookupAddress, h.codeGen, ih]

/-- A lookup in alike indices of an array of the same name. -/
theorem Expr.Alike.arrLookup {cnode node : ASTNode} {c n : IdentNode Symbol} {cs es : List (Expr Symbol)}
    (hpos : cnode.pos = node.pos) (hsym : c.symbol = n.symbol) (hidxs : List.Forall₂ Expr.Alike cs es) :
    (Expr.arrLookup cnode c cs).Alike (.arrLookup node n es) := by
  have htype : (Expr.arrLookup cnode c cs).getType = (Expr.arrLookup node n es).getType := by
    rw [Expr.getType, Expr.getType, hsym, hidxs.length_eq, hpos]
  refine ⟨hpos, htype, ?_⟩
  rw [codeGenExpr, codeGenExpr, htype, hsym, codeGenExprs_congr hidxs]
  simp only [getLookupAddress_congr hidxs]

theorem Expr.Alike.binOp {cnode node : ASTNode} {op : BinOpType} {cl cr l r : Expr Symbol} (hpos : cnode.pos = node.pos)
    (hl : cl.Alike l) (hr : cr.Alike r) : (Expr.binOp cnode op cl cr).Alike (.binOp node op l r) where
  pos := hpos
  getType := by rw [Expr.getType, Expr.getType, hl.getType, hr.getType, hl.pos]
  codeGen := by rw [codeGenExpr, codeGenExpr, hl.codeGen, hr.codeGen]

theorem copyIdxs_alike {es : List (Expr Unit)} (ih : ∀ e ∈ es, ∀ {heap heap' : NodeHeap} {c c' e'},
      e.copy heap = .ok (c, heap') → typeVisitorExpr table c = .ok c' → typeVisitorExpr table e = .ok e' →
        c'.Alike e') :
    ∀ {heap heap' : NodeHeap} {cs cs' es'}, Expr.copyIdxs es heap = .ok (cs, heap') →
      typeVisitorExprs table cs = .ok cs' →
      typeVisitorExprs table es = .ok es' → List.Forall₂ Expr.Alike cs' es' := by
  induction es with
  | nil =>
    intro heap heap' cs cs' es' h hcs hes
    obtain ⟨rfl, rfl⟩ := pure_ok_iff.mp h
    cases hcs
    cases hes
    exact .nil
  | cons e es ihes =>
    intro heap heap' cs cs' es' h hcs hes
    obtain ⟨c, heap₁, hc, h⟩ := bind_ok_iff.mp h
    obtain ⟨cs, heap₂, hcopy, h⟩ := bind_ok_iff.mp h
    obtain ⟨rfl, rfl⟩ := pure_ok_iff.mp h
    simp only [typeVisitorExprs, Except.bind_ok_iff, Except.pure_ok_iff] at hcs hes
    obtain ⟨c', hc', cs', hcs', rfl⟩ := hcs
    obtain ⟨e', he', es', hes', rfl⟩ := hes
    rw [List.forall_mem_cons] at ih
    exact .cons (ih.1 hc hc' he') (ihes ih.2 hcopy hcs' hes')

/-- **A copy is resolved to the like**: what has its own `copy` has the
position and the names it has, and what has none is shared. -/
theorem copy_alike (e : Expr Unit) : ∀ {heap heap' : NodeHeap} {c c' e'}, e.copy heap = .ok (c, heap') →
    typeVisitorExpr table c = .ok c' → typeVisitorExpr table e = .ok e' → c'.Alike e' := by
  induction e with
  | number node num =>
    intro heap heap' c c' e' h hc he
    obtain ⟨node', _, hnode, h⟩ := bind_ok_iff.mp h
    obtain ⟨rfl, rfl⟩ := pure_ok_iff.mp h
    cases hc
    cases he
    exact ⟨newNode_ok hnode, rfl, rfl⟩
  | ident n =>
    intro heap heap' c c' e' h hc he
    obtain ⟨m, _, hm, h⟩ := bind_ok_iff.mp h
    obtain ⟨rfl, rfl⟩ := pure_ok_iff.mp h
    obtain ⟨hpos, hname⟩ := IdentNode.new_ok hm
    simp only [typeVisitorExpr, Except.bind_ok_iff, Except.pure_ok_iff] at hc he
    obtain ⟨m', hm', rfl⟩ := hc
    obtain ⟨n', hn', rfl⟩ := he
    have hsym := typeVisitorIdent_symbol hname hm' hn'
    obtain ⟨s, -, rfl⟩ := typeVisitorIdent_ok_iff.mp hm'
    obtain ⟨s', -, rfl⟩ := typeVisitorIdent_ok_iff.mp hn'
    exact ⟨hpos, by rw [Expr.getType, Expr.getType, hsym], codeGenIdent_congr hsym⟩
  | binOp node op lhs rhs ihl ihr =>
    intro heap heap' c c' e' h hc he
    obtain ⟨l, heap₁, hl, h⟩ := bind_ok_iff.mp h
    obtain ⟨r, heap₂, hr, h⟩ := bind_ok_iff.mp h
    obtain ⟨node', _, hnode, h⟩ := bind_ok_iff.mp h
    obtain ⟨rfl, rfl⟩ := pure_ok_iff.mp h
    simp only [typeVisitorExpr, Except.bind_ok_iff, Except.pure_ok_iff] at hc he
    obtain ⟨cl, hcl, cr, hcr, rfl⟩ := hc
    obtain ⟨el, hel, er, her, rfl⟩ := he
    exact .binOp (newNode_ok hnode) (ihl hl hcl hel) (ihr hr hcr her)
  | arrLookup node n idxs ih =>
    intro heap heap' c c' e' h hc he
    obtain ⟨cs, heap₁, hcs, h⟩ := bind_ok_iff.mp h
    obtain ⟨⟨node', m, cs'⟩, heap₂, hnew, h⟩ := bind_ok_iff.mp h
    obtain ⟨rfl, rfl⟩ := pure_ok_iff.mp h
    obtain ⟨m', heap₃, hm, hnew⟩ := bind_ok_iff.mp hnew
    obtain ⟨node'', _, hnode, hnew⟩ := bind_ok_iff.mp hnew
    obtain ⟨hnew, rfl⟩ := pure_ok_iff.mp hnew
    cases hnew
    simp only [typeVisitorExpr, Except.bind_ok_iff, Except.pure_ok_iff] at hc he
    obtain ⟨cn, hcn, cidxs, hcidxs, rfl⟩ := hc
    obtain ⟨en, hen, eidxs, heidxs, rfl⟩ := he
    exact .arrLookup (newNode_ok hnode) (typeVisitorIdent_symbol (IdentNode.new_ok hm).2 hcn hen)
      (copyIdxs_alike ih hcs hcidxs heidxs)
  | propertyLookup node n p =>
    intro heap heap' c c' e' h hc he
    obtain ⟨m, _, hm, h⟩ := bind_ok_iff.mp h
    obtain ⟨node', _, hnode, h⟩ := bind_ok_iff.mp h
    obtain ⟨rfl, rfl⟩ := pure_ok_iff.mp h
    simp only [typeVisitorExpr, Except.bind_ok_iff, Except.pure_ok_iff] at hc he
    obtain ⟨m', hm', rfl⟩ := hc
    obtain ⟨n', hn', rfl⟩ := he
    have hsym := typeVisitorIdent_symbol (IdentNode.new_ok hm).2 hm' hn'
    exact ⟨newNode_ok hnode, by rw [Expr.getType, Expr.getType, hsym, newNode_ok hnode], codeGenProperty_congr hsym⟩
  | char | string | bool | arrCreate =>
    intro heap heap' c c' e' h hc he
    obtain ⟨rfl, rfl⟩ := pure_ok_iff.mp h
    cases hc.symm.trans he
    exact .refl _

end

/-! ## What is built -/

/-- What `create` builds for a compound assignment with this operator and
right-hand side; that of `++` and `--` is 1. -/
inductive Creates (op : BinInst) : Expr Unit → AsgNode Unit → Prop
  | asg {pos : Position} {lhs : LValue Unit} {type : String} {rhs : Expr Unit} {heap heap' : NodeHeap} {n : AsgNode Unit}
    (hop : (type, op) ∈ [("+=", .add), ("-=", .sub), ("*=", .mul), ("/=", .sdiv)])
    (h : AsgNode.create pos lhs type rhs heap = .ok (n, heap')) : Creates op rhs n
  | crem {pos : Position} {lhs : LValue Unit} {type : String} {one : ASTNode} {heap heap' : NodeHeap} {n : AsgNode Unit}
    (hop : (type, op) ∈ [("++", .add), ("--", .sub)]) (h : CremNode.create pos lhs type heap = .ok (n, heap')) :
    Creates op (.number one 1) n

/-- Resolution has made it of a compound assignment with this operator, and of its right-hand side this one. -/
def AsgNode.Compound (m : AsgNode Symbol) (op : BinInst) (rhs : Expr Symbol) : Prop :=
  ∃ table rhs₀ n, Creates op rhs₀ n ∧ typeVisitorAsg table n = .ok m ∧ typeVisitorExpr table rhs₀ = .ok rhs

theorem BinOpNode.new_ok {pos : Position} {op : BinOpType} {lhs rhs e : Expr Unit} {heap heap' : NodeHeap}
    (h : BinOpNode.new pos op lhs rhs heap = .ok (e, heap')) : ∃ node, e = .binOp node op lhs rhs := by
  obtain ⟨node, _, -, h⟩ := bind_ok_iff.mp h
  obtain ⟨rfl, rfl⟩ := pure_ok_iff.mp h
  exact ⟨node, rfl⟩

theorem AsgNode.new_ok {pos : Position} {lhs : LValue Unit} {rhs : Expr Unit} {n : AsgNode Unit} {heap heap' : NodeHeap}
    (h : AsgNode.new pos lhs rhs heap = .ok (n, heap')) : n.lhs = lhs ∧ n.rhs = rhs := by
  obtain ⟨node, _, -, h⟩ := bind_ok_iff.mp h
  obtain ⟨rfl, rfl⟩ := pure_ok_iff.mp h
  exact ⟨rfl, rfl⟩

/-- The operator is applied to a copy of what is assigned to. -/
theorem Creates.rhs {i : BinInst} {rhs : Expr Unit} {n : AsgNode Unit} (h : Creates i rhs n) :
    ∃ node op copied r heap heap', op.inst = LVal.bin i ∧ n.lhs.toExpr.copy heap = .ok (copied, heap') ∧
      n.rhs = .binOp node op copied r ∧ (r = rhs ∨ ∃ one one', r = .number one 1 ∧ rhs = .number one' 1) := by
  cases h with
  | @asg pos lhs type rhs heap heap' n hop h =>
    obtain ⟨t, heap₁, ht, h⟩ := bind_ok_iff.mp h
    obtain ⟨op, hop, hinst⟩ : ∃ op, t.op? = some op ∧ op.inst = LVal.bin i := by
      simp only [List.mem_cons, Prod.mk.injEq, List.not_mem_nil, or_false] at hop
      obtain ⟨rfl, rfl⟩ | ⟨rfl, rfl⟩ | ⟨rfl, rfl⟩ | ⟨rfl, rfl⟩ := hop <;> cases ht
      exacts [⟨.sum, rfl, rfl⟩, ⟨.sub, rfl, rfl⟩, ⟨.mul, rfl, rfl⟩, ⟨.div, rfl, rfl⟩]
    rw [hop] at h
    obtain ⟨copied, heap₂, hcopy, h⟩ := bind_ok_iff.mp h
    obtain ⟨e, heap₃, he, h⟩ := bind_ok_iff.mp h
    obtain ⟨node, rfl⟩ := BinOpNode.new_ok he
    obtain ⟨hl, hr⟩ := AsgNode.new_ok h
    exact ⟨node, op, copied, rhs, heap₁, heap₂, hinst, hl ▸ hcopy, hr, .inl rfl⟩
  | @crem pos lhs type one heap heap' n hop h =>
    obtain ⟨op, heap₁, ht, h⟩ := bind_ok_iff.mp h
    have hinst : op.inst = LVal.bin i := by
      simp only [List.mem_cons, Prod.mk.injEq, List.not_mem_nil, or_false] at hop
      obtain ⟨rfl, rfl⟩ | ⟨rfl, rfl⟩ := hop <;> cases ht
      all_goals rfl
    obtain ⟨copied, heap₂, hcopy, h⟩ := bind_ok_iff.mp h
    obtain ⟨r, heap₃, hone, h⟩ := bind_ok_iff.mp h
    obtain ⟨e, heap₄, he, h⟩ := bind_ok_iff.mp h
    obtain ⟨node, rfl⟩ := BinOpNode.new_ok he
    obtain ⟨hl, hr⟩ := AsgNode.new_ok h
    obtain ⟨one', _, -, hone⟩ := bind_ok_iff.mp hone
    obtain ⟨rfl, rfl⟩ := pure_ok_iff.mp hone
    exact ⟨node, op, copied, _, heap₁, heap₂, hinst, hl ▸ hcopy, hr, .inr ⟨one', one, rfl, rfl⟩⟩

/-- What resolution makes of an lvalue, it makes of it as an expression. -/
theorem typeVisitorLValue_toExpr {table : SymbolTable} {l : LValue Unit} {l' : LValue Symbol}
    (h : typeVisitorLValue table l = .ok l') : typeVisitorExpr table l.toExpr = .ok l'.toExpr := by
  cases l with
  | ident n =>
    obtain ⟨n', hn', h⟩ := Except.bind_ok_iff.mp h
    obtain rfl := Except.pure_ok_iff.mp h
    simp only [LValue.toExpr, typeVisitorExpr, hn']
    rfl
  | arrLookup node n idxs =>
    obtain ⟨n', hn', h⟩ := Except.bind_ok_iff.mp h
    obtain ⟨idxs', hidxs', h⟩ := Except.bind_ok_iff.mp h
    obtain rfl := Except.pure_ok_iff.mp h
    simp only [LValue.toExpr, typeVisitorExpr, hn', hidxs']
    rfl

/-- A resolved compound assignment: the operator, over the like of what is
assigned to and what is generated as the right-hand side. -/
theorem AsgNode.Compound.rhs {m : AsgNode Symbol} {i : BinInst} {rhs : Expr Symbol} (h : m.Compound i rhs) :
    ∃ node op copied r, op.inst = LVal.bin i ∧ copied.Alike m.lhs.toExpr ∧ codeGenExpr r = codeGenExpr rhs ∧
      m.rhs = .binOp node op copied r := by
  obtain ⟨table, rhs₀, n, hcreates, hm, hrhs⟩ := h
  obtain ⟨node, op, copied, r, heap, heap', hinst, hcopy, hn, hr⟩ := hcreates.rhs
  obtain ⟨lhs', hlhs, h⟩ := Except.bind_ok_iff.mp hm
  rw [hn] at h
  simp only [typeVisitorExpr, Except.bind_ok_iff, Except.pure_ok_iff] at h
  obtain ⟨_, ⟨c', hc', r', hr', rfl⟩, rfl⟩ := h
  refine ⟨node, op, c', r', hinst, copy_alike _ hcopy hc' (typeVisitorLValue_toExpr hlhs), ?_, rfl⟩
  obtain rfl | ⟨one, one', rfl, rfl⟩ := hr
  · rw [Except.ok.inj (hr'.symm.trans hrhs)]
  · cases hr'
    cases hrhs
    rfl

/-! ## What is executed -/

/-- A value in another integer type, if it is not of that type. -/
def convertTo (ty : LTy) (v : Val) : Val := (intCast v ty).getD v

/-- A compound assignment as one would write it down: the cell is found once, read, and
written with what the operator makes of what it held and of the right-hand side. -/
def execCompound (op : BinInst) (ty : LTy) (addr rhs : LVal) : M Unit := do
  let p ← asPtr (← addr.eval)
  let old ← loadMem (← ofOption .undefined ty.chunk) p
  let val ← rhs.eval
  let res ← ofOption .undefined (op.eval old val)
  storeMem p (convertTo ty res)

/-- Arithmetic keeps the type of its left operand. -/
theorem BinInst.eval_chunk {op : BinInst} {a b v : Val} (h : op.eval a b = some v) : v.chunk = a.chunk := by
  cases a <;> cases b <;> simp only [BinInst.eval, reduceCtorEq, Option.map_eq_some_iff] at h
  case int1.int1 => split at h <;> cases h <;> rfl
  all_goals
    obtain ⟨_, -, rfl⟩ := h
    rfl

/-- A value of a type is left as it is. -/
theorem convertTo_of_chunk {ty : LTy} {v : Val} (h : ty.chunk = some v.chunk) : convertTo ty v = v := by
  unfold convertTo DGen.intCast
  split
  · cases h
  · cases h
  · rfl

/-- No cast of a value that has the type. -/
theorem convertValIfConvertible_self {v : LVal} {src dest : Ty} (h : mapTypeToLlvmType dest = .ok v.ty) :
    convertValIfConvertible v src dest = .ok v := by
  unfold convertValIfConvertible
  split
  · rw [h]
    show Except.ok (createIntCast v v.ty) = .ok v
    rw [createIntCast, if_pos rfl]
  · rfl

/-- What is assigned to is read from where it is written to. -/
theorem codeGenExpr_lvalue {l : LValue Symbol} {v : LVal} (hlocal : typeCheckTarget l = .ok ())
    (h : codeGenExpr l.toExpr = .ok v) : ∃ t ty addr, l.toExpr.getType = .ok t ∧ mapTypeToLlvmType t = .ok ty ∧
      getAddress l = .ok addr ∧ v = .load ty addr := by
  cases l with
  | ident n =>
    have hin : ¬ n.symbol.isInput = true := fun hin => by simp [typeCheckTarget, hin, buildError] at hlocal
    rw [LValue.toExpr, codeGenExpr, codeGenIdent, if_neg hin, Symbol.loadAlloca_eq] at h
    cases h
    exact ⟨_, _, _, rfl, mapTypeToLlvmType_toTy _, n.symbol.createAlloca_eq, rfl⟩
  | arrLookup node n idxs =>
    have hin : ¬ n.symbol.isInput = true := fun hin => by simp [typeCheckTarget, hin, buildError] at hlocal
    rw [LValue.toExpr, codeGenExpr, if_neg hin] at h
    simp only [Except.bind_ok_iff, Except.pure_ok_iff, Except.mapError_ok_iff] at h
    obtain ⟨t, ht, a, ha, addr, haddr, ty, hty, rfl⟩ := h
    exact ⟨t, ty, addr, ht, hty, by simp only [getAddress, Except.bind_ok_iff]; exact ⟨a, ha, haddr⟩, rfl⟩

/-- A store of what an operator makes of the cell it goes to, where the address repeats. -/
theorem exec_eq_compound {inputs : List Symbol} {i : BinInst} {ty : LTy} {addr rhs : LVal} (haddr : addr.Repeats inputs)
    {w : World} (hw : w.Whole inputs) :
    LStore.exec ⟨.bin i (.load ty addr) rhs, addr⟩ w = execCompound i ty addr rhs w := by
  rw [LStore.exec, execCompound]
  refine bind_congr fun a w₁ ha => bind_congr fun p w₂ hp => ?_
  obtain ⟨rfl, rfl⟩ := asPtr_ok_iff.mp hp
  have hagain : addr.eval w₁ = .ok (.ptr p, w₁) := (haddr w).again World.Kept.refl ha hw
  simp only [LVal.eval, bind_assoc]
  rw [bind_of_ok hagain, bind_of_ok hp]
  refine bind_congr fun c w₂ hc => bind_congr fun old w₃ hold => bind_congr fun val w₄ _ =>
    bind_congr fun res w₅ hres => ?_
  -- what is stored has the type of what was loaded
  have hchunk : ty.chunk = some res.chunk := by
    rw [BinInst.eval_chunk (ofOption_ok_iff.mp hres).1, Mem.chunk_of_load (loadMem_ok_iff.mp hold).1]
    exact (ofOption_ok_iff.mp hc).1
  rw [convertTo_of_chunk hchunk]

/-- An input that an assignment names is that of its place. -/
theorem FunctionNode.accept_asg_resolved {f : FunctionNode Unit} {g : FunctionNode Symbol} {inputs : List Symbol}
    (h : f.accept = .ok (g, inputs)) {m : AsgNode Symbol} (hm : .asg m ∈ Body.nodes g.body) :
    ∀ n ∈ m.idents, n.Resolved inputs := by
  intro n hn hin
  obtain ⟨s, s₀, heq, st, st', hall, hres⟩ := accept_nodes h hm
  obtain ⟨f₁, f₂, -, h₂, -⟩ := accept_ok h
  obtain ⟨-, -, -, rfl⟩ := typeAst_ok h₂
  cases s <;> simp only [eliminateUnreachableCodeVisitStmt, reduceCtorEq, Stmt.asg.injEq] at heq
  subst heq
  cases s₀ <;> simp only [typeVisitorStmt, Except.bind_ok_iff, Except.pure_ok_iff, Prod.mk.injEq, reduceCtorEq,
    false_and, and_false, exists_false, Stmt.asg.injEq] at hres
  obtain ⟨_, hasg, rfl, -⟩ := hres
  obtain ⟨-, hbinds⟩ := (typeVisitorAsg_okWhen _).ok hasg
  obtain ⟨k, hk, hs⟩ := List.mem_mapIdx.mp (hall.findSymbol (hbinds n hn) hin)
  refine ⟨k, by rw [← hs], ?_⟩
  rw [← hs, inputSymbols, List.getElem?_mapIdx, List.getElem?_eq_getElem hk]
  rfl

/-- **A compound assignment reads and writes one cell**, in any state of a run:
the store generated for it, whose code has the code of what is assigned to
twice, does what is done where its indices are evaluated once. A second
evaluation of the address comes to the same cell, and changes nothing. -/
theorem compound_one_cell {f : FunctionNode Unit} {g : FunctionNode Symbol} {inputs : List Symbol}
    (h : f.accept = .ok (g, inputs)) {m : AsgNode Symbol} (hm : .asg m ∈ Body.nodes g.body) {op : BinInst} {rhs : Expr Symbol}
    (hc : m.Compound op rhs) (hidx : ∀ e ∈ m.lhs.idxs, ∀ x ∈ e.nodes, x.Scalar) {stores : List LStore}
    (hst : codeGenAsgStore m = .ok stores) :
    ∃ st v t ty, stores = [st] ∧ getAddress m.lhs = .ok st.addr ∧ codeGenExpr rhs = .ok v ∧
      m.lhs.toExpr.getType = .ok t ∧ mapTypeToLlvmType t = .ok ty ∧
      ∀ w : World, w.Reached g inputs → st.exec w = execCompound op ty st.addr v w ∧
        ∀ a w₁, st.addr.eval w = .ok (a, w₁) → st.addr.eval w₁ = .ok (a, w₁) := by
  obtain ⟨hlocal, -, -⟩ := typeCheckVisitorAsg_ok_iff.mp (FunctionNode.accept_checks h hm)
  have hres := FunctionNode.accept_asg_resolved h hm
  obtain ⟨node, bop, copied, r, hinst, halike, hrhs, heq⟩ := hc.rhs
  simp only [codeGenAsgStore, Except.bind_ok_iff, Except.pure_ok_iff, Except.mapError_ok_iff] at hst
  obtain ⟨addr, haddr, v', hv', rhsT, -, t, ht, v'', hconv, rfl⟩ := hst
  -- the value is the operator, over the cell read and the right-hand side
  rw [heq] at hv'
  simp only [codeGenExpr, Except.bind_ok_iff, Except.pure_ok_iff] at hv'
  obtain ⟨c, hcopy, v, hv, rfl⟩ := hv'
  obtain ⟨t', ty, addr', ht', hty, haddr', rfl⟩ := codeGenExpr_lvalue hlocal (halike.codeGen ▸ hcopy)
  cases ht.symm.trans ht'
  cases haddr.symm.trans haddr'
  rw [hinst] at hconv
  have hself : convertValIfConvertible (.bin op (.load ty addr) v) rhsT t = .ok (.bin op (.load ty addr) v) :=
    convertValIfConvertible_self hty
  obtain rfl := Except.ok.inj (hself.symm.trans hconv)
  have hrep : addr.Repeats inputs := getAddress_repeats haddr
    (fun n hn => hres n (List.mem_append_left _ hn)) hidx
  refine ⟨_, v, t, ty, rfl, haddr, hrhs ▸ hv, ht, hty, fun w hw => ⟨exec_eq_compound hrep hw.whole, ?_⟩⟩
  exact fun a w₁ ha => (hrep w).again World.Kept.refl ha hw.whole

namespace Sample

/-- `a[n] += n`, as `create` builds it. -/
def bump : AsgNode Unit :=
  ⟨node 4, .arrLookup (node 10) ⟨node 11, "a", ()⟩ [ident 12 "n"],
    .binOp (node 3) .sum (.arrLookup (node 2) ⟨node 1, "a", ()⟩ [ident 0 "n"]) (ident 13 "n")⟩

/-- `int f(int n) { int[] a = int[3] a[n] = 5 a[n] += n return 1 }`. -/
def bumps : FunctionNode Unit where
  node := node 20
  retType := ⟨.int, 0⟩
  name := "f"
  args := [param 21 "n" ⟨.int, 0⟩]
  body := [.def_ ⟨node 22, "a", ⟨.int, 1⟩, some (.arrCreate (node 23) ⟨.int, 0⟩ (num 24 3)), ()⟩,
    .asg ⟨node 25, .arrLookup (node 26) ⟨node 27, "a", ()⟩ [ident 28 "n"], num 29 5⟩, .asg bump, ret 30 (num 31 1)]
  distinct := by decide

def symbolN : Symbol := ⟨.input 0, ⟨1, 0⟩, ⟨.int, 0⟩, "n"⟩

def symbolA : Symbol := ⟨.var 0, ⟨1, 0⟩, ⟨.int, 1⟩, "a"⟩

/-- The address of `a[n]`. -/
def cell : LVal :=
  .gep (.int 32) (.load (.ptr (.int 32)) (.alloca (some symbolA) (.ptr (.int 32)))) (.randGen symbolN (.int 32))

def bumpStore : LStore := ⟨.bin .add (.load (.int 32) cell) (.randGen symbolN (.int 32)), cell⟩

/-- What is executed up to it. -/
def beforeBump : List Op :=
  [.alloca symbolA (.ptr (.int 32)),
    .store ⟨.createArr (.ptr (.int 32)) (.getInt32 3) 4, .alloca (some symbolA) (.ptr (.int 32))⟩,
    .store ⟨.getInt32 5, cell⟩]

end Sample

/-- The index drawn is 1, and so is the right-hand side: there 5 becomes 6. -/
theorem compound_one_cell_bumps : ∃ g inputs m rhs st v ty w w', Sample.bumps.accept = .ok (g, inputs) ∧
    .asg m ∈ Body.nodes g.body ∧ m.Compound .add rhs ∧ codeGenAsgStore m = .ok [st] ∧ w.Reached g inputs ∧
      st.exec w = execCompound .add ty st.addr v w ∧ st.exec w = .ok ((), w') ∧
      w'.mem.load .int32 ⟨2, 4⟩ = some (.int32 6) := by
  have hrun : (((do runOps Sample.beforeBump; Sample.bumpStore.exec : M Unit) (World.start (Sample.draws 1) [Sample.symbolN])).map
      fun r => r.2.mem.load .int32 ⟨2, 4⟩) = .ok (some (.int32 6)) := by decide +kernel
  obtain ⟨⟨_, w'⟩, hw', hload⟩ := Except.map_ok_iff.mp hrun
  obtain ⟨_, w, hw, hexec⟩ := bind_ok_iff.mp hw'
  obtain ⟨g, inputs, m, rhs, hg, rfl, hm, hc, hidx, hst⟩ : ∃ g inputs m rhs, Sample.bumps.accept = .ok (g, inputs) ∧
      inputs = [Sample.symbolN] ∧ .asg m ∈ Body.nodes g.body ∧ m.Compound .add rhs ∧
      (∀ e ∈ m.lhs.idxs, ∀ x ∈ e.nodes, x.Scalar) ∧ codeGenAsgStore m = .ok [Sample.bumpStore] :=
    ⟨_, _, _, .ident ⟨Sample.node 13, "n", Sample.symbolN⟩, rfl, rfl,
      List.mem_cons_of_mem _ (List.mem_cons_of_mem _ (List.mem_cons_self ..)),
      ⟨[[("a", Sample.symbolA), ("n", Sample.symbolN)]], Sample.ident 13 "n", Sample.bump,
        @Creates.asg .add ⟨1, 0⟩ Sample.bump.lhs "+=" _ [] _ _ (List.mem_cons_self ..) rfl, rfl, rfl⟩,
      fun e he x hx => by
        obtain rfl := List.mem_singleton.mp he
        obtain rfl := List.mem_singleton.mp hx
        rfl, rfl⟩
  have hreached : w.Reached g [Sample.symbolN] := (World.Reached.start _).run (fun op hop => by
    simp only [Sample.beforeBump, List.mem_cons, List.not_mem_nil, or_false] at hop
    obtain rfl | rfl | rfl := hop <;> trivial) hw
  obtain ⟨st, v, t, ty, hstores, -, -, -, -, hall⟩ := compound_one_cell hg hm hc hidx hst
  obtain rfl := List.singleton_inj.mp hstores
  exact ⟨g, _, m, rhs, _, v, ty, w, w', hg, hm, hc, hst, hreached, (hall w hreached).1, hexec, hload⟩

end DGen
