/-
What code reads: the value it comes to where everything it reads of the
inputs is determined (`LVal.Reads`).

Evaluation comes to that value and generates nothing (`Reads.eval`), and what
is determined later does not change it (`Reads.onward`). An
expression over scalars reads, once it has been evaluated, what it was
evaluated to (`codeGenExpr_settles`).
-/
import DGen.Additions
import DGen.Compound

namespace DGen

open Memory StateT

/-! ## Onward -/

/-- What was determined stays, and memory is as it was. -/
structure World.Onward (w w' : World) : Prop where
  later : Later w w'
  leaves : w.Leaves w'

namespace World.Onward

variable {w w' w'' : World}

theorem refl (hok : w.Ok) : w.Onward w := ⟨.refl hok, .refl w⟩

theorem trans (h : w.Onward w') (h' : w'.Onward w'') : w.Onward w'' :=
  ⟨h.later.trans h'.later, h.leaves.trans h'.leaves⟩

theorem of_looked (hok : w.Ok) (h : w.Looked w') : w.Onward w' := by
  have hrest := h.rest
  refine ⟨.of_syms hok ?_ ?_ ?_ ?_, .of_looked h⟩ <;> rw [hrest]

end World.Onward

/-! ## Reading -/

/-- What the program has of a scalar that is determined. -/
def SymVal.scalar? : SymVal → Option Val
  | .number num => num.map .int32
  | .char ch => ch.map .int8
  | .bool val => val.map fun b => .int8 (BitVec.ofNat 8 b.toNat)
  | .array _ _ _ => none

theorem SymVal.determined_of_scalar? {val : SymVal} {v : Val} (h : val.scalar? = some v) : val.determined = true := by
  cases val <;> simp only [scalar?, Option.map_eq_some_iff, reduceCtorEq] at h <;> obtain ⟨x, rfl, -⟩ := h <;> rfl

theorem SymVal.scalar?_int {val : SymVal} {v : Val} (h : val.scalar? = some v) (p : Ptr) : v ≠ .ptr p := by
  cases val <;> simp only [scalar?, Option.map_eq_some_iff, reduceCtorEq] at h <;> obtain ⟨x, -, rfl⟩ := h <;>
    exact nofun

mutual
/-- The value of code that has nothing to generate. -/
inductive LVal.Reads (w : World) : LVal → Val → Prop
  | getInt8 (v : BitVec 8) : Reads w (.getInt8 v) (.int8 v)
  | getInt32 (v : BitVec 32) : Reads w (.getInt32 v) (.int32 v)
  | bin {op : BinInst} {lhs rhs : LVal} {a b v : Val} (hl : Reads w lhs a) (hr : Reads w rhs b)
    (h : op.eval a b = some v) : Reads w (.bin op lhs rhs) v
  | icmp {pred : IcmpPred} {lhs rhs : LVal} {a b v : Val} (hl : Reads w lhs a) (hr : Reads w rhs b)
    (h : pred.eval w.addr a b = some v) : Reads w (.icmp pred lhs rhs) v
  | alloca {s : Symbol} {p : Ptr} (h : w.frame s.ref = some p) (ty : LTy) : Reads w (.alloca (some s) ty) (.ptr p)
  | load {ty : LTy} {addr : LVal} {p : Ptr} {c : Chunk} {v : Val} (haddr : Reads w addr (.ptr p))
    (hc : ty.chunk = some c) (h : w.mem.load c p = some v) : Reads w (.load ty addr) v
  | gep {elem : LTy} {addr idx : LVal} {p : Ptr} {i : Val} {n : Int} (haddr : Reads w addr (.ptr p))
    (hidx : Reads w idx i) (hn : gepOffset elem i w = .ok (n, w)) : Reads w (.gep elem addr idx) (.ptr (p.add n))
  | randGen {s : Symbol} {id : SymId} {o : SymObj} {v : Val} (hin : w.input? s.ref = some id)
    (ho : w.syms id = some o) (hv : o.val.scalar? = some v) (ret : LTy) : Reads w (.randGen s ret) v
  | getValArr {s : Symbol} {idxs : List LVal} {id e : SymId} {i : BitVec 32} {is : List (BitVec 32)} {o : SymObj}
    {v : Val} (hin : w.input? s.ref = some id) (hidxs : ReadsIdxs w idxs (i :: is))
    (hat : symAt w.syms id (i :: is) = some e) (ho : w.syms e = some o) (hv : o.val.scalar? = some v) (dest : LTy) :
    Reads w (.getValArr s idxs dest) v
  | getPropertyInput {s : Symbol} {id : SymId} {name : String} {type : ArrType} {size : BitVec 32}
    {elems : List SymId} (hin : w.input? s.ref = some id)
    (ho : w.syms id = some ⟨name, .array type (some size) elems⟩) : Reads w (.getPropertyInput s) (.int32 size)
  | getPropertyLocal {data : LVal} {p : Ptr} (hdata : Reads w data (.ptr p)) (s : Symbol) :
    Reads w (.getPropertyLocal s data) (.int32 (BitVec.ofNat 32 (w.allocSize p)))

inductive LVal.ReadsIdxs (w : World) : List LVal → List (BitVec 32) → Prop
  | nil : ReadsIdxs w [] []
  | cons {v : LVal} {n : BitVec 32} {vs : List LVal} {ns : List (BitVec 32)} (h : Reads w v (.int32 n))
    (hrest : ReadsIdxs w vs ns) : ReadsIdxs w (v :: vs) (n :: ns)
end

section

variable {w w' : World}

theorem World.input?_onward (h : w.Onward w') {r : SymRef} {id : SymId} (hin : w.input? r = some id) :
    w'.input? r = some id := by
  rw [World.input?_congr h.later.inputs]
  exact hin

theorem gepOffset_anywhere {elem : LTy} {i : Val} {n : Int} (h : gepOffset elem i w = .ok (n, w)) (w' : World) :
    gepOffset elem i w' = .ok (n, w') := by
  cases i <;> simp only [gepOffset, fault_ok_iff] at h <;> obtain ⟨rfl, -⟩ := pure_ok_iff.mp h <;> rfl

mutual
theorem LVal.Reads.onward (hok : w.Ok) (hw : w.Onward w') : ∀ {v : LVal} {a : Val}, v.Reads w a →
    v.Reads w' a ∧ w.ValOk a
  | _, _, .getInt8 v => ⟨.getInt8 v, .int fun _ => nofun⟩
  | _, _, .getInt32 v => ⟨.getInt32 v, .int fun _ => nofun⟩
  | _, _, .bin hl hr h => ⟨.bin (hl.onward hok hw).1 (hr.onward hok hw).1 h, .int (BinInst.eval_int h)⟩
  | _, _, .icmp hl hr h =>
    ⟨.icmp (hl.onward hok hw).1 (hr.onward hok hw).1 (hw.leaves.addr ▸ h), .int (IcmpPred.eval_int h)⟩
  | _, _, .alloca h ty => by
    refine ⟨.alloca (hw.leaves.frame ▸ h) ty, fun p hp => ?_⟩
    obtain rfl := Val.ptr.inj hp
    exact hok.frame _ _ h
  | _, _, .load haddr hc h => by
    refine ⟨.load (haddr.onward hok hw).1 hc (hw.leaves.mem ▸ h), ?_⟩
    exact (loadMem_steps (loadMem_ok_iff.mpr ⟨h, rfl⟩) hok).2
  | _, _, .gep haddr hidx hn => by
    obtain ⟨haddr', hp⟩ := haddr.onward hok hw
    refine ⟨.gep haddr' (hidx.onward hok hw).1 (gepOffset_anywhere hn w'), fun q hq => ?_⟩
    obtain rfl := Val.ptr.inj hq
    have hdata : w.DataPtr _ := hp _ rfl
    exact hdata
  | _, _, .randGen hin ho hv ret => by
    obtain ⟨name, ho'⟩ := hw.later.val_eq ho (SymVal.determined_of_scalar? hv)
    exact ⟨.randGen (World.input?_onward hw hin) ho' hv ret, .int (SymVal.scalar?_int hv)⟩
  | _, _, .getValArr hin hidxs hat ho hv dest => by
    obtain ⟨name, ho'⟩ := hw.later.val_eq ho (SymVal.determined_of_scalar? hv)
    exact ⟨.getValArr (World.input?_onward hw hin) (hidxs.onward hok hw) (hw.later.symAt hok hat) ho' hv dest,
      .int (SymVal.scalar?_int hv)⟩
  | _, _, .getPropertyInput hin ho => by
    obtain ⟨name, ho'⟩ := hw.later.val_eq ho rfl
    exact ⟨.getPropertyInput (World.input?_onward hw hin) ho', .int fun _ => nofun⟩
  | _, _, .getPropertyLocal hdata s => by
    have hdata' := (hdata.onward hok hw).1
    refine ⟨?_, .int fun _ => nofun⟩
    rw [← hw.leaves.sizes]
    exact .getPropertyLocal hdata' s

theorem LVal.ReadsIdxs.onward (hok : w.Ok) (hw : w.Onward w') : ∀ {vs : List LVal} {is : List (BitVec 32)},
    LVal.ReadsIdxs w vs is → LVal.ReadsIdxs w' vs is
  | _, _, .nil => .nil
  | _, _, .cons h hrest => .cons (h.onward hok hw).1 (hrest.onward hok hw)
end

end

/-! ## Evaluating what is read -/

/-- A determined scalar is not generated again. -/
theorem fillVal_of_scalar? {copyArr : SymId → M Ptr} {sym : SymId} {o : SymObj} {v : Val} {w : World}
    (ho : w.syms sym = some o) (hv : o.val.scalar? = some v) : fillVal copyArr sym w = .ok (v, w) := by
  obtain ⟨name, val⟩ := o
  rw [fillVal, bind_of_ok (getSym_ok_iff.mpr ⟨ho, rfl⟩)]
  cases val with
  | number num =>
    obtain ⟨num, rfl, rfl⟩ := Option.map_eq_some_iff.mp hv
    exact bind_of_ok (scalarRandGen_ok_iff.mpr ⟨_, ho, .inl ⟨rfl, rfl⟩⟩)
  | char ch =>
    obtain ⟨ch, rfl, rfl⟩ := Option.map_eq_some_iff.mp hv
    exact bind_of_ok (scalarRandGen_ok_iff.mpr ⟨_, ho, .inl ⟨rfl, rfl⟩⟩)
  | bool val =>
    obtain ⟨val, rfl, rfl⟩ := Option.map_eq_some_iff.mp hv
    have hgen : boolRandGen sym w = .ok (BitVec.ofNat 8 val.toNat, w) :=
      bind_of_ok (scalarRandGen_ok_iff.mpr ⟨_, ho, .inl ⟨rfl, rfl⟩⟩)
    exact bind_of_ok hgen
  | array => cases hv

theorem getElem_of_elem {w : World} (hok : w.Ok) {id e : SymId} {i : BitVec 32} (hi : 0 ≤ i.toInt)
    (he : (elemsOf w.syms id)[i.toNat]? = some e) : getElem id i w = .ok (e, w) := by
  obtain ⟨⟨name, val⟩, ho, hmem⟩ := mem_elemsOf_iff.mp (List.mem_of_getElem? he)
  have hsized := hok.tree.sized id _ ho
  cases val with
  | array type size elems =>
    cases size with
    | none =>
      obtain rfl : elems = [] := hsized
      cases hmem
    | some size =>
      have hlen : (elems.length : Int) = size.toInt := hsized
      rw [elemsOf_of_some ho] at he
      obtain ⟨hlt, -⟩ := List.getElem?_eq_some_iff.mp he
      have hlt : i.toNat < elems.length := hlt
      have hsize : getSize id w = .ok (size, w) := getSize_ok_iff.mpr ⟨name, type, _, elems, ho, .inl ⟨rfl, rfl⟩⟩
      have hnat : i.toInt = i.toNat := BitVec.toInt_eq_toNat_of_lt (by rw [BitVec.toInt_eq_toNat_cond] at hi; omega)
      rw [getElem_eq hsize ho, if_neg (by omega), if_neg (by omega)]
      exact ofOption_ok_iff.mpr ⟨he, rfl⟩
  | _ => cases hmem

theorem getSymbolByIdxs_of_symAt {w : World} (hok : w.Ok) {path : List (BitVec 32)} : ∀ {i : BitVec 32} {id e : SymId},
    symAt w.syms id (i :: path) = some e → getSymbolByIdxs id (i :: path) w = .ok (e, w) := by
  induction path with
  | nil =>
    intro i id e h
    obtain ⟨c, hi, hc, he⟩ := symAt_cons_iff.mp h
    obtain rfl := Option.some.inj he
    exact getElem_of_elem hok hi hc
  | cons j path ih =>
    intro i id e h
    obtain ⟨c, hi, hc, he⟩ := symAt_cons_iff.mp h
    show (do getSymbolByIdxs (← getElem id i) (j :: path)) w = _
    rw [bind_of_ok (getElem_of_elem hok hi hc)]
    exact ih he

theorem inputId_of_input? {w : World} {r : SymRef} {id : SymId} (h : w.input? r = some id) :
    inputId r w = .ok (id, w) := by
  cases r with
  | input i => exact inputId_ok_iff.mpr ⟨⟨i, rfl, h⟩, rfl⟩
  | var => cases h

section

variable {w : World}

mutual
/-- Nothing is generated: at most an address is looked up in the table of arrays. -/
theorem LVal.Reads.eval (hok : w.Ok) : ∀ {v : LVal} {a : Val}, v.Reads w a → ∀ {w₁}, w.Looked w₁ →
    ∃ w', v.eval w₁ = .ok (a, w') ∧ w.Looked w'
  | _, _, .getInt8 v, w₁, hlook => ⟨w₁, rfl, hlook⟩
  | _, _, .getInt32 v, w₁, hlook => ⟨w₁, rfl, hlook⟩
  | _, _, .bin hl hr h, _, hlook => by
    obtain ⟨w₂, hl, hlook⟩ := hl.eval hok hlook
    obtain ⟨w₃, hr, hlook⟩ := hr.eval hok hlook
    refine ⟨w₃, ?_, hlook⟩
    rw [LVal.eval, bind_of_ok hl, bind_of_ok hr, h]
    rfl
  | _, _, .icmp hl hr h, _, hlook => by
    obtain ⟨w₂, hl, hlook⟩ := hl.eval hok hlook
    obtain ⟨w₃, hr, hlook⟩ := hr.eval hok hlook
    have haddr : w₃.addr = w.addr := (World.Leaves.of_looked hlook).addr
    exact ⟨w₃, LVal.icmp_ok_iff.mpr ⟨_, w₂, _, hl, hr, haddr ▸ h⟩, hlook⟩
  | _, _, .alloca h ty, w₁, hlook => by
    have hframe := (World.Leaves.of_looked hlook).frame
    refine ⟨w₁, ?_, hlook⟩
    rw [LVal.eval, bind_of_ok (get_ok_iff.mpr ⟨rfl, rfl⟩), bind_of_ok (ofOption_ok_iff.mpr ⟨hframe ▸ h, rfl⟩)]
    rfl
  | _, _, .load haddr hc h, _, hlook => by
    obtain ⟨w₂, haddr, hlook⟩ := haddr.eval hok hlook
    refine ⟨w₂, ?_, hlook⟩
    rw [LVal.eval, bind_of_ok haddr, bind_of_ok (asPtr_ok_iff.mpr ⟨rfl, rfl⟩), hc]
    exact loadMem_ok_iff.mpr ⟨hlook.mem ▸ h, rfl⟩
  | _, _, .gep haddr hidx hn, _, hlook => by
    obtain ⟨w₂, haddr, hlook⟩ := haddr.eval hok hlook
    obtain ⟨w₃, hidx, hlook⟩ := hidx.eval hok hlook
    refine ⟨w₃, ?_, hlook⟩
    rw [LVal.eval, bind_of_ok haddr, bind_of_ok (asPtr_ok_iff.mpr ⟨rfl, rfl⟩), bind_of_ok hidx,
      bind_of_ok (gepOffset_anywhere hn w₃)]
    rfl
  | _, _, .randGen hin ho hv ret, w₁, hlook => by
    have honward := World.Onward.of_looked hok hlook
    obtain ⟨name, ho'⟩ := honward.later.val_eq ho (SymVal.determined_of_scalar? hv)
    refine ⟨w₁, ?_, hlook⟩
    rw [LVal.eval, DGen.randGen, bind_of_ok (inputId_of_input? (World.input?_onward honward hin))]
    exact fillVal_of_scalar? ho' hv
  | _, _, .getValArr hin hidxs hat ho hv dest, _, hlook => by
    obtain ⟨w₂, hidxs, hlook₂⟩ := hidxs.eval hok hlook
    have honward := World.Onward.of_looked hok hlook₂
    have hin' := World.input?_onward (World.Onward.of_looked hok hlook) hin
    obtain ⟨name, ho'⟩ := honward.later.val_eq ho (SymVal.determined_of_scalar? hv)
    have hok₂ : w₂.Ok := by
      rw [hlook₂.rest]
      exact ⟨hok.tree, hok.mem, hok.frame, hok.globals⟩
    refine ⟨w₂, ?_, hlook₂⟩
    rw [LVal.eval, bind_of_ok (inputId_of_input? hin'), bind_of_ok hidxs, DGen.getValArr,
      bind_of_ok (getSymbolByIdxs_of_symAt hok₂ (honward.later.symAt hok hat))]
    exact fillVal_of_scalar? ho' hv
  | _, _, .getPropertyInput hin ho, w₁, hlook => by
    have honward := World.Onward.of_looked hok hlook
    obtain ⟨name, ho'⟩ := honward.later.val_eq ho rfl
    refine ⟨w₁, ?_, hlook⟩
    rw [LVal.eval, bind_of_ok (inputId_of_input? (World.input?_onward honward hin)),
      bind_of_ok (getSize_ok_iff.mpr ⟨name, _, _, _, ho', .inl ⟨rfl, rfl⟩⟩)]
    rfl
  | _, _, .getPropertyLocal (p := p) hdata s, _, hlook => by
    obtain ⟨w₂, hdata, hlook⟩ := hdata.eval hok hlook
    obtain ⟨d, w₃, hd⟩ : ∃ d w₃, getAlloc p w₂ = .ok (d, w₃) := by
      unfold getAlloc
      split <;> exact ⟨_, _, rfl⟩
    have hlook₃ := hlook.trans (getAlloc_looked hd)
    have hsize : d.size.toNat = w.allocSize p := by
      rw [← hlook₃.allocSize, World.allocSize, getAlloc_alloc? hd]
      rfl
    refine ⟨w₃, ?_, hlook₃⟩
    rw [LVal.eval, bind_of_ok hdata, bind_of_ok (asPtr_ok_iff.mpr ⟨rfl, rfl⟩), bind_of_ok hd, ← hsize,
      BitVec.ofNat_toNat, BitVec.setWidth_eq]
    rfl

theorem LVal.ReadsIdxs.eval (hok : w.Ok) : ∀ {vs : List LVal} {is : List (BitVec 32)}, LVal.ReadsIdxs w vs is →
    ∀ {w₁}, w.Looked w₁ → ∃ w', LVal.evalIdxs vs w₁ = .ok (is, w') ∧ w.Looked w'
  | _, _, .nil, w₁, hlook => ⟨w₁, rfl, hlook⟩
  | _, _, .cons h hrest, _, hlook => by
    obtain ⟨w₂, h, hlook⟩ := h.eval hok hlook
    obtain ⟨w₃, hrest, hlook⟩ := hrest.eval hok hlook
    refine ⟨w₃, ?_, hlook⟩
    rw [LVal.evalIdxs, bind_of_ok h, bind_of_ok (asInt32_ok_iff.mpr ⟨rfl, rfl⟩), bind_of_ok hrest]
    rfl
end

end

/-! ## Reading what was evaluated -/

/-- Once a scalar has been generated, it is read. -/
theorem fillVal_scalar? {copyArr : SymId → M Ptr} {sym : SymId} {t : DeclTy} {w w' : World} {v : Val}
    (h : fillVal copyArr sym w = .ok (v, w')) (hok : w.Ok) (ht : t.toTy.isScalar = true) (hsym : w.Has t sym) :
    (∃ o, w'.syms sym = some o ∧ o.val.scalar? = some v) ∧ w.Leaves w' := by
  obtain ⟨⟨name, val⟩, ho, hcls⟩ := hsym
  rw [fillVal, bind_of_ok (getSym_ok_iff.mpr ⟨ho, rfl⟩)] at h
  obtain ⟨s, hs, rfl⟩ := DeclTy.isScalar_iff.mp ht
  cases s with
  | string => exact absurd rfl hs
  | int =>
    obtain ⟨num, rfl⟩ := cls_eq_number hcls
    obtain ⟨n, _, hn, h⟩ := bind_ok_iff.mp h
    obtain ⟨rfl, rfl⟩ := pure_ok_iff.mp h
    obtain ⟨name, ho⟩ := numRandGen_holds hn
    exact ⟨⟨_, ho, rfl⟩, (Leaving.symbols .numRandGen numRandGen_generates hn hok).2⟩
  | char =>
    obtain ⟨ch, rfl⟩ := cls_eq_char hcls
    obtain ⟨n, _, hn, h⟩ := bind_ok_iff.mp h
    obtain ⟨rfl, rfl⟩ := pure_ok_iff.mp h
    obtain ⟨name, ho⟩ := charRandGen_holds hn
    exact ⟨⟨_, ho, rfl⟩, (Leaving.symbols .charRandGen charRandGen_generates hn hok).2⟩
  | bool =>
    obtain ⟨b, rfl⟩ := cls_eq_bool hcls
    obtain ⟨n, _, hn, h⟩ := bind_ok_iff.mp h
    obtain ⟨rfl, rfl⟩ := pure_ok_iff.mp h
    obtain ⟨b, name, rfl, ho⟩ := boolRandGen_holds hn
    exact ⟨⟨_, ho, rfl⟩, (Leaving.symbols .boolRandGen boolRandGen_generates hn hok).2⟩

section

variable {inputs : List Symbol}

/-- Once it has been evaluated, its value is what it reads, and memory is as it was. -/
def LVal.Settles (inputs : List Symbol) (v : LVal) : Prop :=
  ∀ ⦃w a w'⦄, v.eval w = .ok (a, w') → w.Whole inputs → v.Reads w' a ∧ w.Leaves w'

namespace LVal.Settles

variable {v addr lhs rhs : LVal} {vs : List LVal}

theorem onward (h : v.Settles inputs) {w w' : World} {a : Val} (hv : v.eval w = .ok (a, w')) (hw : w.Whole inputs) :
    w.Onward w' :=
  ⟨(LVal.eval_steps v hv hw.ok).1.later hw.ok, (h hv hw).2⟩

theorem of_eval (h : v.Settles inputs) {w w₁ w' : World} {a : Val} (hv : v.eval w = .ok (a, w₁)) (hw : w.Whole inputs)
    (hw' : w₁.Onward w') : v.Reads w' a :=
  ((h hv hw).1.onward (hw.steps (LVal.eval_steps v hv hw.ok).1).ok hw').1

theorem getInt8 (n : BitVec 8) : (LVal.getInt8 n).Settles inputs := by
  intro w a w' h _
  obtain ⟨rfl, rfl⟩ := pure_ok_iff.mp h
  exact ⟨.getInt8 n, .refl w⟩

theorem getInt32 (n : BitVec 32) : (LVal.getInt32 n).Settles inputs := by
  intro w a w' h _
  obtain ⟨rfl, rfl⟩ := pure_ok_iff.mp h
  exact ⟨.getInt32 n, .refl w⟩

theorem alloca (s : Symbol) (ty : LTy) : (LVal.alloca (some s) ty).Settles inputs := by
  intro w a w' h _
  obtain ⟨_, _, hg, h⟩ := bind_ok_iff.mp h
  obtain ⟨rfl, rfl⟩ := get_ok_iff.mp hg
  obtain ⟨p, _, ho, h⟩ := bind_ok_iff.mp h
  obtain ⟨hp, rfl⟩ := ofOption_ok_iff.mp ho
  obtain ⟨rfl, rfl⟩ := pure_ok_iff.mp h
  exact ⟨.alloca hp ty, .refl w⟩

theorem load (haddr : addr.Settles inputs) (ty : LTy) : (LVal.load ty addr).Settles inputs := by
  intro w a w' h hw
  obtain ⟨_, w₁, ha, h⟩ := bind_ok_iff.mp h
  obtain ⟨p, _, hp, h⟩ := bind_ok_iff.mp h
  obtain ⟨rfl, rfl⟩ := asPtr_ok_iff.mp hp
  obtain ⟨c, _, hc, h⟩ := bind_ok_iff.mp h
  obtain ⟨hchunk, rfl⟩ := ofOption_ok_iff.mp hc
  obtain ⟨hload, rfl⟩ := loadMem_ok_iff.mp h
  obtain ⟨hreads, hleaves⟩ := haddr ha hw
  exact ⟨.load hreads hchunk hload, hleaves⟩

theorem gep (haddr : addr.Settles inputs) (hidx : v.Settles inputs) (elem : LTy) :
    (LVal.gep elem addr v).Settles inputs := by
  intro w a w' h hw
  obtain ⟨_, w₁, ha, h⟩ := bind_ok_iff.mp h
  obtain ⟨p, _, hp, h⟩ := bind_ok_iff.mp h
  obtain ⟨rfl, rfl⟩ := asPtr_ok_iff.mp hp
  obtain ⟨i, w₂, hi, h⟩ := bind_ok_iff.mp h
  obtain ⟨n, w₃, hn, h⟩ := bind_ok_iff.mp h
  obtain ⟨rfl, rfl⟩ := pure_ok_iff.mp h
  have hw₁ := hw.steps (LVal.eval_steps _ ha hw.ok).1
  obtain rfl : w₂ = w₃ := by
    cases i <;> simp only [gepOffset, fault_ok_iff] at hn <;> exact (pure_ok_iff.mp hn).2
  have honward := hidx.onward hi hw₁
  exact ⟨.gep (haddr.of_eval ha hw honward) (hidx hi hw₁).1 hn, (haddr ha hw).2.trans honward.leaves⟩

/-- Two operands, evaluated one after the other. -/
theorem operands (hl : lhs.Settles inputs) (hr : rhs.Settles inputs) {w w₁ w' : World} {x y : Val}
    (hx : lhs.eval w = .ok (x, w₁)) (hy : rhs.eval w₁ = .ok (y, w')) (hw : w.Whole inputs) :
    lhs.Reads w' x ∧ rhs.Reads w' y ∧ w.Leaves w' := by
  have hw₁ := hw.steps (LVal.eval_steps _ hx hw.ok).1
  have honward := hr.onward hy hw₁
  exact ⟨hl.of_eval hx hw honward, (hr hy hw₁).1, (hl hx hw).2.trans honward.leaves⟩

theorem bin (hl : lhs.Settles inputs) (hr : rhs.Settles inputs) (op : BinInst) :
    (LVal.bin op lhs rhs).Settles inputs := by
  intro w a w' h hw
  obtain ⟨x, w₁, hx, h⟩ := bind_ok_iff.mp h
  obtain ⟨y, w₂, hy, h⟩ := bind_ok_iff.mp h
  obtain ⟨hf, rfl⟩ := ofOption_ok_iff.mp h
  obtain ⟨hx', hy', hleaves⟩ := operands hl hr hx hy hw
  exact ⟨.bin hx' hy' hf, hleaves⟩

theorem icmp (hl : lhs.Settles inputs) (hr : rhs.Settles inputs) (pred : IcmpPred) :
    (LVal.icmp pred lhs rhs).Settles inputs := by
  intro w a w' h hw
  obtain ⟨x, w₁, y, hx, hy, hf⟩ := LVal.icmp_ok_iff.mp h
  obtain ⟨hx', hy', hleaves⟩ := operands hl hr hx hy hw
  exact ⟨.icmp hx' hy' hf, hleaves⟩

theorem inst (hl : lhs.Settles inputs) (hr : rhs.Settles inputs) (op : BinOpType) :
    (op.inst lhs rhs).Settles inputs := by
  cases op <;> first | exact hl.bin hr _ | exact hl.icmp hr _

theorem evalIdxs (h : ∀ v ∈ vs, v.Settles inputs) {w w' : World} {is : List (BitVec 32)}
    (hrun : LVal.evalIdxs vs w = .ok (is, w')) (hw : w.Whole inputs) : LVal.ReadsIdxs w' vs is ∧ w.Leaves w' := by
  induction vs generalizing w is with
  | nil =>
    obtain ⟨rfl, rfl⟩ := pure_ok_iff.mp hrun
    exact ⟨.nil, .refl w⟩
  | cons v vs ih =>
    obtain ⟨a, w₁, ha, hrun⟩ := bind_ok_iff.mp hrun
    obtain ⟨n, _, hn, hrun⟩ := bind_ok_iff.mp hrun
    obtain ⟨rfl, rfl⟩ := asInt32_ok_iff.mp hn
    obtain ⟨ns, w₂, hns, hrun⟩ := bind_ok_iff.mp hrun
    obtain ⟨rfl, rfl⟩ := pure_ok_iff.mp hrun
    simp only [List.forall_mem_cons] at h
    have hw₁ := hw.steps (LVal.eval_steps _ ha hw.ok).1
    obtain ⟨hrest, hleaves⟩ := ih h.2 hns hw₁
    have honward : w₁.Onward w₂ := ⟨(LVal.evalIdxs_generates vs hns hw₁.ok).1.later hw₁.ok, hleaves⟩
    exact ⟨.cons (h.1.of_eval ha hw honward) hrest, (h.1 ha hw).2.trans hleaves⟩

/-- An input that is a scalar. -/
theorem randGen {n : IdentNode Symbol} (hn : n.Resolved inputs) (hin : n.symbol.isInput = true)
    (hty : n.symbol.type.toTy.isScalar = true) (ret : LTy) : (LVal.randGen n.symbol ret).Settles inputs := by
  intro w a w' h hw
  obtain ⟨id, hid, hhas⟩ := hw.inputId hn hin
  rw [LVal.eval, DGen.randGen, bind_of_ok hid] at h
  obtain ⟨⟨o, ho, hv⟩, hleaves⟩ := fillVal_scalar? h hw.ok hty hhas
  have hl := (fillVal_generates (fun _ => arrRandGen_generates) h hw.ok).1.later hw.ok
  exact ⟨.randGen ((World.input?_congr hl.inputs _).trans (inputId_input? hid).1) ho hv ret, hleaves⟩

/-- A scalar below an input. -/
theorem getValArr {n : IdentNode Symbol} {d : DeclTy} (hn : n.Resolved inputs) (hin : n.symbol.isInput = true)
    (hd : n.symbol.type.elems? vs.length = some d) (hty : d.toTy.isScalar = true) (hvs : ∀ v ∈ vs, v.Settles inputs)
    (dest : LTy) : (LVal.getValArr n.symbol vs dest).Settles inputs := by
  intro w a w' h hw
  obtain ⟨id, hid, hhas⟩ := hw.inputId hn hin
  rw [LVal.eval, bind_of_ok hid] at h
  obtain ⟨is, w₁, his, h⟩ := bind_ok_iff.mp h
  obtain ⟨sub, w₂, hsub, h⟩ := bind_ok_iff.mp h
  have hs₁ := (LVal.evalIdxs_generates vs his hw.ok).1
  have hw₁ := hw.steps hs₁
  have hs₂ := (getSymbolByIdxs_generates hsub hw₁.ok).1
  have hw₂ := hw₁.steps hs₂
  have hs₃ := (fillVal_generates (fun _ => arrRandGen_generates) h hw₂.ok).1
  obtain ⟨-, hat⟩ := getSymbolByIdxs_sizing hsub hw₁.ok
  obtain ⟨d', hd', hsub'⟩ := hw₂.has_symAt ((hs₂.later hw₁.ok).has ((hs₁.later hw.ok).has hhas)) hat
  rw [evalIdxs_length his] at hd'
  cases hd.symm.trans hd'
  obtain ⟨hreads, hleaves₁⟩ := evalIdxs hvs his hw
  have hleaves₂ := (Leaving.symbols .getSymbolByIdxs getSymbolByIdxs_generates hsub hw₁.ok).2
  obtain ⟨⟨o, ho, hv⟩, hleaves₃⟩ := fillVal_scalar? h hw₂.ok hty hsub'
  have honward : w₁.Onward w' := ⟨(hs₂.later hw₁.ok).trans (hs₃.later hw₂.ok), hleaves₂.trans hleaves₃⟩
  have hin' : w'.input? n.symbol.ref = some id := by
    rw [World.input?_congr (((hs₁.later hw.ok).trans honward.later).inputs)]
    exact (inputId_input? hid).1
  cases is with
  | nil => cases hsub
  | cons i is =>
    have hat' := (hs₃.later hw₂.ok).symAt hw₂.ok hat
    exact ⟨.getValArr hin' (hreads.onward hw₁.ok honward) hat' ho hv dest, hleaves₁.trans honward.leaves⟩

theorem getPropertyInput (s : Symbol) : (LVal.getPropertyInput s).Settles inputs := by
  intro w a w' h hw
  obtain ⟨id, _, hid, h⟩ := bind_ok_iff.mp h
  obtain ⟨hin, rfl⟩ := inputId_input? hid
  obtain ⟨size, w₁, hsize, h⟩ := bind_ok_iff.mp h
  obtain ⟨rfl, rfl⟩ := pure_ok_iff.mp h
  obtain ⟨name, type, elems, ho⟩ := getSize_holds hsize
  have hl := (getSize_generates hsize hw.ok).1.later hw.ok
  exact ⟨.getPropertyInput ((World.input?_congr hl.inputs _).trans hin) ho,
    (Leaving.symbols .getSize getSize_generates hsize hw.ok).2⟩

theorem getPropertyLocal (h : v.Settles inputs) (s : Symbol) : (LVal.getPropertyLocal s v).Settles inputs := by
  intro w a w' hrun hw
  obtain ⟨_, w₁, ha, hrun⟩ := bind_ok_iff.mp hrun
  obtain ⟨p, _, hp, hrun⟩ := bind_ok_iff.mp hrun
  obtain ⟨rfl, rfl⟩ := asPtr_ok_iff.mp hp
  obtain ⟨d, w₂, hd, hrun⟩ := bind_ok_iff.mp hrun
  obtain ⟨rfl, rfl⟩ := pure_ok_iff.mp hrun
  have hw₁ := hw.steps (LVal.eval_steps _ ha hw.ok).1
  have hsize : d.size = BitVec.ofNat 32 (w₂.allocSize p) := by
    rw [World.allocSize, getAlloc_alloc? hd]
    exact (BitVec.ofNat_toNat 32 d.size).symm.trans (by simp)
  have honward : w₁.Onward w₂ := .of_looked hw₁.ok (getAlloc_looked hd)
  rw [hsize]
  exact ⟨.getPropertyLocal (h.of_eval ha hw honward) s, (h ha hw).2.trans honward.leaves⟩

end LVal.Settles

/-- The address of an element settles, if the code of the indices does. -/
theorem getLookupAddress_settles {idxs : List (Expr Symbol)} : ∀ {addr a : LVal}, getLookupAddress addr idxs = .ok a →
    addr.Settles inputs → (∀ e ∈ idxs, ∀ {v}, codeGenExpr e = .ok v → v.Settles inputs) → a.Settles inputs := by
  induction idxs with
  | nil =>
    intro addr a h haddr _
    obtain rfl := Except.ok.inj h
    exact haddr
  | cons e es ih =>
    intro addr a h haddr hidx
    simp only [getLookupAddress, Except.bind_ok_iff] at h
    obtain ⟨t, -, elem, -, v, hv, h⟩ := h
    simp only [List.forall_mem_cons] at hidx
    exact ih h ((haddr.load t).gep (hidx.1 hv) elem) hidx.2

theorem codeGenExprs_settles {es : List (Expr Symbol)} : ∀ {vs : List LVal}, codeGenExprs es = .ok vs →
    (∀ e ∈ es, ∀ {v}, codeGenExpr e = .ok v → v.Settles inputs) → ∀ v ∈ vs, v.Settles inputs := by
  induction es with
  | nil =>
    intro vs h _
    obtain rfl := Except.ok.inj h
    exact List.forall_mem_nil _
  | cons e es ih =>
    intro vs h hes
    simp only [codeGenExprs, Except.bind_ok_iff, Except.pure_ok_iff] at h
    obtain ⟨v, hv, vs', hvs, rfl⟩ := h
    simp only [List.forall_mem_cons] at hes ⊢
    exact ⟨hes.1 hv, ih hvs hes.2⟩

theorem Symbol.createAlloca_settles {s : Symbol} {a : LVal} (h : s.createAlloca = .ok a) : a.Settles inputs := by
  obtain rfl := Except.ok.inj (s.createAlloca_eq.symm.trans h)
  exact .alloca _ _

theorem Symbol.loadAlloca_settles {s : Symbol} {v : LVal} (h : s.loadAlloca = .ok v) : v.Settles inputs := by
  obtain rfl := Except.ok.inj (s.loadAlloca_eq.symm.trans h)
  exact .load (.alloca _ _) _

/-- Over scalars, what an expression has been evaluated to is what it reads from then on. -/
theorem codeGenExpr_settles (e : Expr Symbol) : ∀ {v}, codeGenExpr e = .ok v → (∀ n ∈ e.idents, n.Resolved inputs) →
    (∀ x ∈ e.nodes, x.Scalar) → v.Settles inputs := by
  induction e with
  | char node ch =>
    intro v h _ _
    obtain rfl := Except.ok.inj h
    exact .getInt8 ch
  | number node num =>
    intro v h _ _
    obtain rfl := Except.ok.inj h
    exact .getInt32 num
  | bool node val =>
    intro v h _ _
    obtain rfl := Except.ok.inj h
    exact .getInt8 _
  | string node str =>
    intro v _ _ hs
    have hscalar : (DeclTy.mk .string 0).toTy.isScalar = true := hs _ (Expr.mem_nodes_self _)
    cases hscalar
  | arrCreate node elem len _ =>
    intro v _ _ hs
    have hscalar : elem.insertArr.toTy.isScalar = true := hs _ (Expr.mem_nodes_self _)
    obtain ⟨s, -, hty⟩ := DeclTy.isScalar_iff.mp hscalar
    cases hty
  | ident n =>
    intro v h hres hs
    have hty : n.symbol.type.toTy.isScalar = true := hs _ (Expr.mem_nodes_self _)
    rw [codeGenExpr, codeGenIdent] at h
    split at h
    next hin =>
      obtain ⟨ret, -, h⟩ := Except.bind_ok_iff.mp h
      obtain rfl := Except.pure_ok_iff.mp h
      exact .randGen (hres n (List.mem_singleton_self _)) hin hty ret
    next => exact Symbol.loadAlloca_settles h
  | binOp node op lhs rhs ihl ihr =>
    intro v h hres hs
    simp only [codeGenExpr, Except.bind_ok_iff, Except.pure_ok_iff] at h
    obtain ⟨l, hl, r, hr, rfl⟩ := h
    simp only [Expr.idents, Expr.nodes, List.forall_mem_append, List.forall_mem_cons] at hres hs
    exact (ihl hl hres.1 hs.2.1).inst (ihr hr hres.2 hs.2.2) op
  | arrLookup node n idxs ih =>
    intro v h hres hs
    simp only [Expr.idents, Expr.nodes, List.forall_mem_cons, Expr.forall_mem_identsList,
      Expr.forall_mem_nodesList] at hres hs
    have hidxs : ∀ e ∈ idxs, ∀ {v}, codeGenExpr e = .ok v → v.Settles inputs :=
      fun e he _ hv => ih e he hv (hres.2 e he) (hs.2 e he)
    rw [codeGenExpr] at h
    split at h
    next hin =>
      obtain ⟨vs, hvs, h⟩ := Except.bind_ok_iff.mp h
      obtain ⟨dest, -, h⟩ := Except.bind_ok_iff.mp h
      obtain rfl := Except.pure_ok_iff.mp h
      obtain ⟨t, ht, hscalar⟩ := Expr.typeIs_iff.mp hs.1
      obtain ⟨-, d, hd, heq⟩ := getType_arrLookup_ok_iff.mp ht
      rw [Ty.isScalar_congr heq] at hscalar
      exact .getValArr hres.1 hin (codeGenExprs_length hvs ▸ hd) hscalar (codeGenExprs_settles hvs hidxs) dest
    next =>
      simp only [Except.bind_ok_iff, Except.pure_ok_iff] at h
      obtain ⟨t, -, a, ha, addr, haddr, ty, -, rfl⟩ := h
      exact .load (getLookupAddress_settles haddr (Symbol.createAlloca_settles ha) hidxs) ty
  | propertyLookup node n p =>
    intro v h _ _
    rw [codeGenExpr, codeGenProperty] at h
    split at h
    next =>
      obtain rfl := Except.pure_ok_iff.mp h
      exact .getPropertyInput _
    next =>
      obtain ⟨data, hdata, h⟩ := Except.bind_ok_iff.mp h
      obtain rfl := Except.pure_ok_iff.mp h
      exact .getPropertyLocal (Symbol.loadAlloca_settles hdata) _

end

end DGen
