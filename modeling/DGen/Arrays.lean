/-
Arrays and strings as inputs: the length that was determined, if one was, and
the symbols of the elements.

Elements are made and dropped with the length of their array, so they are
there as long as the array lists them. What an operation can do to the tree
is one of two things, besides giving scalars values: to build an array anew,
or to reset it.
-/
import DGen.AllocTable
import DGen.LlvmTypes
import DGen.ModelValues
import DGen.WriteOnce

namespace DGen

open Memory StateT

/-! ## What arrays are -/

/-- The elements of arrays are there. -/
def World.Alive (w : World) : Prop := ∀ p e : Nat, e ∈ elemsOf w.syms p → ∃ o, w.syms e = some o

/-- A symbol that is there, of a type's class. -/
def World.Has (w : World) (t : DeclTy) (id : SymId) : Prop := ∃ o, w.syms id = some o ∧ o.val.cls = t.newSym

/-- The inputs are there, each of its type's class, and so is what is below them. -/
structure World.Whole (inputs : List Symbol) (w : World) : Prop where
  ok : w.Ok
  alive : w.Alive
  typed : List.Forall₂ (fun s id => w.Has s.type id) inputs w.inputs

/-- An array, without elements as long as it has no length, then with as many
as that, and these are as `shaped` says. -/
def ArrayShaped (syms : Nat → Option SymObj) (type : ArrType) (shaped : SymId → Prop) (id : SymId) : Prop :=
  ∃ name size elems, syms id = some ⟨name, .array type size elems⟩ ∧ (size = none → elems = []) ∧
    (∀ n, size = some n → (elems.length : Int) = n.toInt) ∧ ∀ e ∈ elems, shaped e

def CharShaped (syms : Nat → Option SymObj) (id : SymId) : Prop := ∃ name ch, syms id = some ⟨name, .char ch⟩

def ScalarType.Shaped (syms : Nat → Option SymObj) : ScalarType → SymId → Prop
  | .int, id => ∃ name num, syms id = some ⟨name, .number num⟩
  | .string, id => ArrayShaped syms .string (CharShaped syms) id
  | .char, id => CharShaped syms id
  | .bool, id => ∃ name val, syms id = some ⟨name, .bool val⟩

/-- A symbol of a type nested `n` times, at every level. -/
def ShapedDepth (syms : Nat → Option SymObj) (s : ScalarType) : Nat → SymId → Prop
  | 0, id => s.Shaped syms id
  | n + 1, id => ArrayShaped syms (.arr ⟨s, n⟩) (ShapedDepth syms s n) id

def Shaped (syms : Nat → Option SymObj) (t : DeclTy) (id : SymId) : Prop := ShapedDepth syms t.scalar t.nested id

section

variable {w w' : World} {id : SymId}

theorem World.Ok.arrayShaped (hok : w.Ok) (halive : w.Alive) {type : ArrType} {shaped : SymId → Prop} {o : SymObj}
    (ho : w.syms id = some o) (hcls : o.val.cls = .array type none [])
    (hshaped : ∀ e o, w.syms e = some o → o.val.cls = type.elem.newSym → shaped e) :
    ArrayShaped w.syms type shaped id := by
  obtain ⟨name, val⟩ := o
  obtain ⟨size, elems, rfl⟩ := cls_eq_array hcls
  have hsized : (SymVal.array type size elems).Sized := hok.tree.sized _ _ ho
  refine ⟨name, size, elems, ho, ?_, ?_, fun e he => ?_⟩
  · rintro rfl
    exact hsized
  · rintro n rfl
    exact hsized
  · obtain ⟨o, hoe⟩ := halive id e (mem_elemsOf_iff.mpr ⟨_, ho, he⟩)
    exact hshaped e o hoe (hok.tree.typed id name type size elems ho e he o hoe)

theorem World.Ok.charShaped {o : SymObj} (ho : w.syms id = some o) (hcls : o.val.cls = .char none) :
    CharShaped w.syms id := by
  obtain ⟨name, val⟩ := o
  obtain ⟨ch, rfl⟩ := cls_eq_char hcls
  exact ⟨name, ch, ho⟩

/-- A symbol of a type's class has its shape, all the way down. -/
theorem World.Ok.shapedDepth (hok : w.Ok) (halive : w.Alive) (s : ScalarType) : ∀ (n : Nat) {id : SymId} {o : SymObj},
    w.syms id = some o → o.val.cls = (⟨s, n⟩ : DeclTy).newSym → ShapedDepth w.syms s n id := by
  intro n
  induction n with
  | zero =>
    intro id o ho hcls
    obtain ⟨name, val⟩ := o
    cases s with
    | int =>
      obtain ⟨num, rfl⟩ := cls_eq_number hcls
      exact ⟨name, num, ho⟩
    | char => exact charShaped ho hcls
    | bool =>
      obtain ⟨b, rfl⟩ := cls_eq_bool hcls
      exact ⟨name, b, ho⟩
    | string => exact hok.arrayShaped halive ho hcls fun _ _ hoe hce => charShaped hoe hce
  | succ n ih =>
    intro id o ho hcls
    rw [DeclTy.newSym_succ] at hcls
    exact hok.arrayShaped halive ho hcls fun _ _ hoe hce => ih hoe hce

theorem World.Ok.shaped (hok : w.Ok) (halive : w.Alive) {t : DeclTy} (h : w.Has t id) : Shaped w.syms t id := by
  obtain ⟨o, ho, hcls⟩ := h
  exact hok.shapedDepth halive t.scalar t.nested ho hcls

end

/-! ## Elements are not lost -/

section

variable {w : World}

/-- What is dropped with some elements: they, their elements, and so on. -/
def Below (syms : Nat → Option SymObj) (elems : List SymId) (j : SymId) : Prop :=
  ∃ e ∈ elems, Relation.ReflTransGen (fun p c => c ∈ elemsOf syms p) e j

/-- Where an array is built anew, an object that stays keeps its elements. -/
theorem rebuild_alive (hok : w.Ok) (h : w.Alive) {id : SymId} {name : String} {type : ArrType} {s : Option (BitVec 32)}
    {elems : List SymId} (ho : w.syms id = some ⟨name, .array type s elems⟩) (size : BitVec 32) :
    (w.rebuild id name type elems size).Alive := by
  obtain ⟨pruned, hpruned, hgone, hold⟩ := rebuild_pruned hok size ho
  have hbelow : ∀ j, Below w.syms elems j → j ∈ elems ∨ ∃ p, Below w.syms elems p ∧ j ∈ elemsOf w.syms p := by
    rintro j ⟨e, he, hpath⟩
    obtain rfl | ⟨p, hp, hj⟩ := Relation.ReflTransGen.cases_tail hpath
    · exact .inl he
    · exact .inr ⟨p, ⟨e, he, hp⟩, hj⟩
  have hdropped : ∀ {j}, Below w.syms elems j → pruned j = none := by
    rintro j ⟨e, he, hpath⟩
    induction hpath with
    | refl => exact hgone e he
    | tail _ hj ih =>
      obtain ⟨o, hop, -⟩ := mem_elemsOf_iff.mp hj
      exact hpruned.closed _ (by simp [hop]) ih _ hj
  intro p e he
  obtain ⟨rfl, hle, hlt⟩ | ⟨hne, he'⟩ := Tree.mem_elemsOf_rebuild he
  · -- a new element
    have hnew : e ≠ p := by
      rintro rfl
      exact absurd (hok.tree.lt_next ho) (Nat.not_lt.mpr hle)
    rw [World.rebuild, World.setSym_of_ne _ _ hnew]
    exact ⟨_, if_pos ⟨hle, hlt⟩⟩
  · obtain ⟨oe, hoe⟩ := h p e he'
    by_cases hid : e = id
    · exact ⟨_, by rw [hid]; exact World.setSym_self ..⟩
    have hlt := hok.tree.lt_next hoe
    have hstays : ¬ Below w.syms elems e := by
      intro hb
      obtain hmem | ⟨q, hq, heq⟩ := hbelow e hb
      · exact hne (hok.tree.parent p id e he' (mem_elemsOf_iff.mpr ⟨_, ho, hmem⟩))
      · obtain rfl := hok.tree.parent p q e he' heq
        obtain ⟨o, hop, -⟩ := mem_elemsOf_iff.mp he
        obtain ⟨op, hop', -⟩ := mem_elemsOf_iff.mp he'
        rw [hold p (hok.tree.lt_next hop') hne, hdropped hq] at hop
        cases hop
    have hclosed : ∀ p c : Nat, Below w.syms elems p → c ∈ elemsOf w.syms p → Below w.syms elems c := by
      rintro p c ⟨r, hr, hpath⟩ hc
      exact ⟨r, hr, hpath.tail hc⟩
    rw [World.rebuild, World.setSym_of_ne _ _ hid, World.pushed_syms_of_lt (by exact hlt)]
    exact ⟨oe, (deleteSyms_of_closed (fun e he => ⟨e, he, .refl⟩) hclosed e hstays).trans hoe⟩

/-- Values change, and not what is below a symbol. -/
theorem World.Alive.setSym (h : w.Alive) {id : SymId} {o o' : SymObj} (ho : w.syms id = some o)
    (helems : ∀ e ∈ o'.val.elems, e ∈ o.val.elems) : (w.setSym id o').Alive := by
  intro p e he
  have hold : e ∈ elemsOf w.syms p := by
    obtain ⟨op, hop, hmem⟩ := mem_elemsOf_iff.mp he
    by_cases hp : p = id
    · subst hp
      rw [World.setSym_self] at hop
      cases hop
      exact mem_elemsOf_iff.mpr ⟨o, ho, helems e hmem⟩
    · rw [World.setSym_of_ne _ _ hp] at hop
      exact mem_elemsOf_iff.mpr ⟨op, hop, hmem⟩
  by_cases hid : e = id
  · exact ⟨o', by rw [hid]; exact World.setSym_self ..⟩
  · rw [World.setSym_of_ne _ _ hid]
    exact h p e hold

theorem World.Alive.of_syms {w' : World} (h : w.Alive) (hsyms : w'.syms = w.syms) : w'.Alive := by
  intro p e he
  rw [hsyms] at he ⊢
  exact h p e he

theorem World.Step.alive {w' : World} (h : w.Step w') (hok : w.Ok) (halive : w.Alive) : w'.Alive := by
  cases h with
  | number _ h | char _ h | bool _ h => exact halive.setSym h fun _ he => he
  | size size h _ => exact rebuild_alive hok halive h size
  | rand | block | alloc | store => exact halive.of_syms rfl

theorem World.Steps.alive {w' : World} (h : w.Steps w') (hok : w.Ok) (halive : w.Alive) : w'.Alive := by
  induction h with
  | refl => exact halive
  | tail hs h ih => exact h.alive (World.Steps.ok hs hok) ih

end

/-! ## Operations -/

namespace World.Whole

variable {inputs : List Symbol} {w w' : World}

/-- At the beginning nothing has been made but the inputs. -/
theorem start (env : Env) (inputs : List Symbol) : (World.start env inputs).Whole inputs where
  ok := World.start_ok env inputs
  alive := by
    intro p e he
    obtain ⟨o, ho, hmem⟩ := mem_elemsOf_iff.mp he
    obtain ⟨s, -, rfl⟩ := Option.map_eq_some_iff.mp ho
    simp at hmem
  typed := by
    refine List.forall₂_iff_get.mpr ⟨by simp [World.start], fun i hi hi' => ?_⟩
    have hid : (World.start env inputs).inputs.get ⟨i, hi'⟩ = i := by simp [World.start]
    exact ⟨_, by rw [hid]; simp [World.start, hi]; rfl, inputs[i].type.newSym_cls⟩

/-- The inputs keep their classes. -/
theorem typed_of_kept (h : w.Whole inputs) (hinputs : w'.inputs = w.inputs)
    (hkept : ∀ (id : Nat) o, id ∈ w.inputs → w.syms id = some o → ∃ o', w'.syms id = some o' ∧ o'.val.cls = o.val.cls) :
    List.Forall₂ (fun s id => w'.Has s.type id) inputs w'.inputs := by
  rw [hinputs]
  refine List.forall₂_iff_get.mpr ⟨h.typed.length_eq, fun i hi hi' => ?_⟩
  obtain ⟨o, ho, hcls⟩ := h.typed.get hi hi'
  obtain ⟨o', ho', hcls'⟩ := hkept _ o (List.get_mem ..) ho
  exact ⟨o', ho', hcls'.trans hcls⟩

theorem steps (h : w.Whole inputs) (hs : w.Steps w') : w'.Whole inputs where
  ok := hs.ok h.ok
  alive := hs.alive h.ok h.alive
  typed := h.typed_of_kept hs.sameStatic.inputs fun id o _ ho => by
    obtain ⟨o', ho', hcls, -⟩ := (hs.later h.ok).kept id o ho
    exact ⟨o', ho', hcls⟩

theorem setSym (h : w.Whole inputs) {id : SymId} {o o' : SymObj} (ho : w.syms id = some o)
    (hcls : o'.val.cls = o.val.cls) (helems : o'.val.elems = o.val.elems) (hsized : o'.val.Sized) :
    (w.setSym id o').Whole inputs where
  ok := h.ok.setSym ho hcls helems hsized
  alive := h.alive.setSym ho fun e he => by rwa [← helems]
  typed := h.typed_of_kept rfl fun j oj _ hoj => by
    by_cases hj : j = id
    · subst hj
      cases ho.symm.trans hoj
      exact ⟨o', World.setSym_self .., hcls⟩
    · exact ⟨oj, (World.setSym_of_ne _ _ hj).trans hoj, rfl⟩

theorem rebuild (h : w.Whole inputs) {id : SymId} {name : String} {type : ArrType} {s : Option (BitVec 32)}
    {elems : List SymId} {size : BitVec 32} (ho : w.syms id = some ⟨name, .array type s elems⟩) (hsize : 0 ≤ size.toInt) :
    (w.rebuild id name type elems size).Whole inputs where
  ok := h.ok.rebuild ho hsize
  alive := rebuild_alive h.ok h.alive ho size
  typed := h.typed_of_kept rfl fun j o hj hoj => by
    obtain ⟨o', ho', -, hcls'⟩ := (OnSymbols.rebuild h.ok.tree ho hsize).kept j o hj hoj
    exact ⟨o', ho', hcls'⟩

theorem fillSym (h : w.Whole inputs) {sym : SymId} {z : ZVal} (hrun : fillSym sym z w = .ok ((), w')) :
    w'.Whole inputs := by
  obtain ⟨⟨name, val⟩, v, ho, hscalar, hcls, -, rfl⟩ | ⟨name, type, s, elems, size, ho, hsize, rfl⟩ := fillSym_ok hrun
  · have hscalar' := (SymVal.isArray_cls hcls).trans hscalar
    refine h.setSym ho hcls ((SymVal.elems_of_scalar hscalar').trans (SymVal.elems_of_scalar hscalar).symm) ?_
    cases v with
    | array => cases hscalar'
    | _ => trivial
  · exact h.rebuild ho hsize

/-- An array that is reset is one that was built without elements, and then has no length. -/
theorem resetVal (h : w.Whole inputs) {sym : SymId} (hrun : resetVal sym w = .ok ((), w')) : w'.Whole inputs := by
  obtain ⟨⟨name, val⟩, _, hget, hrun⟩ := bind_ok_iff.mp hrun
  obtain ⟨ho, rfl⟩ := getSym_ok_iff.mp hget
  cases val with
  | number | char | bool =>
    obtain rfl := setSym_ok_iff.mp hrun
    exact h.setSym ho rfl rfl trivial
  | array type s elems =>
    obtain ⟨_, _, hdel, hset⟩ := bind_ok_iff.mp hrun
    obtain rfl := modify_ok_iff.mp hdel
    obtain rfl := setSym_ok_iff.mp hset
    have hbuilt : (w.rebuild sym name type elems 0).Whole inputs := h.rebuild ho (by decide)
    have hnil : (w.rebuild sym name type elems 0).syms sym = some ⟨name, .array type (some 0) []⟩ :=
      World.setSym_self ..
    have hreset : ((w.rebuild sym name type elems 0).setSym sym ⟨name, .array type none []⟩).Whole inputs :=
      hbuilt.setSym hnil rfl rfl rfl
    exact World.setSym_rebuild_zero w sym name type elems _ ▸ hreset

end World.Whole

/-! ## What is done with an input -/

/-- The operations on a symbol, and on what is below it. -/
inductive ArrOp
  | getSize (sym : SymId)
  | fillVal (sym : SymId) (expr : ZVal)
  | getSymbolByIdxs (sym : SymId) (idxs : List (BitVec 32))
  | arrRandGen (sym : SymId)
  | serialize (sym : SymId)
  | resetVal (sym : SymId)

def ArrOp.exec : ArrOp → M Unit
  | getSize sym => do
    let _ ← DGen.getSize sym
    return ()
  | fillVal sym expr => fillSym sym expr
  | getSymbolByIdxs sym idxs => do
    let _ ← DGen.getSymbolByIdxs sym idxs
    return ()
  | arrRandGen sym => do
    let _ ← DGen.arrRandGen sym
    return ()
  | serialize sym => do
    let _ ← DGen.serialize sym
    return ()
  | resetVal sym => DGen.resetVal sym

def runArrOps : List ArrOp → M Unit
  | [] => return ()
  | op :: ops => do
    op.exec
    runArrOps ops

section

variable {inputs : List Symbol} {w w' : World}

/-- What one operation does: the step of the invariant. -/
theorem World.Whole.exec (hw : w.Whole inputs) {op : ArrOp} (h : op.exec w = .ok ((), w')) : w'.Whole inputs := by
  have hgen : ∀ {α : Type} {x : M α} {post : World → α → Prop}, Stepwise x post →
      (do let _ ← x; return () : M Unit) w = .ok ((), w') → w'.Whole inputs := by
    intro α x post hx h
    obtain ⟨a, _, hrun, hpure⟩ := bind_ok_iff.mp h
    obtain ⟨-, rfl⟩ := pure_ok_iff.mp hpure
    exact hw.steps (hx hrun hw.ok).1
  cases op with
  | getSize => exact hgen getSize_generates h
  | fillVal => exact hw.fillSym h
  | getSymbolByIdxs => exact hgen getSymbolByIdxs_generates h
  | arrRandGen => exact hgen arrRandGen_generates h
  | serialize => exact hgen serialize_generates h
  | resetVal => exact hw.resetVal h

theorem World.Whole.run {ops : List ArrOp} : ∀ {w : World}, w.Whole inputs → runArrOps ops w = .ok ((), w') →
    w'.Whole inputs := by
  induction ops with
  | nil =>
    intro w hw h
    obtain ⟨-, rfl⟩ := pure_ok_iff.mp h
    exact hw
  | cons op ops ih =>
    intro w hw h
    obtain ⟨_, w₁, hop, h⟩ := bind_ok_iff.mp h
    exact ih (hw.exec hop) h

end

/-! ## Tests -/

/-- Every run of `x` leaves the inputs and what is below them there. -/
def Maintains {α : Type} (inputs : List Symbol) (x : M α) : Prop :=
  ∀ ⦃w a w'⦄, x w = .ok (a, w') → w.Whole inputs → w'.Whole inputs

namespace Maintains

variable {α β : Type} {inputs : List Symbol} {x : M α}

theorem bind {f : α → M β} (hx : Maintains inputs x) (hf : ∀ a, Maintains inputs (f a)) :
    Maintains inputs (x >>= f) := by
  intro w b w' h hw
  obtain ⟨a, w₁, h₁, h₂⟩ := bind_ok_iff.mp h
  exact hf a h₂ (hx h₁ hw)

theorem of_stepwise {post : World → α → Prop} (hx : Stepwise x post) : Maintains inputs x :=
  fun _ _ _ h hw => hw.steps (hx h hw.ok).1

theorem read (h : ∀ {w a w'}, x w = .ok (a, w') → w = w') : Maintains inputs x :=
  fun _ _ _ hx hw => h hx ▸ hw

theorem pure {a : α} : Maintains inputs (pure a : M α) := read fun h => (pure_ok_iff.mp h).2

theorem fault {e : Fault} : Maintains inputs (DGen.fault e : M α) := read fun h => by simp at h

/-- What changes other things than symbols. -/
theorem modifies {f : World → World} (hsyms : ∀ w, (f w).syms = w.syms) (hinputs : ∀ w, (f w).inputs = w.inputs)
    (hok : ∀ w : World, w.Ok → (f w).Ok) : Maintains inputs (modify f : M Unit) := by
  intro w u w' h hw
  obtain rfl := modify_ok_iff.mp h
  exact ⟨hok w hw.ok, hw.alive.of_syms (hsyms w), hw.typed_of_kept (hinputs w) fun id o _ ho =>
    ⟨o, (congrFun (hsyms w) id).trans ho, rfl⟩⟩

theorem record {sym : SymId} {e : ZExpr} : Maintains inputs (record sym e) :=
  modifies (fun _ => rfl) (fun _ => rfl) fun _ hok => ⟨hok.tree, hok.mem, hok.frame, hok.globals⟩

theorem quiet (h : ∀ {w a w'}, x w = .ok (a, w') → Quiet w w') : Maintains inputs x := by
  intro w a w' hx hw
  obtain ⟨r, l, rfl⟩ := h hx
  exact ⟨⟨hw.ok.tree, hw.ok.mem, hw.ok.frame, hw.ok.globals⟩, hw.alive, hw.typed⟩

theorem genSymExpr {sym : SymId} : Maintains inputs (genSymExpr sym) := by
  intro w z w' h hw
  obtain ⟨o, -, -, rfl⟩ := genSymExpr_ok h
  exact ⟨⟨hw.ok.tree, hw.ok.mem, hw.ok.frame, hw.ok.globals⟩, hw.alive, hw.typed⟩

theorem genMention : ∀ {μ : Mention}, Maintains inputs (genMention μ)
  | .length id => by
    intro w z w' h hw
    obtain ⟨o, -, -, rfl⟩ := genMention_length_ok h
    exact ⟨⟨hw.ok.tree, hw.ok.mem, hw.ok.frame, hw.ok.globals⟩, hw.alive, hw.typed⟩
  | .value id [] => genSymExpr
  | .value id (i :: path) => by
    intro w z w' h hw
    obtain ⟨sym, w₁, hsym, h⟩ := bind_ok_iff.mp h
    have hw₁ := hw.steps (getSymbolByIdxs_generates hsym hw.ok).1
    obtain ⟨r, _, hr, h⟩ := bind_ok_iff.mp h
    obtain ⟨-, rfl⟩ := getSym_ok_iff.mp hr
    obtain ⟨o, _, hget, h⟩ := bind_ok_iff.mp h
    obtain ⟨ho, rfl⟩ := getSym_ok_iff.mp hget
    obtain ⟨_, _, hs, h⟩ := bind_ok_iff.mp h
    obtain rfl := setSym_ok_iff.mp hs
    exact genSymExpr h (hw₁.setSym ho rfl rfl (hw₁.ok.tree.sized _ o ho))

theorem genExpr (e : Expr Symbol) : Maintains inputs (genExpr e) := by
  have hleaf : ∀ {x : Expr Symbol}, (∀ node op lhs rhs, x ≠ .binOp node op lhs rhs) →
      Maintains inputs (DGen.genExpr x) := by
    intro x hx w z w' h hw
    obtain ⟨-, hq⟩ | ⟨μ, -, hμ⟩ := genExpr_leaf hx h
    · obtain ⟨r, l, rfl⟩ := hq
      exact ⟨⟨hw.ok.tree, hw.ok.mem, hw.ok.frame, hw.ok.globals⟩, hw.alive, hw.typed⟩
    · exact genMention hμ hw
  induction e with
  | binOp node op lhs rhs ihl ihr =>
    refine ihl.bind fun l => ihr.bind fun r => ?_
    unfold mkBinOp
    split
    · exact pure
    · exact fault
  | _ => exact hleaf fun _ _ _ _ he => by cases he

theorem genFormulas {cond : Expr Symbol} {precond : PrecondNode Symbol} :
    Maintains inputs (genFormulas cond precond) := by
  have hclear : Maintains inputs (modify fun w : World => { w with z3 := ⟨[], []⟩ }) :=
    modifies (fun _ => rfl) (fun _ => rfl) fun _ hok => ⟨hok.tree, hok.mem, hok.frame, hok.globals⟩
  have hroll : ∀ z, Maintains inputs (roll precond.prob z) := fun _ => quiet roll_quiet
  have hrand : Maintains inputs rand := quiet fun h => by
    obtain ⟨-, rfl⟩ := rand_ok_iff.mp h
    exact ⟨_, _, rfl⟩
  refine hclear.bind fun _ => (genExpr cond).bind fun z => hrand.bind fun _ => (hroll z).bind fun _ => ?_
  split
  · exact pure
  · exact (genExpr _).bind fun _ => pure

theorem fillLoop {m : Model} {exprs : List ZExpr} : ∀ {items : List (SymId × Nat)},
    Maintains inputs (fillLoop m exprs items)
  | [] => pure
  | _ :: _ => (of_stepwise ofOption_generates).bind fun _ =>
    Maintains.bind (fun _ _ _ h hw => hw.fillSym h) fun _ => fillLoop

/-- The solver's values have the classes of their symbols. -/
theorem startZ3Gen {check : List ZExpr → CheckResult} {walk : Walk} {cond : Expr Symbol}
    {precond : PrecondNode Symbol} :
    Maintains inputs (startZ3Gen check walk cond precond) := by
  refine genFormulas.bind fun fs => (read fun h => (get_ok_iff.mp h).2).bind fun w => ?_
  dsimp only
  split
  · exact pure
  · split
    · exact fillLoop
    · exact pure

end Maintains

section

variable {inputs : List Symbol} {w w' : World}

/-- The code of a program changes memory, cells and the context. -/
theorem World.Whole.of_steps (hw : w.Whole inputs) {w₁ : World} (hs : w.Steps w₁) (hok : w'.Ok)
    (hsyms : w'.syms = w₁.syms) (hinputs : w'.inputs = w₁.inputs) : w'.Whole inputs := by
  have hw₁ := hw.steps hs
  exact ⟨hok, hw₁.alive.of_syms hsyms, hw₁.typed_of_kept hinputs fun id o _ ho => ⟨o, (congrFun hsyms id).trans ho, rfl⟩⟩

/-- What one operation of a test does. -/
theorem World.Whole.op (hw : w.Whole inputs) {op : Op} (h : op.exec w = .ok ((), w')) : w'.Whole inputs := by
  obtain ⟨hok', w₁, frame, ctx, hs, rfl, -⟩ | ⟨_, _, _, _, hz3⟩ := op.exec_cases h hw.ok
  · exact hw.of_steps hs hok' rfl rfl
  · exact Maintains.startZ3Gen hz3 hw

theorem World.Whole.test {ops : List Op} : ∀ {w : World}, w.Whole inputs → runOps ops w = .ok ((), w') →
    w'.Whole inputs := by
  induction ops with
  | nil =>
    intro w hw h
    obtain ⟨-, rfl⟩ := pure_ok_iff.mp h
    exact hw
  | cons op ops ih =>
    intro w hw h
    obtain ⟨_, w₁, hop, h⟩ := bind_ok_iff.mp h
    exact ih (hw.op hop) h

end

/-! ## Elements of what is there -/

theorem DeclTy.newSym_of_elem? {t e : DeclTy} (h : t.elem? = some e) :
    ∃ type : ArrType, t.newSym = .array type none [] ∧ type.elem = e := by
  match t, h with
  | ⟨s, n + 1⟩, h =>
    cases h
    exact ⟨.arr ⟨s, n⟩, DeclTy.newSym_succ s n, rfl⟩
  | ⟨.string, 0⟩, h =>
    cases h
    exact ⟨.string, rfl, rfl⟩

theorem DeclTy.depth_of_elem? {t e : DeclTy} (h : t.elem? = some e) : t.depth = e.depth + 1 := by
  match t, h with
  | ⟨s, n + 1⟩, h =>
    cases h
    cases s <;> rfl
  | ⟨.string, 0⟩, h =>
    cases h
    rfl

theorem DeclTy.elem?_of_depth {t : DeclTy} (h : 0 < t.depth) : ∃ e, t.elem? = some e := by
  match t, h with
  | ⟨s, n + 1⟩, _ => exact ⟨_, rfl⟩
  | ⟨.string, 0⟩, _ => exact ⟨_, rfl⟩

section

variable {w w' : World} {t e : DeclTy} {id : SymId}

theorem Later.has (hl : Later w w') (h : w.Has t id) : w'.Has t id := by
  obtain ⟨o, ho, hcls⟩ := h
  obtain ⟨o', ho', hcls', -⟩ := hl.kept id o ho
  exact ⟨o', ho', hcls'.trans hcls⟩

theorem World.Has.typed (h : w.Has t id) (hok : w.Ok) : w.Typed t id := by
  obtain ⟨o, ho, hcls⟩ := h
  refine ⟨hok.tree.lt_next ho, fun o' ho' => ?_⟩
  cases ho.symm.trans ho'
  exact hcls

/-- An array of a type that has elements. -/
theorem World.Has.array (h : w.Has t id) (he : t.elem? = some e) :
    ∃ name type s elems, w.syms id = some ⟨name, .array type s elems⟩ ∧ type.elem = e := by
  obtain ⟨type, hnew, helem⟩ := DeclTy.newSym_of_elem? he
  obtain ⟨⟨name, val⟩, ho, hcls⟩ := h
  obtain ⟨s, elems, rfl⟩ := cls_eq_array (hcls.trans hnew)
  exact ⟨name, type, s, elems, ho, helem⟩

/-- An array has a length when it is asked for it, as many elements, and they are there. -/
theorem getSize_returns (hok : w.Ok) (halive : w.Alive) (h : w.Has t id) (he : t.elem? = some e) :
    ∃ size w' name type elems, getSize id w = .ok (size, w') ∧ w.Steps w' ∧
      w'.syms id = some ⟨name, .array type (some size) elems⟩ ∧ type.elem = e ∧ (elems.length : Int) = size.toInt ∧
      ∀ c ∈ elems, w'.Has e c := by
  obtain ⟨name, type, s, elems, ho, rfl⟩ := h.array he
  obtain ⟨size, w', hsize⟩ : ∃ size w', getSize id w = .ok (size, w') := by
    cases s with
    | some size => exact ⟨size, w, getSize_ok_iff.mpr ⟨name, type, _, elems, ho, .inl ⟨rfl, rfl⟩⟩⟩
    | none => exact ⟨_, _, getSize_ok_iff.mpr ⟨name, type, _, elems, ho, .inr ⟨rfl, rfl, rfl⟩⟩⟩
  have hs := (getSize_generates hsize hok).1
  obtain ⟨o, ho', hcls, -⟩ := (hs.later hok).kept id _ ho
  have htype : ∀ o, w.syms id = some o → o.val.cls = .array type none [] := by
    intro o ho''
    cases ho.symm.trans ho''
    rfl
  obtain ⟨hok', name', elems', rfl⟩ := getSize_typed hsize hok htype ho'
  have hsized : (SymVal.array type (some size) elems').Sized := hok'.tree.sized _ _ ho'
  refine ⟨size, w', name', type, elems', hsize, hs, ho', rfl, hsized, fun c hc => ?_⟩
  obtain ⟨o, hoc⟩ := hs.alive hok halive id c (mem_elemsOf_iff.mpr ⟨_, ho', hc⟩)
  exact ⟨o, hoc, (hok'.typed_elem ho' hc).2 o hoc⟩

/-- What `getElem` does with an index, once the length is there. -/
theorem getElem_eq {idx size : BitVec 32} {name : String} {type : ArrType} {elems : List SymId}
    (hsize : getSize id w = .ok (size, w')) (ho : w'.syms id = some ⟨name, .array type (some size) elems⟩) :
    getElem id idx w = if size.toInt ≤ idx.toInt then .error (.thrown "out of bounds") else
      if idx.toInt < 0 then .error .undefined else ofOption .undefined elems[idx.toNat]? w' := by
  have hget : getSym id w' = .ok (⟨name, .array type (some size) elems⟩, w') := getSym_ok_iff.mpr ⟨ho, rfl⟩
  rw [getElem, bind_of_ok hsize]
  split
  · rfl
  · rw [bind_of_ok hget]
    dsimp only
    split <;> rfl

end

/-! ## Lookups -/

/-- Each index is one of an element, for the length that the array at this place has. -/
def InRange : SymId → List (BitVec 32) → World → Prop
  | _, [], _ => True
  | arr, idx :: idxs, w => ∀ size w', getSize arr w = .ok (size, w') → 0 ≤ idx.toInt ∧ idx.toInt < size.toInt ∧
      ∀ e, (elemsOf w'.syms arr)[idx.toNat]? = some e → InRange e idxs w'

theorem DeclTy.elems?_succ {t e : DeclTy} (h : t.elem? = some e) (n : Nat) : t.elems? (n + 1) = e.elems? n := by
  rw [elems?, h, Option.bind_some]

/-- An accepted lookup has no more indices than its array's type has levels. -/
theorem elems?_depth {d : DeclTy} {n : Nat} : ∀ {t : DeclTy}, t.elems? n = some d → n ≤ t.depth := by
  induction n with
  | zero => exact fun _ => Nat.zero_le _
  | succ n ih =>
    intro t h
    obtain ⟨e, he, h⟩ := Option.bind_eq_some_iff.mp h
    rw [DeclTy.depth_of_elem? he]
    exact Nat.succ_le_succ (ih h)

/-- An index in range has its element. -/
theorem getElem_returns {w : World} {t e : DeclTy} {id : SymId} (hok : w.Ok) (halive : w.Alive) (h : w.Has t id)
    (he : t.elem? = some e) {idx : BitVec 32} {idxs : List (BitVec 32)} (hin : InRange id (idx :: idxs) w) :
    ∃ c w', getElem id idx w = .ok (c, w') ∧ w.Steps w' ∧ w'.Has e c ∧ 0 ≤ idx.toInt ∧
      (elemsOf w'.syms id)[idx.toNat]? = some c ∧ InRange c idxs w' := by
  obtain ⟨size, w', name, type, elems, hsize, hs, ho, -, hlen, helems⟩ := getSize_returns hok halive h he
  obtain ⟨hlo, hhi, hrest⟩ := hin size w' hsize
  have hlt : idx.toNat < elems.length := by
    have hnat := toNat_of_nonneg hlo
    omega
  have hat : (elemsOf w'.syms id)[idx.toNat]? = some elems[idx.toNat] := by
    rw [elemsOf_of_some ho]
    exact List.getElem?_eq_getElem hlt
  refine ⟨elems[idx.toNat], w', ?_, hs, helems _ (List.getElem_mem hlt), hlo, hat, hrest _ hat⟩
  rw [getElem_eq hsize ho, if_neg (Int.not_le.mpr hhi), if_neg (Int.not_lt.mpr hlo), List.getElem?_eq_getElem hlt]
  rfl

/-- Indices in range, of an array that is deep enough, lead to the symbol there. -/
theorem getSymbolByIdxs_returns {idxs : List (BitVec 32)} : ∀ {w : World} {t : DeclTy} {id : SymId}, w.Ok → w.Alive →
    w.Has t id → idxs ≠ [] → idxs.length ≤ t.depth → InRange id idxs w →
      ∃ c w' d, getSymbolByIdxs id idxs w = .ok (c, w') ∧ w.Steps w' ∧ symAt w'.syms id idxs = some c ∧
        t.elems? idxs.length = some d ∧ w'.Has d c := by
  induction idxs with
  | nil => exact fun _ _ _ hne => absurd rfl hne
  | cons idx idxs ih =>
    intro w t id hok halive h _ hlen hin
    rw [List.length_cons] at hlen
    obtain ⟨e, he⟩ := DeclTy.elem?_of_depth (t := t) (by omega)
    obtain ⟨c, w₁, hc, hs₁, hhas, hlo, hat, hrest⟩ := getElem_returns hok halive h he hin
    cases idxs with
    | nil => exact ⟨c, w₁, e, hc, hs₁, symAt_cons_iff.mpr ⟨c, hlo, hat, rfl⟩, DeclTy.elems?_succ he 0, hhas⟩
    | cons idx' idxs =>
      have hdepth : (idx' :: idxs).length ≤ e.depth := by
        rw [DeclTy.depth_of_elem? he] at hlen
        omega
      have hok₁ := hs₁.ok hok
      obtain ⟨c', w₂, d, hrun, hs₂, hat', hd, hhas'⟩ :=
        ih hok₁ (hs₁.alive hok halive) hhas (List.cons_ne_nil _ _) hdepth hrest
      have hstep : symAt w₁.syms id [idx] = some c := symAt_cons_iff.mpr ⟨c, hlo, hat, rfl⟩
      have hkept := (hs₂.later hok₁).symAt hok₁ hstep
      refine ⟨c', w₂, d, ?_, hs₁.trans hs₂, symAt_append_iff.mpr ⟨c, hkept, hat'⟩,
        (DeclTy.elems?_succ he _).trans hd, hhas'⟩
      show (getElem id idx >>= fun sub => getSymbolByIdxs sub (idx' :: idxs)) w = _
      rw [bind_of_ok hc, hrun]

/-! ## Texts -/

/-- The operation has a result for every symbol of the type. -/
def Returns {α : Type} (f : SymId → M α) (t : DeclTy) : Prop :=
  ∀ ⦃w : World⦄ ⦃id : SymId⦄, w.Ok → w.Alive → w.Has t id → ∃ a w', f id w = .ok (a, w')

theorem scalarRandGen_returns {α : Type} {cls : SymVal → Option (Option α)} {put : α → SymVal} {draw : Nat → α}
    {id : SymId} {w : World} {o : SymObj} {x : Option α} (ho : w.syms id = some o) (hcls : cls o.val = some x) :
    ∃ v w', scalarRandGen cls put draw id w = .ok (v, w') := by
  cases x with
  | none => exact ⟨_, _, scalarRandGen_ok_iff.mpr ⟨o, ho, .inr ⟨hcls, rfl, rfl⟩⟩⟩
  | some v => exact ⟨v, w, scalarRandGen_ok_iff.mpr ⟨o, ho, .inl ⟨hcls, rfl⟩⟩⟩

theorem charRandGen_returns : Returns charRandGen ⟨.char, 0⟩ := by
  rintro w id - - ⟨⟨name, val⟩, ho, hcls⟩
  obtain ⟨ch, rfl⟩ := cls_eq_char hcls
  exact scalarRandGen_returns ho rfl

theorem serializeElems_returns {f : SymId → M String} {t : DeclTy} (hgen : ∀ sym, Generates (f sym))
    (hf : Returns f t) :
    ∀ {elems : List SymId} {w : World}, w.Ok → w.Alive → (∀ e ∈ elems, w.Has t e) →
      ∃ s w', serializeElems f elems w = .ok (s, w')
  | [], w, _, _, _ => ⟨_, w, rfl⟩
  | e :: elems, w, hok, halive, hhas => by
    obtain ⟨he, helems⟩ := List.forall_mem_cons.mp hhas
    obtain ⟨s, w₁, hs⟩ := hf hok halive he
    have hsteps := (hgen e hs hok).1
    obtain ⟨rest, w', hrest⟩ := serializeElems_returns hgen hf (hsteps.ok hok) (hsteps.alive hok halive)
      fun c hc => (hsteps.later hok).has (helems c hc)
    exact ⟨_, w', by rw [serializeElems, bind_of_ok hs, bind_of_ok hrest]; rfl⟩

theorem serializeChars_returns : ∀ {elems : List SymId} {w : World}, w.Ok → w.Alive →
    (∀ e ∈ elems, w.Has ⟨.char, 0⟩ e) →
    ∃ s w', serializeChars elems w = .ok (s, w')
  | [], w, _, _, _ => ⟨_, w, rfl⟩
  | e :: elems, w, hok, halive, hhas => by
    obtain ⟨he, helems⟩ := List.forall_mem_cons.mp hhas
    obtain ⟨s, w₁, hs⟩ := charRandGen_returns hok halive he
    have hsteps := (charRandGen_generates hs hok).1
    obtain ⟨rest, w', hrest⟩ := serializeChars_returns (hsteps.ok hok) (hsteps.alive hok halive)
      fun c hc => (hsteps.later hok).has (helems c hc)
    exact ⟨_, w', by rw [serializeChars, bind_of_ok hs, bind_of_ok hrest]; rfl⟩

theorem DeclTy.elem?_of_newSym {t : DeclTy} {type : ArrType} (h : t.newSym = .array type none []) :
    t.elem? = some type.elem := by
  match t, h with
  | ⟨s, n + 1⟩, h =>
    rw [newSym_succ] at h
    cases h
    rfl
  | ⟨.string, 0⟩, h =>
    cases h
    rfl

theorem stringSerialize_returns {t : DeclTy} (he : t.elem? = some ⟨.char, 0⟩) : Returns stringSerialize t := by
  intro w id hok halive hid
  obtain ⟨size, w₁, name, type, elems, hsize, hsteps, ho, -, -, helems⟩ := getSize_returns hok halive hid he
  have hget : getSym id w₁ = .ok (⟨name, .array type (some size) elems⟩, w₁) := getSym_ok_iff.mpr ⟨ho, rfl⟩
  obtain ⟨chs, w', hchs⟩ := serializeChars_returns (hsteps.ok hok) (hsteps.alive hok halive) helems
  exact ⟨_, w', by rw [stringSerialize, bind_of_ok hsize, bind_of_ok hget]; exact bind_of_ok hchs⟩

theorem arraySerialize_returns {f : SymId → M String} {t e : DeclTy} (hgen : ∀ sym, Generates (f sym))
    (he : t.elem? = some e) (hf : Returns f e) : Returns (arraySerialize f) t := by
  intro w id hok halive hid
  obtain ⟨size, w₁, name, type, elems, hsize, hsteps, ho, -, -, helems⟩ := getSize_returns hok halive hid he
  have hget : getSym id w₁ = .ok (⟨name, .array type (some size) elems⟩, w₁) := getSym_ok_iff.mpr ⟨ho, rfl⟩
  obtain ⟨text, w', htext⟩ := serializeElems_returns hgen hf (hsteps.ok hok) (hsteps.alive hok halive) helems
  exact ⟨_, w', by rw [arraySerialize, bind_of_ok hsize, bind_of_ok hget]; exact bind_of_ok htext⟩

/-- The casts of `serialize` are to the classes that the elements have. -/
theorem serializeBy_returns {f : SymId → M String} {t : DeclTy} (hgen : ∀ sym, Generates (f sym))
    (hf : ∀ e, t.elem? = some e → Returns f e) : Returns (serializeBy f) t := by
  intro w id hok halive hid
  obtain ⟨⟨name, val⟩, ho, hcls⟩ := hid
  have hget : getSym id w = .ok (⟨name, val⟩, w) := getSym_ok_iff.mpr ⟨ho, rfl⟩
  rw [serializeBy, bind_of_ok hget]
  cases val with
  | number num =>
    obtain ⟨v, w', hv⟩ : ∃ v w', numRandGen id w = .ok (v, w') := scalarRandGen_returns ho rfl
    exact ⟨_, w', bind_of_ok hv⟩
  | char ch =>
    obtain ⟨v, w', hv⟩ : ∃ v w', charRandGen id w = .ok (v, w') := scalarRandGen_returns ho rfl
    exact ⟨_, w', bind_of_ok hv⟩
  | bool b =>
    have hread : SymVal.bool? (.bool b) = some b := rfl
    obtain ⟨v, w', hv⟩ := scalarRandGen_returns ho hread
    exact ⟨_, w', bind_of_ok (bind_of_ok hv)⟩
  | array type s elems =>
    have helem := DeclTy.elem?_of_newSym hcls.symm
    cases type with
    | string => exact stringSerialize_returns helem hok halive ⟨_, ho, hcls⟩
    | arr e => exact arraySerialize_returns hgen helem (hf e helem) hok halive ⟨_, ho, hcls⟩

theorem serializeDepth_returns : ∀ {n : Nat} {t : DeclTy}, t.depth ≤ n → Returns (serializeDepth n) t
  | 0, t, hn => serializeBy_returns (fun _ => .fault) fun e he => by
    rw [DeclTy.depth_of_elem? he] at hn
    exact absurd hn (Nat.not_succ_le_zero _)
  | n + 1, t, hn => serializeBy_returns (fun _ => serializeDepth_generates) fun e he => by
    rw [DeclTy.depth_of_elem? he] at hn
    exact serializeDepth_returns (Nat.le_of_succ_le_succ hn)

theorem serialize_returns (t : DeclTy) : Returns serialize t := by
  intro w id hok halive hid
  obtain ⟨⟨name, val⟩, ho, hcls⟩ := hid
  have hdepth : val.depth = t.depth := (SymVal.depth_cls (hcls.trans t.newSym_cls.symm)).trans t.newSym_depth
  have hget : getSym id w = .ok (⟨name, val⟩, w) := getSym_ok_iff.mpr ⟨ho, rfl⟩
  have hret : ∀ {n : Nat}, n = t.depth → ∃ a w', serializeDepth n id w = .ok (a, w') := fun hn =>
    serializeDepth_returns (Nat.le_of_eq hn.symm) hok halive ⟨_, ho, hcls⟩
  rw [serialize, bind_of_ok hget]
  cases val <;> exact hret hdepth

/-! ## Runs -/

section

variable {env : Env} {inputs : List Symbol} {ops : List ArrOp} {w : World}

/-- Below an input is what its type says. -/
theorem World.Whole.has_symAt (hw : w.Whole inputs) {path : List (BitVec 32)} : ∀ {id sub : SymId} {t : DeclTy},
    w.Has t id → symAt w.syms id path = some sub → ∃ d, t.elems? path.length = some d ∧ w.Has d sub := by
  induction path with
  | nil =>
    intro id sub t h hat
    obtain rfl := Option.some.inj hat
    exact ⟨t, rfl, h⟩
  | cons i path ih =>
    intro id sub t h hat
    obtain ⟨c, -, hc, hat⟩ := symAt_cons_iff.mp hat
    obtain ⟨⟨name, val⟩, ho, hmem⟩ := mem_elemsOf_iff.mp (List.mem_of_getElem? hc)
    obtain ⟨o, hoc⟩ := hw.alive id c (mem_elemsOf_iff.mpr ⟨_, ho, hmem⟩)
    obtain ⟨o', ho', hcls⟩ := h
    cases ho.symm.trans ho'
    cases val with
    | array type s elems =>
      obtain ⟨d, hd, hhas⟩ := ih ⟨o, hoc, (hw.ok.typed_elem ho hmem).2 o hoc⟩ hat
      exact ⟨d, (DeclTy.elems?_succ (DeclTy.elem?_of_newSym hcls.symm) _).trans hd, hhas⟩
    | _ => cases hmem

/-- **Arrays stay what they are**, whatever is done with an input and with what
is below it: they have as many elements as their length, of the class of the
dropped type, and indices in range lead to the element there. -/
theorem arrays_keep_shape (hrun : runArrOps ops (World.start env inputs) = .ok ((), w)) {i : Nat} {s : Symbol}
    (hs : inputs[i]? = some s) : ∃ id, w.inputs[i]? = some id ∧ Shaped w.syms s.type id ∧
      ∀ path sub, symAt w.syms id path = some sub → ∃ t, s.type.elems? path.length = some t ∧ Shaped w.syms t sub ∧
        (∃ text w', serialize sub w = .ok (text, w')) ∧
        ∀ idxs, idxs ≠ [] → idxs.length ≤ t.depth → InRange sub idxs w →
          ∃ e w' d, getSymbolByIdxs sub idxs w = .ok (e, w') ∧ symAt w'.syms sub idxs = some e ∧
            (dropTypes t.toTy idxs.length).eq d.toTy = true ∧ Shaped w'.syms d e := by
  have hw := (World.Whole.start env inputs).run hrun
  obtain ⟨hi, rfl⟩ := List.getElem?_eq_some_iff.mp hs
  have hi' : i < w.inputs.length := hw.typed.length_eq ▸ hi
  have hhas : w.Has inputs[i].type w.inputs[i] := hw.typed.get hi hi'
  refine ⟨w.inputs[i], List.getElem?_eq_getElem hi', hw.ok.shaped hw.alive hhas, fun path sub hat => ?_⟩
  obtain ⟨t, ht, hsub⟩ := hw.has_symAt hhas hat
  refine ⟨t, ht, hw.ok.shaped hw.alive hsub, serialize_returns t hw.ok hw.alive hsub, fun idxs hne hlen hin => ?_⟩
  obtain ⟨e, w', d, hrun', hsteps, hat', hd, hhas'⟩ := getSymbolByIdxs_returns hw.ok hw.alive hsub hne hlen hin
  have hdrop : (dropTypes t.toTy idxs.length).eq d.toTy = true := by
    obtain ⟨d', hd', heq⟩ | ⟨hnone, -⟩ := dropTypes_toTy (n := idxs.length) (Ty.eq_refl t.toTy)
    · rw [Option.some.inj (hd.symm.trans hd')]
      exact heq
    · cases hnone.symm.trans hd
  exact ⟨e, w', d, hrun', hat', hdrop, (hsteps.ok hw.ok).shaped (hsteps.alive hw.ok hw.alive) hhas'⟩

end

namespace Sample

def words : Symbol := ⟨.input 0, ⟨1, 0⟩, ⟨.string, 1⟩, "words"⟩

/-- Two words are made, and one that has been drawn is given another length. -/
def onWords : List ArrOp :=
  [.fillVal 0 (.int 2), .getSymbolByIdxs 0 [1, 2], .getSize 2, .fillVal 2 (.int 1), .serialize 0, .arrRandGen 0]

end Sample

theorem arrays_keep_shape_onWords : ∃ w, runArrOps Sample.onWords (World.start (Sample.draws 3) [Sample.words]) =
    .ok ((), w) ∧
    w.inputs[0]? = some 0 ∧ (elemsOf w.syms 0).length = 2 ∧ Shaped w.syms Sample.words.type 0 := by
  have hrun : ((runArrOps Sample.onWords (World.start (Sample.draws 3) [Sample.words])).map fun r =>
      (r.2.inputs[0]?, (elemsOf r.2.syms 0).length)) = .ok (some 0, 2) := by decide +kernel
  obtain ⟨⟨_, w⟩, hw, hfacts⟩ := Except.map_ok_iff.mp hrun
  obtain ⟨hinput, hlen⟩ := Prod.mk.inj hfacts
  have hwords : [Sample.words][0]? = some Sample.words := rfl
  obtain ⟨id, hid, hshaped, -⟩ := arrays_keep_shape hw hwords
  obtain rfl := Option.some.inj (hinput.symm.trans hid)
  exact ⟨w, hw, hinput, hlen, hshaped⟩

end DGen
