/-
Inputs are write-once: between two resets, what is determined of an input, a
scalar or a length at any depth, stays as it is.

The solver's writes are the ones to look at. They go to what was recorded,
which was undetermined when it was called. A program's stores reach no
symbol: no pointer it can have points to one.
-/
import DGen.Content
import DGen.Fill

namespace DGen

open Memory StateT

/-! ## The solver's writes -/

/-- A symbol the fill loop may write to: not determined in the state before the call. -/
def World.Open (w : World) (sym : SymId) : Prop := ∀ o, w.syms sym = some o → o.val.determined = false

theorem fillSym_later {w₀ w w' : World} {sym : SymId} {z : ZVal} (h : fillSym sym z w = .ok ((), w')) (hok₀ : w₀.Ok)
    (hl : Later w₀ w) (hopen : w₀.Open sym) : Later w₀ w' := by
  obtain ⟨o, v, ho, hscalar, hcls, -, rfl⟩ | ⟨name, type, s, elems, size, ho, -, rfl⟩ := fillSym_ok h
  · exact hl.setSym ho hopen hcls (SymVal.elems_of_scalar ((SymVal.isArray_cls hcls).trans hscalar))
  · exact hl.rebuild hok₀ ho hopen size

theorem fillLoop_later {m : Model} {exprs : List ZExpr} {w₀ : World} (hok₀ : w₀.Ok) {items : List (SymId × Nat)} :
    ∀ {w w' : World}, fillLoop m exprs items w = .ok ((), w') → w.Ok → Later w₀ w →
      (∀ item ∈ items, w₀.Open item.1) → w'.Ok ∧ Later w₀ w' := by
  induction items with
  | nil =>
    intro w w' h hok hl _
    obtain ⟨-, rfl⟩ := pure_ok_iff.mp h
    exact ⟨hok, hl⟩
  | cons item items ih =>
    intro w w' h hok hl hopen
    obtain ⟨e, w₁, -, hfill, h⟩ := fillLoop_cons_ok_iff.mp h
    obtain ⟨hitem, hitems⟩ := List.forall_mem_cons.mp hopen
    exact ih h (fillSym_keeps hfill hok).1 (fillSym_later hfill hok₀ hl hitem) hitems

theorem SymVal.determined_of_scalar {v : SymVal} (h : v.isArray = false) : v.determined = v.hasVal := by
  cases v with
  | array => cases h
  | _ => rfl

/-- What is recorded was undetermined before the call. -/
theorem Recorded.open {w₀ w : World} {ms : List Mention} (h : Recorded w₀ ms w) {sym : SymId} {k : Nat}
    (hk : (sym, k) ∈ w.z3.symsToExprId) : w₀.Open sym := by
  obtain ⟨e, -, hrec⟩ := h.entry sym k hk
  intro o₀ ho₀
  cases hrec with
  | @value id path _ _ o hdone hr hplace ho hscalar hval =>
    have hscalar₀ := (SymVal.isArray_cls (h.grown.cls_eq ho₀ ho)).symm.trans hscalar
    rw [SymVal.determined_of_scalar hscalar₀, ← h.grown.hasVal_eq ho₀ ho]
    exact hval
  | length hdone hpre hr harr hval =>
    obtain rfl := Option.some.inj (hr.symm.trans ho₀)
    exact hval

/-- What `start_z3_gen` can do: the symbols of its formulas are recorded, and
filled where the solver has a model. -/
theorem startZ3Gen_cases {check : List ZExpr → CheckResult} {walk : Walk} {cond : Expr Symbol}
    {precond : PrecondNode Symbol} {w w' : World} (h : startZ3Gen check walk cond precond w = .ok ((), w')) :
    ∃ fs w₁, genFormulas cond precond w = .ok (fs, w₁) ∧
      (w₁ = w' ∨ ∃ m, fillLoop m w₁.z3.exprs (walk.order w₁.z3.symsToExprId) w₁ = .ok ((), w')) := by
  obtain ⟨fs, w₁, hgen, h⟩ := bind_ok_iff.mp h
  obtain ⟨_, _, hg, h⟩ := bind_ok_iff.mp h
  obtain ⟨rfl, rfl⟩ := get_ok_iff.mp hg
  refine ⟨fs, w₁, hgen, ?_⟩
  split at h
  · exact .inl (pure_ok_iff.mp h).2
  · cases hcheck : check fs with
    | sat m =>
      simp only [hcheck] at h
      exact .inr ⟨m, h⟩
    | unsat | unknown =>
      simp only [hcheck] at h
      exact .inl (pure_ok_iff.mp h).2

/-- `start_z3_gen`, whatever the solver answers. -/
theorem startZ3Gen_keeps {check : List ZExpr → CheckResult} {walk : Walk} {cond : Expr Symbol}
    {precond : PrecondNode Symbol} {w w' : World} (h : startZ3Gen check walk cond precond w = .ok ((), w')) (hok : w.Ok) :
    w'.Ok ∧ Later w w' := by
  obtain ⟨fs, w₁, hgen, hfill⟩ := startZ3Gen_cases h
  have hrec := genFormulas_recorded hgen hok
  have hl := Later.of_grown hrec.grown hok
  obtain rfl | ⟨m, hfill⟩ := hfill
  · exact ⟨hrec.ok, hl⟩
  · exact fillLoop_later hok hfill hrec.ok hl fun item hi => hrec.open ((walk.perm _).mem_iff.mp hi)

/-! ## The program's code -/

section

variable {w w' : World}

theorem World.Steps.keeps (h : w.Steps w') (hok : w.Ok) : w'.Ok ∧ Later w w' := ⟨h.ok hok, h.later hok⟩

/-- A store goes to the program's memory. -/
theorem LStore.exec_steps {st : LStore} (h : st.exec w = .ok ((), w')) (hok : w.Ok) : w.Steps w' := by
  obtain ⟨a, w₁, ha, h⟩ := bind_ok_iff.mp h
  obtain ⟨hs₁, haddr⟩ := st.addr.eval_steps ha hok
  obtain ⟨p, _, hp, h⟩ := bind_ok_iff.mp h
  obtain ⟨rfl, rfl⟩ := asPtr_ok_iff.mp hp
  obtain ⟨v, w₂, hv, h⟩ := bind_ok_iff.mp h
  obtain ⟨hs₂, hval⟩ := st.val.eval_steps hv (hs₁.ok hok)
  have hp₂ := hs₂.dataPtr (haddr p rfl)
  obtain ⟨hglobal, m, hm, rfl⟩ := (storeMem_ok_iff hp₂.1).mp h
  exact (hs₁.trans hs₂).tail (.store hp₂ hglobal hval hm)

/-- A cell is a new block, and a change of the frame. -/
theorem execAlloca_steps {s : Symbol} {allocated : LTy} (h : execAlloca s allocated w = .ok ((), w')) (hok : w.Ok) :
    w'.Ok ∧ ∃ w₁ frame, w.Steps w₁ ∧ w' = { w₁ with frame } := by
  obtain ⟨p, w₁, hp, h⟩ := bind_ok_iff.mp h
  obtain ⟨hs, hdata⟩ := newBlock_steps (by simp) hp hok
  obtain rfl := modify_ok_iff.mp h
  have hok₁ := hs.ok hok
  refine ⟨⟨hok₁.tree, hok₁.mem, fun r q hq => ?_, hok₁.globals⟩, w₁, _, hs, rfl⟩
  have hq : Function.update w₁.frame s.ref (some p) r = some q := hq
  by_cases hr : r = s.ref
  · subst hr
    rw [Function.update_self] at hq
    exact Option.some.inj hq ▸ hdata
  · rw [Function.update_of_ne hr] at hq
    exact hok₁.frame r q hq

/-- A callback evaluates its operands, and changes the context. -/
theorem Callback.exec_steps {c : Callback} (h : c.exec w = .ok ((), w')) (hok : w.Ok) :
    w'.Ok ∧ ∃ w₁ ctx, w.Steps w₁ ∧ w' = { w₁ with ctx } := by
  refine ⟨(c.exec_keeps h hok).1, ?_⟩
  cases c with
  | updIdentAddr s addr | updArrLookupAddr node addr =>
    obtain ⟨v, w₁, hv, h⟩ := bind_ok_iff.mp h
    obtain ⟨p, _, hp, h⟩ := bind_ok_iff.mp h
    obtain ⟨-, rfl⟩ := asPtr_ok_iff.mp hp
    obtain rfl := modify_ok_iff.mp h
    exact ⟨w₁, _, (addr.eval_steps hv hok).1, rfl⟩
  | updArrIdxs node idxs =>
    obtain ⟨is, w₁, hv, h⟩ := bind_ok_iff.mp h
    obtain rfl := modify_ok_iff.mp h
    exact ⟨w₁, _, (LVal.evalIdxs_generates idxs hv hok).1, rfl⟩

end

/-- `get_property`. -/
def getProperty (s : Symbol) (data : Ptr) : M (BitVec 32) := do
  if s.isInput then getSize (← inputId s.ref) else return (← getAlloc data).size

theorem getProperty_generates {s : Symbol} {data : Ptr} : Generates (getProperty s data) := by
  unfold getProperty
  split
  · exact inputId_generates.bind fun _ => getSize_generates
  · exact getAlloc_generates.map fun _ _ _ => trivial

/-! ## Runs -/

/-- What happens between two resets: the operations of generation, on any
symbols, and the code of a program with its cells and stores. -/
inductive Op
  | numRandGen (sym : SymId)
  | charRandGen (sym : SymId)
  | boolRandGen (sym : SymId)
  | getSize (arr : SymId)
  | getValArr (arr : SymId) (idxs : List (BitVec 32))
  | arrRandGen (arr : SymId)
  | getProperty (s : Symbol) (data : Ptr)
  | startZ3Gen (check : List ZExpr → CheckResult) (walk : Walk) (cond : Expr Symbol) (precond : PrecondNode Symbol)
  | serialize (sym : SymId)
  | eval (v : LVal)
  | store (st : LStore)
  | alloca (s : Symbol) (allocated : LTy)
  | callback (c : Callback)

def Op.exec : Op → M Unit
  | numRandGen sym => do let _ ← DGen.numRandGen sym
  | charRandGen sym => do let _ ← DGen.charRandGen sym
  | boolRandGen sym => do let _ ← DGen.boolRandGen sym
  | getSize arr => do let _ ← DGen.getSize arr
  | getValArr arr idxs => do let _ ← DGen.getValArr arr idxs
  | arrRandGen arr => do let _ ← DGen.arrRandGen arr
  | getProperty s data => do let _ ← DGen.getProperty s data
  | startZ3Gen check walk cond precond => DGen.startZ3Gen check walk cond precond
  | serialize sym => do let _ ← DGen.serialize sym
  | eval v => do let _ ← v.eval
  | store st => st.exec
  | alloca s allocated => execAlloca s allocated
  | callback c => c.exec

def runOps : List Op → M Unit
  | [] => return ()
  | op :: ops => do
    op.exec
    runOps ops

section

variable {w w' : World}

/-- What an operation can do: a call of the solver, or steps and a change of
the frame, or, in a callback, of the context. -/
theorem Op.exec_cases {op : Op} (h : op.exec w = .ok ((), w')) (hok : w.Ok) :
    (w'.Ok ∧ ∃ w₁ frame ctx, w.Steps w₁ ∧ w' = { w₁ with frame, ctx } ∧ (ctx = w₁.ctx ∨ ∃ c, op = .callback c)) ∨
      ∃ check walk cond precond, DGen.startZ3Gen check walk cond precond w = .ok ((), w') := by
  have hgen {α : Type} {x : M α} {post : World → α → Prop} (hx : Stepwise x post)
      (h : (do let _ ← x) w = .ok ((), w')) :
      w'.Ok ∧ ∃ w₁ frame ctx, w.Steps w₁ ∧ w' = { w₁ with frame, ctx } ∧ (ctx = w₁.ctx ∨ ∃ c, op = .callback c) := by
    obtain ⟨_, _, hrun, hpure⟩ := bind_ok_iff.mp h
    obtain ⟨-, rfl⟩ := pure_ok_iff.mp hpure
    have hs := (hx hrun hok).1
    exact ⟨hs.ok hok, _, _, _, hs, rfl, .inl rfl⟩
  cases op with
  | numRandGen sym => exact .inl (hgen numRandGen_generates h)
  | charRandGen sym => exact .inl (hgen charRandGen_generates h)
  | boolRandGen sym => exact .inl (hgen boolRandGen_generates h)
  | getSize arr => exact .inl (hgen getSize_generates h)
  | getValArr arr idxs => exact .inl (hgen getValArr_generates h)
  | arrRandGen arr => exact .inl (hgen arrRandGen_generates h)
  | getProperty s data => exact .inl (hgen getProperty_generates h)
  | startZ3Gen check walk cond precond => exact .inr ⟨check, walk, cond, precond, h⟩
  | serialize sym => exact .inl (hgen serialize_generates h)
  | eval v => exact .inl (hgen v.eval_steps h)
  | store st =>
    have hs := st.exec_steps h hok
    exact .inl ⟨hs.ok hok, _, _, _, hs, rfl, .inl rfl⟩
  | alloca s allocated =>
    obtain ⟨hok', w₁, frame, hs, rfl⟩ := execAlloca_steps h hok
    exact .inl ⟨hok', w₁, frame, _, hs, rfl, .inl rfl⟩
  | callback c =>
    obtain ⟨hok', w₁, ctx, hs, rfl⟩ := c.exec_steps h hok
    exact .inl ⟨hok', w₁, _, ctx, hs, rfl, .inr ⟨c, rfl⟩⟩

theorem Op.exec_keeps {op : Op} (h : op.exec w = .ok ((), w')) (hok : w.Ok) : w'.Ok ∧ Later w w' := by
  obtain ⟨hok', w₁, frame, ctx, hs, rfl, -⟩ | ⟨_, _, _, _, hz3⟩ := op.exec_cases h hok
  · exact ⟨hok', (hs.later hok).trans (.of_syms (hs.ok hok) rfl rfl (Nat.le_refl _) rfl)⟩
  · exact startZ3Gen_keeps hz3 hok

theorem runOps_keeps {ops : List Op} : ∀ {w w' : World}, runOps ops w = .ok ((), w') → w.Ok → w'.Ok ∧ Later w w' := by
  induction ops with
  | nil =>
    intro w w' h hok
    obtain ⟨-, rfl⟩ := pure_ok_iff.mp h
    exact ⟨hok, .refl hok⟩
  | cons op ops ih =>
    intro w w' h hok
    obtain ⟨_, w₁, h₁, h⟩ := bind_ok_iff.mp h
    obtain ⟨hok₁, hl₁⟩ := op.exec_keeps h₁ hok
    obtain ⟨hok', hl⟩ := ih h hok₁
    exact ⟨hok', hl₁.trans hl⟩

end

/-! ## Readings -/

/-- What there is to know of an input: its scalars and lengths. -/
inductive Reading
  | number (num : BitVec 32)
  | char (ch : BitVec 8)
  | bool (val : Bool)
  | length (size : BitVec 32)
  deriving DecidableEq, Repr

def SymVal.reading? : SymVal → Option Reading
  | .number num => num.map .number
  | .char ch => ch.map .char
  | .bool val => val.map .bool
  | .array _ size _ => size.map .length

/-- What is determined at some indices of an input. -/
def World.reading? (w : World) (id : SymId) (path : List (BitVec 32)) : Option Reading :=
  (symAt w.syms id path).bind fun e => (w.syms e).bind (·.val.reading?)

theorem World.reading?_eq_some_iff {w : World} {id : SymId} {path : List (BitVec 32)} {r : Reading} :
    w.reading? id path = some r ↔
      ∃ e o, symAt w.syms id path = some e ∧ w.syms e = some o ∧ o.val.reading? = some r := by
  simp only [World.reading?, Option.bind_eq_some_iff]
  constructor
  · rintro ⟨e, he, o, ho, hr⟩
    exact ⟨e, o, he, ho, hr⟩
  · rintro ⟨e, o, he, ho, hr⟩
    exact ⟨e, he, o, ho, hr⟩

theorem SymVal.determined_of_reading {v : SymVal} {r : Reading} (h : v.reading? = some r) : v.determined = true := by
  cases v <;> simp only [reading?, Option.map_eq_some_iff] at h <;> obtain ⟨_, rfl, -⟩ := h <;> rfl

section

variable {w w' : World}

/-- What has elements is determined, and keeps them. -/
theorem Later.symAt (h : Later w w') (hok : w.Ok) {path : List (BitVec 32)} {id e : SymId}
    (he : symAt w.syms id path = some e) : DGen.symAt w'.syms id path = some e := by
  refine symAt_mono (fun p n c hc => ?_) he
  obtain ⟨o, ho, hmem⟩ := mem_elemsOf_iff.mp (List.mem_of_getElem? hc)
  cases hdet : o.val.determined with
  | true =>
    obtain ⟨name, ho'⟩ := h.val_eq ho hdet
    rw [elemsOf_of_some ho] at hc
    rwa [elemsOf_of_some ho']
  | false =>
    rw [(SymObj.blank_of_sized hdet (hok.tree.sized p o ho)).elems] at hmem
    exact absurd hmem List.not_mem_nil

theorem Later.reading (h : Later w w') (hok : w.Ok) {id : SymId} {path : List (BitVec 32)} {r : Reading}
    (hr : w.reading? id path = some r) : w'.reading? id path = some r := by
  obtain ⟨e, o, he, ho, hread⟩ := World.reading?_eq_some_iff.mp hr
  obtain ⟨name, ho'⟩ := h.val_eq ho (SymVal.determined_of_reading hread)
  exact World.reading?_eq_some_iff.mpr ⟨e, _, h.symAt hok he, ho', hread⟩

end

/-- What the callback for a symbol gives the program. -/
inductive Reads (e : SymId) : Reading → World → World → Prop
  | number {w w' : World} {num : BitVec 32} (h : numRandGen e w = .ok (num, w')) : Reads e (.number num) w w'
  | char {w w' : World} {ch : BitVec 8} (h : charRandGen e w = .ok (ch, w')) : Reads e (.char ch) w w'
  | bool {w w' : World} {b : BitVec 8} (h : boolRandGen e w = .ok (b, w')) : Reads e (.bool (b != 0)) w w'
  | length {w w' : World} {size : BitVec 32} (h : getSize e w = .ok (size, w')) : Reads e (.length size) w w'

/-- What was read is determined. -/
theorem Reads.reading {w₀ w : World} {e : SymId} {r : Reading} (h : Reads e r w₀ w) {id : SymId}
    {path : List (BitVec 32)} (he : symAt w.syms id path = some e) : w.reading? id path = some r := by
  rw [World.reading?_eq_some_iff]
  cases h with
  | number h =>
    obtain ⟨name, ho⟩ := numRandGen_holds h
    exact ⟨e, _, he, ho, rfl⟩
  | char h =>
    obtain ⟨name, ho⟩ := charRandGen_holds h
    exact ⟨e, _, he, ho, rfl⟩
  | bool h =>
    obtain ⟨val, name, rfl, ho⟩ := boolRandGen_holds h
    exact ⟨e, _, he, ho, by rw [ofNat_toNat_ne_zero]; rfl⟩
  | length h =>
    obtain ⟨name, type, elems, ho⟩ := getSize_holds h
    exact ⟨e, _, he, ho, rfl⟩

/-! ## Contents, read -/

def elemAt? {α : Type} (cs : List α) (i : BitVec 32) : Option α := if i.toInt < 0 then none else cs[i.toNat]?

def ScalarType.reading? : (s : ScalarType) → s.Value → List (BitVec 32) → Option Reading
  | .int, num, [] => some (.number num)
  | .string, chs, [] => some (.length (BitVec.ofNat 32 chs.length))
  | .string, chs, [i] => (elemAt? chs i).map .char
  | .char, ch, [] => some (.char ch)
  | .bool, val, [] => some (.bool val)
  | _, _, _ => none

/-- What is at some indices of a content. -/
def Content.reading? (s : ScalarType) : (n : Nat) → Content s n → List (BitVec 32) → Option Reading
  | 0, v, path => s.reading? v path
  | _ + 1, cs, [] => some (.length (BitVec.ofNat 32 (List.length cs)))
  | n + 1, cs, i :: path => (elemAt? cs i).bind fun c => Content.reading? s n c path

section

variable {w : World}

theorem World.reading?_nil {id : SymId} {o : SymObj} (ho : w.syms id = some o) : w.reading? id [] = o.val.reading? := by
  simp [reading?, symAt, ho]

/-- At an index: what the element has at the other indices. -/
theorem World.reading?_cons {id : SymId} {o : SymObj} (ho : w.syms id = some o) (i : BitVec 32)
    (path : List (BitVec 32)) :
    w.reading? id (i :: path) = (elemAt? o.val.elems i).bind fun e => w.reading? e path := by
  unfold reading? elemAt?
  rw [symAt, elemsOf_of_some ho]
  split
  · rfl
  · rw [Option.bind_assoc]

theorem elemAt?_bind_congr {α β γ : Type} {holds : α → β → Prop} {cs : List α} {es : List β}
    (h : List.Forall₂ holds cs es) {f : α → Option γ} {g : β → Option γ} (hfg : ∀ c e, holds c e → f c = g e)
    (i : BitVec 32) : (elemAt? es i).bind g = (elemAt? cs i).bind f := by
  have hnat : ∀ n : Nat, es[n]?.bind g = cs[n]?.bind f := by
    induction h with
    | nil => exact fun _ => rfl
    | cons hc _ ih =>
      intro n
      cases n with
      | zero => simp [hfg _ _ hc]
      | succ n => simpa using ih n
  unfold elemAt?
  split
  · rfl
  · exact hnat i.toNat

theorem HoldsArray.length {α : Type} {type : ArrType} {holds : α → SymId → Prop} {cs : List α} {id : SymId}
    {name : String} {size : BitVec 32} {elems : List SymId} (hok : w.Ok)
    (ho : w.syms id = some ⟨name, .array type (some size) elems⟩) (hall : List.Forall₂ holds cs elems) :
    BitVec.ofNat 32 cs.length = size := by
  have hsized : (elems.length : Int) = size.toInt := hok.tree.sized _ _ ho
  have hnat := toNat_of_nonneg (n := size) (by omega)
  rw [hall.length_eq]
  apply BitVec.eq_of_toNat_eq
  rw [BitVec.toNat_ofNat]
  have := size.isLt
  omega

theorem HoldsArray.reading {α : Type} {type : ArrType} {holds : α → SymId → Prop} {cs : List α} {id : SymId}
    (hok : w.Ok) (h : HoldsArray w.syms type holds cs id) {read : α → List (BitVec 32) → Option Reading}
    (hread : ∀ c e, holds c e → ∀ path, w.reading? e path = read c path) (path : List (BitVec 32)) :
    w.reading? id path = match path with
      | [] => some (.length (BitVec.ofNat 32 cs.length))
      | i :: path => (elemAt? cs i).bind fun c => read c path := by
  obtain ⟨name, size, elems, ho, hall⟩ := h
  cases path with
  | nil => rw [World.reading?_nil ho, HoldsArray.length hok ho hall]; rfl
  | cons i path =>
    rw [World.reading?_cons ho]
    exact elemAt?_bind_congr hall (fun c e hc => (hread c e hc path).symm) i

theorem reading?_of_scalar {id : SymId} {o : SymObj} (ho : w.syms id = some o) (hscalar : o.val.isArray = false)
    (path : List (BitVec 32)) : w.reading? id path = if path = [] then o.val.reading? else none := by
  cases path with
  | nil => rw [World.reading?_nil ho, if_pos rfl]
  | cons i path => rw [World.reading?_cons ho, SymVal.elems_of_scalar hscalar]; simp [elemAt?]

/-- What is determined of an input that holds a content is what is in the content. -/
theorem Holds.reading (hok : w.Ok) {s : ScalarType} : ∀ {n : Nat} {c : Content s n} {id : SymId},
    Holds w.syms s n c id → ∀ path, w.reading? id path = Content.reading? s n c path
  | 0, c, id, h, path => by
    cases s with
    | int | bool =>
      obtain ⟨name, ho⟩ := h
      rw [reading?_of_scalar ho rfl]
      cases path <;> rfl
    | char =>
      obtain ⟨name, ho⟩ := h
      rw [reading?_of_scalar ho rfl]
      cases path <;> rfl
    | string =>
      have hchar : ∀ ch e, HoldsChar w.syms ch e → ∀ path, w.reading? e path =
          if path = [] then some (.char ch) else none := by
        intro ch e hc path
        obtain ⟨name, ho⟩ := hc
        rw [reading?_of_scalar ho rfl]
        rfl
      rw [HoldsArray.reading hok h hchar]
      match path with
      | [] => rfl
      | [i] => exact (Option.map_eq_bind ..).symm
      | i :: j :: path => simp [Content.reading?, ScalarType.reading?]
  | n + 1, cs, id, h, path => by
    rw [HoldsArray.reading hok h fun c e hc => Holds.reading hok hc]
    cases path <;> rfl

/-- A symbol has the class of some type. -/
theorem exists_typed {id : SymId} {o : SymObj} (hok : w.Ok) (ho : w.syms id = some o) :
    ∃ s n, w.Typed ⟨s, n⟩ id := by
  obtain ⟨s, n, hcls⟩ : ∃ s n, o.val.cls = (⟨s, n⟩ : DeclTy).newSym := by
    obtain ⟨name, val⟩ := o
    match val with
    | .number _ => exact ⟨.int, 0, rfl⟩
    | .char _ => exact ⟨.char, 0, rfl⟩
    | .bool _ => exact ⟨.bool, 0, rfl⟩
    | .array .string _ _ => exact ⟨.string, 0, rfl⟩
    | .array (.arr ⟨s, n⟩) _ _ => exact ⟨s, n + 1, (DeclTy.newSym_succ s n).symm⟩
  refine ⟨s, n, hok.tree.lt_next ho, fun o' ho' => ?_⟩
  rw [← hcls, Option.some.inj (ho'.symm.trans ho)]

end

/-- **Inputs are write-once.** Whatever is done between two resets, what is
determined of an input stays as it is. So the text of an input, whenever it
is made, is that of a content with all that was determined in it, and with
what the program was given last before. -/
theorem inputs_write_once {w w' : World} {ops : List Op} (hok : w.Ok) (h : runOps ops w = .ok ((), w')) :
    (∀ id ∈ w.inputs, ∀ path r, w.reading? id path = some r → w'.reading? id path = some r) ∧
      ∀ id ∈ w.inputs, ∀ text w'', serialize id w' = .ok (text, w'') →
        ∃ (s : ScalarType) (n : Nat) (c : Content s n), text = serializedText s n c ∧
          (∀ path r, w.reading? id path = some r → Content.reading? s n c path = some r) ∧
          ∀ w₀ e r path, Reads e r w₀ w → symAt w.syms id path = some e → Content.reading? s n c path = some r := by
  obtain ⟨hok', hl⟩ := runOps_keeps h hok
  refine ⟨fun id _ path r hr => hl.reading hok hr, fun id _ text w'' hs => ?_⟩
  obtain ⟨o, _, hget, -⟩ := bind_ok_iff.mp hs
  obtain ⟨ho, rfl⟩ := getSym_ok_iff.mp hget
  obtain ⟨s, n, htyped⟩ := exists_typed hok' ho
  obtain ⟨hok'', hl'⟩ := World.Steps.keeps (serialize_generates hs hok').1 hok'
  obtain ⟨c, hc, rfl⟩ := serialize_holds hs hok' htyped
  have hreading : ∀ path r, w.reading? id path = some r → Content.reading? s n c path = some r := by
    intro path r hr
    rw [← hc.reading hok'' path]
    exact (hl.trans hl').reading hok hr
  exact ⟨s, n, c, rfl, hreading, fun w₀ e r path hread he => hreading path r (hread.reading he)⟩

namespace Sample

/-- The input `int[] a`. -/
def inputA : Symbol := ⟨.input 0, ⟨0, 0⟩, ⟨.int, 1⟩, "a"⟩

end Sample

theorem inputs_write_once_inputA : ∃ w w', runOps [.getSize 0] (World.start (Sample.draws 3) [Sample.inputA]) =
    .ok ((), w) ∧
    w.reading? 0 [] = some (.length 3) ∧ runOps [.getValArr 0 [0], .numRandGen 2] w = .ok ((), w') ∧
      w'.reading? 0 [] = some (.length 3) := by
  obtain ⟨w, hw, hread, w', hw'⟩ : ∃ w, runOps [.getSize 0] (World.start (Sample.draws 3) [Sample.inputA]) = .ok ((), w) ∧
      w.reading? 0 [] = some (.length 3) ∧ ∃ w', runOps [.getValArr 0 [0], .numRandGen 2] w = .ok ((), w') :=
    ⟨_, rfl, rfl, _, rfl⟩
  obtain ⟨hok, hl⟩ := runOps_keeps hw (World.start_ok _ _)
  have hin : 0 ∈ w.inputs := hl.inputs ▸ List.mem_singleton.mpr rfl
  exact ⟨w, w', hw, hread, hw', (inputs_write_once hok hw').1 0 hin [] _ hread⟩

end DGen
