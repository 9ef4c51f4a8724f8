/-
What the logical operators evaluate (`code_gen(BinOpNode *)`): both operands,
whatever the first has decided already.

So the code does what short-circuit evaluation of the source does exactly if
in the operands that this leaves out there is nothing to generate, and nothing
to index (`lazy_iff_spared`).
-/
import DGen.Copies
import DGen.WriteOnce
import DGen.Evaluation
import DGen.Nodes

namespace DGen

open Memory StateT

/-- All of an input is determined. -/
def World.Settled (w : World) (id : SymId) : Prop := ∃ (s : ScalarType) (n : Nat) (c : Content s n),
    Holds w.syms s n c id

/-! ## What is determined already -/

section

variable {w w' : World} {sym : SymId}

theorem scalarRandGen_settled {α : Type} {cls : SymVal → Option (Option α)} {put : α → SymVal} {draw : Nat → α}
    {o : SymObj} {v : α} (ho : w.syms sym = some o) (hcls : (cls o.val).bind id ≠ none)
    (h : scalarRandGen cls put draw sym w = .ok (v, w')) : w' = w := by
  obtain ⟨o', ho', ⟨-, rfl⟩ | ⟨hnone, -, -⟩⟩ := scalarRandGen_ok_iff.mp h
  · rfl
  · obtain rfl := Option.some.inj (ho.symm.trans ho')
    simp [hnone] at hcls

theorem getSize_settled {name : String} {type : ArrType} {size n : BitVec 32} {elems : List SymId}
    (ho : w.syms sym = some ⟨name, .array type (some size) elems⟩) (h : getSize sym w = .ok (n, w')) :
      w = w' ∧ n = size := by
  obtain ⟨_, _, s, _, ho', ⟨rfl, rfl⟩ | ⟨rfl, -, -⟩⟩ := getSize_ok_iff.mp h
  · cases ho.symm.trans ho'
    exact ⟨rfl, rfl⟩
  · cases ho.symm.trans ho'

/-- A callback leaves the symbols when all it reads is determined. -/
def LeavesSettled {α : Type} (copy : SymId → M Val) (holds : (Nat → Option SymObj) → α → SymId → Prop) : Prop :=
  ∀ {sym : SymId} {c : α} {w w' : World} {v : Val}, copy sym w = .ok (v, w') → w.Ok → holds w.syms c sym →
    w'.syms = w.syms

variable {α : Type} {holds : (Nat → Option SymObj) → α → SymId → Prop}

theorem fillElems_settled {copyArr : SymId → M Ptr} (hcopy : ∀ id, Stepwise (copyArr id) World.DataPtr)
    (hel : LeavesSettled (fillVal copyArr) holds) {size : Nat} : ∀ {elems : List SymId} {cs : List α} {data : Ptr}
      {w w' : World}, fillElems copyArr size data elems w = .ok ((), w') → w.Ok → w.DataPtr data →
        List.Forall₂ (holds w.syms) cs elems → w'.syms = w.syms
  | [], _, _, _, _, h, _, _, _ => by
    obtain ⟨-, rfl⟩ := pure_ok_iff.mp h
    rfl
  | sym :: elems, c :: cs, data, w, w', h, hok, hdata, .cons hc hcs => by
    obtain ⟨_, w₂, h₁, h⟩ := bind_ok_iff.mp h
    obtain ⟨v, w₁, hv, hst⟩ := bind_ok_iff.mp h₁
    obtain ⟨hs, hval⟩ := fillVal_generates hcopy hv hok
    have hdata₁ := hs.dataPtr hdata
    obtain ⟨hglobal, m, hm, rfl⟩ := (storeMem_ok_iff hdata₁.1).mp hst
    have hs₂ : w.Steps { w₁ with mem := m } := hs.tail (.store hdata₁ hglobal hval hm)
    have hsyms : w₁.syms = w.syms := hel hv hok hc
    exact (fillElems_settled hcopy hel h (hs₂.ok hok) (hs₂.dataPtr hdata) (by exact hsyms ▸ hcs)).trans hsyms

theorem arrRandGenDepth_settled {n : Nat} {type : ArrType} (hel : LeavesSettled (fillVal (arrRandGenDepth n)) holds)
    {arr : SymId} {cs : List α} {p : Ptr} (h : arrRandGenDepth (n + 1) arr w = .ok (p, w')) (hok : w.Ok)
    (hholds : HoldsArray w.syms type (holds w.syms) cs arr) : w'.syms = w.syms := by
  obtain ⟨name, size, elems, ho, hcs⟩ := hholds
  obtain ⟨k, w₁, name', type', s, elems', w₂, hsize, ho', -, ha, rfl, hf⟩ := arrRandGenDepth_succ_ok h
  obtain ⟨rfl, rfl⟩ := getSize_settled ho hsize
  cases ho.symm.trans ho'
  obtain ⟨hs, hdata, hsyms, -⟩ := block_entered (by simp) ha hok
  have hfill := fillElems_settled (fun _ => arrRandGenDepth_generates) hel hf (hs.ok hok) hdata (hsyms ▸ hcs)
  exact hfill.trans hsyms

theorem fillVal_settled_char {copyArr : SymId → M Ptr} : LeavesSettled (fillVal copyArr) HoldsChar := by
  intro sym ch w w' v h _ hc
  obtain ⟨name, ho⟩ := hc
  obtain ⟨_, _, hget, h⟩ := bind_ok_iff.mp h
  obtain ⟨ho', rfl⟩ := getSym_ok_iff.mp hget
  obtain rfl := Option.some.inj (ho.symm.trans ho')
  obtain ⟨_, _, hch, h⟩ := bind_ok_iff.mp h
  obtain ⟨rfl, rfl⟩ := pure_ok_iff.mp h
  rw [scalarRandGen_settled ho (by simp [SymVal.char?]) hch]

/-- `fill_dest` of an input that is determined changes no symbol. -/
theorem fillVal_depth_settled {s : ScalarType} {m : Nat} : ∀ {n : Nat},
    LeavesSettled (fillVal (arrRandGenDepth m)) fun syms => Holds syms s n := by
  have hby : ∀ {m : Nat}, (∀ k, m = k + 1 → ∀ {n : Nat},
      LeavesSettled (fillVal (arrRandGenDepth k)) fun syms => Holds syms s n) → ∀ {n : Nat},
      LeavesSettled (fillVal (arrRandGenDepth m)) fun syms => Holds syms s n := by
    intro m hel n sym c w w' v h hok hc
    obtain ⟨o, _, hget, h'⟩ := bind_ok_iff.mp h
    obtain ⟨ho, rfl⟩ := getSym_ok_iff.mp hget
    have harr {β : Type} {type : ArrType} {holds : (Nat → Option SymObj) → β → SymId → Prop} {cs : List β}
        (hel : ∀ k, m = k + 1 → LeavesSettled (fillVal (arrRandGenDepth k)) holds)
        (hc : HoldsArray w.syms type (holds w.syms) cs sym) : w'.syms = w.syms := by
      obtain ⟨name, size, elems, ho', -⟩ := id hc
      obtain rfl := Option.some.inj (ho.symm.trans ho')
      obtain ⟨p, _, hp, h'⟩ := bind_ok_iff.mp h'
      obtain ⟨rfl, rfl⟩ := pure_ok_iff.mp h'
      cases m with
      | zero => simp [arrRandGenDepth] at hp
      | succ m => exact arrRandGenDepth_settled (hel m rfl) hp hok hc
    cases n with
    | zero =>
      cases s with
      | int =>
        obtain ⟨name, ho'⟩ := hc
        obtain rfl := Option.some.inj (ho.symm.trans ho')
        obtain ⟨_, _, hnum, h'⟩ := bind_ok_iff.mp h'
        obtain ⟨rfl, rfl⟩ := pure_ok_iff.mp h'
        rw [scalarRandGen_settled ho (by simp [SymVal.number?]) hnum]
      | char => exact fillVal_settled_char h hok hc
      | bool =>
        obtain ⟨name, ho'⟩ := hc
        obtain rfl := Option.some.inj (ho.symm.trans ho')
        obtain ⟨_, _, hb, h'⟩ := bind_ok_iff.mp h'
        obtain ⟨rfl, rfl⟩ := pure_ok_iff.mp h'
        obtain ⟨_, _, hscalar, hpure⟩ := bind_ok_iff.mp hb
        obtain ⟨-, rfl⟩ := pure_ok_iff.mp hpure
        rw [scalarRandGen_settled ho (by simp [SymVal.bool?]) hscalar]
      | string => exact @harr _ .string _ c (fun _ _ => fillVal_settled_char) hc
    | succ n => exact @harr _ (.arr ⟨s, n⟩) (fun syms => Holds syms s n) c (fun k hk => hel k hk) hc
  induction m with
  | zero => exact hby fun k hk => by cases hk
  | succ m ih => exact hby fun k hk => by cases hk; exact ih

theorem fillVal_settled {id : SymId} {v : Val} (h : fillVal arrRandGen id w = .ok (v, w')) (hok : w.Ok)
    (hset : w.Settled id) : w'.syms = w.syms := by
  obtain ⟨s, n, c, hc⟩ := hset
  obtain ⟨m, hm⟩ := arrRandGen_depth id w
  rw [fillVal_congr hm] at h
  exact fillVal_depth_settled h hok hc

/-- What was generated is determined. -/
theorem fillVal_settles {id : SymId} {v : Val} (h : fillVal arrRandGen id w = .ok (v, w')) (hok : w.Ok) :
    w'.Settled id := by
  obtain ⟨o, _, hget, -⟩ := bind_ok_iff.mp h
  obtain ⟨s, n, ht⟩ := exists_typed hok (getSym_ok_iff.mp hget).1
  obtain ⟨-, -, c, hc, -⟩ := fillVal_copies h hok ht
  exact ⟨s, n, c, hc⟩

end

/-! ## What can go wrong -/

/-- Where `x` has no result, its behaviour is undefined. -/
def OnlyUndefined {α : Type} (x : M α) : Prop := ∀ ⦃w e⦄, x w = .error e → e = .undefined

namespace OnlyUndefined

variable {α β : Type} {x : M α} {f : α → M β}

theorem bind (hx : OnlyUndefined x) (hf : ∀ a, OnlyUndefined (f a)) : OnlyUndefined (x >>= f) := by
  intro w e h
  obtain h | ⟨a, w₁, -, h⟩ := bind_error_iff.mp h
  · exact hx h
  · exact hf a h

/-- What always has a result. -/
theorem total (h : ∀ w, ∃ a w', x w = .ok (a, w')) : OnlyUndefined x := by
  intro w e he
  obtain ⟨a, w', ha⟩ := h w
  cases ha.symm.trans he

theorem pure {a : α} : OnlyUndefined (pure a : M α) := total fun w => ⟨a, w, rfl⟩

theorem fault : OnlyUndefined (DGen.fault .undefined : M α) := fun _ _ h => (Except.error.inj h).symm

theorem ofOption {o : Option α} : OnlyUndefined (ofOption .undefined o) := by
  cases o with
  | none => exact fault
  | some a => exact pure

theorem getSym {id : SymId} : OnlyUndefined (getSym id) := by
  intro w e h
  unfold DGen.getSym at h
  split at h <;> cases h
  rfl

theorem inputId {r : SymRef} : OnlyUndefined (inputId r) := by
  cases r with
  | input i =>
    intro w e h
    unfold DGen.inputId at h
    simp only at h
    split at h <;> cases h
    rfl
  | var k => exact fault

theorem scalarRandGen {cls : SymVal → Option (Option α)} {put : α → SymVal} {draw : Nat → α} {sym : SymId} :
    OnlyUndefined (scalarRandGen cls put draw sym) := by
  refine getSym.bind fun o => ?_
  split
  · exact pure
  · exact (total fun w => ⟨_, _, rfl⟩ : OnlyUndefined rand).bind fun _ =>
      (total fun w => ⟨_, _, rfl⟩ : OnlyUndefined (setSym sym _)).bind fun _ => pure
  · exact fault

theorem getSize {arr : SymId} : OnlyUndefined (getSize arr) := by
  intro w e h
  cases ho : w.syms arr with
  | none =>
    have hget : DGen.getSym arr w = .error .undefined := by rw [DGen.getSym, ho]
    cases (bind_error_iff.mpr (.inl hget)).symm.trans h
    rfl
  | some o =>
    obtain ⟨name, val⟩ := o
    -- the length drawn is not negative, so that `reserve` does not throw
    have hsize {size : BitVec 32} {w' : World} (hok : DGen.getSize arr w = .ok (size, w')) : e = .undefined := by
      cases hok.symm.trans h
    cases val with
    | array type s elems =>
      cases s with
      | some size => exact hsize (getSize_ok_iff.mpr ⟨name, type, _, elems, ho, .inl ⟨rfl, rfl⟩⟩)
      | none => exact hsize (getSize_ok_iff.mpr ⟨name, type, _, elems, ho, .inr ⟨rfl, rfl, rfl⟩⟩)
    | _ =>
      rw [DGen.getSize, bind_of_ok (getSym_ok_iff.mpr ⟨ho, rfl⟩)] at h
      exact fault h

theorem newBlock {bytes : List MByte} : OnlyUndefined (newBlock bytes) := total fun _ => ⟨_, _, rfl⟩

theorem setAlloc {p : Ptr} {d : AllocData} : OnlyUndefined (setAlloc p d) := total fun _ => ⟨_, _, rfl⟩

theorem getAlloc {p : Ptr} : OnlyUndefined (getAlloc p) := total fun w => by
  unfold DGen.getAlloc
  split <;> exact ⟨_, _, rfl⟩

theorem loadMem {c : Chunk} {p : Ptr} : OnlyUndefined (loadMem c p) := by
  intro w e h
  unfold DGen.loadMem at h
  split at h <;> cases h
  rfl

theorem storeMem {p : Ptr} {v : Val} : OnlyUndefined (storeMem p v) := by
  intro w e h
  unfold DGen.storeMem at h
  split at h
  · cases h
  · split at h
    · cases h
      rfl
    · split at h <;> cases h
      rfl

theorem asPtr {v : Val} : OnlyUndefined (asPtr v) := by
  cases v <;> first | exact pure | exact fault

theorem asInt32 {v : Val} : OnlyUndefined (asInt32 v) := by
  cases v <;> first | exact pure | exact fault

theorem fillVal {copyArr : SymId → M Ptr} (hcopy : ∀ id, OnlyUndefined (copyArr id)) {sym : SymId} :
    OnlyUndefined (fillVal copyArr sym) := by
  refine getSym.bind fun o => ?_
  split
  · exact scalarRandGen.bind fun _ => pure
  · exact (scalarRandGen.bind fun _ => pure).bind fun _ => pure
  · exact scalarRandGen.bind fun _ => pure
  · exact (hcopy sym).bind fun _ => pure

theorem fillElems {copyArr : SymId → M Ptr} (hcopy : ∀ id, OnlyUndefined (copyArr id)) {size : Nat} :
    ∀ {elems : List SymId} {data : Ptr}, OnlyUndefined (fillElems copyArr size data elems)
  | [], _ => pure
  | _ :: _, _ => ((fillVal hcopy).bind fun _ => storeMem).bind fun _ => fillElems hcopy

theorem arrRandGenDepth : ∀ {n : Nat} {arr : SymId}, OnlyUndefined (arrRandGenDepth n arr)
  | 0, _ => fault
  | n + 1, arr => by
    refine getSize.bind fun size => getSym.bind fun o => ?_
    split
    · dsimp only
      split
      · exact fault
      · exact newBlock.bind fun _ => setAlloc.bind fun _ => (fillElems fun _ => arrRandGenDepth).bind fun _ => pure
    · exact fault

theorem arrRandGen {arr : SymId} : OnlyUndefined (arrRandGen arr) := by
  refine getSym.bind fun o => ?_
  split
  · exact arrRandGenDepth
  · exact fault

theorem randGen {s : Symbol} : OnlyUndefined (randGen s) := inputId.bind fun _ => fillVal fun _ => arrRandGen

end OnlyUndefined

/-! ## What is touched -/

namespace Touch

/-- Made from this state, it indexes an array or determines something of an input. -/
def Acts (w : World) : Touch → Prop
  | whole s => ∃ a w', randGen s w = .ok (a, w') ∧ w'.syms ≠ w.syms
  | length s => ∃ n w', s.inputLen w = .ok (n, w') ∧ w'.syms ≠ w.syms
  | lookup _ _ | element _ => True
  | leftOut _ => False

/-- What it reads is determined, and it indexes nothing. -/
def SettledIn (w : World) : Touch → Prop
  | whole s => ∃ i id, s.ref = .input i ∧ w.inputs[i]? = some id ∧ w.Settled id
  | length s => ∃ i id o, s.ref = .input i ∧ w.inputs[i]? = some id ∧ w.syms id = some o ∧ o.val.determined = true
  | lookup _ _ | element _ => False
  | leftOut _ => True

theorem SettledIn.of_syms {w w' : World} {i : Touch} (h : i.SettledIn w) (hsyms : w'.syms = w.syms)
    (hinputs : w'.inputs = w.inputs) : i.SettledIn w' := by
  cases i with
  | whole s =>
    obtain ⟨j, id, hs, hid, s', n, c, hc⟩ := h
    exact ⟨j, id, hs, hinputs ▸ hid, s', n, c, hsyms ▸ hc⟩
  | length s =>
    obtain ⟨j, id, o, hs, hid, ho, hdet⟩ := h
    exact ⟨j, id, o, hs, hinputs ▸ hid, hsyms ▸ ho, hdet⟩
  | lookup | element => exact h
  | leftOut => trivial

end Touch

/-- Nothing is indexed, and nothing determined. -/
def Inert {α : Type} (x : Watched α) (w : World) : Prop := ∀ i ∈ x.trace w, ¬ i.1.Acts i.2

/-- Only what is determined is read, and nothing indexed. -/
def OnSettled {α : Type} (x : Watched α) (w : World) : Prop := ∀ i ∈ x.trace w, i.1.SettledIn w

/-! ## What short-circuit evaluation leaves out -/

/-- The code of an expression determines only the inputs, and makes only the
lookups, that short-circuit evaluation would; and in an operand that this leaves
out, its code generates and indexes nothing, and raises no "out of bounds". -/
structure Lazy (e : Expr Symbol) (v : LVal) (w : World) : Prop where
  needed : ∀ i ∈ v.run.trace w, i.1.Acts i.2 → i ∈ (e.run true).trace w
  leftOut : ∀ r w₁, (.leftOut r, w₁) ∈ (e.run true).trace w → ∀ u, codeGenExpr r = .ok u →
    Inert u.run w₁ ∧ u.eval w₁ ≠ .error (.thrown "out of bounds")

/-- The operands that short-circuit evaluation leaves out index nothing, and
read inputs only that are determined when it is their turn. -/
def Expr.Spared (e : Expr Symbol) (w : World) : Prop :=
  ∀ r w₁, (.leftOut r, w₁) ∈ (e.run true).trace w → OnSettled (r.run false) w₁

/-! ## Computations on the inputs -/

/-- Inputs are not changed, nor looked up. -/
structure Passive {α : Type} (x : M α) : Prop where
  steps : Generates x
  syms : ∀ ⦃w a w'⦄, x w = .ok (a, w') → w'.syms = w.syms
  bounds : ∀ ⦃w⦄, x w ≠ .error (.thrown "out of bounds")

namespace Passive

variable {α β : Type} {x : M α} {f : α → M β}

theorem bind (hx : Passive x) (hf : ∀ a, Passive (f a)) : Passive (x >>= f) where
  steps := hx.steps.bind fun a => (hf a).steps
  syms := by
    intro w b w' h
    obtain ⟨a, w₁, h₁, h₂⟩ := bind_ok_iff.mp h
    exact ((hf a).syms h₂).trans (hx.syms h₁)
  bounds := by
    intro w h
    obtain h | ⟨a, w₁, -, h⟩ := bind_error_iff.mp h
    · exact hx.bounds h
    · exact (hf a).bounds h

theorem pure {a : α} : Passive (pure a : M α) where
  steps := .pure fun _ => trivial
  syms := fun _ _ _ h => by rw [(pure_ok_iff.mp h).2]
  bounds := fun _ h => by cases OnlyUndefined.pure h

theorem read (h : ∀ {w a w'}, x w = .ok (a, w') → w = w') (he : OnlyUndefined x) : Passive x where
  steps := .read fun hx => ⟨h hx, fun _ => trivial⟩
  syms := fun _ _ _ hx => by rw [h hx]
  bounds := fun _ hx => by cases he hx

theorem ofOption {o : Option α} : Passive (ofOption .undefined o) :=
  read (fun h => (ofOption_ok_iff.mp h).2) OnlyUndefined.ofOption

theorem get : Passive (get : M World) := read (fun h => (get_ok_iff.mp h).2) (.total fun w => ⟨w, w, rfl⟩)

theorem asPtr {v : Val} : Passive (asPtr v) := read (fun h => (asPtr_ok_iff.mp h).2) OnlyUndefined.asPtr

theorem asInt32 {v : Val} : Passive (asInt32 v) := read (fun h => (asInt32_ok_iff.mp h).2) OnlyUndefined.asInt32

theorem loadMem {c : Chunk} {p : Ptr} : Passive (loadMem c p) :=
  read (fun h => (loadMem_ok_iff.mp h).2) OnlyUndefined.loadMem

theorem inputId {r : SymRef} : Passive (inputId r) := read (fun h => (inputId_ok_iff.mp h).2) OnlyUndefined.inputId

theorem gepOffset {elem : LTy} {v : Val} : Passive (gepOffset elem v) := by
  cases v <;> first | exact pure | exact read (fun h => by simp [DGen.gepOffset] at h) OnlyUndefined.fault

theorem getAlloc {p : Ptr} : Passive (getAlloc p) where
  steps := getAlloc_generates
  syms := fun w d w' h => by
    obtain ⟨l, rfl⟩ := getAlloc_ok h
    rfl
  bounds := fun _ h => by cases OnlyUndefined.getAlloc h

theorem newBlock_setAlloc {bytes : List MByte} {d : AllocData} (hfrag : ∀ p i, .frag p i ∉ bytes) : Passive (do
    let p ← newBlock bytes
    setAlloc p d
    return p) where
  steps := (newBlock_setAlloc_steps hfrag).generates
  syms := fun w q w' h => by
    obtain ⟨p, _, hnew, h⟩ := bind_ok_iff.mp h
    obtain ⟨-, rfl⟩ := newBlock_ok_iff.mp hnew
    obtain ⟨_, w₁, hset, h⟩ := bind_ok_iff.mp h
    obtain ⟨-, rfl⟩ := pure_ok_iff.mp h
    obtain ⟨l, rfl⟩ := setAlloc_ok hset
    rfl
  bounds := fun _ h => by
    cases (OnlyUndefined.newBlock.bind fun _ => OnlyUndefined.setAlloc.bind fun _ => OnlyUndefined.pure) h

theorem globalString {n : StringNode} : Passive (globalString n) where
  steps := globalString_steps.generates
  syms := fun w p w' h => by
    obtain ⟨-, hset⟩ := globalString_ok_iff.mp h
    obtain ⟨k, _, hlen, hset⟩ := bind_ok_iff.mp hset
    obtain ⟨-, rfl⟩ := strlen_ok_iff.mp hlen
    obtain ⟨l, rfl⟩ := setAlloc_ok hset
    rfl
  bounds := fun w h => by
    have hlen {p : Ptr} : OnlyUndefined (strlen p) := by
      intro w e h
      unfold strlen at h
      split at h <;> cases h
      rfl
    have hall : OnlyUndefined (DGen.globalString n) := (OnlyUndefined.total fun w => ⟨w, w, rfl⟩ : OnlyUndefined
      (MonadState.get : M World)).bind fun w => OnlyUndefined.ofOption.bind fun p =>
        (hlen.bind fun _ => OnlyUndefined.setAlloc).bind fun _ => OnlyUndefined.pure
    cases hall h

theorem createArr {len : BitVec 32} {n : Nat} : Passive (createArr len n) := by
  unfold DGen.createArr
  split
  · refine ⟨.fault, fun w a w' h => by simp at h, fun w h => ?_⟩
    have htext := congrArg String.toList (Fault.thrown.inj (Except.error.inj h))
    simp at htext
  · exact newBlock_setAlloc (by simp)

theorem cell {s : Symbol} : Passive s.cell := get.bind fun _ => ofOption

theorem readVar {s : Symbol} : Passive s.readVar := cell.bind fun _ => ofOption.bind fun _ => loadMem

theorem eval {op : BinOpType} {a b : Val} : Passive (op.eval a b) := by
  cases op <;> first | exact ofOption | exact get.bind fun _ => ofOption

end Passive

/-! ## Computations with their touches -/

/-- It changes the inputs only where it acts, reads only what is determined
where it does not, and the other way round. -/
structure Calm {α : Type} (x : Watched α) : Prop where
  steps : Generates x.result
  syms : ∀ {w a w'}, Inert x w → w.Ok → x.result w = .ok (a, w') → w'.syms = w.syms
  inert : ∀ {w}, OnSettled x w → w.Ok → Inert x w ∧ x.result w ≠ .error (.thrown "out of bounds")
  onSettled : ∀ {w}, Inert x w → w.Ok → x.result w ≠ .error .undefined → OnSettled x w

namespace Calm

open Traced

variable {α β : Type} {x : Watched α} {f : α → Watched β}

theorem inputs (hx : Calm x) {a : α} {w w' : World} (h : x.result w = .ok (a, w')) (hok : w.Ok) :
    w'.inputs = w.inputs := (hx.steps h hok).1.sameStatic.inputs

theorem bind (hx : Calm x) (hf : ∀ a, Calm (f a)) : Calm (x >>= f) where
  steps := by
    rw [result_bind]
    exact hx.steps.bind fun a => (hf a).steps
  syms := by
    intro w b w' hin hok h
    rw [result_bind] at h
    obtain ⟨a, w₁, h₁, h₂⟩ := bind_ok_iff.mp h
    obtain ⟨hinx, hinf⟩ := forall_trace_bind.mp hin
    exact ((hf a).syms (hinf a w₁ h₁) ((hx.steps h₁ hok).1.ok hok) h₂).trans (hx.syms hinx hok h₁)
  inert := by
    intro w hset hok
    obtain ⟨hsetx, hsetf⟩ := forall_trace_bind.mp hset
    obtain ⟨hin, hbounds⟩ := hx.inert hsetx hok
    have hnext {a w₁} (h₁ : x.result w = .ok (a, w₁)) := (hf a).inert (w := w₁)
      (fun i hi => (hsetf a w₁ h₁ i hi).of_syms (hx.syms hin hok h₁) (hx.inputs h₁ hok))
      ((hx.steps h₁ hok).1.ok hok)
    refine ⟨forall_trace_bind.mpr ⟨hin, fun a w₁ h₁ => (hnext h₁).1⟩, fun h => ?_⟩
    rw [result_bind] at h
    obtain h | ⟨a, w₁, h₁, h⟩ := bind_error_iff.mp h
    exacts [hbounds h, (hnext h₁).2 h]
  onSettled := by
    intro w hin hok hdef
    obtain ⟨hinx, hinf⟩ := forall_trace_bind.mp hin
    rw [result_bind] at hdef
    refine forall_trace_bind.mpr ⟨hx.onSettled hinx hok fun h => hdef (bind_error_iff.mpr (.inl h)),
      fun a w₁ h₁ i hi => ?_⟩
    have hset := (hf a).onSettled (hinf a w₁ h₁) ((hx.steps h₁ hok).1.ok hok)
      fun h => hdef (bind_error_iff.mpr (.inr ⟨a, w₁, h₁, h⟩))
    exact (hset i hi).of_syms (hx.syms hinx hok h₁).symm (hx.inputs h₁ hok).symm

/-- What touches nothing. -/
theorem lift {y : M α} (hy : Passive y) : Calm (liftM y : Watched α) where
  steps := hy.steps
  syms := fun _ _ h => hy.syms h
  inert := fun _ _ => ⟨List.forall_mem_nil _, fun h => hy.bounds h⟩
  onSettled := fun _ _ _ => List.forall_mem_nil _

theorem pure {a : α} : Calm (pure a : Watched α) := lift .pure

/-- One touch, and what is done there. -/
theorem touch {i : Touch} {y : M α} (hsteps : Generates y)
    (hsyms : ∀ {w a w'}, ¬ i.Acts w → y w = .ok (a, w') → w'.syms = w.syms)
    (hinert : ∀ {w}, i.SettledIn w → w.Ok → ¬ i.Acts w ∧ y w ≠ .error (.thrown "out of bounds"))
    (hset : ∀ {w}, ¬ i.Acts w → w.Ok → y w ≠ .error .undefined → i.SettledIn w) :
    Calm (note i >>= fun _ => liftM y) := by
  have htrace (w : World) : (note i >>= fun _ => liftM y : Watched α).trace w = [(i, w)] :=
    trace_bind_of_ok (x := note i) rfl
  have hresult : (note i >>= fun _ => liftM y : Watched α).result = y := by
    rw [result_bind, result_note, result_lift, pure_bind]
  constructor
  · rwa [hresult]
  · intro w a w' hin _ h
    rw [Inert, htrace, List.forall_mem_singleton] at hin
    exact hsyms hin (by rwa [hresult] at h)
  · intro w hset hok
    rw [OnSettled, htrace, List.forall_mem_singleton] at hset
    rw [Inert, htrace, List.forall_mem_singleton, hresult]
    exact hinert hset hok
  · intro w hin hok hdef
    rw [Inert, htrace, List.forall_mem_singleton] at hin
    rw [hresult] at hdef
    rw [OnSettled, htrace, List.forall_mem_singleton]
    exact hset hin hok hdef

/-- A read of an input, which changes nothing exactly if what it reads is determined. -/
theorem read {i : Touch} {y : M α} (hsteps : Generates y) (honly : OnlyUndefined y)
    (hact : ∀ {w}, i.Acts w ↔ ∃ a w', y w = .ok (a, w') ∧ w'.syms ≠ w.syms)
    (hset : ∀ {w a w'}, y w = .ok (a, w') → w.Ok → (i.SettledIn w ↔ w'.syms = w.syms)) :
    Calm (note i >>= fun _ => liftM y) := by
  have hsyms {w a w'} (hnot : ¬ i.Acts w) (h : y w = .ok (a, w')) : w'.syms = w.syms := by
    by_contra hne
    exact hnot (hact.mpr ⟨a, w', h, hne⟩)
  refine touch hsteps hsyms (fun {w} hs hok => ⟨fun h => ?_, fun h => ?_⟩) fun {w} hnot hok hdef => ?_
  · obtain ⟨a, w', h, hne⟩ := hact.mp h
    exact hne ((hset h hok).mp hs)
  · cases honly h
  · cases h : y w with
    | error e => exact absurd (honly h ▸ h) hdef
    | ok r => exact (hset h hok).mpr (hsyms hnot h)

theorem whole {s : Symbol} : Calm (note (.whole s) >>= fun _ => liftM (randGen s)) := by
  refine read randGen_generates.generates OnlyUndefined.randGen .rfl fun h hok => ?_
  obtain ⟨id, _, hinput, h⟩ := bind_ok_iff.mp h
  obtain ⟨⟨i, hs, hid⟩, rfl⟩ := inputId_ok_iff.mp hinput
  constructor
  · rintro ⟨j, id', hj, hid', hset⟩
    obtain rfl := SymRef.input.inj (hs.symm.trans hj)
    obtain rfl := Option.some.inj (hid.symm.trans hid')
    exact fillVal_settled h hok hset
  · intro hsyms
    obtain ⟨s', n, c, hc⟩ := fillVal_settles h hok
    exact ⟨i, id, hs, hid, s', n, c, hsyms ▸ hc⟩

theorem length {s : Symbol} : Calm (note (.length s) >>= fun _ => liftM s.inputLen) := by
  refine read (inputId_generates.bind fun _ => getSize_generates)
    (OnlyUndefined.inputId.bind fun _ => OnlyUndefined.getSize) .rfl fun h hok => ?_
  obtain ⟨id, _, hinput, hsize⟩ := bind_ok_iff.mp h
  obtain ⟨⟨i, hs, hid⟩, rfl⟩ := inputId_ok_iff.mp hinput
  obtain ⟨name, type, size, elems, ho, hcases⟩ := getSize_ok_iff.mp hsize
  constructor
  · rintro ⟨j, id', o, hj, hid', ho', hdet⟩
    obtain rfl := SymRef.input.inj (hs.symm.trans hj)
    obtain rfl := Option.some.inj (hid.symm.trans hid')
    obtain rfl := Option.some.inj (ho.symm.trans ho')
    cases size with
    | none => cases hdet
    | some size => rw [(getSize_settled ho hsize).1]
  · intro hsyms
    obtain ⟨rfl, rfl⟩ | ⟨rfl, rfl, rfl⟩ := hcases
    · exact ⟨i, id, _, hs, hid, ho, rfl⟩
    · exact ⟨i, id, _, hs, hid, hsyms ▸ World.setSym_self .., rfl⟩

/-- An array is indexed. -/
theorem index {i : Touch} {y : M α} (hsteps : Generates y) (hact : ∀ w, i.Acts w) (hset : ∀ w, ¬ i.SettledIn w) :
    Calm (note i >>= fun _ => liftM y) :=
  touch hsteps (fun h _ => absurd (hact _) h) (fun h _ => absurd h (hset _)) fun h _ _ => absurd (hact _) h

end Calm

/-! ## Expressions -/

section

open Traced

variable {es : List (Expr Symbol)}

theorem Expr.runIdxs_calm (h : ∀ e ∈ es, Calm (e.run false)) : Calm (Expr.runIdxs false es) := by
  induction es with
  | nil => exact .pure
  | cons e es ih =>
    obtain ⟨he, hes⟩ := List.forall_mem_cons.mp h
    rw [Expr.runIdxs]
    exact he.bind fun _ => (Calm.lift .asInt32).bind fun _ => (ih hes).bind fun _ => .pure

theorem Expr.runElement_calm (h : ∀ e ∈ es, Calm (e.run false)) : ∀ {ty : LTy} {cell : Ptr},
    Calm (Expr.runElement false es ty cell) := by
  induction es with
  | nil => exact fun {ty cell} => .pure
  | cons e es ih =>
    obtain ⟨he, hes⟩ := List.forall_mem_cons.mp h
    intro ty cell
    simp only [Expr.runElement]
    refine (Calm.lift .ofOption).bind fun elem => (Calm.lift .ofOption).bind fun c => (Calm.lift .loadMem).bind fun _ =>
      (Calm.lift .asPtr).bind fun data => he.bind fun _ => (Calm.lift .gepOffset).bind fun n => ?_
    have hnote := Calm.index (i := .element (data.add n)) (y := pure ()) (.pure fun _ => trivial) (fun _ => trivial)
      fun _ h => h
    exact hnote.bind fun _ => ih hes

theorem Expr.run_calm (e : Expr Symbol) : Calm (e.run false) := by
  induction e with
  | char | number | bool => exact .pure
  | string => exact (Calm.lift .globalString).bind fun _ => .pure
  | binOp node op lhs rhs ihl ihr =>
    simp only [Expr.run, Bool.false_and, Bool.false_eq_true, if_false]
    exact ihl.bind fun _ => ihr.bind fun _ => .lift .eval
  | ident n =>
    rw [Expr.run]
    split
    exacts [.whole, .lift .readVar]
  | arrLookup node n idxs ih =>
    rw [Expr.run]
    split
    · exact (Calm.lift .inputId).bind fun _ => (Expr.runIdxs_calm ih).bind fun _ =>
        .index getValArr_generates.generates (fun _ => trivial) fun _ h => h
    · exact (Calm.lift .cell).bind fun _ => (Expr.runElement_calm ih).bind fun _ => (Calm.lift .ofOption).bind fun _ =>
        .lift .loadMem
  | arrCreate node elem len ih =>
    rw [Expr.run]
    exact ih.bind fun _ => (Calm.lift .asInt32).bind fun _ => (Calm.lift .ofOption).bind fun _ =>
      (Calm.lift .createArr).bind fun _ => .pure
  | propertyLookup node n p =>
    rw [Expr.run]
    split
    · have hlen : Calm ((note (.length n.symbol) >>= fun _ => liftM n.symbol.inputLen) >>= fun k =>
          pure (Val.int32 k)) := Calm.length.bind fun _ => .pure
      rwa [bind_assoc] at hlen
    · exact (Calm.lift .readVar).bind fun _ => (Calm.lift .asPtr).bind fun _ => (Calm.lift .getAlloc).bind fun _ =>
        .pure

/-! ## With operands left out -/

/-- `y` is `x` with operands left out, all of which have `P`. -/
structure Shortens {α : Type} (P : Expr Symbol → Prop) (x y : Watched α) : Prop where
  result : y.result = x.result
  out : ∀ {w r w₁}, (.leftOut r, w₁) ∈ y.trace w → P r
  mem : ∀ {w i}, i ∈ x.trace w →
    i ∈ y.trace w ∨ ∃ r w₁, (.leftOut r, w₁) ∈ y.trace w ∧ i ∈ (r.run false).trace w₁
  ok : ∀ {w r w₁}, (.leftOut r, w₁) ∈ y.trace w → w.Ok → w₁.Ok
  undefined : ∀ {w r w₁}, (.leftOut r, w₁) ∈ y.trace w → (r.run false).result w₁ = .error .undefined →
    x.result w = .error .undefined

namespace Shortens

variable {α β : Type} {P : Expr Symbol → Prop} {x y : Watched α} {f g : α → Watched β}

theorem bind (hsteps : Generates x.result) (hx : Shortens P x y) (hf : ∀ a, Shortens P (f a) (g a)) :
    Shortens P (x >>= f) (y >>= g) where
  result := by simp only [result_bind, hx.result, (hf _).result]
  out := by
    intro w r w' hr
    obtain hr | ⟨a, w₁, -, hr⟩ := mem_trace_bind.mp hr
    exacts [hx.out hr, (hf a).out hr]
  mem := by
    intro w i hi
    simp only [mem_trace_bind, hx.result] at hi ⊢
    obtain hi | ⟨a, w₁, ha, hi⟩ := hi
    · obtain hi | ⟨r, w', hr, hi⟩ := hx.mem hi
      exacts [.inl (.inl hi), .inr ⟨r, w', .inl hr, hi⟩]
    · obtain hi | ⟨r, w', hr, hi⟩ := (hf a).mem hi
      exacts [.inl (.inr ⟨a, w₁, ha, hi⟩), .inr ⟨r, w', .inr ⟨a, w₁, ha, hr⟩, hi⟩]
  ok := by
    intro w r w' hr hok
    rw [mem_trace_bind, hx.result] at hr
    obtain hr | ⟨a, w₁, ha, hr⟩ := hr
    exacts [hx.ok hr hok, (hf a).ok hr ((hsteps ha hok).1.ok hok)]
  undefined := by
    intro w r w' hr hundef
    rw [mem_trace_bind, hx.result] at hr
    rw [result_bind, bind_error_iff]
    obtain hr | ⟨a, w₁, ha, hr⟩ := hr
    exacts [.inl (hx.undefined hr hundef), .inr ⟨a, w₁, ha, (hf a).undefined hr hundef⟩]

/-- What leaves nothing out. -/
theorem same (h : ∀ w r w₁, (.leftOut r, w₁) ∉ x.trace w) : Shortens P x x where
  result := rfl
  out := fun hr => absurd hr (h _ _ _)
  mem := .inl
  ok := fun hr => absurd hr (h _ _ _)
  undefined := fun hr => absurd hr (h _ _ _)

theorem lift {z : M α} : Shortens P (liftM z : Watched α) (liftM z) := same fun _ _ _ => List.not_mem_nil

theorem pure {a : α} : Shortens P (pure a : Watched α) (pure a) := lift (z := Pure.pure a)

/-- One touch, and what is done there. -/
theorem touch {i : Touch} {f g : Unit → Watched β} (hi : ∀ r, i ≠ .leftOut r) (hf : Shortens P (f ()) (g ())) :
    Shortens P (note i >>= f) (note i >>= g) :=
  have hnote : Shortens P (note i : Watched Unit) (note i) :=
    same fun _ r _ h => hi r (congrArg Prod.fst (List.mem_singleton.mp h)).symm
  bind (.pure fun _ => trivial) hnote fun _ => hf

/-- An operand that is left out. -/
theorem leftOut {e : Expr Symbol} (he : P e) : Shortens P (e.run false) ((e.run false).summed (.leftOut e)) where
  result := rfl
  out := fun hr => by
    cases List.mem_singleton.mp hr
    exact he
  mem := fun {w i} hi => .inr ⟨e, w, List.mem_singleton_self _, hi⟩
  ok := fun hr hok => by
    cases List.mem_singleton.mp hr
    exact hok
  undefined := fun hr hundef => by
    cases List.mem_singleton.mp hr
    exact hundef

end Shortens

variable {P : Expr Symbol → Prop}

theorem Expr.runIdxs_shortens (h : ∀ e ∈ es, Shortens P (e.run false) (e.run true)) :
    Shortens P (Expr.runIdxs false es) (Expr.runIdxs true es) := by
  induction es with
  | nil => exact .pure
  | cons e es ih =>
    obtain ⟨he, hes⟩ := List.forall_mem_cons.mp h
    rw [Expr.runIdxs, Expr.runIdxs]
    exact .bind e.run_calm.steps he fun _ => .bind asInt32_generates .lift fun _ =>
      .bind (runIdxs_calm fun e _ => e.run_calm).steps (ih hes) fun _ => .pure

theorem Expr.runElement_shortens (h : ∀ e ∈ es, Shortens P (e.run false) (e.run true)) : ∀ {ty : LTy} {cell : Ptr},
    Shortens P (Expr.runElement false es ty cell) (Expr.runElement true es ty cell) := by
  induction es with
  | nil => exact fun {ty cell} => .pure
  | cons e es ih =>
    obtain ⟨he, hes⟩ := List.forall_mem_cons.mp h
    intro ty cell
    simp only [Expr.runElement]
    exact .bind ofOption_generates .lift fun elem => .bind ofOption_generates .lift fun c =>
      .bind Passive.loadMem.steps .lift fun _ => .bind Passive.asPtr.steps .lift fun data =>
      .bind e.run_calm.steps he fun _ => .bind gepOffset_generates .lift fun n => .touch (by simp) (ih hes)

/-- **Short-circuit evaluation** touches what the evaluation of both operands
does, less what it leaves out. -/
theorem Expr.run_shortens (e : Expr Symbol) : (∀ d ∈ e.nodes, P d) → Shortens P (e.run false) (e.run true) := by
  induction e with
  | char | number | bool => exact fun _ => .pure
  | string => exact fun _ => .bind globalString_steps.generates .lift fun _ => .pure
  | binOp node op lhs rhs ihl ihr =>
    intro h
    simp only [Expr.nodes, List.forall_mem_cons, List.forall_mem_append] at h
    simp only [Expr.run, Bool.false_and, Bool.true_and, Bool.false_eq_true, if_false]
    refine .bind lhs.run_calm.steps (ihl h.2.1) fun a => ?_
    split
    · exact .bind rhs.run_calm.steps (.leftOut (h.2.2 _ rhs.mem_nodes_self)) fun b => .lift
    · exact .bind rhs.run_calm.steps (ihr h.2.2) fun b => .lift
  | ident n =>
    intro _
    rw [Expr.run, Expr.run]
    split
    exacts [.touch (by simp) .lift, .lift]
  | arrLookup node n idxs ih =>
    intro h
    have hidxs (e) (he : e ∈ idxs) : Shortens P (e.run false) (e.run true) :=
      ih e he (Expr.forall_mem_nodesList.mp (List.forall_mem_cons.mp h).2 e he)
    rw [Expr.run, Expr.run]
    split
    · exact .bind inputId_generates .lift fun _ => .bind (runIdxs_calm fun e _ => e.run_calm).steps
        (runIdxs_shortens hidxs) fun _ => .touch (by simp) .lift
    · exact .bind Passive.cell.steps .lift fun _ => .bind (runElement_calm fun e _ => e.run_calm).steps
        (runElement_shortens hidxs) fun _ => .bind ofOption_generates .lift fun _ => .lift
  | arrCreate node elem len ih =>
    intro h
    rw [Expr.run, Expr.run]
    exact .bind len.run_calm.steps (ih (List.forall_mem_cons.mp h).2) fun _ => .bind asInt32_generates .lift fun _ =>
      .bind ofOption_generates .lift fun _ => .bind Passive.createArr.steps .lift fun _ => .pure
  | propertyLookup node n p =>
    intro _
    rw [Expr.run, Expr.run]
    split
    · exact .touch (by simp) (.bind (inputId_generates.bind fun _ => getSize_generates) .lift fun _ => .pure)
    · exact .bind Passive.readVar.steps .lift fun _ => .bind Passive.asPtr.steps .lift fun _ =>
        .bind getAlloc_generates .lift fun _ => .pure

end

theorem getLookupAddress_codes {es : List (Expr Symbol)} : ∀ {addr a : LVal}, getLookupAddress addr es = .ok a →
    ∀ e ∈ es, ∃ u, codeGenExpr e = .ok u := by
  induction es with
  | nil => exact fun _ => List.forall_mem_nil _
  | cons e es ih =>
    intro addr a h
    simp only [getLookupAddress, Except.bind_ok_iff] at h
    obtain ⟨t, -, elem, -, v, hv, h⟩ := h
    exact List.forall_mem_cons.mpr ⟨⟨v, hv⟩, ih h⟩

theorem codeGenExprs_codes {es : List (Expr Symbol)} : ∀ {vs : List LVal}, codeGenExprs es = .ok vs →
    ∀ e ∈ es, ∃ u, codeGenExpr e = .ok u := by
  induction es with
  | nil => exact fun _ => List.forall_mem_nil _
  | cons e es ih =>
    intro vs h
    simp only [codeGenExprs, Except.bind_ok_iff] at h
    obtain ⟨v, hv, vs', hvs, -⟩ := h
    exact List.forall_mem_cons.mpr ⟨⟨v, hv⟩, ih hvs⟩

/-- What is in an expression with code has code. -/
theorem codeGenExpr_nodes (e : Expr Symbol) : ∀ {v}, codeGenExpr e = .ok v →
    ∀ d ∈ e.nodes, ∃ u, codeGenExpr d = .ok u := by
  induction e with
  | binOp node op lhs rhs ihl ihr =>
    intro v h
    have h' := h
    simp only [codeGenExpr, Except.bind_ok_iff] at h'
    obtain ⟨l, hl, r, hr, -⟩ := h'
    exact List.forall_mem_cons.mpr ⟨⟨v, h⟩, List.forall_mem_append.mpr ⟨ihl hl, ihr hr⟩⟩
  | arrLookup node n idxs ih =>
    intro v h
    have hidxs : ∀ e ∈ idxs, ∃ u, codeGenExpr e = .ok u := by
      rw [codeGenExpr] at h
      split at h
      · obtain ⟨vs, hvs, -⟩ := Except.bind_ok_iff.mp h
        exact codeGenExprs_codes hvs
      · simp only [Except.bind_ok_iff] at h
        obtain ⟨t, -, a, -, addr, haddr, -⟩ := h
        exact getLookupAddress_codes haddr
    refine List.forall_mem_cons.mpr ⟨⟨v, h⟩, Expr.forall_mem_nodesList.mpr fun e he => ?_⟩
    obtain ⟨u, hu⟩ := hidxs e he
    exact ih e he hu
  | arrCreate node elem len ih =>
    intro v h
    have h' := h
    simp only [codeGenExpr, Except.bind_ok_iff] at h'
    obtain ⟨_, -, _, -, l, hl, -⟩ := h'
    exact List.forall_mem_cons.mpr ⟨⟨v, h⟩, ih hl⟩
  | _ => exact fun {v} h => List.forall_mem_singleton.mpr ⟨v, h⟩

/-- **The logical operators are lazy where it makes no difference.** The code
of an expression does what short-circuit evaluation of it would, if the
operands that this leaves out have nothing to determine and nothing to index;
and only if, unless its behaviour is undefined. -/
theorem lazy_iff_spared {w : World} (hok : w.Ok) {e : Expr Symbol} {v : LVal} (hv : codeGenExpr e = .ok v) :
    (e.Spared w → Lazy e v w) ∧ (v.eval w ≠ .error .undefined → Lazy e v w → e.Spared w) := by
  have hshort := e.run_shortens (codeGenExpr_nodes e hv)
  have hcode {d : Expr Symbol} {u : LVal} (hu : codeGenExpr d = .ok u) {w₁ : World} :
      u.eval w₁ = (d.run false).result w₁ := by rw [← u.run_result, codeGenExpr_run d hu]
  constructor
  · intro hspared
    have hout {r w₁} (hr : (.leftOut r, w₁) ∈ (e.run true).trace w) :=
      r.run_calm.inert (hspared r w₁ hr) (hshort.ok hr hok)
    refine ⟨fun i hi hact => ?_, fun r w₁ hr u hu => ?_⟩
    · rw [codeGenExpr_run e hv] at hi
      obtain hi | ⟨r, w₁, hr, hi⟩ := hshort.mem hi
      · exact hi
      · exact absurd hact ((hout hr).1 i hi)
    · rw [codeGenExpr_run r hu, hcode hu]
      exact hout hr
  · intro hdef hlazy r w₁ hr
    obtain ⟨u, hu⟩ := hshort.out hr
    obtain ⟨hinert, -⟩ := hlazy.leftOut r w₁ hr u hu
    rw [codeGenExpr_run r hu] at hinert
    rw [hcode hv] at hdef
    exact r.run_calm.onSettled hinert (hshort.ok hr hok) fun h => hdef (hshort.undefined hr h)

namespace Sample

/-- `int f(int n, int[] a) { if n > 500 && a[0] > 1 { return 1 } return 2 }`. -/
def guards : FunctionNode Unit where
  node := node 0
  retType := ⟨.int, 0⟩
  name := "f"
  args := [param 1 "n" ⟨.int, 0⟩, param 2 "a" ⟨.int, 1⟩]
  body := [.if_ (node 3) none (.binOp (node 4) .and (.binOp (node 5) .gt (ident 6 "n") (num 7 500))
    (.binOp (node 8) .gt (lookup 9 10 "a" (num 11 0)) (num 12 1))) [ret 13 (num 14 1)], ret 15 (num 16 2)]
  distinct := by decide

end Sample

theorem lazy_iff_spared_guards : ∃ g inputs s cond v, Sample.guards.accept = .ok (g, inputs) ∧ s ∈ Body.nodes g.body ∧
    s.branch = some (none, cond) ∧ codeGenExpr cond = .ok v ∧
      v.eval (World.start (Sample.draws 3) inputs) ≠ .error .undefined ∧
        (Lazy cond v (World.start (Sample.draws 3) inputs) ↔ cond.Spared (World.start (Sample.draws 3) inputs)) := by
  obtain ⟨g, inputs, s, cond, v, hg, hs, hcond, hv, r, hr⟩ : ∃ g inputs s cond v,
      Sample.guards.accept = .ok (g, inputs) ∧ s ∈ Body.nodes g.body ∧ s.branch = some (none, cond) ∧
        codeGenExpr cond = .ok v ∧ ∃ r, v.eval (World.start (Sample.draws 3) inputs) = .ok r :=
    ⟨_, _, _, _, _, rfl, List.mem_cons_self .., rfl, rfl, _, rfl⟩
  have hdef : v.eval (World.start (Sample.draws 3) inputs) ≠ .error .undefined := by
    simp [hr]
  obtain ⟨hif, honly⟩ := lazy_iff_spared (World.start_ok (Sample.draws 3) inputs) hv
  exact ⟨g, inputs, s, cond, v, hg, hs, hcond, hv, hdef, honly hdef, hif⟩

/-- `n` is drawn below 200, and the empty `a` is indexed all the same. -/
theorem guards_outOfBounds : ¬ ∀ (f : FunctionNode Unit) (g : FunctionNode Symbol) (inputs : List Symbol)
    (env : Env) (s : Stmt Symbol) (precond : Option (PrecondNode Symbol)) (cond : Expr Symbol) (v : LVal),
    f.accept = .ok (g, inputs) → s ∈ Body.nodes g.body → s.branch = some (precond, cond) → codeGenExpr cond = .ok v →
      v.eval (World.start env inputs) ≠ .error .undefined → Lazy cond v (World.start env inputs) := by
  intro h
  obtain ⟨g, inputs, s, cond, v, r, u, i, w₁, hg, hs, hcond, hv, hu, htrace, hr, hthrown⟩ :
      ∃ g inputs s cond v r u i w₁, Sample.guards.accept = .ok (g, inputs) ∧ s ∈ Body.nodes g.body ∧
        s.branch = some (none, cond) ∧ codeGenExpr cond = .ok v ∧ codeGenExpr r = .ok u ∧
        (cond.run true).trace (World.start (Sample.draws 0) inputs) = [i, (.leftOut r, w₁)] ∧
        u.eval w₁ = .error (.thrown "out of bounds") ∧
        v.eval (World.start (Sample.draws 0) inputs) = .error (.thrown "out of bounds") :=
    ⟨_, _, _, _, _, _, _, _, _, rfl, List.mem_cons_self .., rfl, rfl, rfl, rfl, rfl, rfl⟩
  have hlazy := h _ g inputs _ s none cond v hg hs hcond hv (by rw [hthrown]; simp)
  exact (hlazy.leftOut r w₁ (by simp [htrace]) u hu).2 hr

end DGen
