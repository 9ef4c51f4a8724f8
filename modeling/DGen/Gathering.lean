/-
What a test shows (`gather_res`): the values of the inputs, and the value that
is stored where the result is.

Every run of `gather_res` has these values, and they are the only ones
(`GatheredRun.values`). The document of any number of tests is that of their
values exactly if no input has an array without elements
(`gathered_document_iff`); scalars are none (`scalar_inputs_decode`).
-/
import DGen.Conditions
import DGen.Document

namespace DGen

open Memory StateT

/-! ## What is stored -/

/-- The number of elements the table has for an address; 0 where it has no entry. -/
def World.allocSize (w : World) (q : Ptr) : Nat := ((w.alloc? q).map fun d => d.size.toNat).getD 0

/-- A pointer, and as many elements of a size from there on as the table says. -/
def StoredArray {α : Type} (mem : Mem) (sizes : Ptr → Nat) (elemSize : Nat) (stored : α → Ptr → Prop)
    (cs : List α) (p : Ptr) :
    Prop :=
  ∃ q, mem.load .ptr p = some (.ptr q) ∧ sizes q = cs.length ∧
    ∀ i c, cs[i]? = some c → stored c (q.add (i * elemSize : Nat))

def StoredChar (mem : Mem) (ch : BitVec 8) (p : Ptr) : Prop := mem.load .int8 p = some (.int8 ch)

/-- Any byte but 0 is true. -/
def ScalarType.Stored (mem : Mem) (sizes : Ptr → Nat) : (s : ScalarType) → s.Value → Ptr → Prop
  | .int, num, p => mem.load .int32 p = some (.int32 num)
  | .string, chs, p => StoredArray mem sizes 1 (StoredChar mem) chs p
  | .char, ch, p => StoredChar mem ch p
  | .bool, val, p => ∃ b : BitVec 8, mem.load .int8 p = some (.int8 b) ∧ val = (b != 0)

/-- The value of a type at an address. -/
def Stored (mem : Mem) (sizes : Ptr → Nat) (s : ScalarType) : (n : Nat) → Content s n → Ptr → Prop
  | 0, v, p => s.Stored mem sizes v p
  | n + 1, cs, p => StoredArray mem sizes (⟨s, n⟩ : DeclTy).newSym.sizeof (Stored mem sizes s n) cs p

section

variable {mem : Mem} {sizes : Ptr → Nat}

theorem StoredArray.unique {α : Type} {elemSize : Nat} {stored : α → Ptr → Prop} {cs cs' : List α} {p : Ptr}
    (h : StoredArray mem sizes elemSize stored cs p) (h' : StoredArray mem sizes elemSize stored cs' p)
    (hr : ∀ c c' q, stored c q → stored c' q → c = c') : cs = cs' := by
  obtain ⟨q, hq, hlen, helems⟩ := h
  obtain ⟨q', hq', hlen', helems'⟩ := h'
  cases hq.symm.trans hq'
  refine List.ext_getElem (hlen.symm.trans hlen') fun i hi hi' => ?_
  exact hr _ _ _ (helems i _ (List.getElem?_eq_getElem hi)) (helems' i _ (List.getElem?_eq_getElem hi'))

theorem StoredChar.unique {ch ch' : BitVec 8} {p : Ptr} (h : StoredChar mem ch p) (h' : StoredChar mem ch' p) :
    ch = ch' := by
  cases h.symm.trans h'
  rfl

/-- There is one value at an address. -/
theorem Stored.unique {s : ScalarType} : ∀ {n : Nat} {c c' : Content s n} {p : Ptr},
    Stored mem sizes s n c p → Stored mem sizes s n c' p → c = c'
  | 0, c, c', p, h, h' => by
    cases s with
    | int =>
      cases h.symm.trans h'
      rfl
    | char => exact StoredChar.unique h h'
    | bool =>
      obtain ⟨b, hb, rfl⟩ := h
      obtain ⟨b', hb', rfl⟩ := h'
      cases hb.symm.trans hb'
      rfl
    | string => exact StoredArray.unique h h' fun _ _ _ => StoredChar.unique
  | _ + 1, _, _, _, h, h' => StoredArray.unique h h' fun _ _ _ => Stored.unique

end

/-! ## What `gather_rec` prints -/

section

variable {w w' : World}

theorem World.Looked.mem (h : w.Looked w') : w'.mem = w.mem := by rw [h.rest]

/-- An entry that a lookup adds is for no elements. -/
theorem World.Looked.allocSize (h : w.Looked w') : w'.allocSize = w.allocSize := by
  funext q
  rw [World.allocSize, World.allocSize]
  cases hq : w.alloc? q with
  | some d => rw [h.known q d hq]
  | none =>
    obtain hnone | hsome := h.unknown q hq
    · rw [hnone]
    · rw [hsome]
      rfl

theorem getAlloc_size {q : Ptr} {d : AllocData} (h : getAlloc q w = .ok (d, w')) : w.allocSize q = d.size.toNat := by
  unfold getAlloc at h
  rw [World.allocSize, World.alloc?]
  split at h
  next hfind =>
    cases h
    rw [hfind]
    rfl
  next hfind =>
    cases h
    rw [hfind]
    rfl

theorem loadInt8_ok {p : Ptr} {ch : BitVec 8} (h : loadInt8 p w = .ok (ch, w')) : StoredChar w.mem ch p ∧ w = w' := by
  obtain ⟨v, _, hv, h⟩ := bind_ok_iff.mp h
  obtain ⟨hload, rfl⟩ := loadMem_ok_iff.mp hv
  cases v with
  | int8 =>
    obtain ⟨rfl, rfl⟩ := pure_ok_iff.mp h
    exact ⟨hload, rfl⟩
  | _ => simp at h

theorem loadInt32_ok {p : Ptr} {num : BitVec 32} (h : loadInt32 p w = .ok (num, w')) :
    w.mem.load .int32 p = some (.int32 num) ∧ w = w' := by
  obtain ⟨v, _, hv, h⟩ := bind_ok_iff.mp h
  obtain ⟨hload, rfl⟩ := loadMem_ok_iff.mp hv
  cases v with
  | int32 =>
    obtain ⟨rfl, rfl⟩ := pure_ok_iff.mp h
    exact ⟨hload, rfl⟩
  | _ => simp at h

theorem loadChars_ok : ∀ {k : Nat} {q : Ptr} {cs : List Char} {w w' : World}, loadChars k q w = .ok (cs, w') →
    ∃ chs : List (BitVec 8), k = chs.length ∧ cs = chs.map (fun ch => Char.ofNat ch.toNat) ∧
      ∀ i ch, chs[i]? = some ch → StoredChar w.mem ch (q.add (i * 1 : Nat))
  | 0, q, cs, w, w', h => by
    obtain ⟨rfl, rfl⟩ := pure_ok_iff.mp h
    exact ⟨[], rfl, rfl, by simp⟩
  | k + 1, q, cs, w, w', h => by
    obtain ⟨ch, _, hch, h⟩ := bind_ok_iff.mp h
    obtain ⟨hfirst, rfl⟩ := loadInt8_ok hch
    obtain ⟨rest, _, hrest, h⟩ := bind_ok_iff.mp h
    obtain ⟨rfl, rfl⟩ := pure_ok_iff.mp h
    obtain ⟨chs, rfl, rfl, helems⟩ := loadChars_ok hrest
    refine ⟨ch :: chs, rfl, rfl, fun i c hc => ?_⟩
    cases i with
    | zero =>
      cases hc
      simpa [Ptr.add] using hfirst
    | succ i =>
      rw [← Ptr.add_mul]
      exact helems i c hc

/-- The elements are those of a list, when each is a value; lookups change nothing of that. -/
theorem gatherElems_ok {α : Type} {gather : Ptr → M String} {text : α → String} {stored : α → Ptr → Prop} {size : Nat}
    {w₀ : World} (hlooks : ∀ p, LooksUp (gather p))
    (hgather : ∀ {p w w' t}, w₀.Looked w → gather p w = .ok (t, w') → ∃ c, stored c p ∧ t = text c) :
    ∀ {k : Nat} {q : Ptr} {w w' : World} {t : String}, w₀.Looked w → gatherElems gather size k q w = .ok (t, w') →
      ∃ cs : List α, k = cs.length ∧ t = commaBetween (cs.map text) ∧
        ∀ i c, cs[i]? = some c → stored c (q.add (i * size : Nat))
  | 0, q, w, w', t, _, h => by
    obtain ⟨rfl, rfl⟩ := pure_ok_iff.mp h
    exact ⟨[], rfl, rfl, by simp⟩
  | k + 1, q, w, w', t, hw, h => by
    obtain ⟨first, w₁, hfirst, h⟩ := bind_ok_iff.mp h
    obtain ⟨rest, _, hrest, h⟩ := bind_ok_iff.mp h
    obtain ⟨rfl, rfl⟩ := pure_ok_iff.mp h
    obtain ⟨c, hc, rfl⟩ := hgather hw hfirst
    obtain ⟨cs, rfl, rfl, helems⟩ := gatherElems_ok hlooks hgather (hw.trans (hlooks q hfirst)) hrest
    refine ⟨c :: cs, rfl, by simp [commaBetween, List.length_eq_zero_iff], fun i c' hc' => ?_⟩
    cases i with
    | zero =>
      cases hc'
      simpa [Ptr.add] using hc
    | succ i =>
      rw [← Ptr.add_mul]
      exact helems i c' hc'

/-- **What `gather_rec` prints** is the text of what is stored there. -/
theorem gatherRec_stored {s : ScalarType} : ∀ {n : Nat} {p : Ptr} {t : String} {w w' : World},
    gatherRec s n p w = .ok (t, w') →
    ∃ c, Stored w.mem w.allocSize s n c p ∧ t = gatheredText s n c
  | 0, p, t, w, w', h => by
    cases s with
    | int =>
      obtain ⟨num, _, hnum, h⟩ := bind_ok_iff.mp h
      obtain ⟨rfl, rfl⟩ := pure_ok_iff.mp h
      exact ⟨num, (loadInt32_ok hnum).1, rfl⟩
    | char =>
      obtain ⟨ch, _, hch, h⟩ := bind_ok_iff.mp h
      obtain ⟨rfl, rfl⟩ := pure_ok_iff.mp h
      exact ⟨ch, (loadInt8_ok hch).1, rfl⟩
    | bool =>
      obtain ⟨b, _, hb, h⟩ := bind_ok_iff.mp h
      obtain ⟨rfl, rfl⟩ := pure_ok_iff.mp h
      exact ⟨b != 0, ⟨b, (loadInt8_ok hb).1, rfl⟩, rfl⟩
    | string =>
      obtain ⟨v, _, hv, h⟩ := bind_ok_iff.mp h
      obtain ⟨hload, rfl⟩ := loadMem_ok_iff.mp hv
      obtain ⟨q, _, hq, h⟩ := bind_ok_iff.mp h
      obtain ⟨rfl, rfl⟩ := asPtr_ok_iff.mp hq
      obtain ⟨d, w₁, hd, h⟩ := bind_ok_iff.mp h
      obtain ⟨cs, _, hcs, h⟩ := bind_ok_iff.mp h
      obtain ⟨rfl, rfl⟩ := pure_ok_iff.mp h
      obtain ⟨chs, hlen, rfl, helems⟩ := loadChars_ok hcs
      rw [(getAlloc_looked hd).mem] at helems
      exact ⟨chs, ⟨q, hload, (getAlloc_size hd).trans hlen, helems⟩, rfl⟩
  | n + 1, p, t, w, w', h => by
    obtain ⟨v, _, hv, h⟩ := bind_ok_iff.mp h
    obtain ⟨hload, rfl⟩ := loadMem_ok_iff.mp hv
    obtain ⟨q, _, hq, h⟩ := bind_ok_iff.mp h
    obtain ⟨rfl, rfl⟩ := asPtr_ok_iff.mp hq
    obtain ⟨d, w₁, hd, h⟩ := bind_ok_iff.mp h
    obtain ⟨elems, _, helems, h⟩ := bind_ok_iff.mp h
    obtain ⟨rfl, rfl⟩ := pure_ok_iff.mp h
    obtain ⟨cs, hlen, rfl, hcs⟩ := @gatherElems_ok _ (gatherRec s n) (gatheredText s n) (Stored w.mem w.allocSize s n) _ w
      (fun _ => .gatherRec) (fun hw hrun => by
        obtain ⟨c, hc, rfl⟩ := gatherRec_stored hrun
        rw [hw.mem, hw.allocSize] at hc
        exact ⟨c, hc, rfl⟩) _ _ _ _ _ (getAlloc_looked hd) helems
    exact ⟨cs, ⟨q, hload, (getAlloc_size hd).trans hlen, hcs⟩, rfl⟩

end

/-! ## Names -/

/-- The inputs are there under their names. -/
def World.Named (inputs : List Symbol) (w : World) : Prop :=
  List.Forall₂ (fun s id => ∃ val, w.syms id = some ⟨s.name, val⟩) inputs w.inputs

/-- The inputs keep their names. -/
def World.KeepsNames (w w' : World) : Prop :=
  w'.inputs = w.inputs ∧ ∀ (id : Nat) o, id ∈ w.inputs → w.syms id = some o → ∃ o', w'.syms id = some o' ∧
    o'.name = o.name

namespace World

variable {inputs : List Symbol} {w w' w'' : World}

theorem Named.start (env : Env) (inputs : List Symbol) : (start env inputs).Named inputs := by
  refine List.forall₂_iff_get.mpr ⟨by simp [World.start], fun i hi hi' => ?_⟩
  have hid : (World.start env inputs).inputs.get ⟨i, hi'⟩ = i := by simp [World.start]
  exact ⟨_, by rw [hid]; simp [World.start, hi]; rfl⟩

theorem Named.kept (h : w.Named inputs) (hk : w.KeepsNames w') : w'.Named inputs := by
  obtain ⟨hinputs, hkept⟩ := hk
  rw [Named, hinputs]
  refine List.forall₂_iff_get.mpr ⟨h.length_eq, fun i hi hi' => ?_⟩
  obtain ⟨val, ho⟩ := h.get hi hi'
  obtain ⟨⟨name, val'⟩, ho', rfl⟩ := hkept _ _ (List.get_mem ..) ho
  exact ⟨val', ho'⟩

namespace KeepsNames

theorem of_syms (hinputs : w'.inputs = w.inputs) (hsyms : w'.syms = w.syms) : w.KeepsNames w' :=
  ⟨hinputs, fun id o _ ho => ⟨o, by rw [hsyms]; exact ho, rfl⟩⟩

theorem trans (h : w.KeepsNames w') (h' : w'.KeepsNames w'') : w.KeepsNames w'' := by
  refine ⟨h'.1.trans h.1, fun id o hid ho => ?_⟩
  obtain ⟨o', ho', hname⟩ := h.2 id o hid ho
  obtain ⟨o'', ho'', hname'⟩ := h'.2 id o' (h.1 ▸ hid) ho'
  exact ⟨o'', ho'', hname'.trans hname⟩

theorem of_onSymbols (h : w.OnSymbols w') : w.KeepsNames w' := by
  refine ⟨h.inputs, fun id o hid ho => ?_⟩
  obtain ⟨o', ho', hname, -⟩ := h.kept id o hid ho
  exact ⟨o', ho', hname⟩

theorem of_grown (h : Grown w w') : w.KeepsNames w' := by
  refine ⟨h.inputs, fun id o hid ho => ?_⟩
  obtain ⟨o', ho', hname, -⟩ := h.kept id o ho
  exact ⟨o', ho', hname hid⟩

theorem step (h : w.Step w') (hok : w.Ok) : w.KeepsNames w' := by
  cases h with
  | number _ h | char _ h | bool _ h => exact of_onSymbols (.setSym hok.tree h rfl rfl rfl trivial)
  | size _ h hsize => exact of_onSymbols (.rebuild hok.tree h hsize)
  | rand | block | alloc | store => exact of_syms rfl rfl

theorem steps (h : w.Steps w') (hok : w.Ok) : w.KeepsNames w' := by
  induction h with
  | refl => exact of_syms rfl rfl
  | tail hs h ih => exact ih.trans (step h (Steps.ok hs hok))

/-- An element may be renamed for the solver; an input is not. -/
theorem startZ3Gen {check : List ZExpr → CheckResult} {walk : Walk} {cond : Expr Symbol} {precond : PrecondNode Symbol}
    (h : startZ3Gen check walk cond precond w = .ok ((), w')) (hok : w.Ok) : w.KeepsNames w' := by
  have hfill {m : Model} {exprs : List ZExpr} {items : List (SymId × Nat)} : ∀ {w w' : World},
      fillLoop m exprs items w = .ok ((), w') → Tree w.syms w.inputs w.next → w.KeepsNames w' := by
    induction items with
    | nil =>
      intro w w' h _
      obtain ⟨-, rfl⟩ := pure_ok_iff.mp h
      exact of_syms rfl rfl
    | cons item items ih =>
      intro w w' h htree
      obtain ⟨e, _, he, h⟩ := bind_ok_iff.mp h
      obtain ⟨-, rfl⟩ := ofOption_ok_iff.mp he
      obtain ⟨_, w₁, hfill, h⟩ := bind_ok_iff.mp h
      have hon := fillSym_onSymbols hfill htree
      exact (of_onSymbols hon).trans (ih h hon.tree)
  obtain ⟨fs, w₁, hfs, h⟩ := startZ3Gen_cases h
  have hrec := genFormulas_recorded hfs hok
  have hgrown := of_grown hrec.grown
  obtain rfl | ⟨m, h⟩ := h
  · exact hgrown
  · exact hgrown.trans (hfill h hrec.ok.tree)

/-- What one operation of a test does to names. -/
theorem op {op : Op} (h : op.exec w = .ok ((), w')) (hok : w.Ok) : w.KeepsNames w' := by
  obtain ⟨-, w₁, frame, ctx, hs, rfl, -⟩ | ⟨_, _, _, _, hz3⟩ := op.exec_cases h hok
  · exact (steps hs hok).trans (of_syms rfl rfl)
  · exact startZ3Gen hz3 hok

theorem resetVals {ids : List SymId} : ∀ {w : World}, resetVals ids w = .ok ((), w') → w.Whole inputs →
    w.KeepsNames w' := by
  induction ids with
  | nil =>
    intro w h _
    obtain ⟨-, rfl⟩ := pure_ok_iff.mp h
    exact of_syms rfl rfl
  | cons id ids ih =>
    intro w h hw
    obtain ⟨_, w₁, h₁, h⟩ := bind_ok_iff.mp h
    obtain ⟨o, _, ho, -⟩ := bind_ok_iff.mp h₁
    obtain ⟨w₁', h₁', hon, -⟩ := resetVal_ok hw.ok.tree (getSym_ok_iff.mp ho).1
    cases h₁'.symm.trans h₁
    exact (of_onSymbols hon).trans (ih h (hw.resetVal h₁))

end KeepsNames

/-- **In every state of a run** the inputs have their names. -/
theorem Reached.named {g : FunctionNode Symbol} (h : w.Reached g inputs) : w.Named inputs := by
  induction h with
  | start env => exact Named.start env inputs
  | op h _ hexec ih => exact ih.kept (KeepsNames.op hexec h.whole.ok)
  | @reset mem w w' h hmem hreset ih =>
    have hnamed : World.Named inputs { w with mem, allocatedVals := [] } := ih
    exact hnamed.kept (KeepsNames.resetVals hreset (h.whole.freed hmem))

end World

/-! ## The values of a test -/

/-- An input with its value. -/
abbrev InputValue := (s : Symbol) × Content s.type.scalar s.type.nested

/-- What a test shows. -/
structure TestValues (retType : DeclTy) where
  inputs : List InputValue
  result : Content retType.scalar retType.nested

/-- An object with the inputs' names and values in order, and then the function's name and the result. -/
def TestValues.json {retType : DeclTy} (t : TestValues retType) (name : String) : Json :=
  .obj (t.inputs.map (fun v => (v.1.name, contentJson v.1.type.scalar v.1.type.nested v.2)) ++
    [(name, contentJson retType.scalar retType.nested t.result)])

def TestValues.test {retType : DeclTy} (t : TestValues retType) (name : String) : Test where
  fields := t.inputs.map fun v => serializedMember v.1.name v.1.type.scalar v.1.type.nested v.2
  res := gatheredMember name retType.scalar retType.nested t.result

theorem TestValues.test_json {retType : DeclTy} (t : TestValues retType) (name : String) :
    (t.test name).json = t.json name := by
  rw [Test.json, Test.members, List.map_append, TestValues.test, List.map_map]
  rfl

/-- A run of `gather_res`, in any state of a run of tests. -/
structure GatheredRun (g : FunctionNode Symbol) (inputs : List Symbol) where
  before : World
  res : Ptr
  text : String
  after : World
  reached : before.Reached g inputs
  gathered : gatherRes g.name g.retType res before = .ok (text, after)

/-- The values of a run: the inputs hold theirs from then on, and the result is what is stored at its address. -/
structure GatheredRun.Shows {g : FunctionNode Symbol} {inputs : List Symbol} (r : GatheredRun g inputs)
    (t : TestValues g.retType) : Prop where
  symbols : t.inputs.map (·.1) = inputs
  values : List.Forall₂ (fun v id => Holds r.after.syms v.1.type.scalar v.1.type.nested v.2 id) t.inputs r.before.inputs
  result : Stored r.before.mem r.before.allocSize g.retType.scalar g.retType.nested t.result r.res

/-- The fields of the inputs are texts of what they hold afterwards. -/
theorem gatherInputs_values {inputs : List Symbol} {ids : List SymId} :
    ∀ {w w' : World} {fields : List (String × String)},
    gatherInputs ids w = .ok (fields, w') → w.Ok →
      List.Forall₂ (fun s id => id ∈ w.inputs ∧ (∃ val, w.syms id = some ⟨s.name, val⟩) ∧
        w.Typed s.type id) inputs ids →
        ∃ vs : List InputValue, vs.map (·.1) = inputs ∧
          List.Forall₂ (fun v id => Holds w'.syms v.1.type.scalar v.1.type.nested v.2 id) vs ids ∧
          fields = vs.map fun v => (v.1.name, serializedText v.1.type.scalar v.1.type.nested v.2) := by
  induction ids generalizing inputs with
  | nil =>
    intro w w' fields h _ hids
    cases hids
    obtain ⟨rfl, rfl⟩ := pure_ok_iff.mp h
    exact ⟨[], rfl, .nil, rfl⟩
  | cons id ids ih =>
    intro w w' fields h hok hids
    cases hids with
    | @cons s _ inputs _ hid hids =>
      obtain ⟨hin, ⟨val, ho⟩, ht⟩ := hid
      obtain ⟨o, _, hget, h⟩ := bind_ok_iff.mp h
      obtain ⟨ho', rfl⟩ := getSym_ok_iff.mp hget
      cases ho.symm.trans ho'
      obtain ⟨text, w₁, hser, h⟩ := bind_ok_iff.mp h
      obtain ⟨rest, w₂, hrest, h⟩ := bind_ok_iff.mp h
      obtain ⟨rfl, rfl⟩ := pure_ok_iff.mp h
      have hs₁ := (serialize_generates hser hok).1
      obtain ⟨hinputs, hnames⟩ := World.KeepsNames.steps hs₁ hok
      have hkept : ∀ (s : Symbol) (j : SymId),
          (j ∈ w.inputs ∧ (∃ val, w.syms j = some ⟨s.name, val⟩) ∧ w.Typed s.type j) →
            j ∈ w₁.inputs ∧ (∃ val, w₁.syms j = some ⟨s.name, val⟩) ∧ w₁.Typed s.type j := by
        rintro s j ⟨hj, ⟨val, hoj⟩, htj⟩
        obtain ⟨⟨name, val'⟩, hoj', rfl⟩ := hnames j _ hj hoj
        exact ⟨hinputs ▸ hj, ⟨val', hoj'⟩, (hs₁.later hok).typed htj⟩
      obtain ⟨vs, rfl, hvs, rfl⟩ := ih hrest (hs₁.ok hok) (hids.imp hkept)
      obtain ⟨c, hc, rfl⟩ := serialize_holds hser hok ht
      have hl₂ := (gatherInputs_generates hrest (hs₁.ok hok)).1.later (hs₁.ok hok)
      exact ⟨⟨s, c⟩ :: vs, rfl, .cons (hc.later hl₂) hvs, rfl⟩

theorem inputValues_unique {syms : Nat → Option SymObj} {vs vs' : List InputValue} {ids : List SymId}
    (hsymbols : vs.map (·.1) = vs'.map (·.1))
    (h : List.Forall₂ (fun v id => Holds syms v.1.type.scalar v.1.type.nested v.2 id) vs ids)
    (h' : List.Forall₂ (fun v id => Holds syms v.1.type.scalar v.1.type.nested v.2 id) vs' ids) : vs = vs' := by
  induction h generalizing vs' with
  | nil =>
    cases h'
    rfl
  | @cons v _ _ _ hv _ ih =>
    cases h' with
    | @cons v' _ _ _ hv' h' =>
      rw [List.map_cons, List.map_cons, List.cons.injEq] at hsymbols
      obtain ⟨hsymbol, hsymbols⟩ := hsymbols
      obtain rfl := ih hsymbols h'
      obtain ⟨s, c⟩ := v
      obtain ⟨s', c'⟩ := v'
      obtain rfl : s = s' := hsymbol
      obtain rfl : c = c' := Holds.unique hv hv'
      rfl

namespace GatheredRun

variable {g : FunctionNode Symbol} {inputs : List Symbol} {r : GatheredRun g inputs}

/-- Every run has values, and its text is that of these. -/
theorem values (r : GatheredRun g inputs) : ∃ t, r.Shows t ∧ r.text = (t.test g.name).text := by
  have hwhole := r.reached.whole
  obtain ⟨⟨fields, resStr⟩, _, h, hpure⟩ := bind_ok_iff.mp r.gathered
  obtain ⟨htext, hafter⟩ := pure_ok_iff.mp hpure
  obtain ⟨_, _, hg, h⟩ := bind_ok_iff.mp h
  obtain ⟨rfl, rfl⟩ := get_ok_iff.mp hg
  obtain ⟨fields', w₁, hin, h⟩ := bind_ok_iff.mp h
  obtain ⟨res', w₂, hres, h⟩ := bind_ok_iff.mp h
  obtain ⟨heq, rfl⟩ := pure_ok_iff.mp h
  obtain ⟨rfl, rfl⟩ := Prod.mk.inj heq
  have hids : List.Forall₂ (fun s id => id ∈ r.before.inputs ∧ (∃ val, r.before.syms id = some ⟨s.name, val⟩) ∧
      r.before.Typed s.type id) inputs r.before.inputs := by
    refine List.forall₂_iff_get.mpr ⟨hwhole.typed.length_eq, fun i hi hi' => ?_⟩
    exact ⟨List.get_mem .., r.reached.named.get hi hi', (hwhole.typed.get hi hi').typed hwhole.ok⟩
  obtain ⟨vs, hsymbols, hvs, rfl⟩ := gatherInputs_values hin hwhole.ok hids
  obtain ⟨hmem, htable⟩ := LeavesMem.gatherInputs hin
  obtain ⟨c, hc, rfl⟩ := gatherRec_stored hres
  have hsizes : w₁.allocSize = r.before.allocSize := by
    funext q
    rw [World.allocSize, World.allocSize, Process.alloc?_congr htable]
  rw [hmem, hsizes] at hc
  have hlooked := LooksUp.gatherRec hres
  refine ⟨⟨vs, c⟩, ⟨hsymbols, ?_, hc⟩, ?_⟩
  · rw [← hafter, hlooked.rest]
    exact hvs
  · rw [← htext, Test.text, TestValues.test, List.map_map, List.map_map]
    rfl

/-- There are no others. -/
theorem Shows.unique {t t' : TestValues g.retType} (h : r.Shows t) (h' : r.Shows t') : t = t' := by
  obtain ⟨vs, c⟩ := t
  obtain ⟨vs', c'⟩ := t'
  obtain rfl : c = c' := h.result.unique h'.result
  obtain rfl : vs = vs' := inputValues_unique (h.symbols.trans h'.symbols.symm) h.values h'.values
  rfl

theorem Shows.text {t : TestValues g.retType} (h : r.Shows t) : r.text = (t.test g.name).text := by
  obtain ⟨t', h', htext⟩ := r.values
  rw [htext, h.unique h']

theorem exists_values (runs : List (GatheredRun g inputs)) : ∃! ts, List.Forall₂ Shows runs ts := by
  induction runs with
  | nil =>
    refine ⟨[], .nil, fun ts h => ?_⟩
    cases h
    rfl
  | cons r runs ih =>
    obtain ⟨t, ht, -⟩ := r.values
    obtain ⟨ts, hts, hunique⟩ := ih
    refine ⟨t :: ts, .cons ht hts, fun ts' h => ?_⟩
    cases h with
    | cons ht' hts' => rw [ht'.unique ht, hunique _ hts']

/-- The texts of runs are those of their values, and these are values of the inputs. -/
theorem texts {runs : List (GatheredRun g inputs)} {ts : List (TestValues g.retType)} (h : List.Forall₂ Shows runs ts) :
    runs.map (·.text) = (ts.map (·.test g.name)).map Test.text ∧ ∀ t ∈ ts, t.inputs.map (·.1) = inputs := by
  induction h with
  | nil => exact ⟨rfl, List.forall_mem_nil _⟩
  | cons ht _ ih => exact ⟨congrArg₂ List.cons ht.text ih.1, List.forall_mem_cons.mpr ⟨ht.symbols, ih.2⟩⟩

end GatheredRun

/-! ## The document -/

section

variable {g : FunctionNode Symbol} {inputs : List Symbol}

theorem TestValues.printed {t : TestValues g.retType} (hname : IsIdent g.name) (hnames : ∀ s ∈ inputs, IsIdent s.name)
    (hin : ∀ s ∈ inputs, s.type.scalar ≠ .string) (hret : g.retType.scalar ≠ .string) (ht : t.inputs.map (·.1) = inputs) :
    ∀ m ∈ (t.test g.name).members, m.Printed := by
  rw [Test.members, List.forall_mem_append, TestValues.test, List.forall_mem_map, List.forall_mem_singleton]
  refine ⟨fun v hv => ?_, gatheredMember_printed hname hret⟩
  have hmem : v.1 ∈ inputs := ht ▸ List.mem_map_of_mem hv
  exact serializedMember_printed (hnames v.1 hmem) (hin v.1 hmem)

theorem TestValues.balanced_iff {t : TestValues g.retType} :
    (∀ m ∈ (t.test g.name).members, Json.brackets m.tokens = 0) ↔
      ∀ v ∈ t.inputs, NonemptyArrays v.1.type.scalar v.1.type.nested v.2 := by
  rw [Test.members, List.forall_mem_append, TestValues.test, List.forall_mem_map, List.forall_mem_singleton]
  simp only [serializedMember_balanced_iff, gatheredMember_balanced, and_true]

/-- **The document of a run of tests decodes to their values** exactly if no
input has an array without elements; the results may. -/
theorem gathered_document_iff (hname : IsIdent g.name) (hnames : ∀ s ∈ inputs, IsIdent s.name)
    (hin : ∀ s ∈ inputs, s.type.scalar ≠ .string) (hret : g.retType.scalar ≠ .string) {runs : List (GatheredRun g inputs)}
    {ts : List (TestValues g.retType)} (h : List.Forall₂ GatheredRun.Shows runs ts) :
    (∀ v, Json.Document (generateJson (runs.map (·.text))).toList v ↔ v = documentJson (ts.map (·.json g.name))) ↔
      ∀ t ∈ ts, ∀ v ∈ t.inputs, NonemptyArrays v.1.type.scalar v.1.type.nested v.2 := by
  obtain ⟨htexts, hsymbols⟩ := GatheredRun.texts h
  have hjson : (ts.map (·.test g.name)).map Test.json = ts.map (·.json g.name) := by
    rw [List.map_map]
    exact List.map_congr_left fun t _ => t.test_json g.name
  have hdoc := @document_iff (ts.map (·.test g.name)) (List.forall_mem_map.mpr fun t ht =>
    t.printed hname hnames hin hret (hsymbols t ht))
  rw [htexts, ← hjson, hdoc, List.forall_mem_map]
  simp only [TestValues.balanced_iff]

/-- **With scalars as inputs the document decodes to the tests**, one for each
run, and each with the values of its run, whatever is returned. -/
theorem scalar_inputs_decode (hname : IsIdent g.name) (hnames : ∀ s ∈ inputs, IsIdent s.name)
    (hin : ∀ s ∈ inputs, s.type.nested = 0 ∧ s.type.scalar ≠ .string) (hret : g.retType.scalar ≠ .string)
    (runs : List (GatheredRun g inputs)) :
    (∃! ts, List.Forall₂ GatheredRun.Shows runs ts) ∧ ∀ ts, List.Forall₂ GatheredRun.Shows runs ts →
      ∀ v, Json.Document (generateJson (runs.map (·.text))).toList v ↔ v = documentJson (ts.map (·.json g.name)) := by
  refine ⟨GatheredRun.exists_values runs, fun ts h => ?_⟩
  refine (gathered_document_iff hname hnames (fun s hs => (hin s hs).2) hret h).mpr fun t ht v hv => ?_
  have hmem : v.1 ∈ inputs := (GatheredRun.texts h).2 t ht ▸ List.mem_map_of_mem hv
  have hscalar : v.1.type.nested = 0 := (hin v.1 hmem).1
  obtain ⟨⟨ref, pos, ⟨scalar, nested⟩, name⟩, c⟩ := v
  obtain rfl : nested = 0 := hscalar
  trivial

end

namespace Sample

/-- `int a`. -/
def numberA : Symbol := ⟨.input 0, ⟨1, 0⟩, ⟨.int, 0⟩, "a"⟩

/-- The code of `return a`. -/
def storeA : Op := .store ⟨.randGen numberA (.int 32), .alloca none (.int 32)⟩

/-- A test of `int f(int a) { return a }` in which 7 is drawn. -/
theorem gathers_seven : ∃ (g : FunctionNode Symbol) (r : GatheredRun g [numberA]),
    (echo ⟨.int, 0⟩).accept = .ok (g, [numberA]) ∧ g.name = "f" ∧ g.retType = ⟨.int, 0⟩ ∧
      r.text = "\x7b\n\t\t\"a\": 7,\n\t\t\"f\": 7\n\t\x7d" := by
  have hrun : ((do runOps [storeA]; gatherRes "f" ⟨.int, 0⟩ ⟨1, 0⟩ : M String) (World.start (Sample.draws 7) [numberA])).map (·.1) =
      .ok "\x7b\n\t\t\"a\": 7,\n\t\t\"f\": 7\n\t\x7d" := by decide +kernel
  obtain ⟨⟨text, w'⟩, hw', htext⟩ := Except.map_ok_iff.mp hrun
  obtain ⟨_, w, hw, hgather⟩ := bind_ok_iff.mp hw'
  obtain ⟨g, haccept, hname, hret⟩ : ∃ g, (echo ⟨.int, 0⟩).accept = .ok (g, [numberA]) ∧ g.name = "f" ∧ g.retType = ⟨.int, 0⟩ :=
    ⟨_, rfl, rfl, rfl⟩
  have hreached : w.Reached g [numberA] := (World.Reached.start _).run (fun op hop => by
    obtain rfl := List.mem_singleton.mp hop
    trivial) hw
  exact ⟨g, ⟨w, ⟨1, 0⟩, text, w', hreached, by rw [hname, hret]; exact hgather⟩, haccept, hname, hret, htext⟩

end Sample

/-- No run, and one. -/
theorem scalar_inputs_decode_seven : ∃ (g : FunctionNode Symbol) (r : GatheredRun g [Sample.numberA]),
    (Sample.echo ⟨.int, 0⟩).accept = .ok (g, [Sample.numberA]) ∧
    r.text = "\x7b\n\t\t\"a\": 7,\n\t\t\"f\": 7\n\t\x7d" ∧ ∀ runs ∈ [[], [r]],
      (∃! ts, List.Forall₂ GatheredRun.Shows runs ts) ∧ ∀ ts, List.Forall₂ GatheredRun.Shows runs ts →
        ∀ v, Json.Document (generateJson (runs.map (·.text))).toList v ↔ v = documentJson (ts.map (·.json g.name)) := by
  obtain ⟨g, r, haccept, hname, hret, htext⟩ := Sample.gathers_seven
  have hident : ∀ name ∈ ["f", "a"], IsIdent name := by
    simp only [List.forall_mem_cons, List.not_mem_nil, false_implies, implies_true, and_true]
    exact ⟨⟨'f', [], rfl, rfl, List.forall_mem_singleton.mpr (.inl rfl)⟩,
      ⟨'a', [], rfl, rfl, List.forall_mem_singleton.mpr (.inl rfl)⟩⟩
  refine ⟨g, r, haccept, htext, fun runs _ => scalar_inputs_decode ?_ ?_ ?_ ?_ runs⟩
  · exact hname ▸ hident "f" (by decide)
  · exact List.forall_mem_singleton.mpr (hident "a" (by decide))
  · exact List.forall_mem_singleton.mpr ⟨rfl, by decide⟩
  · rw [hret]
    decide

end DGen
