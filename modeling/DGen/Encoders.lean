/-
The two encoders of a test (`gather_res`, `gather_rec`): an input's field is
serialized from its symbols, and the returned value's is read from memory.

They write the same but for an array without elements: `gather_rec` closes
the bracket it opened, and `serialize` overwrites it (`encoders_agree_iff`).
-/
import DGen.Copies
import DGen.LlvmTypes

namespace DGen

open Memory StateT

/-! ## `gather_rec` -/

/-- The loop over the elements of an array, each `typeSize` bytes, with a comma after all but the last. -/
def gatherElems (gather : Ptr → M String) (typeSize : Nat) : Nat → Ptr → M String
  | 0, _ => return ""
  | k + 1, p => do
    let s ← gather p
    let rest ← gatherElems gather typeSize k (p.add typeSize)
    return s ++ (if k = 0 then "" else ",") ++ rest

def loadInt32 (p : Ptr) : M (BitVec 32) := do
  match ← loadMem .int32 p with
  | .int32 num => return num
  | _ => fault .undefined

def loadInt8 (p : Ptr) : M (BitVec 8) := do
  match ← loadMem .int8 p with
  | .int8 ch => return ch
  | _ => fault .undefined

/-- The bytes of `std::string(str_ptr, size)`. -/
def loadChars : Nat → Ptr → M (List Char)
  | 0, _ => return []
  | k + 1, p => do
    let ch ← loadInt8 p
    let rest ← loadChars k (p.add 1)
    return Char.ofNat ch.toNat :: rest

/-- `gather_rec` of a value of a scalar type. -/
def gatherScalar (s : ScalarType) (res : Ptr) : M String :=
  match s with
  | .int => do return toString (← loadInt32 res).toInt
  | .string => do
    let strPtr ← asPtr (← loadMem .ptr res)
    let size := (← getAlloc strPtr).size
    return "\"" ++ String.ofList (← loadChars size.toNat strPtr) ++ "\""
  | .char => do return toString (← loadInt8 res).toInt
  | .bool => do return if (← loadInt8 res) != 0 then "true" else "false"

/-- `gather_rec`. -/
def gatherRec (s : ScalarType) : Nat → Ptr → M String
  | 0, res => gatherScalar s res
  | n + 1, res => do
    let arrPtr ← asPtr (← loadMem .ptr res)
    let size := (← getAlloc arrPtr).size
    let tmp ← gatherElems (gatherRec s n) (⟨s, n⟩ : DeclTy).newSym.sizeof size.toNat arrPtr
    return "[" ++ tmp ++ "]"

/-! ## `gather_res` -/

/-- The inputs' fields: names and texts. -/
def gatherInputs : List SymId → M (List (String × String))
  | [] => return []
  | id :: ids => do
    let name := (← getSym id).name
    let text ← serialize id
    let rest ← gatherInputs ids
    return (name, text) :: rest

/-- The parts of a test: the inputs' fields, and the text of what is returned. -/
def gatherFields (retType : DeclTy) (res : Ptr) : M (List (String × String) × String) := do
  let fields ← gatherInputs (← get).inputs
  let resStr ← gatherRec retType.scalar retType.nested res
  return (fields, resStr)

/-- `gather_res`: the text of a test. -/
def gatherRes (name : String) (retType : DeclTy) (res : Ptr) : M String := do
  let (fields, resStr) ← gatherFields retType res
  let inputs := fields.map fun field => "\t\t\"" ++ field.1 ++ "\": " ++ field.2 ++ ",\n"
  return "\x7b\n" ++ String.join inputs ++ "\t\t\"" ++ name ++ "\": " ++ resStr ++ "\n\t\x7d"

/-- A `return` as its code runs: the value is stored, and gatheredText from there. -/
def execReturn (retType : DeclTy) (st : LStore) : M (List (String × String) × String) := do
  let resPtr ← asPtr (← st.addr.eval)
  storeMem resPtr (← st.val.eval)
  gatherFields retType resPtr

/-! ## The texts of contents -/

/-- Texts with a comma after all but the last. -/
def commaBetween : List String → String
  | [] => ""
  | t :: ts => t ++ (if ts = [] then "" else ",") ++ commaBetween ts

/-- The text of a content in the test's last field. -/
def gatheredText (s : ScalarType) : (n : Nat) → Content s n → String
  | 0, v => s.text v
  | n + 1, cs => "[" ++ commaBetween (List.map (gatheredText s n) cs) ++ "]"

/-- No array in a content is without elements. Strings are none. -/
def NonemptyArrays (s : ScalarType) : (n : Nat) → Content s n → Prop
  | 0, _ => True
  | n + 1, cs => cs ≠ [] ∧ ∀ c ∈ cs, NonemptyArrays s n c

/-- The arrays without elements. -/
def emptyArrays (s : ScalarType) : (n : Nat) → Content s n → Nat
  | 0, _ => 0
  | n + 1, cs => if cs = [] then 1 else (List.map (emptyArrays s n) cs).sum

theorem emptyArrays_eq_zero_iff {s : ScalarType} : ∀ {n : Nat} {c : Content s n},
    emptyArrays s n c = 0 ↔ NonemptyArrays s n c
  | 0, _ => by simp [emptyArrays, NonemptyArrays]
  | n + 1, cs => by
    rw [emptyArrays, NonemptyArrays]
    split
    next hnil => simp [hnil]
    next hne =>
      simp only [List.sum_eq_zero_iff, List.forall_mem_map, emptyArrays_eq_zero_iff]
      exact ⟨fun h => ⟨hne, h⟩, fun h => h.2⟩

theorem commaBetween_singleton (t : String) : commaBetween [t] = t := by simp [commaBetween]

theorem commaBetween_cons_cons (t u : String) (ts : List String) :
    commaBetween (t :: u :: ts) = t ++ "," ++ commaBetween (u :: ts) := by
  rw [commaBetween, if_neg (List.cons_ne_nil u ts)]

theorem commaEach_cons (t : String) (ts : List String) : commaEach (t :: ts) = t ++ "," ++ commaEach ts := by
  simp [commaEach, String.append_assoc]

theorem commaEach_eq {ts : List String} (h : ts ≠ []) : commaEach ts = commaBetween ts ++ "," := by
  induction ts with
  | nil => exact absurd rfl h
  | cons t ts ih =>
    cases ts with
    | nil => simp [commaEach, commaBetween]
    | cons u ts =>
      rw [commaEach_cons, ih (List.cons_ne_nil u ts), commaBetween_cons_cons]
      simp only [String.append_assoc]

theorem closeBracket_comma (s : String) : closeBracket (s ++ ",") = s ++ "]" := by
  apply String.toList_injective
  simp [closeBracket]

/-- On an array with elements the encoders write the same brackets and commas. -/
theorem closeBracket_commaEach {ts : List String} (h : ts ≠ []) :
    closeBracket ("[" ++ commaEach ts) = "[" ++ commaBetween ts ++ "]" := by
  rw [commaEach_eq h, ← String.append_assoc, closeBracket_comma]

theorem length_commaBetween {ts : List String} (h : ts ≠ []) :
    (commaBetween ts).length + 1 = (ts.map fun t => t.length + 1).sum := by
  induction ts with
  | nil => exact absurd rfl h
  | cons t ts ih =>
    cases ts with
    | nil => simp [commaBetween]
    | cons u ts =>
      rw [commaBetween_cons_cons, List.map_cons, List.sum_cons, ← ih (List.cons_ne_nil u ts)]
      simp only [String.length_append]
      have : ",".length = 1 := rfl
      omega

theorem serialized_cons {s : ScalarType} {n : Nat} {cs : Content s (n + 1)} (h : cs ≠ []) :
    serializedText s (n + 1) cs = "[" ++ commaBetween (List.map (serializedText s n) cs) ++ "]" :=
  closeBracket_commaEach (by simpa using h)

/-- What `serialize` leaves out: the opening bracket of an array without elements. -/
theorem length_serialized {s : ScalarType} : ∀ {n : Nat} (c : Content s n),
    (serializedText s n c).length + emptyArrays s n c = (gatheredText s n c).length
  | 0, _ => rfl
  | n + 1, cs => by
    by_cases hne : cs = []
    · subst hne
      have hser : serializedText s (n + 1) [] = "]" := by simp [serializedText, commaEach, closeBracket]
      have hgat : gatheredText s (n + 1) [] = "[]" := by simp [gatheredText, commaBetween]
      rw [hser, hgat]
      rfl
    · have hser := @length_commaBetween (List.map (serializedText s n) cs) (by simpa using hne)
      have hgat := @length_commaBetween (List.map (gatheredText s n) cs) (by simpa using hne)
      have hsum : (List.map (fun c => (gatheredText s n c).length + 1) cs).sum =
          (List.map (fun c => (serializedText s n c).length + 1) cs).sum + (List.map (emptyArrays s n) cs).sum := by
        rw [← List.sum_map_add]
        congr 2
        funext c
        have := length_serialized c
        omega
      rw [List.map_map] at hser hgat
      rw [serialized_cons hne, gatheredText, emptyArrays, if_neg hne]
      simp only [String.length_append]
      simp only [Function.comp_def] at hser hgat
      omega

/-- **The encoders write the same text** of a content exactly if no array in it is without elements. -/
theorem serialized_eq_gathered_iff {s : ScalarType} {n : Nat} {c : Content s n} :
    serializedText s n c = gatheredText s n c ↔ NonemptyArrays s n c := by
  constructor
  · intro h
    have hlen := length_serialized c
    rw [h] at hlen
    exact emptyArrays_eq_zero_iff.mp (by omega)
  · intro h
    induction n with
    | zero => rfl
    | succ n ih =>
      obtain ⟨hne, hall⟩ := h
      rw [serialized_cons hne, gatheredText, List.map_congr_left fun c hc => ih (hall c hc)]

/-! ## Reading a content back -/

section

variable {w : World} {lo hi : Nat}

theorem getAlloc_of_some {p : Ptr} {d : AllocData} (h : w.alloc? p = some d) : getAlloc p w = .ok (d, w) := by
  obtain ⟨⟨q, d⟩, hfind, rfl⟩ := Option.map_eq_some_iff.mp h
  simp [getAlloc, hfind]

theorem loadMem_of_some {c : Chunk} {p : Ptr} {v : Val} (h : w.mem.load c p = some v) : loadMem c p w = .ok (v, w) :=
  loadMem_ok_iff.mpr ⟨h, rfl⟩

theorem loadInt8_of_some {p : Ptr} {ch : BitVec 8} (h : w.mem.load .int8 p = some (.int8 ch)) :
    loadInt8 p w = .ok (ch, w) := bind_of_ok (loadMem_of_some h)

theorem loadInt32_of_some {p : Ptr} {num : BitVec 32} (h : w.mem.load .int32 p = some (.int32 num)) :
    loadInt32 p w = .ok (num, w) := bind_of_ok (loadMem_of_some h)

theorem gatherElems_eq {α : Type} {gather : Ptr → M String} {text : α → String} {size b : Nat} {cs : List α} :
    ∀ {k : Nat}, (∀ i c, cs[i]? = some c → gather ⟨b, ((k + i) * size : Nat)⟩ w = .ok (text c, w)) →
      gatherElems gather size cs.length ⟨b, (k * size : Nat)⟩ w = .ok (commaBetween (cs.map text), w) := by
  induction cs with
  | nil => exact fun _ => rfl
  | cons c cs ih =>
    intro k h
    have hrest := ih (k := k + 1) fun i c' hc' => by
      have := h (i + 1) c' hc'
      rwa [← Nat.succ_add_eq_add_succ] at this
    have hfirst := h 0 c rfl
    rw [Nat.add_zero] at hfirst
    rw [List.length_cons, gatherElems, bind_of_ok hfirst, Ptr.mul_add, bind_of_ok hrest, pure_apply, List.map_cons,
      commaBetween]
    simp [List.length_eq_zero_iff]

theorem loadChars_eq {b : Nat} {chs : List (BitVec 8)} : ∀ {k : Nat},
    (∀ i ch, chs[i]? = some ch → w.mem.load .int8 ⟨b, (k + i : Nat)⟩ = some (.int8 ch)) →
      loadChars chs.length ⟨b, k⟩ w = .ok (chs.map fun ch => Char.ofNat ch.toNat, w) := by
  induction chs with
  | nil => exact fun _ => rfl
  | cons ch chs ih =>
    intro k h
    have hrest := ih (k := k + 1) fun i ch' hc' => by
      have := h (i + 1) ch' hc'
      rwa [← Nat.succ_add_eq_add_succ] at this
    have hfirst := h 0 ch rfl
    rw [Nat.add_zero] at hfirst
    rw [List.length_cons, loadChars, bind_of_ok (loadInt8_of_some hfirst), Ptr.add]
    exact bind_of_ok hrest

/-- `gather_rec` of a value that stands for a content gives its text, and changes nothing. -/
theorem gatherRec_eq {s : ScalarType} : ∀ {n : Nat} {c : Content s n} {v : Val} {p : Ptr},
    w.mem.load (⟨s, n⟩ : DeclTy).chunk p = some v → Represents w lo hi s n c v →
      gatherRec s n p w = .ok (gatheredText s n c, w)
  | 0, c, v, p, hload, hrep => by
    cases s with
    | int =>
      obtain rfl := hrep
      exact bind_of_ok (loadInt32_of_some hload)
    | char =>
      obtain rfl := hrep
      exact bind_of_ok (loadInt8_of_some hload)
    | bool =>
      obtain rfl := hrep
      refine (bind_of_ok (loadInt8_of_some hload)).trans ?_
      rw [ofNat_toNat_ne_zero]
      rfl
    | string =>
      obtain ⟨b, d, rfl, -, -, hd, hlen, helems⟩ := hrep
      have hchars := @loadChars_eq w b c 0 fun i ch hch => by
        obtain ⟨u, hu, rfl⟩ := helems i ch hch
        rw [Nat.zero_add]
        exact Nat.mul_one i ▸ hu
      rw [← hlen] at hchars
      have hload : w.mem.load .ptr p = some (.ptr ⟨b, 0⟩) := hload
      have hptr : asPtr (.ptr ⟨b, 0⟩) w = .ok (⟨b, 0⟩, w) := rfl
      rw [gatherRec, gatherScalar, bind_of_ok (loadMem_of_some hload), bind_of_ok hptr,
        bind_of_ok (getAlloc_of_some hd)]
      exact bind_of_ok hchars
  | n + 1, cs, v, p, hload, hrep => by
    obtain ⟨b, d, rfl, -, -, hd, hlen, helems⟩ := hrep
    have hcells := @gatherElems_eq w _ (gatherRec s n) (gatheredText s n) (⟨s, n⟩ : DeclTy).newSym.sizeof b cs 0
      fun i c hc => by
        obtain ⟨u, hu, hrepu⟩ := helems i c hc
        rw [Nat.zero_add, SymVal.sizeof_eq]
        exact gatherRec_eq hu hrepu
    rw [← hlen, Nat.zero_mul] at hcells
    rw [DeclTy.chunk, DeclTy.newSym_succ] at hload
    have hload : w.mem.load .ptr p = some (.ptr ⟨b, 0⟩) := hload
    have hptr : asPtr (.ptr ⟨b, 0⟩) w = .ok (⟨b, 0⟩, w) := rfl
    rw [gatherRec, bind_of_ok (loadMem_of_some hload), bind_of_ok hptr, bind_of_ok (getAlloc_of_some hd)]
    exact bind_of_ok hcells

end

/-! ## The fields of the inputs -/

/-- Runs that leave the program's memory and the table alone. -/
def LeavesMem {α : Type} (x : M α) : Prop :=
  ∀ ⦃w a w'⦄, x w = .ok (a, w') → w'.mem = w.mem ∧ w'.allocatedVals = w.allocatedVals

namespace LeavesMem

variable {α β : Type} {x : M α} {f : α → M β}

theorem bind (hx : LeavesMem x) (hf : ∀ a, LeavesMem (f a)) : LeavesMem (x >>= f) := by
  intro w b w' h
  obtain ⟨a, w₁, h₁, h₂⟩ := bind_ok_iff.mp h
  obtain ⟨hmem₁, htable₁⟩ := hx h₁
  obtain ⟨hmem₂, htable₂⟩ := hf a h₂
  exact ⟨hmem₂.trans hmem₁, htable₂.trans htable₁⟩

theorem pure {a : α} : LeavesMem (pure a : M α) := by
  intro w b w' h
  obtain ⟨-, rfl⟩ := pure_ok_iff.mp h
  exact ⟨rfl, rfl⟩

theorem fault {e : Fault} : LeavesMem (DGen.fault e : M α) := by
  intro w a w' h
  simp at h

theorem getSym {id : SymId} : LeavesMem (getSym id) := by
  intro w o w' h
  obtain ⟨-, rfl⟩ := getSym_ok_iff.mp h
  exact ⟨rfl, rfl⟩

theorem scalarRandGen {cls : SymVal → Option (Option α)} {put : α → SymVal} {draw : Nat → α} {sym : SymId} :
    LeavesMem (scalarRandGen cls put draw sym) := by
  intro w v w' h
  obtain ⟨_, -, ⟨-, rfl⟩ | ⟨-, -, rfl⟩⟩ := scalarRandGen_ok_iff.mp h <;> exact ⟨rfl, rfl⟩

theorem getSize {arr : SymId} : LeavesMem (getSize arr) := by
  intro w size w' h
  obtain ⟨_, _, _, _, -, ⟨-, rfl⟩ | ⟨-, -, rfl⟩⟩ := getSize_ok_iff.mp h <;> exact ⟨rfl, rfl⟩

theorem serializeElems {f : SymId → M String} (hf : ∀ sym, LeavesMem (f sym)) :
    ∀ {elems : List SymId}, LeavesMem (serializeElems f elems)
  | [] => pure
  | sym :: _ => (hf sym).bind fun _ => (serializeElems hf).bind fun _ => pure

theorem serializeChars : ∀ {elems : List SymId}, LeavesMem (serializeChars elems)
  | [] => pure
  | _ :: _ => scalarRandGen.bind fun _ => serializeChars.bind fun _ => pure

theorem serializeBy {f : SymId → M String} (hf : ∀ sym, LeavesMem (f sym)) {sym : SymId} :
    LeavesMem (serializeBy f sym) := by
  refine getSym.bind fun o => ?_
  split
  · exact scalarRandGen.bind fun _ => pure
  · exact scalarRandGen.bind fun _ => pure
  · exact (scalarRandGen.bind fun _ => pure).bind fun _ => pure
  · refine getSize.bind fun _ => getSym.bind fun o => ?_
    split
    · exact serializeChars.bind fun _ => pure
    · exact fault
  · refine getSize.bind fun _ => getSym.bind fun o => ?_
    split
    · exact (serializeElems hf).bind fun _ => pure
    · exact fault

theorem serializeDepth : ∀ {n : Nat} {sym : SymId}, LeavesMem (serializeDepth n sym)
  | 0, _ => serializeBy fun _ => fault
  | _ + 1, _ => serializeBy fun _ => serializeDepth

theorem serialize {sym : SymId} : LeavesMem (serialize sym) := by
  refine getSym.bind fun o => ?_
  split <;> exact serializeDepth

theorem gatherInputs : ∀ {ids : List SymId}, LeavesMem (gatherInputs ids)
  | [] => pure
  | _ :: _ => getSym.bind fun _ => serialize.bind fun _ => gatherInputs.bind fun _ => pure

end LeavesMem

theorem gatherInputs_generates : ∀ {ids : List SymId}, Generates (gatherInputs ids)
  | [] => .pure fun _ => trivial
  | _ :: _ => getSym_generates.bind fun _ => serialize_generates.bind fun _ =>
    gatherInputs_generates.map fun _ _ _ => trivial

/-- The field of an input has the text of its content. -/
theorem gatherInputs_holds {s : ScalarType} {n : Nat} {id : SymId} {ids : List SymId} : ∀ {i : Nat} {w w' : World}
    {fields : List (String × String)}, gatherInputs ids w = .ok (fields, w') → w.Ok → ids[i]? = some id →
      w.Typed ⟨s, n⟩ id → ∃ name c, fields[i]? = some (name, serializedText s n c) ∧ Holds w'.syms s n c id := by
  induction ids with
  | nil =>
    intro i w w' fields _ _ hi
    simp at hi
  | cons id' ids ih =>
    intro i w w' fields h hok hi ht
    obtain ⟨o, _, hget, h⟩ := bind_ok_iff.mp h
    obtain ⟨-, rfl⟩ := getSym_ok_iff.mp hget
    obtain ⟨text, w₁, hser, h⟩ := bind_ok_iff.mp h
    obtain ⟨rest, w₂, hrest, h⟩ := bind_ok_iff.mp h
    obtain ⟨rfl, rfl⟩ := pure_ok_iff.mp h
    have hs₁ := (serialize_generates hser hok).1
    have hl₂ := (gatherInputs_generates hrest (hs₁.ok hok)).1.later (hs₁.ok hok)
    cases i with
    | zero =>
      obtain rfl := Option.some.inj hi
      obtain ⟨c, hc, rfl⟩ := serialize_holds hser hok ht
      exact ⟨o.name, c, rfl, hc.later hl₂⟩
    | succ i =>
      have hi : ids[i]? = some id := hi
      obtain ⟨name, c, hfield, hc⟩ := ih hrest (hs₁.ok hok) hi ((hs₁.later hok).typed ht)
      exact ⟨name, c, hfield, hc⟩

theorem forall₂_unique {α β : Type} {r : α → β → Prop} (hr : ∀ a a' b, r a b → r a' b → a = a') {as as' : List α}
    {bs : List β} (h : List.Forall₂ r as bs) : List.Forall₂ r as' bs → as = as' := by
  induction h generalizing as' with
  | nil =>
    intro h'
    cases h'
    rfl
  | cons ha _ ih =>
    intro h'
    cases h' with
    | cons ha' h' => rw [hr _ _ _ ha ha', ih h']

theorem HoldsArray.unique {α : Type} {syms : Nat → Option SymObj} {type : ArrType} {holds : α → SymId → Prop}
    {cs cs' : List α} {id : SymId} (h : HoldsArray syms type holds cs id) (h' : HoldsArray syms type holds cs' id)
    (hr : ∀ c c' e, holds c e → holds c' e → c = c') : cs = cs' := by
  obtain ⟨_, _, elems, ho, hall⟩ := h
  obtain ⟨_, _, elems', ho', hall'⟩ := h'
  cases ho.symm.trans ho'
  exact forall₂_unique hr hall hall'

theorem HoldsChar.unique {syms : Nat → Option SymObj} {ch ch' : BitVec 8} {id : SymId} (h : HoldsChar syms ch id)
    (h' : HoldsChar syms ch' id) : ch = ch' := by
  obtain ⟨_, ho⟩ := h
  obtain ⟨_, ho'⟩ := h'
  cases ho.symm.trans ho'
  rfl

/-- An input holds one content. -/
theorem Holds.unique {syms : Nat → Option SymObj} {s : ScalarType} : ∀ {n : Nat} {c c' : Content s n} {id : SymId},
    Holds syms s n c id → Holds syms s n c' id → c = c'
  | 0, c, c', id, h, h' => by
    cases s with
    | int | bool =>
      obtain ⟨_, ho⟩ := h
      obtain ⟨_, ho'⟩ := h'
      cases ho.symm.trans ho'
      rfl
    | char => exact HoldsChar.unique h h'
    | string => exact HoldsArray.unique h h' fun _ _ _ => HoldsChar.unique
  | _ + 1, _, _, _, h, h' => HoldsArray.unique h h' fun _ _ _ => Holds.unique

/-! ## Returning an input -/

theorem codeGenRetStore_input {a : Symbol} {n : ReturnNode Symbol} {node : ASTNode} {name : String} {st : LStore}
    (ha : a.isInput = true) (hexpr : n.expr = .ident ⟨node, name, a⟩) (h : codeGenRetStore a.type n = .ok [st]) :
    st = ⟨.randGen a a.type.llvm, .alloca none a.type.llvm⟩ := by
  have hgen : codeGenExpr n.expr = .ok (.randGen a a.type.llvm) := by
    rw [hexpr, codeGenExpr, codeGenIdent, if_pos ha, Symbol.randGenType_eq]
    rfl
  have hst : codeGenRetStore a.type n = .ok [⟨.randGen a a.type.llvm, .alloca none a.type.llvm⟩] := by
    rw [codeGenRetStore, mapTypeToLlvmType_toTy, hgen]
    rfl
  rw [hst] at h
  exact (List.singleton_inj.mp (Except.ok.inj h)).symm

/-- A run of `return a`, for the i-th input `a`: the fields, and the text of what is returned. -/
structure ReturnsInput (n : ReturnNode Symbol) (a : Symbol) (i : Nat) (id : SymId) (fields : List (String × String))
    (res : String) (w w' : World) : Prop where
  expr : ∃ node name, n.expr = .ident ⟨node, name, a⟩
  ref : a.ref = .input i
  input : w.inputs[i]? = some id
  typed : w.Typed a.type id
  run : ∃ st, codeGenRetStore a.type n = .ok [st] ∧ execReturn a.type st w = .ok ((fields, res), w')

/-- Gathering what an input was copied to, after the copy was stored. -/
theorem gatherFields_of_copy {s : ScalarType} {n i : Nat} {id : SymId} {p : Ptr} {v : Val}
    {fields : List (String × String)} {res : String} {w w₁ w₂ w' : World} (hok : w.Ok) (hdata : w.DataPtr p)
    (hid : w.inputs[i]? = some id) (ht : w.Typed ⟨s, n⟩ id) (hcopy : fillVal arrRandGen id w = .ok (v, w₁))
    (hst : storeMem p v w₁ = .ok ((), w₂)) (h : gatherFields ⟨s, n⟩ p w₂ = .ok ((fields, res), w')) :
    Later w w' ∧ ∃ name c, fields[i]? = some (name, serializedText s n c) ∧ res = gatheredText s n c ∧
      Holds w'.syms s n c id := by
  obtain ⟨hsame, hchunk, c, hc, hrep⟩ := fillVal_copies hcopy hok ht
  obtain ⟨hs₁, hval⟩ := fillVal_generates (fun _ => arrRandGen_generates) hcopy hok
  obtain ⟨hglobal, m, hm, rfl⟩ := (storeMem_ok_iff (hs₁.dataPtr hdata).1).mp hst
  have hs₂ : w.Steps { w₁ with mem := m } := hs₁.tail (.store (hs₁.dataPtr hdata) hglobal hval hm)
  have hok₂ := hs₂.ok hok
  have hload := Mem.load_store hm
  have hrep₂ := hrep.mono (.store hm (.inl hdata.2)) (Nat.le_refl _) (Nat.le_refl _)
  -- the inputs' fields leave the copy as it is
  obtain ⟨_, _, hg, h⟩ := bind_ok_iff.mp h
  obtain ⟨rfl, rfl⟩ := get_ok_iff.mp hg
  obtain ⟨fields', w₃, hin, h⟩ := bind_ok_iff.mp h
  obtain ⟨res', w₄, hres, h⟩ := bind_ok_iff.mp h
  obtain ⟨heq, rfl⟩ := pure_ok_iff.mp h
  obtain ⟨rfl, rfl⟩ := Prod.mk.inj heq
  obtain ⟨hmem, htable⟩ := LeavesMem.gatherInputs hin
  have hl₃ := (gatherInputs_generates hin hok₂).1.later hok₂
  have hid₂ : ({ w₁ with mem := m } : World).inputs[i]? = some id := (hs₂.later hok).inputs ▸ hid
  obtain ⟨name, c', hfield, hc'⟩ := gatherInputs_holds hin hok₂ hid₂ ((hs₂.later hok).typed ht)
  have hc₃ : Holds w₃.syms s n c id := Holds.later hl₃ hc
  obtain rfl := hc₃.unique hc'
  have hgather := gatherRec_eq (by rw [hmem, ← hchunk]; exact hload) (hrep₂.mono (.of_eq hmem htable) (Nat.le_refl _) (Nat.le_refl _))
  cases hgather.symm.trans hres
  exact ⟨(hs₂.later hok).trans hl₃, name, c, hfield, rfl, hc'⟩

/-- The field of `a` and the last one are texts of one content. -/
theorem ReturnsInput.texts {n : ReturnNode Symbol} {a : Symbol} {i : Nat} {id : SymId}
    {fields : List (String × String)} {res : String} {w w' : World} (h : ReturnsInput n a i id fields res w w')
    (hok : w.Ok) : Later w w' ∧ ∃ name c, fields[i]? = some (name, serializedText a.type.scalar a.type.nested c) ∧
      res = gatheredText a.type.scalar a.type.nested c ∧ Holds w'.syms a.type.scalar a.type.nested c id := by
  obtain ⟨node, name, hexpr⟩ := h.expr
  obtain ⟨st, hgen, hrun⟩ := h.run
  obtain rfl := codeGenRetStore_input (by rw [Symbol.isInput, h.ref]) hexpr hgen
  obtain ⟨addr, w₁, haddr, hrun⟩ := bind_ok_iff.mp hrun
  obtain ⟨q, _, hq, haddr⟩ := bind_ok_iff.mp haddr
  obtain ⟨rfl, rfl⟩ := pure_ok_iff.mp haddr
  obtain ⟨hs₁, hdata⟩ := newBlock_steps (by simp) hq hok
  obtain ⟨p, _, hp, hrun⟩ := bind_ok_iff.mp hrun
  obtain ⟨hqp, rfl⟩ := asPtr_ok_iff.mp hp
  obtain rfl := Val.ptr.inj hqp
  obtain ⟨v, w₂, hv, hrun⟩ := bind_ok_iff.mp hrun
  obtain ⟨id', _, hid, hcopy⟩ := bind_ok_iff.mp hv
  obtain ⟨⟨i', href, hid'⟩, rfl⟩ := inputId_ok_iff.mp hid
  obtain rfl := SymRef.input.inj (h.ref.symm.trans href)
  have hl₁ := hs₁.later hok
  obtain rfl := Option.some.inj (hid'.symm.trans (hl₁.inputs ▸ h.input))
  obtain ⟨_, w₃, hst, hgather⟩ := bind_ok_iff.mp hrun
  obtain ⟨hl₂, htexts⟩ := gatherFields_of_copy (hs₁.ok hok) hdata hid' (hl₁.typed h.typed) hcopy hst hgather
  exact ⟨hl₁.trans hl₂, htexts⟩

/-- **The field of an input and that of its returned copy are the same**
exactly if the input, whatever its type, has no array without elements. -/
theorem encoders_agree_iff {n : ReturnNode Symbol} {a : Symbol} {i : Nat} {id : SymId} {fields : List (String × String)}
    {res : String} {w w' : World} (hok : w.Ok) (h : ReturnsInput n a i id fields res w w') :
    ∃ name text, fields[i]? = some (name, text) ∧ (∃ c, Holds w'.syms a.type.scalar a.type.nested c id) ∧
      ∀ c, Holds w.syms a.type.scalar a.type.nested c id ∨ Holds w'.syms a.type.scalar a.type.nested c id →
        (text = res ↔ NonemptyArrays a.type.scalar a.type.nested c) := by
  obtain ⟨hl, name, c, hfield, rfl, hc⟩ := h.texts hok
  refine ⟨name, _, hfield, ⟨c, hc⟩, fun c' hc' => ?_⟩
  obtain rfl := hc.unique (hc'.elim (Holds.later hl) fun hc' => hc')
  exact serialized_eq_gathered_iff

namespace Sample

/-- `T f(T a) { return a }`. -/
def echo (T : DeclTy) : FunctionNode Unit where
  node := node 0
  retType := T
  name := "f"
  args := [param 1 "a" T]
  body := [ret 2 (ident 3 "a")]
  distinct := by decide

/-- `int[] a`. -/
def arrayA : Symbol := ⟨.input 0, ⟨1, 0⟩, ⟨.int, 1⟩, "a"⟩

/-- A test of `int[] f(int[] a) { return a }` in which the length drawn is 0. -/
theorem echo_empty : ∃ g n fields res w', (echo ⟨.int, 1⟩).accept = .ok (g, [arrayA]) ∧ g.body = [.ret n] ∧
    g.retType = arrayA.type ∧ ReturnsInput n arrayA 0 0 fields res (World.start (Sample.draws 0) [arrayA]) w' ∧
      Holds w'.syms .int 1 [] 0 := by
  refine ⟨_, _, _, _, _, rfl, rfl, rfl, ⟨⟨_, _, rfl⟩, rfl, rfl, ⟨by decide, fun o ho => ?_⟩, _, rfl, rfl⟩,
    _, _, _, rfl, .nil⟩
  cases ho
  rfl

end Sample

theorem encoders_agree_iff_echo : ∃ n fields res w',
    ReturnsInput n Sample.arrayA 0 0 fields res (World.start (Sample.draws 0) [Sample.arrayA]) w' ∧
      ∃ name text, fields[0]? = some (name, text) ∧ (∃ c, Holds w'.syms .int 1 c 0) ∧
        ∀ c, Holds (World.start (Sample.draws 0) [Sample.arrayA]).syms .int 1 c 0 ∨ Holds w'.syms .int 1 c 0 →
          (text = res ↔ NonemptyArrays .int 1 c) := by
  obtain ⟨g, n, fields, res, w', -, -, -, h, -⟩ := Sample.echo_empty
  exact ⟨n, fields, res, w', h, encoders_agree_iff (World.start_ok _ _) h⟩

/-- An input without elements: `]` and `[]`. -/
theorem emptyArray_disagrees : ¬ ∀ (f : FunctionNode Unit) (g : FunctionNode Symbol) (n : ReturnNode Symbol) (a : Symbol)
    (env : Env) (fields : List (String × String)) (res : String) (w' : World), f.accept = .ok (g, [a]) →
      g.body = [.ret n] → g.retType = a.type → ReturnsInput n a 0 0 fields res (World.start env [a]) w' →
        ∃ name, fields[0]? = some (name, res) := by
  intro hall
  obtain ⟨g, n, fields, res, w', haccept, hbody, htype, h, hempty⟩ := Sample.echo_empty
  obtain ⟨-, name, c, hfield, hres, hc⟩ := h.texts (World.start_ok _ _)
  obtain ⟨name', hfield'⟩ := hall _ g n _ _ fields res w' haccept hbody htype h
  have htext : serializedText .int 1 c = gatheredText .int 1 c := by
    have := hfield.symm.trans hfield'
    simp only [Option.some.injEq, Prod.mk.injEq] at this
    exact this.2.trans hres
  obtain rfl := hempty.unique hc
  exact (serialized_eq_gathered_iff.mp htext).1 rfl

end DGen
