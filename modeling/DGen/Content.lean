/-
What an input holds once all of it is determined: a value of its type, with
lists for its arrays.

Serializing an input, or copying it, determines the rest of it; then its text
is its content's, and the copy in memory represents the content.
-/
import DGen.Later

namespace DGen

open Memory StateT

/-! ## Contents -/

/-- The values of a scalar type. A string's are its characters. -/
abbrev ScalarType.Value : ScalarType → Type
  | .int => BitVec 32
  | .string => List (BitVec 8)
  | .char => BitVec 8
  | .bool => Bool

/-- The contents of an input of a type, nested `n` times. -/
abbrev Content (s : ScalarType) : Nat → Type
  | 0 => s.Value
  | n + 1 => List (Content s n)

/-- An array has its length, and its elements hold these contents. -/
def HoldsArray {α : Type} (syms : Nat → Option SymObj) (type : ArrType) (holds : α → SymId → Prop) (cs : List α)
    (id : SymId) : Prop :=
  ∃ name size elems, syms id = some ⟨name, .array type (some size) elems⟩ ∧ List.Forall₂ holds cs elems

def HoldsChar (syms : Nat → Option SymObj) (ch : BitVec 8) (id : SymId) : Prop :=
  ∃ name, syms id = some ⟨name, .char (some ch)⟩

def ScalarType.Holds (syms : Nat → Option SymObj) : (s : ScalarType) → s.Value → SymId → Prop
  | .int, num, id => ∃ name, syms id = some ⟨name, .number (some num)⟩
  | .string, chs, id => HoldsArray syms .string (HoldsChar syms) chs id
  | .char, ch, id => HoldsChar syms ch id
  | .bool, val, id => ∃ name, syms id = some ⟨name, .bool (some val)⟩

/-- An input, a symbol with its elements and theirs, holds a content. -/
def Holds (syms : Nat → Option SymObj) (s : ScalarType) : (n : Nat) → Content s n → SymId → Prop
  | 0, v, id => s.Holds syms v id
  | n + 1, cs, id => HoldsArray syms (.arr ⟨s, n⟩) (Holds syms s n) cs id

/-- A symbol of a type's class, if it is there. -/
def World.Typed (w : World) (t : DeclTy) (id : Nat) : Prop :=
  id < w.next ∧ ∀ o, w.syms id = some o → o.val.cls = t.newSym

section

variable {w w' : World}

theorem Later.val_eq (h : Later w w') {id : Nat} {o : SymObj} (ho : w.syms id = some o)
    (hdet : o.val.determined = true) :
    ∃ name, w'.syms id = some ⟨name, o.val⟩ := by
  obtain ⟨⟨name, val⟩, ho', -, hval, -⟩ := h.kept id o ho
  obtain rfl : val = o.val := hval hdet
  exact ⟨name, ho'⟩

theorem Later.typed (h : Later w w') {t : DeclTy} {id : Nat} (ht : w.Typed t id) : w'.Typed t id := by
  refine ⟨Nat.lt_of_lt_of_le ht.1 h.next, fun o' ho' => ?_⟩
  cases ho : w.syms id with
  | none => exact absurd ht.1 (Nat.not_lt.mpr (h.new id o' ho ho').1)
  | some o =>
    obtain ⟨o'', ho'', hcls, -⟩ := h.kept id o ho
    obtain rfl := Option.some.inj (ho''.symm.trans ho')
    exact hcls.trans (ht.2 o ho)

theorem World.Ok.typed_elem (hok : w.Ok) {id : Nat} {name : String} {type : ArrType} {size : Option (BitVec 32)}
    {elems : List SymId} (ho : w.syms id = some ⟨name, .array type size elems⟩) {e : Nat} (he : e ∈ elems) :
    w.Typed type.elem e :=
  ⟨(hok.tree.child id e (mem_elemsOf_iff.mpr ⟨_, ho, he⟩)).1, hok.tree.typed id name type size elems ho e he⟩

theorem HoldsArray.later {α : Type} {type : ArrType} {holds holds' : α → SymId → Prop} {cs : List α} {id : SymId}
    (h : HoldsArray w.syms type holds cs id) (hl : Later w w') (himp : ∀ c e, holds c e → holds' c e) :
    HoldsArray w'.syms type holds' cs id := by
  obtain ⟨name, size, elems, ho, hall⟩ := h
  obtain ⟨name', ho'⟩ := hl.val_eq ho rfl
  exact ⟨name', size, elems, ho', hall.imp himp⟩

theorem HoldsChar.later {ch : BitVec 8} {id : SymId} (h : HoldsChar w.syms ch id) (hl : Later w w') :
    HoldsChar w'.syms ch id := by
  obtain ⟨name, ho⟩ := h
  exact hl.val_eq ho rfl

/-- What an input holds, it holds from then on. -/
theorem Holds.later {s : ScalarType} (hl : Later w w') : ∀ {n : Nat} {c : Content s n} {id : SymId},
    Holds w.syms s n c id → Holds w'.syms s n c id
  | 0, c, id, h => by
    cases s with
    | int | bool =>
      obtain ⟨name, ho⟩ := h
      exact hl.val_eq ho rfl
    | char => exact HoldsChar.later h hl
    | string => exact HoldsArray.later h hl fun _ _ hc => hc.later hl
  | n + 1, cs, id, h => HoldsArray.later h hl fun _ _ => Holds.later hl

end

/-! ## The scalars -/

theorem DeclTy.newSym_succ (s : ScalarType) (n : Nat) :
    (⟨s, n + 1⟩ : DeclTy).newSym = .array (.arr ⟨s, n⟩) none [] := by
  cases s <;> rfl

theorem cls_eq_number {v : SymVal} (h : v.cls = .number none) : ∃ num, v = .number num := by
  cases v <;> simp_all [SymVal.cls]

theorem cls_eq_char {v : SymVal} (h : v.cls = .char none) : ∃ ch, v = .char ch := by
  cases v <;> simp_all [SymVal.cls]

theorem cls_eq_bool {v : SymVal} (h : v.cls = .bool none) : ∃ b, v = .bool b := by
  cases v <;> simp_all [SymVal.cls]

theorem cls_eq_array {v : SymVal} {type : ArrType} (h : v.cls = .array type none []) :
    ∃ size elems, v = .array type size elems := by
  cases v <;> simp_all [SymVal.cls]

section

variable {w w' : World} {sym : SymId}

/-- A generated scalar is the one its symbol has then. -/
theorem scalarRandGen_holds {α : Type} {cls : SymVal → Option (Option α)} {put : α → SymVal} {draw : Nat → α} {v : α}
    (hput : cls (put v) = some (some v)) (h : scalarRandGen cls put draw sym w = .ok (v, w')) :
    ∃ o, w'.syms sym = some o ∧ cls o.val = some (some v) := by
  obtain ⟨o, ho, ⟨hval, rfl⟩ | ⟨-, -, rfl⟩⟩ := scalarRandGen_ok_iff.mp h
  · exact ⟨o, ho, hval⟩
  · exact ⟨_, World.setSym_self .., hput⟩

theorem numRandGen_holds {num : BitVec 32} (h : numRandGen sym w = .ok (num, w')) :
    ∃ name, w'.syms sym = some ⟨name, .number (some num)⟩ := by
  obtain ⟨⟨name, val⟩, ho, hcls⟩ := scalarRandGen_holds rfl h
  cases val <;> simp only [SymVal.number?, Option.some.injEq, reduceCtorEq] at hcls
  exact ⟨name, hcls ▸ ho⟩

theorem charRandGen_holds {ch : BitVec 8} (h : charRandGen sym w = .ok (ch, w')) : HoldsChar w'.syms ch sym := by
  obtain ⟨⟨name, val⟩, ho, hcls⟩ := scalarRandGen_holds rfl h
  cases val <;> simp only [SymVal.char?, Option.some.injEq, reduceCtorEq] at hcls
  exact ⟨name, hcls ▸ ho⟩

theorem boolRandGen_holds {b : BitVec 8} (h : boolRandGen sym w = .ok (b, w')) :
    ∃ val name, b = BitVec.ofNat 8 val.toNat ∧ w'.syms sym = some ⟨name, .bool (some val)⟩ := by
  obtain ⟨v, _, hval, h⟩ := bind_ok_iff.mp h
  obtain ⟨rfl, rfl⟩ := pure_ok_iff.mp h
  obtain ⟨⟨name, val⟩, ho, hcls⟩ := scalarRandGen_holds rfl hval
  cases val <;> simp only [SymVal.bool?, Option.some.injEq, reduceCtorEq] at hcls
  exact ⟨v, name, rfl, hcls ▸ ho⟩

/-- The length of an array is the one it has then. -/
theorem getSize_holds {size : BitVec 32} (h : getSize sym w = .ok (size, w')) :
    ∃ name type elems, w'.syms sym = some ⟨name, .array type (some size) elems⟩ := by
  obtain ⟨name, type, s, elems, ho, ⟨rfl, rfl⟩ | ⟨-, -, rfl⟩⟩ := getSize_ok_iff.mp h
  · exact ⟨name, type, elems, ho⟩
  · exact ⟨name, type, _, World.setSym_self ..⟩

end

/-! ## Texts -/

/-- The text of a scalar's value. -/
def ScalarType.text : (s : ScalarType) → s.Value → String
  | .int, num => toString num.toInt
  | .string, chs => "\"" ++ String.ofList (chs.map fun ch => Char.ofNat ch.toNat) ++ "\""
  | .char, ch => toString ch.toInt
  | .bool, val => if val then "true" else "false"

/-- Each text with a comma after it. -/
def commaEach (texts : List String) : String := String.join (texts.map (· ++ ","))

/-- The text of a content in the test's input fields. -/
def serializedText (s : ScalarType) : (n : Nat) → Content s n → String
  | 0, v => s.text v
  | n + 1, cs => closeBracket ("[" ++ commaEach (cs.map (serializedText s n)))

theorem serializeElems_generates {f : SymId → M String} (hf : ∀ sym, Generates (f sym)) :
    ∀ {elems : List SymId}, Generates (serializeElems f elems)
  | [] => .pure fun _ => trivial
  | sym :: _ => (hf sym).bind fun _ => (serializeElems_generates hf).map fun _ _ _ => trivial

theorem serializeChars_generates : ∀ {elems : List SymId}, Generates (serializeChars elems)
  | [] => .pure fun _ => trivial
  | _ :: _ => charRandGen_generates.bind fun _ => serializeChars_generates.map fun _ _ _ => trivial

theorem arraySerialize_generates {f : SymId → M String} (hf : ∀ sym, Generates (f sym)) {sym : SymId} :
    Generates (arraySerialize f sym) := by
  refine getSize_generates.bind fun _ => getSym_generates.bind fun o => ?_
  split
  · exact (serializeElems_generates hf).map fun _ _ _ => trivial
  · exact .fault

theorem stringSerialize_generates {sym : SymId} : Generates (stringSerialize sym) := by
  refine getSize_generates.bind fun _ => getSym_generates.bind fun o => ?_
  split
  · exact serializeChars_generates.map fun _ _ _ => trivial
  · exact .fault

theorem serializeBy_generates {f : SymId → M String} (hf : ∀ sym, Generates (f sym)) {sym : SymId} :
    Generates (serializeBy f sym) := by
  refine getSym_generates.bind fun o => ?_
  split
  · exact numRandGen_generates.map fun _ _ _ => trivial
  · exact charRandGen_generates.map fun _ _ _ => trivial
  · exact boolRandGen_generates.map fun _ _ _ => trivial
  · exact stringSerialize_generates
  · exact arraySerialize_generates hf

theorem serializeDepth_generates : ∀ {n : Nat} {sym : SymId}, Generates (serializeDepth n sym)
  | 0, _ => serializeBy_generates fun _ => .fault
  | _ + 1, _ => serializeBy_generates fun _ => serializeDepth_generates

theorem serialize_generates {sym : SymId} : Generates (serialize sym) := by
  refine getSym_generates.bind fun o => ?_
  split <;> exact serializeDepth_generates

/-- What holds of a symbol's content does so from then on. -/
def Lasting {α : Type} (holds : (Nat → Option SymObj) → α → SymId → Prop) : Prop :=
  ∀ ⦃w w' : World⦄ ⦃c : α⦄ ⦃id : SymId⦄, Later w w' → holds w.syms c id → holds w'.syms c id

section

variable {α : Type} {holds : (Nat → Option SymObj) → α → SymId → Prop} {text : α → String} {f : SymId → M String}
  {t : DeclTy} {w w' : World}

/-- `f` determines a symbol of a type, and gives the text of its content. -/
def Serializes (f : SymId → M String) (t : DeclTy) (holds : (Nat → Option SymObj) → α → SymId → Prop)
    (text : α → String) : Prop :=
  ∀ {sym : SymId} {w w' : World} {s : String}, f sym w = .ok (s, w') → w.Ok → w.Typed t sym →
    ∃ c, holds w'.syms c sym ∧ s = text c

theorem serializeElems_holds (hgen : ∀ sym, Generates (f sym)) (hf : Serializes f t holds text) (hlast : Lasting holds)
    {elems : List SymId} : ∀ {w w' : World} {s : String}, serializeElems f elems w = .ok (s, w') → w.Ok →
      (∀ e ∈ elems, w.Typed t e) → ∃ cs, List.Forall₂ (holds w'.syms) cs elems ∧ s = commaEach (cs.map text) := by
  induction elems with
  | nil =>
    intro w w' s h _ _
    obtain ⟨rfl, rfl⟩ := pure_ok_iff.mp h
    exact ⟨[], .nil, rfl⟩
  | cons sym elems ih =>
    intro w w' s h hok htyped
    obtain ⟨s₁, w₁, h₁, h⟩ := bind_ok_iff.mp h
    obtain ⟨s₂, _, h₂, h⟩ := bind_ok_iff.mp h
    obtain ⟨rfl, rfl⟩ := pure_ok_iff.mp h
    obtain ⟨htype, htypes⟩ := List.forall_mem_cons.mp htyped
    have hs₁ := (hgen sym h₁ hok).1
    have hok₁ := hs₁.ok hok
    have hl₁ := hs₁.later hok
    have hl₂ := (serializeElems_generates hgen h₂ hok₁).1.later hok₁
    obtain ⟨c, hc, rfl⟩ := hf h₁ hok htype
    obtain ⟨cs, hcs, rfl⟩ := ih h₂ hok₁ fun e he => hl₁.typed (htypes e he)
    exact ⟨c :: cs, .cons (hlast hl₂ hc) hcs, by simp [commaEach, String.append_assoc]⟩

theorem serializeChars_holds {elems : List SymId} : ∀ {w w' : World} {chs : List Char},
    serializeChars elems w = .ok (chs, w') → w.Ok → ∃ cs : List (BitVec 8),
      List.Forall₂ (HoldsChar w'.syms) cs elems ∧ chs = cs.map fun ch => Char.ofNat ch.toNat := by
  induction elems with
  | nil =>
    intro w w' chs h _
    obtain ⟨rfl, rfl⟩ := pure_ok_iff.mp h
    exact ⟨[], .nil, rfl⟩
  | cons sym elems ih =>
    intro w w' chs h hok
    obtain ⟨ch, w₁, h₁, h⟩ := bind_ok_iff.mp h
    obtain ⟨rest, _, h₂, h⟩ := bind_ok_iff.mp h
    obtain ⟨rfl, rfl⟩ := pure_ok_iff.mp h
    have hok₁ := (charRandGen_generates h₁ hok).1.ok hok
    have hl₂ := (serializeChars_generates h₂ hok₁).1.later hok₁
    obtain ⟨cs, hcs, rfl⟩ := ih h₂ hok₁
    exact ⟨ch :: cs, .cons ((charRandGen_holds h₁).later hl₂) hcs, rfl⟩

/-- An array with its length. -/
theorem getSize_typed {type : ArrType} {sym : SymId} {size : BitVec 32} {w₁ : World} {o : SymObj}
    (h : getSize sym w = .ok (size, w₁)) (hok : w.Ok) (hcls : ∀ o, w.syms sym = some o →
      o.val.cls = .array type none [])
    (hget : w₁.syms sym = some o) : w₁.Ok ∧ ∃ name elems, o = ⟨name, .array type (some size) elems⟩ := by
  have hs := (getSize_generates h hok).1
  obtain ⟨name, type', elems, ho⟩ := getSize_holds h
  obtain ⟨_, _, _, _, hbefore, -⟩ := getSize_ok_iff.mp h
  obtain ⟨o', ho', hcls', -⟩ := (hs.later hok).kept _ _ hbefore
  obtain rfl := Option.some.inj (ho.symm.trans ho')
  obtain rfl := Option.some.inj (ho.symm.trans hget)
  have htype := hcls'.trans (hcls _ hbefore)
  simp only [SymVal.cls, SymVal.array.injEq, and_true] at htype
  exact ⟨hs.ok hok, name, elems, by rw [htype]⟩

theorem arraySerialize_holds {type : ArrType} (hgen : ∀ sym, Generates (f sym)) (hf : Serializes f type.elem holds text)
    (hlast : Lasting holds) {sym : SymId} {s : String} (h : arraySerialize f sym w = .ok (s, w')) (hok : w.Ok)
    (hcls : ∀ o, w.syms sym = some o → o.val.cls = .array type none []) :
    ∃ cs, HoldsArray w'.syms type (holds w'.syms) cs sym ∧ s = closeBracket ("[" ++ commaEach (cs.map text)) := by
  obtain ⟨size, w₁, hsize, h⟩ := bind_ok_iff.mp h
  obtain ⟨o, _, hget, h⟩ := bind_ok_iff.mp h
  obtain ⟨ho, rfl⟩ := getSym_ok_iff.mp hget
  obtain ⟨hok₁, name, elems, rfl⟩ := getSize_typed hsize hok hcls ho
  obtain ⟨s, w₂, hs, h⟩ := bind_ok_iff.mp h
  obtain ⟨rfl, rfl⟩ := pure_ok_iff.mp h
  obtain ⟨cs, hcs, rfl⟩ := serializeElems_holds hgen hf hlast hs hok₁ fun e he => hok₁.typed_elem ho he
  obtain ⟨name', ho'⟩ := ((serializeElems_generates hgen hs hok₁).1.later hok₁).val_eq ho rfl
  exact ⟨cs, ⟨name', size, elems, ho', hcs⟩, rfl⟩

theorem stringSerialize_holds {sym : SymId} {s : String} (h : stringSerialize sym w = .ok (s, w')) (hok : w.Ok)
    (hcls : ∀ o, w.syms sym = some o → o.val.cls = .array .string none []) :
    ∃ chs, HoldsArray w'.syms .string (HoldsChar w'.syms) chs sym ∧ s = ScalarType.string.text chs := by
  obtain ⟨size, w₁, hsize, h⟩ := bind_ok_iff.mp h
  obtain ⟨o, _, hget, h⟩ := bind_ok_iff.mp h
  obtain ⟨ho, rfl⟩ := getSym_ok_iff.mp hget
  obtain ⟨hok₁, name, elems, rfl⟩ := getSize_typed hsize hok hcls ho
  obtain ⟨s, w₂, hs, h⟩ := bind_ok_iff.mp h
  obtain ⟨rfl, rfl⟩ := pure_ok_iff.mp h
  obtain ⟨cs, hcs, rfl⟩ := serializeChars_holds hs hok₁
  obtain ⟨name', ho'⟩ := ((serializeChars_generates hs hok₁).1.later hok₁).val_eq ho rfl
  exact ⟨cs, ⟨name', size, elems, ho', hcs⟩, rfl⟩

end

theorem ofNat_toNat_ne_zero (b : Bool) : (BitVec.ofNat 8 b.toNat != 0) = b := by cases b <;> rfl

theorem Holds.lasting (s : ScalarType) (n : Nat) : Lasting fun syms => Holds syms s n := fun _ _ _ _ hl h => h.later hl

/-- `serialize` determines an input, and its text is its content's. -/
theorem serializeDepth_holds {s : ScalarType} : ∀ {n m : Nat},
    Serializes (serializeDepth m) ⟨s, n⟩ (fun syms => Holds syms s n) (serializedText s n) := by
  have hby : ∀ {f : SymId → M String} {n : Nat}, (∀ sym, Generates (f sym)) →
      (∀ k, n = k + 1 → Serializes f ⟨s, k⟩ (fun syms => Holds syms s k) (serializedText s k)) →
      Serializes (serializeBy f) ⟨s, n⟩ (fun syms => Holds syms s n) (serializedText s n) := by
    intro f n hgen hf sym w w' text h hok ht
    obtain ⟨⟨name, val⟩, _, hget, h⟩ := bind_ok_iff.mp h
    obtain ⟨ho, rfl⟩ := getSym_ok_iff.mp hget
    have hcls := ht.2 _ ho
    cases n with
    | zero =>
      cases s with
      | int =>
        obtain ⟨num, rfl⟩ := cls_eq_number hcls
        obtain ⟨v, _, hv, h⟩ := bind_ok_iff.mp h
        obtain ⟨rfl, rfl⟩ := pure_ok_iff.mp h
        exact ⟨v, numRandGen_holds hv, rfl⟩
      | char =>
        obtain ⟨ch, rfl⟩ := cls_eq_char hcls
        obtain ⟨v, _, hv, h⟩ := bind_ok_iff.mp h
        obtain ⟨rfl, rfl⟩ := pure_ok_iff.mp h
        exact ⟨v, charRandGen_holds hv, rfl⟩
      | bool =>
        obtain ⟨b, rfl⟩ := cls_eq_bool hcls
        obtain ⟨v, _, hv, h⟩ := bind_ok_iff.mp h
        obtain ⟨rfl, rfl⟩ := pure_ok_iff.mp h
        obtain ⟨val, name', rfl, hval⟩ := boolRandGen_holds hv
        exact ⟨val, ⟨name', hval⟩, by simp only [ofNat_toNat_ne_zero]; rfl⟩
      | string =>
        obtain ⟨size, elems, rfl⟩ := cls_eq_array hcls
        exact stringSerialize_holds h hok ht.2
    | succ n =>
      rw [DeclTy.newSym_succ] at hcls
      obtain ⟨size, elems, rfl⟩ := cls_eq_array hcls
      refine arraySerialize_holds hgen (hf n rfl) (Holds.lasting s n) h hok fun o ho => ?_
      rw [ht.2 o ho, DeclTy.newSym_succ]
  intro n m
  induction m generalizing n with
  | zero => exact hby (fun _ => .fault) fun k _ _ _ _ _ h => by simp at h
  | succ m ih => exact hby (fun _ => serializeDepth_generates) fun k _ => ih

theorem serialize_holds {s : ScalarType} {n : Nat} :
    Serializes serialize ⟨s, n⟩ (fun syms => Holds syms s n) (serializedText s n) := by
  intro sym w w' text h hok ht
  obtain ⟨⟨name, val⟩, _, hget, h⟩ := bind_ok_iff.mp h
  obtain ⟨-, rfl⟩ := getSym_ok_iff.mp hget
  cases val <;> exact serializeDepth_holds h hok ht

end DGen
