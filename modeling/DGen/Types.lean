/-
The types of the language (`type.h`, `type.cpp`): a type is a vector of
kinds read from an offset on, and indexing moves the offset.

The vector is shared between copies in the source. Only
`ArrCreateNode::create` writes one, before anything else holds it, so here
it is a value.
-/
import Mathlib.Tactic

namespace DGen

inductive TypeKind
  | int | string | char | bool | arr | invalid
  deriving DecidableEq, Repr

/-- `Type`: the kinds of `types` from `pos` on. -/
structure Ty where
  types : List TypeKind
  pos : Nat
  deriving DecidableEq, Repr

namespace Ty

/-- `Type::Type(TypeKind)`. -/
def ofKind (k : TypeKind) : Ty := ⟨[k], 0⟩

/-- `(int)types->size() - pos`: negative once the offset has run past the end. -/
def length (t : Ty) : Int := t.types.length - t.pos

def getCurrentType (t : Ty) : TypeKind := t.types.getD t.pos .invalid

/-- `operator==(const TypeKind &)`. -/
def eqKind (t : Ty) (k : TypeKind) : Bool :=
  if t.length > 1 then false else t.getCurrentType == k

/-- `operator==(const Type &)`. -/
def eq (t u : Ty) : Bool :=
  t.length == u.length &&
    (List.range t.length.toNat).all fun i => t.types[i + t.pos]? == u.types[i + u.pos]?

/-- A string drops to `char`; anything else moves its offset, past the end too. -/
def dropType (t : Ty) : Ty :=
  if t.eqKind .string then ofKind .char else { t with pos := t.pos + 1 }

def typeIsNumerical (k : TypeKind) : Bool := k == .char || k == .int

def isScalar (t : Ty) : Bool := t.length == 1 && !t.eqKind .string

def isNumerical (t : Ty) : Bool := t.isScalar && typeIsNumerical t.getCurrentType

def isString (t : Ty) : Bool :=
  (t.length == 1 && t.getCurrentType == .string) ||
    (t.length == 2 && t.getCurrentType == .arr && t.dropType.eqKind .char)

def isConvertableTo (t other : Ty) : Bool :=
  t.eq other || (t.isNumerical && other.isNumerical) || (t.isString && other.isString)

end Ty

def TypeKind.toString : TypeKind → String
  | .int => "int"
  | .string => "string"
  | .char => "char"
  | .bool => "bool"
  | .arr => "[]"
  | .invalid => "invalid"

/-- `Type::to_string`. -/
def Ty.toString (t : Ty) : String :=
  let str := String.join ((t.types.drop t.pos).map TypeKind.toString)
  if str.isEmpty then "invalid" else str

/-! ## Declared types -/

/-- The lexer's `SCALAR_TYPE`. -/
inductive ScalarType
  | int | string | char | bool
  deriving DecidableEq, Repr

/-- `Type::map_type` on a `SCALAR_TYPE` token. -/
def ScalarType.kind : ScalarType → TypeKind
  | .int => .int
  | .string => .string
  | .char => .char
  | .bool => .bool

/-- A parse of the grammar's `type : SCALAR_TYPE NESTED_TYPE*`. -/
structure DeclTy where
  scalar : ScalarType
  nested : Nat
  deriving DecidableEq, Repr

/-- `Type::create`: the kinds of the tokens, last token first. -/
def DeclTy.toTy (d : DeclTy) : Ty := ⟨List.replicate d.nested .arr ++ [d.scalar.kind], 0⟩

/-- What `ArrCreateNode::create` does to the type it is given. -/
def DeclTy.insertArr (d : DeclTy) : DeclTy := { d with nested := d.nested + 1 }

example : (DeclTy.mk .string 1).toTy.dropType.dropType.eqKind .char = true := by decide
example : (DeclTy.mk .int 0).toTy.dropType.getCurrentType = .invalid := by decide

/-! ## Reading the comparisons -/

namespace Ty

@[simp] theorem eqKind_ofKind (k k' : TypeKind) : (ofKind k).eqKind k' = (k == k') := by
  simp [ofKind, eqKind, length, getCurrentType]

@[simp] theorem ofKind_getCurrentType (k : TypeKind) : (ofKind k).getCurrentType = k := rfl

theorem eqKind_iff {t : Ty} {k : TypeKind} :
    t.eqKind k = true ↔ t.length ≤ 1 ∧ t.getCurrentType = k := by
  unfold eqKind
  split <;> simp <;> omega

/-- A current kind other than `invalid` is read inside the vector. -/
theorem pos_lt_of_getCurrentType {t : Ty} (h : t.getCurrentType ≠ .invalid) : t.pos < t.types.length := by
  by_contra hle
  exact h (by simp [getCurrentType, List.getElem?_eq_none (Nat.le_of_not_lt hle)])

/-- Two types are equal when they have the same number of kinds left, and the same kinds. -/
theorem eq_iff {t u : Ty} :
    t.eq u = true ↔ t.length = u.length ∧ t.types.drop t.pos = u.types.drop u.pos := by
  simp only [eq, Bool.and_eq_true, beq_iff_eq, List.all_eq_true, List.mem_range]
  refine and_congr_right fun hlen => ?_
  constructor
  · intro h
    apply List.ext_getElem?
    intro i
    simp only [List.getElem?_drop]
    by_cases hi : i < t.length.toNat
    · have := h i hi
      rwa [Nat.add_comm t.pos, Nat.add_comm u.pos]
    · have ht : t.types.length ≤ t.pos + i := by simp only [length] at hi; omega
      have hu : u.types.length ≤ u.pos + i := by simp only [length] at hi hlen; omega
      rw [List.getElem?_eq_none ht, List.getElem?_eq_none hu]
  · intro h i _
    have := congrArg (·[i]?) h
    simpa [List.getElem?_drop, Nat.add_comm] using this

@[simp] theorem eq_refl (t : Ty) : t.eq t = true := eq_iff.mpr ⟨rfl, rfl⟩

theorem eq_symm {t u : Ty} (h : t.eq u = true) : u.eq t = true :=
  eq_iff.mpr ⟨(eq_iff.mp h).1.symm, (eq_iff.mp h).2.symm⟩

theorem getCurrentType_eq_head (t : Ty) : t.getCurrentType = (t.types.drop t.pos).headD .invalid := by
  simp [getCurrentType, List.headD_eq_head?_getD, List.head?_drop, List.getD_eq_getElem?_getD]

theorem getCurrentType_congr {t u : Ty} (h : t.eq u = true) : t.getCurrentType = u.getCurrentType := by
  rw [getCurrentType_eq_head, getCurrentType_eq_head, (eq_iff.mp h).2]

theorem eqKind_congr {t u : Ty} (h : t.eq u = true) (k : TypeKind) : t.eqKind k = u.eqKind k := by
  simp only [eqKind, (eq_iff.mp h).1, getCurrentType_congr h]

theorem isNumerical_congr {t u : Ty} (h : t.eq u = true) : t.isNumerical = u.isNumerical := by
  simp only [isNumerical, isScalar, (eq_iff.mp h).1, eqKind_congr h, getCurrentType_congr h]

/-! ## Declared types, seen through `eq`

Every type `get_type` gives is equal to a declared one. -/

theorem toTy_length (d : DeclTy) : d.toTy.length = d.nested + 1 := by
  simp [DeclTy.toTy, length]

theorem eq_toTy_iff {t : Ty} {d : DeclTy} : t.eq d.toTy = true ↔
    t.length = d.nested + 1 ∧ t.types.drop t.pos = List.replicate d.nested .arr ++ [d.scalar.kind] := by
  rw [eq_iff, toTy_length]
  rfl

theorem eq_trans {t u v : Ty} (h : t.eq u = true) (h' : u.eq v = true) : t.eq v = true :=
  eq_iff.mpr ⟨(eq_iff.mp h).1.trans (eq_iff.mp h').1, (eq_iff.mp h).2.trans (eq_iff.mp h').2⟩

/-- Past the end of the vector there is no kind. -/
theorem getCurrentType_of_length_nonpos {t : Ty} (h : t.length ≤ 0) : t.getCurrentType = .invalid := by
  by_contra hne
  have := pos_lt_of_getCurrentType hne
  simp only [length] at h
  omega

theorem dropType_of_not_string {t : Ty} (h : t.eqKind .string = false) :
    t.dropType = { t with pos := t.pos + 1 } := by
  simp [dropType, h]

theorem dropType_length_nonpos {t : Ty} (h : t.length ≤ 0) : t.dropType.length ≤ 0 := by
  have hs : t.eqKind .string = false := by
    rw [Bool.eq_false_iff, ne_eq, eqKind_iff, getCurrentType_of_length_nonpos h]
    simp
  rw [dropType_of_not_string hs]
  simp only [length] at h ⊢
  omega

theorem dropType_arr {t : Ty} {s : ScalarType} {n : Nat} (h : t.eq (DeclTy.mk s (n + 1)).toTy = true) :
    t.dropType.eq (DeclTy.mk s n).toTy = true := by
  obtain ⟨hlen, htypes⟩ := eq_toTy_iff.mp h
  have hs : t.eqKind .string = false := by
    rw [Bool.eq_false_iff, ne_eq, eqKind_iff, hlen]
    push_cast
    omega
  rw [dropType_of_not_string hs, eq_toTy_iff, ← List.tail_drop, htypes]
  simp only [length] at hlen ⊢
  exact ⟨by push_cast at hlen ⊢; omega, by simp [List.replicate_succ]⟩

theorem dropType_string {t : Ty} (h : t.eq (DeclTy.mk .string 0).toTy = true) :
    t.dropType = (DeclTy.mk .char 0).toTy := by
  have hs : t.eqKind .string = true := (eqKind_congr h _).trans rfl
  rw [dropType, hs, if_pos rfl]
  rfl

theorem dropType_scalar {t : Ty} {s : ScalarType} (h : t.eq (DeclTy.mk s 0).toTy = true)
    (hs : s ≠ .string) : t.dropType.length ≤ 0 := by
  have hk : t.eqKind .string = false := (eqKind_congr h _).trans (by cases s <;> simp_all <;> rfl)
  have hlen := (eq_toTy_iff.mp h).1
  rw [dropType_of_not_string hk]
  simp only [length, Nat.cast_zero] at hlen ⊢
  omega

end Ty

/-- The declared type of an element, if there are elements. -/
def DeclTy.elem? : DeclTy → Option DeclTy
  | ⟨s, n + 1⟩ => some ⟨s, n⟩
  | ⟨.string, 0⟩ => some ⟨.char, 0⟩
  | ⟨_, 0⟩ => none

/-- An index drops a type to its element's, or past the end. -/
theorem Ty.dropType_toTy {t : Ty} {d : DeclTy} (h : t.eq d.toTy = true) :
    (∃ e, d.elem? = some e ∧ t.dropType.eq e.toTy = true) ∨ d.elem? = none ∧ t.dropType.length ≤ 0 := by
  match d with
  | ⟨s, n + 1⟩ => exact .inl ⟨_, rfl, dropType_arr h⟩
  | ⟨.string, 0⟩ => exact .inl ⟨_, rfl, by rw [dropType_string h, eq_refl]⟩
  | ⟨.int, 0⟩ | ⟨.char, 0⟩ | ⟨.bool, 0⟩ => exact .inr ⟨rfl, dropType_scalar h (by decide)⟩

end DGen
