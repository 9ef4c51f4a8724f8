/-
Which types are convertible (`type.cpp`).

A type is a suffix of a shared vector, and its offset may have run past the
end; two equalities, one with types and one with kinds, look at it. All that
`is_convertable_to` sees is the class of a type: the numbers are one class,
`string` and `char[]` are one, and any other type is alone with the types
equal to it. So it is an equivalence, and types of one class have equal
element types (`convertible_equivalence`).
-/
import DGen.LlvmTypes

namespace DGen

namespace Ty

/-- What `is_convertable_to` sees of a type. -/
inductive ConvClass
  | numbers
  | strings
  | alone (length : Int) (kinds : List TypeKind)
  deriving DecidableEq, Repr

def convClass (t : Ty) : ConvClass :=
  if t.isNumerical then .numbers
  else if t.isString then .strings
  else .alone t.length (t.types.drop t.pos)

/-! ## Equal types -/

theorem equivalence_eq : Equivalence fun t u : Ty => t.eq u = true :=
  ⟨eq_refl, eq_symm, eq_trans⟩

theorem dropType_congr {t u : Ty} (h : t.eq u = true) : t.dropType.eq u.dropType = true := by
  have hs := eqKind_congr h .string
  by_cases ht : t.eqKind .string = true
  · rw [dropType, dropType, if_pos ht, if_pos (hs ▸ ht)]
    exact eq_refl _
  · rw [Bool.not_eq_true] at ht
    rw [dropType_of_not_string ht, dropType_of_not_string (hs ▸ ht)]
    obtain ⟨hlen, hrest⟩ := eq_iff.mp h
    refine eq_iff.mpr ⟨?_, ?_⟩
    · simp only [length] at hlen ⊢
      omega
    · rw [← List.tail_drop, ← List.tail_drop, hrest]

theorem isString_congr {t u : Ty} (h : t.eq u = true) : t.isString = u.isString := by
  simp only [isString, (eq_iff.mp h).1, getCurrentType_congr h, eqKind_congr (dropType_congr h)]

theorem convClass_congr {t u : Ty} (h : t.eq u = true) : t.convClass = u.convClass := by
  simp only [convClass, isNumerical_congr h, isString_congr h, (eq_iff.mp h).1, (eq_iff.mp h).2]

/-! ## The classes -/

theorem isNumerical_length {t : Ty} (h : t.isNumerical = true) :
    t.length = 1 ∧ t.eqKind .string = false := by
  simp only [isNumerical, isScalar, Bool.and_eq_true, beq_iff_eq, Bool.not_eq_true'] at h
  exact h.1

/-- The two ways of being a string. -/
theorem isString_iff {t : Ty} : t.isString = true ↔
    t.eqKind .string = true ∧ t.length = 1 ∨
      t.length = 2 ∧ t.getCurrentType = .arr ∧ t.dropType.eqKind .char = true := by
  simp only [isString, eqKind_iff, Bool.or_eq_true, Bool.and_eq_true, beq_iff_eq, and_assoc]
  refine or_congr_left ?_
  constructor
  · rintro ⟨hlen, hk⟩
    exact ⟨by omega, hk, hlen⟩
  · rintro ⟨-, hk, hlen⟩
    exact ⟨hlen, hk⟩

/-- No string is a number. -/
theorem isNumerical_not_isString {t : Ty} (h : t.isNumerical = true) : t.isString = false := by
  obtain ⟨hlen, hs⟩ := isNumerical_length h
  rw [Bool.eq_false_iff, ne_eq, isString_iff]
  rintro (⟨hs', -⟩ | ⟨hlen', -⟩)
  · rw [hs] at hs'
    cases hs'
  · omega

theorem convClass_numbers_iff {t : Ty} : t.convClass = .numbers ↔ t.isNumerical = true := by
  unfold convClass
  split
  next h => simp [h]
  next h => split <;> simp [h]

theorem convClass_strings_iff {t : Ty} : t.convClass = .strings ↔ t.isString = true := by
  unfold convClass
  split
  next h => simp [isNumerical_not_isString h]
  next => split <;> simp_all

theorem convClass_alone {t : Ty} {length : Int} {kinds : List TypeKind} (h : t.convClass = .alone length kinds) :
    t.length = length ∧ t.types.drop t.pos = kinds := by
  unfold convClass at h
  split at h
  next => cases h
  next =>
    split at h
    next => cases h
    next =>
      cases h
      exact ⟨rfl, rfl⟩

/-- Types are convertible when they are of one class. -/
theorem isConvertableTo_iff {t u : Ty} : t.isConvertableTo u = true ↔ t.convClass = u.convClass := by
  simp only [isConvertableTo, Bool.or_eq_true, Bool.and_eq_true]
  constructor
  · rintro ((heq | ⟨ht, hu⟩) | ⟨ht, hu⟩)
    · exact convClass_congr heq
    · exact (convClass_numbers_iff.mpr ht).trans (convClass_numbers_iff.mpr hu).symm
    · exact (convClass_strings_iff.mpr ht).trans (convClass_strings_iff.mpr hu).symm
  · intro h
    cases hu : u.convClass with
    | numbers => exact .inl (.inr ⟨convClass_numbers_iff.mp (h.trans hu), convClass_numbers_iff.mp hu⟩)
    | strings => exact .inr ⟨convClass_strings_iff.mp (h.trans hu), convClass_strings_iff.mp hu⟩
    | alone length kinds =>
      obtain ⟨htl, htk⟩ := convClass_alone (h.trans hu)
      obtain ⟨hul, huk⟩ := convClass_alone hu
      exact .inl (.inl (eq_iff.mpr ⟨htl.trans hul.symm, htk.trans huk.symm⟩))

theorem equivalence_isConvertableTo : Equivalence fun t u : Ty => t.isConvertableTo u = true := by
  simp only [isConvertableTo_iff]
  exact eq_equivalence.comap convClass

/-- Equal types are convertible to the same types. -/
theorem isConvertableTo_congr {t t' u u' : Ty} (ht : t.eq t' = true) (hu : u.eq u' = true) :
    t.isConvertableTo u = t'.isConvertableTo u' := by
  rw [Bool.eq_iff_iff, isConvertableTo_iff, isConvertableTo_iff, convClass_congr ht, convClass_congr hu]

/-! ## Indexing -/

/-- A number has no elements. -/
theorem isNumerical_dropType {t : Ty} (h : t.isNumerical = true) :
    t.dropType.length = 0 ∧ t.dropType.types.drop t.dropType.pos = [] := by
  obtain ⟨hlen, hs⟩ := isNumerical_length h
  rw [dropType_of_not_string hs]
  simp only [length, List.drop_eq_nil_iff] at hlen ⊢
  exact ⟨by push_cast; omega, by omega⟩

/-- The elements of a string are characters, whichever way it is written. -/
theorem isString_dropType {t : Ty} (h : t.isString = true) : t.dropType.eq (ofKind .char) = true := by
  obtain ⟨hs, -⟩ | ⟨hlen, hk, hc⟩ := isString_iff.mp h
  · rw [dropType, if_pos hs]
    exact eq_refl _
  · have hs : t.eqKind .string = false := by
      rw [Bool.eq_false_iff, ne_eq, eqKind_iff, hk]
      simp
    have hlen' : t.dropType.length = 1 := by
      rw [dropType_of_not_string hs]
      simp only [length] at hlen ⊢
      push_cast
      omega
    obtain ⟨-, hc⟩ := eqKind_iff.mp hc
    refine eq_iff.mpr ⟨hlen', ?_⟩
    have hdrop : (t.dropType.types.drop t.dropType.pos).length = 1 := by
      rw [List.length_drop]
      simp only [length] at hlen'
      omega
    obtain ⟨k, hrest⟩ := List.length_eq_one_iff.mp hdrop
    rw [getCurrentType_eq_head, hrest] at hc
    rw [hrest, show k = .char from hc]
    rfl

/-- Types of one class have equal element types. -/
theorem isConvertableTo_dropType {t u : Ty} (h : t.isConvertableTo u = true) :
    t.dropType.eq u.dropType = true := by
  simp only [isConvertableTo, Bool.or_eq_true, Bool.and_eq_true] at h
  obtain (heq | ⟨ht, hu⟩) | ⟨ht, hu⟩ := h
  · exact dropType_congr heq
  · obtain ⟨htl, htr⟩ := isNumerical_dropType ht
    obtain ⟨hul, hur⟩ := isNumerical_dropType hu
    exact eq_iff.mpr ⟨htl.trans hul.symm, htr.trans hur.symm⟩
  · exact eq_trans (isString_dropType ht) (eq_symm (isString_dropType hu))

end Ty

/-- So have they after any number of indices but none. -/
theorem dropTypes_of_convertible {t u : Ty} (h : t.isConvertableTo u = true) (n : Nat) :
    (dropTypes t (n + 1)).eq (dropTypes u (n + 1)) = true := by
  simp only [dropTypes]
  induction n with
  | zero => exact Ty.isConvertableTo_dropType h
  | succ n ih =>
    rw [Function.iterate_succ_apply', Function.iterate_succ_apply' _ _ u]
    exact Ty.dropType_congr ih

/-- Lookups with equally many indices have equal types, or none. -/
theorem getType_arrLookup_of_convertible {node node' : ASTNode} {i j : IdentNode Symbol}
    {idxs idxs' : List (Expr Symbol)}
    (h : i.symbol.type.toTy.isConvertableTo j.symbol.type.toTy = true) (hne : idxs ≠ [])
    (hlen : idxs.length = idxs'.length) {t : Ty} (ht : (Expr.arrLookup node i idxs).getType = .ok t) :
    ∃ u, (Expr.arrLookup node' j idxs').getType = .ok u ∧ t.eq u = true := by
  obtain ⟨n, hn⟩ := Nat.exists_eq_succ_of_ne_zero (List.length_eq_zero_iff.not.mpr hne)
  have heq := dropTypes_of_convertible h n
  rw [Expr.getType, hn] at ht
  rw [Expr.getType, ← hlen, hn]
  split at ht
  next => cases ht
  next hk =>
    cases ht
    exact ⟨_, if_neg (Ty.eqKind_congr heq _ ▸ hk), heq⟩

/-! ## The checks -/

/-- A definition is checked like an assignment to a variable of its type,
whichever side is asked. -/
theorem typeCheckVisitorDef_iff_asg {n : AsgNode Symbol} {d : DefNode Symbol} {t : Ty}
    (hl : n.lhs.toExpr.getType = .ok t) (ht : t.eq d.type.toTy = true) (hr : d.rhs = some n.rhs) :
    typeCheckVisitorDef d = .ok () ↔ typeCheckAsg n = .ok () ∧ typeCheckVisitorExpr n.rhs = .ok () := by
  rw [typeCheckVisitorDef_ok_iff, hr]
  simp only [typeCheckAsg, hl, Except.bind_ok_iff, ite_ok_iff, Except.pure_ok_iff, Except.ok.injEq, and_true,
    exists_eq_left', Option.mem_some_iff, forall_eq']
  constructor
  · rintro ⟨u, hu, hc, hv⟩
    rw [Ty.isConvertableTo_comm, ← Ty.isConvertableTo_congr ht (Ty.eq_refl u)] at hc
    exact ⟨⟨u, hu, hc⟩, hv⟩
  · rintro ⟨⟨u, hu, hc⟩, hv⟩
    rw [Ty.isConvertableTo_congr ht (Ty.eq_refl u), Ty.isConvertableTo_comm] at hc
    exact ⟨u, hu, hc, hv⟩

/-- **Convertibility is an equivalence** that equal types respect and
indexing makes equal: definitions and assignments accept the same pairs, and
`string` and `char[]` are the same to a lookup. -/
theorem convertible_equivalence :
    Equivalence (fun t u : Ty => t.eq u = true) ∧
    Equivalence (fun t u : Ty => t.isConvertableTo u = true) ∧
    (∀ t t' u u' : Ty, t.eq t' = true → u.eq u' = true → t.isConvertableTo u = t'.isConvertableTo u') ∧
    (∀ t u : Ty, t.isConvertableTo u = true → t.dropType.eq u.dropType = true) ∧
    (∀ (n : AsgNode Symbol) (d : DefNode Symbol) (t : Ty), n.lhs.toExpr.getType = .ok t →
      t.eq d.type.toTy = true → d.rhs = some n.rhs →
      (typeCheckVisitorDef d = .ok () ↔ typeCheckAsg n = .ok () ∧ typeCheckVisitorExpr n.rhs = .ok ())) ∧
    (∀ t u : Ty, t.isString = true → u.isString = true →
      t.isConvertableTo u = true ∧ ∀ n, (dropTypes t (n + 1)).eq (dropTypes u (n + 1)) = true) ∧
    (∀ (node node' : ASTNode) (i j : IdentNode Symbol) (idxs idxs' : List (Expr Symbol)),
      i.symbol.type = ⟨.string, 0⟩ → j.symbol.type = ⟨.char, 1⟩ → idxs ≠ [] → idxs.length = idxs'.length →
      (∀ t, (Expr.arrLookup node i idxs).getType = .ok t →
        ∃ u, (Expr.arrLookup node' j idxs').getType = .ok u ∧ t.eq u = true) ∧
      ∀ u, (Expr.arrLookup node' j idxs').getType = .ok u →
        ∃ t, (Expr.arrLookup node i idxs).getType = .ok t ∧ u.eq t = true) := by
  refine ⟨Ty.equivalence_eq, Ty.equivalence_isConvertableTo, fun _ _ _ _ => Ty.isConvertableTo_congr,
    fun _ _ => Ty.isConvertableTo_dropType, fun _ _ _ => typeCheckVisitorDef_iff_asg, fun t u ht hu => ?_,
    fun node node' i j idxs idxs' hi hj hne hlen => ?_⟩
  · have h : t.isConvertableTo u = true :=
      Ty.isConvertableTo_iff.mpr ((Ty.convClass_strings_iff.mpr ht).trans (Ty.convClass_strings_iff.mpr hu).symm)
    exact ⟨h, dropTypes_of_convertible h⟩
  · have h : i.symbol.type.toTy.isConvertableTo j.symbol.type.toTy = true := by
      rw [hi, hj]
      rfl
    have hne' : idxs' ≠ [] := List.length_eq_zero_iff.not.mp (hlen ▸ List.length_eq_zero_iff.not.mpr hne)
    refine ⟨fun _ => getType_arrLookup_of_convertible h hne hlen, fun _ => ?_⟩
    exact getType_arrLookup_of_convertible (Ty.equivalence_isConvertableTo.symm h) hne' hlen.symm

end DGen
