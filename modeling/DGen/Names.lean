/-
The names of the solver's constants.

A scalar input goes by its own name, a length by that with `.len` after it and
an element by `__arr_`, the name of its array and the indices, each with `_`
after it. An identifier has no `.` and does not begin with `_`, so only
elements of two arrays can have one name, and they do where the name of one
array goes on as the first indices of the other do (`names_distinct_iff`).
-/
import DGen.Lib.Separated
import DGen.Grammar
import DGen.ModelValues
import Mathlib

namespace DGen

open Memory Separated

/-! ## The texts of indices -/

/-- The digits of an index. -/
def idxWord (i : BitVec 32) : List Char := (toString i.toInt).toList

/-- The indices of `elemName`. -/
def idxText (idxs : List (BitVec 32)) : List Char := text idxWord '_' idxs

theorem mem_repr {n : Nat} {c : Char} (h : c ∈ (Nat.repr n).toList) : c.isDigit = true := by
  simp only [Nat.repr, String.toList_ofList] at h
  exact Nat.isDigit_of_mem_toDigits (by decide) (by decide) h

theorem idxWords : Words idxWord '_' where
  inj := by
    intro i j h
    exact BitVec.eq_of_toInt_eq (Int.repr_inj.mp (String.toList_inj.mp h))
  free := by
    intro i h
    have hdigit {n : Nat} (hn : '_' ∈ (Nat.repr n).toList) : False := absurd (mem_repr hn) (by decide)
    unfold idxWord at h
    cases hi : i.toInt with
    | ofNat n =>
      rw [hi] at h
      exact hdigit h
    | negSucc n =>
      rw [hi] at h
      obtain h | h := List.mem_append.mp (String.toList_append ▸ h)
      · exact absurd h (by decide)
      · exact hdigit h

theorem elemName_toList (name : String) (idxs : List (BitVec 32)) :
    (elemName name idxs).toList = "__arr_".toList ++ name.toList ++ idxText idxs := by
  rw [elemName, String.toList_append, String.toList_append, String.toList_join]
  simp [idxText, text, idxWord, List.flatMap_map]

/-! ## Cells -/

/-- The parts of the inputs a formula can have a constant for. -/
inductive Cell
  | value (p : DefNode Unit) (path : List (BitVec 32))
  | length (p : DefNode Unit)

/-- Scalar inputs, elements that are scalars, and lengths of array inputs. -/
def Cell.Of (params : List (DefNode Unit)) : Cell → Prop
  | .value p path => p ∈ params ∧ path.length = p.type.depth ∧ ∀ idx ∈ path, 0 ≤ idx.toInt
  | .length p => p ∈ params ∧ 0 < p.type.depth

/-- The name of a cell's constant: `get_expr` has that of the input, or for an
element the one a lookup gives it, and `gen_expr` makes that of a length. -/
def Cell.name : Cell → String
  | .value p path => constName p.name path
  | .length p => p.name ++ ".len"

def Cell.constant : Cell → ZExpr
  | .value p path => (p.type.newSym.part path).const (constName p.name path)
  | .length p => .intConst (p.name ++ ".len")

/-- An element of an array, and one of an array whose name goes on as the
indices of the first do: over some whole ones, and the first digits of one. -/
inductive Cell.Overlap : Cell → Cell → Prop
  | mk {p q : DefNode Unit} {outer rest : List (BitVec 32)} {idx idx' : BitVec 32} {digits : List Char}
      (hname : q.name.toList = p.name.toList ++ (idxText outer ++ digits))
      (hidx : idxWord idx = digits ++ idxWord idx') :
      Overlap (.value p (outer ++ idx :: rest)) (.value q (idx' :: rest))

theorem IsIdent.head {name : String} (h : IsIdent name) {cs : List Char} : name.toList ≠ '_' :: cs := by
  obtain ⟨c, cs', hname, halpha, -⟩ := h
  intro heq
  obtain ⟨rfl, -⟩ := List.cons.inj (hname.symm.trans heq)
  exact absurd halpha (by decide)

theorem IsIdent.no_dot {name : String} (h : IsIdent name) : '.' ∉ name.toList := by
  obtain ⟨c, cs, hname, -, hall⟩ := h
  intro hdot
  rw [hname] at hdot
  exact absurd (hall _ hdot) (by decide)

/-- An element's name begins with `_`, which no identifier does. -/
theorem elemName_head (name : String) (path : List (BitVec 32)) : ∃ cs, (elemName name path).toList = '_' :: cs := by
  rw [elemName_toList]
  exact ⟨_, rfl⟩

/-- Elements have one name where the text of the one's indices is that of the
other's after what the other's name has more. -/
theorem elemName_eq_iff {name name' : String} {path path' : List (BitVec 32)} :
    elemName name path = elemName name' path' ↔
    (∃ cut, name'.toList = name.toList ++ cut ∧ idxText path = cut ++ idxText path') ∨
      ∃ cut, name.toList = name'.toList ++ cut ∧ idxText path' = cut ++ idxText path := by
  rw [← String.toList_inj, elemName_toList, elemName_toList, List.append_assoc, List.append_assoc,
    List.append_cancel_left_eq, List.append_eq_append_iff]

theorem constName_elem {name : String} {path : List (BitVec 32)} (h : path ≠ []) :
    constName name path = elemName name path :=
  if_neg h

/-- Overlapping elements have one name. -/
theorem Cell.Overlap.name_eq {c c' : Cell} (h : c.Overlap c') : c.name = c'.name := by
  obtain ⟨hname, hidx⟩ := h
  rw [Cell.name, Cell.name, constName_elem (by simp), constName_elem (by simp)]
  exact elemName_eq_iff.mpr (.inl ⟨_, hname, by simp [idxText, hidx]⟩)

/-- What one name has more than the other is the beginning of the indices. -/
theorem Cell.overlap_of_cut {p q : DefNode Unit} {path path' : List (BitVec 32)} {cut : List Char} (hpath' : path' ≠ [])
    (hname : q.name.toList = p.name.toList ++ cut) (htext : idxText path = cut ++ idxText path') :
    Cell.Overlap (.value p path) (.value q path') := by
  obtain ⟨outer, idx, rest, digits, idx', rfl, rfl, rfl, hidx⟩ := (idxWords.text_eq_append_iff hpath').mp htext
  exact .mk hname hidx

/-! ## The constants of a call -/

theorem ArrType.depth_toDecl (t : ArrType) : t.toDecl.depth = t.elem.depth + 1 := by
  cases t with
  | string => rfl
  | arr elem =>
    obtain ⟨s, n⟩ := elem
    cases s <;> rfl

/-- A place is as many indices below an input as the input's type is deeper. -/
theorem Tree.depth_symAt {syms : Nat → Option SymObj} {inputs : List SymId} {next : Nat} (h : Tree syms inputs next)
    {path : List (BitVec 32)} : ∀ {id e : SymId} {o o' : SymObj}, symAt syms id path = some e → syms id = some o →
      syms e = some o' → o.val.depth = path.length + o'.val.depth ∧ ∀ i ∈ path, 0 ≤ i.toInt := by
  induction path with
  | nil =>
    intro id e o o' he ho ho'
    obtain rfl := Option.some.inj he
    obtain rfl := Option.some.inj (ho.symm.trans ho')
    exact ⟨(Nat.zero_add _).symm, by simp⟩
  | cons i path ih =>
    intro id e o o' he ho ho'
    obtain ⟨c, hi, hc, he⟩ := symAt_cons_iff.mp he
    obtain ⟨oc, hoc⟩ := symAt_some he ho'
    obtain ⟨hdepth, hidx⟩ := ih he hoc ho'
    refine ⟨?_, List.forall_mem_cons.mpr ⟨hi, hidx⟩⟩
    obtain ⟨name, val⟩ := o
    have hmem := List.mem_of_getElem? hc
    rw [elemsOf_of_some ho] at hmem
    cases val with
    | array type s elems =>
      have hcls := (h.typed id name type s elems ho c hmem oc hoc).trans type.elem.newSym_cls.symm
      have hoc : oc.val.depth = type.elem.depth := (SymVal.depth_cls hcls).trans type.elem.newSym_depth
      rw [SymVal.depth, type.depth_toDecl, ← hoc, hdepth, List.length_cons]
      omega
    | _ => cases hmem

theorem SymVal.depth_of_scalar {v : SymVal} (h : v.isArray = false) : v.depth = 0 := by
  cases v with
  | array => cases h
  | _ => rfl

/-- What a call records are the constants of cells. -/
theorem Recorded.constant {w₀ w : World} {ms : List Mention} (h : Recorded w₀ ms w)
    (hroots : ∀ id ∈ w₀.inputs, ∀ r, w₀.syms id = some r →
      ∃ p ∈ params, r.name = p.name ∧ r.val.cls = p.type.newSym.cls) {sym : SymId} {k : Nat}
    (hk : (sym, k) ∈ w.z3.symsToExprId) : ∃ c : Cell, c.Of params ∧ w.z3.exprs[k]? = some c.constant := by
  obtain ⟨e, he, hrec⟩ := h.entry sym k hk
  cases hrec with
  | @value id path r _ o hdone hr hplace ho hscalar hval =>
    obtain ⟨p, hp, hname, hcls⟩ := hroots id (h.grown.inputs ▸ h.inputs id path (.inl hdone)) r hr
    obtain ⟨r', hr', -⟩ := h.grown.kept id r hr
    obtain ⟨hdepth, hidx⟩ := h.ok.tree.depth_symAt hplace hr' ho
    have hpart : o.val.cls = p.type.newSym.part path := (h.cls_of_value hr hplace ho).trans (SymVal.part_congr hcls)
    have hroot : r'.val.depth = p.type.depth := by
      rw [SymVal.depth_cls (h.grown.cls_eq hr hr'), SymVal.depth_cls hcls, p.type.newSym_depth]
    refine ⟨.value p path, ⟨hp, ?_, hidx⟩, ?_⟩
    · rw [← hroot, hdepth, SymVal.depth_of_scalar hscalar]
      rfl
    · rw [he, Cell.constant, ← hname, ← hpart, SymVal.const_cls o.val.cls_cls]
  | @length _ pre post r hdone hpre hr harr hval =>
    obtain ⟨p, hp, hname, hcls⟩ := hroots sym (h.grown.inputs ▸ h.inputs sym [] (.inr (by simp [hdone]))) r hr
    refine ⟨.length p, ⟨hp, ?_⟩, ?_⟩
    · rw [← p.type.newSym_depth, ← SymVal.depth_cls hcls]
      obtain ⟨name, val⟩ := r
      cases val with
      | array type => exact Nat.lt_of_le_of_lt (Nat.zero_le _) type.depth_elem
      | _ => cases harr
    · rw [he, Cell.constant, ← hname]

/-! ## Clashes -/

/-- **Two cells have one name exactly where they overlap.** -/
theorem names_distinct_iff {params : List (DefNode Unit)} (hident : ∀ p ∈ params, IsIdent p.name)
    (hdistinct : (params.map (·.name)).Nodup) {c c' : Cell} (hc : c.Of params) (hc' : c'.Of params) (hne : c ≠ c') :
    c.name ≠ c'.name ↔ ¬(c.Overlap c' ∨ c'.Overlap c) := by
  have hparam {p q : DefNode Unit} (hp : p ∈ params) (hq : q ∈ params) (h : p.name = q.name) : p = q :=
    List.inj_on_of_nodup_map hdistinct hp hq h
  -- the name of an element is that of no other kind of cell
  have helem {p q : DefNode Unit} {path : List (BitVec 32)} (hp : p ∈ params) :
      p.name ≠ elemName q.name path ∧ p.name ++ ".len" ≠ elemName q.name path := by
    obtain ⟨cs, hcs⟩ := elemName_head q.name path
    have hnil : p.name.toList ≠ [] := by
      obtain ⟨c, cs, h, -⟩ := hident p hp
      simp [h]
    obtain ⟨d, ds, hd⟩ := List.exists_cons_of_ne_nil hnil
    constructor
    · intro h
      exact (hident p hp).head (h ▸ hcs)
    · intro h
      rw [← h, String.toList_append, hd] at hcs
      obtain ⟨rfl, -⟩ := List.cons.inj hcs
      exact (hident p hp).head hd
  -- an identifier has no dot
  have hlen {p q : DefNode Unit} (hp : p ∈ params) : p.name ≠ q.name ++ ".len" := by
    intro h
    refine (hident p hp).no_dot ?_
    rw [h, String.toList_append]
    exact List.mem_append_right _ (by decide)
  refine not_congr ⟨fun h => ?_, fun h => h.elim Cell.Overlap.name_eq fun h' => h'.name_eq.symm⟩
  cases c with
  | length p =>
    cases c' with
    | length q => exact absurd (congrArg Cell.length (hparam hc.1 hc'.1 (by simpa [Cell.name] using h))) hne
    | value q path' =>
      by_cases hpath' : path' = []
      · subst hpath'
        exact absurd h.symm (hlen hc'.1)
      · rw [Cell.name, Cell.name, constName_elem hpath'] at h
        exact absurd h (helem hc.1).2
  | value p path =>
    by_cases hpath : path = []
    · subst hpath
      cases c' with
      | length q => exact absurd h (hlen hc.1)
      | value q path' =>
        by_cases hpath' : path' = []
        · subst hpath'
          exact absurd (congrArg (Cell.value · []) (hparam hc.1 hc'.1 h)) hne
        · rw [Cell.name, Cell.name, constName_elem hpath'] at h
          exact absurd h (helem hc.1).1
    · rw [Cell.name, constName_elem hpath] at h
      cases c' with
      | length q => exact absurd h.symm (helem hc'.1).2
      | value q path' =>
        by_cases hpath' : path' = []
        · subst hpath'
          exact absurd h.symm (helem hc'.1).1
        · rw [Cell.name, constName_elem hpath'] at h
          obtain ⟨cut, hname, htext⟩ | ⟨cut, hname, htext⟩ := elemName_eq_iff.mp h
          · exact .inl (Cell.overlap_of_cut hpath' hname htext)
          · exact .inr (Cell.overlap_of_cut hpath hname htext)

namespace Sample

/-- `int[] a, int[] a1`. -/
def twoArrays : List (DefNode Unit) := [param 1 "a" ⟨.int, 1⟩, param 2 "a1" ⟨.int, 1⟩]

theorem twoArrays_idents : ∀ p ∈ twoArrays, IsIdent p.name := by
  simp only [twoArrays, List.forall_mem_cons]
  exact ⟨⟨'a', [], by simp [param], by decide, by simp⟩, ⟨'a', ['1'], by simp [param], by decide, by simp⟩, by simp⟩

/-- An element of the i-th array. -/
def elem (i : Nat) (name : String) (idx : BitVec 32) : Cell := .value (param i name ⟨.int, 1⟩) [idx]

theorem elem_of (i : Nat) (name : String) {idx : BitVec 32} (h : param i name ⟨.int, 1⟩ ∈ twoArrays)
    (hidx : 0 ≤ idx.toInt) : (elem i name idx).Of twoArrays := ⟨h, rfl, by simpa using hidx⟩

end Sample

theorem names_distinct_iff_twoArrays : (Sample.elem 1 "a" 3).name ≠ (Sample.elem 2 "a1" 4).name ↔
    ¬((Sample.elem 1 "a" 3).Overlap (Sample.elem 2 "a1" 4) ∨ (Sample.elem 2 "a1" 4).Overlap (Sample.elem 1 "a" 3)) :=
  names_distinct_iff Sample.twoArrays_idents (by decide) (Sample.elem_of 1 "a" (by simp [Sample.twoArrays]) (by decide))
    (Sample.elem_of 2 "a1" (by simp [Sample.twoArrays]) (by decide)) (by simp [Sample.elem])

/-- `a[10]` and `a1[0]` are both `__arr_a10_`. -/
theorem twoArrays_clash : ¬ ∀ params : List (DefNode Unit), (∀ p ∈ params, IsIdent p.name) →
    (params.map (·.name)).Nodup → ∀ c c' : Cell, c.Of params → c'.Of params → c ≠ c' →
      c.constant.sort = c'.constant.sort → c.name ≠ c'.name := by
  intro h
  have hclash : (Sample.elem 1 "a" 10).Overlap (Sample.elem 2 "a1" 0) :=
    @Cell.Overlap.mk _ _ [] [] 10 0 ['1'] (by simp [Sample.param, idxText]) (by decide)
  exact h _ Sample.twoArrays_idents (by decide) _ _ (Sample.elem_of 1 "a" (by simp [Sample.twoArrays]) (by decide))
    (Sample.elem_of 2 "a1" (by simp [Sample.twoArrays]) (by decide)) (by simp [Sample.elem]) rfl hclash.name_eq

end DGen
