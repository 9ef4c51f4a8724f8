/-
The tree of the inputs: a symbol, the elements of an array, theirs. What is
kept of it, whatever is generated: an element is no input, it has the class
its array's type says, and an array has elements once its length is
determined, as many as that.
-/
import DGen.Symbols

namespace DGen

/-! ## Classes -/

/-- The class of a symbol, with nothing of it determined. -/
def SymVal.cls : SymVal → SymVal
  | .number _ => .number none
  | .char _ => .char none
  | .bool _ => .bool none
  | .array type _ _ => .array type none []

theorem SymVal.cls_cls (v : SymVal) : v.cls.cls = v.cls := by cases v <;> rfl

theorem DeclTy.newSym_cases (t : DeclTy) :
    t.newSym = .number none ∨ t.newSym = .char none ∨ t.newSym = .bool none ∨
      ∃ type, t.newSym = .array type none [] := by
  obtain ⟨s, n⟩ := t
  cases n with
  | zero => cases s <;> simp [newSym]
  | succ n => exact .inr (.inr (.inr ⟨.arr ⟨s, n⟩, by cases s <;> rfl⟩))

@[simp] theorem DeclTy.newSym_cls (t : DeclTy) : t.newSym.cls = t.newSym := by
  obtain h | h | h | ⟨_, h⟩ := t.newSym_cases <;> simp [h, SymVal.cls]

@[simp] theorem DeclTy.newSym_elems (t : DeclTy) : t.newSym.elems = [] := by
  obtain h | h | h | ⟨_, h⟩ := t.newSym_cases <;> simp [h, SymVal.elems]

/-- An array has as many elements as its length says, and before it has one none. -/
def SymVal.Sized : SymVal → Prop
  | .array _ none elems => elems = []
  | .array _ (some size) elems => (elems.length : Int) = size.toInt
  | _ => True

theorem DeclTy.newSym_sized (t : DeclTy) : t.newSym.Sized := by
  obtain h | h | h | ⟨_, h⟩ := t.newSym_cases <;> simp [h, SymVal.Sized]

/-! ## Deleting and building -/

/-- The destructors leave the objects they do not delete. -/
theorem deleteSyms_le : ∀ (n : Nat) (ids : List SymId) (syms : Nat → Option SymObj) (j : Nat),
    deleteSyms n ids syms j = none ∨ deleteSyms n ids syms j = syms j := by
  have hupdate : ∀ (syms : Nat → Option SymObj) (id j : Nat),
      Function.update syms id none j = none ∨ Function.update syms id none j = syms j := by
    intro syms id j
    by_cases hj : j = id
    · exact .inl (by simp [hj])
    · exact .inr (Function.update_of_ne hj _ _)
  have htrans : ∀ {a b c : Option SymObj}, a = none ∨ a = b → b = none ∨ b = c → a = none ∨ a = c := by
    rintro a b c (rfl | rfl) h
    · exact .inl rfl
    · exact h
  have hfold : ∀ (f : (Nat → Option SymObj) → SymId → Nat → Option SymObj) (j : Nat),
      (∀ syms id, f syms id j = none ∨ f syms id j = syms j) → ∀ (ids : List SymId) (syms : Nat → Option SymObj),
      ids.foldl f syms j = none ∨ ids.foldl f syms j = syms j := by
    intro f j hf ids
    induction ids with
    | nil => exact fun _ => .inr rfl
    | cons id ids ih => exact fun syms => htrans (ih _) (hf syms id)
  intro n
  induction n with
  | zero => exact fun ids syms j => hfold _ j (fun syms id => hupdate syms id j) ids syms
  | succ n ih =>
    intro ids syms j
    exact hfold _ j (fun syms id => htrans (hupdate _ id j) (ih _ _ j)) ids syms

theorem deleteSyms_nil (n : Nat) (syms : Nat → Option SymObj) : deleteSyms n [] syms = syms := by
  cases n <;> rfl

/-- The elements `init_arr` pushes. -/
def World.pushed (w : World) (elem : DeclTy) (n : Nat) : World :=
  { w with
    next := w.next + n
    syms := fun j => if w.next ≤ j ∧ j < w.next + n then some ⟨"", elem.newSym⟩ else w.syms j }

theorem World.pushed_zero (w : World) (elem : DeclTy) : w.pushed elem 0 = w := by
  have hsyms : (w.pushed elem 0).syms = w.syms := by
    funext j
    have hj : ¬ (w.next ≤ j ∧ j < w.next + 0) := by omega
    simp only [pushed, if_neg hj]
  cases w
  simp_all [pushed]

theorem World.pushed_succ (w : World) (elem : DeclTy) (n : Nat) :
    (w.addSym ⟨"", elem.newSym⟩).pushed elem n = w.pushed elem (n + 1) := by
  simp only [pushed, addSym, mk.injEq, and_true, true_and]
  refine ⟨by omega, funext fun j => ?_⟩
  by_cases hj : j = w.next
  · simp [hj]
  · rw [Function.update_of_ne hj]
    congr 1
    simp only [eq_iff_iff]
    omega

theorem World.pushed_syms_of_lt {w : World} {elem : DeclTy} {n j : Nat} (h : j < w.next) :
    (w.pushed elem n).syms j = w.syms j := by
  have hj : ¬ (w.next ≤ j ∧ j < w.next + n) := by omega
  simp only [pushed, if_neg hj]

/-- An array with `size` new elements. -/
def World.rebuild (w : World) (id : SymId) (name : String) (type : ArrType) (elems : List SymId)
    (size : BitVec 32) : World :=
  (World.pushed { w with syms := deleteSyms type.elem.depth elems w.syms } type.elem size.toNat).setSym id
    ⟨name, .array type (some size) (List.range' w.next size.toNat)⟩

/-- What there is after an array was built: it, its new elements, and what was not deleted. -/
theorem World.rebuild_some {w : World} {id : Nat} {name : String} {type : ArrType} {elems : List SymId}
    {size : BitVec 32} {j : Nat} {o : SymObj} (h : (w.rebuild id name type elems size).syms j = some o) :
    (j = id ∧ o = ⟨name, .array type (some size) (List.range' w.next size.toNat)⟩) ∨
      (j ≠ id ∧ (w.next ≤ j ∧ j < w.next + size.toNat) ∧
        o = ⟨"", type.elem.newSym⟩) ∨ (j ≠ id ∧ w.syms j = some o) := by
  by_cases hj : j = id
  · subst hj
    rw [rebuild, setSym_self] at h
    exact .inl ⟨rfl, (Option.some.inj h).symm⟩
  · rw [rebuild, setSym_of_ne _ _ hj] at h
    simp only [pushed] at h
    split at h
    next hr => exact .inr (.inl ⟨hj, hr, (Option.some.inj h).symm⟩)
    next =>
      refine .inr (.inr ⟨hj, ?_⟩)
      obtain hd | hd := deleteSyms_le type.elem.depth elems w.syms j
      · cases hd.symm.trans h
      · exact hd.symm.trans h

theorem toNat_of_nonneg {n : BitVec 32} (h : 0 ≤ n.toInt) : (n.toNat : Int) = n.toInt := by
  have := n.toInt_eq_toNat_cond
  split at this <;> omega

/-! ## The invariant -/

theorem mem_elemsOf_iff {syms : Nat → Option SymObj} {id e : Nat} :
    e ∈ elemsOf syms id ↔ ∃ o, syms id = some o ∧ e ∈ o.val.elems := by
  unfold elemsOf
  cases syms id <;> simp

theorem elemsOf_of_some {syms : Nat → Option SymObj} {id : Nat} {o : SymObj} (h : syms id = some o) :
    elemsOf syms id = o.val.elems := by
  simp [elemsOf, h]

structure Tree (syms : Nat → Option SymObj) (inputs : List SymId) (next : Nat) : Prop where
  fresh : ∀ id, next ≤ id → syms id = none
  nodup : inputs.Nodup
  below : ∀ id : Nat, id ∈ inputs → id < next
  child : ∀ id e : Nat, e ∈ elemsOf syms id → e < next ∧ e ∉ inputs
  parent : ∀ id id' e : Nat, e ∈ elemsOf syms id → e ∈ elemsOf syms id' → id = id'
  once : ∀ id, (elemsOf syms id).Nodup
  typed : ∀ id name type s elems, syms id = some ⟨name, .array type s elems⟩ →
    ∀ e ∈ elems, ∀ o, syms e = some o → o.val.cls = type.elem.newSym
  sized : ∀ id o, syms id = some o → o.val.Sized

namespace Tree

variable {syms : Nat → Option SymObj} {inputs : List SymId} {next : Nat}

theorem lt_next (h : Tree syms inputs next) {id : Nat} {o : SymObj} (ho : syms id = some o) : id < next := by
  by_contra hge
  cases (h.fresh id (by omega)).symm.trans ho

theorem elems_nil (h : Tree syms inputs next) {id : Nat} {name : String} {type : ArrType} {elems : List SymId}
    (ho : syms id = some ⟨name, .array type none elems⟩) : elems = [] := h.sized _ _ ho

/-- More addresses given out, but not to symbols. -/
theorem mono (h : Tree syms inputs next) {next' : Nat} (hle : next ≤ next') : Tree syms inputs next' :=
  { h with
    fresh := fun id hid => h.fresh id (Nat.le_trans hle hid)
    below := fun id hid => Nat.lt_of_lt_of_le (h.below id hid) hle
    child := fun id e he => ⟨Nat.lt_of_lt_of_le (h.child id e he).1 hle, (h.child id e he).2⟩ }

/-- A symbol's name or value changes, and not its class or its elements. -/
theorem update (h : Tree syms inputs next) {id : Nat} {o o' : SymObj} (ho : syms id = some o)
    (hcls : o'.val.cls = o.val.cls) (helems : o'.val.elems = o.val.elems) (hsized : o'.val.Sized) :
    Tree (Function.update syms id (some o')) inputs next := by
  have hof : elemsOf (Function.update syms id (some o')) = elemsOf syms := by
    funext j
    by_cases hj : j = id
    · subst hj
      rw [elemsOf_of_some ho, elemsOf_of_some (Function.update_self ..), helems]
    · unfold elemsOf
      rw [Function.update_of_ne hj]
  -- the object an address had before, of the same class
  have hold : ∀ {j x}, Function.update syms id (some o') j = some x → ∃ y, syms j = some y ∧ x.val.cls = y.val.cls := by
    intro j x hx
    by_cases hj : j = id
    · subst hj
      rw [Function.update_self] at hx
      cases hx
      exact ⟨o, ho, hcls⟩
    · rw [Function.update_of_ne hj] at hx
      exact ⟨x, hx, rfl⟩
  refine ⟨fun j hj => ?_, h.nodup, h.below, by rw [hof]; exact h.child, by rw [hof]; exact h.parent,
    by rw [hof]; exact h.once, fun j name type s elems hx e he x' hx' => ?_, fun j x hx => ?_⟩
  · rw [Function.update_of_ne (Nat.ne_of_gt (Nat.lt_of_lt_of_le (h.lt_next ho) hj))]
    exact h.fresh j hj
  · have hmem : e ∈ elemsOf syms j := by
      rw [← hof, elemsOf_of_some hx]
      exact he
    obtain ⟨⟨name', val⟩, hy, hc⟩ := hold hx
    obtain ⟨y', hy', hc'⟩ := hold hx'
    rw [elemsOf_of_some hy] at hmem
    cases val with
    | array type' s' elems' =>
      simp only [SymVal.cls, SymVal.array.injEq, and_true] at hc
      subst hc
      exact hc'.trans (h.typed j name' type s' elems' hy e hmem y' hy')
    | _ => cases hmem
  · by_cases hj : j = id
    · subst hj
      rw [Function.update_self] at hx
      cases hx
      exact hsized
    · rw [Function.update_of_ne hj] at hx
      exact h.sized j x hx

theorem mem_elemsOf_rebuild {w : World} {id : Nat} {name : String} {type : ArrType} {elems : List SymId}
    {size : BitVec 32} {j e : Nat} (h : e ∈ elemsOf (w.rebuild id name type elems size).syms j) :
    (j = id ∧ w.next ≤ e ∧ e < w.next + size.toNat) ∨ (j ≠ id ∧ e ∈ elemsOf w.syms j) := by
  obtain ⟨x, hx, he⟩ := mem_elemsOf_iff.mp h
  obtain ⟨rfl, rfl⟩ | ⟨-, -, rfl⟩ | ⟨hj, hx⟩ := World.rebuild_some hx
  · exact .inl ⟨rfl, List.mem_range'_1.mp he⟩
  · simp at he
  · exact .inr ⟨hj, mem_elemsOf_iff.mpr ⟨x, hx, he⟩⟩

/-- An array is built, whether it was before or not. -/
theorem rebuild {w : World} (h : Tree w.syms w.inputs w.next) {id : Nat} {name : String} {type : ArrType}
    {s : Option (BitVec 32)} {elems : List SymId} {size : BitVec 32} (ho : w.syms id = some ⟨name, .array type s elems⟩)
    (hsize : 0 ≤ size.toInt) :
    Tree (w.rebuild id name type elems size).syms w.inputs (w.rebuild id name type elems size).next := by
  have hnext : (w.rebuild id name type elems size).next = w.next + size.toNat := rfl
  have hlt := h.lt_next ho
  rw [hnext]
  refine ⟨fun j hj => ?_, h.nodup, fun j hj => Nat.lt_of_lt_of_le (h.below j hj) (Nat.le_add_right ..),
    fun j e he => ?_, fun j j' e he he' => ?_, fun j => ?_, fun j name' type' s' elems' hx e he x' hx' => ?_,
    fun j x hx => ?_⟩
  · by_contra hne
    obtain ⟨x, hx⟩ := Option.ne_none_iff_exists'.mp hne
    obtain ⟨rfl, -⟩ | ⟨-, hr, -⟩ | ⟨-, hx⟩ := World.rebuild_some hx
    · omega
    · omega
    · have := h.lt_next hx
      omega
  · obtain ⟨-, hle, hlt⟩ | ⟨-, he⟩ := mem_elemsOf_rebuild he
    · exact ⟨hlt, fun hin => Nat.lt_irrefl _ (Nat.lt_of_lt_of_le (h.below e hin) hle)⟩
    · exact ⟨Nat.lt_of_lt_of_le (h.child j e he).1 (Nat.le_add_right ..), (h.child j e he).2⟩
  · have hold : ∀ {j}, e ∈ elemsOf w.syms j → e < w.next := fun he => (h.child _ e he).1
    obtain ⟨rfl, hle, -⟩ | ⟨-, hold₁⟩ := mem_elemsOf_rebuild he <;>
      obtain ⟨rfl, hle', -⟩ | ⟨-, hold₂⟩ := mem_elemsOf_rebuild he'
    · rfl
    · have := hold hold₂
      omega
    · have := hold hold₁
      omega
    · exact h.parent j j' e hold₁ hold₂
  · cases hx : (w.rebuild id name type elems size).syms j with
    | none => simp [elemsOf, hx]
    | some x =>
      rw [elemsOf_of_some hx]
      obtain ⟨rfl, rfl⟩ | ⟨-, -, rfl⟩ | ⟨-, hx⟩ := World.rebuild_some hx
      · exact List.nodup_range' ..
      · simp
      · exact elemsOf_of_some hx ▸ h.once j
  · obtain ⟨rfl, heq⟩ | ⟨-, -, heq⟩ | ⟨-, hx⟩ := World.rebuild_some hx
    · cases heq
      obtain ⟨hle, -⟩ := List.mem_range'_1.mp he
      obtain ⟨rfl, -⟩ | ⟨-, -, rfl⟩ | ⟨-, hx'⟩ := World.rebuild_some hx'
      · omega
      · exact type.elem.newSym_cls
      · have := h.lt_next hx'
        omega
    · have hnil := type.elem.newSym_elems
      rw [← (SymObj.mk.inj heq).2, SymVal.elems] at hnil
      rw [hnil] at he
      cases he
    · have hbelow := (h.child j e (mem_elemsOf_iff.mpr ⟨_, hx, he⟩)).1
      have hcls := h.typed j name' type' s' elems' hx e he
      obtain ⟨rfl, rfl⟩ | ⟨-, hr, -⟩ | ⟨-, hx'⟩ := World.rebuild_some hx'
      · exact hcls ⟨name, .array type s elems⟩ ho
      · omega
      · exact hcls _ hx'
  · obtain ⟨rfl, rfl⟩ | ⟨-, -, rfl⟩ | ⟨-, hx⟩ := World.rebuild_some hx
    · rw [SymVal.Sized, List.length_range', toNat_of_nonneg hsize]
    · exact type.elem.newSym_sized
    · exact h.sized j x hx

end Tree

/-! ## Paths -/

/-- The symbol at some indices below another. -/
def symAt (syms : Nat → Option SymObj) : SymId → List (BitVec 32) → Option SymId
  | id, [] => some id
  | id, i :: path =>
    if i.toInt < 0 then none else (elemsOf syms id)[i.toNat]?.bind fun e => symAt syms e path

/-- The class of what is at some indices below a symbol of this class. -/
def SymVal.part : SymVal → List (BitVec 32) → SymVal
  | v, [] => v.cls
  | .array type _ _, _ :: path => type.elem.newSym.part path
  | v, _ :: _ => v.cls

section

variable {syms : Nat → Option SymObj}

theorem symAt_cons_iff {id e : SymId} {i : BitVec 32} {path : List (BitVec 32)} :
    symAt syms id (i :: path) = some e ↔
      ∃ c, 0 ≤ i.toInt ∧ (elemsOf syms id)[i.toNat]? = some c ∧ symAt syms c path = some e := by
  rw [symAt]
  split
  · simp only [reduceCtorEq, false_iff]
    rintro ⟨_, h, -⟩
    omega
  · rw [Option.bind_eq_some_iff]
    constructor
    · rintro ⟨c, hc, h⟩
      exact ⟨c, by omega, hc, h⟩
    · rintro ⟨c, -, hc, h⟩
      exact ⟨c, hc, h⟩

theorem symAt_append_iff {path path' : List (BitVec 32)} : ∀ {id e : SymId},
    symAt syms id (path ++ path') = some e ↔ ∃ c, symAt syms id path = some c ∧ symAt syms c path' = some e := by
  induction path with
  | nil => simp [symAt]
  | cons i path ih =>
    intro id e
    simp only [List.cons_append, symAt_cons_iff, ih]
    constructor
    · rintro ⟨c, hi, hc, d, hd, h⟩
      exact ⟨d, ⟨c, hi, hc, hd⟩, h⟩
    · rintro ⟨d, ⟨c, hi, hc, hd⟩, h⟩
      exact ⟨c, hi, hc, d, hd, h⟩

theorem symAt_snoc_iff {path : List (BitVec 32)} {i : BitVec 32} {id e : SymId} :
    symAt syms id (path ++ [i]) = some e ↔
      ∃ c, symAt syms id path = some c ∧ 0 ≤ i.toInt ∧ (elemsOf syms c)[i.toNat]? = some e := by
  simp [symAt_append_iff, symAt]

/-- A symbol is at one place of the tree. -/
theorem Tree.symAt_inj {inputs : List SymId} {next : Nat} (h : Tree syms inputs next) {id : SymId}
    (hid : id ∈ inputs) {path : List (BitVec 32)} : ∀ {id' e : SymId} {path' : List (BitVec 32)}, id' ∈ inputs →
      symAt syms id path = some e → symAt syms id' path' = some e → id = id' ∧ path = path' := by
  have hinput : ∀ {id c e : SymId} {n : Nat}, id ∈ inputs → (elemsOf syms c)[n]? = some e → e ≠ id := by
    intro id c e n hid he hne
    exact (h.child c e (List.mem_of_getElem? he)).2 (hne ▸ hid)
  induction path using List.reverseRecOn with
  | nil =>
    intro id' e path' hid' he he'
    obtain rfl := Option.some.inj he
    obtain rfl | ⟨path', i, rfl⟩ := path'.eq_nil_or_concat
    · exact ⟨(Option.some.inj he').symm, rfl⟩
    · obtain ⟨c, -, -, hc⟩ := symAt_snoc_iff.mp (List.concat_eq_append ▸ he')
      exact absurd rfl (hinput hid hc)
  | append_singleton path i ih =>
    intro id' e path' hid' he he'
    obtain ⟨c, hpath, hi, hc⟩ := symAt_snoc_iff.mp he
    obtain rfl | ⟨path', i', rfl⟩ := path'.eq_nil_or_concat
    · obtain rfl := Option.some.inj he'
      exact absurd rfl (hinput hid' hc)
    · rw [List.concat_eq_append] at he' ⊢
      obtain ⟨c', hpath', hi', hc'⟩ := symAt_snoc_iff.mp he'
      obtain rfl := h.parent c c' e (List.mem_of_getElem? hc) (List.mem_of_getElem? hc')
      obtain ⟨rfl, rfl⟩ := ih hid' hpath hpath'
      obtain ⟨hlt, -⟩ := List.getElem?_eq_some_iff.mp hc
      have hnat := (List.getElem?_inj hlt (h.once c)).mp (hc.trans hc'.symm)
      exact ⟨rfl, by rw [BitVec.eq_of_toNat_eq hnat]⟩

/-- Where no element is lost, what is at a place stays there. -/
theorem symAt_mono {syms' : Nat → Option SymObj}
    (h : ∀ (p : Nat) (n : Nat) (e : SymId), (elemsOf syms p)[n]? = some e → (elemsOf syms' p)[n]? = some e)
    {path : List (BitVec 32)} : ∀ {id e : SymId}, symAt syms id path = some e → symAt syms' id path = some e := by
  induction path with
  | nil => exact fun he => he
  | cons i path ih =>
    intro id e he
    obtain ⟨c, hi, hc, he⟩ := symAt_cons_iff.mp he
    exact symAt_cons_iff.mpr ⟨c, hi, h id i.toNat c hc, ih he⟩

theorem symAt_some {id e : SymId} {path : List (BitVec 32)} {o : SymObj} (h : symAt syms id path = some e)
    (ho : syms e = some o) : ∃ o', syms id = some o' := by
  cases path with
  | nil =>
    obtain rfl := Option.some.inj h
    exact ⟨o, ho⟩
  | cons i path =>
    obtain ⟨c, -, hc, -⟩ := symAt_cons_iff.mp h
    obtain ⟨o', ho', -⟩ := mem_elemsOf_iff.mp (List.mem_of_getElem? hc)
    exact ⟨o', ho'⟩

theorem SymVal.part_congr {v v' : SymVal} {path : List (BitVec 32)} (h : v.cls = v'.cls) :
    v.part path = v'.part path := by
  cases path with
  | nil => exact h
  | cons i path => cases v <;> cases v' <;> simp_all [cls, part]

/-- What is at a place has the class its input's type says. -/
theorem Tree.cls_symAt {inputs : List SymId} {next : Nat} (h : Tree syms inputs next) {path : List (BitVec 32)} :
    ∀ {id e : SymId} {o o' : SymObj}, symAt syms id path = some e → syms id = some o → syms e = some o' →
      o'.val.cls = o.val.part path := by
  induction path with
  | nil =>
    intro id e o o' he ho ho'
    obtain rfl := Option.some.inj he
    cases ho.symm.trans ho'
    rw [SymVal.part]
  | cons i path ih =>
    intro id e o o' he ho ho'
    obtain ⟨c, -, hc, he⟩ := symAt_cons_iff.mp he
    obtain ⟨name, val⟩ := o
    have hmem := List.mem_of_getElem? hc
    rw [elemsOf_of_some ho] at hmem
    cases val with
    | array type s elems =>
      obtain ⟨oc, hoc⟩ := symAt_some he ho'
      rw [SymVal.part, ih he hoc ho']
      exact SymVal.part_congr (by rw [h.typed id name type s elems ho c hmem oc hoc, type.elem.newSym_cls])
    | _ => cases hmem

end

end DGen
