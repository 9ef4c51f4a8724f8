/-
The fill loop of `start_z3_gen`: the solver's values are written to the
symbols that were recorded.

It meets only live, undetermined symbols, and loses none of them, unless a
condition mentions a length and then looks an element of the same input up:
the lookup draws the length, and filling it deletes the element
(`fill_safe_iff`).
-/
import DGen.EvalContext
import DGen.Recording

namespace DGen

open Memory StateT

/-! ## Filling one symbol -/

/-- Nothing of an object is determined. -/
def SymObj.Blank (o : SymObj) : Prop := o.val = o.val.cls

theorem SymVal.elems_of_scalar {v : SymVal} (h : v.isArray = false) : v.elems = [] := by
  cases v with
  | array => cases h
  | _ => rfl

theorem SymVal.isArray_cls {v v' : SymVal} (h : v.cls = v'.cls) : v.isArray = v'.isArray := by
  cases v <;> cases v' <;> simp_all [cls, isArray]

theorem SymObj.blank_of_scalar {o : SymObj} (hscalar : o.val.isArray = false) (hval : o.val.hasVal = false) :
    o.Blank := by
  obtain ⟨name, val⟩ := o
  cases val with
  | number v | char v | bool v =>
    cases v <;> simp [SymVal.hasVal] at hval
    rfl
  | array => cases hscalar

theorem SymObj.blank_of_sized {o : SymObj} (hval : o.val.determined = false) (hsized : o.val.Sized) : o.Blank := by
  obtain ⟨name, val⟩ := o
  cases val with
  | number v | char v | bool v =>
    cases v <;> simp [SymVal.determined] at hval
    rfl
  | array type s elems =>
    cases s <;> simp [SymVal.determined] at hval
    rw [SymVal.Sized] at hsized
    rw [Blank, hsized, SymVal.cls]

theorem SymObj.Blank.elems {o : SymObj} (h : o.Blank) : o.val.elems = [] := by
  rw [h]
  cases o.val <;> rfl

theorem SymObj.Blank.determined {o : SymObj} (h : o.Blank) : o.val.determined = false := by
  rw [h]
  cases o.val <;> rfl

theorem getNumeralInt64_ok_iff {z : ZVal} {v : Int} {w w' : World} :
    z.getNumeralInt64 w = .ok (v, w') ↔ z = .int v ∧ (-2 ^ 63 ≤ v ∧ v < 2 ^ 63) ∧ w = w' := by
  cases z with
  | int u =>
    simp only [ZVal.getNumeralInt64]
    split
    · rw [pure_ok_iff]
      constructor
      · rintro ⟨rfl, rfl⟩
        exact ⟨rfl, ‹_›, rfl⟩
      · rintro ⟨h, -, rfl⟩
        cases h
        exact ⟨rfl, rfl⟩
    · simp only [fault_ok_iff, ZVal.int.injEq, false_iff]
      rintro ⟨rfl, h, -⟩
      exact absurd h ‹_›
  | bool b => simp [ZVal.getNumeralInt64]

/-- Filling gives a scalar a value, or builds an array. -/
theorem fillSym_ok {sym : SymId} {z : ZVal} {w w' : World} (h : fillSym sym z w = .ok ((), w')) :
    (∃ o v, w.syms sym = some o ∧ o.val.isArray = false ∧ v.cls = o.val.cls ∧ v.determined = true ∧
      w' = w.setSym sym { o with val := v }) ∨
    ∃ name type s elems size, w.syms sym = some ⟨name, .array type s elems⟩ ∧ 0 ≤ size.toInt ∧
      w' = w.rebuild sym name type elems size := by
  obtain ⟨⟨name, val⟩, _, hget, h⟩ := bind_ok_iff.mp h
  obtain ⟨ho, rfl⟩ := getSym_ok_iff.mp hget
  cases val with
  | number =>
    obtain ⟨v, _, hv, h⟩ := bind_ok_iff.mp h
    obtain ⟨-, -, rfl⟩ := getNumeralInt64_ok_iff.mp hv
    exact .inl ⟨_, .number (some _), ho, rfl, rfl, rfl, (setSym_ok_iff.mp h).symm⟩
  | char =>
    obtain ⟨v, _, hv, h⟩ := bind_ok_iff.mp h
    obtain ⟨-, -, rfl⟩ := getNumeralInt64_ok_iff.mp hv
    exact .inl ⟨_, .char (some _), ho, rfl, rfl, rfl, (setSym_ok_iff.mp h).symm⟩
  | bool => exact .inl ⟨_, .bool (some _), ho, rfl, rfl, rfl, (setSym_ok_iff.mp h).symm⟩
  | array type s elems =>
    obtain ⟨v, _, hv, h⟩ := bind_ok_iff.mp h
    obtain ⟨-, -, rfl⟩ := getNumeralInt64_ok_iff.mp hv
    obtain ⟨hsize, name', type', s', elems', ho', rfl⟩ := initArr_ok_iff.mp h
    cases ho.symm.trans ho'
    exact .inr ⟨name, type, s, elems, _, ho, hsize, rfl⟩

theorem World.Ok.rebuild {w : World} (hok : w.Ok) {id : Nat} {name : String} {type : ArrType}
    {s : Option (BitVec 32)} {elems : List SymId} {size : BitVec 32} (ho : w.syms id = some ⟨name, .array type s elems⟩)
    (hsize : 0 ≤ size.toInt) : (w.rebuild id name type elems size).Ok := by
  have hdata : ∀ {p}, w.DataPtr p → (w.rebuild id name type elems size).DataPtr p := by
    intro p hp
    refine ⟨?_, Nat.lt_of_lt_of_le hp.2 (Nat.le_add_right ..)⟩
    cases hnew : (w.rebuild id name type elems size).syms p.block with
    | none => rfl
    | some o =>
      obtain ⟨he, -⟩ | ⟨-, hr, -⟩ | ⟨-, hx⟩ := World.rebuild_some hnew
      · cases hp.1.symm.trans (he ▸ ho)
      · exact absurd hp.2 (Nat.not_lt.mpr hr.1)
      · cases hp.1.symm.trans hx
  exact ⟨hok.tree.rebuild ho hsize, fun b bs p i hb hmem => hdata (hok.mem b bs p i hb hmem),
    fun r p hp => hdata (hok.frame r p hp), fun x hx => ⟨hdata (hok.globals x hx).1, (hok.globals x hx).2⟩⟩

theorem fillSym_keeps {sym : SymId} {z : ZVal} {w w' : World} (h : fillSym sym z w = .ok ((), w')) (hok : w.Ok) :
    w'.Ok ∧ w'.inputs = w.inputs ∧ w.next ≤ w'.next := by
  obtain ⟨o, v, ho, hscalar, hcls, -, rfl⟩ | ⟨name, type, s, elems, size, ho, hsize, rfl⟩ := fillSym_ok h
  · have hscalar' := (SymVal.isArray_cls hcls).trans hscalar
    refine ⟨hok.setSym ho hcls ?_ ?_, rfl, Nat.le_refl _⟩
    · exact (SymVal.elems_of_scalar hscalar').trans (SymVal.elems_of_scalar hscalar).symm
    · cases v with
      | array => cases hscalar'
      | _ => trivial
  · exact ⟨hok.rebuild ho hsize, rfl, Nat.le_add_right ..⟩

/-- Some blank symbols were filled, and no others changed. -/
structure Filled (ids : List SymId) (w w' : World) : Prop where
  ok : w'.Ok
  inputs : w'.inputs = w.inputs
  next : w.next ≤ w'.next
  others : ∀ j : Nat, j < w.next → j ∉ ids → w'.syms j = w.syms j
  set : ∀ id ∈ ids, ∃ o o', w.syms id = some o ∧ w'.syms id = some o' ∧ o'.val.cls = o.val.cls ∧
    o'.val.determined = true
  blank : ∀ id ∈ ids, ∃ o, w.syms id = some o ∧ o.Blank

theorem fillSym_filled {sym : SymId} {z : ZVal} {w w' : World} (h : fillSym sym z w = .ok ((), w')) (hok : w.Ok)
    {o : SymObj} (ho : w.syms sym = some o) (hblank : o.Blank) : Filled [sym] w w' := by
  obtain ⟨hok', hinputs, hnext⟩ := fillSym_keeps h hok
  refine ⟨hok', hinputs, hnext, fun j hj hne => ?_, ?_, ?_⟩
  · rw [List.mem_singleton] at hne
    obtain ⟨_, _, -, -, -, -, rfl⟩ | ⟨name, type, s, elems, size, ho', -, rfl⟩ := fillSym_ok h
    · exact World.setSym_of_ne _ _ hne
    · cases ho.symm.trans ho'
      obtain rfl : elems = [] := hblank.elems
      rw [World.rebuild, World.setSym_of_ne _ _ hne, World.pushed_syms_of_lt (by exact hj), deleteSyms_nil]
  · rw [List.forall_mem_singleton]
    obtain ⟨o', v, ho', -, hcls, hdet, rfl⟩ | ⟨name, type, s, elems, size, ho', -, rfl⟩ := fillSym_ok h
    · cases ho.symm.trans ho'
      exact ⟨o, _, ho, World.setSym_self .., hcls, hdet⟩
    · exact ⟨_, _, ho', World.setSym_self .., rfl, rfl⟩
  · simpa using ⟨o, ho, hblank⟩

namespace Filled

variable {ids ids' : List SymId} {w w' w'' : World}

theorem nil (hok : w.Ok) : Filled [] w w :=
  ⟨hok, rfl, Nat.le_refl _, fun _ _ _ => rfl, by simp, by simp⟩

/-- No element is lost: blank symbols have none. -/
theorem symAt (h : Filled ids w w') (hok : w.Ok) {path : List (BitVec 32)} {id e : SymId}
    (he : symAt w.syms id path = some e) : DGen.symAt w'.syms id path = some e := by
  refine symAt_mono (fun p n c hc => ?_) he
  obtain ⟨o, ho, hmem⟩ := mem_elemsOf_iff.mp (List.mem_of_getElem? hc)
  have hnin : p ∉ ids := by
    intro hp
    obtain ⟨o', ho', hblank⟩ := h.blank p hp
    cases ho.symm.trans ho'
    rw [hblank.elems] at hmem
    cases hmem
  unfold elemsOf at hc ⊢
  rw [h.others p (hok.tree.lt_next ho) hnin]
  exact hc

theorem append (h : Filled ids w w') (h' : Filled ids' w' w'') (hok : w.Ok) (hdisj : ∀ id ∈ ids, id ∉ ids')
    (hblank : ∀ id ∈ ids', ∃ o, w.syms id = some o) : Filled (ids ++ ids') w w'' := by
  have hlt : ∀ {id : Nat} {o}, w.syms id = some o → id < w.next := fun ho => hok.tree.lt_next ho
  refine ⟨h'.ok, h'.inputs.trans h.inputs, Nat.le_trans h.next h'.next, fun j hj hmem => ?_, fun id hid => ?_,
    fun id hid => ?_⟩
  · rw [List.mem_append, not_or] at hmem
    rw [h'.others j (Nat.lt_of_lt_of_le hj h.next) hmem.2]
    exact h.others j hj hmem.1
  · rw [List.mem_append] at hid
    by_cases hin : id ∈ ids
    · obtain ⟨o, o', ho, ho', hcls, hdet⟩ := h.set id hin
      have hlt' := Nat.lt_of_lt_of_le (hlt ho) h.next
      exact ⟨o, o', ho, (h'.others id hlt' (hdisj id hin)).trans ho', hcls, hdet⟩
    · have hid' := hid.resolve_left hin
      obtain ⟨o, ho⟩ := hblank id hid'
      obtain ⟨o', o'', ho', ho'', hcls, hdet⟩ := h'.set id hid'
      exact ⟨o', o'', (h.others id (hlt ho) hin).symm.trans ho', ho'', hcls, hdet⟩
  · rw [List.mem_append] at hid
    by_cases hin : id ∈ ids
    · exact h.blank id hin
    · have hid' := hid.resolve_left hin
      obtain ⟨o, ho⟩ := hblank id hid'
      obtain ⟨o', ho', hb⟩ := h'.blank id hid'
      exact ⟨o', (h.others id (hlt ho) hin).symm.trans ho', hb⟩

end Filled

/-! ## The loop -/

section

variable {m : Model} {exprs : List ZExpr}

theorem fillLoop_cons_ok_iff {sym : SymId} {k : Nat} {items : List (SymId × Nat)} {w w' : World} :
    fillLoop m exprs ((sym, k) :: items) w = .ok ((), w') ↔ ∃ e w₁, exprs[k]? = some e ∧
      fillSym sym (m.eval e) w = .ok ((), w₁) ∧ fillLoop m exprs items w₁ = .ok ((), w') := by
  rw [fillLoop, bind_ok_iff]
  simp only [ofOption_ok_iff]
  constructor
  · rintro ⟨e, _, ⟨he, rfl⟩, h⟩
    obtain ⟨_, w₁, hfill, h⟩ := bind_ok_iff.mp h
    exact ⟨e, w₁, he, hfill, h⟩
  · rintro ⟨e, w₁, he, hfill, h⟩
    exact ⟨e, w, ⟨he, rfl⟩, bind_ok_iff.mpr ⟨(), w₁, hfill, h⟩⟩

def World.Blank (w : World) (id : SymId) : Prop := ∃ o, w.syms id = some o ∧ o.Blank

theorem Filled.blank_others {ids : List SymId} {w w' : World} (h : Filled ids w w') (hok : w.Ok) {id : SymId}
    (hid : id ∉ ids) (hblank : w.Blank id) : w'.Blank id := by
  obtain ⟨o, ho, hb⟩ := hblank
  exact ⟨o, (h.others id (hok.tree.lt_next ho) hid).trans ho, hb⟩

theorem fillLoop_filled {items : List (SymId × Nat)} : ∀ {w w' : World}, fillLoop m exprs items w = .ok ((), w') →
    w.Ok → (items.map (·.1)).Nodup → (∀ item ∈ items, w.Blank item.1) → Filled (items.map (·.1)) w w' := by
  induction items with
  | nil =>
    intro w w' h hok _ _
    obtain ⟨-, rfl⟩ := pure_ok_iff.mp h
    exact .nil hok
  | cons item items ih =>
    obtain ⟨sym, k⟩ := item
    intro w w' h hok hnodup hblank
    obtain ⟨e, w₁, -, hfill, h⟩ := fillLoop_cons_ok_iff.mp h
    obtain ⟨hnin, hnodup⟩ := List.nodup_cons.mp hnodup
    obtain ⟨o, ho, hb⟩ := hblank _ (List.mem_cons_self ..)
    have hfilled := fillSym_filled hfill hok ho hb
    have hrest : ∀ item ∈ items, w.Blank item.1 := fun item hi => hblank item (List.mem_cons_of_mem _ hi)
    have hne : ∀ item ∈ items, item.1 ∉ [sym] := by
      intro item hi he
      rw [List.mem_singleton] at he
      exact hnin (List.mem_map.mpr ⟨item, hi, he⟩)
    refine hfilled.append (ih h hfilled.ok hnodup fun item hi => hfilled.blank_others hok (hne item hi) (hrest item hi))
      hok (by simpa using hnin) fun id hid => ?_
    obtain ⟨item, hi, rfl⟩ := List.mem_map.mp hid
    obtain ⟨o', ho', -⟩ := hrest item hi
    exact ⟨o', ho'⟩

end

/-! ## Which symbols are live -/

/-- A node of the tree of an input. -/
def World.InTree (w : World) (id : SymId) : Prop :=
  ∃ root ∈ w.inputs, ∃ path o, symAt w.syms root path = some id ∧ w.syms id = some o

def World.Determined (w : World) (id : SymId) : Prop := ∃ o, w.syms id = some o ∧ o.val.determined = true

def World.Undetermined (w : World) (id : SymId) : Prop := ∃ o, w.syms id = some o ∧ o.val.determined = false

/-- Whenever the fill loop has filled some of the symbols, all are in the
tree, those determined and the others not. -/
def FillSafe (m : Model) (exprs : List ZExpr) (items : List (SymId × Nat)) (w : World) : Prop :=
  ∀ done todo w', items = done ++ todo → fillLoop m exprs done w = .ok ((), w') →
    (∀ item ∈ items, w'.InTree item.1) ∧ (∀ item ∈ done, w'.Determined item.1) ∧
      ∀ item ∈ todo, w'.Undetermined item.1

theorem fillSafe_of_blank {m : Model} {exprs : List ZExpr} {items : List (SymId × Nat)} {w : World} (hok : w.Ok)
    (hnodup : (items.map (·.1)).Nodup) (hblank : ∀ item ∈ items, w.Blank item.1)
    (hin : ∀ item ∈ items, w.InTree item.1) : FillSafe m exprs items w := by
  intro done todo w' hsplit hrun
  subst hsplit
  rw [List.map_append] at hnodup
  have hfilled := fillLoop_filled hrun hok (List.nodup_append.mp hnodup).1
    fun item hi => hblank item (List.mem_append_left _ hi)
  have hdone : ∀ item ∈ done, w'.Determined item.1 := by
    intro item hi
    obtain ⟨-, o', -, ho', -, hdet⟩ := hfilled.set item.1 (List.mem_map_of_mem hi)
    exact ⟨o', ho', hdet⟩
  have htodo : ∀ item ∈ todo, w'.Undetermined item.1 := by
    intro item hi
    have hnin : item.1 ∉ done.map (·.1) := fun hd =>
      (List.nodup_append.mp hnodup).2.2 _ hd _ (List.mem_map_of_mem hi) rfl
    obtain ⟨o, ho, hb⟩ := hfilled.blank_others hok hnin (hblank item (List.mem_append_right _ hi))
    exact ⟨o, ho, hb.determined⟩
  refine ⟨fun item hi => ?_, hdone, htodo⟩
  obtain ⟨root, hroot, path, -, hplace, -⟩ := hin item hi
  have hobj : ∃ o, w'.syms item.1 = some o := by
    obtain hi | hi := List.mem_append.mp hi
    · exact (hdone item hi).imp fun _ h => h.1
    · exact (htodo item hi).imp fun _ h => h.1
  obtain ⟨o, ho⟩ := hobj
  exact ⟨root, hfilled.inputs ▸ hroot, path, o, hfilled.symAt hok hplace, ho⟩

/-- No undetermined length is mentioned, for the first time, before an element of its input is looked up. -/
def LengthsApart (w : World) (ms : List Mention) : Prop :=
  ∀ id name type elems, w.syms id = some ⟨name, .array type none elems⟩ → ∀ pre post,
    ms = pre ++ .length id :: post → (∀ path, .value id path ∉ pre) → ∀ path, .value id path ∉ post

section

variable {w₀ w : World} {ms : List Mention}

/-- A length that is recorded was not looked up, where lengths are apart. -/
theorem LengthsApart.not_mem (h : LengthsApart w₀ ms) {id : SymId} {r : SymObj} {pre post : List Mention}
    (hms : ms = pre ++ .length id :: post) (hpre : ∀ path, .value id path ∉ pre) (hr : w₀.syms id = some r)
    (harr : r.val.isArray = true) (hval : r.val.determined = false) (path : List (BitVec 32)) :
      .value id path ∉ ms := by
  obtain ⟨name, val⟩ := r
  cases val with
  | array type s elems =>
    cases s with
    | some n => cases hval
    | none =>
      rw [hms]
      simp [hpre path, h id name type elems hr pre post hms hpre path]
  | _ => cases harr

/-- Where lengths are apart, what is recorded is blank and in the tree. -/
theorem Recorded.blank_of_apart (h : Recorded w₀ ms w) (hapart : LengthsApart w₀ ms) {sym : SymId} {k : Nat}
    (hk : (sym, k) ∈ w.z3.symsToExprId) : w.Blank sym ∧ w.InTree sym := by
  obtain ⟨e, -, hrec⟩ := h.entry sym k hk
  cases hrec with
  | @value id path _ _ o hdone hr hplace ho hscalar hval =>
    exact ⟨⟨o, ho, SymObj.blank_of_scalar hscalar hval⟩, id, h.inputs id path (.inl hdone), path, o, hplace, ho⟩
  | @length _ pre post r hdone hpre hr harr hval =>
    have hnot := hapart.not_mem hdone hpre hr harr hval
    have hin : sym ∈ w.inputs := h.inputs sym [] (.inr (by simp [hdone]))
    have ho := (h.unlooked sym (h.grown.inputs ▸ hin) hnot).trans hr
    exact ⟨⟨r, ho, SymObj.blank_of_sized hval (h.ok.tree.sized sym r ho)⟩, sym, hin, [], r, rfl, ho⟩

/-- Where they are not, a symbol is recorded that has been determined since. -/
theorem Recorded.determined_of_not_apart (h : Recorded w₀ ms w) (hapart : ¬ LengthsApart w₀ ms) :
    ∃ id k path, (id, k) ∈ w.z3.symsToExprId ∧ .value id path ∈ ms ∧ w₀.Undetermined id ∧
      ∃ name type size elems, w.syms id = some ⟨name, .array type (some size) elems⟩ := by
  simp only [LengthsApart, not_forall, not_not] at hapart
  obtain ⟨id, name, type, elems, hr, pre, post, hms, hpre, path, hpath⟩ := hapart
  obtain ⟨k, hk⟩ := h.length id pre post _ hms hpre hr rfl
  have hmem : .value id path ∈ ms := by
    rw [hms]
    exact List.mem_append_right _ (List.mem_cons_of_mem _ hpath)
  obtain ⟨⟨name', val⟩, ho, -⟩ := h.grown.kept id _ hr
  refine ⟨id, k, path, hk, hmem, ⟨_, hr, rfl⟩, ?_⟩
  have hcls := h.grown.cls_eq hr ho
  cases val with
  | array type' s elems' =>
    cases s with
    | some size => exact ⟨name', type', size, elems', ho⟩
    | none => cases h.looked id path _ hmem ho rfl
  | _ => cases hcls

end

/-! ## The loop of a call -/

/-- `start_z3_gen` comes to its fill loop in the state `w'`, with the model `m`. -/
structure ReachesFill (check : List ZExpr → CheckResult) (cond : Expr Symbol) (precond : PrecondNode Symbol)
    (m : Model) (w w' : World) : Prop where
  sat : ∃ fs, genFormulas cond precond w = .ok (fs, w') ∧ check fs = .sat m
  nonempty : w'.z3.exprs ≠ []

theorem ReachesFill.startZ3Gen_eq {check : List ZExpr → CheckResult} {cond : Expr Symbol} {precond : PrecondNode Symbol}
    {m : Model} {w w' : World} (h : ReachesFill check cond precond m w w') (walk : Walk) :
    startZ3Gen check walk cond precond w = fillLoop m w'.z3.exprs (walk.order w'.z3.symsToExprId) w' := by
  obtain ⟨fs, hgen, hsat⟩ := h.sat
  rw [startZ3Gen, bind_of_ok hgen, bind_of_ok (get_ok_iff.mpr ⟨rfl, rfl⟩)]
  simp [h.nonempty, hsat]

/-- **The solver's answer is written to live, undetermined inputs only,** and
all of them stay, exactly when no length is mentioned before a lookup draws it. -/
theorem fill_safe_iff {check : List ZExpr → CheckResult} {walk : Walk} {cond : Expr Symbol}
    {precond : PrecondNode Symbol}
    {m : Model} {w w' : World} (hok : w.Ok) (h : ReachesFill check cond precond m w w') :
    FillSafe m w'.z3.exprs (walk.order w'.z3.symsToExprId) w' ↔ LengthsApart w (mentions w cond precond) := by
  obtain ⟨fs, hgen, -⟩ := h.sat
  have hrec := genFormulas_recorded hgen hok
  have hmem : ∀ {item}, item ∈ walk.order w'.z3.symsToExprId ↔ item ∈ w'.z3.symsToExprId := (walk.perm _).mem_iff
  constructor
  · intro hsafe
    by_contra hapart
    obtain ⟨id, k, path, hk, -, -, name, type, size, elems, ho⟩ := hrec.determined_of_not_apart hapart
    obtain ⟨-, -, htodo⟩ := hsafe [] _ w' rfl rfl
    obtain ⟨o, ho', hdet⟩ := htodo _ (hmem.mpr hk)
    cases ho.symm.trans ho'
    cases hdet
  · intro hapart
    refine fillSafe_of_blank hrec.ok ?_ (fun item hi => ?_) fun item hi => ?_
    · exact ((walk.perm _).map _).nodup_iff.mpr hrec.keys
    · exact (hrec.blank_of_apart hapart (hmem.mp hi)).1
    · exact (hrec.blank_of_apart hapart (hmem.mp hi)).2

namespace Sample

/-- `int f(int[] a) { [] if c { return 1 } return 2 }`. -/
def onArray (c : Expr Unit) (distinct : (Body.keyIds [.if_ (node 2) (some noPrecond) c [ret 14 (num 15 1)],
    ret 16 (num 17 2)]).Nodup) : FunctionNode Unit where
  node := node 0
  retType := ⟨.int, 0⟩
  name := "f"
  args := [param 1 "a" ⟨.int, 1⟩]
  body := [.if_ (node 2) (some noPrecond) c [ret 14 (num 15 1)], ret 16 (num 17 2)]
  distinct := distinct

def len (i j : NodeId) (name : String) : Expr Unit := .propertyLookup (node i) ⟨node j, name, ()⟩ "len"

/-- `a[0] > 1 && a.len > 2`. -/
def elemThenLen : FunctionNode Unit :=
  onArray (.binOp (node 3) .and (.binOp (node 4) .gt (lookup 5 6 "a" (num 7 0)) (num 8 1))
    (.binOp (node 9) .gt (len 10 11 "a") (num 12 2))) (by decide)

/-- `a.len > 2 && a[0] > 1`. -/
def lenThenElem : FunctionNode Unit :=
  onArray (.binOp (node 3) .and (.binOp (node 9) .gt (len 10 11 "a") (num 12 2))
    (.binOp (node 4) .gt (lookup 5 6 "a" (num 7 0)) (num 8 1))) (by decide)

/-- Every integer is `n`, and every boolean true. -/
def constModel (n : Int) : Model := ⟨fun _ => n, fun _ => true, fun _ => 0⟩

def inOrder : Walk := ⟨id, fun _ => .refl _⟩

end Sample

theorem fill_safe_iff_elemThenLen : ∃ cond precond w w', FirstCall Sample.elemThenLen (Sample.draws 3) cond precond w ∧
    ReachesFill (checkWith (Sample.constModel 3)) cond precond (Sample.constModel 3) w w' ∧
    (FillSafe (Sample.constModel 3) w'.z3.exprs (Sample.inOrder.order w'.z3.symsToExprId) w' ↔
      LengthsApart w (mentions w cond precond)) := by
  obtain ⟨cond, precond, w, hcall, w', hreach⟩ : ∃ cond precond w,
      FirstCall Sample.elemThenLen (Sample.draws 3) cond precond w ∧
        ∃ w', ReachesFill (checkWith (Sample.constModel 3)) cond precond (Sample.constModel 3) w w' :=
    ⟨_, _, _, ⟨_, _, _, _, rfl, List.mem_cons_self .., rfl, rfl, rfl⟩, _, ⟨_, rfl, rfl⟩, List.cons_ne_nil _ _⟩
  exact ⟨cond, precond, w, w', hcall, hreach, fill_safe_iff hcall.ok hreach⟩

/-- The length of `a` is recorded, and determined before the loop. -/
theorem lenThenElem_unsafe : ¬ ∀ (f : FunctionNode Unit) (env : Env) (check : List ZExpr → CheckResult)
    (walk : Walk) (cond : Expr Symbol) (precond : PrecondNode Symbol) (m : Model) (w w' : World), Sound check →
    FirstCall f env cond precond w → ReachesFill check cond precond m w w' →
      FillSafe m w'.z3.exprs (walk.order w'.z3.symsToExprId) w' := by
  intro h
  obtain ⟨cond, precond, w, hcall, w', hreach, hdet⟩ : ∃ cond precond w,
      FirstCall Sample.lenThenElem (Sample.draws 3) cond precond w ∧
        ∃ w', ReachesFill (checkWith (Sample.constModel 3)) cond precond (Sample.constModel 3) w w' ∧
          ∃ item ∈ w'.z3.symsToExprId, ∃ o, w'.syms item.1 = some o ∧ o.val.determined = true :=
    ⟨_, _, _, ⟨_, _, _, _, rfl, List.mem_cons_self .., rfl, rfl, rfl⟩, _, ⟨⟨_, rfl, rfl⟩, List.cons_ne_nil _ _⟩,
      _, List.mem_cons_of_mem _ (List.mem_cons_self ..), _, rfl, rfl⟩
  obtain ⟨item, hmem, o, ho, hd⟩ := hdet
  obtain ⟨-, -, htodo⟩ := h _ _ _ Sample.inOrder _ _ _ _ _ (checkWith_sound _) hcall hreach [] _ w' rfl rfl
  obtain ⟨o', ho', hd'⟩ := htodo item hmem
  cases ho.symm.trans ho'
  cases hd.symm.trans hd'

end DGen
