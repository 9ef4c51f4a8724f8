/-
What an operation can change: generation and the solver's values change
symbols only, and the lookups of `get_property` and `gather_rec` only add
entries to the table, none of which is marked as allocated.
-/
import DGen.Encoders

namespace DGen

open Memory StateT

/-! ## What changes symbols only -/

/-- Only symbols differ; no input is lost, and no other address becomes one's. -/
structure World.OnSymbols (w w' : World) : Prop where
  inputs : w'.inputs = w.inputs
  mem : w'.mem = w.mem
  table : w'.allocatedVals = w.allocatedVals
  next : w.next ≤ w'.next
  tree : Tree w'.syms w'.inputs w'.next
  vacant : ∀ j : Nat, j < w.next → w.syms j = none → w'.syms j = none
  kept : ∀ (id : Nat) o, id ∈ w.inputs → w.syms id = some o → ∃ o', w'.syms id = some o' ∧ o'.name = o.name ∧
    o'.val.cls = o.val.cls

namespace World.OnSymbols

variable {w w' w'' : World}

theorem refl (h : Tree w.syms w.inputs w.next) : w.OnSymbols w :=
  ⟨rfl, rfl, rfl, Nat.le_refl _, h, fun _ _ h => h, fun _ o _ ho => ⟨o, ho, rfl, rfl⟩⟩

theorem trans (h : w.OnSymbols w') (h' : w'.OnSymbols w'') : w.OnSymbols w'' where
  inputs := h'.inputs.trans h.inputs
  mem := h'.mem.trans h.mem
  table := h'.table.trans h.table
  next := Nat.le_trans h.next h'.next
  tree := h'.tree
  vacant := fun j hj hnone => h'.vacant j (Nat.lt_of_lt_of_le hj h.next) (h.vacant j hj hnone)
  kept := by
    intro id o hid ho
    obtain ⟨o', ho', hname, hcls⟩ := h.kept id o hid ho
    obtain ⟨o'', ho'', hname', hcls'⟩ := h'.kept id o' (h.inputs ▸ hid) ho'
    exact ⟨o'', ho'', hname'.trans hname, hcls'.trans hcls⟩

theorem drawn (h : Tree w.syms w.inputs w.next) : w.OnSymbols w.drawn :=
  ⟨rfl, rfl, rfl, Nat.le_refl _, h, fun _ _ h => h, fun _ o _ ho => ⟨o, ho, rfl, rfl⟩⟩

/-- A symbol is given another value of its class, with the elements it has. -/
theorem setSym (h : Tree w.syms w.inputs w.next) {id : SymId} {o o' : SymObj} (ho : w.syms id = some o)
    (hname : o'.name = o.name) (hcls : o'.val.cls = o.val.cls) (helems : o'.val.elems = o.val.elems)
    (hsized : o'.val.Sized) : w.OnSymbols (w.setSym id o') where
  inputs := rfl
  mem := rfl
  table := rfl
  next := Nat.le_refl _
  tree := h.update ho hcls helems hsized
  vacant := by
    intro j _ hj
    refine (World.setSym_of_ne _ _ ?_).trans hj
    rintro rfl
    cases hj.symm.trans ho
  kept := by
    intro j oj _ hoj
    by_cases hj : j = id
    · subst hj
      obtain rfl := Option.some.inj (hoj.symm.trans ho)
      exact ⟨o', World.setSym_self .., hname, hcls⟩
    · exact ⟨oj, (World.setSym_of_ne _ _ hj).trans hoj, rfl, rfl⟩

/-- No input is below another: the destructors of elements leave them. -/
theorem deleteSyms_input (h : Tree w.syms w.inputs w.next) {id : SymId} {name : String} {type : ArrType}
    {s : Option (BitVec 32)} {elems : List SymId} (ho : w.syms id = some ⟨name, .array type s elems⟩) (n : Nat) {j : SymId}
    (hj : j ∈ w.inputs) : deleteSyms n elems w.syms j = w.syms j := by
  refine deleteSyms_of_closed (P := (· ∉ w.inputs)) (fun e he => ?_) (fun p e _ he => (h.child p e he).2) j
    (not_not.mpr hj)
  exact (h.child id e (mem_elemsOf_iff.mpr ⟨_, ho, he⟩)).2

theorem rebuild (h : Tree w.syms w.inputs w.next) {id : SymId} {name : String} {type : ArrType}
    {s : Option (BitVec 32)} {elems : List SymId} {size : BitVec 32}
    (ho : w.syms id = some ⟨name, .array type s elems⟩) (hsize : 0 ≤ size.toInt) :
    w.OnSymbols (w.rebuild id name type elems size) where
  inputs := rfl
  mem := rfl
  table := rfl
  next := Nat.le_add_right ..
  tree := h.rebuild ho hsize
  vacant := by
    intro j hj hnone
    have hne : j ≠ id := by
      rintro rfl
      cases hnone.symm.trans ho
    rw [World.rebuild, World.setSym_of_ne _ _ hne]
    refine (World.pushed_syms_of_lt (by exact hj)).trans ?_
    obtain h | h := deleteSyms_le type.elem.depth elems w.syms j
    · exact h
    · exact h.trans hnone
  kept := by
    intro j o hj hoj
    by_cases hne : j = id
    · subst hne
      obtain rfl := Option.some.inj (hoj.symm.trans ho)
      exact ⟨_, World.setSym_self .., rfl, rfl⟩
    · refine ⟨o, ?_, rfl, rfl⟩
      rw [World.rebuild, World.setSym_of_ne _ _ hne]
      refine (World.pushed_syms_of_lt (by exact h.below j hj)).trans ?_
      exact (deleteSyms_input h ho _ hj).trans hoj

end World.OnSymbols

/-- Generation: only symbols change, and what is determined stays. -/
structure World.Generated (w w' : World) : Prop extends w.OnSymbols w' where
  lasting : ∀ (j : Nat) o, w.syms j = some o → o.val.determined = true → w'.syms j = some o

namespace World.Generated

variable {w w' w'' : World}

theorem refl (h : Tree w.syms w.inputs w.next) : w.Generated w := ⟨.refl h, fun _ _ ho _ => ho⟩

theorem trans (h : w.Generated w') (h' : w'.Generated w'') : w.Generated w'' :=
  ⟨h.toOnSymbols.trans h'.toOnSymbols, fun j o ho hd => h'.lasting j o (h.lasting j o ho hd) hd⟩

end World.Generated

/-- What `x` does to a state is generation. -/
def SymbolsOnly {α : Type} (x : M α) : Prop :=
  ∀ ⦃w a w'⦄, x w = .ok (a, w') → Tree w.syms w.inputs w.next → w.Generated w'

namespace SymbolsOnly

variable {α β : Type} {x : M α} {f : α → M β}

theorem bind (hx : SymbolsOnly x) (hf : ∀ a, SymbolsOnly (f a)) : SymbolsOnly (x >>= f) := by
  intro w b w' h hw
  obtain ⟨a, w₁, h₁, h₂⟩ := bind_ok_iff.mp h
  have hg := hx h₁ hw
  exact hg.trans (hf a h₂ hg.tree)

/-- What only reads the state. -/
theorem read (h : ∀ {w a w'}, x w = .ok (a, w') → w = w') : SymbolsOnly x := by
  intro w a w' hx hw
  obtain rfl := h hx
  exact .refl hw

theorem pure {a : α} : SymbolsOnly (pure a : M α) := read fun h => (pure_ok_iff.mp h).2

theorem fault {e : Fault} : SymbolsOnly (DGen.fault e : M α) := by
  intro w a w' h
  simp at h

theorem getSym {id : SymId} : SymbolsOnly (getSym id) := read fun h => (getSym_ok_iff.mp h).2

theorem inputId {r : SymRef} : SymbolsOnly (inputId r) := read fun h => (inputId_ok_iff.mp h).2

theorem scalarRandGen {cls : SymVal → Option (Option α)} {put : α → SymVal} {draw : Nat → α} {sym : SymId}
    (hput : ∀ val v, cls val = some none → val.determined = false ∧ (put v).cls = val.cls ∧
      (put v).elems = val.elems ∧ (put v).Sized) : SymbolsOnly (scalarRandGen cls put draw sym) := by
  intro w v w' h hw
  obtain ⟨o, ho, ⟨-, rfl⟩ | ⟨hcls, -, rfl⟩⟩ := scalarRandGen_ok_iff.mp h
  · exact .refl hw
  · obtain ⟨hundet, hcls, helems, hsized⟩ := hput o.val v hcls
    refine ⟨(World.OnSymbols.drawn hw).trans (World.OnSymbols.setSym (w := w.drawn) hw ho rfl hcls helems hsized), fun j oj hoj hd => ?_⟩
    refine (World.setSym_of_ne _ _ ?_).trans hoj
    rintro rfl
    obtain rfl := Option.some.inj (hoj.symm.trans ho)
    cases hundet.symm.trans hd

theorem numRandGen {sym : SymId} : SymbolsOnly (numRandGen sym) := scalarRandGen fun val v hcls => by
  cases val <;> simp only [SymVal.number?, Option.some.injEq, reduceCtorEq] at hcls
  subst hcls
  exact ⟨rfl, rfl, rfl, trivial⟩

theorem charRandGen {sym : SymId} : SymbolsOnly (charRandGen sym) := scalarRandGen fun val v hcls => by
  cases val <;> simp only [SymVal.char?, Option.some.injEq, reduceCtorEq] at hcls
  subst hcls
  exact ⟨rfl, rfl, rfl, trivial⟩

theorem boolRandGen {sym : SymId} : SymbolsOnly (boolRandGen sym) := by
  refine bind (scalarRandGen fun val v hcls => ?_) fun _ => pure
  cases val <;> simp only [SymVal.bool?, Option.some.injEq, reduceCtorEq] at hcls
  subst hcls
  exact ⟨rfl, rfl, rfl, trivial⟩

theorem getSize {arr : SymId} : SymbolsOnly (getSize arr) := by
  intro w size w' h hw
  obtain ⟨name, type, s, elems, ho, ⟨-, rfl⟩ | ⟨rfl, rfl, rfl⟩⟩ := getSize_ok_iff.mp h
  · exact .refl hw
  · refine ⟨(World.OnSymbols.drawn hw).trans (World.OnSymbols.rebuild (w := w.drawn) hw ho (ofNat_mod_ten_nonneg _)), fun j o hj hd => ?_⟩
    have hne : j ≠ arr := by
      rintro rfl
      obtain rfl := Option.some.inj (hj.symm.trans ho)
      cases hd
    -- an array without a length has no elements to lose
    obtain rfl := hw.elems_nil ho
    rw [World.rebuild, World.setSym_of_ne _ _ hne]
    refine (World.pushed_syms_of_lt (by exact hw.lt_next hj)).trans ?_
    rw [deleteSyms_nil]
    exact hj

theorem getElem {arr : SymId} {idx : BitVec 32} : SymbolsOnly (getElem arr idx) := by
  refine getSize.bind fun size => ?_
  split
  · exact fault
  · refine getSym.bind fun o => ?_
    split
    · split
      · exact fault
      · exact read fun h => (ofOption_ok_iff.mp h).2
    · exact fault

theorem getSymbolByIdxs : ∀ {idxs : List (BitVec 32)} {arr : SymId}, SymbolsOnly (getSymbolByIdxs arr idxs)
  | [], _ => fault
  | [_], _ => getElem
  | _ :: _ :: _, _ => getElem.bind fun _ => getSymbolByIdxs

end SymbolsOnly

/-- `fill_val` changes symbols only, but for good: it replaces what is determined. -/
theorem fillSym_onSymbols {sym : SymId} {expr : ZVal} {w w' : World} {u : Unit} (h : fillSym sym expr w = .ok (u, w'))
    (hw : Tree w.syms w.inputs w.next) : w.OnSymbols w' := by
  obtain ⟨⟨name, val⟩, _, hget, h⟩ := bind_ok_iff.mp h
  obtain ⟨ho, rfl⟩ := getSym_ok_iff.mp hget
  have hnum {x : ZVal} {v : Int} {w₁ w₂ : World} (h : x.getNumeralInt64 w₁ = .ok (v, w₂)) : w₁ = w₂ := by
    cases x with
    | int n =>
      simp only [ZVal.getNumeralInt64] at h
      split at h
      · exact (pure_ok_iff.mp h).2
      · simp at h
    | bool b => simp [ZVal.getNumeralInt64] at h
  cases val with
  | number num =>
    obtain ⟨v, _, hv, h⟩ := bind_ok_iff.mp h
    obtain rfl := hnum hv
    obtain rfl := setSym_ok_iff.mp h
    exact .setSym hw ho rfl rfl rfl trivial
  | char ch =>
    obtain ⟨v, _, hv, h⟩ := bind_ok_iff.mp h
    obtain rfl := hnum hv
    obtain rfl := setSym_ok_iff.mp h
    exact .setSym hw ho rfl rfl rfl trivial
  | bool b =>
    obtain rfl := setSym_ok_iff.mp h
    exact .setSym hw ho rfl rfl rfl trivial
  | array type s elems =>
    obtain ⟨v, _, hv, h⟩ := bind_ok_iff.mp h
    obtain rfl := hnum hv
    obtain ⟨hsize, name', type', s', elems', ho', rfl⟩ := initArr_ok_iff.mp h
    exact .rebuild hw ho' hsize

/-! ## Lookups -/

/-- Only the table differs, by entries for addresses it had none of, and none of them is marked. -/
structure World.Looked (w w' : World) : Prop where
  rest : w' = { w with allocatedVals := w'.allocatedVals }
  known : ∀ q d, w.alloc? q = some d → w'.alloc? q = some d
  unknown : ∀ q, w.alloc? q = none → w'.alloc? q = none ∨ w'.alloc? q = some ⟨false, 0⟩
  marked : ∀ item ∈ w'.allocatedVals, item.2.isAlloc = true → item ∈ w.allocatedVals
  keys : (w.allocatedVals.map (·.1)).Nodup → (w'.allocatedVals.map (·.1)).Nodup

theorem World.Looked.refl (w : World) : w.Looked w := ⟨rfl, fun _ _ h => h, fun _ h => .inl h, fun _ h _ => h, id⟩

theorem World.Looked.trans {w w' w'' : World} (h : w.Looked w') (h' : w'.Looked w'') : w.Looked w'' where
  rest := by rw [h'.rest, h.rest]
  known := fun q d hd => h'.known q d (h.known q d hd)
  unknown := by
    intro q hq
    obtain hnone | hsome := h.unknown q hq
    · exact h'.unknown q hnone
    · exact .inr (h'.known q _ hsome)
  marked := fun item hitem hmark => h.marked item (h'.marked item hitem hmark) hmark
  keys := fun hk => h'.keys (h.keys hk)

/-- An address has an entry exactly if it is a key. -/
theorem alloc?_eq_none_iff {w : World} {q : Ptr} : w.alloc? q = none ↔ q ∉ w.allocatedVals.map (·.1) := by
  simp only [World.alloc?, Option.map_eq_none_iff, List.find?_eq_none, beq_iff_eq, List.mem_map, not_exists, not_and]

theorem getAlloc_looked {q : Ptr} {d : AllocData} {w w' : World} (h : getAlloc q w = .ok (d, w')) : w.Looked w' := by
  unfold getAlloc at h
  cases hfind : w.allocatedVals.find? (·.1 == q) with
  | some item =>
    rw [hfind] at h
    cases h
    exact .refl w
  | none =>
    rw [hfind] at h
    cases h
    have hnone : w.alloc? q = none := by rw [World.alloc?, hfind]; rfl
    have hother : ∀ r, r ≠ q →
        World.alloc? { w with allocatedVals := (q, ⟨false, 0⟩) :: w.allocatedVals } r = w.alloc? r := by
      intro r hr
      have hqr : (q == r) = false := by simp [Ne.symm hr]
      rw [World.alloc?, World.alloc?, List.find?_cons, hqr]
    refine ⟨rfl, fun r d hd => ?_, fun r hr => ?_, fun item hitem hmark => ?_, fun hk => ?_⟩
    · rw [hother r]
      · exact hd
      · rintro rfl
        cases hnone.symm.trans hd
    · by_cases hrq : r = q
      · subst hrq
        exact .inr alloc?_cons_self
      · exact .inl ((hother r hrq).trans hr)
    · obtain rfl | hitem := List.mem_cons.mp hitem
      · cases hmark
      · exact hitem
    · exact List.nodup_cons.mpr ⟨alloc?_eq_none_iff.mp hnone, hk⟩

/-- What `x` does to a state is lookups. -/
def LooksUp {α : Type} (x : M α) : Prop := ∀ ⦃w a w'⦄, x w = .ok (a, w') → w.Looked w'

namespace LooksUp

variable {α β : Type} {x : M α} {f : α → M β}

theorem bind (hx : LooksUp x) (hf : ∀ a, LooksUp (f a)) : LooksUp (x >>= f) := by
  intro w b w' h
  obtain ⟨a, w₁, h₁, h₂⟩ := bind_ok_iff.mp h
  exact (hx h₁).trans (hf a h₂)

theorem read (h : ∀ {w a w'}, x w = .ok (a, w') → w = w') : LooksUp x := by
  intro w a w' hx
  obtain rfl := h hx
  exact .refl w

theorem pure {a : α} : LooksUp (pure a : M α) := read fun h => (pure_ok_iff.mp h).2

theorem fault {e : Fault} : LooksUp (DGen.fault e : M α) := by
  intro w a w' h
  simp at h

theorem loadMem {c : Chunk} {q : Ptr} : LooksUp (loadMem c q) := read fun h => (loadMem_ok_iff.mp h).2

theorem asPtr {v : Val} : LooksUp (asPtr v) := read fun h => (asPtr_ok_iff.mp h).2

theorem loadInt32 {q : Ptr} : LooksUp (loadInt32 q) := loadMem.bind fun v => by
  cases v <;> first | exact pure | exact fault

theorem loadInt8 {q : Ptr} : LooksUp (loadInt8 q) := loadMem.bind fun v => by
  cases v <;> first | exact pure | exact fault

theorem loadChars : ∀ {k : Nat} {q : Ptr}, LooksUp (loadChars k q)
  | 0, _ => pure
  | _ + 1, _ => loadInt8.bind fun _ => loadChars.bind fun _ => pure

theorem gatherScalar {s : ScalarType} {res : Ptr} : LooksUp (gatherScalar s res) := by
  cases s with
  | int => exact loadInt32.bind fun _ => pure
  | string =>
    exact loadMem.bind fun _ => asPtr.bind fun _ => .bind (fun _ _ _ => getAlloc_looked) fun _ =>
      loadChars.bind fun _ => pure
  | char | bool => exact loadInt8.bind fun _ => pure

theorem gatherElems {gather : Ptr → M String} (hgather : ∀ q, LooksUp (gather q)) {typeSize : Nat} :
    ∀ {k : Nat} {q : Ptr}, LooksUp (gatherElems gather typeSize k q)
  | 0, _ => pure
  | _ + 1, _ => (hgather _).bind fun _ => (gatherElems hgather).bind fun _ => pure

theorem gatherRec {s : ScalarType} : ∀ {n : Nat} {res : Ptr}, LooksUp (gatherRec s n res)
  | 0, _ => gatherScalar
  | _ + 1, _ => loadMem.bind fun _ => asPtr.bind fun _ => .bind (fun _ _ _ => getAlloc_looked) fun _ =>
      (gatherElems fun _ => gatherRec).bind fun _ => pure

end LooksUp

end DGen
