/-
Whether the solver's values stay inside the types of the inputs.

The formulas are over the integers, and nothing is asserted of the range of an
input. An integer or a char that does not fit is cut off, a negative length
makes `fill_val` throw, and a length that was drawn since deletes what was
filled below it. The inputs are what the model says exactly when none of this
happens (`model_values_iff`).
-/
import DGen.Fill

namespace DGen

open Memory StateT

/-! ## One value -/

/-- The values of a class. -/
def SymVal.Takes : SymVal → ZVal → Prop
  | .number _, .int v => -2 ^ 31 ≤ v ∧ v < 2 ^ 31
  | .char _, .int v => -2 ^ 7 ≤ v ∧ v < 2 ^ 7
  | .bool _, .bool _ => True
  | .array _ _ _, .int v => 0 ≤ v ∧ v < 2 ^ 31
  | _, _ => False

/-- A symbol is what the solver said: an array of as many elements as its length. -/
def SymVal.Denotes : SymVal → ZVal → Prop
  | .number (some num), .int v => num.toInt = v
  | .char (some ch), .int v => ch.toInt = v
  | .bool (some val), .bool b => val = b
  | .array _ (some size) elems, .int v => size.toInt = v ∧ (elems.length : Int) = v
  | _, _ => False

theorem SymVal.takes_cls {v : SymVal} {z : ZVal} : v.cls.Takes z ↔ v.Takes z := by
  cases v <;> cases z <;> rfl

theorem toInt_ofInt32_iff {v : Int} : (BitVec.ofInt 32 v).toInt = v ↔ -2 ^ 31 ≤ v ∧ v < 2 ^ 31 := by
  constructor
  · intro h
    have hlo := (BitVec.ofInt 32 v).le_toInt
    have hhi := (BitVec.ofInt 32 v).toInt_lt
    rw [h] at hlo hhi
    exact ⟨hlo, hhi⟩
  · rintro ⟨hlo, hhi⟩
    exact BitVec.toInt_ofInt_eq_self (by decide) hlo hhi

/-- The remainder by 256 leaves the byte as it is. -/
theorem toInt_ofInt8_iff {v : Int} : (BitVec.ofInt 8 (v.tmod 256)).toInt = v ↔ -2 ^ 7 ≤ v ∧ v < 2 ^ 7 := by
  have hsame : BitVec.ofInt 8 (v.tmod 256) = BitVec.ofInt 8 v := by
    have hmod : v.tmod 256 % 256 = v % 256 := by
      have := v.tmod_add_mul_tdiv 256
      omega
    apply BitVec.eq_of_toInt_eq
    rw [BitVec.toInt_ofInt, BitVec.toInt_ofInt, Int.bmod_def, Int.bmod_def]
    simp [hmod]
  rw [hsame]
  constructor
  · intro h
    have hlo := (BitVec.ofInt 8 v).le_toInt
    have hhi := (BitVec.ofInt 8 v).toInt_lt
    rw [h] at hlo hhi
    exact ⟨hlo, hhi⟩
  · rintro ⟨hlo, hhi⟩
    exact BitVec.toInt_ofInt_eq_self (by decide) hlo hhi

/-- **A value is written as it is** exactly if it is one of the class. -/
theorem fillSym_denotes_iff {sym : SymId} {z : ZVal} {w : World} {o : SymObj} (ho : w.syms sym = some o) :
    (∃ w' o', fillSym sym z w = .ok ((), w') ∧ w'.syms sym = some o' ∧ o'.val.Denotes z) ↔ o.val.Takes z := by
  obtain ⟨name, val⟩ := o
  have hget : getSym sym w = .ok (⟨name, val⟩, w) := getSym_ok_iff.mpr ⟨ho, rfl⟩
  have hset : ∀ {x : SymObj}, (∃ w' o', setSym sym x w = .ok ((), w') ∧ w'.syms sym = some o' ∧ o'.val.Denotes z) ↔
      x.val.Denotes z := by
    intro x
    constructor
    · rintro ⟨w', o', h, ho', hd⟩
      obtain rfl := setSym_ok_iff.mp h
      cases (World.setSym_self ..).symm.trans ho'
      exact hd
    · exact fun hd => ⟨_, x, rfl, World.setSym_self .., hd⟩
  -- an `int64` is read first, and the value must be one
  have hint : ∀ {f : Int → M Unit} {v : Int} {p : Prop}, z = .int v → (p → -2 ^ 63 ≤ v ∧ v < 2 ^ 63) →
      ((∃ w' o', f v w = .ok ((), w') ∧ w'.syms sym = some o' ∧ o'.val.Denotes z) ↔ p) →
      ((∃ w' o', (z.getNumeralInt64 >>= f) w = .ok ((), w') ∧ w'.syms sym = some o' ∧ o'.val.Denotes z) ↔ p) := by
    intro f v p hz hrange hf
    constructor
    · rintro ⟨w', o', h, ho', hd⟩
      obtain ⟨v', _, hv, h⟩ := bind_ok_iff.mp h
      obtain ⟨hz', -, rfl⟩ := getNumeralInt64_ok_iff.mp hv
      cases hz.symm.trans hz'
      exact hf.mp ⟨w', o', h, ho', hd⟩
    · intro hp
      obtain ⟨w', o', h, ho', hd⟩ := hf.mpr hp
      exact ⟨w', o', bind_ok_iff.mpr ⟨v, w, getNumeralInt64_ok_iff.mpr ⟨hz, hrange hp, rfl⟩, h⟩, ho', hd⟩
  have hbool : ∀ {f : Int → M Unit} {b : Bool}, z = .bool b →
      ((∃ w' o', (z.getNumeralInt64 >>= f) w = .ok ((), w') ∧ w'.syms sym = some o' ∧ o'.val.Denotes z) ↔ False) := by
    rintro f b rfl
    simp only [iff_false]
    rintro ⟨w', o', h, -⟩
    obtain ⟨_, _, hv, -⟩ := bind_ok_iff.mp h
    cases (getNumeralInt64_ok_iff.mp hv).1
  rw [fillSym, bind_of_ok hget]
  cases val with
  | number =>
    cases z with
    | int v => exact hint rfl (fun h : -2 ^ 31 ≤ v ∧ v < 2 ^ 31 => by omega) (hset.trans toInt_ofInt32_iff)
    | bool b => exact hbool rfl
  | char =>
    cases z with
    | int v => exact hint rfl (fun h : -2 ^ 7 ≤ v ∧ v < 2 ^ 7 => by omega) (hset.trans toInt_ofInt8_iff)
    | bool b => exact hbool rfl
  | bool =>
    refine hset.trans ?_
    cases z <;> simp [SymVal.Denotes, SymVal.Takes, ZVal.isTrue]
  | array type s elems =>
    cases z with
    | bool b => exact hbool rfl
    | int v =>
      refine hint rfl (fun h : 0 ≤ v ∧ v < 2 ^ 31 => by omega) ⟨?_, ?_⟩
      · rintro ⟨w', o', h, ho', hd⟩
        obtain ⟨hsize, _, _, _, _, -, rfl⟩ := initArr_ok_iff.mp h
        cases (World.setSym_self ..).symm.trans ho'
        have hv := hd.1
        exact ⟨hv ▸ hsize, (toInt_ofInt32_iff.mp hv).2⟩
      · rintro ⟨hlo, hhi⟩
        have hv : (BitVec.ofInt 32 v).toInt = v := toInt_ofInt32_iff.mpr ⟨by omega, hhi⟩
        refine ⟨_, _, initArr_ok_iff.mpr ⟨by omega, name, type, s, elems, ho, rfl⟩, World.setSym_self .., hv, ?_⟩
        rw [List.length_range', toNat_of_nonneg (by omega), hv]

/-! ## All of them -/

/-- A property of what is recorded and of the value the model has for it. -/
def AllRecorded (P : SymVal → ZVal → Prop) (m : Model) (exprs : List ZExpr) (items : List (SymId × Nat)) (w : World) :
    Prop :=
  ∀ sym k, (sym, k) ∈ items → ∃ o e, w.syms sym = some o ∧ exprs[k]? = some e ∧ P o.val (m.eval e)

section

variable {m : Model} {exprs : List ZExpr} {P : SymVal → ZVal → Prop}

theorem AllRecorded.of_perm {items items' : List (SymId × Nat)} {w : World} (h : AllRecorded P m exprs items w)
    (hperm : items'.Perm items) : AllRecorded P m exprs items' w :=
  fun sym k hk => h sym k (hperm.mem_iff.mp hk)

/-- What is not filled keeps what it has. -/
theorem AllRecorded.filled {items : List (SymId × Nat)} {ids : List SymId} {w w' : World}
    (hfilled : Filled ids w w') (hlt : ∀ item ∈ items, item.1 < w.next) (hdisj : ∀ item ∈ items, item.1 ∉ ids) :
    AllRecorded P m exprs items w' ↔ AllRecorded P m exprs items w := by
  refine forall_congr' fun sym => forall_congr' fun k => forall_congr' fun hk => ?_
  rw [hfilled.others sym (hlt _ hk) (hdisj _ hk)]

theorem fillLoop_denotes_iff {items : List (SymId × Nat)} : ∀ {w : World}, w.Ok → (items.map (·.1)).Nodup →
    (∀ item ∈ items, w.Blank item.1) →
      ((∃ w', fillLoop m exprs items w = .ok ((), w') ∧ AllRecorded SymVal.Denotes m exprs items w') ↔
        AllRecorded SymVal.Takes m exprs items w) := by
  induction items with
  | nil =>
    intro w _ _ _
    exact iff_of_true ⟨w, rfl, fun _ _ h => by cases h⟩ fun _ _ h => by cases h
  | cons item items ih =>
    obtain ⟨sym, k⟩ := item
    intro w hok hnodup hblank
    obtain ⟨hnin, hnodup⟩ := List.nodup_cons.mp hnodup
    obtain ⟨o, ho, hb⟩ := hblank _ (List.mem_cons_self ..)
    have hrest : ∀ item ∈ items, w.Blank item.1 := fun item hi => hblank item (List.mem_cons_of_mem _ hi)
    have hne : ∀ item ∈ items, item.1 ∉ [sym] := by
      intro item hi he
      rw [List.mem_singleton] at he
      exact hnin (List.mem_map.mpr ⟨item, hi, he⟩)
    -- the state after the first one, in which the rest is as it was
    have hfirst : ∀ {z w₁}, fillSym sym z w = .ok ((), w₁) → w₁.Ok ∧ (∀ item ∈ items, w₁.Blank item.1) ∧
        (AllRecorded SymVal.Takes m exprs items w₁ ↔ AllRecorded SymVal.Takes m exprs items w) := by
      intro z w₁ hfill
      have hfilled := fillSym_filled hfill hok ho hb
      refine ⟨hfilled.ok, fun item hi => hfilled.blank_others hok (hne item hi) (hrest item hi),
        AllRecorded.filled hfilled (fun item hi => ?_) hne⟩
      obtain ⟨_, ho', -⟩ := hrest item hi
      exact hok.tree.lt_next ho'
    have hlast : ∀ {z w₁ w'}, fillSym sym z w = .ok ((), w₁) → fillLoop m exprs items w₁ = .ok ((), w') →
        w'.syms sym = w₁.syms sym := by
      intro z w₁ w' hfill hloop
      obtain ⟨hok₁, hblank₁, -⟩ := hfirst hfill
      have hfilled := fillSym_filled hfill hok ho hb
      exact (fillLoop_filled hloop hok₁ hnodup hblank₁).others sym
        (Nat.lt_of_lt_of_le (hok.tree.lt_next ho) hfilled.next) hnin
    constructor
    · rintro ⟨w', hloop, hall⟩
      obtain ⟨e, w₁, he, hfill, hloop⟩ := fillLoop_cons_ok_iff.mp hloop
      obtain ⟨hok₁, hblank₁, hsame⟩ := hfirst hfill
      have htakes := hsame.mp ((ih hok₁ hnodup hblank₁).mp
        ⟨w', hloop, fun s j hj => hall s j (List.mem_cons_of_mem _ hj)⟩)
      obtain ⟨o', e', ho', he', hd⟩ := hall sym k (List.mem_cons_self ..)
      cases he.symm.trans he'
      rw [hlast hfill hloop] at ho'
      have htake := (fillSym_denotes_iff ho).mp ⟨w₁, o', hfill, ho', hd⟩
      intro s j hj
      obtain hj | hj := List.mem_cons.mp hj
      · cases hj
        exact ⟨o, e, ho, he, htake⟩
      · exact htakes s j hj
    · intro hall
      obtain ⟨o', e, ho', he, htake⟩ := hall sym k (List.mem_cons_self ..)
      cases ho.symm.trans ho'
      obtain ⟨w₁, o₁, hfill, ho₁, hd⟩ := (fillSym_denotes_iff ho).mpr htake
      obtain ⟨hok₁, hblank₁, hsame⟩ := hfirst hfill
      obtain ⟨w', hloop, hrun⟩ := (ih hok₁ hnodup hblank₁).mpr
        (hsame.mpr fun s j hj => hall s j (List.mem_cons_of_mem _ hj))
      refine ⟨w', fillLoop_cons_ok_iff.mpr ⟨e, w₁, he, hfill, hloop⟩, fun s j hj => ?_⟩
      obtain hj | hj := List.mem_cons.mp hj
      · cases hj
        exact ⟨o₁, e, (hlast hfill hloop).trans ho₁, he, hd⟩
      · exact hrun s j hj

end

/-! ## What a rebuilt array loses -/

def SymVal.depth : SymVal → Nat
  | .array type _ _ => type.toDecl.depth
  | _ => 0

theorem DeclTy.newSym_depth (t : DeclTy) : t.newSym.depth = t.depth := by
  obtain ⟨s, n⟩ := t
  cases n <;> cases s <;> rfl

theorem ArrType.depth_elem (t : ArrType) : t.elem.depth < t.toDecl.depth := by
  cases t with
  | string => decide
  | arr elem =>
    obtain ⟨s, n⟩ := elem
    cases s <;> simp [ArrType.elem, ArrType.toDecl, DeclTy.insertArr, DeclTy.depth]

theorem SymVal.depth_cls {v v' : SymVal} (h : v.cls = v'.cls) : v.depth = v'.depth := by
  cases v <;> cases v' <;> simp_all [cls, depth]

/-- Some objects are gone, and with each its elements. -/
structure Pruned (syms s : Nat → Option SymObj) : Prop where
  sub : ∀ j, s j = none ∨ s j = syms j
  closed : ∀ p, syms p ≠ none → s p = none → ∀ e ∈ elemsOf syms p, s e = none

theorem Pruned.refl (syms : Nat → Option SymObj) : Pruned syms syms := ⟨fun _ => .inr rfl, fun _ h h' => absurd h' h⟩

/-- One more object goes, after its elements. -/
theorem Pruned.remove {syms s : Nat → Option SymObj} (h : Pruned syms s) {id : Nat}
    (helems : ∀ e ∈ elemsOf syms id, s e = none) : Pruned syms (Function.update s id none) := by
  have hnone : ∀ j, s j = none → Function.update s id none j = none := by
    intro j hj
    by_cases hid : j = id
    · rw [hid, Function.update_self]
    · rw [Function.update_of_ne hid]
      exact hj
  refine ⟨fun j => ?_, fun p hp hnp e he => hnone e ?_⟩
  · obtain hj | hj := h.sub j
    · exact .inl (hnone j hj)
    · by_cases hid : j = id
      · exact .inl (by rw [hid, Function.update_self])
      · exact .inr (by rw [Function.update_of_ne hid, hj])
  · by_cases hid : p = id
    · exact helems e (hid ▸ he)
    · rw [Function.update_of_ne hid] at hnp
      exact h.closed p hp hnp e he

section

variable {syms : Nat → Option SymObj} {inputs : List SymId} {next : Nat}

/-- An element is less deep than its array. -/
theorem Tree.depth_lt (h : Tree syms inputs next) {p e : Nat} (he : e ∈ elemsOf syms p) {o o' : SymObj}
    (ho : syms p = some o) (ho' : syms e = some o') : o'.val.depth < o.val.depth := by
  obtain ⟨name, val⟩ := o
  rw [elemsOf_of_some ho] at he
  cases val with
  | array type s elems =>
    rw [SymVal.depth_cls ((h.typed p name type s elems ho e he o' ho').trans type.elem.newSym_cls.symm),
      type.elem.newSym_depth]
    exact type.depth_elem
  | _ => cases he

/-- The destructors, of objects not deeper than they go, leave no element behind. -/
theorem deleteSyms_pruned (h : Tree syms inputs next) : ∀ (n : Nat) {ids : List SymId} {s : Nat → Option SymObj},
    Pruned syms s → (∀ id ∈ ids, ∀ o, syms id = some o → o.val.depth ≤ n) →
      Pruned syms (deleteSyms n ids s) ∧ (∀ id ∈ ids, deleteSyms n ids s id = none) ∧
        ∀ j, s j = none → deleteSyms n ids s j = none := by
  have hfold : ∀ {f : (Nat → Option SymObj) → SymId → Nat → Option SymObj} {ids : List SymId},
      (∀ s, ∀ id ∈ ids, Pruned syms s → Pruned syms (f s id) ∧ f s id id = none ∧ ∀ j, s j = none → f s id j = none) →
      ∀ {s}, Pruned syms s → Pruned syms (ids.foldl f s) ∧ (∀ id ∈ ids, ids.foldl f s id = none) ∧
        ∀ j, s j = none → ids.foldl f s j = none := by
    intro f ids
    induction ids with
    | nil => exact fun _ _ hs => ⟨hs, by simp, fun _ hj => hj⟩
    | cons id ids ih =>
      intro hf s hs
      obtain ⟨hs₁, hid, hkeep⟩ := hf s id (List.mem_cons_self ..) hs
      obtain ⟨hs₂, hids, hkeep₂⟩ := ih (fun s i hi => hf s i (List.mem_cons_of_mem _ hi)) hs₁
      refine ⟨hs₂, fun i hi => ?_, fun j hj => hkeep₂ j (hkeep j hj)⟩
      obtain rfl | hi := List.mem_cons.mp hi
      · exact hkeep₂ i hid
      · exact hids i hi
  have hnone : ∀ {s : Nat → Option SymObj} {id j : Nat}, s j = none → Function.update s id none j = none := by
    intro s id j hj
    by_cases hid : j = id
    · rw [hid, Function.update_self]
    · rw [Function.update_of_ne hid]
      exact hj
  intro n
  induction n with
  | zero =>
    intro ids s hs hdepth
    refine hfold (fun s id hid hs => ⟨hs.remove fun e he => ?_, Function.update_self .., fun j => hnone⟩) hs
    obtain ⟨⟨name, val⟩, ho, hmem⟩ := mem_elemsOf_iff.mp he
    have hzero := hdepth id hid _ ho
    cases val with
    | array type => exact absurd type.depth_elem (by simp_all [SymVal.depth])
    | _ => cases hmem
  | succ n ih =>
    intro ids s hs hdepth
    refine hfold (fun s id hid hs => ?_) hs
    -- the elements go first
    have hids : ∀ e ∈ elemsOf s id, ∀ o, syms e = some o → o.val.depth ≤ n := by
      intro e he o ho
      obtain ⟨x, hx, hmem⟩ := mem_elemsOf_iff.mp he
      have hx' : syms id = some x := (hs.sub id).elim (fun hn => by cases hn.symm.trans hx) fun hs => hs ▸ hx
      have hlt := h.depth_lt (mem_elemsOf_iff.mpr ⟨x, hx', hmem⟩) hx' ho
      have := hdepth id hid x hx'
      omega
    obtain ⟨hs₁, hgone, hkeep⟩ := ih hs hids
    refine ⟨hs₁.remove fun e he => ?_, Function.update_self .., fun j hj => hnone (hkeep j hj)⟩
    obtain ⟨x, hx, hmem⟩ := mem_elemsOf_iff.mp he
    obtain hsid | hsid := hs.sub id
    · exact hkeep e (hs.closed id (by simp [hx]) hsid e he)
    · exact hgone e (mem_elemsOf_iff.mpr ⟨x, hsid.trans hx, hmem⟩)

end

/-- What is below something gone is gone. -/
theorem Pruned.symAt_none {syms s : Nat → Option SymObj} (h : Pruned syms s) {path : List (BitVec 32)} :
    ∀ {d e : SymId}, symAt syms d path = some e → s d = none → s e = none := by
  induction path with
  | nil =>
    intro d e he hd
    obtain rfl := Option.some.inj he
    exact hd
  | cons i path ih =>
    intro d e he hd
    obtain ⟨c, -, hc, he⟩ := symAt_cons_iff.mp he
    have hmem := List.mem_of_getElem? hc
    obtain ⟨o, ho, -⟩ := mem_elemsOf_iff.mp hmem
    exact ih he (h.closed d (by simp [ho]) hd c hmem)

/-- Rebuilding an array prunes the tree below it. -/
theorem rebuild_pruned {w : World} (hok : w.Ok) {id : Nat} {name : String} {type : ArrType} {s : Option (BitVec 32)}
    {elems : List SymId} (size : BitVec 32) (ho : w.syms id = some ⟨name, .array type s elems⟩) :
    ∃ pruned, Pruned w.syms pruned ∧ (∀ e ∈ elems, pruned e = none) ∧
      ∀ j : Nat, j < w.next → j ≠ id → (w.rebuild id name type elems size).syms j = pruned j := by
  have hdepth : ∀ e ∈ elems, ∀ o, w.syms e = some o → o.val.depth ≤ type.elem.depth := by
    intro e he o hoe
    have hcls := hok.tree.typed id name type s elems ho e he o hoe
    rw [SymVal.depth_cls (hcls.trans type.elem.newSym_cls.symm), type.elem.newSym_depth]
  obtain ⟨hpruned, hgone, -⟩ := deleteSyms_pruned hok.tree _ (.refl _) hdepth
  refine ⟨_, hpruned, hgone, fun j hj hne => ?_⟩
  rw [World.rebuild, World.setSym_of_ne _ _ hne]
  exact World.pushed_syms_of_lt (by exact hj)

section

variable {x id e : SymId} {z : ZVal} {w w' : World}

/-- Filling makes no object where none has been. -/
theorem fillSym_back (h : fillSym x z w = .ok ((), w')) {j : Nat} (hj : j < w.next) {o' : SymObj}
    (ho' : w'.syms j = some o') : ∃ o, w.syms j = some o ∧ o'.val.cls = o.val.cls := by
  obtain ⟨o, v, ho, -, hcls, -, rfl⟩ | ⟨name, type, s, elems, size, ho, -, rfl⟩ := fillSym_ok h
  · by_cases hjx : j = x
    · subst hjx
      rw [World.setSym_self] at ho'
      cases ho'
      exact ⟨o, ho, hcls⟩
    · rw [World.setSym_of_ne _ _ hjx] at ho'
      exact ⟨o', ho', rfl⟩
  · obtain ⟨rfl, rfl⟩ | ⟨-, hr, -⟩ | ⟨-, ho'⟩ := World.rebuild_some ho'
    · exact ⟨_, ho, rfl⟩
    · omega
    · exact ⟨o', ho', rfl⟩

/-- Filling an array loses what is below it. -/
theorem fillSym_loses (h : fillSym id z w = .ok ((), w')) (hok : w.Ok) (hid : id ∈ w.inputs) {i : BitVec 32}
    {path : List (BitVec 32)} (hplace : symAt w.syms id (i :: path) = some e) (hlt : (e : Nat) < w.next)
    (hin : e ∉ w.inputs) : w'.syms e = none := by
  obtain ⟨c, -, hc, hplace⟩ := symAt_cons_iff.mp hplace
  have hmem := List.mem_of_getElem? hc
  obtain ⟨o, v, ho, hscalar, -⟩ | ⟨name, type, s, elems, size, ho, -, rfl⟩ := fillSym_ok h
  · rw [elemsOf_of_some ho, SymVal.elems_of_scalar hscalar] at hmem
    cases hmem
  · obtain ⟨pruned, hpruned, hgone, hold⟩ := rebuild_pruned hok size ho
    rw [elemsOf_of_some ho] at hmem
    rw [hold e hlt fun he => hin (he ▸ hid)]
    exact hpruned.symAt_none hplace (hgone c hmem)

/-- Filling an input leaves what is below another one where it is, or it is gone. -/
theorem fillSym_place (h : fillSym x z w = .ok ((), w')) (hok : w.Ok)
    (hx : x ∈ w.inputs ∨ ∀ o, w.syms x = some o → o.val.isArray = false) (hlt : (e : Nat) < w.next)
    (hin : e ∉ w.inputs) (hid : id ≠ x) {path : List (BitVec 32)} (hplace : symAt w.syms id path = some e) :
    w'.syms e = none ∨ symAt w'.syms id path = some e := by
  obtain ⟨o, v, ho, hscalar, hcls, -, rfl⟩ | ⟨name, type, s, elems, size, ho, -, rfl⟩ := fillSym_ok h
  · refine .inr (symAt_mono (fun p n c hc => ?_) hplace)
    have hp : p ≠ x := by
      rintro rfl
      rw [elemsOf_of_some ho, SymVal.elems_of_scalar hscalar] at hc
      cases hc
    unfold elemsOf at hc ⊢
    rw [World.setSym_of_ne _ _ hp]
    exact hc
  · have hxin : x ∈ w.inputs := hx.resolve_right fun hall => by cases hall _ ho
    obtain ⟨pruned, hpruned, -, hold⟩ := rebuild_pruned hok size ho
    rw [hold e hlt fun he => hin (he ▸ hxin)]
    -- down the path, until something on it is gone
    induction path generalizing id with
    | nil => exact .inr hplace
    | cons i path ih =>
      obtain ⟨c, hi, hc, hrest⟩ := symAt_cons_iff.mp hplace
      have hmem := List.mem_of_getElem? hc
      obtain ⟨oid, hoid, -⟩ := mem_elemsOf_iff.mp hmem
      have hcx : c ≠ x := fun he => (hok.tree.child id c hmem).2 (he ▸ hxin)
      obtain hgone | hsame := hpruned.sub id
      · exact .inl (hpruned.symAt_none hplace hgone)
      · refine (ih hcx hrest).imp_right fun hat => symAt_cons_iff.mpr ⟨c, hi, ?_, hat⟩
        unfold elemsOf at hc ⊢
        rw [hold id (hok.tree.lt_next hoid) hid, hsame]
        exact hc

end

section

variable {m : Model} {exprs : List ZExpr} {id e : SymId}

theorem fillLoop_gone {items : List (SymId × Nat)} : ∀ {w w' : World}, fillLoop m exprs items w = .ok ((), w') →
    w.Ok → (e : Nat) < w.next → w.syms e = none → w'.syms e = none := by
  induction items with
  | nil =>
    intro w w' h _ _ hgone
    obtain ⟨-, rfl⟩ := pure_ok_iff.mp h
    exact hgone
  | cons item items ih =>
    intro w w' h hok hlt hgone
    obtain ⟨_, w₁, -, hfill, h⟩ := fillLoop_cons_ok_iff.mp h
    obtain ⟨hok₁, -, hnext⟩ := fillSym_keeps hfill hok
    refine ih h hok₁ (Nat.lt_of_lt_of_le hlt hnext) ?_
    cases hsome : w₁.syms e with
    | none => rfl
    | some o =>
      obtain ⟨_, ho, -⟩ := fillSym_back hfill hlt hsome
      cases hgone.symm.trans ho

/-- What is below an array that is filled is gone after the loop. -/
theorem fillLoop_loses {items : List (SymId × Nat)} {i : BitVec 32} {path : List (BitVec 32)} :
    ∀ {w w' : World}, fillLoop m exprs items w = .ok ((), w') → w.Ok → id ∈ w.inputs → (e : Nat) < w.next →
      e ∉ w.inputs → (∀ item ∈ items, (item.1 : Nat) < w.next ∧
        (item.1 ∈ w.inputs ∨ ∀ o, w.syms item.1 = some o → o.val.isArray = false)) →
      id ∈ items.map (·.1) → w.syms e = none ∨ symAt w.syms id (i :: path) = some e → w'.syms e = none := by
  induction items with
  | nil => simp
  | cons item items ih =>
    obtain ⟨x, k⟩ := item
    intro w w' h hok hid hlt hin hitems hmem hplace
    obtain ⟨_, w₁, -, hfill, hrest⟩ := fillLoop_cons_ok_iff.mp h
    obtain ⟨hok₁, hinputs, hnext⟩ := fillSym_keeps hfill hok
    have hgone : w.syms e = none → w₁.syms e = none := by
      intro hnone
      cases hsome : w₁.syms e with
      | none => rfl
      | some o =>
        obtain ⟨_, ho, -⟩ := fillSym_back hfill hlt hsome
        cases hnone.symm.trans ho
    by_cases hx : id = x
    · subst hx
      refine fillLoop_gone hrest hok₁ (Nat.lt_of_lt_of_le hlt hnext) ?_
      exact hplace.elim hgone fun hp => fillSym_loses hfill hok hid hp hlt hin
    · have hplace₁ : w₁.syms e = none ∨ symAt w₁.syms id (i :: path) = some e := by
        obtain hnone | hp := hplace
        · exact .inl (hgone hnone)
        · exact fillSym_place hfill hok (hitems _ (List.mem_cons_self ..)).2 hlt hin hx hp
      refine ih hrest hok₁ (hinputs ▸ hid) (Nat.lt_of_lt_of_le hlt hnext) (hinputs ▸ hin) (fun item hi => ?_)
        ((List.mem_cons.mp hmem).resolve_left hx) hplace₁
      obtain ⟨hlt', hor⟩ := hitems item (List.mem_cons_of_mem _ hi)
      refine ⟨Nat.lt_of_lt_of_le hlt' hnext, hinputs ▸ hor.imp_right fun hall o ho => ?_⟩
      obtain ⟨o', ho', hcls⟩ := fillSym_back hfill hlt' ho
      exact (SymVal.isArray_cls hcls).trans (hall o' ho')

end

/-- Where lengths are not apart, something recorded is gone after the loop. -/
theorem Recorded.loses_of_not_apart {w₀ w w' : World} {ms : List Mention} (h : Recorded w₀ ms w)
    (hapart : ¬ LengthsApart w₀ ms) {m : Model} {exprs : List ZExpr} {items : List (SymId × Nat)}
    (hperm : items.Perm w.z3.symsToExprId) (hrun : fillLoop m exprs items w = .ok ((), w')) :
    ∃ item ∈ items, w'.syms item.1 = none := by
  obtain ⟨id, k, path, hk, hmem, ⟨r, hr, hdet⟩, name, type, size, elems, ho⟩ := h.determined_of_not_apart hapart
  obtain ⟨sym, o, hplace, hsym, hscalar, hkey⟩ := h.value id path hmem
  have hid := h.inputs id path (.inl hmem)
  cases path with
  | nil =>
    obtain rfl := Option.some.inj hplace
    cases ho.symm.trans hsym
    cases hscalar
  | cons i path =>
    have hlt := h.ok.tree.lt_next hsym
    have hin : sym ∉ w.inputs := by
      intro hin
      have hself : symAt w.syms sym [] = some sym := rfl
      cases (h.ok.tree.symAt_inj hid hin hplace hself).2
    -- the element is new, as its array had no length
    have hval : o.val.hasVal = false := by
      cases hsym₀ : w₀.syms sym with
      | none => exact (h.grown.new sym o hsym₀ hsym).2.1
      | some o₀ =>
        obtain ⟨c, -, hc, -⟩ := symAt_cons_iff.mp (h.grown.symAt_back h.before.tree hplace hsym₀)
        have hmem := List.mem_of_getElem? hc
        rw [elemsOf_of_some hr, (SymObj.blank_of_sized hdet (h.before.tree.sized id r hr)).elems] at hmem
        cases hmem
    obtain ⟨j, hj⟩ := hkey hval
    refine ⟨(sym, j), hperm.mem_iff.mpr hj, fillLoop_loses hrun h.ok hid hlt hin (fun item hi => ?_)
      (List.mem_map.mpr ⟨(id, k), hperm.mem_iff.mpr hk, rfl⟩) (.inr hplace)⟩
    obtain ⟨e, -, hrec⟩ := h.entry item.1 item.2 (hperm.mem_iff.mp hi)
    cases hrec with
    | value hdone hr hplace ho hscalar hval =>
      refine ⟨h.ok.tree.lt_next ho, .inr fun o' ho' => ?_⟩
      cases ho.symm.trans ho'
      exact hscalar
    | length hdone hpre hr harr hval =>
      have hin := h.inputs item.1 [] (.inr (by simp [hdone]))
      exact ⟨h.ok.tree.below _ hin, .inl hin⟩

/-! ## The values of a model -/

/-- A model's values are ones of the inputs' types: what it gives to the
undetermined values and lengths that are mentioned. And no array that is
undetermined has its length mentioned before an element of it. -/
structure ModelFits (m : Model) (w : World) (ms : List Mention) : Prop where
  apart : LengthsApart w ms
  values : ∀ id path r, .value id path ∈ ms → w.syms id = some r →
    (∀ sym o, symAt w.syms id path = some sym → w.syms sym = some o → o.val.hasVal = false) →
    (r.val.part path).Takes (m.eval ((r.val.part path).const (constName r.name path)))
  lengths : ∀ id name type elems, .length id ∈ ms → (∀ path, .value id path ∉ ms) →
    w.syms id = some ⟨name, .array type none elems⟩ → 0 ≤ m.ints (name ++ ".len") ∧ m.ints (name ++ ".len") < 2 ^ 31

theorem SymVal.const_cls {v v' : SymVal} (h : v.cls = v'.cls) : v.const = v'.const := by
  cases v <;> cases v' <;> simp_all [cls] <;> rfl

section

variable {w₀ w : World} {ms : List Mention} {m : Model}

/-- The class of what a mention comes to. -/
theorem Recorded.cls_of_value (h : Recorded w₀ ms w) {id sym : SymId} {path : List (BitVec 32)} {r o : SymObj}
    (hr : w₀.syms id = some r) (hplace : symAt w.syms id path = some sym) (ho : w.syms sym = some o) :
    o.val.cls = r.val.part path := by
  obtain ⟨r', hr', -⟩ := h.grown.kept id r hr
  rw [h.ok.tree.cls_symAt hplace hr' ho]
  exact SymVal.part_congr (h.grown.cls_eq hr hr')

/-- A value is undetermined when it is mentioned if it was before. -/
theorem Recorded.hasVal_iff (h : Recorded w₀ ms w) {id sym : SymId} {path : List (BitVec 32)} {o : SymObj}
    (hplace : symAt w.syms id path = some sym) (ho : w.syms sym = some o) :
    o.val.hasVal = false ↔ ∀ sym' o', symAt w₀.syms id path = some sym' → w₀.syms sym' = some o' →
      o'.val.hasVal = false := by
  constructor
  · intro hval sym' o' hplace' ho'
    obtain rfl := Option.some.inj (hplace.symm.trans (h.grown.symAt hplace'))
    exact (h.grown.hasVal_eq ho' ho).symm.trans hval
  · intro hall
    cases ho₀ : w₀.syms sym with
    | none => exact (h.grown.new sym o ho₀ ho).2.1
    | some o₀ => exact (h.grown.hasVal_eq ho₀ ho).trans (hall sym o₀ (h.grown.symAt_back h.before.tree hplace ho₀) ho₀)

/-- What is recorded takes the model's values if they fit. -/
theorem Recorded.takes_iff (h : Recorded w₀ ms w) (hapart : LengthsApart w₀ ms) :
    AllRecorded SymVal.Takes m w.z3.exprs w.z3.symsToExprId w ↔ ModelFits m w₀ ms := by
  have hvalue : ∀ {id sym : SymId} {path : List (BitVec 32)} {r o : SymObj}, w₀.syms id = some r →
      symAt w.syms id path = some sym → w.syms sym = some o →
      (o.val.Takes (m.eval (o.val.const (constName r.name path))) ↔
        (r.val.part path).Takes (m.eval ((r.val.part path).const (constName r.name path)))) := by
    intro id sym path r o hr hplace ho
    rw [← h.cls_of_value hr hplace ho, SymVal.takes_cls, SymVal.const_cls o.val.cls_cls.symm]
  constructor
  · intro hall
    refine ⟨hapart, fun id path r hmem hr hundet => ?_, fun id name type elems hmem hnot hr => ?_⟩
    · obtain ⟨sym, o, hplace, ho, hscalar, hkey⟩ := h.value id path hmem
      obtain ⟨k, hk⟩ := hkey ((h.hasVal_iff hplace ho).mpr hundet)
      obtain ⟨o', e, ho', he, ht⟩ := hall sym k hk
      cases ho.symm.trans ho'
      obtain ⟨e', he', hrec⟩ := h.entry sym k hk
      cases he.symm.trans he'
      cases hrec with
      | @value id' path' r' _ o'' hdone hr' hplace' ho'' _ _ =>
        obtain ⟨rfl, rfl⟩ := h.ok.tree.symAt_inj (h.inputs _ _ (.inl hmem)) (h.inputs _ _ (.inl hdone)) hplace hplace'
        cases ho.symm.trans ho''
        cases hr.symm.trans hr'
        exact (hvalue hr hplace ho).mp ht
      | length hdone hpre hr' harr hval =>
        obtain ⟨x, hx, -⟩ := h.grown.kept sym _ hr'
        cases ho.symm.trans hx
        cases hscalar.symm.trans ((SymVal.isArray_cls (h.grown.cls_eq hr' ho)).trans harr)
    · obtain ⟨pre, post, hms⟩ := List.append_of_mem hmem
      obtain ⟨k, hk⟩ := h.length id pre post _ hms (fun path hp => hnot path (hms ▸ List.mem_append_left _ hp)) hr rfl
      obtain ⟨o, e, ho, he, ht⟩ := hall id k hk
      have hin := h.inputs id [] (.inr hmem)
      cases (h.unlooked id (h.grown.inputs ▸ hin) hnot).symm.trans ho |>.symm.trans hr
      obtain ⟨e', he', hrec⟩ := h.entry id k hk
      cases he.symm.trans he'
      cases hrec with
      | @value id' path' _ _ _ hdone _ hplace' _ _ _ =>
        have hself : symAt w.syms id [] = some id := rfl
        obtain ⟨rfl, rfl⟩ := h.ok.tree.symAt_inj hin (h.inputs _ _ (.inl hdone)) hself hplace'
        exact absurd hdone (hnot _)
      | length hdone hpre hr' harr hval =>
        cases hr.symm.trans hr'
        exact ht
  · intro hfits sym k hk
    obtain ⟨e, he, hrec⟩ := h.entry sym k hk
    cases hrec with
    | @value id path r _ o hdone hr hplace ho _ hval =>
      exact ⟨o, _, ho, he, (hvalue hr hplace ho).mpr
        (hfits.values id path r hdone hr ((h.hasVal_iff hplace ho).mp hval))⟩
    | @length _ pre post r hdone hpre hr harr hval =>
      have hnot := hapart.not_mem hdone hpre hr harr hval
      have hmem : Mention.length sym ∈ ms := by simp [hdone]
      have hin := h.inputs sym [] (.inr hmem)
      refine ⟨r, _, (h.unlooked sym (h.grown.inputs ▸ hin) hnot).trans hr, he, ?_⟩
      obtain ⟨name, val⟩ := r
      cases val with
      | array type s elems =>
        cases s with
        | some n => cases hval
        | none => exact hfits.lengths sym name type elems hmem hnot hr
      | _ => cases harr

end

/-- **The solver's values are the inputs'** exactly if they fit their types. -/
theorem model_values_iff {check : List ZExpr → CheckResult} {walk : Walk} {cond : Expr Symbol}
    {precond : PrecondNode Symbol} {m : Model} {w w' : World} (hok : w.Ok) (h : ReachesFill check cond precond m w w') :
    (∃ w'', startZ3Gen check walk cond precond w = .ok ((), w'') ∧
      AllRecorded SymVal.Denotes m w'.z3.exprs w'.z3.symsToExprId w'') ↔
      ModelFits m w (mentions w cond precond) := by
  obtain ⟨fs, hgen, -⟩ := h.sat
  have hrec := genFormulas_recorded hgen hok
  have hperm := walk.perm w'.z3.symsToExprId
  rw [h.startZ3Gen_eq walk]
  by_cases hapart : LengthsApart w (mentions w cond precond)
  · rw [← hrec.takes_iff hapart]
    have hnodup := (hperm.map (·.1)).nodup_iff.mpr hrec.keys
    have hblank : ∀ item ∈ walk.order w'.z3.symsToExprId, w'.Blank item.1 := fun item hi =>
      (hrec.blank_of_apart hapart (hperm.mem_iff.mp hi)).1
    have hloop : (∃ w'', fillLoop m w'.z3.exprs (walk.order w'.z3.symsToExprId) w' = .ok ((), w'') ∧ _) ↔ _ :=
      fillLoop_denotes_iff hrec.ok hnodup hblank
    constructor
    · rintro ⟨w'', hrun, hall⟩
      exact (hloop.mp ⟨w'', hrun, hall.of_perm hperm⟩).of_perm hperm.symm
    · intro hall
      obtain ⟨w'', hrun, hall'⟩ := hloop.mpr (hall.of_perm hperm)
      exact ⟨w'', hrun, hall'.of_perm hperm.symm⟩
  · refine iff_of_false ?_ fun hfits => hapart hfits.apart
    rintro ⟨w'', hrun, hall⟩
    obtain ⟨item, hi, hgone⟩ := hrec.loses_of_not_apart hapart hperm hrun
    obtain ⟨o, -, ho, -⟩ := hall item.1 item.2 (hperm.mem_iff.mp hi)
    cases hgone.symm.trans ho

namespace Sample

/-- `a.len < 5`. -/
def shortArray : FunctionNode Unit := onArray (.binOp (node 3) .lt (len 4 5 "a") (num 6 5)) (by decide)

end Sample

theorem model_values_iff_shortArray : ∃ cond precond w w', FirstCall Sample.shortArray (Sample.draws 3) cond precond w ∧
    ReachesFill (checkWith (Sample.constModel 3)) cond precond (Sample.constModel 3) w w' ∧
    ((∃ w'', startZ3Gen (checkWith (Sample.constModel 3)) Sample.inOrder cond precond w = .ok ((), w'') ∧
      AllRecorded SymVal.Denotes (Sample.constModel 3) w'.z3.exprs w'.z3.symsToExprId w'') ↔
      ModelFits (Sample.constModel 3) w (mentions w cond precond)) := by
  obtain ⟨cond, precond, w, hcall, w', hreach⟩ : ∃ cond precond w,
      FirstCall Sample.shortArray (Sample.draws 3) cond precond w ∧
        ∃ w', ReachesFill (checkWith (Sample.constModel 3)) cond precond (Sample.constModel 3) w w' :=
    ⟨_, _, _, ⟨_, _, _, _, rfl, List.mem_cons_self .., rfl, rfl, rfl⟩, _, ⟨_, rfl, rfl⟩, List.cons_ne_nil _ _⟩
  exact ⟨cond, precond, w, w', hcall, hreach, model_values_iff hcall.ok hreach⟩

/-- A length of -1 satisfies the condition, and `fill_val` throws. -/
theorem shortArray_throws : ¬ ∀ (f : FunctionNode Unit) (env : Env) (check : List ZExpr → CheckResult)
    (walk : Walk) (cond : Expr Symbol) (precond : PrecondNode Symbol) (m : Model) (w w' : World), Sound check →
    FirstCall f env cond precond w → ReachesFill check cond precond m w w' →
      ∃ w'', startZ3Gen check walk cond precond w = .ok ((), w'') ∧
        AllRecorded SymVal.Denotes m w'.z3.exprs w'.z3.symsToExprId w'' := by
  intro h
  obtain ⟨cond, precond, w, hcall, w', hreach, e, hthrow⟩ : ∃ cond precond w,
      FirstCall Sample.shortArray (Sample.draws 3) cond precond w ∧
        ∃ w', ReachesFill (checkWith (Sample.constModel (-1))) cond precond (Sample.constModel (-1)) w w' ∧
          ∃ e, startZ3Gen (checkWith (Sample.constModel (-1))) Sample.inOrder cond precond w = .error e :=
    ⟨_, _, _, ⟨_, _, _, _, rfl, List.mem_cons_self .., rfl, rfl, rfl⟩, _, ⟨⟨_, rfl, rfl⟩, List.cons_ne_nil _ _⟩, _, rfl⟩
  obtain ⟨w'', hrun, -⟩ := h _ _ _ Sample.inOrder _ _ _ _ _ (checkWith_sound _) hcall hreach
  cases hthrow.symm.trans hrun

end DGen
