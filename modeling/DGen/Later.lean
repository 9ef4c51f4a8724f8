/-
The order of the states of a run, by what of the inputs is determined.

Generation goes up in it step by step. So does an array that is built anew
while it is undetermined from below: what it loses has been made since.
-/
import DGen.EvalContext
import DGen.Fill

namespace DGen

open Memory StateT

/-! ## The order -/

/-- What is determined stays; what grows below the rest is new. -/
structure Later (w w' : World) : Prop where
  inputs : w'.inputs = w.inputs
  globals : w'.globals = w.globals
  next : w.next ≤ w'.next
  kept : ∀ (j : Nat) o, w.syms j = some o → ∃ o', w'.syms j = some o' ∧ o'.val.cls = o.val.cls ∧
    (o.val.determined = true → o'.val = o.val) ∧ (o.val.determined = false → ∀ e : Nat, e ∈ o'.val.elems → w.next ≤ e)
  new : ∀ (j : Nat) o, w.syms j = none → w'.syms j = some o → w.next ≤ j ∧ ∀ e : Nat, e ∈ o.val.elems → w.next ≤ e

namespace Later

variable {w w' w'' : World}

theorem trans (h : Later w w') (h' : Later w' w'') : Later w w'' where
  inputs := h'.inputs.trans h.inputs
  globals := h'.globals.trans h.globals
  next := Nat.le_trans h.next h'.next
  kept := by
    intro j o ho
    obtain ⟨o', ho', hcls, hdet, hundet⟩ := h.kept j o ho
    obtain ⟨o'', ho'', hcls', hdet', hundet'⟩ := h'.kept j o' ho'
    refine ⟨o'', ho'', hcls'.trans hcls, fun hd => ?_, fun hd e he => ?_⟩
    · have hval := hdet hd
      exact (hdet' (hval ▸ hd)).trans hval
    · cases hd' : o'.val.determined with
      | true => exact hundet hd e (hdet' hd' ▸ he)
      | false => exact Nat.le_trans h.next (hundet' hd' e he)
  new := by
    intro j o hnone ho
    cases ho' : w'.syms j with
    | none =>
      obtain ⟨hle, helems⟩ := h'.new j o ho' ho
      exact ⟨Nat.le_trans h.next hle, fun e he => Nat.le_trans h.next (helems e he)⟩
    | some o' =>
      obtain ⟨hle, helems⟩ := h.new j o' hnone ho'
      obtain ⟨o'', ho'', -, hdet', hundet'⟩ := h'.kept j o' ho'
      obtain rfl := Option.some.inj (ho''.symm.trans ho)
      refine ⟨hle, fun e he => ?_⟩
      cases hd' : o'.val.determined with
      | true => exact helems e (hdet' hd' ▸ he)
      | false => exact Nat.le_trans h.next (hundet' hd' e he)

/-- Where the symbols are the same. -/
theorem of_syms (hok : w.Ok) (hinputs : w'.inputs = w.inputs) (hglobals : w'.globals = w.globals)
    (hnext : w.next ≤ w'.next) (hsyms : w'.syms = w.syms) : Later w w' where
  inputs := hinputs
  globals := hglobals
  next := hnext
  kept := by
    intro j o ho
    refine ⟨o, hsyms ▸ ho, rfl, fun _ => rfl, fun hd e he => ?_⟩
    rw [(SymObj.blank_of_sized hd (hok.tree.sized j o ho)).elems] at he
    cases he
  new := by
    intro j o hnone ho
    rw [hsyms] at ho
    cases hnone.symm.trans ho

theorem refl (hok : w.Ok) : Later w w := of_syms hok rfl rfl (Nat.le_refl _) rfl

theorem of_grown (h : Grown w w') (hok : w.Ok) : Later w w' where
  inputs := h.inputs
  globals := h.globals
  next := h.next
  kept := by
    intro j o ho
    obtain ⟨o', ho', -, hval | ⟨_, _, _, hnone, hval, helems⟩⟩ := h.kept j o ho
    · refine ⟨o', ho', h.cls_eq ho ho', fun _ => hval, fun hd e he => ?_⟩
      rw [hval, (SymObj.blank_of_sized hd (hok.tree.sized j o ho)).elems] at he
      cases he
    · refine ⟨o', ho', h.cls_eq ho ho', fun hd => ?_, fun _ e he => ?_⟩
      · rw [hnone] at hd
        cases hd
      · rw [hval] at he
        exact helems e he
  new := fun j o hnone ho => ⟨(h.new j o hnone ho).1, (h.new j o hnone ho).2.2⟩

/-- A symbol that was undetermined, if it was there, is given a value without elements. -/
theorem setSym (h : Later w w') {sym : SymId} {o o' : SymObj} (ho : w'.syms sym = some o)
    (hopen : ∀ o₀, w.syms sym = some o₀ → o₀.val.determined = false) (hcls : o'.val.cls = o.val.cls)
    (hnil : o'.val.elems = []) : Later w (w'.setSym sym o') where
  inputs := h.inputs
  globals := h.globals
  next := h.next
  kept := by
    intro j o₀ ho₀
    by_cases hj : j = sym
    · subst hj
      obtain ⟨o₁, ho₁, hcls₁, -⟩ := h.kept j o₀ ho₀
      obtain rfl := Option.some.inj (ho₁.symm.trans ho)
      refine ⟨o', World.setSym_self .., hcls.trans hcls₁, fun hd => ?_, fun _ e he => ?_⟩
      · cases hd.symm.trans (hopen o₀ ho₀)
      · rw [hnil] at he
        cases he
    · obtain ⟨o₁, ho₁, hval⟩ := h.kept j o₀ ho₀
      exact ⟨o₁, (World.setSym_of_ne _ _ hj).trans ho₁, hval⟩
  new := by
    intro j o₁ hnone ho₁
    by_cases hj : j = sym
    · subst hj
      rw [World.setSym_self] at ho₁
      obtain rfl := Option.some.inj ho₁
      exact ⟨(h.new j o hnone ho).1, by simp [hnil]⟩
    · rw [World.setSym_of_ne _ _ hj] at ho₁
      exact h.new j o₁ hnone ho₁

end Later

/-! ## Generation -/

/-- The destructors stay among objects whose elements are among them too. -/
theorem deleteSyms_of_closed {P : Nat → Prop} : ∀ {n : Nat} {ids : List SymId} {syms : Nat → Option SymObj},
    (∀ id : Nat, id ∈ ids → P id) → (∀ p e : Nat, P p → e ∈ elemsOf syms p → P e) →
      ∀ j : Nat, ¬ P j → deleteSyms n ids syms j = syms j := by
  have hupdate {syms : Nat → Option SymObj} {id j : Nat} (hid : P id) (hj : ¬ P j) :
      Function.update syms id none j = syms j := by
    refine Function.update_of_ne ?_ ..
    rintro rfl
    exact hj hid
  have hsub {s syms : Nat → Option SymObj} (h : ∀ j, s j = none ∨ s j = syms j)
      (helems : ∀ p e : Nat, P p → e ∈ elemsOf syms p → P e) : ∀ p e : Nat, P p → e ∈ elemsOf s p → P e := by
    intro p e hp he
    obtain ⟨o, ho, hmem⟩ := mem_elemsOf_iff.mp he
    obtain hnone | hsame := h p
    · cases hnone.symm.trans ho
    · exact helems p e hp (mem_elemsOf_iff.mpr ⟨o, hsame ▸ ho, hmem⟩)
  intro n
  induction n with
  | zero =>
    intro ids
    induction ids with
    | nil => exact fun _ _ _ _ => rfl
    | cons id ids ih =>
      intro syms hids helems j hj
      obtain ⟨hid, hids⟩ := List.forall_mem_cons.mp hids
      have hle : ∀ j, Function.update syms id none j = none ∨ Function.update syms id none j = syms j :=
        fun j => deleteSyms_le 0 [id] syms j
      exact (ih hids (hsub hle helems) j hj).trans (hupdate hid hj)
  | succ n ihn =>
    intro ids
    induction ids with
    | nil => exact fun _ _ _ _ => rfl
    | cons id ids ih =>
      intro syms hids helems j hj
      obtain ⟨hid, hids⟩ := List.forall_mem_cons.mp hids
      have hle : ∀ j, Function.update (deleteSyms n (elemsOf syms id) syms) id none j = none ∨
          Function.update (deleteSyms n (elemsOf syms id) syms) id none j = syms j :=
        fun j => deleteSyms_le (n + 1) [id] syms j
      refine (ih hids (hsub hle helems) j hj).trans ((hupdate hid hj).trans ?_)
      exact ihn (fun e he => helems id e hid he) helems j hj

/-- They stay above a bound that their objects and the elements of what is above it do. -/
theorem deleteSyms_below {b n : Nat} {ids : List SymId} {syms : Nat → Option SymObj}
    (hids : ∀ id : Nat, id ∈ ids → b ≤ id)
    (helems : ∀ p e : Nat, b ≤ p → e ∈ elemsOf syms p → b ≤ e) (j : Nat) (hj : j < b) :
    deleteSyms n ids syms j = syms j :=
  deleteSyms_of_closed (P := (b ≤ ·)) hids helems j (Nat.not_le.mpr hj)

/-- An array that was undetermined, if it was there, is built: what it loses has been made since. -/
theorem Later.rebuild {w₀ w : World} (h : Later w₀ w) (hok₀ : w₀.Ok) {id : Nat} {name : String} {type : ArrType}
    {s : Option (BitVec 32)} {elems : List SymId} (ho : w.syms id = some ⟨name, .array type s elems⟩)
    (hopen : ∀ o₀, w₀.syms id = some o₀ → o₀.val.determined = false) (size : BitVec 32) :
    Later w₀ (w.rebuild id name type elems size) := by
  have habove : ∀ p e : Nat, w₀.next ≤ p → e ∈ elemsOf w.syms p → w₀.next ≤ e := by
    intro p e hp he
    obtain ⟨o, ho, hmem⟩ := mem_elemsOf_iff.mp he
    exact (h.new p o (hok₀.tree.fresh p hp) ho).2 e hmem
  have helems : ∀ e : Nat, e ∈ elems → w₀.next ≤ e := by
    intro e he
    cases ho₀ : w₀.syms id with
    | none => exact (h.new id _ ho₀ ho).2 e he
    | some o₀ =>
      obtain ⟨o, ho', -, -, hundet⟩ := h.kept id o₀ ho₀
      obtain rfl := Option.some.inj (ho'.symm.trans ho)
      exact hundet (hopen o₀ ho₀) e he
  have hold : ∀ j : Nat, j < w₀.next → j ≠ id → (w.rebuild id name type elems size).syms j = w.syms j := by
    intro j hj hne
    rw [World.rebuild, World.setSym_of_ne _ _ hne,
      World.pushed_syms_of_lt (by exact Nat.lt_of_lt_of_le hj h.next)]
    exact deleteSyms_below helems habove j hj
  refine ⟨h.inputs, h.globals, Nat.le_trans h.next (Nat.le_add_right ..), fun j o₀ ho₀ => ?_, fun j o hnone hj => ?_⟩
  · by_cases hj : j = id
    · subst hj
      obtain ⟨o₁, ho₁, hcls, -⟩ := h.kept j o₀ ho₀
      obtain rfl := Option.some.inj (ho₁.symm.trans ho)
      refine ⟨_, World.setSym_self .., hcls, fun hd => ?_, fun _ e he => ?_⟩
      · cases hd.symm.trans (hopen o₀ ho₀)
      · exact Nat.le_trans h.next (List.mem_range'_1.mp he).1
    · obtain ⟨o, ho', hval⟩ := h.kept j o₀ ho₀
      exact ⟨o, (hold j (hok₀.tree.lt_next ho₀) hj).trans ho', hval⟩
  · obtain ⟨rfl, rfl⟩ | ⟨-, hr, rfl⟩ | ⟨-, hx⟩ := World.rebuild_some hj
    · exact ⟨(h.new _ _ hnone ho).1, fun e he => Nat.le_trans h.next (List.mem_range'_1.mp he).1⟩
    · exact ⟨Nat.le_trans h.next hr.1, by simp⟩
    · exact h.new j o hnone hx

theorem World.Step.later {w w' : World} (h : w.Step w') (hok : w.Ok) : Later w w' := by
  have hset {id : Nat} {o o' : SymObj} (ho : w.syms id = some o) (hundet : o.val.determined = false)
      (hcls : o'.val.cls = o.val.cls) (hnil : o'.val.elems = []) : Later w (w.setSym id o') := by
    refine (Later.refl hok).setSym ho (fun o₀ ho₀ => ?_) hcls hnil
    obtain rfl := Option.some.inj (ho₀.symm.trans ho)
    exact hundet
  cases h with
  | number _ h | char _ h | bool _ h => exact hset h rfl rfl rfl
  | size size h _ =>
    refine (Later.refl hok).rebuild hok h (fun o₀ ho₀ => ?_) size
    obtain rfl := Option.some.inj (ho₀.symm.trans h)
    rfl
  | block => exact .of_syms hok rfl rfl (Nat.le_succ _) rfl
  | rand | alloc | store => exact .of_syms hok rfl rfl (Nat.le_refl _) rfl

theorem World.Steps.later {w w' : World} (h : w.Steps w') (hok : w.Ok) : Later w w' := by
  induction h with
  | refl => exact .refl hok
  | tail hs h ih => exact ih.trans (h.later (World.Steps.ok hs hok))

end DGen
