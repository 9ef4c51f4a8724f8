/-
Which lookups into inputs stay inside their arrays.

The only check is that an index is below the length, so a negative one passes
it. `gen_expr` also passes no index at all, where the context has none for the
lookup. A lookup is safe exactly when it has an index and comes to no negative
one: when there is none, or one before it is too large (`lookup_safe_iff`).
-/
import DGen.Arrays

namespace DGen

open Memory StateT

/-! ## Lookups -/

/-- The lookup throws, or it reads each array at an index that is inside. -/
def LookupSafe (arr : SymId) (idxs : List (BitVec 32)) (w : World) : Prop :=
  getSymbolByIdxs arr idxs w = .error (.thrown "out of bounds") ∨
    ∃ e w', getSymbolByIdxs arr idxs w = .ok (e, w') ∧ InRange arr idxs w

/-- A lookup comes to a negative index: those before it are inside their arrays. -/
def MeetsNegative : SymId → List (BitVec 32) → World → Prop
  | _, [], _ => False
  | arr, idx :: idxs, w => idx.toInt < 0 ∨ ∃ size w' e, getSize arr w = .ok (size, w') ∧ idx.toInt < size.toInt ∧
      (elemsOf w'.syms arr)[idx.toNat]? = some e ∧ MeetsNegative e idxs w'

section

variable {w w' : World} {arr e : SymId} {idx size : BitVec 32} {idxs : List (BitVec 32)}

/-- What an index that is inside its array leaves to the next one. -/
theorem inRange_cons_iff (hsize : getSize arr w = .ok (size, w')) (hlo : 0 ≤ idx.toInt) (hhi : idx.toInt < size.toInt)
    (hat : (elemsOf w'.syms arr)[idx.toNat]? = some e) : InRange arr (idx :: idxs) w ↔ InRange e idxs w' := by
  constructor
  · intro h
    exact (h size w' hsize).2.2 e hat
  · intro h size₁ w₁ hsize₁
    cases hsize.symm.trans hsize₁
    refine ⟨hlo, hhi, fun e₁ hat₁ => ?_⟩
    cases hat.symm.trans hat₁
    exact h

theorem meetsNegative_cons_iff (hsize : getSize arr w = .ok (size, w')) (hlo : 0 ≤ idx.toInt)
    (hhi : idx.toInt < size.toInt) (hat : (elemsOf w'.syms arr)[idx.toNat]? = some e) :
    MeetsNegative arr (idx :: idxs) w ↔ MeetsNegative e idxs w' := by
  constructor
  · rintro (hneg | ⟨size₁, w₁, e₁, hsize₁, -, hat₁, h⟩)
    · exact absurd hneg (Int.not_lt.mpr hlo)
    · cases hsize.symm.trans hsize₁
      cases hat.symm.trans hat₁
      exact h
  · exact fun h => .inr ⟨size, w', e, hsize, hhi, hat, h⟩

end

/-- Each index is too large, negative, or inside, and only the last kind leads on. -/
theorem getSymbolByIdxs_cases {idxs : List (BitVec 32)} : ∀ {w : World} {t : DeclTy} {arr : SymId}, w.Ok → w.Alive →
    w.Has t arr → idxs ≠ [] → idxs.length ≤ t.depth →
      (MeetsNegative arr idxs w ∧ getSymbolByIdxs arr idxs w = .error .undefined) ∨
        (¬ MeetsNegative arr idxs w ∧ LookupSafe arr idxs w) := by
  induction idxs with
  | nil => exact fun _ _ _ hne => absurd rfl hne
  | cons idx idxs ih =>
    intro w t arr hok halive h _ hlen
    rw [List.length_cons] at hlen
    obtain ⟨elem, he⟩ := DeclTy.elem?_of_depth (t := t) (by omega)
    obtain ⟨size, w', name, type, elems, hsize, hs, ho, -, hcount, helems⟩ := getSize_returns hok halive h he
    have hfail : ∀ {f : Fault}, getElem arr idx w = .error f → getSymbolByIdxs arr (idx :: idxs) w = .error f := by
      intro f hf
      cases idxs with
      | nil => exact hf
      | cons => exact bind_error_iff.mpr (.inl hf)
    by_cases hhi : idx.toInt < size.toInt
    · by_cases hlo : 0 ≤ idx.toInt
      · -- inside: the rest decides
        have hlt : idx.toNat < elems.length := by
          have := toNat_of_nonneg hlo
          omega
        have hat : (elemsOf w'.syms arr)[idx.toNat]? = some elems[idx.toNat] := by
          rw [elemsOf_of_some ho]
          exact List.getElem?_eq_getElem hlt
        have helem : getElem arr idx w = .ok (elems[idx.toNat], w') := by
          rw [getElem_eq hsize ho, if_neg (Int.not_le.mpr hhi), if_neg (Int.not_lt.mpr hlo),
            List.getElem?_eq_getElem hlt]
          rfl
        rw [meetsNegative_cons_iff hsize hlo hhi hat, LookupSafe, inRange_cons_iff hsize hlo hhi hat]
        cases idxs with
        | nil => exact .inr ⟨id, .inr ⟨_, w', helem, trivial⟩⟩
        | cons idx' idxs =>
          have hrun : getSymbolByIdxs arr (idx :: idx' :: idxs) w =
              getSymbolByIdxs elems[idx.toNat] (idx' :: idxs) w' :=
            bind_of_ok helem
          rw [hrun]
          refine ih (hs.ok hok) (hs.alive hok halive) (helems _ (List.getElem_mem hlt)) (List.cons_ne_nil _ _) ?_
          rw [DeclTy.depth_of_elem? he] at hlen
          omega
      · refine .inl ⟨.inl (Int.not_le.mp hlo), hfail ?_⟩
        rw [getElem_eq hsize ho, if_neg (Int.not_le.mpr hhi), if_pos (Int.not_le.mp hlo)]
    · refine .inr ⟨?_, .inl (hfail ?_)⟩
      · rintro (hneg | ⟨size₁, w₁, e₁, hsize₁, hlt, -, -⟩)
        · omega
        · cases hsize.symm.trans hsize₁
          exact hhi hlt
      · rw [getElem_eq hsize ho, if_pos (Int.not_lt.mp hhi)]

/-- **A lookup stays inside its arrays** exactly if it has an index and comes
to no negative one. The indices are those of the code, or those of the context,
which may be none. -/
theorem lookup_safe_iff {env : Env} {inputs : List Symbol} {ops : List Op} {w : World}
    (hrun : runOps ops (World.start env inputs) = .ok ((), w)) {k : Nat} {s : Symbol} {arr : SymId}
    (hs : inputs[k]? = some s) (harr : w.inputs[k]? = some arr) {node inode : ASTNode} {name : String}
    {idxs : List (Expr Symbol)} {t : Ty} (hty : (Expr.arrLookup node ⟨inode, name, s⟩ idxs).getType = .ok t)
    {vals : List (BitVec 32)} (hvals : vals.length = idxs.length ∨ vals = []) :
    LookupSafe arr vals w ↔ vals ≠ [] ∧ ¬ MeetsNegative arr vals w := by
  have hw := (World.Whole.start env inputs).test hrun
  obtain ⟨hk, rfl⟩ := List.getElem?_eq_some_iff.mp hs
  obtain ⟨hk', rfl⟩ := List.getElem?_eq_some_iff.mp harr
  obtain ⟨-, d, hd, -⟩ := getType_arrLookup_ok_iff.mp hty
  have hfails (hundef : getSymbolByIdxs w.inputs[k] vals w = .error .undefined) : ¬ LookupSafe w.inputs[k] vals w := by
    rintro (hthrown | ⟨_, _, hok, -⟩)
    · cases hundef.symm.trans hthrown
    · cases hundef.symm.trans hok
  by_cases hempty : vals = []
  · subst hempty
    exact iff_of_false (hfails rfl) fun h => h.1 rfl
  · obtain ⟨hmeets, hundef⟩ | ⟨hmeets, hsafe⟩ := getSymbolByIdxs_cases hw.ok hw.alive (hw.typed.get hk hk') hempty
      (hvals.resolve_right hempty ▸ elems?_depth hd)
    · exact iff_of_false (hfails hundef) fun h => h.2 hmeets
    · exact iff_of_true hsafe ⟨hempty, hmeets⟩

namespace Sample

/-- `int f(int[] a, int k) { return a[k - 1] }`. -/
def before : FunctionNode Unit where
  node := node 0
  retType := ⟨.int, 0⟩
  name := "f"
  args := [param 1 "a" ⟨.int, 1⟩, param 2 "k" ⟨.int, 0⟩]
  body := [ret 3 (lookup 4 5 "a" (.binOp (node 6) .sub (ident 7 "k") (num 8 1)))]
  distinct := by decide

def inputK : Symbol := ⟨.input 1, ⟨0, 0⟩, ⟨.int, 0⟩, "k"⟩

end Sample

theorem lookup_safe_iff_last : ∃ w, runOps [.getSize 0] (World.start (Sample.draws 3) [Sample.inputA, Sample.inputK]) = .ok ((), w) ∧
    w.inputs[0]? = some 0 ∧ (LookupSafe 0 [2] w ↔ ([2] : List (BitVec 32)) ≠ [] ∧ ¬ MeetsNegative 0 [2] w) := by
  have hrun : ((runOps [.getSize 0] (World.start (Sample.draws 3) [Sample.inputA, Sample.inputK])).map fun r => r.2.inputs[0]?) =
      .ok (some 0) := by decide +kernel
  obtain ⟨⟨_, w⟩, hw, harr⟩ := Except.map_ok_iff.mp hrun
  have hs : [Sample.inputA, Sample.inputK][0]? = some Sample.inputA := rfl
  have hty : (Expr.arrLookup (Sample.node 4) ⟨Sample.node 5, "a", Sample.inputA⟩ [.number (Sample.node 6) 2]).getType =
      .ok ⟨[.arr, .int], 1⟩ := rfl
  exact ⟨w, hw, harr, lookup_safe_iff hw hs harr hty (.inl rfl)⟩

/-- The indices that an accepted program's lookup can have, where `k` is drawn as 0. -/
theorem before_unsafe : ¬ ∀ (f : FunctionNode Unit) (g : FunctionNode Symbol) (inputs : List Symbol) (env : Env)
    (n : ReturnNode Symbol) (s : Symbol) (idxs : List LVal) (ty : LTy) (arr : SymId) (vals : List (BitVec 32)) (w : World),
    f.accept = .ok (g, inputs) → .ret n ∈ Body.nodes g.body → codeGenExpr n.expr = .ok (.getValArr s idxs ty) →
      inputId s.ref (World.start env inputs) = .ok (arr, World.start env inputs) →
        LVal.evalIdxs idxs (World.start env inputs) = .ok (vals, w) → LookupSafe arr vals w := by
  intro h
  obtain ⟨g, inputs, n, s, idxs, ty, arr, vals, w, hacc, hn, hgen, harr, hvals, hrun⟩ :
      ∃ g inputs n s idxs ty arr vals w, Sample.before.accept = .ok (g, inputs) ∧ .ret n ∈ Body.nodes g.body ∧
        codeGenExpr n.expr = .ok (.getValArr s idxs ty) ∧
        inputId s.ref (World.start (Sample.draws 0) inputs) = .ok (arr, World.start (Sample.draws 0) inputs) ∧
        LVal.evalIdxs idxs (World.start (Sample.draws 0) inputs) = .ok (vals, w) ∧
        getSymbolByIdxs arr vals w = .error .undefined :=
    ⟨_, _, _, _, _, _, _, _, _, rfl, List.mem_cons_self .., rfl, rfl, rfl, rfl⟩
  obtain hthrown | ⟨_, _, hok, -⟩ := h _ _ _ _ _ _ _ _ _ _ _ hacc hn hgen harr hvals
  · cases hrun.symm.trans hthrown
  · cases hrun.symm.trans hok

end DGen
