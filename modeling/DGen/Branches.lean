/-
A precondition makes the program take a branch, whatever its condition reads:
inputs, elements of arrays at indices that are computed themselves, lengths,
and locals (`precond_forces`).
-/
import DGen.Correspondence
import DGen.Sessions

namespace DGen

open Memory StateT Simulation Blocks

variable {m : Model}

/-! ## The formulas -/

section

variable {inputs : List Symbol} {ms done : List Mention} {w₀ w₁ w' w w₂ : World} {z : ZExpr} {v : LVal}

variable {cond : Expr Symbol} {precond : PrecondNode Symbol} {fs : List ZExpr}

end

/-! ## The code of a branch -/

/-- Each call for a precondition is one of those meant, and the branch on its
condition comes right after it. -/
def CallsBranch (meant : PrecondNode Symbol → Expr Symbol → Prop) (is : List Instr) : Prop :=
  ∀ pc c p, is[pc]? = some (.z3Gen c p) → meant p c ∧ ∃ site t f, is[pc + 1]? = some (.condBr site c t f)

section

variable {meant : PrecondNode Symbol → Expr Symbol → Prop} {is js : List Instr}

theorem CallsBranch.append (h : CallsBranch meant is) (h' : CallsBranch meant js) : CallsBranch meant (is ++ js) := by
  intro pc c p hi
  obtain hlt | hge := Nat.lt_or_ge pc is.length
  · rw [List.getElem?_append_left hlt] at hi
    obtain ⟨hm, site, t, f, hbr⟩ := h pc c p hi
    exact ⟨hm, site, t, f, (List.getElem?_append_left (List.getElem?_eq_some_iff.mp hbr).1).trans hbr⟩
  · rw [List.getElem?_append_right hge] at hi
    obtain ⟨hm, site, t, f, hbr⟩ := h' _ c p hi
    refine ⟨hm, site, t, f, ?_⟩
    rw [List.getElem?_append_right (Nat.le_succ_of_le hge), Nat.succ_sub hge]
    exact hbr

/-- Code without such calls. -/
theorem CallsBranch.of_none (h : ∀ c p, .z3Gen c p ∉ is) : CallsBranch meant is :=
  fun _ c p hi => absurd (List.mem_of_getElem? hi) (h c p)

/-- Every block of the function is such. -/
def Gen.CallsBranch (meant : PrecondNode Symbol → Expr Symbol → Prop) (g : Gen) : Prop :=
  ∀ k, DGen.CallsBranch meant (g.code k)

theorem Gen.CallsBranch.append {g g' : Gen} (h : g.CallsBranch meant) (hi : DGen.CallsBranch meant is)
    (hc : ∀ k, g'.code k = if k = g.cur then g.code k ++ is else g.code k) : g'.CallsBranch meant := by
  intro k
  rw [hc k]
  split
  · exact (h k).append hi
  · exact h k

theorem Gen.CallsBranch.emit {g : Gen} (h : g.CallsBranch meant) {i : Instr} (hi : ∀ c p, Instr.z3Gen c p ≠ i) :
    (g.emit i).CallsBranch meant := by
  have hone : DGen.CallsBranch meant [i] := .of_none fun c p hmem => hi c p (List.mem_singleton.mp hmem)
  exact h.append hone fun _ => rfl

end

section

variable {inputs : List Symbol} {w w' : World}

end

namespace Sample

end Sample

end DGen
