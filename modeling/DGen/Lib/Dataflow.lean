/-
What is certain to have happened on every path through a graph of blocks: a
forward analysis, and what it says of paths.

An instruction generates facts. An analysis gives each block the facts it may
count on at its start (`start`); it is sound when every instruction finds what
it needs among those and the ones generated before it in its block, and every
edge leads to a block that counts on no more (`Sound`).
-/
import Mathlib.Data.Set.Basic
import Mathlib.Data.List.Basic

namespace Dataflow

variable {ι α : Type}

/-- What a list of instructions generates. -/
def gens (gen : ι → Set α) : List ι → Set α
  | [] => ∅
  | i :: is => gen i ∪ gens gen is

/-- `P` holds of each instruction, with the facts there are before it. -/
def Through (gen : ι → Set α) (P : Set α → ι → Prop) : Set α → List ι → Prop
  | _, [] => True
  | D, i :: is => P D i ∧ Through gen P (D ∪ gen i) is

section Lists
variable {gen : ι → Set α} {P : Set α → ι → Prop}

theorem gens_append (is js : List ι) : gens gen (is ++ js) = gens gen is ∪ gens gen js := by
  induction is with
  | nil => simp [gens]
  | cons i is ih => rw [List.cons_append, gens, gens, ih, Set.union_assoc]

theorem mem_gens {a : α} {is : List ι} : a ∈ gens gen is ↔ ∃ i ∈ is, a ∈ gen i := by
  induction is with
  | nil => simp [gens]
  | cons i is ih => simp [gens, ih]

theorem through_append {D : Set α} {is js : List ι} :
    Through gen P D (is ++ js) ↔ Through gen P D is ∧ Through gen P (D ∪ gens gen is) js := by
  induction is generalizing D with
  | nil => simp [Through, gens]
  | cons i is ih => rw [List.cons_append, Through, Through, ih, gens, ← Set.union_assoc, and_assoc]

theorem through_iff {D : Set α} {is : List ι} :
    Through gen P D is ↔ ∀ done i rest, is = done ++ i :: rest → P (D ∪ gens gen done) i := by
  constructor
  · rintro h done i rest rfl
    exact (through_append.mp h).2.1
  · intro h
    induction is generalizing D with
    | nil => trivial
    | cons i is ih =>
      refine ⟨by simpa [gens] using h [] i is rfl, ih fun done j rest heq => ?_⟩
      have := h (i :: done) j rest (by rw [heq]; rfl)
      rwa [gens, ← Set.union_assoc] at this

/-- More facts do no harm, and `P` may be weakened. -/
theorem Through.mono {Q : Set α → ι → Prop} (hP : ∀ D E i, D ⊆ E → P D i → Q E i) {is : List ι} :
    ∀ {D E : Set α}, D ⊆ E → Through gen P D is → Through gen Q E is := by
  induction is with
  | nil => intros; trivial
  | cons i is ih => exact fun hDE h => ⟨hP _ _ i hDE h.1, ih (Set.union_subset_union_left _ hDE) h.2⟩

end Lists

/-! ## Paths -/

/-- A path through the blocks, from an instruction to one it ends before, and
the instructions passed. `succs` is `none` where control goes on to the next
instruction. -/
inductive Path (succs : ι → Option (List Nat)) (code : Nat → List ι) : Nat → Nat → List ι → Nat → Nat → Prop
  | refl {b p} : Path succs code b p [] b p
  | next {b p i is b' p'} : (code b)[p]? = some i → succs i = none → Path succs code b (p + 1) is b' p' →
      Path succs code b p (i :: is) b' p'
  | jump {b p i is b' p' k ks} : (code b)[p]? = some i → succs i = some ks → k ∈ ks →
      Path succs code k 0 is b' p' → Path succs code b p (i :: is) b' p'

/-- An instruction needs some facts, and its successors may count on no more than there are. -/
def Fits (start : Nat → Set α) (succs : ι → Option (List Nat)) (need : ι → Set α) (D : Set α) (i : ι) : Prop :=
  need i ⊆ D ∧ ∀ ks, succs i = some ks → ∀ k ∈ ks, start k ⊆ D

/-- The analysis is sound for the blocks. -/
def Sound (gen need : ι → Set α) (succs : ι → Option (List Nat)) (code : Nat → List ι) (start : Nat → Set α) : Prop :=
  ∀ k, Through gen (Fits start succs need) (start k) (code k)

variable {gen need : ι → Set α} {succs : ι → Option (List Nat)} {code : Nat → List ι} {start : Nat → Set α}

theorem take_succ_of_getElem? {is : List ι} {p : Nat} {i : ι} (h : is[p]? = some i) :
    is.take (p + 1) = is.take p ++ [i] := by
  rw [List.take_add_one, h]
  rfl

theorem Sound.fits (h : Sound gen need succs code start) {b p : Nat} {i : ι} (hi : (code b)[p]? = some i) :
    Fits start succs need (start b ∪ gens gen ((code b).take p)) i := by
  refine through_iff.mp (h b) _ i ((code b).drop (p + 1)) ?_
  obtain ⟨hp, rfl⟩ := List.getElem?_eq_some_iff.mp hi
  rw [← List.drop_eq_getElem_cons hp, List.take_append_drop]

/-- A path generates what the analysis counts on where it ends, from what it counted on at its start. -/
theorem Sound.path (h : Sound gen need succs code start) {b p b' p' : Nat} {is : List ι}
    (hp : Path succs code b p is b' p') :
    start b' ∪ gens gen ((code b').take p') ⊆ start b ∪ gens gen ((code b).take p) ∪ gens gen is := by
  induction hp with
  | refl => simp [gens]
  | next hi _ _ ih =>
    rw [take_succ_of_getElem? hi, gens_append] at ih
    refine ih.trans ?_
    simp only [gens, Set.union_empty, Set.union_assoc]
    exact subset_rfl
  | jump hi hs hk _ ih =>
    have hstart := (h.fits hi).2 _ hs _ hk
    refine ih.trans ?_
    simp only [List.take_zero, gens, Set.union_empty]
    exact Set.union_subset_union hstart Set.subset_union_right

/-- **What an instruction needs has been generated on every path to it**, where nothing is counted on at the start. -/
theorem Sound.needed (h : Sound gen need succs code start) (h₀ : start 0 = ∅) {b p : Nat} {is : List ι} {i : ι}
    (hp : Path succs code 0 0 is b p) (hi : (code b)[p]? = some i) : need i ⊆ gens gen is := by
  have := (h.fits hi).1.trans (h.path hp)
  simpa [h₀, gens] using this

end Dataflow
