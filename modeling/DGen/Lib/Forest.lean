/-
Nodes that point to nodes made before them: the nodes below one, with those
that are reached twice counted twice, and what it takes for a growing heap of
them to be trees.
-/
import Mathlib.Data.List.GetD
import Mathlib.Tactic

namespace Forest

/-- The children of each node. -/
abbrev Links := List (List ℕ)

variable {g g' g'' : Links} {i : ℕ}

def children (g : Links) (i : ℕ) : List ℕ := g.getD i []

/-- The nodes below one, each after those below it. -/
def postorder (g : Links) : ℕ → ℕ → List ℕ
  | 0, _ => []
  | n + 1, i => (children g i).flatMap (postorder g n) ++ [i]

/-- Children are made before what they are children of. -/
def Ordered (g : Links) : Prop := ∀ i, ∀ c ∈ children g i, c < i

/-- A node and those below it. -/
def below (g : Links) (i : ℕ) : List ℕ := postorder g (i + 1) i

theorem flatMap_congr {α β : Type} {f f' : α → List β} {l : List α} (h : ∀ a ∈ l, f a = f' a) :
    l.flatMap f = l.flatMap f' := by
  rw [List.flatMap_def, List.flatMap_def, List.map_congr_left h]

theorem postorder_eq (hg : Ordered g) : ∀ {n m i : ℕ}, i < n → i < m → postorder g n i = postorder g m i := by
  intro n
  induction n with
  | zero => exact fun h => absurd h (Nat.not_lt_zero _)
  | succ n ih =>
    intro m i hn hm
    obtain ⟨m, rfl⟩ : ∃ k, m = k + 1 := ⟨m - 1, by omega⟩
    rw [postorder, postorder, flatMap_congr fun c hc => ih (m := m) ?_ ?_]
    all_goals
      have := hg i c hc
      omega

theorem postorder_below (hg : Ordered g) {n : ℕ} (h : i < n) : postorder g n i = below g i :=
  postorder_eq hg h (Nat.lt_succ_self i)

theorem below_eq (hg : Ordered g) (i : ℕ) : below g i = (children g i).flatMap (below g) ++ [i] := by
  rw [below, postorder, flatMap_congr fun c hc => postorder_below hg (hg i c hc)]

theorem mem_below_self (g : Links) (i : ℕ) : i ∈ below g i := by
  rw [below, postorder]
  exact List.mem_append_right _ (List.mem_singleton_self i)

theorem children_append (h : i < g.length) : children (g ++ g') i = children g i := by
  rw [children, children, List.getD_append _ _ _ _ h]

theorem children_new (g : Links) (cs : List ℕ) : children (g ++ [cs]) g.length = cs := by
  simp [children]

theorem children_of_length_le (h : g.length ≤ i) : children g i = [] := List.getD_eq_default _ _ h

/-- What is made later changes nothing below. -/
theorem below_append (hg : Ordered g) (hg' : Ordered (g ++ g')) (h : i < g.length) : below (g ++ g') i = below g i := by
  induction i using Nat.strong_induction_on with
  | h i ih =>
    rw [below_eq hg', below_eq hg, children_append h, flatMap_congr fun c hc => ih c (hg i c hc) ((hg i c hc).trans h)]

theorem ordered_new (hg : Ordered g) {cs : List ℕ} (hcs : ∀ c ∈ cs, c < g.length) : Ordered (g ++ [cs]) := by
  intro i c hc
  obtain h | rfl | h := Nat.lt_trichotomy i g.length
  · rw [children_append h] at hc
    exact hg i c hc
  · rw [children_new] at hc
    exact hcs c hc
  · rw [children_of_length_le (by simpa using h)] at hc
    cases hc

/-- Each node below one, but that one, is counted as a child of one below. -/
theorem below_perm (hg : Ordered g) (i : ℕ) : (below g i).Perm (i :: (below g i).flatMap (children g)) := by
  induction i using Nat.strong_induction_on with
  | h i ih =>
    have hsub : ∀ cs : List ℕ, (∀ c ∈ cs, c < i) →
        (cs.flatMap (below g)).Perm (cs ++ (cs.flatMap (below g)).flatMap (children g)) := by
      intro cs
      induction cs with
      | nil => exact fun _ => .refl _
      | cons c cs ihcs =>
        intro hcs
        obtain ⟨hc, hcs⟩ := List.forall_mem_cons.mp hcs
        simp only [List.flatMap_cons, List.flatMap_append]
        refine ((ih c hc).append (ihcs hcs)).trans ?_
        rw [List.cons_append, List.cons_append]
        refine .cons c ?_
        rw [← List.append_assoc, ← List.append_assoc]
        exact List.perm_append_comm.append_right _
    rw [below_eq hg, List.flatMap_append, List.flatMap_singleton]
    refine (List.perm_append_comm).trans (.cons i ?_)
    exact (hsub _ (hg i)).trans List.perm_append_comm

/-! ## Growing heaps -/

/-- From `g` to `g'`, what is below `roots` is what is new, and `shared` on top of that. -/
structure Grows (g g' : Links) (roots shared : List ℕ) : Prop where
  ordered : Ordered g'
  isPrefix : g <+: g'
  bound : ∀ r ∈ roots, r < g'.length
  perm : (roots.flatMap (below g')).Perm (List.range' g.length (g'.length - g.length) ++ shared)

namespace Grows

variable {roots roots' shared shared' : List ℕ}

theorem refl (hg : Ordered g) : Grows g g [] [] :=
  ⟨hg, List.prefix_rfl, by simp, by simp⟩

theorem of_perm (h : Grows g g' roots shared) (hroots : roots.Perm roots') (hshared : shared.Perm shared') :
    Grows g g' roots' shared' :=
  ⟨h.ordered, h.isPrefix, fun r hr => h.bound r (hroots.mem_iff.mpr hr),
    ((hroots.flatMap_right _).symm.trans h.perm).trans (hshared.append_left _)⟩

theorem length_le (h : Grows g g' roots shared) : g.length ≤ g'.length := h.isPrefix.length_le

/-- What was there, taken once more. -/
theorem old (hg : Ordered g) {r : ℕ} (hr : r < g.length) : Grows g g [r] (below g r) :=
  ⟨hg, List.prefix_rfl, by simpa using hr, by simp⟩

theorem below_eq (h : Grows g g' roots shared) (hg : Ordered g) {i : ℕ} (hi : i < g.length) :
    below g' i = below g i := by
  have hordered := h.ordered
  obtain ⟨t, rfl⟩ := h.isPrefix
  exact below_append hg hordered hi

theorem trans (h : Grows g g' roots shared) (h' : Grows g' g'' roots' shared') :
    Grows g g'' (roots ++ roots') (shared ++ shared') where
  ordered := h'.ordered
  isPrefix := h.isPrefix.trans h'.isPrefix
  bound := by
    rw [List.forall_mem_append]
    exact ⟨fun r hr => (h.bound r hr).trans_le h'.length_le, h'.bound⟩
  perm := by
    have hbelow : roots.flatMap (below g'') = roots.flatMap (below g') :=
      flatMap_congr fun r hr => h'.below_eq h.ordered (h.bound r hr)
    have hle := h.length_le
    have hle' := h'.length_le
    have hrange : List.range' g.length (g''.length - g.length) =
        List.range' g.length (g'.length - g.length) ++ List.range' g'.length (g''.length - g'.length) := by
      obtain ⟨a, ha⟩ := Nat.exists_eq_add_of_le hle
      obtain ⟨b, hb⟩ := Nat.exists_eq_add_of_le hle'
      have hsplit := @List.range'_append g.length a b 1
      rw [hb, ha, Nat.add_sub_cancel_left, Nat.add_sub_cancel_left, Nat.add_assoc, Nat.add_sub_cancel_left,
        ← hsplit, Nat.one_mul]
    rw [List.flatMap_append, hbelow, hrange]
    refine (h.perm.append h'.perm).trans ?_
    rw [List.append_assoc, List.append_assoc]
    refine List.Perm.append_left _ ?_
    rw [← List.append_assoc, ← List.append_assoc]
    exact List.perm_append_comm.append_right _

/-- A new node over some of the roots. -/
theorem new {cs : List ℕ} (h : Grows g g' (roots ++ cs) shared) :
    Grows g (g' ++ [cs]) (roots ++ [g'.length]) shared := by
  have hb := List.forall_mem_append.mp h.bound
  have hord := ordered_new h.ordered hb.2
  have hle := h.length_le
  have hsame : ∀ rs : List ℕ, (∀ r ∈ rs, r < g'.length) → rs.flatMap (below (g' ++ [cs])) = rs.flatMap (below g') :=
    fun rs hrs => flatMap_congr fun r hr => below_append h.ordered hord (hrs r hr)
  refine ⟨hord, h.isPrefix.trans (List.prefix_append _ _), ?_, ?_⟩
  · rw [List.forall_mem_append, List.forall_mem_singleton, List.length_append]
    exact ⟨fun r hr => (hb.1 r hr).trans (Nat.lt_succ_self _), Nat.lt_succ_self _⟩
  · have hrange : List.range' g.length ((g' ++ [cs]).length - g.length) =
        List.range' g.length (g'.length - g.length) ++ [g'.length] := by
      obtain ⟨a, ha⟩ := Nat.exists_eq_add_of_le hle
      rw [List.length_append, List.length_singleton, ha, Nat.add_assoc, Nat.add_sub_cancel_left,
        Nat.add_sub_cancel_left,
        List.range'_concat, Nat.one_mul]
    rw [List.flatMap_append, List.flatMap_singleton, Forest.below_eq hord, children_new, hsame _ hb.1,
      hsame _ hb.2, hrange,
      ← List.append_assoc, ← List.flatMap_append]
    refine (h.perm.append_right _).trans ?_
    rw [List.append_assoc, List.append_assoc]
    exact List.perm_append_comm.append_left _

/-- What has grown from nothing is a tree if nothing is shared, and only then. -/
theorem tree_iff {r : ℕ} (h : Grows [] g [r] shared) : (below g r).Perm (List.range g.length) ↔ shared = [] := by
  have hperm := h.perm
  rw [List.flatMap_singleton, List.length_nil, Nat.sub_zero, ← List.range_eq_range'] at hperm
  constructor
  · intro htree
    have hlen := (htree.symm.trans hperm).length_eq
    rw [List.length_append] at hlen
    exact List.length_eq_zero_iff.mp (by omega)
  · rintro rfl
    rwa [List.append_nil] at hperm

end Grows

/-- In a tree each node but the root is a child once. -/
theorem children_perm (hg : Ordered g) {r : ℕ} (h : (below g r).Perm (List.range g.length)) :
    (r :: (List.range g.length).flatMap (children g)).Perm (List.range g.length) :=
  ((h.flatMap_right _).symm.cons r).trans ((below_perm hg r).symm.trans h)

end Forest
