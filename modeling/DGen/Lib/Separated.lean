/-
Lists of words written one after the other, each with a separator after it.

The writing is injective where the words are free of the separator. When one
text is what is left of another after a cut, the cut falls into a word of the
longer one, and from the next word on the two lists are the same.
-/
import Mathlib.Data.List.Basic

namespace Separated

variable {α β : Type}

/-- Each word with the separator after it. -/
def text (word : α → List β) (sep : β) (xs : List α) : List β := xs.flatMap fun x => word x ++ [sep]

/-- Words that can be told apart by a separator. -/
structure Words (word : α → List β) (sep : β) : Prop where
  inj : Function.Injective word
  free : ∀ x, sep ∉ word x

variable {word : α → List β} {sep : β}

@[simp] theorem text_nil : text word sep [] = [] := rfl

@[simp] theorem text_cons (x : α) (xs : List α) : text word sep (x :: xs) = word x ++ sep :: text word sep xs := by
  simp [text]

@[simp] theorem text_append (xs ys : List α) : text word sep (xs ++ ys) = text word sep xs ++ text word sep ys := by
  simp [text]

/-- The first separator ends the first word. -/
theorem append_sep_inj {as bs cs ds : List β} (ha : sep ∉ as) (hb : sep ∉ bs)
    (h : as ++ sep :: cs = bs ++ sep :: ds) : as = bs ∧ cs = ds := by
  induction as generalizing bs with
  | nil =>
    cases bs with
    | nil => exact ⟨rfl, (List.cons.inj h).2⟩
    | cons b bs => exact absurd ((List.cons.inj h).1 ▸ List.mem_cons_self) hb
  | cons a as ih =>
    cases bs with
    | nil => exact absurd ((List.cons.inj h).1 ▸ List.mem_cons_self) ha
    | cons b bs =>
      obtain ⟨rfl, htail⟩ := List.cons.inj h
      obtain ⟨rfl, hcd⟩ := ih (List.not_mem_of_not_mem_cons ha) (List.not_mem_of_not_mem_cons hb) htail
      exact ⟨rfl, hcd⟩

namespace Words

theorem text_inj (hw : Words word sep) : ∀ {xs ys : List α}, text word sep xs = text word sep ys → xs = ys
  | [], [], _ => rfl
  | [], y :: ys, h => by simp at h
  | x :: xs, [], h => by simp at h
  | x :: xs, y :: ys, h => by
    rw [text_cons, text_cons] at h
    obtain ⟨hxy, h⟩ := append_sep_inj (hw.free x) (hw.free y) h
    rw [hw.inj hxy, hw.text_inj h]

/-- **Where a text is left after a cut**: the cut is after some words and the
beginning of one, whose rest is the first word of what is left. -/
theorem text_eq_append_iff (hw : Words word sep) {ys : List α} (hys : ys ≠ []) : ∀ {xs : List α} {cut : List β},
    text word sep xs = cut ++ text word sep ys ↔ ∃ outer x rest beginning y, xs = outer ++ x :: rest ∧
      ys = y :: rest ∧ cut = text word sep outer ++ beginning ∧ word x = beginning ++ word y := by
  intro xs cut
  constructor
  · intro h
    induction xs generalizing cut with
    | nil =>
      obtain ⟨y, ys, rfl⟩ := List.exists_cons_of_ne_nil hys
      simp at h
    | cons x xs ih =>
      obtain ⟨y, rest, rfl⟩ := List.exists_cons_of_ne_nil hys
      rw [text_cons, List.append_eq_append_iff] at h
      obtain ⟨cut, rfl, h⟩ | ⟨left, hx, h⟩ := h
      · -- the cut is after the first word
        cases cut with
        | nil =>
          rw [text_cons, List.nil_append] at h
          obtain ⟨hy, hrest⟩ := append_sep_inj List.not_mem_nil (hw.free y) h
          exact ⟨[], x, xs, word x, y, rfl, by rw [hw.text_inj hrest], by simp, by rw [← hy, List.append_nil]⟩
        | cons s cut =>
          obtain ⟨rfl, htail⟩ := List.cons.inj h
          obtain ⟨outer, x', rest', beginning, y', rfl, hcons, rfl, hword⟩ := ih htail
          exact ⟨x :: outer, x', rest', beginning, y', rfl, hcons, by simp, hword⟩
      · -- the cut is in the first word
        have hleft : sep ∉ left := fun hmem => hw.free x (hx ▸ List.mem_append_right _ hmem)
        rw [text_cons] at h
        obtain ⟨rfl, hrest⟩ := append_sep_inj (hw.free y) hleft h
        exact ⟨[], x, xs, cut, y, rfl, by rw [hw.text_inj hrest], rfl, hx⟩
  · rintro ⟨outer, x, rest, beginning, y, rfl, rfl, rfl, hword⟩
    simp [hword]

end Words
end Separated
