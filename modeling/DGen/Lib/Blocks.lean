/-
Basic blocks: a builder that appends instructions at an insertion point,
and a machine that runs what it built.

`Extends` is what code emission may do to a function under construction:
append at the insertion block, add blocks, and leave the insertion point
where it was or in an added block.
-/
import Mathlib.Tactic

namespace Blocks

variable {ι : Type}

/-- A function under construction: `size` blocks, numbered in creation order, and the
insertion block. -/
structure Builder (ι : Type) where
  size : Nat
  name : Nat → String
  code : Nat → List ι
  cur : Nat

namespace Builder

/-- One empty block, the insertion point in it. -/
def start (n : String) : Builder ι := { size := 1, name := fun _ => n, code := fun _ => [], cur := 0 }

/-- The new block's number is the old `size`. -/
def createBlock (n : String) (b : Builder ι) : Builder ι :=
  { b with
    size := b.size + 1
    name := fun k => if k = b.size then n else b.name k
    code := fun k => if k = b.size then [] else b.code k }

def setInsertPoint (k : Nat) (b : Builder ι) : Builder ι := { b with cur := k }

def emit (i : ι) (b : Builder ι) : Builder ι :=
  { b with code := fun k => if k = b.cur then b.code k ++ [i] else b.code k }

section Simp
variable (b : Builder ι) (n : String) (i : ι) (k j : Nat)

@[simp] theorem start_size : (start n : Builder ι).size = 1 := rfl
@[simp] theorem start_cur : (start n : Builder ι).cur = 0 := rfl
@[simp] theorem start_code : (start n : Builder ι).code k = [] := rfl
@[simp] theorem createBlock_size : (b.createBlock n).size = b.size + 1 := rfl
@[simp] theorem createBlock_cur : (b.createBlock n).cur = b.cur := rfl
@[simp] theorem createBlock_code : (b.createBlock n).code k = if k = b.size then [] else b.code k := rfl
@[simp] theorem createBlock_name : (b.createBlock n).name k = if k = b.size then n else b.name k := rfl
@[simp] theorem setInsertPoint_size : (b.setInsertPoint k).size = b.size := rfl
@[simp] theorem setInsertPoint_cur : (b.setInsertPoint k).cur = k := rfl
@[simp] theorem setInsertPoint_code : (b.setInsertPoint k).code j = b.code j := rfl
@[simp] theorem setInsertPoint_name : (b.setInsertPoint k).name j = b.name j := rfl
@[simp] theorem emit_size : (b.emit i).size = b.size := rfl
@[simp] theorem emit_cur : (b.emit i).cur = b.cur := rfl
@[simp] theorem emit_code : (b.emit i).code k = if k = b.cur then b.code k ++ [i] else b.code k := rfl
@[simp] theorem emit_name : (b.emit i).name k = b.name k := rfl

end Simp

/-! ## Emission -/

/-- What emitting code may do to the blocks there were. -/
structure Extends (b b' : Builder ι) : Prop where
  size_le : b.size ≤ b'.size
  keep : ∀ k < b.size, k ≠ b.cur → b'.code k = b.code k
  grow : b.code b.cur <+: b'.code b.cur
  name : ∀ k < b.size, b'.name k = b.name k
  cur : b'.cur = b.cur ∨ b.size ≤ b'.cur
  cur_lt : b'.cur < b'.size

theorem Extends.refl {b : Builder ι} (h : b.cur < b.size) : Extends b b :=
  ⟨Nat.le_refl _, fun _ _ _ => rfl, List.prefix_refl _, fun _ _ => rfl, .inl rfl, h⟩

theorem Extends.trans {b₁ b₂ b₃ : Builder ι} (hlt : b₁.cur < b₁.size) (h₁ : Extends b₁ b₂)
    (h₂ : Extends b₂ b₃) : Extends b₁ b₃ where
  size_le := h₁.size_le.trans h₂.size_le
  keep k hk hne := by
    have := h₁.size_le
    rw [h₂.keep k (by omega) (by rcases h₁.cur with h | h <;> omega), h₁.keep k hk hne]
  grow := by
    by_cases hc : b₂.cur = b₁.cur
    · exact h₁.grow.trans (hc ▸ h₂.grow)
    · have := h₁.size_le
      rw [h₂.keep b₁.cur (by omega) (Ne.symm hc)]
      exact h₁.grow
  name k hk := by rw [h₂.name k (hk.trans_le h₁.size_le), h₁.name k hk]
  cur := by
    have := h₁.size_le
    rcases h₂.cur with h | h
    · rw [h]; exact h₁.cur
    · exact .inr (this.trans h)
  cur_lt := h₂.cur_lt

theorem Extends.emit {b b' : Builder ι} (hlt : b.cur < b.size) (h : Extends b b') (i : ι) :
    Extends b (b'.emit i) := by
  refine h.trans hlt ⟨Nat.le_refl _, fun k _ hne => ?_, ?_, fun _ _ => rfl, .inl rfl, h.cur_lt⟩
  · simp [hne]
  · simp

theorem Extends.createBlock {b b' : Builder ι} (hlt : b.cur < b.size) (h : Extends b b') (n : String) :
    Extends b (b'.createBlock n) := by
  have hc := h.cur_lt
  refine h.trans hlt ⟨by simp, fun k hk _ => ?_, ?_, fun k hk => ?_, .inl rfl, by simp; omega⟩
  · simp [hk.ne]
  · simp [hc.ne]
  · simp [hk.ne]

/-- The insertion point may move to any block added since. -/
theorem Extends.setInsertPoint {b b' : Builder ι} (h : Extends b b') {k : Nat} (hk : b.size ≤ k)
    (hlt : k < b'.size) : Extends b (b'.setInsertPoint k) :=
  ⟨h.size_le, h.keep, h.grow, h.name, .inr hk, hlt⟩

/-- A block that emission did not stand in keeps its code. -/
theorem Extends.code_eq {b b' : Builder ι} (h : Extends b b') {k : Nat} (hk : k < b.size) (hne : k ≠ b.cur) :
    b'.code k = b.code k := h.keep k hk hne

/-- What building may do to the blocks there were, wherever it stands: append. -/
structure Grows (b b' : Builder ι) : Prop where
  size_le : b.size ≤ b'.size
  code : ∀ k < b.size, b.code k <+: b'.code k

theorem Grows.refl (b : Builder ι) : Grows b b := ⟨Nat.le_refl _, fun _ _ => List.prefix_refl _⟩

theorem Grows.trans {b₁ b₂ b₃ : Builder ι} (h₁ : Grows b₁ b₂) (h₂ : Grows b₂ b₃) : Grows b₁ b₃ :=
  ⟨h₁.size_le.trans h₂.size_le, fun k hk => (h₁.code k hk).trans (h₂.code k (hk.trans_le h₁.size_le))⟩

theorem Extends.grows {b b' : Builder ι} (h : Extends b b') : Grows b b' := by
  refine ⟨h.size_le, fun k hk => ?_⟩
  by_cases hc : k = b.cur
  · exact hc ▸ h.grow
  · rw [h.keep k hk hc]

theorem Grows.emit (b : Builder ι) (i : ι) : Grows b (b.emit i) := by
  refine ⟨Nat.le_refl _, fun k _ => ?_⟩
  by_cases hk : k = b.cur <;> simp [hk]

theorem Grows.createBlock (b : Builder ι) (n : String) : Grows b (b.createBlock n) :=
  ⟨Nat.le_succ _, fun k hk => by simp [hk.ne]⟩

theorem Grows.setInsertPoint (b : Builder ι) (k : Nat) : Grows b (b.setInsertPoint k) :=
  ⟨Nat.le_refl _, fun _ _ => List.prefix_refl _⟩

end Builder

/-! ## Running -/

/-- Where control goes after an instruction. -/
inductive Flow
  | next
  | goto (k : Nat)
  | halt
  deriving DecidableEq

/-- Instructions: which are terminators, and what executing one does (`none`: nothing defined). -/
structure Isa (ι S E : Type) where
  isTerm : ι → Bool
  exec : ι → S → Option (Flow × S × List E)
  exec_next : ∀ {i s s' es}, exec i s = some (.next, s', es) → isTerm i = false
  exec_term : ∀ {i s f s' es}, exec i s = some (f, s', es) → f ≠ .next → isTerm i = true

/-- About to execute instruction `pc` of block `blk`, or returned. -/
inductive Config (S : Type)
  | run (blk pc : Nat) (s : S)
  | done (s : S)

variable {S E : Type}

def Config.state : Config S → S
  | .run _ _ s => s
  | .done s => s

/-- The configuration after an instruction of block `blk`. -/
def Flow.config (blk pc : Nat) (s : S) : Flow → Config S
  | .next => .run blk (pc + 1) s
  | .goto k => .run k 0 s
  | .halt => .done s

@[simp] theorem Flow.config_state (blk pc : Nat) (s : S) (f : Flow) : (f.config blk pc s).state = s := by
  cases f <;> rfl

/-- One step, with the instruction executed and what is observed of it. -/
def step (m : Isa ι S E) (code : Nat → List ι) : Config S → Option ((ι × List E) × Config S)
  | .done _ => none
  | .run blk pc s =>
    match (code blk)[pc]? with
    | none => none
    | some i => (m.exec i s).map fun (f, s', es) => ((i, es), f.config blk pc s')

/-- A finite run and its steps. -/
inductive Run (m : Isa ι S E) (code : Nat → List ι) : Config S → List (ι × List E) → Config S → Prop
  | refl {c} : Run m code c [] c
  | step {c l c' ls c''} : step m code c = some (l, c') → Run m code c' ls c'' → Run m code c (l :: ls) c''

/-- What is observed of a run. -/
def observed (ls : List (ι × List E)) : List E := ls.flatMap (·.2)

@[simp] theorem observed_nil : observed ([] : List (ι × List E)) = [] := rfl
@[simp] theorem observed_cons (l : ι × List E) (ls : List (ι × List E)) :
    observed (l :: ls) = l.2 ++ observed ls := rfl
@[simp] theorem observed_append (ls ls' : List (ι × List E)) :
    observed (ls ++ ls') = observed ls ++ observed ls' := by simp [observed]

variable {m : Isa ι S E} {code : Nat → List ι}

theorem Run.trans {c₁ c₂ c₃ : Config S} {ls ls'} (h₁ : Run m code c₁ ls c₂) (h₂ : Run m code c₂ ls' c₃) :
    Run m code c₁ (ls ++ ls') c₃ := by
  induction h₁ with
  | refl => exact h₂
  | step h _ ih => exact .step h (ih h₂)

theorem step_run {blk pc : Nat} {s s' : S} {i : ι} {f : Flow} {es : List E} (hi : (code blk)[pc]? = some i)
    (hx : m.exec i s = some (f, s', es)) :
    step m code (.run blk pc s) = some ((i, es), f.config blk pc s') := by
  simp [step, hi, hx]

theorem Run.one {blk pc : Nat} {s s' : S} {i : ι} {f : Flow} {es : List E} (hi : (code blk)[pc]? = some i)
    (hx : m.exec i s = some (f, s', es)) :
    Run m code (.run blk pc s) [(i, es)] (f.config blk pc s') := .step (step_run hi hx) .refl

/-- What a step is made of. -/
theorem step_inv {blk pc : Nat} {s : S} {l : ι × List E} {c' : Config S}
    (h : Blocks.step m code (.run blk pc s) = some (l, c')) :
    ∃ f s', (code blk)[pc]? = some l.1 ∧ m.exec l.1 s = some (f, s', l.2) ∧ c' = f.config blk pc s' := by
  simp only [Blocks.step] at h
  split at h
  · cases h
  · rename_i i hi
    simp only [Option.map_eq_some_iff, Prod.mk.injEq] at h
    obtain ⟨⟨f, s', es⟩, hx, rfl, rfl⟩ := h
    exact ⟨f, s', hi, hx, rfl⟩

/-- The first `n` steps, or all there are. -/
def steps (m : Isa ι S E) (code : Nat → List ι) : Nat → Config S → List (ι × List E) × Config S
  | 0, c => ([], c)
  | n + 1, c =>
    match step m code c with
    | none => ([], c)
    | some (l, c') => (l :: (steps m code n c').1, (steps m code n c').2)

theorem steps_run (n : Nat) (c : Config S) : Run m code c (steps m code n c).1 (steps m code n c).2 := by
  induction n generalizing c with
  | zero => exact .refl
  | succ n ih =>
    unfold steps
    split
    · exact .refl
    · exact .step ‹_› (ih _)

/-- What every step keeps, with what is remembered of the steps so far, every run keeps. -/
theorem Run.keeps {G : Type} {tick : G → ι × List E → G} {I : Config S → G → Prop}
    (hs : ∀ {c l c' x}, I c x → Blocks.step m code c = some (l, c') → I c' (tick x l)) {c c' : Config S} {ls}
    (h : Run m code c ls c') : ∀ {x}, I c x → I c' (ls.foldl tick x) := by
  induction h with
  | refl => exact fun hi => hi
  | step h _ ih => exact fun hi => ih (hs hi h)

theorem foldl_observed (ls : List (ι × List E)) (es : List E) :
    ls.foldl (fun es l => es ++ l.2) es = es ++ observed ls := by
  induction ls generalizing es with
  | nil => exact (List.append_nil es).symm
  | cons l ls ih => rw [List.foldl_cons, ih, observed_cons, List.append_assoc]

/-- What every step keeps of a configuration and of what was observed on the way there. -/
theorem Run.keeps_observed {I : Config S → List E → Prop}
    (hs : ∀ {c l c' es}, I c es → Blocks.step m code c = some (l, c') → I c' (es ++ l.2)) {c c' : Config S} {ls}
    (h : Run m code c ls c') (hi : I c []) : I c' (observed ls) := by
  have hend : I c' (ls.foldl (fun es l => es ++ l.2) []) := h.keeps hs hi
  rwa [foldl_observed, List.nil_append] at hend

/-- A run stops where any part of its steps does. -/
theorem Run.split {c c'' : Config S} : ∀ {ls ls'}, Run m code c (ls ++ ls') c'' →
    ∃ c', Run m code c ls c' ∧ Run m code c' ls' c''
  | [], _, h => ⟨_, .refl, h⟩
  | _ :: _, _, h => by
    cases h with
    | step hs hr =>
      obtain ⟨c', h₁, h₂⟩ := Run.split hr
      exact ⟨c', .step hs h₁, h₂⟩

/-- A run that returns leaves every block it is in by a terminator of that block. -/
theorem Run.leaves {c c' : Config S} {ls} (h : Run m code c ls c') :
    ∀ {blk pc s s'}, c = .run blk pc s → c' = .done s' → ∃ i ∈ code blk, m.isTerm i = true := by
  induction h with
  | refl => intro blk pc s s' h h'; rw [h] at h'; cases h'
  | step hs _ ih =>
    rintro blk pc s s' rfl rfl
    obtain ⟨f, s₁, hi, hx, rfl⟩ := step_inv hs
    cases f with
    | next => exact ih rfl rfl
    | goto k => exact ⟨_, List.mem_of_getElem? hi, m.exec_term hx (by simp)⟩
    | halt => exact ⟨_, List.mem_of_getElem? hi, m.exec_term hx (by simp)⟩

/-- Steps are a function: a run that returns continues every run from where it began. -/
theorem Run.rest {c c₁ c₂ : Config S} {ls ls'} (h : Run m code c ls c₁) (h' : Run m code c ls' c₂) :
    ∀ {s}, c₂ = .done s → ∃ ls'', Run m code c₁ ls'' (.done s) := by
  induction h generalizing ls' with
  | refl => rintro s rfl; exact ⟨_, h'⟩
  | step hs _ ih =>
    rintro s rfl
    cases h' with
    | refl => cases hs
    | step hs' hr =>
      rw [hs] at hs'
      cases hs'
      exact ih hr rfl

/-- A run that can go no further is no shorter than any other. -/
theorem Run.length_le {c c₁ c₂ : Config S} {ls ls'} (h : Run m code c ls c₁) (hend : Blocks.step m code c₁ = none)
    (h' : Run m code c ls' c₂) : ls'.length ≤ ls.length := by
  induction h generalizing ls' with
  | refl =>
    cases h' with
    | refl => exact Nat.le_refl _
    | step hs => cases hend.symm.trans hs
  | step hs _ ih =>
    cases h' with
    | refl => exact Nat.zero_le _
    | step hs' hr =>
      cases hs.symm.trans hs'
      exact Nat.succ_le_succ (ih hend hr)

/-- Where a run can go no further, and how it gets there, is a function of where it begins. -/
theorem Run.end_unique {c c₁ c₂ : Config S} {ls ls'} (h : Run m code c ls c₁) (hend : Blocks.step m code c₁ = none)
    (h' : Run m code c ls' c₂) (hend' : Blocks.step m code c₂ = none) : ls = ls' ∧ c₁ = c₂ := by
  induction h generalizing ls' with
  | refl =>
    cases h' with
    | refl => exact ⟨rfl, rfl⟩
    | step hs => cases hend.symm.trans hs
  | step hs _ ih =>
    cases h' with
    | refl => cases hend'.symm.trans hs
    | step hs' hr =>
      cases hs.symm.trans hs'
      obtain ⟨rfl, rfl⟩ := ih hend hr
      exact ⟨rfl, rfl⟩

/-- Instructions may be replaced by others that do the same. -/
theorem Run.recode {φ : ι → ι} (hφ : ∀ i, m.exec (φ i) = m.exec i) {code' : Nat → List ι}
    (hcode : ∀ k, (code' k).map φ = (code k).map φ) {c c' : Config S} {ls} (h : Run m code c ls c') :
    ∃ ls', Run m code' c ls' c' ∧ observed ls' = observed ls ∧ ls'.length = ls.length := by
  induction h with
  | refl => exact ⟨[], .refl, rfl, rfl⟩
  | @step c l c₁ ls c' hs _ ih =>
    obtain ⟨ls', hrun, hobs, hlen⟩ := ih
    cases c with
    | done => cases hs
    | run blk pc s =>
      obtain ⟨f, s', hi, hx, rfl⟩ := step_inv hs
      have hi' : ((code' blk).map φ)[pc]? = some (φ l.1) := by rw [hcode, List.getElem?_map, hi]; rfl
      rw [List.getElem?_map, Option.map_eq_some_iff] at hi'
      obtain ⟨i', hi', heq⟩ := hi'
      have hx' : m.exec i' s = some (f, s', l.2) := by rw [← hφ i', heq, hφ]; exact hx
      exact ⟨(i', l.2) :: ls', .step (step_run hi' hx') hrun, by simp [hobs], by simp [hlen]⟩

/-- A run from `c` to `c'`, of which `es` is observed. -/
def Reaches (m : Isa ι S E) (code : Nat → List ι) (c : Config S) (es : List E) (c' : Config S) : Prop :=
  ∃ ls, Run m code c ls c' ∧ observed ls = es

theorem Reaches.refl {c : Config S} : Reaches m code c [] c := ⟨[], .refl, rfl⟩

theorem Reaches.trans {c₁ c₂ c₃ : Config S} {es es' : List E} (h₁ : Reaches m code c₁ es c₂)
    (h₂ : Reaches m code c₂ es' c₃) : Reaches m code c₁ (es ++ es') c₃ := by
  obtain ⟨ls, h₁, rfl⟩ := h₁
  obtain ⟨ls', h₂, rfl⟩ := h₂
  exact ⟨ls ++ ls', h₁.trans h₂, observed_append ls ls'⟩

/-- The end of the insertion block. -/
def Builder.here (b : Builder ι) (s : S) : Config S := .run b.cur (b.code b.cur).length s

/-- The start of a block with no code yet is its end. -/
theorem Builder.here_setInsertPoint {b : Builder ι} {k : Nat} (h : b.code k = []) (s : S) :
    (b.setInsertPoint k).here s = .run k 0 s := by simp [here, h]

/-- What is emitted is executed next. -/
theorem Reaches.emit {b b' : Builder ι} {i : ι} {s s' : S} {f : Flow} {es : List E} (hlt : b.cur < b.size)
    (hb : (b.emit i).Grows b') (hx : m.exec i s = some (f, s', es)) :
    Reaches m b'.code (b.here s) es (f.config b.cur (b.code b.cur).length s') := by
  refine ⟨_, Run.one ?_ hx, by simp⟩
  obtain ⟨rest, hrest⟩ := hb.code b.cur hlt
  simp [← hrest]

theorem Reaches.emit_next {b b' : Builder ι} {i : ι} {s s' : S} {es : List E} (hlt : b.cur < b.size)
    (hb : (b.emit i).Grows b') (hx : m.exec i s = some (.next, s', es)) :
    Reaches m b'.code (b.here s) es ((b.emit i).here s') := by
  simpa [Builder.here, Flow.config] using Reaches.emit hlt hb hx

theorem Reaches.emit_goto {b b' : Builder ι} {i : ι} {s s' : S} {k : Nat} {es : List E} (hlt : b.cur < b.size)
    (hb : (b.emit i).Grows b') (hx : m.exec i s = some (.goto k, s', es)) :
    Reaches m b'.code (b.here s) es (.run k 0 s') := Reaches.emit hlt hb hx

theorem Reaches.emit_halt {b b' : Builder ι} {i : ι} {s s' : S} {es : List E} (hlt : b.cur < b.size)
    (hb : (b.emit i).Grows b') (hx : m.exec i s = some (.halt, s', es)) :
    Reaches m b'.code (b.here s) es (.done s') := Reaches.emit hlt hb hx

/-! ## Terminators -/

/-- No instruction after a terminator. -/
def Sealed (isTerm : ι → Bool) (is : List ι) : Prop := ∀ p i q, is = p ++ i :: q → isTerm i = true → q = []

/-- The last instruction is a terminator. -/
def Terminated (isTerm : ι → Bool) (is : List ι) : Prop := is.getLast?.any isTerm = true

instance (isTerm : ι → Bool) (is : List ι) : Decidable (Terminated isTerm is) :=
  inferInstanceAs (Decidable (_ = true))

variable {isTerm : ι → Bool}

@[simp] theorem terminated_nil : ¬ Terminated isTerm [] := by simp [Terminated]

@[simp] theorem terminated_append_singleton {is : List ι} {i : ι} :
    Terminated isTerm (is ++ [i]) ↔ isTerm i = true := by simp [Terminated]

theorem Sealed.terminated {is : List ι} (h : Sealed isTerm is) {i : ι} (hi : i ∈ is)
    (ht : isTerm i = true) : Terminated isTerm is := by
  obtain ⟨p, q, rfl⟩ := List.append_of_mem hi
  rw [h p i q rfl ht]
  exact terminated_append_singleton.mpr ht

theorem sealed_nil : Sealed isTerm [] := fun p i q h => by simp at h

theorem terminated_append {is js : List ι} (hne : js ≠ []) :
    Terminated isTerm (is ++ js) ↔ Terminated isTerm js := by
  rw [Terminated, Terminated, List.getLast?_append_of_ne_nil _ hne]

theorem sealed_singleton {i : ι} : Sealed isTerm [i] := by
  intro p j q h _
  cases p with
  | nil => exact (List.cons.inj h).2.symm
  | cons x p => simp at h

/-- Appending to a block that is not terminated keeps it sealed. -/
theorem Sealed.append {is js : List ι} (h : Sealed isTerm is) (ho : ¬ Terminated isTerm is)
    (h' : Sealed isTerm js) : Sealed isTerm (is ++ js) := by
  intro p j q hp ht
  rcases List.append_eq_append_iff.mp hp with ⟨a, rfl, ha⟩ | ⟨a, rfl, ha⟩
  · exact h' a j q ha ht
  · cases a with
    | nil => exact h' [] j q ha.symm ht
    | cons x a =>
      obtain ⟨rfl, -⟩ := List.cons.inj ha
      obtain rfl := h p j a rfl ht
      exact absurd (terminated_append_singleton.mpr ht) ho

end Blocks
