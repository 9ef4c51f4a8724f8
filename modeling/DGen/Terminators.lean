/-
Which blocks code generation leaves with a terminator.

No instruction follows a terminator, and a body leaves the builder in a
terminated block exactly when it ends in a jump (`codeGen_sealed`).
`is_last_stmt_br` is also true of a body that ends in an if whose branches
both end in jumps: there the builder stands in the merge block of that if,
and what comes after the body takes it for terminated. Such a body (`endsOpen`) is
the one way a block stays without a terminator (`codeGen_complete`), and there is one
exactly if some body ends in an if/else both of whose branches end in a jump
(`endsOpen_iff`).
-/
import DGen.Codegen
import DGen.Jumps

namespace DGen

open Blocks

variable {σ : Type}

/-! ## How a body ends -/

/-- The last statement is a jump. -/
def endsInJump : Body σ → Bool
  | [] => false
  | s :: rest => if rest.isEmpty then s.isJump else endsInJump rest

/-- `is_last_stmt_br` holds, of an if and not of a jump. -/
def endsOpen (b : Body σ) : Bool := isLastStmtBr b && !endsInJump b

mutual
def Stmt.joined : Stmt σ → Bool
  | .for_ _ _ _ _ _ body | .if_ _ _ _ body => !endsOpen body && Body.joined body
  | .ifElse _ _ _ body elseBody =>
    (!endsOpen body && Body.joined body) && (!endsOpen elseBody && Body.joined elseBody)
  | _ => true

/-- No branch or loop body in here, at any depth, ends open. -/
def Body.joined : Body σ → Bool
  | [] => true
  | s :: rest => s.joined && Body.joined rest
end

theorem endsInJump_isLastStmtBr : ∀ {b : Body σ}, endsInJump b = true → isLastStmtBr b = true
  | [], h => h
  | s :: rest, h => by
    simp only [endsInJump, isLastStmtBr] at h ⊢
    split
    · rw [if_pos ‹_›] at h
      cases s <;> simp_all [Stmt.isJump, Stmt.isBr]
    · rw [if_neg ‹_›] at h
      exact endsInJump_isLastStmtBr h

/-- An if/else both of whose branches end in a jump. -/
def Stmt.jumpsInBoth : Stmt σ → Bool
  | .ifElse _ _ _ body elseBody => endsInJump body && endsInJump elseBody
  | _ => false

/-- The last statement is such an if/else. -/
def endsInJumps : Body σ → Bool
  | [] => false
  | s :: rest => if rest.isEmpty then s.jumpsInBoth else endsInJumps rest

mutual
def Stmt.innerBodies : Stmt σ → List (Body σ)
  | .for_ _ _ _ _ _ body | .if_ _ _ _ body => body :: Body.innerBodies body
  | .ifElse _ _ _ body elseBody => (body :: Body.innerBodies body) ++ (elseBody :: Body.innerBodies elseBody)
  | _ => []

/-- The branches and loop bodies in a body, at any depth. -/
def Body.innerBodies : Body σ → List (Body σ)
  | [] => []
  | s :: rest => s.innerBodies ++ Body.innerBodies rest
end

theorem joined_iff :
    (∀ s : Stmt σ, s.joined = true ↔ ∀ b ∈ s.innerBodies, endsOpen b = false) ∧
    ∀ b : Body σ, Body.joined b = true ↔ ∀ c ∈ Body.innerBodies b, endsOpen c = false := by
  apply Stmt.induct
  case for_ | if_ =>
    intros
    simp_all [Stmt.joined, Stmt.innerBodies]
  case ifElse =>
    intros
    simp_all [Stmt.joined, Stmt.innerBodies, or_imp, forall_and, and_assoc]
  case nil => simp [Body.joined, Body.innerBodies]
  case cons =>
    intro s rest ihs ihr
    rw [Body.joined, Bool.and_eq_true, ihs, ihr, Body.innerBodies, List.forall_mem_append]
  all_goals
    intros
    simp [Stmt.joined, Stmt.innerBodies]

theorem isLastStmtBr_eq {b : Body σ} (h : endsOpen b = false) : isLastStmtBr b = endsInJump b := by
  cases hj : endsInJump b with
  | true => exact endsInJump_isLastStmtBr hj
  | false => simpa [endsOpen, hj] using h

/-- Where no branch ends open, a body does exactly with jumps at the end of both branches. -/
theorem endsOpen_eq {b : Body σ} (h : ∀ c ∈ Body.innerBodies b, endsOpen c = false) : endsOpen b = endsInJumps b := by
  induction b with
  | nil => rfl
  | cons s rest ih =>
    rw [Body.innerBodies, List.forall_mem_append] at h
    cases rest with
    | nil =>
      cases s with
      | ifElse node p c body elseBody =>
        simp only [Stmt.innerBodies, List.forall_mem_append, List.forall_mem_cons] at h
        simp [endsOpen, endsInJumps, isLastStmtBr, endsInJump, Stmt.isBr, Stmt.isJump, Stmt.jumpsInBoth,
          isLastStmtBr_eq h.1.1.1, isLastStmtBr_eq h.1.2.1]
      | _ => rfl
    | cons s' rest => exact ih h.2

/-- **No body ends open** exactly if none ends in an if/else both of whose branches end in a jump. -/
theorem endsOpen_iff :
    (∀ s : Stmt σ, (∀ b ∈ s.innerBodies, endsOpen b = false) ↔ ∀ b ∈ s.innerBodies, endsInJumps b = false) ∧
    ∀ b : Body σ, (∀ c ∈ Body.innerBodies b, endsOpen c = false) ↔ ∀ c ∈ Body.innerBodies b, endsInJumps c = false := by
  -- A branch or loop body, with what is in it.
  have hbody {b : Body σ}
      (ih : (∀ c ∈ Body.innerBodies b, endsOpen c = false) ↔ ∀ c ∈ Body.innerBodies b, endsInJumps c = false) :
      (∀ c ∈ b :: Body.innerBodies b, endsOpen c = false) ↔ ∀ c ∈ b :: Body.innerBodies b, endsInJumps c = false := by
    rw [List.forall_mem_cons, List.forall_mem_cons, ← ih]
    exact and_congr_left fun h => by rw [endsOpen_eq h]
  apply Stmt.induct
  case for_ =>
    intro node p pre c inc b ih
    exact hbody ih
  case if_ =>
    intro node p c b ih
    exact hbody ih
  case ifElse =>
    intro node p c b e ihb ihe
    rw [Stmt.innerBodies, List.forall_mem_append, List.forall_mem_append, hbody ihb, hbody ihe]
  case cons =>
    intro s rest ihs ihr
    rw [Body.innerBodies, List.forall_mem_append, List.forall_mem_append, ihs, ihr]
  all_goals
    intros
    simp [Stmt.innerBodies, Body.innerBodies]

/-! ## Nothing follows a terminator -/

namespace Gen

/-- Every block has at most one terminator, its last instruction. -/
def Sealed (g : Gen) : Prop := ∀ k, Blocks.Sealed Instr.isTerm (g.code k)

/-- The insertion block has no terminator yet. -/
def Open (g : Gen) : Prop := ¬ Terminated Instr.isTerm (g.code g.cur)

/-- Fit for the code of a statement. -/
structure Ready (g : Gen) : Prop where
  isSealed : g.Sealed
  isOpen : g.Open
  cur_lt : g.cur < g.size

theorem Ready.start : start.Ready := ⟨fun _ => sealed_nil, terminated_nil, Nat.one_pos⟩

/-- Appending code that is itself sealed. -/
theorem Sealed.append {g g' : Gen} {is : List Instr} (h : g.Sealed) (ho : is ≠ [] → g.Open)
    (hi : Blocks.Sealed Instr.isTerm is)
    (hc : ∀ k, g'.code k = if k = g.cur then g.code k ++ is else g.code k) : g'.Sealed := by
  intro k
  rw [hc k]
  split
  · rename_i hk
    by_cases hne : is = []
    · simpa [hne] using h k
    · exact (h k).append (hk ▸ ho hne) hi
  · exact h k

theorem Sealed.ready {g : Gen} {k : Nat} (h : g.Sealed) (hlt : k < g.size) (hk : g.code k = []) :
    (g.setInsertPoint k).Ready :=
  ⟨h, by simp [Open, hk], hlt⟩

end Gen

theorem condCode_ne_nil (p : Option (PrecondNode Symbol)) (site : CondSite) (c : Expr Symbol) (t f : Nat) :
    condCode p site c t f ≠ [] := by simp [condCode]

theorem condCode_terminated (p : Option (PrecondNode Symbol)) (site : CondSite) (c : Expr Symbol) (t f : Nat) :
    Terminated Instr.isTerm (condCode p site c t f) := terminated_append_singleton.mpr rfl

theorem asgCode?_sealed (site : AsgSite) (n : Option (AsgNode Symbol)) :
    Blocks.Sealed Instr.isTerm (asgCode? site n) ∧ ¬ Terminated Instr.isTerm (asgCode? site n) := by
  cases n with
  | none => exact ⟨sealed_nil, terminated_nil⟩
  | some n => exact ⟨sealed_singleton, by simp [asgCode?, Terminated, Instr.isTerm]⟩

theorem condCode_sealed (p : Option (PrecondNode Symbol)) (site : CondSite) (c : Expr Symbol) (t f : Nat) :
    Blocks.Sealed Instr.isTerm (condCode p site c t f) := by
  cases p with
  | none => exact sealed_singleton
  | some p => exact sealed_singleton.append (by simp [Terminated, Instr.isTerm]) sealed_singleton

theorem armEndCode_sealed (b : Body Symbol) (m : Nat) : Blocks.Sealed Instr.isTerm (armEndCode b m) := by
  unfold armEndCode
  split
  · exact sealed_nil
  · exact sealed_singleton

theorem loopEndCode_sealed (l : NodeId) (inc : Option (AsgNode Symbol)) (b : Body Symbol) (c : Nat) :
    Blocks.Sealed Instr.isTerm (loopEndCode l inc b c) := by
  unfold loopEndCode
  split
  · exact sealed_nil
  · exact (asgCode?_sealed _ _).1.append (asgCode?_sealed _ _).2 sealed_singleton

/-- The end of an arm is emitted only where the builder stands in an open block. -/
theorem codeGenArmEnd_sealed {b : Body Symbol} {m : Nat} {g : Gen} (h : g.Sealed)
    (ho : g.Open ↔ endsInJump b = false) : (codeGenArmEnd b m g).Sealed := by
  refine h.append (fun hne => ho.mpr (Bool.eq_false_iff.mpr fun hj => hne ?_)) (armEndCode_sealed b m)
    fun k => codeGenArmEnd_code g k b m
  simp [armEndCode, endsInJump_isLastStmtBr hj]

theorem codeGenLoopEnd_sealed {l : NodeId} {inc : Option (AsgNode Symbol)} {b : Body Symbol} {c : Nat} {g : Gen}
    (h : g.Sealed) (ho : g.Open ↔ endsInJump b = false) : (codeGenLoopEnd l inc b c g).Sealed := by
  refine h.append (fun hne => ho.mpr (Bool.eq_false_iff.mpr fun hj => hne ?_)) (loopEndCode_sealed l inc b c)
    fun k => codeGenLoopEnd_code g k l inc b c
  simp [loopEndCode, endsInJump_isLastStmtBr hj]

section Heads
variable {g : Gen} (h : g.Ready)
include h

theorem codeGenAsg?_ready (site : AsgSite) (n : Option (AsgNode Symbol)) : (codeGenAsg? site n g).Ready := by
  refine ⟨h.isSealed.append (fun _ => h.isOpen) (asgCode?_sealed site n).1 (codeGenAsg?_code g · site n), ?_, ?_⟩
  · rw [Gen.Open, codeGenAsg?_cur, codeGenAsg?_code, if_pos rfl]
    by_cases hne : asgCode? site n = []
    · rw [hne, List.append_nil]
      exact h.isOpen
    · rw [terminated_append hne]
      exact (asgCode?_sealed site n).2
  · simpa using h.cur_lt

theorem codeGenForHead_ready (node : ASTNode) (p : Option (PrecondNode Symbol)) (c : Expr Symbol) :
    (codeGenForHead node p c g).Ready := by
  refine ⟨fun k => ?_, ?_, by simp⟩
  · rw [codeGenForHead_code g k h.cur_lt]
    split_ifs with h₁
    · exact (h.isSealed k).append (h₁ ▸ h.isOpen) sealed_singleton
    · exact condCode_sealed _ _ _ _ _
    · exact sealed_nil
    · exact h.isSealed k
  · rw [Gen.Open, codeGenForHead_cur, codeGenForHead_code g _ h.cur_lt]
    have := h.cur_lt
    simp [show g.size + 1 ≠ g.cur by omega]

theorem codeGenIfHead_ready (node : ASTNode) (p : Option (PrecondNode Symbol)) (c : Expr Symbol) :
    (codeGenIfHead node p c g).Ready := by
  refine ⟨fun k => ?_, ?_, by simp⟩
  · rw [codeGenIfHead_code g k h.cur_lt]
    split_ifs with h₁
    · exact (h.isSealed k).append (h₁ ▸ h.isOpen) (condCode_sealed _ _ _ _ _)
    · exact sealed_nil
    · exact h.isSealed k
  · rw [Gen.Open, codeGenIfHead_cur, codeGenIfHead_code g _ h.cur_lt]
    simp [h.cur_lt.ne']

theorem codeGenThen_ready {node : ASTNode} {p : Option (PrecondNode Symbol)} {c : Expr Symbol} {b : Body Symbol}
    (hs : (codeGenBody b (codeGenIfHead node p c g)).Sealed)
    (ho : (codeGenBody b (codeGenIfHead node p c g)).Open ↔ endsInJump b = false) :
    (codeGenThen node p c b g).Ready :=
  Gen.Sealed.ready (codeGenArmEnd_sealed hs ho) (Nat.le_of_succ_le (codeGenThen_size_le node p c b))
    (codeGenThen_else node p c b h.cur_lt)

end Heads

/-- Emitting one instruction. -/
theorem Gen.Ready.emit {g : Gen} (h : g.Ready) (i : Instr) :
    (g.emit i).Sealed ∧ ((g.emit i).Open ↔ i.isTerm = false) := by
  refine ⟨h.isSealed.append (fun _ => h.isOpen) sealed_singleton fun _ => rfl, ?_⟩
  simp [Gen.Open]

/-- **Nothing follows a terminator.** From an open block the code of a
statement or a body seals every block, and ends in an open one exactly when
it does not end in a jump. -/
theorem codeGen_sealed :
    (∀ s : Stmt Symbol, ∀ {g : Gen}, s.JumpsLast → g.Ready →
      (codeGenStmt s g).Sealed ∧ ((codeGenStmt s g).Open ↔ s.isJump = false)) ∧
    ∀ b : Body Symbol, ∀ {g : Gen}, Body.JumpsLast b → g.Ready →
      (codeGenBody b g).Sealed ∧ ((codeGenBody b g).Open ↔ endsInJump b = false) := by
  apply Stmt.induct
  case for_ =>
    intro node p pre c inc b ih g hj h
    rw [codeGenStmt_for]
    have h₀ := codeGenAsg?_ready h (.pre node.id) pre
    generalize codeGenAsg? (.pre node.id) pre g = g₀ at h₀ ⊢
    obtain ⟨hs, ho⟩ := ih hj (codeGenForHead_ready h₀ node p c)
    have hend : (codeGenLoop node p c inc b g₀).Sealed := codeGenLoopEnd_sealed hs ho
    exact ⟨hend, fun _ => rfl, fun _ => (hend.ready (codeGenLoop_size_le node p c b inc)
      (codeGenLoop_merge node p c b h₀.cur_lt inc)).isOpen⟩
  case if_ =>
    intro node p c b ih g hj h
    rw [codeGenStmt_if]
    obtain ⟨hs, ho⟩ := ih hj (codeGenIfHead_ready h node p c)
    have hthen := codeGenThen_ready h hs ho
    have hend := (hthen.emit (.br .merge (some (g.size + 2)))).1
    refine ⟨hend, fun _ => rfl, fun _ => (hend.ready (codeGenThen_size_le node p c b) ?_).isOpen⟩
    simp [codeGenThen_merge node p c b h.cur_lt]
  case ifElse =>
    intro node p c b e ihb ihe g hj h
    rw [codeGenStmt_ifElse]
    obtain ⟨hs, ho⟩ := ihb hj.1 (codeGenIfHead_ready h node p c)
    have hthen := codeGenThen_ready h hs ho
    obtain ⟨hs', ho'⟩ := ihe hj.2 hthen
    have hend : (codeGenElse e (g.size + 2) (codeGenThen node p c b g)).Sealed := codeGenArmEnd_sealed hs' ho'
    have hsize := codeGenThen_size_le node p c b (g := g)
    refine ⟨hend, fun _ => rfl, fun _ => (hend.ready ?_ ?_).isOpen⟩
    · have := (codeGen_extends.2 e _ hthen.cur_lt).size_le
      simp only [codeGenElse, codeGenArmEnd_size]
      omega
    · rw [codeGenElse_code e hthen.cur_lt _ (by omega) (by simp)]
      exact codeGenThen_merge node p c b h.cur_lt
  case ret =>
    intro n g _ h
    have h₁ := h.emit (.gatherRes n)
    have h₂ : (g.emit (.gatherRes n)).Ready := ⟨h₁.1, h₁.2.mpr rfl, h.cur_lt⟩
    exact h₂.emit .retVoid
  case nil => intro g _ h; exact ⟨h.isSealed, fun _ => rfl, fun _ => h.isOpen⟩
  case cons =>
    intro s rest ihs ihr g hj h
    obtain ⟨hs, ho⟩ := ihs hj.2.1 h
    cases hjump : s.isJump with
    | true =>
      obtain rfl := hj.1 hjump
      exact ⟨hs, ho.trans (by simp [endsInJump])⟩
    | false =>
      obtain ⟨hs', ho'⟩ := ihr hj.2.2 ⟨hs, ho.mpr hjump, (codeGen_extends.1 s g h.cur_lt).cur_lt⟩
      refine ⟨hs', ho'.trans ?_⟩
      cases rest <;> simp [endsInJump, hjump]
  all_goals
    intros
    exact Gen.Ready.emit ‹_› _

/-! ## Which blocks stay open -/

/-- The blocks emission from `g` to `g'` worked in or added. -/
def Gen.Added (g g' : Gen) (k : Nat) : Prop := k = g.cur ∨ g.size ≤ k ∧ k < g'.size

/-- Each of them is terminated, but for the one the builder is left in. -/
def Gen.Complete (g g' : Gen) : Prop :=
  ∀ k, g.Added g' k → k ≠ g'.cur → Terminated Instr.isTerm (g'.code k)

theorem Gen.Complete.trans_iff {g₁ g₂ g₃ : Gen} (h₁ : g₁.Extends g₂) (h₂ : g₂.Extends g₃)
    (hlt : g₁.cur < g₁.size) : g₁.Complete g₃ ↔ g₁.Complete g₂ ∧ g₂.Complete g₃ := by
  have hs₁ := h₁.size_le
  have hs₂ := h₂.size_le
  have hc₁ := h₁.cur
  have hc₂ := h₂.cur
  have hlt₂ := h₁.cur_lt
  constructor
  · refine fun h => ⟨fun k hk hne => ?_, fun k hk hne => h k ?_ hne⟩
    · have hks : k < g₂.size := by rcases hk with hk | hk <;> omega
      rw [← h₂.code_eq hks hne]
      refine h k ?_ ?_
      · rcases hk with hk | hk
        · exact .inl hk
        · exact .inr ⟨hk.1, by omega⟩
      · omega
    · rcases hk with rfl | hk
      · rcases hc₁ with hc | hc
        · exact .inl hc
        · exact .inr ⟨hc, by omega⟩
      · exact .inr ⟨by omega, hk.2⟩
  · rintro ⟨h, h'⟩ k hk hne
    by_cases hin : g₂.Added g₃ k
    · exact h' k hin hne
    · have hks : k < g₂.size ∧ k ≠ g₂.cur := by
        simp only [Added, not_or, not_and] at hin hk
        omega
      rw [h₂.code_eq hks.1 hks.2]
      refine h k ?_ hks.2
      rcases hk with hk | hk
      · exact .inl hk
      · exact .inr ⟨hk.1, hks.1⟩

/-- A body and its end are complete when the end terminates the body's last block. -/
theorem Gen.Complete.closed_iff {g g₂ g₃ : Gen} {is : List Instr} (h : g.Extends g₂)
    (hc : ∀ k, g₃.code k = if k = g₂.cur then g₂.code k ++ is else g₂.code k) :
    (∀ k, g.Added g₂ k → Terminated Instr.isTerm (g₃.code k)) ↔
      Terminated Instr.isTerm (g₂.code g₂.cur ++ is) ∧ g.Complete g₂ := by
  have hcur : g.Added g₂ g₂.cur := by
    rcases h.cur with hc | hc
    · exact .inl hc
    · exact .inr ⟨hc, h.cur_lt⟩
  constructor
  · refine fun hall => ⟨?_, fun k hk hne => ?_⟩
    · simpa [hc] using hall _ hcur
    · simpa [hc, hne] using hall k hk
  · rintro ⟨hend, hrest⟩ k hk
    by_cases hne : k = g₂.cur
    · simpa [hc, hne] using hend
    · simpa [hc, hne] using hrest k hk hne

/-- The end of an arm or a loop's body leaves its block open exactly for a body that ends open. -/
theorem terminated_end_iff {b : Body Symbol} {g : Gen} {is : List Instr} (ho : g.Open ↔ endsInJump b = false)
    (hnil : isLastStmtBr b = true → is = []) (hterm : isLastStmtBr b = false → Terminated Instr.isTerm is) :
    Terminated Instr.isTerm (g.code g.cur ++ is) ↔ endsOpen b = false := by
  cases hb : isLastStmtBr b with
  | true =>
    rw [hnil hb, List.append_nil, endsOpen, hb, Bool.true_and, Bool.not_eq_false', ← not_iff_not, Bool.not_eq_true]
    exact ho
  | false =>
    have hne : is ≠ [] := fun h => terminated_nil (h ▸ hterm hb)
    rw [terminated_append hne, endsOpen, hb]
    simp [hterm hb]

theorem armEnd_terminated_iff {b : Body Symbol} {g : Gen} (ho : g.Open ↔ endsInJump b = false) (m : Nat) :
    Terminated Instr.isTerm (g.code g.cur ++ armEndCode b m) ↔ endsOpen b = false :=
  terminated_end_iff ho (fun h => by simp [armEndCode, h])
    fun h => by simp [armEndCode, h, Terminated, Instr.isTerm]

theorem loopEnd_terminated_iff {b : Body Symbol} {g : Gen} (ho : g.Open ↔ endsInJump b = false) (l : NodeId)
    (inc : Option (AsgNode Symbol)) (m : Nat) :
    Terminated Instr.isTerm (g.code g.cur ++ loopEndCode l inc b m) ↔ endsOpen b = false := by
  refine terminated_end_iff ho (fun h => by simp [loopEndCode, h]) fun h => ?_
  rw [loopEndCode, if_neg (by simp [h])]
  exact terminated_append_singleton.mpr rfl

section Arms
variable {g : Gen} (hlt : g.cur < g.size) (node : ASTNode) (p : Option (PrecondNode Symbol)) (c : Expr Symbol)
  (b : Body Symbol)
include hlt

theorem codeGenIfHead_terminated : Terminated Instr.isTerm ((codeGenIfHead node p c g).code g.cur) := by
  rw [codeGenIfHead_code g _ hlt, if_pos rfl, terminated_append (condCode_ne_nil _ _ _ _ _)]
  exact condCode_terminated _ _ _ _ _

/-- The blocks of a loop are complete when those of its body are. -/
theorem codeGenLoop_complete (inc : Option (AsgNode Symbol)) :
    g.Complete ((codeGenLoop node p c inc b g).setInsertPoint (g.size + 2)) ↔
      ∀ k, (codeGenForHead node p c g).Added (codeGenBody b (codeGenForHead node p c g)) k →
        Terminated Instr.isTerm ((codeGenLoop node p c inc b g).code k) := by
  have hsize : (codeGenLoop node p c inc b g).size = (codeGenBody b (codeGenForHead node p c g)).size := by
    simp [codeGenLoop]
  have hle := hsize ▸ codeGenLoop_size_le node p c b inc (g := g)
  simp only [Gen.Complete, Gen.Added, Gen.setInsertPoint_toBuilder, Blocks.Builder.setInsertPoint_size,
    Blocks.Builder.setInsertPoint_cur, Blocks.Builder.setInsertPoint_code, hsize, codeGenForHead_cur,
    codeGenForHead_size]
  constructor
  · exact fun h k hk => h k (by omega) (by omega)
  · intro h k hk hne
    by_cases hk₁ : k = g.cur ∨ k = g.size
    · rw [codeGenLoop_code node p c b inc (by omega) (by omega), codeGenForHead_code g k hlt]
      rcases hk₁ with rfl | rfl
      · rw [if_pos rfl]
        exact terminated_append_singleton.mpr rfl
      · rw [if_neg hlt.ne', if_pos rfl]
        exact condCode_terminated _ _ _ _ _
    · exact h k (by omega)

/-- The blocks of an if are complete when those of its two arms are. -/
theorem codeGenElse_complete {g₃ : Gen} {m : Nat} (hsize : (codeGenThen node p c b g).size ≤ g₃.size)
    (hcode : ∀ k < (codeGenThen node p c b g).size, k ≠ g.size + 1 →
      g₃.code k = (codeGenThen node p c b g).code k) (hm : m = g.size + 2) :
    g.Complete (g₃.setInsertPoint m) ↔
      (∀ k, (codeGenIfHead node p c g).Added (codeGenBody b (codeGenIfHead node p c g)) k →
        Terminated Instr.isTerm ((codeGenThen node p c b g).code k)) ∧
      ∀ k, (codeGenThen node p c b g).Added g₃ k → Terminated Instr.isTerm (g₃.code k) := by
  have hle := codeGenThen_size_le node p c b (g := g)
  have hthen : (codeGenThen node p c b g).size = (codeGenBody b (codeGenIfHead node p c g)).size := by
    simp [codeGenThen]
  simp only [Gen.Complete, Gen.Added, Gen.setInsertPoint_toBuilder, Blocks.Builder.setInsertPoint_size,
    Blocks.Builder.setInsertPoint_cur, Blocks.Builder.setInsertPoint_code, codeGenIfHead_cur,
    codeGenIfHead_size, codeGenThen_cur, ← hthen]
  constructor
  · intro h
    refine ⟨fun k hk => ?_, fun k hk => h k (by omega) (by omega)⟩
    rw [← hcode k (by omega) (by omega)]
    exact h k (by omega) (by omega)
  · rintro ⟨h, h'⟩ k hk hne
    by_cases hk' : k = g.size + 1 ∨ (codeGenThen node p c b g).size ≤ k
    · exact h' k (by omega)
    · rw [hcode k (by omega) (by omega)]
      by_cases hk₁ : k = g.cur
      · rw [codeGenThen_code node p c b (by omega) (by omega), hk₁]
        exact codeGenIfHead_terminated hlt node p c
      · exact h k (by omega)

end Arms

/-- **What is left open.** The blocks of a body get their terminators exactly
when no branch or loop body in it ends open. -/
theorem codeGen_complete :
    (∀ s : Stmt Symbol, ∀ {g : Gen}, s.JumpsLast → g.Ready → (g.Complete (codeGenStmt s g) ↔ s.joined = true)) ∧
    ∀ b : Body Symbol, ∀ {g : Gen}, Body.JumpsLast b → g.Ready →
      (g.Complete (codeGenBody b g) ↔ Body.joined b = true) := by
  apply Stmt.induct
  case for_ =>
    intro node p pre c inc b ih g hj h
    rw [codeGenStmt_for]
    have h₀ := codeGenAsg?_ready h (.pre node.id) pre
    have hadd : g.Complete ((codeGenLoop node p c inc b (codeGenAsg? (.pre node.id) pre g)).setInsertPoint
        ((codeGenAsg? (.pre node.id) pre g).size + 2)) ↔ (codeGenAsg? (.pre node.id) pre g).Complete
        ((codeGenLoop node p c inc b (codeGenAsg? (.pre node.id) pre g)).setInsertPoint
        ((codeGenAsg? (.pre node.id) pre g).size + 2)) := by simp [Gen.Complete, Gen.Added]
    rw [hadd]
    generalize codeGenAsg? (.pre node.id) pre g = g₀ at h₀ ⊢
    have hhead := codeGenForHead_ready h₀ node p c
    rw [codeGenLoop_complete h₀.cur_lt node p c b inc]
    refine (Gen.Complete.closed_iff (codeGen_extends.2 b _ hhead.cur_lt)
      (codeGenLoopEnd_code _ · node.id inc b g₀.size)).trans ?_
    rw [loopEnd_terminated_iff (codeGen_sealed.2 b hj hhead).2, ih hj hhead]
    simp [Stmt.joined]
  case if_ =>
    intro node p c b ih g hj h
    have hhead := codeGenIfHead_ready h node p c
    have hbody := codeGen_sealed.2 b hj hhead
    have helse : ∀ k, (codeGenThen node p c b g).Added
        ((codeGenThen node p c b g).emit (.br .merge (some (g.size + 2)))) k →
        Terminated Instr.isTerm (((codeGenThen node p c b g).emit (.br .merge (some (g.size + 2)))).code k) := by
      intro k hk
      obtain rfl : k = g.size + 1 := by simp [Gen.Added] at hk; omega
      simp [Instr.isTerm]
    rw [codeGenStmt_if]
    refine (codeGenElse_complete h.cur_lt node p c b (by simp) (fun k _ hne => ?_) rfl).trans ?_
    · simp [hne]
    refine (and_iff_left helse).trans ?_
    refine (Gen.Complete.closed_iff (codeGen_extends.2 b _ hhead.cur_lt) (codeGenArmEnd_code _ · b (g.size + 2))).trans ?_
    rw [armEnd_terminated_iff hbody.2, ih hj hhead]
    simp [Stmt.joined]
  case ifElse =>
    intro node p c b e ihb ihe g hj h
    have hhead := codeGenIfHead_ready h node p c
    have hbody := codeGen_sealed.2 b hj.1 hhead
    have hthen := codeGenThen_ready h hbody.1 hbody.2
    have hext := codeGen_extends.2 e _ hthen.cur_lt
    rw [codeGenStmt_ifElse, codeGenElse_complete h.cur_lt node p c b
      (by simpa [codeGenElse] using hext.size_le)
      (fun k hk hne => codeGenElse_code e hthen.cur_lt _ hk hne) rfl, Stmt.joined, Bool.and_eq_true]
    refine and_congr ?_ ?_
    · refine (Gen.Complete.closed_iff (codeGen_extends.2 b _ hhead.cur_lt)
        (codeGenArmEnd_code _ · b (g.size + 2))).trans ?_
      rw [armEnd_terminated_iff hbody.2, ihb hj.1 hhead]
      simp
    · have hadd : ∀ k, (codeGenThen node p c b g).Added (codeGenElse e (g.size + 2) (codeGenThen node p c b g)) k ↔
          (codeGenThen node p c b g).Added (codeGenBody e (codeGenThen node p c b g)) k := by
        simp [Gen.Added, codeGenElse]
      simp only [hadd]
      refine (Gen.Complete.closed_iff hext (codeGenArmEnd_code _ · e (g.size + 2))).trans ?_
      rw [armEnd_terminated_iff (codeGen_sealed.2 e hj.2 hthen).2, ihe hj.2 hthen]
      simp
  case nil =>
    intro g _ h
    simp only [codeGenBody, Body.joined, iff_true]
    intro k hk hne
    rcases hk with hk | hk <;> omega
  case cons =>
    intro s rest ihs ihr g hj h
    obtain ⟨hs, ho⟩ := codeGen_sealed.1 s hj.2.1 h
    have hext := codeGen_extends.1 s g h.cur_lt
    cases hjump : s.isJump with
    | true =>
      obtain rfl := hj.1 hjump
      simpa [codeGenBody, Body.joined] using ihs hj.2.1 h
    | false =>
      have hready : (codeGenStmt s g).Ready := ⟨hs, ho.mpr hjump, hext.cur_lt⟩
      rw [codeGenBody, Gen.Complete.trans_iff hext (codeGen_extends.2 rest _ hext.cur_lt) h.cur_lt,
        ihs hj.2.1 h, ihr hj.2.2 hready, Body.joined, Bool.and_eq_true]
  all_goals
    intros
    simp only [codeGenStmt, Stmt.joined, iff_true]
    intro k hk hne
    rcases hk with hk | hk
    · exact absurd hk hne
    · simp at hk
      omega

/-! ## Functions that return on every path -/

mutual
def Stmt.definitelyReturns : Stmt σ → Bool
  | .ret _ => true
  | .ifElse _ _ _ body elseBody => Body.definitelyReturns body && Body.definitelyReturns elseBody
  | _ => false

/-- The body ends in a return, or in an if whose branches both definitely return. -/
def Body.definitelyReturns : Body σ → Bool
  | [] => false
  | s :: rest => if rest.isEmpty then s.definitelyReturns else Body.definitelyReturns rest
end

theorem Body.definitelyReturns_cons {s : Stmt σ} {rest : Body σ} :
    Body.definitelyReturns (s :: rest) = true ↔
      (rest = [] ∧ s.definitelyReturns = true) ∨ (rest ≠ [] ∧ Body.definitelyReturns rest = true) := by
  cases rest <;> simp [Body.definitelyReturns]

theorem Body.definitelyReturns_ne_nil {b : Body σ} (h : Body.definitelyReturns b = true) : b ≠ [] := by
  rintro rfl
  cases h

theorem definitelyReturns_isLastStmtBr :
    (∀ s : Stmt σ, s.definitelyReturns = true → s.isBr = true) ∧
    ∀ b : Body σ, Body.definitelyReturns b = true → isLastStmtBr b = true := by
  apply Stmt.induct
  case ret => intros; rfl
  case ifElse =>
    intro node p c b e ihb ihe h
    simp only [Stmt.definitelyReturns, Bool.and_eq_true] at h
    simp [Stmt.isBr, ihb h.1, ihe h.2]
  case cons =>
    intro s rest ihs ihr h
    rcases Body.definitelyReturns_cons.mp h with ⟨rfl, hs⟩ | ⟨hne, hr⟩
    · simpa [isLastStmtBr] using ihs hs
    · simpa [isLastStmtBr, hne] using ihr hr
  all_goals
    intros
    rename_i h
    cases h

/-- Outside a loop `connect_loops` leaves the ends of bodies as they are. -/
theorem connectLoops_definitelyReturns :
    (∀ s : Stmt σ, ∀ {s'}, connectLoopsVisitStmt none s = .ok s' → s.definitelyReturns = true →
      s'.definitelyReturns = true) ∧
    ∀ b : Body σ, ∀ {b'}, connectLoopsVisitBody none b = .ok b' → Body.definitelyReturns b = true →
      Body.definitelyReturns b' = true := by
  apply Stmt.induct
  case ret =>
    intro n s' h _
    simp only [connectLoopsVisitStmt, Except.pure_ok_iff] at h
    subst h
    rfl
  case ifElse =>
    intro node p c b e ihb ihe s' h hr
    simp only [connectLoopsVisitStmt, Except.bind_ok_iff, Except.pure_ok_iff] at h
    obtain ⟨b', hb, e', he, rfl⟩ := h
    simp only [Stmt.definitelyReturns, Bool.and_eq_true] at hr ⊢
    exact ⟨ihb hb hr.1, ihe he hr.2⟩
  case cons =>
    intro s rest ihs ihr b' h hd
    cases s
    case cont | brk => simp [connectLoopsVisitBody, buildError] at h
    all_goals
      simp only [connectLoopsVisitBody, Except.bind_ok_iff, Except.pure_ok_iff] at h
      obtain ⟨s', hs, rest', hr, rfl⟩ := h
      rcases Body.definitelyReturns_cons.mp hd with ⟨rfl, hd'⟩ | ⟨hne, hd'⟩
      · simp only [connectLoopsVisitBody, Except.pure_ok_iff] at hr
        subst hr
        exact Body.definitelyReturns_cons.mpr (.inl ⟨rfl, ihs hs hd'⟩)
      · have := ihr hr hd'
        exact Body.definitelyReturns_cons.mpr (.inr ⟨Body.definitelyReturns_ne_nil this, this⟩)
  all_goals
    intros
    rename_i h
    cases h

theorem typeVisitor_definitelyReturns :
    (∀ s : Stmt Unit, ∀ {st r}, typeVisitorStmt st s = .ok r → s.definitelyReturns = true →
      r.1.definitelyReturns = true) ∧
    ∀ b : Body Unit, ∀ {st r}, typeVisitorBody st b = .ok r → Body.definitelyReturns b = true →
      Body.definitelyReturns r.1 = true := by
  apply Stmt.induct
  case ret =>
    intro n st r h _
    simp only [typeVisitorStmt, Except.bind_ok_iff, Except.pure_ok_iff] at h
    obtain ⟨_, -, rfl⟩ := h
    rfl
  case ifElse =>
    intro node p c b e ihb ihe st r h hr
    simp only [typeVisitorStmt, Except.bind_ok_iff, Except.pure_ok_iff] at h
    obtain ⟨p', -, c', -, ⟨b', st'⟩, hb, ⟨e', st''⟩, he, rfl⟩ := h
    simp only [Stmt.definitelyReturns, Bool.and_eq_true] at hr ⊢
    exact ⟨ihb hb hr.1, ihe he hr.2⟩
  case cons =>
    intro s rest ihs ihr st r h hd
    simp only [typeVisitorBody, Except.bind_ok_iff, Except.pure_ok_iff] at h
    obtain ⟨⟨s', st'⟩, hs, ⟨rest', st''⟩, hr, rfl⟩ := h
    rcases Body.definitelyReturns_cons.mp hd with ⟨rfl, hd'⟩ | ⟨hne, hd'⟩
    · simp only [typeVisitorBody, Except.pure_ok_iff, Prod.mk.injEq] at hr
      exact Body.definitelyReturns_cons.mpr (.inl ⟨hr.1.symm, ihs hs hd'⟩)
    · have := ihr hr hd'
      exact Body.definitelyReturns_cons.mpr (.inr ⟨Body.definitelyReturns_ne_nil this, this⟩)
  all_goals
    intros
    rename_i h
    cases h

/-- Outside a loop the elimination cuts only at a return. -/
theorem eliminate_definitelyReturns :
    (∀ s : Stmt σ, (eliminateUnreachableCodeVisitStmt s).Connected none → s.definitelyReturns = true →
      (eliminateUnreachableCodeVisitStmt s).definitelyReturns = true) ∧
    ∀ b : Body σ, Body.Connected none (eliminateUnreachableCodeVisitBody b) → Body.definitelyReturns b = true →
      Body.definitelyReturns (eliminateUnreachableCodeVisitBody b) = true := by
  apply Stmt.induct
  case ret => intros; rfl
  case ifElse =>
    intro node p c b e ihb ihe hc hr
    simp only [eliminateUnreachableCodeVisitStmt, Stmt.definitelyReturns, Bool.and_eq_true] at hr ⊢
    exact ⟨ihb hc.1 hr.1, ihe hc.2 hr.2⟩
  case cons =>
    intro s rest ihs ihr hc hd
    simp only [eliminateUnreachableCodeVisitBody] at hc ⊢
    cases hj : s.isJump with
    | true =>
      simp only [hj, if_true] at hc ⊢
      cases s with
      | ret n => rfl
      | cont node l | brk node l =>
        have := hc.1
        simp only [Stmt.Connected] at this
        simp [this.2] at this
      | _ => simp [Stmt.isJump] at hj
    | false =>
      simp only [hj, Bool.false_eq_true, if_false] at hc ⊢
      rcases Body.definitelyReturns_cons.mp hd with ⟨rfl, hd'⟩ | ⟨hne, hd'⟩
      · exact Body.definitelyReturns_cons.mpr (.inl ⟨rfl, ihs hc.1 hd'⟩)
      · have := ihr hc.2 hd'
        exact Body.definitelyReturns_cons.mpr (.inr ⟨Body.definitelyReturns_ne_nil this, this⟩)
  all_goals
    intros
    rename_i h
    cases h

theorem FunctionNode.accept_definitelyReturns {f : FunctionNode Unit} {g : FunctionNode Symbol}
    {inputs : List Symbol} (h : f.accept = .ok (g, inputs)) (hd : Body.definitelyReturns f.body = true) :
    Body.definitelyReturns g.body = true := by
  have hc := (accept_jumps h).2
  obtain ⟨f₁, f₂, h₁, h₂, -, rfl⟩ := accept_ok h
  obtain ⟨⟨st, hb⟩, -⟩ := typeAst_ok h₂
  exact eliminate_definitelyReturns.2 _ hc
    (typeVisitor_definitelyReturns.2 _ hb (connectLoops_definitelyReturns.2 _ (connectLoops_ok h₁).1 hd))

/-- **Every block is complete** exactly in the functions none of whose
bodies, their own included, ends in an if/else both of whose branches end in a jump. -/
theorem codeGen_terminated_iff {f : FunctionNode Unit} {g : FunctionNode Symbol} {inputs : List Symbol}
    (h : f.accept = .ok (g, inputs)) (hd : Body.definitelyReturns f.body = true) :
    (∀ k < (codeGen g).size, Terminated Instr.isTerm ((codeGen g).code k)) ↔
      ∀ b ∈ g.body :: Body.innerBodies g.body, endsInJumps b = false := by
  obtain ⟨hj, -⟩ := FunctionNode.accept_jumps h
  have hbr := definitelyReturns_isLastStmtBr.2 _ (FunctionNode.accept_definitelyReturns h hd)
  have ho := (codeGen_sealed.2 g.body hj Gen.Ready.start).2
  have hend : Terminated Instr.isTerm ((codeGen g).code (codeGen g).cur) ↔ endsOpen g.body = false := by
    rw [endsOpen, hbr, Bool.true_and, Bool.not_eq_false', ← not_iff_not, Bool.not_eq_true]
    exact ho
  have hext := codeGen_extends.2 g.body Gen.start Nat.one_pos
  have hbodies : (∀ b ∈ g.body :: Body.innerBodies g.body, endsInJumps b = false) ↔
      endsOpen g.body = false ∧ Body.joined g.body = true := by
    rw [List.forall_mem_cons, ← endsOpen_iff.2, ← joined_iff.2]
    exact and_congr_left fun hjoined => by rw [endsOpen_eq (joined_iff.2 _ |>.mp hjoined)]
  rw [hbodies, ← hend, ← codeGen_complete.2 g.body hj Gen.Ready.start]
  constructor
  · exact fun hall => ⟨hall _ hext.cur_lt, fun k hk _ => hall k (by rcases hk with rfl | hk; exacts [hext.size_le, hk.2])⟩
  · rintro ⟨hcur, hrest⟩ k hk
    by_cases hne : k = (codeGen g).cur
    · rwa [hne]
    · exact hrest k (by rcases Nat.eq_zero_or_pos k with h0 | h0; exacts [.inl h0, .inr ⟨h0, hk⟩]) hne

/-! ### Samples -/

namespace Sample

/-- The `i`-th node of a sample tree. -/
def node (i : NodeId) : ASTNode := ⟨i, ⟨1, 0⟩⟩

def ident (i : NodeId) (name : String) : Expr Unit := .ident ⟨node i, name, ()⟩

def var (i : NodeId) (name : String) : LValue Unit := .ident ⟨node i, name, ()⟩

def num (i : NodeId) (n : BitVec 32) : Expr Unit := .number (node i) n

def ret (i : NodeId) (e : Expr Unit) : Stmt Unit := .ret ⟨node i, e⟩

def param (i : NodeId) (name : String) (type : DeclTy) : DefNode Unit := ⟨node i, name, type, none, ()⟩

/-- `int f(int n) { if n < 0 { return 1 } return 2 }`. -/
def returnsAfterIf : FunctionNode Unit where
  node := node 0
  retType := ⟨.int, 0⟩
  name := "f"
  args := [param 1 "n" ⟨.int, 0⟩]
  body := [.if_ (node 2) none (.binOp (node 3) .lt (ident 4 "n") (num 5 0)) [ret 6 (num 7 1)], ret 8 (num 9 2)]
  distinct := by decide

/-- `int f(int n) { if n < 0 { return 1 } else { return 2 } }`. -/
def returnsInArms : FunctionNode Unit where
  node := node 0
  retType := ⟨.int, 0⟩
  name := "f"
  args := [param 1 "n" ⟨.int, 0⟩]
  body := [.ifElse (node 2) none (.binOp (node 3) .lt (ident 4 "n") (num 5 0)) [ret 6 (num 7 1)]
    [ret 8 (num 9 2)]]
  distinct := by decide

end Sample

theorem codeGen_terminated_iff_returnsAfterIf : ∃ g inputs, Sample.returnsAfterIf.accept = .ok (g, inputs) ∧
    ((∀ k < (codeGen g).size, Terminated Instr.isTerm ((codeGen g).code k)) ↔
      ∀ b ∈ g.body :: Body.innerBodies g.body, endsInJumps b = false) :=
  ⟨_, _, rfl, codeGen_terminated_iff (f := Sample.returnsAfterIf) rfl (by decide)⟩

/-- The merge block of the if has no terminator. -/
theorem returnsInArms_open : ¬ ∀ (f : FunctionNode Unit) (g : FunctionNode Symbol) (inputs : List Symbol),
    f.accept = .ok (g, inputs) → Body.definitelyReturns f.body = true →
      ∀ k < (codeGen g).size, Terminated Instr.isTerm ((codeGen g).code k) :=
  fun h => absurd (h Sample.returnsInArms _ _ rfl (by decide) 3 (by decide)) (by decide)

end DGen
