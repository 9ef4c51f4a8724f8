/-
Code generation for statements (`CodegenVisitor.cpp`): the blocks of
`d_gen_func`.

The instructions here are one for each store, call or branch a statement's
`code_gen` emits, with the tree its operands are generated from:
`DGen.Llvm` generates those. A branch and an assignment also carry which
`code_gen` emitted them (`BrSite`, `AsgSite`, `CondSite`), which nothing
reads when the code runs.
-/
import DGen.Semantics
import DGen.Lib.Blocks

namespace DGen

/-- The statement an assignment was emitted for: its own, or a loop's. -/
inductive AsgSite
  | stmt
  | pre (loop : NodeId)
  | inc (loop : NodeId)
  deriving DecidableEq, Repr

inductive CondSite
  | ofIf (node : NodeId)
  | ofLoop (loop : NodeId)
  deriving DecidableEq, Repr

/-- What emitted an unconditional branch: the end of an arm, the entry of a
loop, the end of its body, or a jump bound to it. -/
inductive BrSite
  | merge
  | enter (loop : NodeId)
  | back (loop : NodeId)
  | cont (loop : Option NodeId)
  | brk (loop : Option NodeId)
  deriving DecidableEq, Repr

/-- `def_` is the alloca and the initialiser's store, `z3Gen` the calls of
`prepare_eval_ctx`, `gatherRes` a return's store and call. A branch to
`none` is one through a pointer that was never set. -/
inductive Instr
  | def_ (n : DefNode Symbol)
  | asg (site : AsgSite) (n : AsgNode Symbol)
  | z3Gen (cond : Expr Symbol) (precond : PrecondNode Symbol)
  | condBr (site : CondSite) (cond : Expr Symbol) (ifTrue ifFalse : Nat)
  | br (site : BrSite) (dest : Option Nat)
  | gatherRes (n : ReturnNode Symbol)
  | retVoid

def Instr.isTerm : Instr → Bool
  | .condBr _ _ _ _ | .br _ _ | .retVoid => true
  | _ => false

/-- The function under construction and the fields `loop_cond_bb` and
`merge_bb` of the loops met so far. -/
structure Gen extends Blocks.Builder Instr where
  loops : NodeId → Option (Nat × Nat)

namespace Gen

/-- `d_gen_func` as the constructor of `CodegenVisitor` makes it. -/
def start : Gen := { Blocks.Builder.start "EntryBlock" with loops := fun _ => none }

def emit (i : Instr) (g : Gen) : Gen := { g with toBuilder := g.toBuilder.emit i }

def createBlock (n : String) (g : Gen) : Gen := { g with toBuilder := g.toBuilder.createBlock n }

def setInsertPoint (k : Nat) (g : Gen) : Gen := { g with toBuilder := g.toBuilder.setInsertPoint k }

/-- `node->loop_cond_bb = ...; node->merge_bb = ...`. -/
def setLoop (loop : NodeId) (condBb mergeBb : Nat) (g : Gen) : Gen :=
  { g with loops := fun l => if l = loop then some (condBb, mergeBb) else g.loops l }

@[simp] theorem emit_toBuilder (g : Gen) (i : Instr) : (g.emit i).toBuilder = g.toBuilder.emit i := rfl
@[simp] theorem emit_loops (g : Gen) (i : Instr) : (g.emit i).loops = g.loops := rfl
@[simp] theorem createBlock_toBuilder (g : Gen) (n : String) :
    (g.createBlock n).toBuilder = g.toBuilder.createBlock n := rfl
@[simp] theorem createBlock_loops (g : Gen) (n : String) : (g.createBlock n).loops = g.loops := rfl
@[simp] theorem setInsertPoint_toBuilder (g : Gen) (k : Nat) :
    (g.setInsertPoint k).toBuilder = g.toBuilder.setInsertPoint k := rfl
@[simp] theorem setInsertPoint_loops (g : Gen) (k : Nat) : (g.setInsertPoint k).loops = g.loops := rfl
@[simp] theorem setLoop_toBuilder (g : Gen) (l : NodeId) (c m : Nat) :
    (g.setLoop l c m).toBuilder = g.toBuilder := rfl
@[simp] theorem setLoop_loops (g : Gen) (l l' : NodeId) (c m : Nat) :
    (g.setLoop l c m).loops l' = if l' = l then some (c, m) else g.loops l' := rfl

end Gen

mutual
/-- The last statement of a body, for `is_last_stmt_br`. -/
def Stmt.isBr {σ : Type} : Stmt σ → Bool
  | .cont _ _ | .brk _ _ | .ret _ => true
  | .ifElse _ _ _ body elseBody => isLastStmtBr body && isLastStmtBr elseBody
  | _ => false

def isLastStmtBr {σ : Type} : Body σ → Bool
  | [] => false
  | s :: rest => if rest.isEmpty then s.isBr else isLastStmtBr rest
end

/-- The precondition's calls, the condition and its branch. -/
def codeGenCond (precond : Option (PrecondNode Symbol)) (site : CondSite) (cond : Expr Symbol)
    (ifTrue ifFalse : Nat) (g : Gen) : Gen :=
  let g := match precond with
    | some p => g.emit (.z3Gen cond p)
    | none => g
  g.emit (.condBr site cond ifTrue ifFalse)

def codeGenAsg? (site : AsgSite) (n : Option (AsgNode Symbol)) (g : Gen) : Gen :=
  match n with
  | some n => g.emit (.asg site n)
  | none => g

/-- The end of an arm: into the merge block, unless its body ended in a jump. -/
def codeGenArmEnd (body : Body Symbol) (mergeBb : Nat) (g : Gen) : Gen :=
  if isLastStmtBr body then g else g.emit (.br .merge (some mergeBb))

/-- The end of a loop's body: the increment and back, unless the body ended in a jump. -/
def codeGenLoopEnd (loop : NodeId) (incAsg : Option (AsgNode Symbol)) (body : Body Symbol)
    (loopCondBb : Nat) (g : Gen) : Gen :=
  if isLastStmtBr body then g
  else (codeGenAsg? (.inc loop) incAsg g).emit (.br (.back loop) (some loopCondBb))

/-- `code_gen(ForNode *)` from the creation of its blocks, the next three
numbers, to the branch into the first of them. -/
def codeGenForEntry (node : ASTNode) (g : Gen) : Gen :=
  let loopCondBb := g.size
  let mergeBb := g.size + 2
  let g := ((g.createBlock "loop_cond_bb").createBlock "loop_bb").createBlock "merge_bb"
  let g := g.setLoop node.id loopCondBb mergeBb
  g.emit (.br (.enter node.id) (some loopCondBb))

/-- And up to its body. -/
def codeGenForHead (node : ASTNode) (precond : Option (PrecondNode Symbol)) (cond : Expr Symbol) (g : Gen) :
    Gen :=
  let loopCondBb := g.size
  let loopBb := g.size + 1
  let mergeBb := g.size + 2
  let g := codeGenForEntry node g
  let g := g.setInsertPoint loopCondBb
  let g := codeGenCond precond (.ofLoop node.id) cond loopBb mergeBb g
  g.setInsertPoint loopBb

/-- `code_gen(IfNode *)` up to its body. -/
def codeGenIfHead (node : ASTNode) (precond : Option (PrecondNode Symbol)) (cond : Expr Symbol) (g : Gen) :
    Gen :=
  let thenBb := g.size
  let elseBb := g.size + 1
  let g := ((g.createBlock "then").createBlock "else").createBlock "merge"
  let g := codeGenCond precond (.ofIf node.id) cond thenBb elseBb g
  g.setInsertPoint thenBb

mutual
/-- `code_gen` of a statement. -/
def codeGenStmt : Stmt Symbol → Gen → Gen
  | .asg n, g => g.emit (.asg .stmt n)
  | .ret n, g => (g.emit (.gatherRes n)).emit .retVoid
  | .def_ n, g => g.emit (.def_ n)
  | .cont _ loop, g => g.emit (.br (.cont loop) ((loop.bind g.loops).map (·.1)))
  | .brk _ loop, g => g.emit (.br (.brk loop) ((loop.bind g.loops).map (·.2)))
  | .for_ node precond preAsg cond incAsg body, g =>
    let g := codeGenAsg? (.pre node.id) preAsg g
    let loopCondBb := g.size
    let mergeBb := g.size + 2
    let g := codeGenForHead node precond cond g
    let g := codeGenBody body g
    let g := codeGenLoopEnd node.id incAsg body loopCondBb g
    g.setInsertPoint mergeBb
  | .if_ node precond cond body, g =>
    let elseBb := g.size + 1
    let mergeBb := g.size + 2
    let g := codeGenIfHead node precond cond g
    let g := codeGenBody body g
    let g := codeGenArmEnd body mergeBb g
    let g := g.setInsertPoint elseBb
    let g := g.emit (.br .merge (some mergeBb))
    g.setInsertPoint mergeBb
  | .ifElse node precond cond body elseBody, g =>
    let elseBb := g.size + 1
    let mergeBb := g.size + 2
    let g := codeGenIfHead node precond cond g
    let g := codeGenBody body g
    let g := codeGenArmEnd body mergeBb g
    let g := g.setInsertPoint elseBb
    let g := codeGenBody elseBody g
    let g := codeGenArmEnd elseBody mergeBb g
    g.setInsertPoint mergeBb

def codeGenBody : Body Symbol → Gen → Gen
  | [], g => g
  | s :: rest, g => codeGenBody rest (codeGenStmt s g)
end

/-- `code_gen` of a function, before the optimisations. -/
def codeGen (f : FunctionNode Symbol) : Gen := codeGenBody f.body Gen.start

/-! ## What emission changes -/

@[simp] theorem codeGenAsg?_size (site : AsgSite) (n : Option (AsgNode Symbol)) (g : Gen) :
    (codeGenAsg? site n g).size = g.size := by cases n <;> rfl

@[simp] theorem codeGenAsg?_cur (site : AsgSite) (n : Option (AsgNode Symbol)) (g : Gen) :
    (codeGenAsg? site n g).cur = g.cur := by cases n <;> rfl

@[simp] theorem codeGenAsg?_loops (site : AsgSite) (n : Option (AsgNode Symbol)) (g : Gen) :
    (codeGenAsg? site n g).loops = g.loops := by cases n <;> rfl

@[simp] theorem codeGenCond_size (p : Option (PrecondNode Symbol)) (site : CondSite) (c : Expr Symbol)
    (t f : Nat) (g : Gen) : (codeGenCond p site c t f g).size = g.size := by cases p <;> rfl

@[simp] theorem codeGenCond_cur (p : Option (PrecondNode Symbol)) (site : CondSite) (c : Expr Symbol)
    (t f : Nat) (g : Gen) : (codeGenCond p site c t f g).cur = g.cur := by cases p <;> rfl

@[simp] theorem codeGenCond_name (p : Option (PrecondNode Symbol)) (site : CondSite) (c : Expr Symbol)
    (t f : Nat) (g : Gen) : (codeGenCond p site c t f g).name = g.name := by cases p <;> rfl

@[simp] theorem codeGenAsg?_name (site : AsgSite) (n : Option (AsgNode Symbol)) (g : Gen) :
    (codeGenAsg? site n g).name = g.name := by cases n <;> rfl

@[simp] theorem codeGenArmEnd_name (b : Body Symbol) (m : Nat) (g : Gen) :
    (codeGenArmEnd b m g).name = g.name := by unfold codeGenArmEnd; split <;> rfl

@[simp] theorem codeGenArmEnd_cur (b : Body Symbol) (m : Nat) (g : Gen) :
    (codeGenArmEnd b m g).cur = g.cur := by unfold codeGenArmEnd; split <;> rfl

@[simp] theorem codeGenLoopEnd_name (l : NodeId) (inc : Option (AsgNode Symbol)) (b : Body Symbol) (c : Nat)
    (g : Gen) : (codeGenLoopEnd l inc b c g).name = g.name := by
  unfold codeGenLoopEnd; split
  · rfl
  · cases inc <;> rfl

@[simp] theorem codeGenLoopEnd_cur (l : NodeId) (inc : Option (AsgNode Symbol)) (b : Body Symbol) (c : Nat)
    (g : Gen) : (codeGenLoopEnd l inc b c g).cur = g.cur := by
  unfold codeGenLoopEnd; split <;> simp

@[simp] theorem codeGenCond_loops (p : Option (PrecondNode Symbol)) (site : CondSite) (c : Expr Symbol)
    (t f : Nat) (g : Gen) : (codeGenCond p site c t f g).loops = g.loops := by cases p <;> rfl

@[simp] theorem codeGenArmEnd_size (b : Body Symbol) (m : Nat) (g : Gen) :
    (codeGenArmEnd b m g).size = g.size := by unfold codeGenArmEnd; split <;> rfl

@[simp] theorem codeGenArmEnd_loops (b : Body Symbol) (m : Nat) (g : Gen) :
    (codeGenArmEnd b m g).loops = g.loops := by unfold codeGenArmEnd; split <;> rfl

@[simp] theorem codeGenLoopEnd_size (l : NodeId) (inc : Option (AsgNode Symbol)) (b : Body Symbol) (c : Nat)
    (g : Gen) : (codeGenLoopEnd l inc b c g).size = g.size := by
  unfold codeGenLoopEnd; split <;> simp

@[simp] theorem codeGenLoopEnd_loops (l : NodeId) (inc : Option (AsgNode Symbol)) (b : Body Symbol) (c : Nat)
    (g : Gen) : (codeGenLoopEnd l inc b c g).loops = g.loops := by
  unfold codeGenLoopEnd; split <;> simp

@[simp] theorem codeGenForHead_size (node : ASTNode) (p : Option (PrecondNode Symbol)) (c : Expr Symbol)
    (g : Gen) : (codeGenForHead node p c g).size = g.size + 3 := by simp [codeGenForHead, codeGenForEntry]

@[simp] theorem codeGenForHead_cur (node : ASTNode) (p : Option (PrecondNode Symbol)) (c : Expr Symbol)
    (g : Gen) : (codeGenForHead node p c g).cur = g.size + 1 := by simp [codeGenForHead, codeGenForEntry]

@[simp] theorem codeGenForHead_loops (node : ASTNode) (p : Option (PrecondNode Symbol)) (c : Expr Symbol)
    (g : Gen) (l : NodeId) : (codeGenForHead node p c g).loops l =
      if l = node.id then some (g.size, g.size + 2) else g.loops l := by simp [codeGenForHead, codeGenForEntry]

@[simp] theorem codeGenIfHead_size (node : ASTNode) (p : Option (PrecondNode Symbol)) (c : Expr Symbol)
    (g : Gen) : (codeGenIfHead node p c g).size = g.size + 3 := by simp [codeGenIfHead]

@[simp] theorem codeGenIfHead_cur (node : ASTNode) (p : Option (PrecondNode Symbol)) (c : Expr Symbol)
    (g : Gen) : (codeGenIfHead node p c g).cur = g.size := by simp [codeGenIfHead]

@[simp] theorem codeGenIfHead_loops (node : ASTNode) (p : Option (PrecondNode Symbol)) (c : Expr Symbol)
    (g : Gen) : (codeGenIfHead node p c g).loops = g.loops := by simp [codeGenIfHead]

/-- `Builder.Extends` on the function under construction. -/
abbrev Gen.Extends (g g' : Gen) : Prop := g.toBuilder.Extends g'.toBuilder

section Extends
open Blocks.Builder
variable {g g' : Gen} (hlt : g.cur < g.size) (h : g.Extends g')
include hlt h

theorem codeGenAsg?_extends (site : AsgSite) (n : Option (AsgNode Symbol)) :
    g.Extends (codeGenAsg? site n g') := by
  cases n with
  | none => exact h
  | some n => exact Extends.emit hlt h _

theorem codeGenCond_extends (p : Option (PrecondNode Symbol)) (site : CondSite) (c : Expr Symbol)
    (t f : Nat) : g.Extends (codeGenCond p site c t f g') := by
  cases p with
  | none => exact Extends.emit hlt h _
  | some p => exact Extends.emit hlt (Extends.emit hlt h _) _

theorem codeGenArmEnd_extends (b : Body Symbol) (m : Nat) : g.Extends (codeGenArmEnd b m g') := by
  unfold codeGenArmEnd
  split
  · exact h
  · exact Extends.emit hlt h _

theorem codeGenLoopEnd_extends (l : NodeId) (inc : Option (AsgNode Symbol)) (b : Body Symbol) (c : Nat) :
    g.Extends (codeGenLoopEnd l inc b c g') := by
  unfold codeGenLoopEnd
  split
  · exact h
  · exact Extends.emit hlt (codeGenAsg?_extends hlt h _ _) _

theorem codeGenForHead_extends (node : ASTNode) (p : Option (PrecondNode Symbol)) (c : Expr Symbol) :
    g.Extends (codeGenForHead node p c g') := by
  have hs := h.size_le
  refine Extends.setInsertPoint (codeGenCond_extends hlt (Extends.setInsertPoint (Extends.emit hlt
    (Extends.createBlock hlt (Extends.createBlock hlt (Extends.createBlock hlt h _) _) _) _) hs ?_) _ _ _ _ _)
    (Nat.le_succ_of_le hs) ?_
  · simp; omega
  · simp [codeGenForEntry]

theorem codeGenIfHead_extends (node : ASTNode) (p : Option (PrecondNode Symbol)) (c : Expr Symbol) :
    g.Extends (codeGenIfHead node p c g') := by
  have hs := h.size_le
  refine Extends.setInsertPoint (codeGenCond_extends hlt
    (Extends.createBlock hlt (Extends.createBlock hlt (Extends.createBlock hlt h _) _) _) _ _ _ _ _) hs ?_
  simp
  omega

end Extends

/-- **Emission only extends**: code already emitted stays, and only the
insertion block and new blocks get more. -/
theorem codeGen_extends :
    (∀ s : Stmt Symbol, ∀ g : Gen, g.cur < g.size → g.Extends (codeGenStmt s g)) ∧
    ∀ b : Body Symbol, ∀ g : Gen, g.cur < g.size → g.Extends (codeGenBody b g) := by
  open Blocks.Builder in
  apply Stmt.induct
  case for_ =>
    intro node p pre c inc b ih g hlt
    have h₁ := codeGenAsg?_extends hlt (Extends.refl hlt) (.pre node.id) pre
    have h₂ := codeGenForHead_extends hlt h₁ node p c
    have h₃ := h₂.trans hlt (ih _ h₂.cur_lt)
    have hs := (ih _ h₂.cur_lt).size_le
    simp only [codeGenStmt]
    refine Extends.setInsertPoint (codeGenLoopEnd_extends hlt h₃ _ _ _ _) ?_ ?_ <;>
      (simp at hs ⊢; try omega)
  case if_ =>
    intro node p c b ih g hlt
    have h₁ := codeGenIfHead_extends hlt (Extends.refl hlt) node p c
    have h₂ := h₁.trans hlt (ih _ h₁.cur_lt)
    have hs := (ih _ h₁.cur_lt).size_le
    simp only [codeGenStmt]
    refine Extends.setInsertPoint (Extends.emit hlt (Extends.setInsertPoint
      (codeGenArmEnd_extends hlt h₂ _ _) ?_ ?_) _) ?_ ?_ <;> (simp at hs ⊢; try omega)
  case ifElse =>
    intro node p c b e ihb ihe g hlt
    have h₁ := codeGenIfHead_extends hlt (Extends.refl hlt) node p c
    have h₂ := h₁.trans hlt (ihb _ h₁.cur_lt)
    have hs := (ihb _ h₁.cur_lt).size_le
    have h₃ := Extends.setInsertPoint (codeGenArmEnd_extends hlt h₂ b (g.size + 2))
      (k := g.size + 1) (by omega) (by simp at hs ⊢; omega)
    have h₄ := h₃.trans hlt (ihe ((codeGenArmEnd b (g.size + 2) _).setInsertPoint _) h₃.cur_lt)
    have hs' := (ihe ((codeGenArmEnd b (g.size + 2) _).setInsertPoint _) h₃.cur_lt).size_le
    simp only [codeGenStmt]
    refine Extends.setInsertPoint (codeGenArmEnd_extends hlt h₄ _ _) ?_ ?_ <;> (simp at hs hs' ⊢; try omega)
  case ret => intro n g hlt; exact Extends.emit hlt (Extends.emit hlt (Extends.refl hlt) _) _
  case nil => intro g hlt; exact Extends.refl hlt
  case cons =>
    intro s rest ihs ihr g hlt
    exact (ihs g hlt).trans hlt (ihr _ (ihs g hlt).cur_lt)
  all_goals
    intros
    exact Extends.emit ‹_› (Extends.refl ‹_›) _

section Grows
variable (g : Gen)

theorem codeGenCond_grows (p : Option (PrecondNode Symbol)) (site : CondSite) (c : Expr Symbol) (t f : Nat) :
    g.Grows (codeGenCond p site c t f g).toBuilder := by
  cases p with
  | none => exact .emit _ _
  | some p => exact (Blocks.Builder.Grows.emit _ _).trans (.emit _ _)

theorem codeGenArmEnd_grows (b : Body Symbol) (m : Nat) : g.Grows (codeGenArmEnd b m g).toBuilder := by
  unfold codeGenArmEnd
  split
  · exact .refl _
  · exact .emit _ _

theorem codeGenLoopEnd_grows (l : NodeId) (inc : Option (AsgNode Symbol)) (b : Body Symbol) (c : Nat) :
    g.Grows (codeGenLoopEnd l inc b c g).toBuilder := by
  unfold codeGenLoopEnd
  split
  · exact .refl _
  · cases inc with
    | none => exact .emit _ _
    | some n => exact (Blocks.Builder.Grows.emit _ _).trans (.emit _ _)

theorem codeGenBody_grows {g : Gen} (hlt : g.cur < g.size) (b : Body Symbol) :
    g.Grows (codeGenBody b g).toBuilder := (codeGen_extends.2 b g hlt).grows

end Grows

/-- Emission sets the blocks of the loops it meets, and no others. -/
theorem codeGen_loops {l : NodeId} :
    (∀ s : Stmt Symbol, ∀ g : Gen, l ∉ s.keyIds → (codeGenStmt s g).loops l = g.loops l) ∧
    ∀ b : Body Symbol, ∀ g : Gen, l ∉ Body.keyIds b → (codeGenBody b g).loops l = g.loops l := by
  apply Stmt.induct
  case for_ =>
    intro node p pre c inc b ih g hl
    simp only [Stmt.keyIds, List.mem_cons, List.mem_append, not_or] at hl
    simp [codeGenStmt, ih _ hl.2.2, hl.1]
  case if_ =>
    intro node p c b ih g hl
    simp only [Stmt.keyIds, List.mem_append, not_or] at hl
    simp [codeGenStmt, ih _ hl.2]
  case ifElse =>
    intro node p c b e ihb ihe g hl
    simp only [Stmt.keyIds, List.mem_append, not_or] at hl
    simp [codeGenStmt, ihb _ hl.2.1, ihe _ hl.2.2]
  case cons =>
    intro s rest ihs ihr g hl
    simp only [Body.keyIds, List.mem_append, not_or] at hl
    simp only [codeGenBody, ihr _ hl.2, ihs _ hl.1]
  all_goals
    intros
    rfl

/-! ## The code each part appends -/

def condCode (precond : Option (PrecondNode Symbol)) (site : CondSite) (cond : Expr Symbol)
    (ifTrue ifFalse : Nat) : List Instr :=
  (precond.map (Instr.z3Gen cond)).toList ++ [.condBr site cond ifTrue ifFalse]

def asgCode? (site : AsgSite) (n : Option (AsgNode Symbol)) : List Instr := (n.map (Instr.asg site)).toList

def armEndCode (body : Body Symbol) (mergeBb : Nat) : List Instr :=
  if isLastStmtBr body then [] else [.br .merge (some mergeBb)]

def loopEndCode (loop : NodeId) (incAsg : Option (AsgNode Symbol)) (body : Body Symbol) (loopCondBb : Nat) :
    List Instr :=
  if isLastStmtBr body then [] else asgCode? (.inc loop) incAsg ++ [.br (.back loop) (some loopCondBb)]

section Code
variable (g : Gen) (k : Nat)

theorem codeGenAsg?_code (site : AsgSite) (n : Option (AsgNode Symbol)) :
    (codeGenAsg? site n g).code k = if k = g.cur then g.code k ++ asgCode? site n else g.code k := by
  cases n <;> simp [codeGenAsg?, asgCode?]

theorem codeGenCond_code (p : Option (PrecondNode Symbol)) (site : CondSite) (c : Expr Symbol) (t f : Nat) :
    (codeGenCond p site c t f g).code k =
      if k = g.cur then g.code k ++ condCode p site c t f else g.code k := by
  cases p <;> by_cases hk : k = g.cur <;> simp [codeGenCond, condCode, hk]

theorem codeGenArmEnd_code (b : Body Symbol) (m : Nat) :
    (codeGenArmEnd b m g).code k = if k = g.cur then g.code k ++ armEndCode b m else g.code k := by
  unfold codeGenArmEnd armEndCode
  split <;> simp

theorem codeGenLoopEnd_code (l : NodeId) (inc : Option (AsgNode Symbol)) (b : Body Symbol) (c : Nat) :
    (codeGenLoopEnd l inc b c g).code k =
      if k = g.cur then g.code k ++ loopEndCode l inc b c else g.code k := by
  unfold codeGenLoopEnd loopEndCode
  split
  · simp
  · by_cases hk : k = g.cur <;> simp [codeGenAsg?_code, hk]

/-- The head of a loop ends the block it stands in, fills the condition's and leaves two empty. -/
theorem codeGenForHead_code (hlt : g.cur < g.size) (node : ASTNode) (p : Option (PrecondNode Symbol))
    (c : Expr Symbol) :
    (codeGenForHead node p c g).code k =
      if k = g.cur then g.code k ++ [.br (.enter node.id) (some g.size)]
      else if k = g.size then condCode p (.ofLoop node.id) c (g.size + 1) (g.size + 2)
      else if k = g.size + 1 ∨ k = g.size + 2 then []
      else g.code k := by
  simp only [codeGenForHead, codeGenForEntry, codeGenCond_code, Gen.setInsertPoint_toBuilder, Gen.emit_toBuilder,
    Gen.setLoop_toBuilder, Gen.createBlock_toBuilder, Blocks.Builder.setInsertPoint_code,
    Blocks.Builder.setInsertPoint_cur, Blocks.Builder.emit_code, Blocks.Builder.createBlock_code,
    Blocks.Builder.createBlock_cur, Blocks.Builder.createBlock_size]
  split_ifs <;> first | rfl | omega

theorem codeGenIfHead_code (hlt : g.cur < g.size) (node : ASTNode) (p : Option (PrecondNode Symbol))
    (c : Expr Symbol) :
    (codeGenIfHead node p c g).code k =
      if k = g.cur then g.code k ++ condCode p (.ofIf node.id) c g.size (g.size + 1)
      else if k = g.size ∨ k = g.size + 1 ∨ k = g.size + 2 then []
      else g.code k := by
  simp only [codeGenIfHead, codeGenCond_code, Gen.setInsertPoint_toBuilder, Gen.createBlock_toBuilder,
    Blocks.Builder.setInsertPoint_code, Blocks.Builder.createBlock_code, Blocks.Builder.createBlock_cur,
    Blocks.Builder.createBlock_size]
  grind

end Code

/-! ## The parts of an if and a loop -/

/-- An if up to its `else` block. -/
def codeGenThen (node : ASTNode) (precond : Option (PrecondNode Symbol)) (cond : Expr Symbol)
    (body : Body Symbol) (g : Gen) : Gen :=
  (codeGenArmEnd body (g.size + 2) (codeGenBody body (codeGenIfHead node precond cond g))).setInsertPoint
    (g.size + 1)

/-- A loop after its pre-assignment, up to its merge block. -/
def codeGenLoop (node : ASTNode) (precond : Option (PrecondNode Symbol)) (cond : Expr Symbol)
    (incAsg : Option (AsgNode Symbol)) (body : Body Symbol) (g : Gen) : Gen :=
  codeGenLoopEnd node.id incAsg body g.size (codeGenBody body (codeGenForHead node precond cond g))

/-- An if after its `else` block's body. -/
def codeGenElse (elseBody : Body Symbol) (mergeBb : Nat) (g : Gen) : Gen :=
  codeGenArmEnd elseBody mergeBb (codeGenBody elseBody g)

section Parts
variable (node : ASTNode) (p : Option (PrecondNode Symbol)) (c : Expr Symbol) (b e : Body Symbol) (g : Gen)

theorem codeGenStmt_if : codeGenStmt (.if_ node p c b) g =
    ((codeGenThen node p c b g).emit (.br .merge (some (g.size + 2)))).setInsertPoint (g.size + 2) := rfl

theorem codeGenStmt_ifElse : codeGenStmt (.ifElse node p c b e) g =
    (codeGenElse e (g.size + 2) (codeGenThen node p c b g)).setInsertPoint (g.size + 2) := rfl

theorem codeGenStmt_for (pre inc : Option (AsgNode Symbol)) : codeGenStmt (.for_ node p pre c inc b) g =
    (codeGenLoop node p c inc b (codeGenAsg? (.pre node.id) pre g)).setInsertPoint
      ((codeGenAsg? (.pre node.id) pre g).size + 2) := rfl

@[simp] theorem codeGenThen_cur : (codeGenThen node p c b g).cur = g.size + 1 := rfl

variable {g} (hlt : g.cur < g.size)

/-- The insertion point after the body of an arm is the arm's block or a new one. -/
theorem codeGenBody_ifHead_cur : (codeGenBody b (codeGenIfHead node p c g)).cur = g.size ∨
    g.size + 3 ≤ (codeGenBody b (codeGenIfHead node p c g)).cur := by
  simpa using (codeGen_extends.2 b (codeGenIfHead node p c g) (by simp)).cur

theorem codeGenBody_forHead_cur : (codeGenBody b (codeGenForHead node p c g)).cur = g.size + 1 ∨
    g.size + 3 ≤ (codeGenBody b (codeGenForHead node p c g)).cur := by
  simpa using (codeGen_extends.2 b (codeGenForHead node p c g) (by simp)).cur

theorem codeGenThen_size_le : g.size + 3 ≤ (codeGenThen node p c b g).size := by
  simpa [codeGenThen] using (codeGen_extends.2 b (codeGenIfHead node p c g) (by simp)).size_le

theorem codeGenLoop_size_le (inc : Option (AsgNode Symbol)) :
    g.size + 3 ≤ (codeGenLoop node p c inc b g).size := by
  simpa [codeGenLoop] using (codeGen_extends.2 b (codeGenForHead node p c g) (by simp)).size_le

/-- Outside its arm's block and those its body adds, the first part of an if is its head. -/
theorem codeGenThen_code {k : Nat} (hk : k < g.size + 3) (hne : k ≠ g.size) :
    (codeGenThen node p c b g).code k = (codeGenIfHead node p c g).code k := by
  have hcur := codeGenBody_ifHead_cur node p c b (g := g)
  simp only [codeGenThen, Gen.setInsertPoint_toBuilder, Blocks.Builder.setInsertPoint_code, codeGenArmEnd_code]
  rw [if_neg (by omega)]
  exact (codeGen_extends.2 b (codeGenIfHead node p c g) (by simp)).code_eq (by simpa using hk) (by simpa using hne)

theorem codeGenLoop_code (inc : Option (AsgNode Symbol)) {k : Nat} (hk : k < g.size + 3) (hne : k ≠ g.size + 1) :
    (codeGenLoop node p c inc b g).code k = (codeGenForHead node p c g).code k := by
  have hcur := codeGenBody_forHead_cur node p c b (g := g)
  rw [codeGenLoop, codeGenLoopEnd_code, if_neg (by omega)]
  exact (codeGen_extends.2 b (codeGenForHead node p c g) (by simp)).code_eq (by simpa using hk) (by simpa using hne)

/-- What follows leaves the first part of an if alone but for the `else` block. -/
theorem codeGenElse_code {g : Gen} (hlt : g.cur < g.size) (m : Nat) {k : Nat} (hk : k < g.size) (hne : k ≠ g.cur) :
    (codeGenElse e m g).code k = g.code k := by
  have h := codeGen_extends.2 e g hlt
  have hcur := h.cur
  rw [codeGenElse, codeGenArmEnd_code, if_neg (by omega), h.code_eq hk hne]

include hlt

theorem codeGenThen_else : (codeGenThen node p c b g).code (g.size + 1) = [] := by
  rw [codeGenThen_code node p c b (by omega) (by omega), codeGenIfHead_code g _ hlt, if_neg (by omega)]
  simp

theorem codeGenThen_merge : (codeGenThen node p c b g).code (g.size + 2) = [] := by
  rw [codeGenThen_code node p c b (by omega) (by omega), codeGenIfHead_code g _ hlt, if_neg (by omega)]
  simp

theorem codeGenLoop_merge (inc : Option (AsgNode Symbol)) :
    (codeGenLoop node p c inc b g).code (g.size + 2) = [] := by
  rw [codeGenLoop_code node p c b inc (by omega) (by omega), codeGenForHead_code g _ hlt, if_neg (by omega)]
  simp

end Parts

end DGen
