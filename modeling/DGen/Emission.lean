/-
Every moment of code generation.

`codeGenBodyOps` lists what `code_gen` does to the builder, one operation
after the other; run from `Gen.start` they build the function
(`codeGenBodyOps_run`). So a statement about each of them (`Along`) is about
the whole of code generation and not only about the blocks it leaves.
-/
import DGen.Terminators

namespace DGen

open Blocks

/-- What `code_gen` does to the builder. `endBody` is `code_gen(BodyNode *)` returning. -/
inductive EmitOp
  | createBlock (name : String)
  | setInsertPoint (k : Nat)
  | setLoop (loop : NodeId) (condBb mergeBb : Nat)
  | emit (i : Instr)
  | endBody (body : Body Symbol)

namespace EmitOp

def apply : EmitOp → Gen → Gen
  | .createBlock name => Gen.createBlock name
  | .setInsertPoint k => Gen.setInsertPoint k
  | .setLoop loop condBb mergeBb => Gen.setLoop loop condBb mergeBb
  | .emit i => Gen.emit i
  | .endBody _ => id

def run : List EmitOp → Gen → Gen
  | [], g => g
  | op :: ops, g => run ops (op.apply g)

/-- `P` holds of each operation, in the state it meets. -/
def Along (P : Gen → EmitOp → Prop) : List EmitOp → Gen → Prop
  | [], _ => True
  | op :: ops, g => P g op ∧ Along P ops (op.apply g)

variable {P : Gen → EmitOp → Prop}

theorem run_append (ops ops' : List EmitOp) (g : Gen) : run (ops ++ ops') g = run ops' (run ops g) := by
  induction ops generalizing g with
  | nil => rfl
  | cons op ops ih => exact ih _

theorem along_append (ops ops' : List EmitOp) (g : Gen) :
    Along P (ops ++ ops') g ↔ Along P ops g ∧ Along P ops' (run ops g) := by
  induction ops generalizing g with
  | nil => simp [Along, run]
  | cons op ops ih => simp only [List.cons_append, Along, run, ih, and_assoc]

theorem along_iff {ops : List EmitOp} {g : Gen} :
    Along P ops g ↔ ∀ done op rest, ops = done ++ op :: rest → P (run done g) op := by
  induction ops generalizing g with
  | nil => simp [Along]
  | cons op ops ih =>
    rw [Along, ih]
    constructor
    · rintro ⟨h, h'⟩ done op' rest heq
      cases done with
      | nil => cases heq; exact h
      | cons d done => cases heq; exact h' done op' rest rfl
    · exact fun h => ⟨h [] op ops rfl, fun done op' rest heq => h (op :: done) op' rest (by rw [heq]; rfl)⟩

end EmitOp

open EmitOp

/-! ## The operations of each part -/

def codeGenCondOps (precond : Option (PrecondNode Symbol)) (site : CondSite) (cond : Expr Symbol)
    (ifTrue ifFalse : Nat) : List EmitOp := (condCode precond site cond ifTrue ifFalse).map .emit

def codeGenForHeadOps (node : ASTNode) (precond : Option (PrecondNode Symbol)) (cond : Expr Symbol) (g : Gen) :
    List EmitOp :=
  [.createBlock "loop_cond_bb", .createBlock "loop_bb", .createBlock "merge_bb",
    .setLoop node.id g.size (g.size + 2), .emit (.br (.enter node.id) (some g.size)), .setInsertPoint g.size] ++
  (codeGenCondOps precond (.ofLoop node.id) cond (g.size + 1) (g.size + 2) ++ [.setInsertPoint (g.size + 1)])

def codeGenIfHeadOps (node : ASTNode) (precond : Option (PrecondNode Symbol)) (cond : Expr Symbol) (g : Gen) :
    List EmitOp :=
  [.createBlock "then", .createBlock "else", .createBlock "merge"] ++
  (codeGenCondOps precond (.ofIf node.id) cond g.size (g.size + 1) ++ [.setInsertPoint g.size])

mutual
/-- The operations of `code_gen` of a statement, from `g`. -/
def codeGenStmtOps : Stmt Symbol → Gen → List EmitOp
  | .asg n, _ => [.emit (.asg .stmt n)]
  | .ret n, _ => [.emit (.gatherRes n), .emit .retVoid]
  | .def_ n, _ => [.emit (.def_ n)]
  | .cont _ loop, g => [.emit (.br (.cont loop) ((loop.bind g.loops).map (·.1)))]
  | .brk _ loop, g => [.emit (.br (.brk loop) ((loop.bind g.loops).map (·.2)))]
  | .for_ node precond preAsg cond incAsg body, g =>
    let g₀ := codeGenAsg? (.pre node.id) preAsg g
    let head := codeGenForHead node precond cond g₀
    (asgCode? (.pre node.id) preAsg).map .emit ++ (codeGenForHeadOps node precond cond g₀ ++
      (codeGenBodyOps body head ++ (.endBody body :: (loopEndCode node.id incAsg body g₀.size).map .emit ++
        [.setInsertPoint (g₀.size + 2)])))
  | .if_ node precond cond body, g =>
    let head := codeGenIfHead node precond cond g
    codeGenIfHeadOps node precond cond g ++ (codeGenBodyOps body head ++
      (.endBody body :: (armEndCode body (g.size + 2)).map .emit ++
        [.setInsertPoint (g.size + 1), .emit (.br .merge (some (g.size + 2))), .setInsertPoint (g.size + 2)]))
  | .ifElse node precond cond body elseBody, g =>
    let head := codeGenIfHead node precond cond g
    codeGenIfHeadOps node precond cond g ++ (codeGenBodyOps body head ++
      (.endBody body :: (armEndCode body (g.size + 2)).map .emit ++ [.setInsertPoint (g.size + 1)] ++
        (codeGenBodyOps elseBody (codeGenThen node precond cond body g) ++
          (.endBody elseBody :: (armEndCode elseBody (g.size + 2)).map .emit ++ [.setInsertPoint (g.size + 2)]))))

def codeGenBodyOps : Body Symbol → Gen → List EmitOp
  | [], _ => []
  | s :: rest, g => codeGenStmtOps s g ++ codeGenBodyOps rest (codeGenStmt s g)
end

/-- The operations of `code_gen(FunctionNode *)`. -/
def codeGenOps (f : FunctionNode Symbol) : List EmitOp := codeGenBodyOps f.body Gen.start ++ [.endBody f.body]

/-! ## They build the function -/

section Run
variable (g : Gen)

theorem run_asgCode? (site : AsgSite) (n : Option (AsgNode Symbol)) :
    run ((asgCode? site n).map .emit) g = codeGenAsg? site n g := by cases n <;> rfl

theorem run_forHead (node : ASTNode) (p : Option (PrecondNode Symbol)) (c : Expr Symbol) :
    run (codeGenForHeadOps node p c g) g = codeGenForHead node p c g := by cases p <;> rfl

theorem run_ifHead (node : ASTNode) (p : Option (PrecondNode Symbol)) (c : Expr Symbol) :
    run (codeGenIfHeadOps node p c g) g = codeGenIfHead node p c g := by cases p <;> rfl

theorem run_armEnd (b : Body Symbol) (m : Nat) :
    run (.endBody b :: (armEndCode b m).map .emit) g = codeGenArmEnd b m g := by
  unfold armEndCode codeGenArmEnd
  split <;> rfl

theorem run_loopEnd (l : NodeId) (inc : Option (AsgNode Symbol)) (b : Body Symbol) (c : Nat) :
    run (.endBody b :: (loopEndCode l inc b c).map .emit) g = codeGenLoopEnd l inc b c g := by
  unfold loopEndCode codeGenLoopEnd
  split
  · rfl
  · cases inc <;> rfl

end Run

theorem codeGenBodyOps_run :
    (∀ s : Stmt Symbol, ∀ g, run (codeGenStmtOps s g) g = codeGenStmt s g) ∧
    ∀ b : Body Symbol, ∀ g, run (codeGenBodyOps b g) g = codeGenBody b g := by
  apply Stmt.induct
  case for_ =>
    intro node p pre c inc b ih g
    simp only [codeGenStmtOps, run_append, run_asgCode?, run_forHead, ih, run_loopEnd]
    rfl
  case if_ =>
    intro node p c b ih g
    simp only [codeGenStmtOps, run_append, run_ifHead, ih, run_armEnd]
    rfl
  case ifElse =>
    intro node p c b e ihb ihe g
    simp only [codeGenStmtOps, run_append, run_ifHead, ihb, run_armEnd]
    exact congrArg _ (congrArg _ (ihe (codeGenThen node p c b g)))
  case cons =>
    intro s rest ihs ihr g
    simp only [codeGenBodyOps, run_append, ihs, ihr, codeGenBody]
  all_goals
    intros
    rfl

theorem codeGenOps_run (f : FunctionNode Symbol) : run (codeGenOps f) Gen.start = codeGen f := by
  rw [codeGenOps, run_append, codeGenBodyOps_run.2]
  rfl

/-! ## Each of them is safe -/

/-- An instruction goes to a block with no terminator, and a body that
returns leaves a block with none exactly when it does not end in a jump. -/
def EmitOp.Safe (g : Gen) : EmitOp → Prop
  | .emit _ => g.Open
  | .endBody body => g.Open ↔ endsInJump body = false
  | _ => True

theorem along_emits {is : List Instr} (hs : Blocks.Sealed Instr.isTerm is) {g : Gen} (ho : is ≠ [] → g.Open) :
    Along Safe (is.map .emit) g := by
  induction is generalizing g with
  | nil => trivial
  | cons i is ih =>
    refine ⟨ho (by simp), ih (fun p j q h ht => hs (i :: p) j q (by rw [h]; rfl) ht) fun hne => ?_⟩
    have hi : i.isTerm = false := by
      cases hi : i.isTerm with
      | false => rfl
      | true => exact absurd (hs [] i is rfl hi) hne
    simp [Gen.Open, EmitOp.apply, hi]

section Heads
variable {g : Gen} (h : g.Ready) (node : ASTNode) (p : Option (PrecondNode Symbol)) (c : Expr Symbol)
include h

theorem forHead_safe : Along Safe (codeGenForHeadOps node p c g) g := by
  have ho := h.isOpen
  have hlt := h.cur_lt
  refine (along_append _ _ _).mpr ⟨?_, (along_append _ _ _).mpr ⟨?_, trivial, trivial⟩⟩
  · refine ⟨trivial, trivial, trivial, trivial, ?_, trivial, trivial⟩
    simpa [EmitOp.Safe, EmitOp.apply, Gen.Open, hlt.ne, (show g.cur ≠ g.size + 1 by omega),
      (show g.cur ≠ g.size + 2 by omega)] using ho
  · refine along_emits (condCode_sealed _ _ _ _ _) fun _ => ?_
    simp [EmitOp.run, EmitOp.apply, Gen.Open, hlt.ne']

theorem ifHead_safe : Along Safe (codeGenIfHeadOps node p c g) g := by
  have ho := h.isOpen
  have hlt := h.cur_lt
  refine (along_append _ _ _).mpr ⟨⟨trivial, trivial, trivial, trivial⟩,
    (along_append _ _ _).mpr ⟨?_, trivial, trivial⟩⟩
  refine along_emits (condCode_sealed _ _ _ _ _) fun _ => ?_
  simpa [EmitOp.run, EmitOp.apply, Gen.Open, hlt.ne, (show g.cur ≠ g.size + 1 by omega),
    (show g.cur ≠ g.size + 2 by omega)] using ho

end Heads

/-- The end of a body and what is emitted after it. -/
theorem bodyEnd_safe {b : Body Symbol} {is : List Instr} {g : Gen} (hs : Blocks.Sealed Instr.isTerm is)
    (ho : g.Open ↔ endsInJump b = false) (hnil : isLastStmtBr b = true → is = []) :
    Along Safe (.endBody b :: is.map .emit) g := by
  refine ⟨ho, along_emits hs fun hne => ho.mpr (Bool.eq_false_iff.mpr fun hj => hne ?_)⟩
  exact hnil (endsInJump_isLastStmtBr hj)

theorem codeGenOps_safe :
    (∀ s : Stmt Symbol, ∀ {g : Gen}, s.JumpsLast → g.Ready → Along Safe (codeGenStmtOps s g) g) ∧
    ∀ b : Body Symbol, ∀ {g : Gen}, Body.JumpsLast b → g.Ready → Along Safe (codeGenBodyOps b g) g := by
  apply Stmt.induct
  case for_ =>
    intro node p pre c inc b ih g hj h
    simp only [codeGenStmtOps, along_append, run_asgCode?, run_forHead, codeGenBodyOps_run]
    have h₀ := codeGenAsg?_ready h (.pre node.id) pre
    have hhead := codeGenForHead_ready h₀ node p c
    refine ⟨along_emits (asgCode?_sealed _ pre).1 fun _ => h.isOpen, forHead_safe h₀ node p c, ih hj hhead, ?_,
      trivial, trivial⟩
    exact bodyEnd_safe (loopEndCode_sealed _ _ _ _) (codeGen_sealed.2 b hj hhead).2
      fun hb => by simp [loopEndCode, hb]
  case if_ =>
    intro node p c b ih g hj h
    simp only [codeGenStmtOps, along_append, run_ifHead, codeGenBodyOps_run, run_armEnd]
    have hhead := codeGenIfHead_ready h node p c
    have hbody := codeGen_sealed.2 b hj hhead
    refine ⟨ifHead_safe h node p c, ih hj hhead, ?_, trivial, (codeGenThen_ready h hbody.1 hbody.2).isOpen,
      trivial, trivial⟩
    exact bodyEnd_safe (armEndCode_sealed _ _) hbody.2 fun hb => by simp [armEndCode, hb]
  case ifElse =>
    intro node p c b e ihb ihe g hj h
    simp only [codeGenStmtOps, along_append, run_append, run_ifHead, codeGenBodyOps_run, run_armEnd]
    have hhead := codeGenIfHead_ready h node p c
    have hbody := codeGen_sealed.2 b hj.1 hhead
    have hthen := codeGenThen_ready h hbody.1 hbody.2
    have helse : (run (codeGenBodyOps e (codeGenThen node p c b g)) (codeGenThen node p c b g)).Open ↔
        endsInJump e = false := by
      rw [codeGenBodyOps_run.2]
      exact (codeGen_sealed.2 e hj.2 hthen).2
    refine ⟨ifHead_safe h node p c, ihb hj.1 hhead, ⟨?_, trivial, trivial⟩, ihe hj.2 hthen, ?_, trivial, trivial⟩
    · exact bodyEnd_safe (armEndCode_sealed _ _) hbody.2 fun hb => by simp [armEndCode, hb]
    · exact bodyEnd_safe (armEndCode_sealed _ _) helse fun hb => by simp [armEndCode, hb]
  case ret =>
    intro n g _ h
    exact ⟨h.isOpen, (h.emit (.gatherRes n)).2.mpr rfl, trivial⟩
  case nil => intros; trivial
  case cons =>
    intro s rest ihs ihr g hj h
    refine (along_append _ _ _).mpr ⟨ihs hj.2.1 h, ?_⟩
    rw [codeGenBodyOps_run.1]
    obtain ⟨hs, ho⟩ := codeGen_sealed.1 s hj.2.1 h
    cases hjump : s.isJump with
    | true =>
      obtain rfl := hj.1 hjump
      trivial
    | false => exact ihr hj.2.2 ⟨hs, ho.mpr hjump, (codeGen_extends.1 s g h.cur_lt).cur_lt⟩
  all_goals
    intros
    exact ⟨‹Gen.Ready _›.isOpen, trivial⟩

/-- **Nothing is emitted after a terminator**, at any moment of the code
generation of a function that the elimination went over: each instruction
goes to a block that is still open, and when `code_gen` of a body returns, the
builder stands in a terminated block exactly if that body ends in a jump. -/
theorem codeGen_emits_open (f : FunctionNode Symbol) :
    run (codeGenOps f.eliminateUnreachableCode) Gen.start = codeGen f.eliminateUnreachableCode ∧
    (∀ done i rest, codeGenOps f.eliminateUnreachableCode = done ++ .emit i :: rest →
      ¬ Terminated Instr.isTerm ((run done Gen.start).code (run done Gen.start).cur)) ∧
    (∀ k, Blocks.Sealed Instr.isTerm ((codeGen f.eliminateUnreachableCode).code k)) ∧
    ∀ done b rest, codeGenOps f.eliminateUnreachableCode = done ++ .endBody b :: rest →
      (Terminated Instr.isTerm ((run done Gen.start).code (run done Gen.start).cur) ↔ endsInJump b = true) := by
  have hj : Body.JumpsLast f.eliminateUnreachableCode.body := eliminate_jumpsLast.2 _
  have hend := codeGen_sealed.2 _ hj Gen.Ready.start
  have hsafe : Along Safe (codeGenOps f.eliminateUnreachableCode) Gen.start := by
    refine (along_append _ _ _).mpr ⟨codeGenOps_safe.2 _ hj Gen.Ready.start, ?_, trivial⟩
    rw [codeGenBodyOps_run.2]
    exact hend.2
  rw [along_iff] at hsafe
  refine ⟨codeGenOps_run _, fun done i rest h => hsafe done _ rest h, hend.1, fun done b rest h => ?_⟩
  have := hsafe done _ rest h
  simp only [EmitOp.Safe, Gen.Open] at this
  rw [← not_iff_not, this, Bool.not_eq_true]

end DGen
