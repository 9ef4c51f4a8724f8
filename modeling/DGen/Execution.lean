/-
Tests as they are executed (`DGen::generate_json`): the emitted function is
called, it calls `gather_res` where it returns, and everything is reset.

The parts of statements are executed by the generator's own state (`machine`),
the solver being asked where a condition has a precondition. What holds of
all sequences of operations then holds of the runs of the code, and a test
that a call gathers is an example of the program (`tests_are_examples`).
-/
import DGen.Gathering
import DGen.Lowering

namespace DGen

open Memory StateT Blocks

/-! ## The parts of statements -/

/-- What comes from outside, whenever it is asked for: the solver's answer,
and the order a map is walked in. -/
structure Outside where
  check : World → List ZExpr → CheckResult
  walk : World → Walk

/-- The fields of a test: the inputs' names and texts, and the text of the result. -/
abbrev Fields := List (String × String) × String

/-- A part for which no code could be generated is never executed. -/
def ofGen {α : Type} : Except GenFault α → M α
  | .ok a => return a
  | .error (.thrown e) => fault (.build e)
  | .error (.assertion _) => fault .assertion

def execStores : List LStore → M Unit
  | [] => return ()
  | st :: sts => do
    st.exec
    execStores sts

def execDef (n : DefNode Symbol) : M Unit := do
  execAlloca n.sym (← ofGen (mapTypeToLlvmType n.sym.type.toTy))
  execStores (← ofGen (codeGenDefStore n))

def execAsg (n : AsgNode Symbol) : M Unit := do
  execStores (← ofGen (codeGenAsgStore n))

/-- A branch takes an `i1`. -/
def execCond (cond : Expr Symbol) : M Bool := do
  match ← (← ofGen (codeGenExpr cond)).eval with
  | .int1 b => return b
  | _ => fault .undefined

def execRet (retType : DeclTy) (n : ReturnNode Symbol) : M Fields := do
  match ← ofGen (codeGenRetStore retType n) with
  | [st] => execReturn retType st
  | _ => fault .undefined

/-- The calls for a precondition. Without an `Outside` there are none: the
program is executed as if it had no preconditions. -/
def execPrecond (outside : Option Outside) (cond : Expr Symbol) (precond : PrecondNode Symbol) : M Unit :=
  match outside with
  | none => return ()
  | some o => do
    execAll (← ofGen (prepareEvalCtx cond precond))
    let w ← get
    startZ3Gen (o.check w) (o.walk w) cond precond

/-- Statements on the generator's state. -/
def machine (outside : Option Outside) (retType : DeclTy) : Sem World Fields where
  def_ n w := (execDef n w).toOption.map (·.2)
  asg n w := (execAsg n w).toOption.map (·.2)
  z3Gen cond precond w := (execPrecond outside cond precond w).toOption.map (·.2)
  cond cond w := (execCond cond w).toOption
  ret n w := (execRet retType n w).toOption

/-! ## Calls, resets, sessions -/

/-- The state before the first test: the module is loaded, with its literals. -/
def World.load (env : Env) (g : FunctionNode Symbol) (inputs : List Symbol) : World :=
  .start { env with literals := g.literals } inputs

/-- The state in which a call of the function begins: it has no locals yet. -/
def World.called (w : World) : World := { w with frame := fun _ => none }

/-- A call of `d_gen_func`, with what it does. -/
def Call (outside : Option Outside) (g : FunctionNode Symbol) (w : World) (es : List (Event Fields)) (w' : World) :
    Prop :=
  Blocks.Reaches (machine outside g.retType).isa (codeGen g).code (.run 0 0 w.called) es (.done w')

/-- The memory without what the table marks as allocated. -/
def freed (table : List (Ptr × AllocData)) (mem : Mem) : Mem := fun b =>
  if table.any (fun item => item.2.isAlloc && item.1.block == b) then none else mem b

/-- `DGen::reset`. -/
def resetWorld : M Unit := do
  modify fun w => { w with mem := freed w.allocatedVals w.mem, allocatedVals := [] }
  resetVals (← get).inputs

/-- `tests.push_back`: the text of what was gathered. -/
def testText (name : String) (t : Fields) : String :=
  let inputs := t.1.map fun field => "\t\t\"" ++ field.1 ++ "\": " ++ field.2 ++ ",\n"
  "\x7b\n" ++ String.join inputs ++ "\t\t\"" ++ name ++ "\": " ++ t.2 ++ "\n\t\x7d"

/-- The loop of `generate_json`, with what its calls gather. -/
inductive Session (outside : Option Outside) (g : FunctionNode Symbol) : World → List Fields → World → Prop
  | done (w : World) : Session outside g w [] w
  | test {w w₁ w₂ w' : World} {es : List (Event Fields)} {ts : List Fields} (hcall : Call outside g w es w₁)
    (hreset : resetWorld w₁ = .ok ((), w₂)) (hrest : Session outside g w₂ ts w') :
    Session outside g w ((gathered es).map (·.2) ++ ts) w'

end DGen
