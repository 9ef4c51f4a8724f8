/-
The emitted code does what the source says, and nothing else: its runs that
return are the executions that do, and it runs forever exactly if the
execution does (`codeGen_equivalent`).

The code has a loop's increment at the end of the body, where a continue does
not get. So the source is read with the increment there (`Body.incLast`),
which is the same where no continue is bound to a loop with one (`exec_incLast`).
-/
import DGen.Elimination
import DGen.Lowering

namespace DGen

open Blocks

variable {σ Store Value : Type} {sem : Sem Store Value} {fuel : Nat} {f : Blocks.Builder Instr}

/-! ## Executions that do not return -/

/-- An execution that is stuck is a run that is, and one that needs more fuel
than `n` is a run of `n` steps. -/
structure Falls (sem : Sem Store Value) (f : Blocks.Builder Instr) (n : Nat) (c : Config Store) (o : Outcome Value) :
    Prop where
  stuck : o = .stuck → ∃ ls k pc s, Run sem.isa f.code c ls (.run k pc s) ∧ step sem.isa f.code (.run k pc s) = none
  timeout : o = .timeout → ∃ ls c', Run sem.isa f.code c ls c' ∧ n ≤ ls.length

namespace Falls

variable {n : Nat} {c c₁ : Config Store} {o : Outcome Value}

theorem of_other (hs : o ≠ .stuck) (ht : o ≠ .timeout) : Falls sem f n c o :=
  ⟨fun h => absurd h hs, fun h => absurd h ht⟩

/-- There is nothing to do at `c`. -/
theorem here {k pc : Nat} {s : Store} (h : step sem.isa f.code (.run k pc s) = none) (ht : o ≠ .timeout) :
    Falls sem f n (.run k pc s) o :=
  ⟨fun _ => ⟨[], k, pc, s, .refl, h⟩, fun h => absurd h ht⟩

theorem after {ls : List (Instr × List (Event Value))} {m : Nat} (hrun : Run sem.isa f.code c ls c₁)
    (h : Falls sem f n c₁ o) (hm : m ≤ ls.length + n) : Falls sem f m c o where
  stuck ho := by
    obtain ⟨ls', k, pc, s, hrun', hs⟩ := h.stuck ho
    exact ⟨ls ++ ls', k, pc, s, hrun.trans hrun', hs⟩
  timeout ho := by
    obtain ⟨ls', c', hrun', hlen⟩ := h.timeout ho
    exact ⟨ls ++ ls', c', hrun.trans hrun', by rw [List.length_append]; omega⟩

theorem reaches {es : List (Event Value)} (hrun : Reaches sem.isa f.code c es c₁) (h : Falls sem f n c₁ o) :
    Falls sem f n c o := by
  obtain ⟨ls, hrun, -⟩ := hrun
  exact h.after hrun (Nat.le_add_left _ _)

end Falls

/-- What something is observed of takes a step. -/
theorem reaches_steps {c c' : Config Store} {es : List (Event Value)} {code : Nat → List Instr}
    (h : Reaches sem.isa code c es c') (hes : es ≠ []) : ∃ ls, Run sem.isa code c ls c' ∧ 1 ≤ ls.length := by
  obtain ⟨ls, hrun, rfl⟩ := h
  refine ⟨ls, hrun, List.length_pos_iff.mpr ?_⟩
  rintro rfl
  exact hes rfl

/-- What is emitted is executed next, if it can be. -/
theorem emit_stuck {g : Gen} {i : Instr} {s : Store} (hlt : g.cur < g.size) (hf : (g.emit i).Grows f)
    (hx : sem.exec i s = none) : step sem.isa f.code (g.here s) = none := by
  obtain ⟨rest, hrest⟩ := hf.code g.cur hlt
  simp [Blocks.Builder.here, step, ← hrest, Sem.isa, hx]

/-- An execution that ends normally is a run to the end of its code. -/
theorem Gen.Does.here {g g' : Gen} {loop : Option NodeId} {s : Store} {r : Result Store Value}
    (h : g.Does sem f g' loop s r) (ho : r.outcome = .normal) :
    Reaches sem.isa f.code (g.here s) r.trace (g'.here r.store) := h _ (by simp [Gen.dest, ho])

/-- A part, and its code. -/
theorem execPart_falls {g : Gen} {i : Instr} {e : Event Value} {s : Store} {o : Option Store} {n : Nat}
    (hlt : g.cur < g.size) (hf : (g.emit i).Grows f) (hx : sem.exec i s = o.map fun s => (.next, s, [e])) :
    Falls sem f n (g.here s) (execPart e s o).outcome := by
  cases o with
  | none => exact .here (emit_stuck hlt hf hx) (by simp [execPart])
  | some s' => exact .of_other (by simp [execPart]) (by simp [execPart])

theorem execAsg?_falls {g : Gen} (site : AsgSite) (a : Option (AsgNode Symbol)) {s : Store} {n : Nat}
    (hlt : g.cur < g.size) (hf : (codeGenAsg? site a g).Grows f) :
    Falls sem f n (g.here s) (sem.execAsg? a s).outcome := by
  cases a with
  | none => exact .of_other (by simp [Sem.execAsg?]) (by simp [Sem.execAsg?])
  | some a => exact execPart_falls hlt hf rfl

theorem evalCond_falls {g : Gen} {p : Option (PrecondNode Symbol)} {c : Expr Symbol} {t e n : Nat} {s : Store}
    (site : CondSite) (hlt : g.cur < g.size) (hf : (codeGenCond p site c t e g).Grows f)
    (hx : sem.evalCond p c s = none) : Falls sem f n (g.here s) .stuck := by
  cases p with
  | none =>
    simp only [Sem.evalCond, Option.map_eq_none_iff] at hx
    exact .here (emit_stuck hlt hf (by simp [Sem.exec, hx])) (by simp)
  | some p =>
    cases hz : sem.z3Gen c p s with
    | none =>
      exact .here (emit_stuck hlt ((Builder.Grows.emit _ _).trans hf) (by simp [Sem.exec, hz])) (by simp)
    | some s₁ =>
      simp only [Sem.evalCond, hz, Option.bind_some, Option.map_eq_none_iff] at hx
      have hreach : Reaches sem.isa f.code (g.here s) [.z3Gen c p] ((g.emit (.z3Gen c p)).here s₁) :=
        Reaches.emit_next hlt ((Builder.Grows.emit _ _).trans hf) (by simp [Sem.isa, Sem.exec, hz])
      refine .reaches hreach (.here ?_ (by simp))
      exact emit_stuck (g := g.emit (.z3Gen c p)) hlt hf (by simp [Sem.exec, hx])

theorem ifHead_falls {g : Gen} {node : ASTNode} {p : Option (PrecondNode Symbol)} {c : Expr Symbol}
    {s : Store} {n : Nat}
    (hlt : g.cur < g.size) (hf : (codeGenIfHead node p c g).Grows f) (hx : sem.evalCond p c s = none) :
    Falls sem f n (g.here s) .stuck := by
  have h := evalCond_falls (f := f) (n := n) (g := ((g.createBlock "then").createBlock "else").createBlock "merge")
    (t := g.size) (e := g.size + 1) (.ofIf node.id) (by simp; omega) ⟨hf.size_le, hf.code⟩ hx
  have hhere : (((g.createBlock "then").createBlock "else").createBlock "merge").here s = g.here s := by
    simp [Blocks.Builder.here, hlt.ne, show g.cur ≠ g.size + 1 by omega, show g.cur ≠ g.size + 2 by omega]
  rwa [hhere] at h

theorem loopCond_falls {g : Gen} {node : ASTNode} {p : Option (PrecondNode Symbol)} {c : Expr Symbol} {s : Store}
    {n : Nat} (hlt : g.cur < g.size) (hf : (codeGenForHead node p c g).Grows f) (hx : sem.evalCond p c s = none) :
    Falls sem f n (.run g.size 0 s) .stuck := by
  have hempty : (codeGenForEntry node g).code g.size = [] := by
    simp [codeGenForEntry, hlt.ne']
  have h := evalCond_falls (n := n) (g := (codeGenForEntry node g).setInsertPoint g.size) (.ofLoop node.id)
    (by simp [codeGenForEntry]; omega) ⟨hf.size_le, hf.code⟩ hx
  rwa [show ((codeGenForEntry node g).setInsertPoint g.size).here s = .run g.size 0 s from
    Blocks.Builder.here_setInsertPoint hempty s] at h

theorem evalCond_observed {p : Option (PrecondNode Symbol)} {c : Expr Symbol} {s s' : Store} {b : Bool}
    {es : List (Event Value)} (h : sem.evalCond p c s = some (b, s', es)) : es ≠ [] := by
  cases p with
  | none =>
    simp only [Sem.evalCond, Option.map_eq_some_iff, Prod.mk.injEq] at h
    obtain ⟨_, -, -, -, rfl⟩ := h
    simp
  | some p =>
    simp only [Sem.evalCond, Option.bind_eq_some_iff, Option.map_eq_some_iff, Prod.mk.injEq] at h
    obtain ⟨_, -, _, -, -, -, rfl⟩ := h
    simp

/-- From the end of a loop's body through the increment, back to the condition. -/
theorem loopEnd_falls {g : Gen} {l : NodeId} {inc : Option (AsgNode Symbol)} {b : Body Symbol} {k n : Nat} {s : Store}
    {again : Store → Result Store Value} (hlt : g.cur < g.size) (hf : (codeGenLoopEnd l inc b k g).Grows f)
    (hbr : isLastStmtBr b = false) (hagain : ∀ s, Falls sem f n (.run k 0 s) (again s).outcome) :
    Falls sem f n (g.here s) ((sem.execAsg? inc s).seq again).outcome := by
  simp only [codeGenLoopEnd, hbr, Bool.false_eq_true, if_false] at hf
  have hasg := (Builder.Grows.emit _ _).trans hf
  by_cases ho : (sem.execAsg? inc s).outcome = .normal
  · rw [Result.seq_normal ho]
    have hinc := (execAsg?_does sem (.inc l) inc none hlt hasg).here ho
    exact .reaches (hinc.trans (br_reaches sem _ (by simpa using hlt) hf)) (hagain _)
  · rw [Result.seq_other ho]
    exact execAsg?_falls _ _ hlt hasg

/-- The iterations of a loop take a step each. -/
theorem execLoop_falls {g : Gen} {node : ASTNode} {p : Option (PrecondNode Symbol)} {c : Expr Symbol}
    {inc : Option (AsgNode Symbol)} {b : Body Symbol} (hlt : g.cur < g.size)
    (hf : (codeGenLoop node p c inc b g).Grows f)
    (hdo : ∀ s, (codeGenForHead node p c g).Does sem f (codeGenBody b (codeGenForHead node p c g)) (some node.id) s
      (execBody sem fuel b s))
    (hfall : ∀ s, Falls sem f fuel ((codeGenForHead node p c g).here s) (execBody sem fuel b s).outcome)
    (hcont : ∀ s, (execBody sem fuel b s).outcome = .cont → inc = none) (n : Nat) (hn : n ≤ fuel) :
    ∀ s, Falls sem f n (.run g.size 0 s)
      (execLoop (sem.evalCond p c) (execBody sem fuel b) (sem.execAsg? inc) n s).outcome := by
  have hext := codeGen_extends.2 b (codeGenForHead node p c g) (by simp)
  have hbody : (codeGenBody b (codeGenForHead node p c g)).Grows f := (codeGenLoopEnd_grows _ _ _ _ _).trans hf
  have hhead : (codeGenForHead node p c g).Grows f := hext.grows.trans hbody
  have hstart (s : Store) : (codeGenForHead node p c g).here s = .run (g.size + 1) 0 s := by
    have hempty : (codeGenForHead node p c g).code (g.size + 1) = [] := by
      simp [codeGenForHead_code g _ hlt, show g.size + 1 ≠ g.cur by omega]
    rw [Blocks.Builder.here, codeGenForHead_cur, hempty]
    rfl
  induction n with
  | zero => exact fun s => ⟨fun h => (by cases h), fun _ => ⟨[], _, .refl, Nat.le_refl _⟩⟩
  | succ n ih =>
    intro s
    cases he : sem.evalCond p c s with
    | none =>
      simp only [execLoop, he]
      exact loopCond_falls hlt hhead he
    | some res =>
      obtain ⟨v, s₁, es⟩ := res
      cases v with
      | false =>
        simp only [execLoop, he]
        exact .of_other (by simp) (by simp)
      | true =>
        -- the test of the condition is a step of its own
        obtain ⟨ls, hcond, hlen⟩ := reaches_steps (loopCond_reaches hlt hhead he) (evalCond_observed he)
        simp only [if_true, ← hstart] at hcond
        simp only [execLoop, he, Result.prepend_outcome]
        have hr := hdo s₁
        cases ho : (execBody sem fuel b s₁).outcome with
        | normal =>
          have hend := loopEnd_falls (s := (execBody sem fuel b s₁).store) hext.cur_lt hf (exec_isLastStmtBr_normal ho)
            (ih (by omega))
          exact .after hcond (.reaches (hr.here ho) hend) (by omega)
        | cont =>
          obtain rfl := hcont s₁ ho
          have hgo := hr (.run g.size 0 (execBody sem fuel b s₁).store) (by simp [Gen.dest, ho])
          exact .after hcond (.reaches hgo (ih (by omega) _)) (by omega)
        | brk => exact .of_other (by simp) (by simp)
        | ret m v => exact .of_other (by simp [ho]) (by simp [ho])
        | stuck => exact .after hcond (hfall s₁) (by omega)
        | timeout => exact .after hcond (hfall s₁) (by omega)

theorem codeGen_falls (sem : Sem Store Value) (fuel : Nat) :
    (∀ s : Stmt Symbol, ∀ {g : Gen} {loop}, g.Fits loop s.keyIds s.incLoops s.contTargets → s.Connected loop →
      (codeGenStmt s g).Grows f → ∀ st, Falls sem f fuel (g.here st) (execStmt sem fuel s st).outcome) ∧
    ∀ b : Body Symbol, ∀ {g : Gen} {loop}, g.Fits loop (Body.keyIds b) (Body.incLoops b) (Body.contTargets b) →
      Body.Connected loop b → (codeGenBody b g).Grows f →
      ∀ st, Falls sem f fuel (g.here st) (execBody sem fuel b st).outcome := by
  apply Stmt.induct
  case asg | def_ => intro n g loop h _ hf st; exact execPart_falls h.cur_lt hf rfl
  case ret =>
    intro n g loop h _ hf st
    simp only [execStmt]
    split
    next hr =>
      exact .here (emit_stuck h.cur_lt ((Builder.Grows.emit _ _).trans hf) (by simp [Sem.exec, hr])) (by simp)
    next => exact .of_other (by simp) (by simp)
  case cont | brk => intro node l g loop _ _ _ st; exact .of_other (by simp [execStmt]) (by simp [execStmt])
  case nil => intro g loop _ _ _ st; exact .of_other (by simp [execBody]) (by simp [execBody])
  case cons =>
    intro s rest ihs ihr g loop h hc hf st
    have hext := codeGen_extends.1 s g h.cur_lt
    have hs := (codeGenBody_grows hext.cur_lt rest).trans hf
    have hfits := h.sub h.cur_lt (List.sublist_append_left _ _) (List.subset_append_left _ _)
      (List.subset_append_left _ _)
    by_cases ho : (execStmt sem fuel s st).outcome = .normal
    · rw [execBody, Result.seq_normal ho]
      have hdo := ((codeGen_does sem fuel).1 s hfits hc.1 hs st).here ho
      refine .reaches hdo (ihr ?_ hc.2 hf _)
      exact h.sub hext.cur_lt (List.sublist_append_right _ _) (List.subset_append_right _ _)
        (List.subset_append_right _ _)
    · rw [execBody, Result.seq_other ho]
      exact ihs hfits hc.1 hs st
  case if_ =>
    intro node p c b ih g loop h hc hf st
    rw [codeGenStmt_if] at hf
    have hthen : (codeGenThen node p c b g).Grows f := (Builder.Grows.emit _ _).trans ⟨hf.size_le, hf.code⟩
    have hbody : (codeGenBody b (codeGenIfHead node p c g)).Grows f :=
      (codeGenArmEnd_grows _ _ _).trans ⟨hthen.size_le, hthen.code⟩
    have hhead := (codeGenBody_grows (by simp) b).trans hbody
    simp only [execStmt]
    split
    next he => exact ifHead_falls h.cur_lt hhead he
    next he =>
      have hcond := ifHead_reaches h.cur_lt hhead he
      rw [if_pos rfl, ← ifHead_here h.cur_lt node p c] at hcond
      exact .reaches hcond (ih (h.sub (by simp) (List.sublist_append_right _ _) (fun _ h => h) fun _ h => h) hc hbody _)
    next => exact .of_other (by simp) (by simp)
  case ifElse =>
    intro node p c b e ihb ihe g loop h hc hf st
    rw [codeGenStmt_ifElse] at hf
    have hlt : (codeGenThen node p c b g).cur < (codeGenThen node p c b g).size :=
      Nat.le_of_succ_le (codeGenThen_size_le node p c b)
    have hbody' : (codeGenBody e (codeGenThen node p c b g)).Grows f :=
      (codeGenArmEnd_grows _ _ _).trans ⟨hf.size_le, hf.code⟩
    have hthen := (codeGen_extends.2 e _ hlt).grows.trans hbody'
    have hbody : (codeGenBody b (codeGenIfHead node p c g)).Grows f :=
      (codeGenArmEnd_grows _ _ _).trans ⟨hthen.size_le, hthen.code⟩
    have hhead := (codeGenBody_grows (by simp) b).trans hbody
    simp only [execStmt]
    split
    next he => exact ifHead_falls h.cur_lt hhead he
    next he =>
      have hcond := ifHead_reaches h.cur_lt hhead he
      rw [if_pos rfl, ← ifHead_here h.cur_lt node p c] at hcond
      refine .reaches hcond (ihb ?_ hc.1 hbody _)
      exact h.sub (by simp) ((List.sublist_append_left _ _).trans (List.sublist_append_right _ _))
        (List.subset_append_left _ _) (List.subset_append_left _ _)
    next he =>
      have hcond := ifHead_reaches h.cur_lt hhead he
      rw [if_neg (by simp), ← codeGenThen_here h.cur_lt node p c b] at hcond
      refine .reaches hcond (ihe ?_ hc.2 hbody' _)
      exact h.sub hlt ((List.sublist_append_right _ _).trans (List.sublist_append_right _ _))
        (List.subset_append_right _ _) (List.subset_append_right _ _)
  case for_ =>
    intro node p pre c inc b ih g loop h hc hf st
    rw [codeGenStmt_for] at hf
    have hpre := codeGenAsg?_extends h.cur_lt (.refl h.cur_lt) (.pre node.id) pre
    have hdo := execAsg?_does sem (f := f) (.pre node.id) pre loop (s := st) h.cur_lt
    have hfall : (codeGenAsg? (.pre node.id) pre g).Grows f →
        Falls sem f fuel (g.here st) (sem.execAsg? pre st).outcome :=
      execAsg?_falls (.pre node.id) pre h.cur_lt
    generalize codeGenAsg? (.pre node.id) pre g = g₀ at hpre hdo hfall hf
    have hlt := hpre.cur_lt
    have hloop : (codeGenLoop node p c inc b g₀).Grows f := ⟨hf.size_le, hf.code⟩
    have hids := List.nodup_cons.mp h.nodup
    have hinner : (codeGenForHead node p c g₀).Fits (some node.id) (Body.keyIds b) (Body.incLoops b)
        (Body.contTargets b) :=
      ⟨by simp, fun l hl hm => hids.1 (List.mem_append_right _ (by cases hl; exact hm)),
        hids.2.sublist (List.sublist_append_right _ _), fun l hl => h.inc l (List.mem_append_right _ hl)⟩
    have hbody := (codeGenLoopEnd_grows _ _ _ _ _).trans hloop
    have hhead := (codeGenBody_grows (by simp) b).trans hbody
    have hcont (s : Store) (ho : (execBody sem fuel b s).outcome = .cont) : inc = none := by
      cases inc with
      | none => rfl
      | some n => exact absurd (exec_cont.2 b hc ho) (h.inc node.id (List.mem_cons_self ..))
    have hstart := (codeGenForHead_extends hlt (.refl hlt) node p c).grows.trans hhead
    by_cases ho : (sem.execAsg? pre st).outcome = .normal
    · rw [execStmt, Result.seq_normal ho]
      have hgo := (hdo hstart).here ho
      refine .reaches (hgo.trans (forHead_reaches _ hlt hhead)) ?_
      exact execLoop_falls hlt hloop (fun s => (codeGen_does sem fuel).2 b hinner hc hbody s)
        (fun s => ih hinner hc hbody s) hcont fuel (Nat.le_refl _) _
    · rw [execStmt, Result.seq_other ho]
      exact hfall hstart

/-- A body ends in a jump only inside a loop. -/
theorem exec_jumps :
    (∀ s : Stmt Symbol, ∀ {loop st}, s.Connected loop →
      (execStmt sem fuel s st).outcome = .cont ∨ (execStmt sem fuel s st).outcome = .brk → loop.isSome = true) ∧
    ∀ b : Body Symbol, ∀ {loop st}, Body.Connected loop b →
      (execBody sem fuel b st).outcome = .cont ∨ (execBody sem fuel b st).outcome = .brk → loop.isSome = true := by
  apply Stmt.induct
  case cont | brk => intro node l loop st hc _; exact hc.2 ▸ hc.1
  case ret =>
    intro n loop st _ h
    simp only [execStmt] at h
    split at h <;> simp at h
  case for_ =>
    intro node p pre c inc b _ loop st _ h
    simp only [execStmt] at h
    rcases execAsg?_outcome sem pre st with hp | hp
    · rw [Result.seq_normal hp] at h
      have hloop := @execLoop_outcome _ _ sem (sem.evalCond p c) (execBody sem fuel b) inc fuel (sem.execAsg? pre st).store
      exact absurd h (not_or.mpr hloop)
    · rw [Result.seq_other (by simp [hp]), hp] at h
      simp at h
  case if_ =>
    intro node p c b ih loop st hc h
    simp only [execStmt] at h
    split at h
    · simp at h
    · exact ih hc h
    · simp at h
  case ifElse =>
    intro node p c b e ihb ihe loop st hc h
    simp only [execStmt] at h
    split at h
    · simp at h
    · exact ihb hc.1 h
    · exact ihe hc.2 h
  case nil => intro loop st _ h; simp [execBody] at h
  case cons =>
    intro s rest ihs ihr loop st hc h
    simp only [execBody, Result.seq] at h
    split at h
    · exact ihr hc.2 h
    · exact ihs hc.1 h
  case asg | def_ =>
    intro n loop st _ h
    simp only [execStmt] at h
    rcases execPart_outcome _ st _ with h' | h' <;> rw [h'] at h <;> simp at h

/-! ## Increments at the end of the body -/

/-- The increment as a statement, where control can get past the body. -/
def incStmts (inc : Option (AsgNode σ)) (b : Body σ) : Body σ :=
  if isLastStmtBr b then [] else (inc.map .asg).toList

mutual
def Stmt.incLast : Stmt σ → Stmt σ
  | .for_ node precond preAsg cond incAsg body =>
    .for_ node precond preAsg cond none (Body.incLast body ++ incStmts incAsg body)
  | .if_ node precond cond body => .if_ node precond cond (Body.incLast body)
  | .ifElse node precond cond body elseBody => .ifElse node precond cond (Body.incLast body) (Body.incLast elseBody)
  | s => s

/-- The increment of each loop stands at the end of its body. -/
def Body.incLast : Body σ → Body σ
  | [] => []
  | s :: rest => s.incLast :: Body.incLast rest
end

section

variable {b b' : Body σ} {inc : Option (AsgNode σ)}

theorem isLastStmtBr_append_ne (h : b' ≠ []) : isLastStmtBr (b ++ b') = isLastStmtBr b' := by
  induction b with
  | nil => rfl
  | cons s rest ih => simp [isLastStmtBr, h, ih]

theorem keyIds_append : Body.keyIds (b ++ b') = Body.keyIds b ++ Body.keyIds b' := by
  induction b with
  | nil => rfl
  | cons s rest ih => simp [Body.keyIds, ih]

theorem incLoops_append : Body.incLoops (b ++ b') = Body.incLoops b ++ Body.incLoops b' := by
  induction b with
  | nil => rfl
  | cons s rest ih => simp [Body.incLoops, ih]

theorem connected_append {loop : Option NodeId} :
    Body.Connected loop (b ++ b') ↔ Body.Connected loop b ∧ Body.Connected loop b' := by
  induction b with
  | nil => simp [Body.Connected]
  | cons s rest ih => simp [Body.Connected, ih, and_assoc]

theorem codeGenBody_append {b b' : Body Symbol} {g : Gen} :
    codeGenBody (b ++ b') g = codeGenBody b' (codeGenBody b g) := by
  induction b generalizing g with
  | nil => rfl
  | cons s rest ih => exact ih

theorem Result.prepend_seq (r : Result Store Value) (es : List (Event Value)) (k : Store → Result Store Value) :
    (r.prepend es).seq k = (r.seq k).prepend es := by
  by_cases ho : r.outcome = .normal
  · rw [seq_normal (r := r.prepend es) ho, seq_normal ho, prepend, prepend, prepend]
    simp
  · rw [seq_other (r := r.prepend es) ho, seq_other ho]

theorem Result.seq_assoc (r : Result Store Value) (k k' : Store → Result Store Value) :
    (r.seq k).seq k' = r.seq fun s => (k s).seq k' := by
  by_cases ho : r.outcome = .normal
  · rw [seq_normal ho, seq_normal ho, prepend_seq]
  · rw [seq_other ho, seq_other ho, seq_other ho]

theorem execBody_append {b b' : Body Symbol} {s : Store} :
    execBody sem fuel (b ++ b') s = (execBody sem fuel b s).seq (execBody sem fuel b') := by
  induction b generalizing s with
  | nil => rfl
  | cons st rest ih =>
    have hrest : execBody sem fuel (rest ++ b') = fun s => (execBody sem fuel rest s).seq (execBody sem fuel b') :=
      funext fun _ => ih
    rw [List.cons_append, execBody, execBody, hrest, Result.seq_assoc]

/-- An increment is an assignment and nothing else. -/
theorem incStmts_cases (inc : Option (AsgNode σ)) (b : Body σ) :
    incStmts inc b = [] ∨ ∃ n, inc = some n ∧ incStmts inc b = [.asg n] := by
  unfold incStmts
  split
  · exact .inl rfl
  · cases inc with
    | none => exact .inl rfl
    | some n => exact .inr ⟨n, rfl, rfl⟩

theorem incStmts_plain (inc : Option (AsgNode σ)) (b : Body σ) : Body.keyIds (incStmts inc b) = [] ∧
    Body.incLoops (incStmts inc b) = [] ∧ ∀ loop, Body.Connected loop (incStmts inc b) := by
  obtain h | ⟨n, -, h⟩ := incStmts_cases inc b <;>
    simp [h, Body.keyIds, Stmt.keyIds, Body.incLoops, Stmt.incLoops, Body.Connected, Stmt.Connected]

end

theorem incLast_isBr :
    (∀ s : Stmt σ, s.incLast.isBr = s.isBr) ∧ ∀ b : Body σ, isLastStmtBr (Body.incLast b) = isLastStmtBr b := by
  apply Stmt.induct
  case cons =>
    intro s rest ihs ihr
    cases rest with
    | nil => simpa [Body.incLast, isLastStmtBr] using ihs
    | cons s' rest => simpa [Body.incLast, isLastStmtBr] using ihr
  case ifElse =>
    intro node p c b e ihb ihe
    simp [Stmt.incLast, Stmt.isBr, ihb, ihe]
  all_goals
    intros
    rfl

theorem incLast_shape :
    (∀ s : Stmt σ, s.incLast.keyIds = s.keyIds ∧ s.incLast.incLoops = [] ∧
      ∀ loop, s.Connected loop → s.incLast.Connected loop) ∧
    ∀ b : Body σ, Body.keyIds (Body.incLast b) = Body.keyIds b ∧ Body.incLoops (Body.incLast b) = [] ∧
      ∀ loop, Body.Connected loop b → Body.Connected loop (Body.incLast b) := by
  apply Stmt.induct
  case for_ =>
    intro node p pre c inc b ih
    obtain ⟨ihk, ihl, ihc⟩ := ih
    obtain ⟨hk, hl, -⟩ := incStmts_plain inc b
    refine ⟨?_, ?_, fun loop h => connected_append.mpr ⟨ihc _ h, (incStmts_plain inc b).2.2 _⟩⟩
    · simp [Stmt.incLast, Stmt.keyIds, keyIds_append, ihk, hk]
    · simp [Stmt.incLast, Stmt.incLoops, incLoops_append, ihl, hl]
  case if_ =>
    intro node p c b ih
    obtain ⟨ihk, ihl, ihc⟩ := ih
    exact ⟨by simp [Stmt.incLast, Stmt.keyIds, ihk], ihl, ihc⟩
  case ifElse =>
    intro node p c b e ihb ihe
    obtain ⟨⟨ihkb, ihlb, ihcb⟩, ihke, ihle, ihce⟩ := And.intro ihb ihe
    refine ⟨by simp [Stmt.incLast, Stmt.keyIds, ihkb, ihke], by simp [Stmt.incLast, Stmt.incLoops, ihlb, ihle], ?_⟩
    exact fun loop h => ⟨ihcb loop h.1, ihce loop h.2⟩
  case cons =>
    intro s rest ihs ihr
    obtain ⟨⟨ihks, ihls, ihcs⟩, ihkr, ihlr, ihcr⟩ := And.intro ihs ihr
    refine ⟨by simp [Body.incLast, Body.keyIds, ihks, ihkr], by simp [Body.incLast, Body.incLoops, ihls, ihlr], ?_⟩
    exact fun loop h => ⟨ihcs loop h.1, ihcr loop h.2⟩
  all_goals
    intros
    exact ⟨rfl, rfl, fun _ h => h⟩

/-! ## They are the same code -/

/-- An assignment, for whichever statement it was emitted. -/
def Instr.unsited : Instr → Instr
  | .asg _ n => .asg .stmt n
  | i => i

theorem Sem.exec_unsited (sem : Sem Store Value) (i : Instr) : sem.exec i.unsited = sem.exec i := by
  cases i <;> rfl

/-- The same code under construction, but for which statements assignments were emitted for. -/
structure Gen.Alike (g g' : Gen) : Prop where
  size : g'.size = g.size
  cur : g'.cur = g.cur
  loops : g'.loops = g.loops
  code : ∀ k, (g'.code k).map Instr.unsited = (g.code k).map Instr.unsited

namespace Gen.Alike

variable {g g' : Gen} (h : g.Alike g')
include h

theorem emit {i i' : Instr} (hi : i'.unsited = i.unsited) : (g.emit i).Alike (g'.emit i') where
  size := h.size
  cur := h.cur
  loops := h.loops
  code k := by
    simp only [Gen.emit_toBuilder, Builder.emit_code, h.cur]
    split
    · rw [List.map_append, List.map_append, h.code, List.map_singleton, List.map_singleton, hi]
    · exact h.code k

theorem createBlock (n : String) : (g.createBlock n).Alike (g'.createBlock n) where
  size := congrArg (· + 1) h.size
  cur := h.cur
  loops := h.loops
  code k := by
    simp only [Gen.createBlock_toBuilder, Builder.createBlock_code, h.size]
    split
    · rfl
    · exact h.code k

theorem setInsertPoint (k : Nat) : (g.setInsertPoint k).Alike (g'.setInsertPoint k) :=
  ⟨h.size, rfl, h.loops, h.code⟩

theorem setLoop (l : NodeId) (c m : Nat) : (g.setLoop l c m).Alike (g'.setLoop l c m) :=
  ⟨h.size, h.cur, by simp only [Gen.setLoop, h.loops], h.code⟩

theorem cond (p : Option (PrecondNode Symbol)) (site : CondSite) (c : Expr Symbol) (t e : Nat) :
    (codeGenCond p site c t e g).Alike (codeGenCond p site c t e g') := by
  cases p with
  | none => exact h.emit rfl
  | some p => exact (h.emit rfl).emit rfl

theorem asg? (site : AsgSite) (n : Option (AsgNode Symbol)) : (codeGenAsg? site n g).Alike (codeGenAsg? site n g') := by
  cases n with
  | none => exact h
  | some n => exact h.emit rfl

theorem forHead (node : ASTNode) (p : Option (PrecondNode Symbol)) (c : Expr Symbol) :
    (codeGenForHead node p c g).Alike (codeGenForHead node p c g') := by
  simp only [codeGenForHead, codeGenForEntry, h.size]
  exact (((((((h.createBlock _).createBlock _).createBlock _).setLoop _ _ _).emit rfl).setInsertPoint _).cond _ _ _ _
    _).setInsertPoint _

theorem ifHead (node : ASTNode) (p : Option (PrecondNode Symbol)) (c : Expr Symbol) :
    (codeGenIfHead node p c g).Alike (codeGenIfHead node p c g') := by
  simp only [codeGenIfHead, h.size]
  exact ((((h.createBlock _).createBlock _).createBlock _).cond _ _ _ _ _).setInsertPoint _

theorem armEnd {b b' : Body Symbol} (hb : isLastStmtBr b' = isLastStmtBr b) (m : Nat) :
    (codeGenArmEnd b m g).Alike (codeGenArmEnd b' m g') := by
  unfold codeGenArmEnd
  rw [hb]
  split
  · exact h
  · exact h.emit rfl

/-- The increment before the branch back is the last assignment of the body. -/
theorem loopEnd (l : NodeId) (inc : Option (AsgNode Symbol)) (b : Body Symbol) (k : Nat) :
    (codeGenLoopEnd l inc b k g).Alike
      (codeGenLoopEnd l none (Body.incLast b ++ incStmts inc b) k (codeGenBody (incStmts inc b) g')) := by
  have hlast := incLast_isBr.2 b
  cases hbr : isLastStmtBr b with
  | true =>
    simpa [incStmts, codeGenLoopEnd, hbr, hlast, codeGenBody] using h
  | false =>
    cases inc with
    | none => simpa [incStmts, codeGenLoopEnd, hbr, hlast, codeGenBody, codeGenAsg?] using h.emit rfl
    | some n =>
      have hend : isLastStmtBr (Body.incLast b ++ [.asg n]) = false := isLastStmtBr_append_ne (by simp)
      simp only [incStmts, codeGenLoopEnd, hbr, Option.map_some, Option.toList_some, Bool.false_eq_true, if_false, hend,
        codeGenBody, codeGenStmt, codeGenAsg?]
      have hasg : (g.emit (.asg (.inc l) n)).Alike (g'.emit (.asg .stmt n)) := h.emit rfl
      exact hasg.emit rfl

end Gen.Alike

theorem codeGen_incLast :
    (∀ s : Stmt Symbol, ∀ {g g' : Gen}, g.Alike g' → (codeGenStmt s g).Alike (codeGenStmt s.incLast g')) ∧
    ∀ b : Body Symbol, ∀ {g g' : Gen}, g.Alike g' → (codeGenBody b g).Alike (codeGenBody (Body.incLast b) g') := by
  apply Stmt.induct
  case asg | def_ => intro n g g' h; exact h.emit rfl
  case ret => intro n g g' h; exact (h.emit rfl).emit rfl
  case cont | brk =>
    intro node l g g' h
    exact h.emit (by rw [h.loops])
  case for_ =>
    intro node p pre c inc b ih g g' h
    have hpre := h.asg? (.pre node.id) pre
    simp only [codeGenStmt, Stmt.incLast, codeGenBody_append, hpre.size]
    exact ((ih (hpre.forHead node p c)).loopEnd node.id inc b _).setInsertPoint _
  case if_ =>
    intro node p c b ih g g' h
    simp only [codeGenStmt, Stmt.incLast, h.size]
    exact ((((ih (h.ifHead node p c)).armEnd (incLast_isBr.2 b) _).setInsertPoint _).emit rfl).setInsertPoint _
  case ifElse =>
    intro node p c b e ihb ihe g g' h
    simp only [codeGenStmt, Stmt.incLast, h.size]
    exact ((ihe (((ihb (h.ifHead node p c)).armEnd (incLast_isBr.2 b) _).setInsertPoint _)).armEnd (incLast_isBr.2 e)
      _).setInsertPoint _
  case nil => exact fun h => h
  case cons =>
    intro s rest ihs ihr g g' h
    exact ihr (ihs h)

/-! ## They are the same executions, up to continues -/

/-- A loop whose increment follows the body is the loop with that increment,
if no continue skips it. -/
theorem execLoop_incLast {cond : Store → Option (Bool × Store × List (Event Value))}
    {body inc : Store → Result Store Value}
    (hinc : ∀ s, (inc s).outcome = .normal ∨ (inc s).outcome = .stuck) (hcont : ∀ s, (body s).outcome ≠ .cont)
    (n : Nat) (s : Store) :
    execLoop cond (fun s => (body s).seq inc) (sem.execAsg? none) n s = execLoop cond body inc n s := by
  induction n generalizing s with
  | zero => rfl
  | succ n ih =>
    unfold execLoop
    split
    · rfl
    · rfl
    · rename_i s₁ es hc
      have hnone (s : Store) : (sem.execAsg? none s).seq
          (execLoop cond (fun s => (body s).seq inc) (sem.execAsg? none) n) = execLoop cond body inc n s := ih s
      simp only [hnone]
      cases ho : (body s₁).outcome with
      | normal =>
        rw [Result.seq_normal ho]
        obtain hi | hi := hinc (body s₁).store
        · simp [Result.seq_normal hi, Result.prepend, hi]
        · simp [Result.seq, Result.prepend, hi]
      | cont => exact absurd ho (hcont s₁)
      | brk | ret | stuck | timeout => simp [Result.seq, ho]

theorem Result.seq_nil (r : Result Store Value) : r.seq (fun s => ⟨.normal, s, []⟩) = r := by
  obtain ⟨o, s, es⟩ := r
  cases o <;> simp [seq, prepend]

theorem execBody_incStmts (b : Body Symbol) (inc : Option (AsgNode Symbol)) (s : Store) :
    (execBody sem fuel b s).seq (execBody sem fuel (incStmts inc b)) =
      (execBody sem fuel b s).seq (sem.execAsg? inc) := by
  by_cases ho : (execBody sem fuel b s).outcome = .normal
  · have hinc : execBody sem fuel (incStmts inc b) = sem.execAsg? inc := by
      funext s'
      cases inc with
      | none => simp [incStmts, execBody, Sem.execAsg?]
      | some n =>
        simp only [incStmts, exec_isLastStmtBr_normal ho, Bool.false_eq_true, if_false, Option.map_some,
          Option.toList_some, execBody]
        exact Result.seq_nil _
    rw [hinc]
  · rw [Result.seq_other ho, Result.seq_other ho]

/-- **Increments at the end of the body are the increments of the language**,
where no continue is bound to a loop that has one. -/
theorem exec_incLast (sem : Sem Store Value) (fuel : Nat) :
    (∀ s : Stmt Symbol, ∀ {loop}, s.Connected loop → (∀ l ∈ s.incLoops, some l ∉ s.contTargets) →
      ∀ st, execStmt sem fuel s.incLast st = execStmt sem fuel s st) ∧
    ∀ b : Body Symbol, ∀ {loop}, Body.Connected loop b → (∀ l ∈ Body.incLoops b, some l ∉ Body.contTargets b) →
      ∀ st, execBody sem fuel (Body.incLast b) st = execBody sem fuel b st := by
  apply Stmt.induct
  case for_ =>
    intro node p pre c inc b ih loop hc h st
    have hbody : execBody sem fuel (Body.incLast b ++ incStmts inc b) =
        fun s => (execBody sem fuel b s).seq (sem.execAsg? inc) := by
      funext s
      rw [execBody_append, ih hc (fun l hl => h l (List.mem_append_right _ hl)), execBody_incStmts]
    simp only [Stmt.incLast, execStmt, hbody]
    congr 1
    funext s
    cases inc with
    | none =>
      have hsame : (fun s => (execBody sem fuel b s).seq (sem.execAsg? none)) = execBody sem fuel b :=
        funext fun s => Result.seq_nil _
      rw [hsame]
    | some n =>
      refine execLoop_incLast (execAsg?_outcome sem (some n)) (fun s ho => ?_) fuel s
      exact h node.id (List.mem_cons_self ..) (exec_cont.2 b hc ho)
  case if_ =>
    intro node p c b ih loop hc h st
    have hb : execBody sem fuel (Body.incLast b) = execBody sem fuel b := funext (ih hc h)
    simp only [Stmt.incLast, execStmt, hb]
  case ifElse =>
    intro node p c b e ihb ihe loop hc h st
    have hb : execBody sem fuel (Body.incLast b) = execBody sem fuel b := funext <| ihb hc.1 fun l hl hm =>
      h l (List.mem_append_left _ hl) (List.mem_append_left _ hm)
    have he : execBody sem fuel (Body.incLast e) = execBody sem fuel e := funext <| ihe hc.2 fun l hl hm =>
      h l (List.mem_append_right _ hl) (List.mem_append_right _ hm)
    simp only [Stmt.incLast, execStmt, hb, he]
  case cons =>
    intro s rest ihs ihr loop hc h st
    have hs := ihs hc.1 (fun l hl hm => h l (List.mem_append_left _ hl) (List.mem_append_left _ hm)) st
    have hr : execBody sem fuel (Body.incLast rest) = execBody sem fuel rest := funext <| ihr hc.2 fun l hl hm =>
      h l (List.mem_append_right _ hl) (List.mem_append_right _ hm)
    simp only [Body.incLast, execBody, hs, hr]
  all_goals
    intros
    rfl

/-! ## Runs and executions -/

/-- What a body's code does at a fuel: return, go on for as long, or stop short. -/
theorem codeGen_cases {b : Body Symbol} (hfits : Gen.start.Fits none (Body.keyIds b) (Body.incLoops b) (Body.contTargets b))
    (hc : Body.Connected none b) (sem : Sem Store Value) (fuel : Nat) (s : Store) :
    (∃ n v, (execBody sem fuel b s).outcome = .ret n v ∧
      Reaches sem.isa (codeGenBody b .start).code (.run 0 0 s) (execBody sem fuel b s).trace
        (.done (execBody sem fuel b s).store)) ∨
    ((execBody sem fuel b s).outcome = .timeout ∧
      ∃ ls c, Run sem.isa (codeGenBody b .start).code (.run 0 0 s) ls c ∧ fuel ≤ ls.length) ∨
    ((execBody sem fuel b s).outcome ≠ .timeout ∧ ∀ n v, (execBody sem fuel b s).outcome ≠ .ret n v) ∧
      ∃ ls k pc s₁, Run sem.isa (codeGenBody b .start).code (.run 0 0 s) ls (.run k pc s₁) ∧
        step sem.isa (codeGenBody b .start).code (.run k pc s₁) = none := by
  have hdo := (codeGen_does sem fuel).2 b hfits hc (.refl _) s
  have hfall := (codeGen_falls sem fuel).2 b hfits hc (.refl _) s
  cases ho : (execBody sem fuel b s).outcome with
  | ret n v => exact .inl ⟨n, v, rfl, hdo _ (by simp [Gen.dest, ho])⟩
  | timeout => exact .inr (.inl ⟨rfl, hfall.timeout ho⟩)
  | stuck => exact .inr (.inr ⟨by simp, hfall.stuck ho⟩)
  | normal =>
    -- the end of the last block
    obtain ⟨ls, hrun, -⟩ := hdo.here ho
    exact .inr (.inr ⟨by simp, ls, _, _, _, hrun, by simp [step]⟩)
  | cont => exact absurd (exec_jumps.2 b hc (.inl ho)) (by simp)
  | brk => exact absurd (exec_jumps.2 b hc (.inr ho)) (by simp)

/-- **The emitted code does what the source says, and nothing else.** With each
loop's increment at the end of its body, its runs that return are the
executions that do, and it runs forever exactly if the execution diverges.
Where no continue is bound to a loop with an increment, that is the meaning of
the language. -/
theorem codeGen_equivalent {f : FunctionNode Unit} {g : FunctionNode Symbol} {inputs : List Symbol}
    (sem : Sem Store Value) (h : f.accept = .ok (g, inputs)) (s : Store) :
    (∀ es s', Reaches sem.isa (codeGen g).code (.run 0 0 s) es (.done s') ↔
      ∃ n v, Ends sem (Body.incLast g.body) s ⟨.ret n v, s', es⟩) ∧
    ((∀ n, ∃ ls c, Run sem.isa (codeGen g).code (.run 0 0 s) ls c ∧ n ≤ ls.length) ↔
      Diverges sem (Body.incLast g.body) s) ∧
    ((∀ l ∈ Body.incLoops g.body, some l ∉ Body.contTargets g.body) →
      ∀ fuel, execBody sem fuel (Body.incLast g.body) s = execBody sem fuel g.body s) := by
  obtain ⟨-, hc⟩ := FunctionNode.accept_jumps h
  obtain ⟨hids, hincs, hconn⟩ := incLast_shape.2 g.body
  have halike : (codeGenBody g.body .start).Alike (codeGenBody (Body.incLast g.body) .start) :=
    codeGen_incLast.2 g.body ⟨rfl, rfl, rfl, fun _ => rfl⟩
  have hfits : Gen.start.Fits none (Body.keyIds (Body.incLast g.body)) (Body.incLoops (Body.incLast g.body))
      (Body.contTargets (Body.incLast g.body)) := by
    refine ⟨Nat.one_pos, by simp, hids ▸ g.distinct, ?_⟩
    rw [hincs]
    exact List.forall_mem_nil _
  have hto {c c' : Config Store} {ls : List (Instr × List (Event Value))} (hrun : Run sem.isa (codeGen g).code c ls c') :=
    hrun.recode sem.exec_unsited halike.code
  have hfrom {c c' : Config Store} {ls : List (Instr × List (Event Value))}
      (hrun : Run sem.isa (codeGenBody (Body.incLast g.body) .start).code c ls c') :=
    hrun.recode sem.exec_unsited fun k => (halike.code k).symm
  have hcases := codeGen_cases hfits (hconn none hc) sem
  refine ⟨fun es s' => ⟨?_, ?_⟩, ⟨fun hlong fuel => ?_, fun hdiv n => ?_⟩, fun hinc fuel => ?_⟩
  · rintro ⟨ls, hrun, rfl⟩
    obtain ⟨ls', hrun', hobs, -⟩ := hto hrun
    -- more fuel than there are steps
    obtain ⟨n, v, ho, ls₁, hrun₁, htrace⟩ | ⟨-, ls₁, c, hrun₁, hlen⟩ | ⟨-, ls₁, k, pc, s₁, hrun₁, hend⟩ :=
      hcases (ls'.length + 1) s
    · obtain ⟨rfl, hs⟩ := hrun'.end_unique rfl hrun₁ rfl
      cases hs
      have hr : execBody sem (ls'.length + 1) (Body.incLast g.body) s =
          ⟨.ret n v, (execBody sem (ls'.length + 1) (Body.incLast g.body) s).store, observed ls⟩ := by
        rw [← hobs, htrace, ← ho]
      refine ⟨n, v, by simp, ls'.length + 1, fun fuel hle => ?_⟩
      rw [(exec_more sem hle).2 _ s (by simp [ho]), ← hr]
    · exact absurd (hrun'.length_le rfl hrun₁) (by omega)
    · cases (hrun'.end_unique rfl hrun₁ hend).2
  · rintro ⟨n, v, -, m, hm⟩
    obtain ⟨_, _, -, ls, hrun, htrace⟩ | ⟨ho, -⟩ | ⟨⟨-, ho⟩, -⟩ := hcases m s
    · rw [hm m (Nat.le_refl _)] at hrun htrace
      obtain ⟨ls', hrun', hobs, -⟩ := hfrom hrun
      exact ⟨ls', hrun', hobs.trans htrace⟩
    · simp [hm m (Nat.le_refl _)] at ho
    · exact absurd (by rw [hm m (Nat.le_refl _)]) (ho n v)
  · by_contra ho
    obtain ⟨ls₁, c₁, hrun₁, hend⟩ : ∃ ls c,
        Run sem.isa (codeGenBody (Body.incLast g.body) .start).code (.run 0 0 s) ls c ∧
        step sem.isa (codeGenBody (Body.incLast g.body) .start).code c = none := by
      obtain ⟨_, _, -, ls, hrun, -⟩ | ⟨ho', -⟩ | ⟨-, ls, k, pc, s₁, hrun, hend⟩ := hcases fuel s
      · exact ⟨ls, _, hrun, rfl⟩
      · exact absurd ho' ho
      · exact ⟨ls, _, hrun, hend⟩
    obtain ⟨ls, c, hrun, hlen⟩ := hlong (ls₁.length + 1)
    obtain ⟨ls', hrun', -, hlen'⟩ := hto hrun
    exact absurd (hrun₁.length_le hend hrun') (by omega)
  · obtain ⟨_, _, ho, -⟩ | ⟨-, ls, c, hrun, hlen⟩ | ⟨⟨ho, -⟩, -⟩ := hcases n s
    · simp [hdiv n] at ho
    · obtain ⟨ls', hrun', -, hlen'⟩ := hfrom hrun
      exact ⟨ls', c, hrun', by omega⟩
    · exact absurd (hdiv n) ho
  · exact (exec_incLast sem fuel).2 g.body hc hinc s

theorem codeGen_equivalent_counts : ∃ g inputs, Sample.counts.accept = .ok (g, inputs) ∧
    (∀ es s', Reaches Sample.countsSem.isa (codeGen g).code (.run 0 0 5) es (.done s') ↔
      ∃ n v, Ends Sample.countsSem (Body.incLast g.body) 5 ⟨.ret n v, s', es⟩) ∧
    ((∀ n, ∃ ls c, Run Sample.countsSem.isa (codeGen g).code (.run 0 0 5) ls c ∧ n ≤ ls.length) ↔
      Diverges Sample.countsSem (Body.incLast g.body) 5) ∧
    ((∀ l ∈ Body.incLoops g.body, some l ∉ Body.contTargets g.body) →
      ∀ fuel, execBody Sample.countsSem fuel (Body.incLast g.body) 5 = execBody Sample.countsSem fuel g.body 5) :=
  ⟨_, _, rfl, codeGen_equivalent (f := Sample.counts) Sample.countsSem rfl 5⟩

end DGen
