/-
Lowering preserves meaning: an execution of a body that returns is a run of
the code emitted for it (`codeGen_refines`).

The simulation goes by the statement, from the end of what is emitted before
it to wherever the statement leaves off: the end of its own code, the block
its jump is bound to, or the return (`Gen.dest`). A continue skips the
increment of its loop here, so the theorem is about bodies whose continues
are bound to loops without one.
-/
import DGen.Terminators
import DGen.Source

namespace DGen

open Blocks

variable {σ Store Value : Type}

/-! ## What the emitted code does -/

/-- The parts of statements act on the store as in the source. -/
def Sem.exec (sem : Sem Store Value) : Instr → Store → Option (Flow × Store × List (Event Value))
  | .def_ n, s => (sem.def_ n s).map fun s => (.next, s, [.def_ n])
  | .asg _ n, s => (sem.asg n s).map fun s => (.next, s, [.asg n])
  | .z3Gen c p, s => (sem.z3Gen c p s).map fun s => (.next, s, [.z3Gen c p])
  | .condBr _ c ifTrue ifFalse, s =>
    (sem.cond c s).map fun (b, s) => (.goto (if b then ifTrue else ifFalse), s, [.cond c b])
  | .br _ dest, s => dest.map fun k => (.goto k, s, [])
  | .gatherRes n, s => (sem.ret n s).map fun (v, s) => (.next, s, [.gatherRes n v])
  | .retVoid, s => some (.halt, s, [])

def Sem.isa (sem : Sem Store Value) : Isa Instr Store (Event Value) where
  isTerm := Instr.isTerm
  exec := sem.exec
  exec_next {i s s' es} h := by
    cases i <;> simp_all [Sem.exec, Instr.isTerm]
  exec_term {i s f s' es} h hf := by
    cases i <;> simp_all [Sem.exec, Instr.isTerm]
    obtain ⟨_, -, rfl, -⟩ := h
    exact hf rfl

/-! ## Continues and increments -/

mutual
def Stmt.contTargets : Stmt σ → List (Option NodeId)
  | .cont _ loop => [loop]
  | .for_ _ _ _ _ _ body | .if_ _ _ _ body => Body.contTargets body
  | .ifElse _ _ _ body elseBody => Body.contTargets body ++ Body.contTargets elseBody
  | _ => []

/-- What the continues in a body are bound to. -/
def Body.contTargets : Body σ → List (Option NodeId)
  | [] => []
  | s :: rest => s.contTargets ++ Body.contTargets rest
end

mutual
def Stmt.incLoops : Stmt σ → List NodeId
  | .for_ node _ _ _ incAsg body => (incAsg.map fun _ => node.id).toList ++ Body.incLoops body
  | .if_ _ _ _ body => Body.incLoops body
  | .ifElse _ _ _ body elseBody => Body.incLoops body ++ Body.incLoops elseBody
  | _ => []

/-- The loops with an increment. -/
def Body.incLoops : Body σ → List NodeId
  | [] => []
  | s :: rest => s.incLoops ++ Body.incLoops rest
end

variable {sem : Sem Store Value} {fuel : Nat}

/-- Only a continue ends a body as one. -/
theorem exec_cont :
    (∀ s : Stmt Symbol, ∀ {loop st}, s.Connected loop → (execStmt sem fuel s st).outcome = .cont →
      loop ∈ s.contTargets) ∧
    ∀ b : Body Symbol, ∀ {loop st}, Body.Connected loop b → (execBody sem fuel b st).outcome = .cont →
      loop ∈ Body.contTargets b := by
  apply Stmt.induct
  case cont => intro node l loop st hc _; simp [Stmt.contTargets, hc.2]
  case ret =>
    intro n loop st _ h
    simp only [execStmt] at h
    split at h <;> cases h
  case for_ =>
    intro node p pre c inc b _ loop st _ h
    simp only [execStmt] at h
    rcases execAsg?_outcome sem pre st with hp | hp
    · rw [Result.seq_normal hp] at h
      exact absurd h (execLoop_outcome _ _).1
    · rw [Result.seq_other (by simp [hp]), hp] at h
      cases h
  case if_ =>
    intro node p c b ih loop st hc h
    simp only [execStmt] at h
    split at h
    · cases h
    · exact ih hc h
    · cases h
  case ifElse =>
    intro node p c b e ihb ihe loop st hc h
    simp only [execStmt] at h
    split at h
    · cases h
    · exact List.mem_append_left _ (ihb hc.1 h)
    · exact List.mem_append_right _ (ihe hc.2 h)
  case nil => intro loop st _ h; cases h
  case cons =>
    intro s rest ihs ihr loop st hc h
    simp only [execBody, Result.seq] at h
    split at h
    · exact List.mem_append_right _ (ihr hc.2 h)
    · exact List.mem_append_left _ (ihs hc.1 h)
  case asg | def_ =>
    intro n loop st _ h
    simp only [execStmt] at h
    rcases execPart_outcome _ st _ with h' | h' <;> rw [h'] at h <;> cases h
  case brk => intro node l loop st _ h; cases h

/-- A body that `is_last_stmt_br` counts as ending in a jump does not end normally. -/
theorem exec_isLastStmtBr :
    (∀ s : Stmt Symbol, ∀ {st}, s.isBr = true → (execStmt sem fuel s st).outcome ≠ .normal) ∧
    ∀ b : Body Symbol, ∀ {st}, isLastStmtBr b = true → (execBody sem fuel b st).outcome ≠ .normal := by
  apply Stmt.induct
  case cont | brk => intro node l st _ h; cases h
  case ret =>
    intro n st _ h
    simp only [execStmt] at h
    split at h <;> cases h
  case ifElse =>
    intro node p c b e ihb ihe st hbr h
    simp only [Stmt.isBr, Bool.and_eq_true] at hbr
    simp only [execStmt] at h
    split at h
    · cases h
    · exact ihb hbr.1 h
    · exact ihe hbr.2 h
  case cons =>
    intro s rest ihs ihr st hbr h
    simp only [execBody, Result.seq] at h
    cases rest with
    | nil =>
      have := @ihs st (by simpa [isLastStmtBr] using hbr)
      split at h
      · exact this ‹_›
      · exact this h
    | cons s' rest =>
      split at h
      · exact ihr (by simpa [isLastStmtBr] using hbr) h
      · rename_i hne
        exact hne h
  all_goals
    intros
    simp_all [Stmt.isBr, isLastStmtBr]

theorem exec_isLastStmtBr_normal {b : Body Symbol} {s : Store} (h : (execBody sem fuel b s).outcome = .normal) :
    isLastStmtBr b = false := Bool.eq_false_iff.mpr fun hbr => exec_isLastStmtBr.2 b hbr h

/-! ## Simulation -/

section Sim
variable {f : Blocks.Builder Instr}

/-- Where an execution that began at `g` goes on, when its code ends at `g'`. -/
def Gen.dest (g g' : Gen) (loop : Option NodeId) (r : Result Store Value) : Option (Config Store) :=
  match r.outcome with
  | .normal => some (g'.here r.store)
  | .cont => (loop.bind g.loops).map fun bbs => .run bbs.1 0 r.store
  | .brk => (loop.bind g.loops).map fun bbs => .run bbs.2 0 r.store
  | .ret _ _ => some (.done r.store)
  | .stuck => none
  | .timeout => none

/-- The code between `g` and `g'`, in the function `f`, does what `r` says. -/
def Gen.Does (sem : Sem Store Value) (f : Blocks.Builder Instr) (g g' : Gen) (loop : Option NodeId) (s : Store)
    (r : Result Store Value) : Prop :=
  ∀ c, g.dest g' loop r = some c → Reaches sem.isa f.code (g.here s) r.trace c

/-- Only a normal end depends on where the code ends. -/
theorem Gen.dest_other {g g' : Gen} {loop : Option NodeId} {r : Result Store Value} (h : r.outcome ≠ .normal)
    (g'' : Gen) : g.dest g' loop r = g.dest g'' loop r := by
  unfold Gen.dest
  split <;> first | rfl | exact absurd ‹_› h

theorem Gen.dest_prepend (g g' : Gen) (loop : Option NodeId) (es : List (Event Value)) (r : Result Store Value) :
    g.dest g' loop (r.prepend es) = g.dest g' loop r := rfl

theorem Gen.dest_congr {g g₁ g' : Gen} {loop : Option NodeId} (h : loop.bind g.loops = loop.bind g₁.loops)
    (r : Result Store Value) : g.dest g' loop r = g₁.dest g' loop r := by
  simp only [Gen.dest, h]

/-- A part, and its code. -/
theorem execPart_does {g : Gen} {i : Instr} {e : Event Value} {s : Store} {o : Option Store}
    (loop : Option NodeId) (hlt : g.cur < g.size) (hf : (g.emit i).Grows f)
    (hx : sem.exec i s = o.map fun s => (.next, s, [e])) :
    g.Does sem f (g.emit i) loop s (execPart e s o) := by
  intro c hc
  cases o with
  | none => cases hc
  | some s' =>
    cases hc
    exact Reaches.emit_next hlt hf hx

theorem execAsg?_does (sem : Sem Store Value) {g : Gen} (site : AsgSite) (n : Option (AsgNode Symbol))
    (loop : Option NodeId) {s : Store}
    (hlt : g.cur < g.size) (hf : (codeGenAsg? site n g).Grows f) :
    g.Does sem f (codeGenAsg? site n g) loop s (sem.execAsg? n s) := by
  cases n with
  | none =>
    intro c hc
    cases hc
    exact .refl
  | some n => exact execPart_does loop hlt hf rfl

/-- A condition with its precondition's calls, and its branch. -/
theorem evalCond_reaches {g : Gen} {p : Option (PrecondNode Symbol)} {c : Expr Symbol} {t e : Nat} {s s' : Store}
    {b : Bool} {es : List (Event Value)} (site : CondSite) (hlt : g.cur < g.size)
    (hf : (codeGenCond p site c t e g).Grows f) (hx : sem.evalCond p c s = some (b, s', es)) :
    Reaches sem.isa f.code (g.here s) es (.run (if b then t else e) 0 s') := by
  cases p with
  | none =>
    simp only [Sem.evalCond, Option.map_eq_some_iff, Prod.mk.injEq] at hx
    obtain ⟨⟨b', s₁⟩, hc, rfl, rfl, rfl⟩ := hx
    exact Reaches.emit_goto hlt hf (by simp [Sem.isa, Sem.exec, hc])
  | some p =>
    simp only [Sem.evalCond, Option.bind_eq_some_iff, Option.map_eq_some_iff, Prod.mk.injEq] at hx
    obtain ⟨s₁, hp, ⟨b', s₂⟩, hc, rfl, rfl, rfl⟩ := hx
    have hz : Reaches sem.isa f.code (g.here s) [.z3Gen c p] ((g.emit (.z3Gen c p)).here s₁) :=
      Reaches.emit_next hlt ((Builder.Grows.emit _ _).trans hf) (by simp [Sem.isa, Sem.exec, hp])
    exact hz.trans (Reaches.emit_goto hlt hf (by simp [Sem.isa, Sem.exec, hc]))

theorem Gen.Does.seq {g g₁ g₂ : Gen} {loop : Option NodeId} {s : Store} {r : Result Store Value}
    {k : Store → Result Store Value} (h : g.Does sem f g₁ loop s r)
    (hk : r.outcome = .normal → g₁.Does sem f g₂ loop r.store (k r.store))
    (hl : loop.bind g.loops = loop.bind g₁.loops) : g.Does sem f g₂ loop s (r.seq k) := by
  intro c hc
  by_cases ho : r.outcome = .normal
  · rw [Result.seq_normal ho] at hc ⊢
    rw [Gen.dest_prepend, Gen.dest_congr hl] at hc
    exact (h _ (by simp [Gen.dest, ho])).trans (hk ho c hc)
  · rw [Result.seq_other ho] at hc ⊢
    exact h c (by rwa [Gen.dest_other ho g₂])

/-- What is reached first. -/
theorem Gen.Does.prepend {g g₁ g₂ : Gen} {loop : Option NodeId} {s s₁ : Store} {es : List (Event Value)}
    {r : Result Store Value} (h : Reaches sem.isa f.code (g.here s) es (g₁.here s₁))
    (hr : g₁.Does sem f g₂ loop s₁ r) (hl : loop.bind g.loops = loop.bind g₁.loops) :
    g.Does sem f g₂ loop s (r.prepend es) := by
  intro c hc
  rw [Gen.dest_prepend, Gen.dest_congr hl] at hc
  exact h.trans (hr c hc)

theorem br_reaches (sem : Sem Store Value) {g : Gen} {site : BrSite} {k : Nat} (s : Store) (hlt : g.cur < g.size)
    (hf : (g.emit (.br site (some k))).Grows f) : Reaches sem.isa f.code (g.here s) [] (.run k 0 s) :=
  Reaches.emit_goto hlt hf rfl

/-- An arm that ends normally goes on at the merge block. -/
theorem arm_does {g g₁ : Gen} {loop : Option NodeId} {b : Body Symbol} {m : Nat} {s : Store}
    (hlt : (codeGenBody b g).cur < (codeGenBody b g).size) (hf : (codeGenArmEnd b m (codeGenBody b g)).Grows f)
    (h : g.Does sem f (codeGenBody b g) loop s (execBody sem fuel b s)) (hm : g₁.cur = m ∧ g₁.code m = []) :
    g.Does sem f g₁ loop s (execBody sem fuel b s) := by
  intro c hc
  by_cases ho : (execBody sem fuel b s).outcome = .normal
  · have hbr : isLastStmtBr b = false := Bool.eq_false_iff.mpr fun hbr => exec_isLastStmtBr.2 b hbr ho
    rw [codeGenArmEnd, hbr] at hf
    have hgo := br_reaches sem (execBody sem fuel b s).store hlt hf
    simp only [Gen.dest, ho, Blocks.Builder.here, hm.1, hm.2, Option.some.injEq] at hc
    subst hc
    simpa using (h _ (by simp [Gen.dest, ho])).trans hgo
  · exact h c (by rwa [Gen.dest_other ho g₁])

theorem ifHead_reaches {g : Gen} {node : ASTNode} {p : Option (PrecondNode Symbol)} {c : Expr Symbol} {s s' : Store}
    {b : Bool} {es : List (Event Value)} (hlt : g.cur < g.size) (hf : (codeGenIfHead node p c g).Grows f)
    (hx : sem.evalCond p c s = some (b, s', es)) :
    Reaches sem.isa f.code (g.here s) es (.run (if b then g.size else g.size + 1) 0 s') := by
  have h := evalCond_reaches (f := f) (g := ((g.createBlock "then").createBlock "else").createBlock "merge")
    (t := g.size) (e := g.size + 1) (.ofIf node.id) (by simp; omega) ⟨hf.size_le, hf.code⟩ hx
  have hhere : (((g.createBlock "then").createBlock "else").createBlock "merge").here s = g.here s := by
    simp [Blocks.Builder.here, hlt.ne, show g.cur ≠ g.size + 1 by omega, show g.cur ≠ g.size + 2 by omega]
  rwa [hhere] at h

theorem forHead_reaches {g : Gen} {node : ASTNode} {p : Option (PrecondNode Symbol)} {c : Expr Symbol} (s : Store)
    (hlt : g.cur < g.size) (hf : (codeGenForHead node p c g).Grows f) :
    Reaches sem.isa f.code (g.here s) [] (.run g.size 0 s) := by
  have hhere : ((((g.createBlock "loop_cond_bb").createBlock "loop_bb").createBlock "merge_bb").setLoop node.id
      g.size (g.size + 2)).here s = g.here s := by
    simp [Blocks.Builder.here, hlt.ne, show g.cur ≠ g.size + 1 by omega, show g.cur ≠ g.size + 2 by omega]
  have hentry : (codeGenForEntry node g).Grows f :=
    have h := codeGenCond_grows ((codeGenForEntry node g).setInsertPoint g.size) p (.ofLoop node.id) c
      (g.size + 1) (g.size + 2)
    Builder.Grows.trans ⟨h.size_le, h.code⟩ ⟨hf.size_le, hf.code⟩
  rw [← hhere]
  exact Reaches.emit_goto (by simp; omega) hentry rfl

theorem loopCond_reaches {g : Gen} {node : ASTNode} {p : Option (PrecondNode Symbol)} {c : Expr Symbol} {s s' : Store}
    {b : Bool} {es : List (Event Value)} (hlt : g.cur < g.size) (hf : (codeGenForHead node p c g).Grows f)
    (hx : sem.evalCond p c s = some (b, s', es)) :
    Reaches sem.isa f.code (.run g.size 0 s) es (.run (if b then g.size + 1 else g.size + 2) 0 s') := by
  have hempty : (codeGenForEntry node g).code g.size = [] := by
    simp [codeGenForEntry, hlt.ne']
  have h := evalCond_reaches (g := (codeGenForEntry node g).setInsertPoint g.size) (.ofLoop node.id)
    (by simp [codeGenForEntry]; omega) ⟨hf.size_le, hf.code⟩ hx
  rwa [show ((codeGenForEntry node g).setInsertPoint g.size).here s = .run g.size 0 s from
    Blocks.Builder.here_setInsertPoint hempty s] at h

/-- From the end of a loop's body through the increment, back to the condition. -/
theorem loopEnd_does {g g₀ g' : Gen} {l : NodeId} {inc : Option (AsgNode Symbol)} {b : Body Symbol} {k : Nat}
    {loop : Option NodeId} {s : Store} {again : Store → Result Store Value} (hlt : g.cur < g.size)
    (hf : (codeGenLoopEnd l inc b k g).Grows f) (hbr : isLastStmtBr b = false)
    (hagain : ∀ s c, g₀.dest g' loop (again s) = some c → Reaches sem.isa f.code (.run k 0 s) (again s).trace c) :
    ∀ c, g₀.dest g' loop ((sem.execAsg? inc s).seq again) = some c →
      Reaches sem.isa f.code (g.here s) ((sem.execAsg? inc s).seq again).trace c := by
  intro c hc
  simp only [codeGenLoopEnd, hbr, Bool.false_eq_true, if_false] at hf
  have hasg := execAsg?_does sem (.inc l) inc loop (s := s) hlt ((Builder.Grows.emit _ _).trans hf)
  rcases execAsg?_outcome sem inc s with ho | ho
  · rw [Result.seq_normal ho] at hc ⊢
    have hback := br_reaches sem (sem.execAsg? inc s).store (by simpa using hlt) hf
    exact (hasg _ (by simp [Gen.dest, ho])).trans (hback.trans (hagain _ c hc))
  · rw [Result.seq_other (by simp [ho])] at hc
    simp [Gen.dest, ho] at hc

/-- The iterations of a loop, from its condition's block. -/
theorem execLoop_does {g : Gen} {node : ASTNode} {p : Option (PrecondNode Symbol)} {c : Expr Symbol}
    {inc : Option (AsgNode Symbol)} {b : Body Symbol} {g' : Gen} {loop : Option NodeId}
    (hlt : g.cur < g.size) (hf : (codeGenLoop node p c inc b g).Grows f)
    (hb : ∀ s, (codeGenForHead node p c g).Does sem f (codeGenBody b (codeGenForHead node p c g)) (some node.id) s
      (execBody sem fuel b s))
    (hcont : ∀ s, (execBody sem fuel b s).outcome = .cont → inc = none)
    (hm : g'.cur = g.size + 2 ∧ g'.code (g.size + 2) = []) (n : Nat) :
    ∀ {s c'}, g.dest g' loop (execLoop (sem.evalCond p c) (execBody sem fuel b) (sem.execAsg? inc) n s) = some c' →
      Reaches sem.isa f.code (.run g.size 0 s)
        (execLoop (sem.evalCond p c) (execBody sem fuel b) (sem.execAsg? inc) n s).trace c' := by
  have hext := codeGen_extends.2 b (codeGenForHead node p c g) (by simp)
  have hbody : (codeGenBody b (codeGenForHead node p c g)).Grows f := (codeGenLoopEnd_grows _ _ _ _ _).trans hf
  have hhead : (codeGenForHead node p c g).Grows f := hext.grows.trans hbody
  have hstart (s : Store) : (codeGenForHead node p c g).here s = .run (g.size + 1) 0 s := by
    have hempty : (codeGenForHead node p c g).code (g.size + 1) = [] := by
      simp [codeGenForHead_code g _ hlt, show g.size + 1 ≠ g.cur by omega]
    rw [Blocks.Builder.here, codeGenForHead_cur, hempty]
    rfl
  induction n with
  | zero => intro s c' hc; cases hc
  | succ n ih =>
    intro s c' hc
    cases he : sem.evalCond p c s with
    | none => simp [execLoop, he, Gen.dest] at hc
    | some res =>
      obtain ⟨v, s₁, es⟩ := res
      have hcond := loopCond_reaches hlt hhead he
      cases v with
      | false =>
        simp only [execLoop, he, Gen.dest, Blocks.Builder.here, hm.1, hm.2, Option.some.injEq] at hc ⊢
        subst hc
        exact hcond
      | true =>
        simp only [if_true, ← hstart] at hcond
        simp only [execLoop, he, Gen.dest_prepend] at hc ⊢
        simp only [Result.prepend_trace]
        refine hcond.trans ?_
        have hr := hb s₁
        cases ho : (execBody sem fuel b s₁).outcome with
        | normal =>
          simp only [ho, Gen.dest_prepend, Result.prepend_trace] at hc ⊢
          exact (hr _ (by simp [Gen.dest, ho])).trans
            (loopEnd_does hext.cur_lt hf (exec_isLastStmtBr_normal ho) (fun s₂ c' => ih) c' hc)
        | cont =>
          simp only [ho, Gen.dest_prepend, Result.prepend_trace] at hc ⊢
          obtain rfl := hcont s₁ ho
          have hgo := hr (.run g.size 0 (execBody sem fuel b s₁).store) (by simp [Gen.dest, ho])
          exact hgo.trans (ih hc)
        | brk =>
          simp only [ho, Gen.dest, Blocks.Builder.here, hm.1, hm.2, Option.some.injEq] at hc ⊢
          subst hc
          exact hr _ (by simp [Gen.dest, ho])
        | ret n v =>
          simp only [ho, Gen.dest, Option.some.injEq] at hc ⊢
          subst hc
          exact hr _ (by simp [Gen.dest, ho])
        | stuck => simp [ho, Gen.dest] at hc
        | timeout => simp [ho, Gen.dest] at hc

/-- What a statement's simulation needs of where it stands: `ids` are the
loops in it, `incs` those with an increment and `conts` what its continues are bound to. -/
structure Gen.Fits (g : Gen) (loop : Option NodeId) (ids incs : List NodeId) (conts : List (Option NodeId)) :
    Prop where
  cur_lt : g.cur < g.size
  outer : ∀ l ∈ loop, l ∉ ids
  nodup : ids.Nodup
  inc : ∀ l ∈ incs, some l ∉ conts

theorem Gen.Fits.loops_eq {g g' : Gen} {loop : Option NodeId} {ids incs : List NodeId}
    {conts : List (Option NodeId)} (h : g.Fits loop ids incs conts)
    (hg : ∀ l, l ∉ ids → g'.loops l = g.loops l) : loop.bind g.loops = loop.bind g'.loops := by
  cases loop with
  | none => rfl
  | some l => exact (hg l (h.outer l rfl)).symm

theorem Gen.Fits.sub {g g' : Gen} {loop : Option NodeId} {ids ids' incs incs' : List NodeId}
    {conts conts' : List (Option NodeId)} (h : g.Fits loop ids incs conts) (hlt : g'.cur < g'.size)
    (hids : ids'.Sublist ids) (hincs : incs' ⊆ incs) (hconts : conts' ⊆ conts) : g'.Fits loop ids' incs' conts' :=
  ⟨hlt, fun l hl hm => h.outer l hl (hids.subset hm), h.nodup.sublist hids,
    fun l hl hm => h.inc l (hincs hl) (hconts hm)⟩

theorem ifHead_here {g : Gen} (hlt : g.cur < g.size) (node : ASTNode) (p : Option (PrecondNode Symbol))
    (c : Expr Symbol) (s : Store) : (codeGenIfHead node p c g).here s = .run g.size 0 s := by
  have hempty : (codeGenIfHead node p c g).code g.size = [] := by
    simp [codeGenIfHead_code g _ hlt, hlt.ne']
  rw [Blocks.Builder.here, codeGenIfHead_cur, hempty]
  rfl

theorem codeGenThen_here {g : Gen} (hlt : g.cur < g.size) (node : ASTNode) (p : Option (PrecondNode Symbol))
    (c : Expr Symbol) (b : Body Symbol) (s : Store) :
    (codeGenThen node p c b g).here s = .run (g.size + 1) 0 s := by
  rw [Blocks.Builder.here, codeGenThen_cur, codeGenThen_else node p c b hlt]
  rfl

/-- **The code of a statement or a body does what its execution does.** -/
theorem codeGen_does (sem : Sem Store Value) (fuel : Nat) :
    (∀ s : Stmt Symbol, ∀ {g : Gen} {loop}, g.Fits loop s.keyIds s.incLoops s.contTargets → s.Connected loop →
      (codeGenStmt s g).Grows f → ∀ st, g.Does sem f (codeGenStmt s g) loop st (execStmt sem fuel s st)) ∧
    ∀ b : Body Symbol, ∀ {g : Gen} {loop}, g.Fits loop (Body.keyIds b) (Body.incLoops b) (Body.contTargets b) →
      Body.Connected loop b → (codeGenBody b g).Grows f →
      ∀ st, g.Does sem f (codeGenBody b g) loop st (execBody sem fuel b st) := by
  apply Stmt.induct
  case asg => intro n g loop h _ hf st; exact execPart_does loop h.cur_lt hf rfl
  case def_ => intro n g loop h _ hf st; exact execPart_does loop h.cur_lt hf rfl
  case ret =>
    intro n g loop h _ hf st c hc
    simp only [execStmt] at hc ⊢
    cases hr : sem.ret n st with
    | none => simp [hr, Gen.dest] at hc
    | some vs =>
      simp only [hr, Gen.dest, Option.some.injEq] at hc ⊢
      subst hc
      have h₁ : Reaches sem.isa f.code (g.here st) [.gatherRes n vs.1] ((g.emit (.gatherRes n)).here vs.2) :=
        Reaches.emit_next h.cur_lt ((Builder.Grows.emit _ _).trans hf) (by simp [Sem.isa, Sem.exec, hr])
      have h₂ : Reaches sem.isa f.code ((g.emit (.gatherRes n)).here vs.2) [] (.done vs.2) :=
        Reaches.emit_halt h.cur_lt hf rfl
      exact h₁.trans h₂
  case cont =>
    intro node l g loop h hc hf st c hd
    obtain rfl := hc.2
    simp only [execStmt, Gen.dest, Option.map_eq_some_iff] at hd ⊢
    obtain ⟨bbs, hb, rfl⟩ := hd
    exact Reaches.emit_goto h.cur_lt hf (by simp [Sem.isa, Sem.exec, hb])
  case brk =>
    intro node l g loop h hc hf st c hd
    obtain rfl := hc.2
    simp only [execStmt, Gen.dest, Option.map_eq_some_iff] at hd ⊢
    obtain ⟨bbs, hb, rfl⟩ := hd
    exact Reaches.emit_goto h.cur_lt hf (by simp [Sem.isa, Sem.exec, hb])
  case nil =>
    intro g loop _ _ _ st c hc
    cases hc
    exact .refl
  case cons =>
    intro s rest ihs ihr g loop h hc hf st
    have hext := codeGen_extends.1 s g h.cur_lt
    have hrest := codeGenBody_grows hext.cur_lt rest
    have hids := List.nodup_append.mp h.nodup
    refine Gen.Does.seq (ihs (h.sub h.cur_lt (List.sublist_append_left _ _) (List.subset_append_left _ _)
      (List.subset_append_left _ _)) hc.1 (hrest.trans hf) st) (fun _ => ?_) ?_
    · exact ihr (h.sub hext.cur_lt (List.sublist_append_right _ _) (List.subset_append_right _ _)
        (List.subset_append_right _ _)) hc.2 hf _
    · exact h.loops_eq fun l hl => codeGen_loops.1 s g fun hm => hl (List.mem_append_left _ hm)
  case if_ =>
    intro node p c b ih g loop h hc hf st
    rw [codeGenStmt_if] at hf ⊢
    have hhead := codeGen_extends.2 b (codeGenIfHead node p c g) (by simp)
    have hthen : (codeGenThen node p c b g).Grows f := (Builder.Grows.emit _ _).trans ⟨hf.size_le, hf.code⟩
    have harm : (codeGenArmEnd b (g.size + 2) (codeGenBody b (codeGenIfHead node p c g))).Grows f :=
      ⟨hthen.size_le, hthen.code⟩
    have hbody := (codeGenArmEnd_grows _ _ _).trans harm
    simp only [execStmt]
    split
    · intro c hc
      cases hc
    · rename_i he
      have hcond := ifHead_reaches h.cur_lt (hhead.grows.trans hbody) he
      rw [if_pos rfl, ← ifHead_here h.cur_lt node p c] at hcond
      refine Gen.Does.prepend hcond (arm_does hhead.cur_lt harm (ih ?_ hc hbody _) ⟨rfl, ?_⟩) (by simp)
      · exact h.sub (by simp) (List.sublist_append_right _ _) (fun _ h => h) (fun _ h => h)
      · simpa using codeGenThen_merge node p c b h.cur_lt
    · rename_i he
      have hcond := ifHead_reaches h.cur_lt (hhead.grows.trans hbody) he
      rw [if_neg (by simp), ← codeGenThen_here h.cur_lt node p c b] at hcond
      have hmerge := br_reaches sem (g := codeGenThen node p c b g) ‹Store›
        (Nat.le_of_succ_le (codeGenThen_size_le node p c b)) ⟨hf.size_le, hf.code⟩
      intro c' hc'
      cases hc'
      rw [Gen.setInsertPoint_toBuilder,
        Blocks.Builder.here_setInsertPoint (by simpa using codeGenThen_merge node p c b h.cur_lt)]
      simpa using hcond.trans hmerge
  case ifElse =>
    intro node p c b e ihb ihe g loop h hc hf st
    rw [codeGenStmt_ifElse] at hf ⊢
    have hhead := codeGen_extends.2 b (codeGenIfHead node p c g) (by simp)
    have hlt : (codeGenThen node p c b g).cur < (codeGenThen node p c b g).size :=
      Nat.le_of_succ_le (codeGenThen_size_le node p c b)
    have helse := codeGen_extends.2 e _ hlt
    have harm' : (codeGenArmEnd e (g.size + 2) (codeGenBody e (codeGenThen node p c b g))).Grows f :=
      ⟨hf.size_le, hf.code⟩
    have hbody' := (codeGenArmEnd_grows _ _ _).trans harm'
    have hthen := helse.grows.trans hbody'
    have harm : (codeGenArmEnd b (g.size + 2) (codeGenBody b (codeGenIfHead node p c g))).Grows f :=
      ⟨hthen.size_le, hthen.code⟩
    have hbody := (codeGenArmEnd_grows _ _ _).trans harm
    have hmerge : (codeGenElse e (g.size + 2) (codeGenThen node p c b g)).code (g.size + 2) = [] := by
      rw [codeGenElse_code e hlt _ (codeGenThen_size_le node p c b) (by simp)]
      exact codeGenThen_merge node p c b h.cur_lt
    simp only [execStmt]
    split
    · intro c hc
      cases hc
    · rename_i he
      have hcond := ifHead_reaches h.cur_lt (hhead.grows.trans hbody) he
      rw [if_pos rfl, ← ifHead_here h.cur_lt node p c] at hcond
      refine Gen.Does.prepend hcond (arm_does hhead.cur_lt harm (ihb ?_ hc.1 hbody _) ⟨rfl, hmerge⟩) (by simp)
      exact h.sub (by simp) ((List.sublist_append_left _ _).trans (List.sublist_append_right _ _))
        (List.subset_append_left _ _) (List.subset_append_left _ _)
    · rename_i he
      have hcond := ifHead_reaches h.cur_lt (hhead.grows.trans hbody) he
      rw [if_neg (by simp), ← codeGenThen_here h.cur_lt node p c b] at hcond
      refine Gen.Does.prepend hcond (arm_does helse.cur_lt harm' (ihe ?_ hc.2 hbody' _) ⟨rfl, hmerge⟩) ?_
      · exact h.sub hlt ((List.sublist_append_right _ _).trans (List.sublist_append_right _ _))
          (List.subset_append_right _ _) (List.subset_append_right _ _)
      · refine h.loops_eq fun l hl => ?_
        have hb : l ∉ Body.keyIds b := fun hm =>
          hl (List.mem_append_right _ (List.mem_append_left _ hm))
        simpa [codeGenThen] using codeGen_loops.2 b (codeGenIfHead node p c g) hb
  case for_ =>
    intro node p pre c inc b ih g loop h hc hf st
    rw [codeGenStmt_for] at hf ⊢
    have hpre := (codeGenAsg?_extends h.cur_lt (.refl h.cur_lt) (.pre node.id) pre)
    have hloops : (codeGenAsg? (.pre node.id) pre g).loops = g.loops := codeGenAsg?_loops _ _ _
    have hdo := execAsg?_does sem (f := f) (.pre node.id) pre loop (s := st) h.cur_lt
    generalize codeGenAsg? (.pre node.id) pre g = g₀ at hpre hloops hdo hf ⊢
    have hlt := hpre.cur_lt
    have hloop : (codeGenLoop node p c inc b g₀).Grows f := ⟨hf.size_le, hf.code⟩
    have hids := List.nodup_cons.mp h.nodup
    have hinner : (codeGenForHead node p c g₀).Fits (some node.id) (Body.keyIds b) (Body.incLoops b)
        (Body.contTargets b) :=
      ⟨by simp, fun l hl hm => hids.1 (List.mem_append_right _ (by cases hl; exact hm)),
        hids.2.sublist (List.sublist_append_right _ _), fun l hl => h.inc l (List.mem_append_right _ hl)⟩
    have hbody := (codeGenLoopEnd_grows _ _ _ _ _).trans hloop
    have hhead := (codeGenBody_grows (by simp) b).trans hbody
    have hcont (s : Store) (ho : (execBody sem fuel b s).outcome = .cont) : inc = none := by
      cases inc with
      | none => rfl
      | some n => exact absurd (exec_cont.2 b hc ho) (h.inc node.id (List.mem_cons_self ..))
    refine Gen.Does.seq (hdo ((codeGenForHead_extends hlt (.refl hlt) node p c).grows.trans hhead)) (fun _ => ?_)
      (by rw [hloops])
    have hm : ((codeGenLoop node p c inc b g₀).setInsertPoint (g₀.size + 2)).cur = g₀.size + 2 ∧
        ((codeGenLoop node p c inc b g₀).setInsertPoint (g₀.size + 2)).code (g₀.size + 2) = [] :=
      ⟨rfl, codeGenLoop_merge node p c b hlt inc⟩
    intro c' hc'
    exact (forHead_reaches _ hlt hhead).trans
      (execLoop_does hlt hloop (fun s => ih hinner hc hbody s) hcont hm fuel hc')

end Sim

/-! ## The result is gathered once, and last -/

/-- The results gathered in a trace. -/
def gathered (es : List (Event Value)) : List (ReturnNode Symbol × Value) :=
  es.filterMap fun
    | .gatherRes n v => some (n, v)
    | _ => none

@[simp] theorem gathered_append (es es' : List (Event Value)) : gathered (es ++ es') = gathered es ++ gathered es' :=
  List.filterMap_append

/-- What an execution's outcome says of its trace. -/
def Result.Gathers (r : Result Store Value) : Prop :=
  match r.outcome with
  | .ret n v => ∃ es, r.trace = es ++ [.gatherRes n v] ∧ gathered es = []
  | _ => gathered r.trace = []

theorem Result.Gathers.prepend {r : Result Store Value} {es : List (Event Value)} (h : r.Gathers)
    (hes : gathered es = []) : (r.prepend es).Gathers := by
  unfold Gathers at h ⊢
  simp only [prepend_outcome, prepend_trace]
  split
  · rename_i ho
    simp only [ho] at h
    obtain ⟨es', h, hes'⟩ := h
    exact ⟨es ++ es', by rw [h, List.append_assoc], by simp [hes, hes']⟩
  · rename_i ho
    split at h
    · rename_i ho'
      exact absurd ho' (ho _ _)
    · simp [hes, h]

theorem Result.Gathers.trace {r : Result Store Value} (h : r.Gathers) (ho : ∀ n v, r.outcome ≠ .ret n v) :
    gathered r.trace = [] := by
  unfold Gathers at h
  split at h
  · rename_i ho'
    exact absurd ho' (ho _ _)
  · exact h

theorem Result.Gathers.seq {r : Result Store Value} {k : Store → Result Store Value} (h : r.Gathers)
    (hk : ∀ s, (k s).Gathers) : (r.seq k).Gathers := by
  by_cases ho : r.outcome = .normal
  · rw [Result.seq_normal ho]
    exact (hk _).prepend (h.trace (by simp [ho]))
  · rwa [Result.seq_other ho]

theorem execPart_gathers {e : Event Value} (he : gathered [e] = []) (s : Store) (o : Option Store) :
    (execPart e s o).Gathers := by
  cases o
  · rfl
  · exact he

theorem execAsg?_gathers (n : Option (AsgNode Symbol)) (s : Store) : (sem.execAsg? n s).Gathers := by
  cases n
  · rfl
  · exact execPart_gathers rfl _ _

theorem evalCond_gathered {p : Option (PrecondNode Symbol)} {c : Expr Symbol} {s s' : Store} {b : Bool}
    {es : List (Event Value)} (h : sem.evalCond p c s = some (b, s', es)) : gathered es = [] := by
  cases p with
  | none =>
    simp only [Sem.evalCond, Option.map_eq_some_iff, Prod.mk.injEq] at h
    obtain ⟨_, -, -, -, rfl⟩ := h
    rfl
  | some p =>
    simp only [Sem.evalCond, Option.bind_eq_some_iff, Option.map_eq_some_iff, Prod.mk.injEq] at h
    obtain ⟨_, -, _, -, -, -, rfl⟩ := h
    rfl

theorem execLoop_gathers {p : Option (PrecondNode Symbol)} {c : Expr Symbol} {body : Store → Result Store Value}
    {inc : Option (AsgNode Symbol)} (hb : ∀ s, (body s).Gathers) (n : Nat) (s : Store) :
    (execLoop (sem.evalCond p c) body (sem.execAsg? inc) n s).Gathers := by
  induction n generalizing s with
  | zero => rfl
  | succ n ih =>
    unfold execLoop
    split
    · rfl
    · rename_i he
      exact evalCond_gathered he
    · rename_i s₁ es he
      refine Result.Gathers.prepend ?_ (evalCond_gathered he)
      have hagain (ho : ∀ m v, (body s₁).outcome ≠ .ret m v) :
          (((sem.execAsg? inc (body s₁).store).seq
            (execLoop (sem.evalCond p c) body (sem.execAsg? inc) n)).prepend (body s₁).trace).Gathers :=
        ((execAsg?_gathers inc _).seq ih).prepend ((hb s₁).trace ho)
      split
      · exact hagain (by simp [*])
      · exact hagain (by simp [*])
      · exact (hb s₁).trace (by simp [*])
      · exact hb s₁

theorem exec_gathers (sem : Sem Store Value) (fuel : Nat) :
    (∀ s : Stmt Symbol, ∀ st, (execStmt sem fuel s st).Gathers) ∧
    ∀ b : Body Symbol, ∀ st, (execBody sem fuel b st).Gathers := by
  apply Stmt.induct
  case asg | def_ => intro n st; exact execPart_gathers rfl _ _
  case ret =>
    intro n st
    simp only [execStmt]
    split
    · rfl
    · exact ⟨[], rfl, rfl⟩
  case for_ => intro node p pre c inc b ih st; exact (execAsg?_gathers pre st).seq (execLoop_gathers ih fuel)
  case if_ =>
    intro node p c b ih st
    simp only [execStmt]
    split
    · rfl
    · rename_i he
      exact (ih _).prepend (evalCond_gathered he)
    · rename_i he
      exact evalCond_gathered he
  case ifElse =>
    intro node p c b e ihb ihe st
    simp only [execStmt]
    split
    · rfl
    · rename_i he
      exact (ihb _).prepend (evalCond_gathered he)
    · rename_i he
      exact (ihe _).prepend (evalCond_gathered he)
  case cons => intro s rest ihs ihr st; exact (ihs st).seq ihr
  all_goals
    intros
    rfl

/-- **Lowering preserves meaning.** An execution that returns is a run of the
emitted code with the same events, to the same store, gathering its result
once and last; and every block reachable from the entry has its terminator. -/
theorem codeGen_refines {f : FunctionNode Unit} {g : FunctionNode Symbol} {inputs : List Symbol}
    (sem : Sem Store Value) {fuel : Nat} (h : f.accept = .ok (g, inputs))
    (hinc : ∀ l ∈ Body.incLoops g.body, some l ∉ Body.contTargets g.body)
    {s s' : Store} {n : ReturnNode Symbol} {v : Value} {es : List (Event Value)}
    (hx : execBody sem fuel g.body s = ⟨.ret n v, s', es⟩) :
    Reaches sem.isa (codeGen g).code (.run 0 0 s) es (.done s') ∧
      (∃ es₀, es = es₀ ++ [.gatherRes n v] ∧ gathered es₀ = []) ∧
      ∀ ls k pc s₁, Run sem.isa (codeGen g).code (.run 0 0 s) ls (.run k pc s₁) →
        Terminated Instr.isTerm ((codeGen g).code k) := by
  obtain ⟨hj, hc⟩ := FunctionNode.accept_jumps h
  have hfits : Gen.start.Fits none (Body.keyIds g.body) (Body.incLoops g.body) (Body.contTargets g.body) :=
    ⟨Nat.one_pos, by simp, g.distinct, hinc⟩
  have hdo : Reaches sem.isa (codeGen g).code (.run 0 0 s) es (.done s') := by
    have := (codeGen_does sem fuel).2 g.body hfits hc (.refl _) s
    rw [hx] at this
    exact this _ rfl
  refine ⟨hdo, ?_, fun ls k pc s₁ hrun => ?_⟩
  · simpa [Result.Gathers, hx] using (exec_gathers sem fuel).2 g.body s
  · obtain ⟨ls', hdone, -⟩ := hdo
    obtain ⟨ls'', hrest⟩ := hrun.rest hdone rfl
    obtain ⟨i, hi, ht⟩ := hrest.leaves rfl rfl
    exact ((codeGen_sealed.2 g.body hj .start).1 k).terminated hi ht

/-- `int f(int n) { int k = 0 while k < 2 { k = k + 1 if k < 2 { continue } } return k }`. -/
def Sample.counts : FunctionNode Unit where
  node := node 0
  retType := ⟨.int, 0⟩
  name := "f"
  args := [param 19 "n" ⟨.int, 0⟩]
  body := [
    .def_ ⟨node 1, "k", ⟨.int, 0⟩, some (num 2 0), ()⟩,
    .for_ (node 3) none none (.binOp (node 4) .lt (ident 5 "k") (num 6 2)) none [
      .asg ⟨node 7, var 8 "k", .binOp (node 9) .sum (ident 10 "k") (num 11 1)⟩,
      .if_ (node 12) none (.binOp (node 13) .lt (ident 14 "k") (num 15 2)) [.cont (node 16) none]],
    ret 17 (ident 18 "k")]
  distinct := by decide

/-- The parts of `Sample.counts`, on a store that holds `k`. -/
def Sample.countsSem : Sem Nat Nat where
  def_ _ _ := some 0
  asg _ s := some (s + 1)
  z3Gen _ _ s := some s
  cond _ s := some (decide (s < 2), s)
  ret _ s := some (s, s)

theorem codeGen_refines_counts : ∃ g inputs n es, Sample.counts.accept = .ok (g, inputs) ∧
    execBody Sample.countsSem 3 g.body 5 = ⟨.ret n 2, 2, es⟩ ∧
    Reaches Sample.countsSem.isa (codeGen g).code (.run 0 0 5) es (.done 2) ∧
    (∃ es₀, es = es₀ ++ [.gatherRes n 2] ∧ gathered es₀ = []) ∧
    ∀ ls k pc s₁, Run Sample.countsSem.isa (codeGen g).code (.run 0 0 5) ls (.run k pc s₁) →
      Terminated Instr.isTerm ((codeGen g).code k) :=
  ⟨_, _, _, _, rfl, rfl, @codeGen_refines _ _ Sample.counts _ _ Sample.countsSem 3 rfl (by decide) _ _ _ _ _ rfl⟩

end DGen
