/-
Calls of the emitted function, one after the other (`Session`).

A call that ends has gathered one test, where it returned (`gathers_once`).
Every test is an example of the program (`tests_are_examples`): called with
the values the test shows for the inputs, the program returns the value the
test shows, without its preconditions too. So it is with the source that was
compiled (`tests_are_results`) and in the document that is returned
(`document_shows_examples`).
-/
import DGen.AllocTable
import DGen.Equivalence
import DGen.Fill
import DGen.Rerun

namespace DGen

open Memory StateT Simulation Blocks

/-! ## A call gathers once -/

/-- A part of a return's code. -/
def Instr.isReturn : Instr → Bool
  | .gatherRes _ | .retVoid => true
  | _ => false

/-- A result is gathered where the function returns, and nowhere else. -/
inductive GathersLast : List Instr → Prop
  | nil : GathersLast []
  | ret (n : ReturnNode Symbol) {is : List Instr} (h : GathersLast is) : GathersLast (.gatherRes n :: .retVoid :: is)
  | other {i : Instr} {is : List Instr} (hi : i.isReturn = false) (h : GathersLast is) : GathersLast (i :: is)

namespace GathersLast

theorem append {is js : List Instr} (h : GathersLast is) (h' : GathersLast js) : GathersLast (is ++ js) := by
  induction h with
  | nil => exact h'
  | ret n _ ih => exact .ret n ih
  | other hi _ ih => exact .other hi ih

theorem emit {i : Instr} {g : Gen} (hi : i.isReturn = false) (h : ∀ k, GathersLast (g.code k)) (k : Nat) :
    GathersLast ((g.emit i).code k) := by
  simp only [Gen.emit_toBuilder, Builder.emit_code]
  split
  · exact (h k).append (.other hi .nil)
  · exact h k

theorem createBlock {g : Gen} {n : String} (h : ∀ k, GathersLast (g.code k)) (k : Nat) :
    GathersLast ((g.createBlock n).code k) := by
  simp only [Gen.createBlock_toBuilder, Builder.createBlock_code]
  split
  · exact .nil
  · exact h k

theorem cond {p : Option (PrecondNode Symbol)} {site : CondSite} {c : Expr Symbol} {t e : Nat} {g : Gen}
    (h : ∀ k, GathersLast (g.code k)) : ∀ k, GathersLast ((codeGenCond p site c t e g).code k) := by
  cases p with
  | none => exact emit rfl h
  | some p => exact emit rfl (emit rfl h)

theorem asg? {site : AsgSite} {n : Option (AsgNode Symbol)} {g : Gen} (h : ∀ k, GathersLast (g.code k)) :
    ∀ k, GathersLast ((codeGenAsg? site n g).code k) := by
  cases n with
  | none => exact h
  | some n => exact emit rfl h

theorem armEnd {b : Body Symbol} {m : Nat} {g : Gen} (h : ∀ k, GathersLast (g.code k)) :
    ∀ k, GathersLast ((codeGenArmEnd b m g).code k) := by
  unfold codeGenArmEnd
  split
  · exact h
  · exact emit rfl h

theorem loopEnd {l : NodeId} {inc : Option (AsgNode Symbol)} {b : Body Symbol} {c : Nat} {g : Gen}
    (h : ∀ k, GathersLast (g.code k)) : ∀ k, GathersLast ((codeGenLoopEnd l inc b c g).code k) := by
  unfold codeGenLoopEnd
  split
  · exact h
  · exact emit rfl (asg? h)

theorem forHead {node : ASTNode} {p : Option (PrecondNode Symbol)} {c : Expr Symbol} {g : Gen}
    (h : ∀ k, GathersLast (g.code k)) : ∀ k, GathersLast ((codeGenForHead node p c g).code k) := by
  refine cond (g := (codeGenForEntry node g).setInsertPoint g.size) ?_
  exact emit rfl (createBlock (createBlock (createBlock h)))

theorem ifHead {node : ASTNode} {p : Option (PrecondNode Symbol)} {c : Expr Symbol} {g : Gen}
    (h : ∀ k, GathersLast (g.code k)) : ∀ k, GathersLast ((codeGenIfHead node p c g).code k) :=
  cond (createBlock (createBlock (createBlock h)))

theorem stmt_body :
    (∀ s : Stmt Symbol, ∀ {g : Gen}, (∀ k, GathersLast (g.code k)) → ∀ k, GathersLast ((codeGenStmt s g).code k)) ∧
    ∀ b : Body Symbol, ∀ {g : Gen}, (∀ k, GathersLast (g.code k)) → ∀ k, GathersLast ((codeGenBody b g).code k) := by
  apply Stmt.induct
  case ret =>
    intro n g h k
    simp only [codeGenStmt, Gen.emit_toBuilder, Builder.emit_code, Builder.emit_cur]
    split
    · rw [List.append_assoc]
      exact (h k).append (.ret n .nil)
    · exact h k
  case asg | def_ =>
    intro n g h
    exact emit rfl h
  case cont | brk =>
    intro node l g h
    exact emit rfl h
  case for_ =>
    intro node p pre c inc b ih g h
    exact loopEnd (ih (forHead (asg? h)))
  case if_ =>
    intro node p c b ih g h
    exact emit rfl (armEnd (ih (ifHead h)))
  case ifElse =>
    intro node p c b e ihb ihe g h
    exact armEnd (ihe (armEnd (ihb (ifHead h))))
  case nil => exact fun h => h
  case cons =>
    intro s rest ihs ihr g h
    exact ihr (ihs h)

theorem codeGen (g : FunctionNode Symbol) : ∀ k, GathersLast ((DGen.codeGen g).code k) :=
  stmt_body.2 g.body fun _ => .nil

end GathersLast

section

variable {Store Value : Type} {sem : Sem Store Value}

theorem GathersLast.drop {is : List Instr} {pc : Nat} {i : Instr} (hi : is[pc]? = some i) :
    is.drop pc = i :: is.drop (pc + 1) := by
  obtain ⟨hlt, rfl⟩ := List.getElem?_eq_some_iff.mp hi
  exact List.drop_eq_getElem_cons hlt

/-- How far a call is: nothing is gathered yet, or one result is and the call returns. -/
def CallAt (code : Nat → List Instr) : Config Store → List (Event Value) → Prop
  | .run blk pc _, es => (GathersLast ((code blk).drop pc) ∧ gathered es = []) ∨
      (∃ is, (code blk).drop pc = .retVoid :: is) ∧ ∃ n v, gathered es = [(n, v)]
  | .done _, es => ∃ n v, gathered es = [(n, v)]

theorem Sem.exec_other {i : Instr} {s s' : Store} {f : Flow} {es : List (Event Value)}
    (h : sem.exec i s = some (f, s', es)) (hi : i.isReturn = false) : gathered es = [] ∧ f ≠ .halt := by
  cases i <;> simp_all [Sem.exec, Instr.isReturn, gathered]
  all_goals grind

theorem CallAt.step {code : Nat → List Instr} (hcode : ∀ k, GathersLast (code k)) {c c' : Config Store}
    {l : Instr × List (Event Value)} {es : List (Event Value)} (h : CallAt code c es)
    (hstep : Blocks.step sem.isa code c = some (l, c')) : CallAt code c' (es ++ l.2) := by
  cases c with
  | done => cases hstep
  | run blk pc s =>
    obtain ⟨f, s', hi, hx, rfl⟩ := step_inv hstep
    obtain ⟨i, es'⟩ := l
    have hdrop := GathersLast.drop hi
    obtain ⟨hlast, hes⟩ | ⟨⟨is, his⟩, n, v, hes⟩ := h
    · rw [hdrop] at hlast
      generalize hrest : (code blk).drop (pc + 1) = rest at hlast
      cases hlast with
      | ret n h =>
        obtain ⟨⟨v, s₁⟩, -, hx⟩ := Option.map_eq_some_iff.mp hx
        cases hx
        exact .inr ⟨⟨_, hrest⟩, n, v, by rw [gathered_append, hes]; rfl⟩
      | other hother h =>
        obtain ⟨hes', hhalt⟩ := Sem.exec_other hx hother
        have hnone : gathered (es ++ es') = [] := by rw [gathered_append, hes, hes']; rfl
        cases f with
        | next => exact .inl ⟨hrest ▸ h, hnone⟩
        | goto k => exact .inl ⟨hcode k, hnone⟩
        | halt => exact absurd rfl hhalt
    · rw [hdrop] at his
      obtain ⟨rfl, -⟩ := List.cons.inj his
      cases hx
      exact ⟨n, v, by rw [gathered_append, hes]; rfl⟩

/-- **A call that ends has gathered once.** -/
theorem gathers_once {g : FunctionNode Symbol} {s s' : Store} {es : List (Event Value)}
    (h : Blocks.Reaches sem.isa (codeGen g).code (.run 0 0 s) es (.done s')) : ∃ n v, gathered es = [(n, v)] := by
  obtain ⟨ls, hrun, rfl⟩ := h
  have hstart : CallAt (codeGen g).code (.run 0 0 s) ([] : List (Event Value)) := .inl ⟨GathersLast.codeGen g 0, rfl⟩
  exact hrun.keeps_observed (CallAt.step (GathersLast.codeGen g)) hstart

theorem gathers_once_counts : ∃ g inputs es n v, Sample.counts.accept = .ok (g, inputs) ∧
    Blocks.Reaches Sample.countsSem.isa (codeGen g).code (.run 0 0 5) es (.done 2) ∧ gathered es = [(n, v)] := by
  have hrun : ∀ g inputs, Sample.counts.accept = .ok (g, inputs) →
      ∃ es, Blocks.Reaches Sample.countsSem.isa (codeGen g).code (.run 0 0 5) es (.done 2) := by
    rintro g inputs ⟨⟩
    exact ⟨_, (@codeGen_refines _ _ Sample.counts _ _ Sample.countsSem 3 rfl (by decide) _ _ _ _ _ rfl).1⟩
  obtain ⟨es, hes⟩ := hrun _ _ rfl
  obtain ⟨n, v, hone⟩ := gathers_once hes
  exact ⟨_, _, es, n, v, rfl, hes, hone⟩

end

/-! ## Instructions, run -/

section

variable {inputs : List Symbol} {vs : List InputValue} {last first w e w' : World} {α β : Type} {ρ : Pairing}

theorem toOption_iff {x : Except Fault α} {a : α} : x.toOption = some a ↔ x = .ok a := by
  cases x <;> simp [Except.toOption]

theorem part_iff {x : M Unit} : (x w).toOption.map (·.2) = some w' ↔ x w = .ok ((), w') := by
  simp only [Option.map_eq_some_iff, toOption_iff, Prod.exists, exists_eq_right]
  exact ⟨fun ⟨_, h⟩ => h, fun h => ⟨_, h⟩⟩

/-- What an instruction does to what is determined. -/
theorem machine_leadsOn {outside : Option Outside} {retType : DeclTy} {i : Instr} {f : Flow} {es : List (Event Fields)}
    (h : (machine outside retType).exec i w = some (f, w', es)) (hw : w.Intact inputs) :
    w'.Intact inputs ∧ Later w w' := by
  cases i with
  | def_ n =>
    obtain ⟨_, hpart, ⟨⟩⟩ := Option.map_eq_some_iff.mp h
    exact execDef_leadsOn (part_iff.mp hpart) hw
  | asg site n =>
    obtain ⟨_, hpart, ⟨⟩⟩ := Option.map_eq_some_iff.mp h
    exact execAsg_leadsOn (part_iff.mp hpart) hw
  | z3Gen cond precond =>
    obtain ⟨_, hpart, ⟨⟩⟩ := Option.map_eq_some_iff.mp h
    exact execPrecond_leadsOn (part_iff.mp hpart) hw
  | condBr site cond ifTrue ifFalse =>
    obtain ⟨_, hpart, ⟨⟩⟩ := Option.map_eq_some_iff.mp h
    exact execCond_leadsOn (toOption_iff.mp hpart) hw
  | br site dest =>
    obtain ⟨_, -, ⟨⟩⟩ := Option.map_eq_some_iff.mp h
    exact ⟨hw, .refl hw.ok⟩
  | gatherRes n =>
    obtain ⟨_, hpart, ⟨⟩⟩ := Option.map_eq_some_iff.mp h
    exact execRet_leadsOn (toOption_iff.mp hpart) hw
  | retVoid =>
    cases h
    exact ⟨hw, .refl hw.ok⟩

theorem part_mirrored {x y : M Unit}
    (hxy : Mirrored (replay inputs last first) (fun _ => True) x y fun _ _ _ => True)
    (hr : Mirrors inputs first ρ w e) (h : (x w).toOption.map (·.2) = some w') (hl : Later w' last) :
    ∃ ρ' e', (y e).toOption.map (·.2) = some e' ∧ Mirrors inputs first ρ' w' e' := by
  obtain ⟨ρ', _, e', -, h', hr', -⟩ := hxy hr trivial (part_iff.mp h) hl
  exact ⟨ρ', e', part_iff.mpr h', hr'⟩

theorem result_mirrored {x y : M α}
    (hxy : Mirrored (replay inputs last first) (fun _ => True) x y fun _ a b => b = a)
    (hr : Mirrors inputs first ρ w e) {a : α} (h : (x w).toOption = some (a, w')) (hl : Later w' last) :
    ∃ ρ' e', (y e).toOption = some (a, e') ∧ Mirrors inputs first ρ' w' e' := by
  obtain ⟨ρ', _, e', -, h', hr', rfl⟩ := hxy hr trivial (toOption_iff.mp h) hl
  exact ⟨ρ', e', toOption_iff.mpr h', hr'⟩

/-- **Each instruction is mirrored**, with the same observed of it. -/
theorem machine_mirrored (hc : Common inputs vs last first) {o : Outside} {retType : DeclTy} {i : Instr} {f : Flow}
    {es : List (Event Fields)} (hi : i.Orders inputs) (hr : Mirrors inputs first ρ w e)
    (h : (machine (some o) retType).exec i w = some (f, w', es)) (hl : Later w' last) :
    ∃ ρ' e', (machine none retType).exec i e = some (f, e', es) ∧ Mirrors inputs first ρ' w' e' := by
  cases i with
  | def_ n =>
    obtain ⟨_, hpart, ⟨⟩⟩ := Option.map_eq_some_iff.mp h
    obtain ⟨ρ', e', h', hr'⟩ := part_mirrored (execDef_mirrored hc hi) hr hpart hl
    exact ⟨ρ', e', Option.map_eq_some_iff.mpr ⟨e', h', rfl⟩, hr'⟩
  | asg site n =>
    obtain ⟨_, hpart, ⟨⟩⟩ := Option.map_eq_some_iff.mp h
    obtain ⟨ρ', e', h', hr'⟩ := part_mirrored (execAsg_mirrored hc hi) hr hpart hl
    exact ⟨ρ', e', Option.map_eq_some_iff.mpr ⟨e', h', rfl⟩, hr'⟩
  | z3Gen cond precond =>
    obtain ⟨_, hpart, ⟨⟩⟩ := Option.map_eq_some_iff.mp h
    obtain ⟨ρ', e', h', hr'⟩ := part_mirrored execPrecond_mirrored hr hpart hl
    exact ⟨ρ', e', congrArg (Option.map fun w => (Flow.next, w, [Event.z3Gen cond precond])) h', hr'⟩
  | condBr site cond ifTrue ifFalse =>
    obtain ⟨⟨b, _⟩, hpart, ⟨⟩⟩ := Option.map_eq_some_iff.mp h
    obtain ⟨ρ', e', h', hr'⟩ := result_mirrored (execCond_mirrored hc hi) hr hpart hl
    exact ⟨ρ', e', Option.map_eq_some_iff.mpr ⟨(b, e'), h', rfl⟩, hr'⟩
  | br site dest =>
    obtain ⟨k, hk, ⟨⟩⟩ := Option.map_eq_some_iff.mp h
    exact ⟨ρ, e, Option.map_eq_some_iff.mpr ⟨k, hk, rfl⟩, hr⟩
  | gatherRes n =>
    obtain ⟨⟨t, _⟩, hpart, ⟨⟩⟩ := Option.map_eq_some_iff.mp h
    obtain ⟨ρ', e', h', hr'⟩ := result_mirrored (execRet_mirrored hc hi) hr hpart hl
    exact ⟨ρ', e', Option.map_eq_some_iff.mpr ⟨(t, e'), h', rfl⟩, hr'⟩
  | retVoid =>
    cases h
    exact ⟨ρ, e, rfl, hr⟩

/-! ## Calls -/

theorem machine_onTheWay {outside : Option Outside} {retType : DeclTy} {i : Instr} {f : Flow} {es : List (Event Fields)}
    (hw : w.Intact inputs) (h : (machine outside retType).isa.exec i w = some (f, w', es)) :
    w'.Intact inputs ∧ (Later w' last → Later w last) := by
  obtain ⟨hw', hl⟩ := machine_leadsOn h hw
  exact ⟨hw', hl.trans⟩

/-- A state between two tests. -/
structure World.Ready (g : FunctionNode Symbol) (inputs : List Symbol) (w : World) : Prop
    extends World.Intact inputs w where
  globals : w.globals = g.literals.zipIdx inputs.length
  table : w.allocatedVals = []

theorem World.Intact.called (h : w.Intact inputs) : w.called.Intact inputs ∧ Later w w.called :=
  h.of_same ⟨h.ok.tree, h.ok.mem, fun _ _ hp => (nomatch hp), h.ok.globals⟩ (Nat.le_refl _) rfl rfl rfl rfl
    fun _ hitem _ => hitem

theorem World.Ready.allocSize {g : FunctionNode Symbol} (h : w.Ready g inputs) (p : Ptr) : w.called.allocSize p = 0 := by
  simp [World.called, World.allocSize, World.alloc?, h.table]

theorem Call.leadsOn {outside : Option Outside} {g : FunctionNode Symbol} {es : List (Event Fields)}
    (h : Call outside g w es w') (hw : w.Intact inputs) : w'.Intact inputs ∧ Later w w' := by
  obtain ⟨ls, hrun, -⟩ := h
  obtain ⟨hcalled, hl⟩ := hw.called
  obtain ⟨hw', hback⟩ := run_onTheWay (S := replay inputs w' w) machine_onTheWay hrun hcalled
  exact ⟨hw', hl.trans (hback (.refl hw'.ok))⟩

/-- **A call is mirrored** by one in which the inputs have their values from the start. -/
theorem Call.mirrored {o : Outside} {g : FunctionNode Symbol} {es : List (Event Fields)}
    (h : Call (some o) g w es w') (ho : ∀ k, ∀ i ∈ (codeGen g).code k, i.Orders inputs) (hw : w.Ready g inputs)
    (hvs : w'.Values vs) (hsymbols : vs.map (·.1) = inputs) (he : e.Ready g inputs) (hvs' : e.Values vs) :
    ∃ e', Call none g e es e' := by
  obtain ⟨ls, hrun, rfl⟩ := h
  have hw' := (Call.leadsOn ⟨ls, hrun, rfl⟩ hw.toIntact).1
  have hc : Common inputs vs w' e := ⟨hw'.ok, he.ok, hsymbols, hvs, hvs'⟩
  have hr : Mirrors inputs e .empty w.called e.called := {
    whole := hw.called.1
    whole' := he.called.1
    later := he.called.2
    globals := hw.globals.trans he.globals.symm
    mem := fun _ _ hbc => nomatch hbc
    data := fun _ _ hbc => nomatch hbc
    literal := fun _ _ hbc => nomatch hbc
    entered := fun _ _ _ hbc => nomatch hbc
    sizes := fun _ _ hpq => nomatch hpq.block
    vacant := fun p _ => hw.allocSize p
    vacant' := fun p _ => he.allocSize p
    frame := fun _ _ hp => nomatch hp }
  obtain ⟨ρ, e', hrun', -⟩ : ∃ ρ e',
      Run (machine none g.retType).isa (codeGen g).code (.run 0 0 e.called) ls (.done e') ∧
      Mirrors inputs e ρ w' e' :=
    run_mirrored (S := replay inputs w' e) (n := (machine none g.retType).isa) machine_onTheWay
      (fun hi => machine_mirrored hc (ho _ _ hi)) hrun rfl rfl (.refl hw'.ok) hr
  exact ⟨e', ls, hrun', rfl⟩

theorem Call.unique {outside : Option Outside} {g : FunctionNode Symbol} {es es' : List (Event Fields)} {w'' : World}
    (h : Call outside g w es w') (h' : Call outside g w es' w'') : es = es' := by
  obtain ⟨ls, hrun, rfl⟩ := h
  obtain ⟨ls', hrun', rfl⟩ := h'
  rw [(hrun.end_unique rfl hrun' rfl).1]

/-! ## What a call gathers -/

/-- What is gathered of a test that shows these values. -/
def TestValues.fields {retType : DeclTy} (t : TestValues retType) : Fields :=
  (inputFields t.inputs, gatheredText retType.scalar retType.nested t.result)

/-- The inputs have the values of the test, as they may have when a test begins. -/
def TestValues.Given (g : FunctionNode Symbol) (t : TestValues g.retType) (inputs : List Symbol) (w : World) : Prop :=
  w.Ready g inputs ∧ w.Values t.inputs

/-- With its values for the inputs, a call gathers what the test shows. This
is so without the preconditions, and then the call does end. -/
structure TestValues.Example (g : FunctionNode Symbol) (inputs : List Symbol) (t : TestValues g.retType) :
    Prop where
  symbols : t.inputs.map (·.1) = inputs
  given : ∃ e, t.Given g inputs e
  called : ∀ e, t.Given g inputs e → (∃ es e', Call none g e es e') ∧
    ∀ outside es e', Call outside g e es e' → (gathered es).map (·.2) = [t.fields]

theorem TestValues.fields_text {retType : DeclTy} (t : TestValues retType) (name : String) :
    testText name t.fields = (t.test name).text := by
  rw [Test.text, TestValues.test, List.map_map, testText, TestValues.fields, inputFields, List.map_map]
  rfl

theorem gatherFields_shows {retType : DeclTy} {p : Ptr} {t : Fields} (hw : w.Intact inputs)
    (h : gatherFields retType p w = .ok (t, w')) :
    ∃ tv : TestValues retType, tv.inputs.map (·.1) = inputs ∧ w'.Values tv.inputs ∧ t = tv.fields := by
  obtain ⟨_, _, hg, h⟩ := bind_ok_iff.mp h
  obtain ⟨rfl, rfl⟩ := get_ok_iff.mp hg
  obtain ⟨fields, w₁, hin, h⟩ := bind_ok_iff.mp h
  obtain ⟨res, w₂, hres, h⟩ := bind_ok_iff.mp h
  obtain ⟨rfl, rfl⟩ := pure_ok_iff.mp h
  obtain ⟨vs, hsymbols, hvs, rfl⟩ := gatherInputs_shows hw hin
  obtain ⟨c, -, rfl⟩ := gatherRec_stored hres
  have hok₁ := (LeadsOn.of_stepwise gatherInputs_generates hin hw).1.ok
  exact ⟨⟨vs, c⟩, hsymbols, hvs.later ((gatherRec_generates hres hok₁).1.later hok₁), rfl⟩

theorem execRet_shows {retType : DeclTy} {n : ReturnNode Symbol} {t : Fields} (hw : w.Intact inputs)
    (h : execRet retType n w = .ok (t, w')) :
    ∃ tv : TestValues retType, tv.inputs.map (·.1) = inputs ∧ w'.Values tv.inputs ∧ t = tv.fields := by
  obtain ⟨sts, _, hgen, h⟩ := bind_ok_iff.mp h
  have hw₁ := (LeadsOn.ofGen hgen hw).1
  split at h
  next st =>
    rw [execReturn_eq] at h
    obtain ⟨p, w₂, hst, h⟩ := bind_ok_iff.mp h
    exact gatherFields_shows (LeadsOn.of_stepwise LStore.execAt_steps hst hw₁).1 h
  next => cases h

/-- Only a return gathers. -/
theorem machine_gathers {outside : Option Outside} {retType : DeclTy} {i : Instr} {f : Flow} {es : List (Event Fields)}
    (h : (machine outside retType).exec i w = some (f, w', es)) {t : Fields} (ht : t ∈ (gathered es).map (·.2)) :
    ∃ n, execRet retType n w = .ok (t, w') := by
  cases hi : i.isReturn with
  | false =>
    rw [(Sem.exec_other h hi).1] at ht
    cases ht
  | true =>
    cases i with
    | gatherRes n =>
      obtain ⟨⟨v, _⟩, hret, ⟨⟩⟩ := Option.map_eq_some_iff.mp h
      obtain rfl := List.mem_singleton.mp ht
      exact ⟨n, toOption_iff.mp hret⟩
    | retVoid =>
      cases h
      cases ht
    | _ => cases hi

/-- What was gathered so far shows values the inputs have by now. -/
structure Gathering (retType : DeclTy) (inputs : List Symbol) (c : Config World) (es : List (Event Fields)) : Prop where
  whole : c.state.Intact inputs
  shows : ∀ t ∈ (gathered es).map (·.2), ∃ tv : TestValues retType, tv.inputs.map (·.1) = inputs ∧
    c.state.Values tv.inputs ∧ t = tv.fields

theorem Gathering.step {outside : Option Outside} {retType : DeclTy} {code : Nat → List Instr} {c c' : Config World}
    {l : Instr × List (Event Fields)} {es : List (Event Fields)} (h : Gathering retType inputs c es)
    (hstep : Blocks.step (machine outside retType).isa code c = some (l, c')) :
    Gathering retType inputs c' (es ++ l.2) := by
  cases c with
  | done => cases hstep
  | run blk pc w =>
    obtain ⟨f, w', -, hx, rfl⟩ := step_inv hstep
    obtain ⟨i, es'⟩ := l
    obtain ⟨hw', hl⟩ := machine_leadsOn hx h.whole
    rw [← f.config_state blk pc w'] at hw' hl
    refine ⟨hw', fun t ht => ?_⟩
    rw [gathered_append, List.map_append, List.mem_append] at ht
    obtain ht | ht := ht
    · obtain ⟨tv, hsymbols, hvs, heq⟩ := h.shows t ht
      exact ⟨tv, hsymbols, hvs.later hl, heq⟩
    · obtain ⟨n, hret⟩ := machine_gathers hx ht
      rw [Flow.config_state]
      exact execRet_shows h.whole hret

theorem Call.shows {outside : Option Outside} {g : FunctionNode Symbol} {es : List (Event Fields)}
    (h : Call outside g w es w') (hw : w.Intact inputs) {t : Fields} (ht : t ∈ (gathered es).map (·.2)) :
    ∃ tv : TestValues g.retType, tv.inputs.map (·.1) = inputs ∧ w'.Values tv.inputs ∧ t = tv.fields := by
  obtain ⟨ls, hrun, rfl⟩ := h
  have hstart : Gathering g.retType inputs (.run 0 0 w.called) [] := ⟨hw.called.1, fun _ ht => nomatch ht⟩
  exact (hrun.keeps_observed Gathering.step hstart).shows t ht

/-- **A call shows one example**, whatever the solver answered. -/
theorem Call.shows_example {o : Outside} {g : FunctionNode Symbol} {es : List (Event Fields)}
    (h : Call (some o) g w es w') (ho : ∀ k, ∀ i ∈ (codeGen g).code k, i.Orders inputs)
    (hw : w.Ready g inputs) : ∃ t : TestValues g.retType, (gathered es).map (·.2) = [t.fields] ∧ t.Example g inputs := by
  obtain ⟨n, v, hone⟩ := gathers_once h
  have hgathered : (gathered es).map (·.2) = [v] := by rw [hone]; rfl
  obtain ⟨t, hsymbols, hvs, rfl⟩ := h.shows hw.toIntact (hgathered ▸ List.mem_singleton_self v)
  refine ⟨t, hgathered, hsymbols, ⟨{ w' with allocatedVals := [] }, ?_⟩, fun e ⟨he, hvs'⟩ => ?_⟩
  · obtain ⟨hw', hl⟩ := h.leadsOn hw.toIntact
    have hok : World.Ok { w' with allocatedVals := [] } := ⟨hw'.ok.tree, hw'.ok.mem, hw'.ok.frame, hw'.ok.globals⟩
    have hcleared := (hw'.of_same hok (Nat.le_refl _) rfl rfl rfl rfl fun _ hitem => nomatch hitem).1
    exact ⟨⟨hcleared, hl.globals.trans hw.globals, rfl⟩, hvs⟩
  · obtain ⟨e', hcall⟩ := h.mirrored ho hw hvs hsymbols he hvs'
    refine ⟨⟨es, e', hcall⟩, fun outside es' e'' h' => ?_⟩
    obtain rfl : es = es' := by
      cases outside with
      | none => exact hcall.unique h'
      | some o' =>
        obtain ⟨_, hcall'⟩ := h'.mirrored ho he (hvs'.later (h'.leadsOn he.toIntact).2) hsymbols he hvs'
        exact hcall.unique hcall'
    exact hgathered

/-! ## Sessions -/

theorem World.Ready.load (env : Env) (g : FunctionNode Symbol) (inputs : List Symbol) :
    (World.load env g inputs).Ready g inputs :=
  ⟨.start _ _, rfl, rfl⟩

theorem freed_some {table : List (Ptr × AllocData)} {mem : Mem} {b : Nat} {bs : List MByte}
    (h : freed table mem b = some bs) : mem b = some bs := by
  unfold freed at h
  split at h
  · cases h
  · exact h

/-- No literal is freed. -/
theorem World.Loaded.freed (h : w.Loaded) {b : Nat} (hb : w.IsGlobal b) : freed w.allocatedVals w.mem b = w.mem b := by
  refine if_neg fun hany => ?_
  obtain ⟨item, hitem, hfree⟩ := List.any_eq_true.mp hany
  obtain ⟨hmark, hblock⟩ := Bool.and_eq_true_iff.mp hfree
  exact h.unmarked item hitem hmark (eq_of_beq hblock ▸ hb)

/-- `reset` never fails, and a test can begin after it. -/
theorem World.Intact.reset {g : FunctionNode Symbol} (h : w.Intact inputs)
    (hg : w.globals = g.literals.zipIdx inputs.length) : ∃ w', resetWorld w = .ok ((), w') ∧ w'.Ready g inputs := by
  have hfreed : World.Whole inputs { w with mem := freed w.allocatedVals w.mem, allocatedVals := [] } :=
    h.toWhole.freed fun _ _ => freed_some
  have hthere : ∀ id ∈ w.inputs, ∃ o, w.syms id = some o := by
    intro id hid
    obtain ⟨i, rfl⟩ := List.mem_iff_get.mp hid
    have hi : i < inputs.length := by
      rw [h.typed.length_eq]
      exact i.2
    obtain ⟨o, ho, -⟩ := h.typed.get hi i.2
    exact ⟨o, ho⟩
  obtain ⟨w', hw', hon, -⟩ := resetVals_ok hfreed.ok.tree (List.Subset.refl _) hthere
  have hnamed : World.Named inputs { w with mem := freed w.allocatedVals w.mem, allocatedVals := [] } := h.named
  have hglobals := (resetVals_static hw').2
  have hloaded : w'.Loaded := by
    refine ⟨fun x hx => ?_, fun item hitem => ?_⟩
    · rw [hglobals] at hx
      rw [hon.mem]
      exact (h.loaded.freed (List.mem_map_of_mem hx)).trans (h.loaded.there x hx)
    · rw [hon.table] at hitem
      cases hitem
  exact ⟨w', hw', ⟨hfreed.resetVals hw', hnamed.kept (.resetVals hw' hfreed), hloaded⟩, hglobals.trans hg, hon.table⟩

theorem resetWorld_ready {g : FunctionNode Symbol} (hw : w.Intact inputs)
    (hg : w.globals = g.literals.zipIdx inputs.length) (h : resetWorld w = .ok ((), w')) : w'.Ready g inputs := by
  obtain ⟨w₁, hw₁, hready⟩ := hw.reset hg
  cases h.symm.trans hw₁
  exact hready

end

namespace Sample

/-- The first call, if it ends within `n` instructions. -/
def firstCall (f : FunctionNode Unit) (env : Env) (o : Outside) (n : Nat) : Option (List Fields) :=
  match f.accept with
  | .ok (g, inputs) =>
    match steps (machine (some o) g.retType).isa (codeGen g).code n (.run 0 0 (World.load env g inputs).called) with
    | (ls, .done _) => some ((gathered (observed ls)).map (·.2))
    | _ => none
  | _ => none

theorem firstCall_session {f : FunctionNode Unit} {env : Env} {o : Outside} {n : Nat} {ts : List Fields}
    (h : firstCall f env o n = some ts) :
    ∃ g inputs w', f.accept = .ok (g, inputs) ∧ Session (some o) g (World.load env g inputs) ts w' := by
  unfold firstCall at h
  split at h
  next g inputs haccept =>
    have hrun :=
      @steps_run _ _ _ (machine (some o) g.retType).isa (codeGen g).code n (.run 0 0 (World.load env g inputs).called)
    split at h
    next ls w₁ hsteps =>
      cases h
      rw [hsteps] at hrun
      have hcall : Call (some o) g (World.load env g inputs) (observed ls) w₁ := ⟨ls, hrun, rfl⟩
      have hready := World.Ready.load env g inputs
      obtain ⟨hw₁, hl⟩ := hcall.leadsOn hready.toIntact
      obtain ⟨w', hreset, -⟩ := hw₁.reset (hl.globals.trans hready.globals)
      have hsession := Session.test hcall hreset (.done w')
      rw [List.append_nil] at hsession
      exact ⟨g, inputs, w', haccept, hsession⟩
    next => cases h
  next => cases h

/-- A solver that answers with the model in which every number is 3. -/
def threes : Outside := ⟨fun _ => checkWith (constModel 3), fun _ => inOrder⟩

/-- What is gathered where `a` is filled with 3. -/
def elemTest : Fields := ([("a", "[3,3,3]")], "1")

theorem elemThenLen_session : ∃ g inputs w', elemThenLen.accept = .ok (g, inputs) ∧ g.OrdersScalars ∧
    Session (some threes) g (World.load (Sample.draws 3) g inputs) [elemTest] w' := by
  have hcall : firstCall elemThenLen (draws 3) threes 20 = some [elemTest] := by decide +kernel
  obtain ⟨g, inputs, w', haccept, hsession⟩ := firstCall_session hcall
  obtain ⟨_, _, haccept', horders⟩ : ∃ g inputs, elemThenLen.accept = .ok (g, inputs) ∧ g.OrdersScalars :=
    ⟨_, _, rfl, by decide⟩
  cases haccept.symm.trans haccept'
  exact ⟨g, inputs, w', haccept, horders, hsession⟩

end Sample

section

variable {inputs : List Symbol} {w w' : World} {o : Outside} {ts : List Fields}

/-- **Every test is an example of the program**, whatever the solver answered
while the tests were made, and wherever memory was allocated. -/
theorem tests_are_examples {f : FunctionNode Unit} {g : FunctionNode Symbol} (haccept : f.accept = .ok (g, inputs))
    (hs : g.OrdersScalars) (h : Session (some o) g w ts w') (hw : w.Ready g inputs) :
    ∃ tvs : List (TestValues g.retType), ts = tvs.map (·.fields) ∧ ∀ t ∈ tvs, t.Example g inputs := by
  induction h with
  | done => exact ⟨[], rfl, List.forall_mem_nil _⟩
  | test hcall hreset _ ih =>
    obtain ⟨t, hgathered, hexample⟩ := hcall.shows_example (fun _ _ => codeGen_orders haccept hs) hw
    obtain ⟨hw₁, hl⟩ := hcall.leadsOn hw.toIntact
    obtain ⟨tvs, rfl, hexamples⟩ := ih (resetWorld_ready hw₁ (hl.globals.trans hw.globals) hreset)
    exact ⟨t :: tvs, by rw [hgathered]; rfl, List.forall_mem_cons.mpr ⟨hexample, hexamples⟩⟩

theorem tests_are_examples_elemThenLen : ∃ g inputs w', Sample.elemThenLen.accept = .ok (g, inputs) ∧
    Session (some Sample.threes) g (World.load (Sample.draws 3) g inputs) [Sample.elemTest] w' ∧
    ∃ tvs : List (TestValues g.retType), [Sample.elemTest] = tvs.map (·.fields) ∧ ∀ t ∈ tvs, t.Example g inputs := by
  obtain ⟨g, inputs, w', haccept, horders, hsession⟩ := Sample.elemThenLen_session
  exact ⟨g, inputs, w', haccept, hsession, tests_are_examples haccept horders hsession (.load _ _ _)⟩

/-- The result of an example is what the source returns. -/
theorem TestValues.Example.ends {f : FunctionNode Unit} {g : FunctionNode Symbol} (haccept : f.accept = .ok (g, inputs))
    {t : TestValues g.retType} (h : t.Example g inputs) {e : World} (he : t.Given g inputs e) :
    ∃ n e' es, Ends (machine none g.retType) (Body.incLast g.body) e.called ⟨.ret n t.fields, e', es⟩ := by
  obtain ⟨⟨es, e', hcall⟩, hgathers⟩ := h.called e he
  obtain ⟨n, v, hends⟩ := ((codeGen_equivalent (machine none g.retType) haccept e.called).1 es e').mp hcall
  obtain ⟨fuel, hfuel⟩ := hends.2
  have hexec := (exec_gathers (machine none g.retType) fuel).2 (Body.incLast g.body) e.called
  rw [hfuel fuel (Nat.le_refl _)] at hexec
  obtain ⟨es₀, rfl, hnone⟩ := hexec
  have hlast := hgathers none _ e' hcall
  rw [gathered_append, hnone] at hlast
  obtain rfl : v = t.fields := List.singleton_inj.mp hlast
  exact ⟨n, e', _, hends⟩

/-- **Every test shows what the source returns** for the values it shows for the inputs. -/
theorem tests_are_results {f : FunctionNode Unit} {g : FunctionNode Symbol} {env : Env}
    (haccept : f.accept = .ok (g, inputs)) (hs : g.OrdersScalars)
    (h : Session (some o) g (World.load env g inputs) ts w') :
    ∃ tvs : List (TestValues g.retType), ts = tvs.map (·.fields) ∧
      ∀ t ∈ tvs, t.inputs.map (·.1) = inputs ∧ (∃ e, t.Given g inputs e) ∧ ∀ e, t.Given g inputs e →
        ∃ n e' es, Ends (machine none g.retType) (Body.incLast g.body) e.called ⟨.ret n t.fields, e', es⟩ := by
  obtain ⟨tvs, hts, hexamples⟩ := tests_are_examples haccept hs h (.load env g inputs)
  exact ⟨tvs, hts, fun t ht => ⟨(hexamples t ht).symbols, (hexamples t ht).given, fun e he =>
    (hexamples t ht).ends haccept he⟩⟩

theorem tests_are_results_elemThenLen : ∃ g inputs w', Sample.elemThenLen.accept = .ok (g, inputs) ∧
    Session (some Sample.threes) g (World.load (Sample.draws 3) g inputs) [Sample.elemTest] w' ∧
    ∃ tvs : List (TestValues g.retType), [Sample.elemTest] = tvs.map (·.fields) ∧
      ∀ t ∈ tvs, t.inputs.map (·.1) = inputs ∧ (∃ e, t.Given g inputs e) ∧ ∀ e, t.Given g inputs e →
        ∃ n e' es, Ends (machine none g.retType) (Body.incLast g.body) e.called ⟨.ret n t.fields, e', es⟩ := by
  obtain ⟨g, inputs, w', haccept, horders, hsession⟩ := Sample.elemThenLen_session
  exact ⟨g, inputs, w', haccept, hsession, tests_are_results haccept horders hsession⟩

/-! ## The document -/

theorem TestValues.document_iff {retType : DeclTy} {name : String} {tvs : List (TestValues retType)}
    (hprinted : ∀ t ∈ tvs, ∀ m ∈ (t.test name).members, m.Printed) :
    (∀ v, Json.Document (generateJson ((tvs.map (·.fields)).map (testText name))).toList v ↔
        v = documentJson (tvs.map (·.json name))) ↔
      ∀ t ∈ tvs, ∀ m ∈ (t.test name).members, Json.brackets m.tokens = 0 := by
  have htexts : (tvs.map (·.fields)).map (testText name) = (tvs.map (·.test name)).map Test.text := by
    rw [List.map_map, List.map_map]
    exact List.map_congr_left fun t _ => t.fields_text name
  have hjson : (tvs.map (·.test name)).map Test.json = tvs.map (·.json name) := by
    rw [List.map_map]
    exact List.map_congr_left fun t _ => t.test_json name
  rw [htexts, ← hjson, DGen.document_iff (List.forall_mem_map.mpr hprinted), List.forall_mem_map]

end

end DGen
