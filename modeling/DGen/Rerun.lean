/-
Every test is an example of the program: called with the values the test shows
for the inputs, and without its preconditions, the program returns the value
the test shows (`tests_are_examples`).

A test comes about in a run in which the solver is asked, inputs are drawn
where they are first read, and some are filled with the solver's values. The
call with all inputs determined from the start is a run beside it, instruction
by instruction (`machine_mirrored`).
-/
import DGen.Forcing
import DGen.Mirror

namespace DGen

open Memory StateT Simulation Blocks

/-! ## The parts of statements, run -/

/-- What is determined stays, and so do the inputs with their names. -/
def LeadsOn {α : Type} (inputs : List Symbol) (x : M α) : Prop :=
  ∀ ⦃w a w'⦄, x w = .ok (a, w') → w.Intact inputs → w'.Intact inputs ∧ Later w w'

section

variable {inputs : List Symbol} {last first : World} {α β : Type} {x : M α} {f : α → M β}

namespace LeadsOn

theorem bind (hx : LeadsOn inputs x) (hf : ∀ a, LeadsOn inputs (f a)) : LeadsOn inputs (x >>= f) := by
  intro w b w' h hw
  obtain ⟨a, w₁, hx', hf'⟩ := bind_ok_iff.mp h
  obtain ⟨hw₁, hl₁⟩ := hx hx' hw
  obtain ⟨hw', hl'⟩ := hf a hf' hw₁
  exact ⟨hw', hl₁.trans hl'⟩

theorem read (h : ∀ {w a w'}, x w = .ok (a, w') → w = w') : LeadsOn inputs x := by
  intro w a w' hrun hw
  obtain rfl := h hrun
  exact ⟨hw, .refl hw.ok⟩

theorem pure {a : α} : LeadsOn inputs (pure a : M α) := read fun h => (pure_ok_iff.mp h).2

theorem fault {e : Fault} : LeadsOn inputs (DGen.fault e : M α) := fun _ _ _ h => nomatch h

theorem of_stepwise {post : World → α → Prop} (h : Stepwise x post) : LeadsOn inputs x := by
  intro w a w' hrun hw
  have hs := (h hrun hw.ok).1
  exact ⟨hw.steps hs, hs.later hw.ok⟩

theorem onTheWay (h : LeadsOn inputs x) : OnTheWay (replay inputs last first) x := by
  intro w hw a w' hrun
  obtain ⟨hw', hl⟩ := h hrun hw
  exact ⟨hw', hl.trans⟩

/-- A part for which there is code, or nothing. -/
theorem ofGen {o : Except GenFault α} : LeadsOn inputs (ofGen o) := by
  cases o with
  | ok a => exact pure
  | error e => cases e <;> exact fault

end LeadsOn

theorem World.Intact.of_same {w w' : World} (h : w.Intact inputs) (hok : w'.Ok) (hnext : w.next ≤ w'.next)
    (hsyms : w'.syms = w.syms) (hinputs : w'.inputs = w.inputs) (hglobals : w'.globals = w.globals)
    (hmem : w'.mem = w.mem) (hmarked : ∀ item ∈ w'.allocatedVals, item.2.isAlloc = true → item ∈ w.allocatedVals) :
    w'.Intact inputs ∧ Later w w' := by
  refine ⟨⟨⟨hok, h.alive.of_syms hsyms, ?_⟩, ?_, h.loaded.same hglobals hmem hmarked⟩,
    .of_syms h.ok hinputs hglobals hnext hsyms⟩
  · exact h.typed_of_kept hinputs fun id o _ ho => ⟨o, (congrFun hsyms id).trans ho, rfl⟩
  · exact h.named.kept (.of_syms hinputs hsyms)

/-- A store, and the address it was to. -/
def LStore.execAt (st : LStore) : M Ptr := do
  let p ← asPtr (← st.addr.eval)
  storeMem p (← st.val.eval)
  return p

theorem LStore.exec_eq (st : LStore) : st.exec = (do let _ ← st.execAt; return ()) := by
  simp [exec, execAt]

theorem LStore.execAt_steps {st : LStore} : Stepwise st.execAt World.DataPtr := by
  intro w p w' h hok
  obtain ⟨a, w₁, ha, h⟩ := bind_ok_iff.mp h
  obtain ⟨hs₁, haddr⟩ := st.addr.eval_steps ha hok
  obtain ⟨p, _, hp, h⟩ := bind_ok_iff.mp h
  obtain ⟨rfl, rfl⟩ := asPtr_ok_iff.mp hp
  obtain ⟨v, w₂, hv, h⟩ := bind_ok_iff.mp h
  obtain ⟨hs₂, hval⟩ := st.val.eval_steps hv (hs₁.ok hok)
  have hp₂ := hs₂.dataPtr (haddr p rfl)
  obtain ⟨_, w₃, hst, h⟩ := bind_ok_iff.mp h
  obtain ⟨hglobal, m, hm, rfl⟩ := (storeMem_ok_iff hp₂.1).mp hst
  obtain ⟨rfl, rfl⟩ := pure_ok_iff.mp h
  have hs₃ : w₂.Step { w₂ with mem := m } := .store hp₂ hglobal hval hm
  exact ⟨(hs₁.trans hs₂).tail hs₃, hp₂⟩

theorem execStores_generates : ∀ {sts : List LStore}, Generates (execStores sts)
  | [] => .pure fun _ => trivial
  | st :: _ =>
    have hst : Generates st.exec := fun _ _ _ h hok => ⟨st.exec_steps h hok, trivial⟩
    hst.bind fun _ => execStores_generates

theorem execAlloca_leadsOn {s : Symbol} {t : LTy} : LeadsOn inputs (execAlloca s t) := by
  intro w u w' h hw
  obtain ⟨hok', w₁, frame, hs, rfl⟩ := execAlloca_steps h hw.ok
  obtain ⟨hw', hl⟩ := (hw.steps hs).of_same hok' (Nat.le_refl _) rfl rfl rfl rfl fun _ hitem _ => hitem
  exact ⟨hw', (hs.later hw.ok).trans hl⟩

theorem execDef_leadsOn {n : DefNode Symbol} : LeadsOn inputs (execDef n) :=
  .bind .ofGen fun _ => execAlloca_leadsOn.bind fun _ => .bind .ofGen fun _ => .of_stepwise execStores_generates

theorem execAsg_leadsOn {n : AsgNode Symbol} : LeadsOn inputs (execAsg n) :=
  .bind .ofGen fun _ => .of_stepwise execStores_generates

theorem execCond_leadsOn {cond : Expr Symbol} : LeadsOn inputs (execCond cond) := by
  refine .bind .ofGen fun v => .bind (.of_stepwise v.eval_steps) fun b => ?_
  split
  · exact .pure
  · exact .fault

theorem gatherRec_generates {s : ScalarType} {n : Nat} {res : Ptr} : Generates (gatherRec s n res) := by
  intro w t w' h _
  have hlooked := LooksUp.gatherRec h
  rw [hlooked.rest]
  exact ⟨.single (.alloc w _ fun item hitem hmark => .inl (hlooked.marked item hitem hmark)), trivial⟩

theorem gatherFields_generates {retType : DeclTy} {res : Ptr} : Generates (gatherFields retType res) := by
  have hget : Generates (get : M World) := .read fun h => ⟨(get_ok_iff.mp h).2, fun _ => trivial⟩
  exact hget.bind fun _ => gatherInputs_generates.bind fun _ => gatherRec_generates.map fun _ _ _ => trivial

theorem execReturn_eq (retType : DeclTy) (st : LStore) :
    execReturn retType st = (do gatherFields retType (← st.execAt)) := by
  simp [execReturn, LStore.execAt]

theorem execRet_leadsOn {retType : DeclTy} {n : ReturnNode Symbol} : LeadsOn inputs (execRet retType n) := by
  refine .bind .ofGen fun sts => ?_
  split
  next st =>
    rw [execReturn_eq]
    exact .of_stepwise (LStore.execAt_steps.bind fun _ => gatherFields_generates)
  next => exact .fault

theorem execAll_leadsOn : ∀ {cs : List Callback}, LeadsOn inputs (execAll cs)
  | [] => .pure
  | c :: _ => by
    refine LeadsOn.bind (fun w _ w' h hw => ?_) fun _ => execAll_leadsOn
    obtain ⟨hok', w₁, ctx, hs, rfl⟩ := c.exec_steps h hw.ok
    obtain ⟨hw', hl⟩ := (hw.steps hs).of_same hok' (Nat.le_refl _) rfl rfl rfl rfl fun _ hitem _ => hitem
    exact ⟨hw', (hs.later hw.ok).trans hl⟩

/-- Nothing is lost that was determined when the solver is asked. -/
theorem execPrecond_leadsOn {outside : Option Outside} {cond : Expr Symbol} {precond : PrecondNode Symbol} :
    LeadsOn inputs (execPrecond outside cond precond) := by
  cases outside with
  | none => exact .pure
  | some o =>
    refine .bind .ofGen fun _ => execAll_leadsOn.bind fun _ => .bind (.read fun h => (get_ok_iff.mp h).2) fun w => ?_
    intro w₁ u w' h hw
    have hleaves := (Leaving.startZ3Gen h hw.ok).2
    refine ⟨⟨Maintains.startZ3Gen h hw.toWhole, ?_, ?_⟩, (startZ3Gen_keeps h hw.ok).2⟩
    · exact hw.named.kept (World.KeepsNames.startZ3Gen h hw.ok)
    · exact hw.loaded.same hleaves.globals hleaves.mem hleaves.marked

theorem execPrecond_adds {outside : Option Outside} {cond : Expr Symbol} {precond : PrecondNode Symbol} {lo : Nat} :
    AddsFrom lo (execPrecond outside cond precond) := by
  cases outside with
  | none => exact .pure
  | some o =>
    have hgen : AddsFrom lo (ofGen (prepareEvalCtx cond precond)) := by
      cases prepareEvalCtx cond precond with
      | ok cs => exact .pure
      | error e => cases e <;> exact .fault
    exact hgen.bind fun _ => AddsFrom.execAll.bind fun _ => (Leaving.get.bind fun _ => .startZ3Gen).adds

/-- **What the program has is not touched for the solver**: the calls for a
precondition leave its locals, its blocks and the sizes of its arrays as they
were, and what is determined of its inputs. A literal that is evaluated for
them has its length. -/
theorem precond_transparent {o : Outside} {cond : Expr Symbol} {precond : PrecondNode Symbol} {w w' : World}
    (h : execPrecond (some o) cond precond w = .ok ((), w')) (hw : w.Intact inputs) :
    w'.Intact inputs ∧ Later w w' ∧ w.Adds w.next w' := by
  obtain ⟨hw', hl⟩ := execPrecond_leadsOn h hw
  exact ⟨hw', hl, (execPrecond_adds h hw.ok (Nat.le_refl _)).2⟩

theorem precond_transparent_belowFive : ∃ w w' : World, w = World.start (Sample.draws 0) [Sample.inputN] ∧
    execPrecond (some ⟨fun _ => checkWith Sample.zeroModel, fun _ => Sample.inOrder⟩) Sample.belowFive Sample.natural w =
      .ok ((), w') ∧ w'.Intact [Sample.inputN] ∧ Later w w' ∧ w.Adds w.next w' := by
  obtain ⟨w', hw'⟩ : ∃ w', execPrecond (some ⟨fun _ => checkWith Sample.zeroModel, fun _ => Sample.inOrder⟩)
      Sample.belowFive Sample.natural (World.start (Sample.draws 0) [Sample.inputN]) = .ok ((), w') := ⟨_, rfl⟩
  exact ⟨_, w', rfl, hw', precond_transparent hw' (.start _ _)⟩

end

/-! ## Side by side -/

section

variable {inputs : List Symbol} {vs : List InputValue} {last first : World} {α β γ : Type} {P : Pairing → Prop}

theorem ofGen_mirrored {o : Except GenFault α} {f : α → M β} {g : α → M γ} {Q : Pairing → β → γ → Prop}
    (h : ∀ a, o = .ok a → Mirrored (replay inputs last first) P (f a) (g a) Q) :
    Mirrored (replay inputs last first) P (ofGen o >>= f) (ofGen o >>= g) Q := by
  cases o with
  | ok a => exact h a rfl
  | error e => cases e <;> exact .of_never fun _ _ _ h => by cases h

/-- Stores go to addresses that correspond. -/
theorem LStore.execAt_mirrored (hc : Common inputs vs last first) {st : LStore} (ho : st.OrdersNumbers inputs) :
    Mirrored (replay inputs last first) (fun _ => True) st.execAt st.execAt Pairing.Ptrs := by
  intro ρ w e hr _ p w' hrun hl
  obtain ⟨a, w₁, ha, hrun⟩ := bind_ok_iff.mp hrun
  obtain ⟨hs₁, haddr⟩ := st.addr.eval_steps ha hr.whole.ok
  obtain ⟨p, _, hp, hrun⟩ := bind_ok_iff.mp hrun
  obtain ⟨rfl, rfl⟩ := asPtr_ok_iff.mp hp
  obtain ⟨v, w₂, hv, hrun⟩ := bind_ok_iff.mp hrun
  have hok₁ := hs₁.ok hr.whole.ok
  obtain ⟨hs₂, hval⟩ := st.val.eval_steps hv hok₁
  have hp₂ := hs₂.dataPtr (haddr p rfl)
  obtain ⟨_, w₃, hst, hrun⟩ := bind_ok_iff.mp hrun
  obtain ⟨rfl, rfl⟩ := pure_ok_iff.mp hrun
  have hl₂ : Later w₂ last := by
    obtain ⟨hglobal, m, hm, rfl⟩ := (storeMem_ok_iff hp₂.1).mp hst
    exact (World.Step.later (.store hp₂ hglobal hval hm) (hs₂.ok hok₁)).trans hl
  have hl₁ := (hs₂.later hok₁).trans hl₂
  obtain ⟨ρ₁, a', e₁, hle₁, ha', hr₁, haa'⟩ := LVal.eval_mirrored hc st.addr ho.1 hr trivial ha hl₁
  obtain ⟨ρ₂, q, _, hle₂, hq, hr₂, hpq⟩ := asPtr_mirrored hr₁ haa' hp hl₁
  obtain ⟨rfl, rfl⟩ := asPtr_ok_iff.mp hq
  obtain ⟨ρ₃, v', e₃, hle₃, hv', hr₃, hvv'⟩ := LVal.eval_mirrored hc st.val ho.2 hr₂ trivial hv hl₂
  obtain ⟨ρ₄, _, e₄, hle₄, hst', hr₄, -⟩ := storeMem_mirrored hr₃ ⟨hpq.mono hle₃, hvv'⟩ hst hl
  refine ⟨ρ₄, q, e₄, ((hle₁.trans hle₂).trans hle₃).trans hle₄, ?_, hr₄, hpq.mono (hle₃.trans hle₄)⟩
  exact bind_ok_iff.mpr ⟨_, e₁, ha', bind_ok_iff.mpr ⟨q, e₁, rfl, bind_ok_iff.mpr ⟨v', e₃, hv',
    bind_ok_iff.mpr ⟨(), e₄, hst', rfl⟩⟩⟩⟩

theorem execStores_mirrored (hc : Common inputs vs last first) : ∀ {sts : List LStore},
    (∀ st ∈ sts, st.OrdersNumbers inputs) →
    Mirrored (replay inputs last first) (fun _ => True) (execStores sts) (execStores sts) fun _ _ _ => True
  | [], _ => .pure fun _ _ => trivial
  | st :: _, ho => by
    obtain ⟨hst, ho⟩ := List.forall_mem_cons.mp ho
    have hst : Mirrored (replay inputs last first) (fun _ => True) st.exec st.exec fun _ _ _ => True := by
      rw [st.exec_eq]
      exact mirrored_bind (LStore.execAt_mirrored hc hst) LStore.execAt_steps (fun _ => .pure fun _ => trivial)
        fun _ _ => .pure fun _ _ => trivial
    have hgen : Generates st.exec := fun _ _ _ h hok => ⟨st.exec_steps h hok, trivial⟩
    exact mirrored_bind hst hgen (fun _ => execStores_generates) fun _ _ => execStores_mirrored hc ho

/-- The cells of a local correspond. -/
theorem execAlloca_mirrored {s : Symbol} {t : LTy} : Mirrored (replay inputs last first) (fun _ => True)
    (execAlloca s t) (execAlloca s t) fun _ _ _ => True := by
  intro ρ w e hr _ u w' hrun hl
  have hw' := (execAlloca_leadsOn hrun hr.whole).1
  obtain ⟨p, w₁, hp, hset⟩ := bind_ok_iff.mp hrun
  obtain rfl := modify_ok_iff.mp hset
  have hok₁ := (newBlock_steps (by simp) hp hr.whole.ok).1.ok hr.whole.ok
  have hcell : Later w₁ { w₁ with frame := Function.update w₁.frame s.ref (some p) } :=
    .of_syms hok₁ rfl rfl (Nat.le_refl _) rfl
  have hl₁ := hcell.trans hl
  obtain ⟨ρ₁, q, e₁, hle, hq, hr₁, hpq⟩ := newBlock_mirrored (by simp) hr trivial hp hl₁
  have hrun' : execAlloca s t e = .ok ((), { e₁ with frame := Function.update e₁.frame s.ref (some q) }) :=
    bind_ok_iff.mpr ⟨q, e₁, hq, rfl⟩
  obtain ⟨he', hle'⟩ := execAlloca_leadsOn hrun' hr.whole'
  refine ⟨ρ₁, (), _, hle, hrun', ?_, trivial⟩
  exact { hr₁ with
    whole := hw'
    whole' := he'
    later := hr.later.trans hle'
    frame := fun r p' hp' => by
      have hp' : Function.update w₁.frame s.ref (some p) r = some p' := hp'
      by_cases hr' : r = s.ref
      · subst hr'
        rw [Function.update_self] at hp'
        cases hp'
        exact ⟨q, Function.update_self .., hpq⟩
      · rw [Function.update_of_ne hr'] at hp'
        obtain ⟨q', hq', hpq'⟩ := hr₁.frame r p' hp'
        exact ⟨q', (Function.update_of_ne hr' ..).trans hq', hpq'⟩ }

theorem execDef_mirrored (hc : Common inputs vs last first) {n : DefNode Symbol} (hi : (Instr.def_ n).Orders inputs) :
    Mirrored (replay inputs last first) (fun _ => True) (execDef n) (execDef n) fun _ _ _ => True := by
  refine ofGen_mirrored fun t _ => ?_
  refine execAlloca_mirrored.bind execAlloca_leadsOn.onTheWay
    (fun _ => (LeadsOn.bind .ofGen fun _ => .of_stepwise execStores_generates).onTheWay) fun _ _ => ?_
  exact ofGen_mirrored fun sts hsts => execStores_mirrored hc (codeGenDefStore_orders hsts hi)

theorem execAsg_mirrored (hc : Common inputs vs last first) {site : AsgSite} {n : AsgNode Symbol}
    (hi : (Instr.asg site n).Orders inputs) :
    Mirrored (replay inputs last first) (fun _ => True) (execAsg n) (execAsg n) fun _ _ _ => True :=
  ofGen_mirrored fun _ hsts => execStores_mirrored hc (codeGenAsgStore_orders hsts hi)

theorem execCond_mirrored (hc : Common inputs vs last first) {site : CondSite} {cond : Expr Symbol} {t f : Nat}
    (hi : (Instr.condBr site cond t f).Orders inputs) :
    Mirrored (replay inputs last first) (fun _ => True) (execCond cond) (execCond cond) fun _ b b' => b' = b := by
  refine ofGen_mirrored fun v hv => ?_
  intro ρ w e hr hp b w' hrun hl
  obtain ⟨a, w₁, ha, hrun⟩ := bind_ok_iff.mp hrun
  cases a with
  | int1 b =>
    obtain ⟨rfl, rfl⟩ := pure_ok_iff.mp hrun
    obtain ⟨ρ₁, a', e₁, hle, ha', hr₁, haa'⟩ := LVal.eval_mirrored hc v (hi.codeGen List.mem_cons_self hv) hr hp ha hl
    cases haa'
    exact ⟨ρ₁, b, e₁, hle, bind_ok_iff.mpr ⟨_, e₁, ha', rfl⟩, hr₁, rfl⟩
  | _ => cases hrun

/-- The solver is asked on one side only. -/
theorem execPrecond_mirrored {o : Outside} {cond : Expr Symbol} {precond : PrecondNode Symbol} :
    Mirrored (replay inputs last first) (fun _ => True) (execPrecond (some o) cond precond)
      (execPrecond none cond precond) fun _ _ _ => True := by
  intro ρ w e hr _ u w' hrun _
  obtain ⟨hw', hlw⟩ := execPrecond_leadsOn hrun hr.whole
  have hadds := (execPrecond_adds hrun hr.whole.ok (Nat.le_refl _)).2
  exact ⟨ρ, (), e, le_rfl, rfl, hr.left hw' hlw hadds, trivial⟩

/-! ## What is gathered -/

section

variable {p q : Ptr}

theorem loadInt32_mirrored : Mirrored (replay inputs last first) (fun ρ => ρ.Ptrs p q) (loadInt32 p) (loadInt32 q)
    fun _ n n' => n' = n := by
  intro ρ w e hr hpq num w' hrun _
  obtain ⟨hload, rfl⟩ := loadInt32_ok hrun
  obtain ⟨u, hu, hvals⟩ := hr.mem.load hpq hload
  cases hvals
  exact ⟨ρ, num, e, le_rfl, loadInt32_of_some hu, hr, rfl⟩

theorem loadInt8_mirrored : Mirrored (replay inputs last first) (fun ρ => ρ.Ptrs p q) (loadInt8 p) (loadInt8 q)
    fun _ n n' => n' = n := by
  intro ρ w e hr hpq ch w' hrun _
  obtain ⟨hload, rfl⟩ := loadInt8_ok hrun
  obtain ⟨u, hu, hvals⟩ := hr.mem.load hpq hload
  cases hvals
  exact ⟨ρ, ch, e, le_rfl, loadInt8_of_some hu, hr, rfl⟩

end

theorem loadInt32_generates {p : Ptr} : Generates (loadInt32 p) :=
  .read fun h => ⟨(loadInt32_ok h).2, fun _ => trivial⟩

theorem loadInt8_generates {p : Ptr} : Generates (loadInt8 p) := .read fun h => ⟨(loadInt8_ok h).2, fun _ => trivial⟩

theorem loadChars_generates : ∀ {k : Nat} {p : Ptr}, Generates (loadChars k p)
  | 0, _ => .pure fun _ => trivial
  | _ + 1, _ => loadInt8_generates.bind fun _ => loadChars_generates.map fun _ _ _ => trivial

theorem gatherElems_generates {gather : Ptr → M String} (hgather : ∀ p, Generates (gather p)) {size : Nat} :
    ∀ {k : Nat} {p : Ptr}, Generates (gatherElems gather size k p)
  | 0, _ => .pure fun _ => trivial
  | _ + 1, _ => (hgather _).bind fun _ => (gatherElems_generates hgather).map fun _ _ _ => trivial

theorem loadChars_mirrored : ∀ {k : Nat} {p q : Ptr}, Mirrored (replay inputs last first) (fun ρ => ρ.Ptrs p q)
    (loadChars k p) (loadChars k q) fun _ cs cs' => cs' = cs
  | 0, _, _ => .pure fun _ _ => rfl
  | k + 1, p, q => by
    refine mirrored_bind (loadInt8_mirrored.keeping (fun _ => id) ptrs_lasting)
      loadInt8_generates (fun _ => loadChars_generates.map fun _ _ _ => trivial) fun ch ch' => .given ?_
    rintro rfl
    have hrest : Mirrored (replay inputs last first) (fun ρ => ρ.Ptrs p q) (loadChars k (p.add 1))
        (loadChars k (q.add 1)) fun _ cs cs' => cs' = cs :=
      loadChars_mirrored.imp (fun _ h => h.add 1) fun _ _ _ h => h
    exact mirrored_map hrest loadChars_generates fun _ _ _ h => congrArg _ h

theorem gatherElems_mirrored {gather : Ptr → M String} (hgen : ∀ p, Generates (gather p))
    (hgather : ∀ p q, Mirrored (replay inputs last first) (fun ρ => ρ.Ptrs p q) (gather p) (gather q)
      fun _ t t' => t' = t) {size : Nat} : ∀ {k : Nat} {p q : Ptr},
      Mirrored (replay inputs last first) (fun ρ => ρ.Ptrs p q) (gatherElems gather size k p) (gatherElems gather size k q)
        fun _ t t' => t' = t
  | 0, _, _ => .pure fun _ _ => rfl
  | k + 1, p, q => by
    refine mirrored_bind ((hgather p q).keeping (fun _ => id) ptrs_lasting)
      (hgen p) (fun _ => (gatherElems_generates hgen).map fun _ _ _ => trivial) fun t t' => .given ?_
    rintro rfl
    have hrest : Mirrored (replay inputs last first) (fun ρ => ρ.Ptrs p q) (gatherElems gather size k (p.add size))
        (gatherElems gather size k (q.add size)) fun _ t t' => t' = t :=
      (gatherElems_mirrored hgen hgather).imp (fun _ h => h.add size) fun _ _ _ h => h
    refine mirrored_map hrest (gatherElems_generates hgen) fun _ _ _ h => ?_
    rw [h]

/-- An array or a string is read from its address, and as long as the table says. -/
theorem pointed_mirrored {p q : Ptr} {f : AllocData → Ptr → M String} (hgen : ∀ d p, Generates (f d p))
    (hf : ∀ {d d' p q}, d'.size = d.size →
      Mirrored (replay inputs last first) (fun ρ => ρ.Ptrs p q) (f d p) (f d' q) fun _ t t' => t' = t) :
    Mirrored (replay inputs last first) (fun ρ => ρ.Ptrs p q)
      (do
        let r ← asPtr (← loadMem .ptr p)
        let d ← getAlloc r
        f d r)
      (do
        let r ← asPtr (← loadMem .ptr q)
        let d ← getAlloc r
        f d r) fun _ t t' => t' = t := by
  have hlook (r : Ptr) : Generates (do
      let d ← getAlloc r
      f d r) := getAlloc_generates.bind fun d => hgen d r
  refine mirrored_bind loadMem_mirrored loadMem_steps (fun _ => asPtr_generates.bind hlook) fun v u => ?_
  refine mirrored_bind asPtr_mirrored asPtr_generates hlook fun r r' => ?_
  refine mirrored_bind (getAlloc_mirrored.keeping (fun _ => id) ptrs_lasting)
    getAlloc_generates (fun d => hgen d r) fun d d' => .given fun hd => hf hd

/-- **The same is gathered** from values that correspond. -/
theorem gatherRec_mirrored {s : ScalarType} : ∀ {n : Nat} {p q : Ptr}, Mirrored (replay inputs last first)
    (fun ρ => ρ.Ptrs p q) (gatherRec s n p) (gatherRec s n q) fun _ t t' => t' = t
  | 0, p, q => by
    cases s with
    | int => exact mirrored_map loadInt32_mirrored loadInt32_generates fun _ _ _ h => by rw [h]
    | char => exact mirrored_map loadInt8_mirrored loadInt8_generates fun _ _ _ h => by rw [h]
    | bool => exact mirrored_map loadInt8_mirrored loadInt8_generates fun _ _ _ h => by rw [h]
    | string =>
      refine pointed_mirrored (fun _ _ => loadChars_generates.map fun _ _ _ => trivial) fun {d d' p q} hd => ?_
      rw [hd]
      exact mirrored_map loadChars_mirrored loadChars_generates fun _ _ _ h => by rw [h]
  | n + 1, p, q => by
    refine pointed_mirrored (fun _ _ => (gatherElems_generates fun _ => gatherRec_generates).map fun _ _ _ => trivial)
      fun {d d' p q} hd => ?_
    rw [hd]
    exact mirrored_map (gatherElems_mirrored (fun _ => gatherRec_generates) fun _ _ => gatherRec_mirrored)
      (gatherElems_generates fun _ => gatherRec_generates) fun _ _ _ h => by rw [h]

/-! ## The fields of the inputs -/

theorem World.Values.later {w w' : World} (h : w.Values vs) (hl : Later w w') : w'.Values vs := by
  rw [World.Values, hl.inputs]
  exact h.imp fun _ _ hv => hv.later hl

theorem World.Values.unique {w : World} {vs' : List InputValue} (h : w.Values vs) (h' : w.Values vs')
    (hsymbols : vs.map (·.1) = vs'.map (·.1)) : vs = vs' := inputValues_unique hsymbols h h'

/-- The fields that show some values. -/
def inputFields (vs : List InputValue) : List (String × String) :=
  vs.map fun v => (v.1.name, serializedText v.1.type.scalar v.1.type.nested v.2)

/-- Gathering the inputs determines them, and its fields show their values. -/
theorem gatherInputs_shows {w w' : World} {fields : List (String × String)} (hw : w.Intact inputs)
    (h : gatherInputs w.inputs w = .ok (fields, w')) :
    ∃ vs : List InputValue, vs.map (·.1) = inputs ∧ w'.Values vs ∧ fields = inputFields vs := by
  have hids : List.Forall₂ (fun s id => id ∈ w.inputs ∧ (∃ val, w.syms id = some ⟨s.name, val⟩) ∧ w.Typed s.type id)
      inputs w.inputs := by
    refine List.forall₂_iff_get.mpr ⟨hw.typed.length_eq, fun i hi hi' => ?_⟩
    exact ⟨List.get_mem .., hw.named.get hi hi', (hw.typed.get hi hi').typed hw.ok⟩
  obtain ⟨vs, hsymbols, hvs, hfields⟩ := gatherInputs_values h hw.ok hids
  have hinputs := (gatherInputs_generates h hw.ok).1.sameStatic.inputs
  refine ⟨vs, hsymbols, ?_, hfields⟩
  rw [World.Values, hinputs]
  exact hvs

theorem gatherInputs_returns {ids : List SymId} : ∀ {w : World}, w.Ok → w.Alive → (∀ id ∈ ids, ∃ t, w.Has t id) →
    ∃ fields w', gatherInputs ids w = .ok (fields, w') := by
  induction ids with
  | nil => exact fun {w} _ _ _ => ⟨[], w, rfl⟩
  | cons id ids ih =>
    intro w hok halive hids
    obtain ⟨⟨t, ht⟩, hids⟩ := List.forall_mem_cons.mp hids
    have ⟨o, ho, _⟩ := ht
    obtain ⟨text, w₁, htext⟩ := serialize_returns t hok halive ht
    have hs := (serialize_generates htext hok).1
    obtain ⟨fields, w', hrest⟩ := ih (hs.ok hok) (hs.alive hok halive) fun id hid => by
      obtain ⟨t, ht⟩ := hids id hid
      exact ⟨t, (hs.later hok).has ht⟩
    exact ⟨(o.name, text) :: fields, w', bind_ok_iff.mpr ⟨o, w, getSym_ok_iff.mpr ⟨ho, rfl⟩,
      bind_ok_iff.mpr ⟨text, w₁, htext, bind_ok_iff.mpr ⟨fields, w', hrest, rfl⟩⟩⟩⟩

theorem gatherInputs_adds {lo : Nat} {ids : List SymId} : AddsFrom lo (gatherInputs ids) := by
  refine Leaving.adds fun w fields w' h hok => ?_
  have hs := (gatherInputs_generates h hok).1
  obtain ⟨hmem, htable⟩ := LeavesMem.gatherInputs h
  have hstatic := hs.sameStatic
  exact ⟨hs.ok hok, .of_same (hs.later hok).next hstatic.addr hstatic.globals hstatic.frame hmem htable⟩

/-- **The same test is gathered** by both calls. -/
theorem gatherFields_mirrored (hc : Common inputs vs last first) {retType : DeclTy} {p q : Ptr} :
    Mirrored (replay inputs last first) (fun ρ => ρ.Ptrs p q) (gatherFields retType p) (gatherFields retType q)
      fun _ t t' => t' = t := by
  intro ρ w e hr hpq t w' hrun hl
  obtain ⟨_, _, hg, hrun⟩ := bind_ok_iff.mp hrun
  obtain ⟨rfl, rfl⟩ := get_ok_iff.mp hg
  obtain ⟨fields, w₁, hin, hrun⟩ := bind_ok_iff.mp hrun
  obtain ⟨res, w₂, hres, hrun⟩ := bind_ok_iff.mp hrun
  obtain ⟨rfl, rfl⟩ := pure_ok_iff.mp hrun
  obtain ⟨hw₁, hlw⟩ := LeadsOn.of_stepwise gatherInputs_generates hin hr.whole
  have hl₁ := ((gatherRec_generates hres hw₁.ok).1.later hw₁.ok).trans hl
  -- the first call's fields show the values its inputs have in the end
  obtain ⟨vs₁, hsymbols₁, hvs₁, rfl⟩ := gatherInputs_shows hr.whole hin
  obtain rfl : vs₁ = vs := (hvs₁.later hl₁).unique hc.values (hsymbols₁.trans hc.symbols.symm)
  have hhas : ∀ id ∈ e.inputs, ∃ t, e.Has t id := by
    intro id hid
    obtain ⟨i, rfl⟩ := List.mem_iff_get.mp hid
    have hi : i < inputs.length := by
      rw [hr.whole'.typed.length_eq]
      exact i.2
    exact ⟨_, hr.whole'.typed.get hi i.2⟩
  obtain ⟨fields', e₁, hin'⟩ := gatherInputs_returns hr.whole'.ok hr.whole'.alive hhas
  obtain ⟨he₁, hle⟩ := LeadsOn.of_stepwise gatherInputs_generates hin' hr.whole'
  obtain ⟨vs₂, hsymbols₂, hvs₂, rfl⟩ := gatherInputs_shows hr.whole' hin'
  obtain rfl : vs₂ = vs₁ :=
    hvs₂.unique (hc.values'.later (hr.later.trans hle)) (hsymbols₂.trans hc.symbols.symm)
  have hadds := (gatherInputs_adds hin hr.whole.ok (Nat.le_refl _)).2
  have hadds' := (gatherInputs_adds hin' hr.whole'.ok (Nat.le_refl _)).2
  have hr₁ := (hr.left hw₁ hlw hadds).right he₁ hle hadds'
  obtain ⟨ρ₂, res', e₂, hle₂, hres', hr₂, rfl⟩ := gatherRec_mirrored hr₁ hpq hres hl
  refine ⟨ρ₂, _, e₂, hle₂, ?_, hr₂, rfl⟩
  exact bind_ok_iff.mpr ⟨e, e, get_ok_iff.mpr ⟨rfl, rfl⟩, bind_ok_iff.mpr ⟨_, e₁, hin',
    bind_ok_iff.mpr ⟨_, e₂, hres', rfl⟩⟩⟩

theorem execRet_mirrored (hc : Common inputs vs last first) {retType : DeclTy} {n : ReturnNode Symbol}
    (hi : (Instr.gatherRes n).Orders inputs) :
    Mirrored (replay inputs last first) (fun _ => True) (execRet retType n) (execRet retType n) fun _ t t' =>
      t' = t := by
  refine ofGen_mirrored fun sts hsts => ?_
  split
  next st =>
    have ho := codeGenRetStore_orders hsts hi st List.mem_cons_self
    rw [execReturn_eq]
    exact mirrored_bind (LStore.execAt_mirrored hc ho) LStore.execAt_steps (fun _ => gatherFields_generates)
      fun p q => gatherFields_mirrored hc
  next => exact .of_never fun _ _ _ h => by cases h

end

end DGen
