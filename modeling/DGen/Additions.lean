/-
What evaluation adds to memory: blocks of its own, entries for them, and those
of literals. Blocks there were keep their bytes, and addresses into them the
number of elements the table has for them.

The solver adds nothing: whatever it is asked, memory is left alone.
-/
import DGen.Gathering

namespace DGen

open Memory StateT

/-- What the table has for a literal that was evaluated. -/
def StringNode.size (n : StringNode) : Nat := (BitVec.ofNat 32 ((strlenBytes n.bytes).getD 0)).toNat

/-- Memory is as it was, and what the table says of it. -/
structure World.Leaves (w w' : World) : Prop where
  next : w.next ≤ w'.next
  addr : w'.addr = w.addr
  globals : w'.globals = w.globals
  frame : w'.frame = w.frame
  mem : w'.mem = w.mem
  sizes : w'.allocSize = w.allocSize
  marked : ∀ item ∈ w'.allocatedVals, item.2.isAlloc = true → item ∈ w.allocatedVals

/-- From a block on there may be anything new. Before it all is as it was, but
that literals may have been evaluated. -/
structure World.Adds (lo : Nat) (w w' : World) : Prop where
  next : w.next ≤ w'.next
  addr : w'.addr = w.addr
  globals : w'.globals = w.globals
  frame : w'.frame = w.frame
  mem : ∀ b < lo, w'.mem b = w.mem b
  sizes : ∀ p : Ptr, p.block < lo ∨ w'.next ≤ p.block →
    w'.allocSize p = w.allocSize p ∨ ∃ n, w.globalPtr n = some p ∧ w'.allocSize p = n.size

theorem World.globalPtr_congr {w w' : World} (h : w'.globals = w.globals) (n : StringNode) :
    w'.globalPtr n = w.globalPtr n := by
  rw [World.globalPtr, World.globalPtr, h]

namespace World.Leaves

variable {w w' w'' : World}

theorem refl (w : World) : w.Leaves w := ⟨Nat.le_refl _, rfl, rfl, rfl, rfl, rfl, fun _ h _ => h⟩

theorem trans (h : w.Leaves w') (h' : w'.Leaves w'') : w.Leaves w'' where
  next := h.next.trans h'.next
  addr := h'.addr.trans h.addr
  globals := h'.globals.trans h.globals
  frame := h'.frame.trans h.frame
  mem := h'.mem.trans h.mem
  sizes := h'.sizes.trans h.sizes
  marked item hitem hmark := h.marked item (h'.marked item hitem hmark) hmark

/-- Memory and the table are the same. -/
theorem of_same (hnext : w.next ≤ w'.next) (haddr : w'.addr = w.addr) (hglobals : w'.globals = w.globals)
    (hframe : w'.frame = w.frame) (hmem : w'.mem = w.mem) (htable : w'.allocatedVals = w.allocatedVals) :
    w.Leaves w' where
  next := hnext
  addr := haddr
  globals := hglobals
  frame := hframe
  mem := hmem
  sizes := by
    funext p
    rw [World.allocSize, World.allocSize, Process.alloc?_congr htable p]
  marked item hitem _ := htable ▸ hitem

/-- And so they are for what is looked up. -/
theorem of_looked (h : w.Looked w') : w.Leaves w' where
  next := by rw [h.rest]
  addr := by rw [h.rest]
  globals := by rw [h.rest]
  frame := by rw [h.rest]
  mem := h.mem
  sizes := h.allocSize
  marked := h.marked

theorem adds (h : w.Leaves w') (lo : Nat) : w.Adds lo w' where
  next := h.next
  addr := h.addr
  globals := h.globals
  frame := h.frame
  mem _ _ := by rw [h.mem]
  sizes _ _ := .inl (by rw [h.sizes])

end World.Leaves

theorem World.Adds.trans {lo : Nat} {w w' w'' : World} (h : w.Adds lo w') (h' : w'.Adds lo w'') : w.Adds lo w'' where
  next := h.next.trans h'.next
  addr := h'.addr.trans h.addr
  globals := h'.globals.trans h.globals
  frame := h'.frame.trans h.frame
  mem b hb := (h'.mem b hb).trans (h.mem b hb)
  sizes p hp := by
    obtain heq' | ⟨n, hn, hsize⟩ := h'.sizes p hp
    · rw [heq']
      exact h.sizes p (hp.imp_right h'.next.trans)
    · exact .inr ⟨n, (globalPtr_congr h.globals n).symm.trans hn, hsize⟩

theorem setAlloc_allocSize {p q : Ptr} {d : AllocData} {w w' : World} (h : setAlloc p d w = .ok ((), w')) :
    w'.allocSize q = if q = p then d.size.toNat else w.allocSize q := by
  rw [World.allocSize, World.allocSize, setAlloc_alloc? h]
  split <;> rfl

/-! ## What leaves memory alone -/

/-- No run of `x` touches memory. -/
def Leaving {α : Type} (x : M α) : Prop := ∀ ⦃w a w'⦄, x w = .ok (a, w') → w.Ok → w'.Ok ∧ w.Leaves w'

namespace Leaving

variable {α β : Type} {x : M α} {f : α → M β}

theorem bind (hx : Leaving x) (hf : ∀ a, Leaving (f a)) : Leaving (x >>= f) := by
  intro w b w' h hok
  obtain ⟨a, w₁, hx', hf'⟩ := bind_ok_iff.mp h
  obtain ⟨hok₁, hleaves⟩ := hx hx' hok
  obtain ⟨hok', hleaves'⟩ := hf a hf' hok₁
  exact ⟨hok', hleaves.trans hleaves'⟩

theorem read (h : ∀ {w a w'}, x w = .ok (a, w') → w = w') : Leaving x := by
  intro w a w' hrun hok
  obtain rfl := h hrun
  exact ⟨hok, .refl w⟩

theorem pure {a : α} : Leaving (pure a : M α) := read fun h => (pure_ok_iff.mp h).2

theorem fault {e : Fault} : Leaving (DGen.fault e : M α) := by
  intro w a w' h
  simp at h

theorem ofOption {e : Fault} {o : Option α} : Leaving (ofOption e o) := read fun h => (ofOption_ok_iff.mp h).2

theorem get : Leaving (get : M World) := read fun h => (get_ok_iff.mp h).2

theorem getSym {id : SymId} : Leaving (getSym id) := read fun h => (getSym_ok_iff.mp h).2

theorem inputId {r : SymRef} : Leaving (inputId r) := read fun h => (inputId_ok_iff.mp h).2

theorem asPtr {v : Val} : Leaving (asPtr v) := read fun h => (asPtr_ok_iff.mp h).2

theorem asInt32 {v : Val} : Leaving (asInt32 v) := read fun h => (asInt32_ok_iff.mp h).2

theorem loadMem {c : Chunk} {p : Ptr} : Leaving (loadMem c p) := read fun h => (loadMem_ok_iff.mp h).2

theorem gepOffset {elem : LTy} {v : Val} : Leaving (gepOffset elem v) := by
  cases v <;> first | exact fault | exact pure

/-- Generating a value without memory. -/
theorem symbols (hs : SymbolsOnly x) (hg : Generates x) : Leaving x := by
  intro w a w' h hok
  have hon := hs h hok.tree
  obtain ⟨hsteps, -⟩ := hg h hok
  have hstatic := hsteps.sameStatic
  exact ⟨hsteps.ok hok, .of_same hon.next hstatic.addr hstatic.globals hstatic.frame hon.mem hon.table⟩

theorem getAlloc {p : Ptr} : Leaving (getAlloc p) := fun _ _ _ h hok =>
  ⟨(getAlloc_steps h).ok hok, .of_looked (getAlloc_looked h)⟩

/-- What changes neither memory nor the table. -/
theorem modifies {f : World → World} (hok : ∀ w : World, w.Ok → (f w).Ok) (hf : ∀ w : World, w.Leaves (f w)) :
    Leaving (modify f : M Unit) := by
  intro w u w' h hw
  obtain rfl := modify_ok_iff.mp h
  exact ⟨hok w hw, hf w⟩

theorem setCtx {g : World → EvalCtx} : Leaving (modify fun w => { w with ctx := g w } : M Unit) :=
  modifies (fun _ hok => ⟨hok.tree, hok.mem, hok.frame, hok.globals⟩) fun _ => .of_same (Nat.le_refl _) rfl rfl rfl rfl rfl

/-! ## The solver -/

theorem genSymExpr {sym : SymId} : Leaving (genSymExpr sym) := by
  intro w z w' h hok
  obtain ⟨o, -, -, rfl⟩ := genSymExpr_ok h
  exact ⟨⟨hok.tree, hok.mem, hok.frame, hok.globals⟩, .of_same (Nat.le_refl _) rfl rfl rfl rfl rfl⟩

theorem record {sym : SymId} {e : ZExpr} : Leaving (record sym e) :=
  modifies (fun _ hok => ⟨hok.tree, hok.mem, hok.frame, hok.globals⟩) fun _ => .of_same (Nat.le_refl _) rfl rfl rfl rfl rfl

theorem genIdent (n : IdentNode Symbol) : Leaving (genIdent n) := by
  unfold DGen.genIdent
  split
  · exact inputId.bind fun _ => genSymExpr
  · exact get.bind fun _ => read getExprFromVoid_ok

/-- An element is renamed, and keeps its value. -/
theorem genArrLookup (node : ASTNode) (n : IdentNode Symbol) (idxs : List (Expr Symbol)) :
    Leaving (genArrLookup node n idxs) := by
  unfold DGen.genArrLookup
  split
  · refine inputId.bind fun arr => get.bind fun w₀ => ?_
    refine (symbols .getSymbolByIdxs getSymbolByIdxs_generates).bind fun sym => getSym.bind fun r => ?_
    intro w z w' h hok
    obtain ⟨o, _, hget, h⟩ := bind_ok_iff.mp h
    obtain ⟨ho, rfl⟩ := getSym_ok_iff.mp hget
    obtain ⟨_, _, hs, h⟩ := bind_ok_iff.mp h
    obtain rfl := setSym_ok_iff.mp hs
    obtain ⟨hok', hleaves⟩ := genSymExpr h (hok.setSym ho rfl rfl (hok.tree.sized _ o ho))
    have hnamed : w.Leaves (w.setSym sym { o with name := elemName r.name (w₀.ctx.currentIdxs node.id) }) :=
      .of_same (Nat.le_refl _) rfl rfl rfl rfl rfl
    exact ⟨hok', hnamed.trans hleaves⟩
  · refine get.bind fun _ => ?_
    split
    · exact read getExprFromVoid_ok
    · exact fault

theorem genPropertyLookup (n : IdentNode Symbol) : Leaving (genPropertyLookup n) := by
  unfold DGen.genPropertyLookup
  split
  · refine inputId.bind fun sym => getSym.bind fun o => ?_
    split
    · exact pure
    · exact record.bind fun _ => pure
    · exact fault
  · refine get.bind fun _ => ofOption.bind fun _ => loadMem.bind fun v => ?_
    split
    · exact getAlloc.bind fun _ => pure
    · exact fault

theorem genExpr (e : Expr Symbol) : Leaving (genExpr e) := by
  induction e with
  | bool | char | number => exact pure
  | ident n => exact genIdent n
  | arrLookup node n idxs => exact genArrLookup node n idxs
  | propertyLookup node n p => exact genPropertyLookup n
  | string | arrCreate => exact fault
  | binOp node op lhs rhs ihl ihr =>
    refine ihl.bind fun l => ihr.bind fun r => ?_
    unfold mkBinOp
    split
    · exact pure
    · exact fault

theorem rand : Leaving rand := by
  intro w r w' h hok
  obtain ⟨-, rfl⟩ := rand_ok_iff.mp h
  exact ⟨⟨hok.tree, hok.mem, hok.frame, hok.globals⟩, .of_same (Nat.le_refl _) rfl rfl rfl rfl rfl⟩

theorem roll {prob : BitVec 32} {e : ZExpr} : Leaving (roll prob e) := by
  unfold DGen.roll
  split
  · refine rand.bind fun r => ?_
    split
    · exact read mkNot_ok
    · exact pure
  · exact pure

theorem genFormulas {cond : Expr Symbol} {precond : PrecondNode Symbol} : Leaving (genFormulas cond precond) := by
  have hclear : Leaving (modify fun w : World => { w with z3 := ⟨[], []⟩ }) :=
    modifies (fun _ hok => ⟨hok.tree, hok.mem, hok.frame, hok.globals⟩) fun _ => .of_same (Nat.le_refl _) rfl rfl rfl rfl rfl
  refine hclear.bind fun _ => (genExpr cond).bind fun _ => rand.bind fun _ => roll.bind fun _ => ?_
  split
  · exact pure
  · exact (genExpr _).bind fun _ => pure

theorem fillLoop {m : Model} {exprs : List ZExpr} : ∀ {items : List (SymId × Nat)}, Leaving (fillLoop m exprs items)
  | [] => pure
  | item :: _ => by
    refine ofOption.bind fun e => Leaving.bind ?_ fun _ => fillLoop
    intro w u w' h hok
    have hon := fillSym_onSymbols h hok.tree
    refine ⟨(fillSym_keeps h hok).1, .of_same hon.next ?_ ?_ ?_ hon.mem hon.table⟩ <;>
      obtain ⟨_, _, _, _, _, _, _, rfl⟩ | ⟨_, _, _, _, _, _, _, rfl⟩ := fillSym_ok h <;> rfl

/-- The solver's values change symbols only. -/
theorem startZ3Gen {check : List ZExpr → CheckResult} {walk : Walk} {cond : Expr Symbol}
    {precond : PrecondNode Symbol} : Leaving (startZ3Gen check walk cond precond) := by
  refine genFormulas.bind fun fs => get.bind fun w => ?_
  dsimp only
  split
  · exact pure
  · split
    · exact fillLoop
    · exact pure

end Leaving

/-! ## What adds to memory -/

/-- Every run of `x` keeps what is before `lo`. -/
def AddsFrom {α : Type} (lo : Nat) (x : M α) : Prop :=
  ∀ ⦃w a w'⦄, x w = .ok (a, w') → w.Ok → lo ≤ w.next → w'.Ok ∧ w.Adds lo w'

theorem Leaving.adds {α : Type} {x : M α} (h : Leaving x) {lo : Nat} : AddsFrom lo x := fun _ _ _ hx hok _ =>
  ⟨(h hx hok).1, (h hx hok).2.adds lo⟩

/-- A new block and its entry. -/
theorem World.Adds.entered {lo : Nat} {w w' : World} {bytes : List MByte} {d : AllocData}
    (h : setAlloc ⟨w.next, 0⟩ d (w.addBlock bytes) = .ok ((), w')) (hlo : lo ≤ w.next) : w.Adds lo w' := by
  have hsizes := fun q => setAlloc_allocSize (q := q) h
  obtain ⟨l, rfl⟩ := setAlloc_ok h
  refine ⟨Nat.le_succ _, rfl, rfl, rfl, fun b hb => Function.update_of_ne (by omega) .., fun q hq => .inl ?_⟩
  rw [hsizes q, if_neg]
  · rfl
  · rintro rfl
    have : w.next < lo ∨ w.next + 1 ≤ w.next := hq
    omega

namespace AddsFrom

variable {α β : Type} {lo : Nat} {x : M α} {f : α → M β}

theorem bind (hx : AddsFrom lo x) (hf : ∀ a, AddsFrom lo (f a)) : AddsFrom lo (x >>= f) := by
  intro w b w' h hok hlo
  obtain ⟨a, w₁, hx', hf'⟩ := bind_ok_iff.mp h
  obtain ⟨hok₁, hadds⟩ := hx hx' hok hlo
  obtain ⟨hok', hadds'⟩ := hf a hf' hok₁ (hlo.trans hadds.next)
  exact ⟨hok', hadds.trans hadds'⟩

theorem pure {a : α} : AddsFrom lo (pure a : M α) := Leaving.pure.adds

theorem fault {e : Fault} : AddsFrom lo (DGen.fault e : M α) := Leaving.fault.adds

theorem newBlock {bytes : List MByte} (hfrag : ∀ p i, .frag p i ∉ bytes) : AddsFrom lo (newBlock bytes) := by
  intro w p w' h hok hlo
  have hok' := ((newBlock_steps hfrag h hok).1).ok hok
  obtain ⟨rfl, rfl⟩ := newBlock_ok_iff.mp h
  exact ⟨hok', Nat.le_succ _, rfl, rfl, rfl, fun b hb => Function.update_of_ne (by omega) .., fun _ _ => .inl rfl⟩

theorem newBlock_setAlloc {bytes : List MByte} {d : AllocData} (hfrag : ∀ p i, .frag p i ∉ bytes) :
    AddsFrom lo (do
      let p ← DGen.newBlock bytes
      setAlloc p d
      return p) := by
  intro w p w' h hok hlo
  have hok' := ((newBlock_setAlloc_steps hfrag h hok).1).ok hok
  obtain ⟨p', _, hb, h⟩ := bind_ok_iff.mp h
  obtain ⟨rfl, rfl⟩ := newBlock_ok_iff.mp hb
  obtain ⟨_, _, ha, h⟩ := bind_ok_iff.mp h
  obtain ⟨rfl, rfl⟩ := pure_ok_iff.mp h
  exact ⟨hok', .entered ha hlo⟩

/-! ## Copies -/

theorem fillVal {copyArr : SymId → M Ptr} (hcopy : ∀ id, AddsFrom lo (copyArr id)) {sym : SymId} :
    AddsFrom lo (fillVal copyArr sym) := by
  refine Leaving.getSym.adds.bind fun o => ?_
  split
  · exact (Leaving.symbols .numRandGen numRandGen_generates).adds.bind fun _ => pure
  · exact (Leaving.symbols .boolRandGen boolRandGen_generates).adds.bind fun _ => pure
  · exact (Leaving.symbols .charRandGen charRandGen_generates).adds.bind fun _ => pure
  · exact (hcopy sym).bind fun _ => pure

/-- The elements are stored in a block of the copy's own. -/
theorem fillElems {copyArr : SymId → M Ptr} (hcopy : ∀ id, AddsFrom lo (copyArr id))
    (hsteps : ∀ id, Stepwise (copyArr id) World.DataPtr) {size : Nat} :
    ∀ {syms : List SymId} {data : Ptr} {w w' : World}, fillElems copyArr size data syms w = .ok ((), w') → w.Ok →
      lo ≤ w.next → w.DataPtr data → lo ≤ data.block → w.Adds lo w'
  | [], _, _, _, h, _, _, _, _ => by
    obtain ⟨-, rfl⟩ := pure_ok_iff.mp h
    exact (World.Leaves.refl _).adds lo
  | sym :: syms, data, w, w', h, hok, hlo, hdata, hblock => by
    obtain ⟨_, w₁, h₁, h⟩ := bind_ok_iff.mp h
    obtain ⟨v, w₂, hv, hst⟩ := bind_ok_iff.mp h₁
    obtain ⟨hs, hval⟩ := fillVal_generates hsteps hv hok
    obtain ⟨-, hadds⟩ := fillVal hcopy hv hok hlo
    have hdata₂ := hs.dataPtr hdata
    obtain ⟨hglobal, m, hm, rfl⟩ := (storeMem_ok_iff hdata₂.1).mp hst
    have hs' : w.Steps { w₂ with mem := m } := hs.tail (.store hdata₂ hglobal hval hm)
    have hstored : w₂.Adds lo { w₂ with mem := m } := by
      obtain ⟨bs, -, rfl⟩ := Mem.store_some hm
      exact ⟨Nat.le_refl _, rfl, rfl, rfl, fun b hb => Function.update_of_ne (by omega) .., fun _ _ => .inl rfl⟩
    have hadds' := hadds.trans hstored
    exact hadds'.trans (fillElems hcopy hsteps h (hs'.ok hok) (hlo.trans hadds'.next) (hs'.dataPtr hdata) hblock)

theorem arrRandGenDepth : ∀ {n : Nat} {arr : SymId}, AddsFrom lo (arrRandGenDepth n arr)
  | 0, _ => fault
  | n + 1, arr => by
    intro w p w' h hok hlo
    have hok' := (arrRandGenDepth_generates h hok).1.ok hok
    obtain ⟨size, w₁, name, type, s, elems, w₂, hsize, -, -, ha, -, hf⟩ := arrRandGenDepth_succ_ok h
    obtain ⟨hok₁, hadds₁⟩ := (Leaving.symbols .getSize getSize_generates).adds hsize hok hlo
    obtain ⟨hs₂, hdata, -⟩ := block_entered (by simp) ha hok₁
    have hlo₁ := hlo.trans hadds₁.next
    have hadds₂ : w₁.Adds lo w₂ := .entered ha hlo₁
    have hadds₃ := fillElems (fun _ => arrRandGenDepth) (fun _ => arrRandGenDepth_generates) hf (hs₂.ok hok₁)
      (hlo₁.trans hadds₂.next) hdata hlo₁
    exact ⟨hok', (hadds₁.trans hadds₂).trans hadds₃⟩

theorem arrRandGen {arr : SymId} : AddsFrom lo (arrRandGen arr) := by
  refine Leaving.getSym.adds.bind fun o => ?_
  split
  · exact arrRandGenDepth
  · exact fault

/-! ## Generated code -/

/-- Evaluating a literal enters its length, and nothing else. -/
theorem globalString {n : StringNode} : AddsFrom lo (globalString n) := by
  intro w p w' h hok _
  have hok' := (globalString_steps h hok).1.ok hok
  obtain ⟨hp, -, k, hk, hset⟩ := (globalString_enters_iff hok).mp h
  have hsizes := fun q => setAlloc_allocSize (q := q) hset
  have hsize : (BitVec.ofNat 32 k).toNat = n.size := by rw [StringNode.size, hk, Option.getD_some]
  obtain ⟨l, rfl⟩ := setAlloc_ok hset
  refine ⟨hok', Nat.le_refl _, rfl, rfl, rfl, fun _ _ => rfl, fun q _ => ?_⟩
  rw [hsizes q]
  split
  next hq => exact .inr ⟨n, hq ▸ hp, hsize⟩
  next => exact .inl rfl

mutual

/-- A value's code keeps what there is before it. -/
theorem eval : ∀ v : LVal, AddsFrom lo v.eval
  | .getInt8 _ | .getInt32 _ => pure
  | .globalStringPtr _ => globalString.bind fun _ => pure
  | .bin _ lhs rhs => (eval lhs).bind fun _ => (eval rhs).bind fun _ => Leaving.ofOption.adds
  | .icmp _ lhs rhs => (eval lhs).bind fun _ => (eval rhs).bind fun _ =>
    Leaving.get.adds.bind fun _ => Leaving.ofOption.adds
  | .alloca (some _) _ => (Leaving.get.bind fun _ => Leaving.ofOption.bind fun _ => Leaving.pure).adds
  | .alloca none _ => (newBlock (by simp)).bind fun _ => pure
  | .load _ addr => (eval addr).bind fun _ =>
    (Leaving.asPtr.bind fun _ => Leaving.ofOption.bind fun _ => Leaving.loadMem).adds
  | .gep _ addr idx => (eval addr).bind fun _ => Leaving.asPtr.adds.bind fun _ => (eval idx).bind fun _ =>
    Leaving.gepOffset.adds.bind fun _ => pure
  | .intCast v _ => (eval v).bind fun _ => Leaving.ofOption.adds
  | .randGen _ _ => Leaving.inputId.adds.bind fun _ => fillVal fun _ => arrRandGen
  | .getValArr _ idxs _ => Leaving.inputId.adds.bind fun _ => (evalIdxs idxs).bind fun _ =>
    (Leaving.symbols .getSymbolByIdxs getSymbolByIdxs_generates).adds.bind fun _ => fillVal fun _ => arrRandGen
  | .getPropertyInput _ =>
    (Leaving.inputId.bind fun _ => (Leaving.symbols .getSize getSize_generates).bind fun _ => Leaving.pure).adds
  | .getPropertyLocal _ data => (eval data).bind fun _ =>
    (Leaving.asPtr.bind fun _ => Leaving.getAlloc.bind fun _ => Leaving.pure).adds
  | .createArr _ len _ => (eval len).bind fun _ => Leaving.asInt32.adds.bind fun n => by
    refine AddsFrom.bind ?_ fun _ => pure
    unfold createArr
    split
    · exact fault
    · exact newBlock_setAlloc (by simp)

theorem evalIdxs : ∀ vs : List LVal, AddsFrom lo (LVal.evalIdxs vs)
  | [] => pure
  | v :: vs => (eval v).bind fun _ => Leaving.asInt32.adds.bind fun _ => (evalIdxs vs).bind fun _ => pure

end

theorem callback (c : Callback) : AddsFrom lo c.exec := by
  cases c with
  | updIdentAddr s addr => exact (eval addr).bind fun _ => Leaving.asPtr.adds.bind fun _ => Leaving.setCtx.adds
  | updArrLookupAddr node addr => exact (eval addr).bind fun _ => Leaving.asPtr.adds.bind fun _ => Leaving.setCtx.adds
  | updArrIdxs node idxs => exact (evalIdxs idxs).bind fun _ => Leaving.setCtx.adds

theorem execAll : ∀ {cs : List Callback}, AddsFrom lo (execAll cs)
  | [] => pure
  | c :: _ => (callback c).bind fun _ => execAll

end AddsFrom

end DGen
