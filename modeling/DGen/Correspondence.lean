/-
The code and the formulas read the same.

What `prepare_eval_ctx` notes down is what the code evaluates to again
(`Current`), and the rest is filled in from the model. So what the code of a
condition comes to is the truth value of its formula (`FilledIn.condition`).
-/
import DGen.Conditions
import DGen.Meaning
import DGen.Rerun

namespace DGen

open Memory StateT

variable {m : Model}

/-! ## What `gen_expr` reads of the program -/

/-- What was noted down for an expression is what its code has now. -/
def Expr.Current (w : World) : Expr Symbol → Prop
  | .ident n | .propertyLookup _ n _ =>
    n.symbol.isInput = false → ∃ p, w.ctx.addr n.symbol.ref = some p ∧ w.frame n.symbol.ref = some p
  | .arrLookup node n idxs =>
    if n.symbol.isInput then ∃ vs, codeGenExprs idxs = .ok vs ∧ LVal.ReadsIdxs w vs (w.ctx.currentIdxs node.id)
    else ∃ a addr p, n.symbol.createAlloca = .ok a ∧ getLookupAddress a idxs = .ok addr ∧
      w.ctx.currentPtr node.id = some p ∧ addr.Reads w (.ptr p)
  | _ => True

section

variable {inputs : List Symbol} {cbs : List Callback} {w w₀ : World}

/-- What it evaluates settles. -/
def Callback.Settles (inputs : List Symbol) : Callback → Prop
  | .updIdentAddr _ addr | .updArrLookupAddr _ addr => addr.Settles inputs
  | .updArrIdxs _ idxs => ∀ v ∈ idxs, v.Settles inputs

theorem Callback.exec_onward {c : Callback} (hc : c.Settles inputs) (h : c.exec w = .ok ((), w₀)) (hw : w.Intact inputs) :
    w₀.Intact inputs ∧ w.Onward w₀ := by
  have hone : execAll [c] w = .ok ((), w₀) := execAll_cons_ok_iff.mpr ⟨w₀, h, rfl⟩
  obtain ⟨hw', hl⟩ := execAll_leadsOn hone hw
  refine ⟨hw', hl, ?_⟩
  cases c with
  | updIdentAddr s addr | updArrLookupAddr node addr =>
    obtain ⟨v, w₁, hv, h⟩ := bind_ok_iff.mp h
    obtain ⟨p, _, hp, h⟩ := bind_ok_iff.mp h
    obtain ⟨rfl, rfl⟩ := asPtr_ok_iff.mp hp
    obtain rfl := modify_ok_iff.mp h
    exact (hc hv hw.toWhole).2.trans (.of_same (Nat.le_refl _) rfl rfl rfl rfl rfl)
  | updArrIdxs node idxs =>
    obtain ⟨is, w₁, his, h⟩ := bind_ok_iff.mp h
    obtain rfl := modify_ok_iff.mp h
    exact (LVal.Settles.evalIdxs hc his hw.toWhole).2.trans (.of_same (Nat.le_refl _) rfl rfl rfl rfl rfl)

theorem execAll_onward {cs : List Callback} (hcs : ∀ c ∈ cs, c.Settles inputs) (h : execAll cs w = .ok ((), w₀))
    (hw : w.Intact inputs) : w₀.Intact inputs ∧ w.Onward w₀ := by
  induction cs generalizing w with
  | nil =>
    obtain ⟨-, rfl⟩ := pure_ok_iff.mp h
    exact ⟨hw, .refl hw.ok⟩
  | cons c cs ih =>
    obtain ⟨w₁, hc, h⟩ := execAll_cons_ok_iff.mp h
    obtain ⟨hsettles, hcs⟩ := List.forall_mem_cons.mp hcs
    obtain ⟨hw₁, honward⟩ := c.exec_onward hsettles hc hw
    obtain ⟨hw₀, honward'⟩ := ih hcs h hw₁
    exact ⟨hw₀, honward.trans honward'⟩

theorem LVal.eval_intact {v : LVal} {a : Val} (h : v.eval w = .ok (a, w₀)) (hw : w.Intact inputs) : w₀.Intact inputs :=
  hw.steps (v.eval_steps h hw.ok).1

/-- The last callback that set the field did what the node's own does. -/
theorem Fresh.own {x : Expr Symbol} {own : Callback} (hf : Fresh cbs w w₀ x) (hcbs : ∀ c ∈ cbs, c.Settles inputs)
    (hw : w.Intact inputs) (hx : traverseAstCb x = .ok [own]) : ∃ w₁ w₂, w₁.Intact inputs ∧ own.exec w₁ = .ok ((), w₂) ∧ w₂.Onward w₀ ∧
      EvalCtx.SameAt own.field w₂.ctx w₀.ctx := by
  obtain ⟨pre, c, post, w₁, w₂, rfl, hpre, -, -, hexec, hpost, hsame⟩ := hf own hx
  obtain ⟨-, hcbs⟩ := List.forall_mem_append.mp hcbs
  have hw₁ := (execAll_leadsOn hpre hw).1
  have hone : execAll [own] w₁ = .ok ((), w₂) := execAll_cons_ok_iff.mpr ⟨w₂, hexec, rfl⟩
  have hw₂ := (execAll_leadsOn hone hw₁).1
  exact ⟨w₁, w₂, hw₁, hexec, (execAll_onward (List.forall_mem_cons.mp hcbs).2 hpost hw₂).2, hsame⟩

theorem World.onward_ctx {ctx : EvalCtx} (hok : w.Ok) : w.Onward { w with ctx } :=
  ⟨.of_syms hok rfl rfl (Nat.le_refl _) rfl, .of_same (Nat.le_refl _) rfl rfl rfl rfl rfl⟩

/-- An identifier's address is the one of its cell. -/
theorem Fresh.ident {x : Expr Symbol} {n : IdentNode Symbol} (hf : Fresh cbs w w₀ x)
    (hcbs : ∀ c ∈ cbs, c.Settles inputs) (hw : w.Intact inputs)
    (hx : traverseAstCb x = prepareIdent n) (hin : n.symbol.isInput = false) :
    ∃ p, w₀.ctx.addr n.symbol.ref = some p ∧ w₀.frame n.symbol.ref = some p := by
  have hown : prepareIdent n = .ok [.updIdentAddr n.symbol (.alloca (some n.symbol) n.symbol.type.llvm)] := by
    rw [prepareIdent_eq, IdentNode.callbacks, IdentNode.localRef, hin]
    rfl
  obtain ⟨w₁, w₂, hw₁, hexec, hon, hsame⟩ := hf.own hcbs hw (hx.trans hown)
  obtain ⟨v, w₁', hv, hexec⟩ := bind_ok_iff.mp hexec
  obtain ⟨p, _, hp, hexec⟩ := bind_ok_iff.mp hexec
  obtain ⟨rfl, rfl⟩ := asPtr_ok_iff.mp hp
  obtain rfl := modify_ok_iff.mp hexec
  have hsettles : (LVal.alloca (some n.symbol) n.symbol.type.llvm).Settles inputs := .alloca n.symbol _
  have hreads := hsettles.of_eval hv hw₁.toWhole ((World.onward_ctx (LVal.eval_intact hv hw₁).ok).trans hon)
  refine ⟨p, (Eq.symm hsame).trans (Function.update_self ..), ?_⟩
  cases hreads with
  | alloca h => exact h

/-- What `evalCtx_fresh_iff` has of a node that `gen_expr` visits is what its code reads. -/
theorem Fresh.current {x : Expr Symbol} {v : LVal} (hf : Fresh cbs w w₀ x) (hcbs : ∀ c ∈ cbs, c.Settles inputs)
    (hw : w.Intact inputs) (hv : codeGenExpr x = .ok v) (hres : ∀ n ∈ x.idents, n.Resolved inputs) (hs : ∀ y ∈ x.nodes, y.Scalar) :
    x.Current w₀ := by
  cases x with
  | ident n => exact fun hin => hf.ident hcbs hw rfl hin
  | propertyLookup node n p => exact fun hin => hf.ident hcbs hw rfl hin
  | arrLookup node n idxs =>
    obtain ⟨own, hown, -⟩ := codeGenExpr_arrLookup_own hv
    obtain ⟨w₁, w₂, hw₁, hexec, hon, hsame⟩ := hf.own hcbs hw hown
    simp only [Expr.idents, Expr.nodes, List.forall_mem_cons, Expr.forall_mem_identsList,
      Expr.forall_mem_nodesList] at hres hs
    have hidxs : ∀ e ∈ idxs, ∀ {v}, codeGenExpr e = .ok v → v.Settles inputs :=
      fun e he _ hv => codeGenExpr_settles e hv (hres.2 e he) (hs.2 e he)
    rw [traverseAstCb, prepareArrLookup] at hown
    rw [Expr.Current]
    split at hown
    next hin =>
      rw [if_pos hin]
      obtain ⟨vs, hvs, hown⟩ := Except.bind_ok_iff.mp hown
      obtain rfl := List.singleton_inj.mp (Except.pure_ok_iff.mp hown)
      obtain ⟨is, w₁', his, hexec⟩ := bind_ok_iff.mp hexec
      obtain rfl := modify_ok_iff.mp hexec
      have hw₁' : w₁'.Intact inputs := hw₁.steps (LVal.evalIdxs_generates vs his hw₁.ok).1
      have hreads := (LVal.Settles.evalIdxs (codeGenExprs_settles hvs hidxs) his hw₁.toWhole).1
      have heq : w₀.ctx.currentIdxs node.id = is := (Eq.symm hsame).trans (Function.update_self ..)
      exact ⟨vs, hvs, heq ▸ hreads.onward hw₁'.ok ((World.onward_ctx hw₁'.ok).trans hon)⟩
    next hin =>
      rw [if_neg hin]
      simp only [Except.bind_ok_iff, Except.pure_ok_iff] at hown
      obtain ⟨a, ha, addr, haddr, hown⟩ := hown
      obtain rfl := List.singleton_inj.mp hown
      obtain ⟨q, w₁', hq, hexec⟩ := bind_ok_iff.mp hexec
      obtain ⟨p, _, hp, hexec⟩ := bind_ok_iff.mp hexec
      obtain ⟨rfl, rfl⟩ := asPtr_ok_iff.mp hp
      obtain rfl := modify_ok_iff.mp hexec
      have hsettles := getLookupAddress_settles haddr (Symbol.createAlloca_settles ha) hidxs
      refine ⟨a, addr, p, ha, haddr, (Eq.symm hsame).trans (Function.update_self ..), ?_⟩
      exact hsettles.of_eval hq hw₁.toWhole ((World.onward_ctx (LVal.eval_intact hq hw₁).ok).trans hon)
  | _ => trivial

end

/-! ## Leaves -/

/-- A cell is read by its type, which is not `bool`: its byte is not one of the two, necessarily. -/
theorem getExprFromVoid_means {p : Ptr} {type : Ty} {d : DeclTy} {w w' : World} {z : ZExpr}
    (h : getExprFromVoid (some p) type w = .ok (z, w')) (heq : type.eq d.toTy = true) (hd : d.toTy.isScalar = true)
    (hbool : type.eqKind .bool = false) :
    ∃ a, w.mem.load a.chunk p = some a ∧ d.llvm.chunk = some a.chunk ∧ Means a (m.eval z) := by
  obtain ⟨s, hs, rfl⟩ := DeclTy.isScalar_iff.mp hd
  have hcur : type.getCurrentType = s.kind := Ty.getCurrentType_congr heq
  have hcell {c : Chunk} {f : Val → M ZExpr}
      (h : (do f (← loadMem c (← ofOption .undefined (some p)))) w = .ok (z, w')) : ∃ v, w.mem.load c p = some v ∧ f v w = .ok (z, w') := by
    obtain ⟨_, _, hp, h⟩ := bind_ok_iff.mp h
    obtain ⟨he, rfl⟩ := ofOption_ok_iff.mp hp
    obtain rfl := Option.some.inj he
    obtain ⟨v, _, hv, h⟩ := bind_ok_iff.mp h
    obtain ⟨hload, rfl⟩ := loadMem_ok_iff.mp hv
    exact ⟨v, hload, h⟩
  unfold getExprFromVoid at h
  rw [hcur] at h
  cases s with
  | string => exact absurd rfl hs
  | bool => cases (Ty.eqKind_congr heq .bool).symm.trans hbool
  | int =>
    obtain ⟨v, hload, h⟩ := hcell h
    cases v with
    | int32 n =>
      obtain ⟨rfl, rfl⟩ := pure_ok_iff.mp h
      exact ⟨.int32 n, hload, rfl, .int n⟩
    | _ => cases Mem.chunk_of_load hload
  | char =>
    obtain ⟨v, hload, h⟩ := hcell h
    cases v with
    | int8 c =>
      obtain ⟨rfl, rfl⟩ := pure_ok_iff.mp h
      exact ⟨.int8 c, hload, rfl, .char c⟩
    | _ => cases Mem.chunk_of_load hload

/-- What the code of an expression reads, by its type, is what the model has for its formula. -/
def Corresponds (m : Model) (w : World) (e : Expr Symbol) (v : LVal) (z : ZExpr) : Prop :=
  ∃ (a : Val) (d : DeclTy) (t : Ty), v.Reads w a ∧ e.getType = .ok t ∧ t.eq d.toTy = true ∧
    d.llvm.chunk = some a.chunk ∧ Means a (m.eval z)

/-- A state of the formulas' generation. -/
structure Midway (w₀ : World) (done : List Mention) (w : World) : Prop where
  recorded : Recorded w₀ done w
  leaves : w₀.Leaves w

theorem Midway.genExpr {w₀ w w' : World} {done : List Mention} {e : Expr Symbol} {z : ZExpr} (h : Midway w₀ done w)
    (hgen : DGen.genExpr e w = .ok (z, w')) : Midway w₀ (done ++ e.mentions w₀) w' where
  recorded := genExpr_recorded e hgen h.recorded
  leaves := h.leaves.trans (Leaving.genExpr e hgen h.recorded.ok).2

/-- What is generated for an input that is mentioned. -/
theorem Midway.mention {w₀ w w' : World} {done : List Mention} {x : Expr Symbol} {z : ZExpr} (h : Midway w₀ done w)
    (hx : ∀ node op lhs rhs, x ≠ .binOp node op lhs rhs) (hgen : DGen.genExpr x w = .ok (z, w')) {μ : Mention}
    (hμ : x.mention w₀ = some μ) : genMention μ w = .ok (z, w') := by
  have hmention := x.mention_congr h.recorded.grown.inputs h.recorded.grown.ctx
  rw [hμ] at hmention
  obtain ⟨hnone, -⟩ | ⟨μ', hμ', hgen⟩ := genExpr_leaf hx hgen
  · cases hmention.symm.trans hnone
  · obtain rfl := Option.some.inj (hmention.symm.trans hμ')
    exact hgen

theorem LVal.ReadsIdxs.length {w : World} {vs : List LVal} : ∀ {is : List (BitVec 32)}, LVal.ReadsIdxs w vs is →
    is.length = vs.length := by
  induction vs with
  | nil =>
    intro is h
    cases h
    rfl
  | cons v vs ih =>
    intro is h
    cases h with
    | cons _ hrest => exact congrArg (· + 1) (ih hrest)

namespace FilledIn

variable {inputs : List Symbol} {ms done : List Mention} {w₀ w₁ w' w w₂ : World} {z : ZExpr} {v : LVal}
  {n : IdentNode Symbol}

theorem mem (hf : FilledIn m ms w₀ w₁ w') (hw : Midway w₀ done w) : w'.mem = w.mem :=
  hf.onward.leaves.mem.trans hw.leaves.mem.symm

theorem ident_input (hf : FilledIn m ms w₀ w₁ w') (hw₀ : w₀.Whole inputs) (hw' : w'.Whole inputs)
    (hw : Midway w₀ done w) (hgen : genExpr (.ident n) w = .ok (z, w₂)) (hv : codeGenExpr (.ident n) = .ok v) (hgrown : Grown w₂ w₁)
    (hms : ∀ μ, (Expr.ident n).mention w₀ = some μ → μ ∈ ms) (hin : n.symbol.isInput = true) (hn : n.Resolved inputs)
    (hs : n.symbol.type.toTy.isScalar = true) : Corresponds m w' (.ident n) v z := by
  rw [codeGenExpr, codeGenIdent, if_pos hin, Symbol.randGenType_eq] at hv
  obtain rfl := Except.ok.inj hv
  obtain ⟨id, hid, -⟩ := hw₀.inputId hn hin
  have hid := (inputId_input? hid).1
  have hμ : (Expr.ident n).mention w₀ = some (.value id []) := by rw [Expr.mention, hid]; rfl
  have hgen := hw.mention (fun _ _ _ _ he => by cases he) hgen hμ
  have hmem : id ∈ w.inputs := hw.recorded.grown.inputs ▸ World.mem_of_input? hid
  obtain ⟨sym, o, hat, ho, hscalar, hd⟩ := hf.value hw.recorded hgen hmem hgrown (hms _ hμ)
  obtain rfl := Option.some.inj hat
  obtain ⟨a, ha, hmeans⟩ := hd.means hscalar
  obtain ⟨id', hid', o', ho', hcls⟩ := hw'.inputId hn hin
  have hin' := World.input?_onward hf.onward hid
  obtain rfl := Option.some.inj ((inputId_input? hid').1.symm.trans hin')
  obtain rfl := Option.some.inj (ho.symm.trans ho')
  exact ⟨a, n.symbol.type, _, .randGen hin' ho ha _, rfl, Ty.eq_refl _, SymVal.scalar?_chunk hcls hs ha, hmeans⟩

theorem ident_local (hf : FilledIn m ms w₀ w₁ w') (hw : Midway w₀ done w)
    (hgen : genExpr (.ident n) w = .ok (z, w₂)) (hv : codeGenExpr (.ident n) = .ok v)
    (hcur : (Expr.ident n).Current w₀) (hin : n.symbol.isInput = false) (hs : n.symbol.type.toTy.isScalar = true)
    (hbool : n.symbol.type.toTy.eqKind .bool = false) : Corresponds m w' (.ident n) v z := by
  obtain ⟨p, haddr, hframe⟩ := hcur hin
  have hnot : ¬ n.symbol.isInput = true := by simp [hin]
  rw [codeGenExpr, codeGenIdent, if_neg hnot, Symbol.loadAlloca_eq] at hv
  obtain rfl := Except.ok.inj hv
  rw [genExpr, genIdent, if_neg hnot] at hgen
  obtain ⟨_, _, hg, hgen⟩ := bind_ok_iff.mp hgen
  obtain ⟨rfl, rfl⟩ := get_ok_iff.mp hg
  rw [hw.recorded.grown.ctx, haddr] at hgen
  obtain ⟨a, hload, hc, hmeans⟩ := getExprFromVoid_means (m := m) hgen (Ty.eq_refl _) hs hbool
  have hframe' := hf.onward.leaves.frame ▸ hframe
  have hload' := hf.mem hw ▸ hload
  exact ⟨a, n.symbol.type, _, .load (.alloca hframe' _) hc hload', rfl, Ty.eq_refl _, hc, hmeans⟩

theorem lookup_input (hf : FilledIn m ms w₀ w₁ w') (hw₀ : w₀.Whole inputs) (hw' : w'.Whole inputs)
    (hw : Midway w₀ done w) {node : ASTNode} {idxs : List (Expr Symbol)}
    (hgen : genExpr (.arrLookup node n idxs) w = .ok (z, w₂)) (hv : codeGenExpr (.arrLookup node n idxs) = .ok v)
    (hgrown : Grown w₂ w₁) (hms : ∀ μ, (Expr.arrLookup node n idxs).mention w₀ = some μ → μ ∈ ms)
    (hcur : (Expr.arrLookup node n idxs).Current w₀) (hin : n.symbol.isInput = true) (hn : n.Resolved inputs)
    (hs : (Expr.arrLookup node n idxs).Scalar) : Corresponds m w' (.arrLookup node n idxs) v z := by
  rw [Expr.Current, if_pos hin] at hcur
  obtain ⟨vs, hvs, hidxs⟩ := hcur
  rw [codeGenExpr, if_pos hin, hvs] at hv
  obtain ⟨dest, -, hv⟩ := Except.bind_ok_iff.mp (show codeGenIdx n.symbol vs = .ok v from hv)
  obtain rfl := Except.pure_ok_iff.mp hv
  obtain ⟨t, ht, hscalar⟩ := Expr.typeIs_iff.mp hs
  obtain ⟨-, d, hd, heq⟩ := getType_arrLookup_ok_iff.mp ht
  obtain ⟨id, hid, hhas⟩ := hw₀.inputId hn hin
  have hid := (inputId_input? hid).1
  have hμ : (Expr.arrLookup node n idxs).mention w₀ = some (.value id (w₀.ctx.currentIdxs node.id)) := by
    rw [Expr.mention, hid]
    rfl
  have hmem := hms _ hμ
  have hgenμ := hw.mention (fun _ _ _ _ he => by cases he) hgen hμ
  have hin₁ : id ∈ w.inputs := hw.recorded.grown.inputs ▸ World.mem_of_input? hid
  obtain ⟨sym, o, hat, ho, hscalar', hden⟩ := hf.value hw.recorded hgenμ hin₁ hgrown hmem
  obtain ⟨a, ha, hmeans⟩ := hden.means hscalar'
  obtain ⟨d', hd', o', ho', hcls⟩ := hw'.has_symAt (hf.onward.later.has hhas) hat
  obtain rfl := Option.some.inj (ho.symm.trans ho')
  rw [hidxs.length, codeGenExprs_length hvs] at hd'
  obtain rfl := Option.some.inj (hd.symm.trans hd')
  have hin' := World.input?_onward hf.onward hid
  have hidxs' := hidxs.onward hw₀.ok hf.onward
  rw [Ty.isScalar_congr heq] at hscalar
  refine ⟨a, d, t, ?_, ht, heq, SymVal.scalar?_chunk hcls hscalar ha, hmeans⟩
  cases hpath : w₀.ctx.currentIdxs node.id with
  | nil =>
    -- a lookup without an index throws
    rw [genExpr, genArrLookup, if_pos hin] at hgen
    obtain ⟨_, _, hid', hgen⟩ := bind_ok_iff.mp hgen
    obtain ⟨-, rfl⟩ := inputId_input? hid'
    obtain ⟨_, _, hg, hgen⟩ := bind_ok_iff.mp hgen
    obtain ⟨rfl, rfl⟩ := get_ok_iff.mp hg
    obtain ⟨_, _, hsub, -⟩ := bind_ok_iff.mp hgen
    rw [hw.recorded.grown.ctx, hpath] at hsub
    cases hsub
  | cons i is =>
    rw [hpath] at hidxs' hat
    exact .getValArr hin' hidxs' hat ho ha dest

theorem lookup_local (hf : FilledIn m ms w₀ w₁ w') (hw₀ : w₀.Ok) (hw : Midway w₀ done w) {node : ASTNode}
    {idxs : List (Expr Symbol)} (hgen : genExpr (.arrLookup node n idxs) w = .ok (z, w₂))
    (hv : codeGenExpr (.arrLookup node n idxs) = .ok v) (hcur : (Expr.arrLookup node n idxs).Current w₀)
    (hin : n.symbol.isInput = false) (hs : (Expr.arrLookup node n idxs).Scalar)
    (hbool : (Expr.arrLookup node n idxs).typeIs (·.eqKind .bool) = false) :
    Corresponds m w' (.arrLookup node n idxs) v z := by
  have hnot : ¬ n.symbol.isInput = true := by simp [hin]
  rw [Expr.Current, if_neg hnot] at hcur
  obtain ⟨alloca, addr, p, halloca, haddr, hp, hreads⟩ := hcur
  obtain ⟨t, ht, hscalar⟩ := Expr.typeIs_iff.mp hs
  obtain ⟨-, d, hd, heq⟩ := getType_arrLookup_ok_iff.mp ht
  rw [codeGenExpr, if_neg hnot, ht, halloca] at hv
  simp only [Except.bind_ok_iff, Except.pure_ok_iff, Except.mapError, Except.ok.injEq, exists_eq_left', haddr,
    mapTypeToLlvmType_of_eq heq] at hv
  obtain rfl := hv
  rw [genExpr, genArrLookup, if_neg hnot] at hgen
  obtain ⟨_, _, hg, hgen⟩ := bind_ok_iff.mp hgen
  obtain ⟨rfl, rfl⟩ := get_ok_iff.mp hg
  rw [hw.recorded.grown.ctx, hp, ht] at hgen
  rw [Ty.isScalar_congr heq] at hscalar
  rw [Expr.typeIs, ht] at hbool
  obtain ⟨a, hload, hc, hmeans⟩ := getExprFromVoid_means (m := m) hgen heq hscalar hbool
  have hreads' := (hreads.onward hw₀ hf.onward).1
  have hload' := hf.mem hw ▸ hload
  exact ⟨a, d, t, .load hreads' hc hload', ht, heq, hc, hmeans⟩

theorem getType_propertyLookup {node : ASTNode} {p : String} {t : Ty}
    (h : (Expr.propertyLookup node n p).getType = .ok t) :
    t.eq (⟨.int, 0⟩ : DeclTy).toTy = true ∧ n.symbol.type.llvm.chunk = some .ptr := by
  simp only [Expr.getType] at h
  split at h <;> try split at h
  case isTrue.isFalse hty =>
    cases h
    refine ⟨rfl, ?_⟩
    generalize n.symbol.type = d at hty ⊢
    obtain ⟨s, k⟩ := d
    cases k with
    | succ k => rw [DeclTy.llvm, Function.iterate_succ_apply', LTy.chunk]
    | zero =>
      cases s with
      | string => rfl
      | int | char | bool => exact absurd rfl hty
  all_goals cases h

theorem length_input (hf : FilledIn m ms w₀ w₁ w') (hw₀ : w₀.Whole inputs) (hw : Midway w₀ done w) {node : ASTNode}
    {p : String} (hgen : genExpr (.propertyLookup node n p) w = .ok (z, w₂))
    (hv : codeGenExpr (.propertyLookup node n p) = .ok v) (hgrown : Grown w₂ w₁)
    (hms : ∀ μ, (Expr.propertyLookup node n p).mention w₀ = some μ → ∃ post, ms = done ++ μ :: post)
    (hin : n.symbol.isInput = true) (hn : n.Resolved inputs) (ht : (Expr.propertyLookup node n p).Scalar) :
    Corresponds m w' (.propertyLookup node n p) v z := by
  rw [codeGenExpr, codeGenProperty, if_pos hin] at hv
  obtain rfl := Except.ok.inj hv
  obtain ⟨t, ht, -⟩ := Expr.typeIs_iff.mp ht
  obtain ⟨id, hid, -⟩ := hw₀.inputId hn hin
  have hid := (inputId_input? hid).1
  have hμ : (Expr.propertyLookup node n p).mention w₀ = some (.length id) := by
    rw [Expr.mention, hid]
    rfl
  have hgen := hw.mention (fun _ _ _ _ he => by cases he) hgen hμ
  have hin₁ : id ∈ w.inputs := hw.recorded.grown.inputs ▸ World.mem_of_input? hid
  obtain ⟨name, type, size, elems, ho, hm⟩ := hf.length hw.recorded hgen hin₁ hgrown (hms _ hμ)
  exact ⟨.int32 size, ⟨.int, 0⟩, t, .getPropertyInput (World.input?_onward hf.onward hid) ho, ht,
    (getType_propertyLookup ht).1, rfl, hm ▸ .int size⟩

theorem length_local (hf : FilledIn m ms w₀ w₁ w') (hw₀ : w₀.Ok) (hw : Midway w₀ done w) {node : ASTNode}
    {p : String} (hgen : genExpr (.propertyLookup node n p) w = .ok (z, w₂))
    (hv : codeGenExpr (.propertyLookup node n p) = .ok v) (hcur : (Expr.propertyLookup node n p).Current w₀)
    (hin : n.symbol.isInput = false) (hexact : z.Exact m) (ht : (Expr.propertyLookup node n p).Scalar) :
    Corresponds m w' (.propertyLookup node n p) v z := by
  obtain ⟨cell, haddr, hframe⟩ := hcur hin
  have hnot : ¬ n.symbol.isInput = true := by simp [hin]
  rw [codeGenExpr, codeGenProperty, if_neg hnot, Symbol.loadAlloca_eq] at hv
  obtain rfl := Except.ok.inj hv
  obtain ⟨t, ht, -⟩ := Expr.typeIs_iff.mp ht
  rw [genExpr, genPropertyLookup, if_neg hnot] at hgen
  obtain ⟨_, _, hg, hgen⟩ := bind_ok_iff.mp hgen
  obtain ⟨rfl, rfl⟩ := get_ok_iff.mp hg
  rw [hw.recorded.grown.ctx, haddr] at hgen
  obtain ⟨_, _, hp, hgen⟩ := bind_ok_iff.mp hgen
  obtain ⟨he, rfl⟩ := ofOption_ok_iff.mp hp
  obtain rfl := Option.some.inj he
  obtain ⟨a, _, ha, hgen⟩ := bind_ok_iff.mp hgen
  obtain ⟨hload, rfl⟩ := loadMem_ok_iff.mp ha
  cases a with
  | ptr q =>
    obtain ⟨data, _, hdata, hgen⟩ := bind_ok_iff.mp hgen
    obtain ⟨rfl, rfl⟩ := pure_ok_iff.mp hgen
    obtain ⟨hint, hchunk⟩ := getType_propertyLookup ht
    have hload₀ : w₀.mem.load .ptr cell = some (.ptr q) := hw.leaves.mem ▸ hload
    have hreads := ((LVal.Reads.load (.alloca hframe n.symbol.type.llvm) hchunk hload₀).onward hw₀ hf.onward).1
    have hsize : w'.allocSize q = data.size.toNat := by
      rw [hf.onward.leaves.sizes, ← hw.leaves.sizes, getAlloc_size hdata]
    refine ⟨_, ⟨.int, 0⟩, t, .getPropertyLocal hreads n.symbol, ht, hint, rfl, ?_⟩
    have hfits : (data.size.toNat : Int) < 2 ^ 31 := hexact.2
    have htoInt : (BitVec.ofNat 32 data.size.toNat).toInt = data.size.toNat := by
      rw [BitVec.ofNat_toNat, BitVec.setWidth_eq, BitVec.toInt_eq_toNat_of_lt (by omega)]
    rw [Model.eval_int rfl, ZExpr.int, hsize, ← htoInt]
    exact .int _
  | _ => simp at hgen

end FilledIn

/-! ## Operands and conditions -/

/-- A `bool` of the program's own: its cell may hold any byte. -/
def Expr.ownBool : Expr Symbol → Bool
  | .ident n => !n.symbol.isInput && n.symbol.type.toTy.eqKind .bool
  | .arrLookup node n idxs => !n.symbol.isInput && (Expr.arrLookup node n idxs).typeIs (·.eqKind .bool)
  | _ => false

/-- Arithmetic of `int`s and operators of `bool`s over scalars, and so are the
indices of lookups. -/
structure Expr.Operand (e : Expr Symbol) : Prop where
  scalar : ∀ x ∈ e.nodes, x.Scalar
  plain : ∀ x ∈ e.nodes, x.plain = true
  input : ∀ x ∈ e.leaves, x.ownBool = false

instance : DecidablePred Expr.Scalar := fun x => inferInstanceAs (Decidable (x.typeIs Ty.isScalar = true))

/-- What `gen_expr` reads of an expression is current, and its inputs are those of the program. -/
structure Expr.Ready (inputs : List Symbol) (w : World) (e : Expr Symbol) : Prop where
  current : ∀ x ∈ e.leaves, x.Current w
  resolved : ∀ n ∈ e.idents, n.Resolved inputs

/-- A formula was generated for the expression on the way from `w₀` to `w₁`. -/
structure Generated (ms : List Mention) (w₀ w₁ : World) (done : List Mention) (w : World) (e : Expr Symbol) (z : ZExpr)
    (w' : World) : Prop where
  midway : Midway w₀ done w
  gen : genExpr e w = .ok (z, w')
  grown : Grown w' w₁
  mentions : ∃ post, ms = done ++ e.mentions w₀ ++ post

section

variable {inputs : List Symbol} {ms done : List Mention} {w₀ w₁ w' w w₂ : World} {z : ZExpr} {v : LVal}
  {node : ASTNode} {op : BinOpType} {lhs rhs : Expr Symbol}

theorem Generated.operands (h : Generated ms w₀ w₁ done w (.binOp node op lhs rhs) z w₂) :
    ∃ lz rz w₃, z = .binOp op lz rz ∧ op.zargs lz.sort rz.sort = true ∧ Generated ms w₀ w₁ done w lhs lz w₃ ∧
      Generated ms w₀ w₁ (done ++ lhs.mentions w₀) w₃ rhs rz w₂ := by
  obtain ⟨lz, w₃, hl, hgen⟩ := bind_ok_iff.mp h.gen
  obtain ⟨rz, w₄, hr, hgen⟩ := bind_ok_iff.mp hgen
  obtain ⟨post, hms⟩ := h.mentions
  have hms : ms = done ++ lhs.mentions w₀ ++ rhs.mentions w₀ ++ post := by
    rw [hms]
    simp [Expr.mentions, Expr.leaves]
  unfold mkBinOp at hgen
  split at hgen
  next hargs =>
    obtain ⟨rfl, rfl⟩ := pure_ok_iff.mp hgen
    have hmid := h.midway.genExpr hl
    have hgrown := genExpr_grown rhs hr hmid.recorded.ok
    exact ⟨lz, rz, w₃, rfl, hargs, ⟨h.midway, hl, hgrown.trans h.grown, _, hms.trans (List.append_assoc ..)⟩,
      hmid, hr, h.grown, _, hms⟩
  next => cases hgen

theorem Expr.Ready.operands (h : (Expr.binOp node op lhs rhs).Ready inputs w₀) :
    lhs.Ready inputs w₀ ∧ rhs.Ready inputs w₀ := by
  obtain ⟨hcur, hres⟩ := h
  simp only [Expr.leaves, Expr.idents, List.forall_mem_append] at hcur hres
  exact ⟨⟨hcur.1, hres.1⟩, hcur.2, hres.2⟩

theorem Expr.Operand.operands (h : (Expr.binOp node op lhs rhs).Operand) : lhs.Operand ∧ rhs.Operand := by
  obtain ⟨hs, hp, hi⟩ := h
  simp only [Expr.nodes, Expr.leaves, List.forall_mem_cons, List.forall_mem_append] at hs hp hi
  exact ⟨⟨hs.2.1, hp.2.1, hi.1⟩, hs.2.2, hp.2.2, hi.2⟩

/-- What is no operator reads what it was noted down to. -/
theorem FilledIn.leaf (hf : FilledIn m ms w₀ w₁ w') (hw₀ : w₀.Whole inputs) (hw' : w'.Whole inputs) {x : Expr Symbol}
    (hx : ∀ node op lhs rhs, x ≠ .binOp node op lhs rhs) (hg : Generated ms w₀ w₁ done w x z w₂)
    (hv : codeGenExpr x = .ok v) (hready : x.Ready inputs w₀) (hop : x.Operand) (hexact : z.Exact m) :
    Corresponds m w' x v z := by
  obtain ⟨hw, hgen, hgrown, post, hms⟩ := hg
  have hleaf : x.leaves = [x] := by
    cases x with
    | binOp node op lhs rhs => exact absurd rfl (hx node op lhs rhs)
    | _ => rfl
  have hcur : x.Current w₀ := hready.current x (by simp [hleaf])
  have hs : x.Scalar := hop.scalar x (Expr.mem_nodes_self x)
  have hown : x.ownBool = false := hop.input x (by simp [hleaf])
  have hmentioned : ∀ μ, x.mention w₀ = some μ → ms = done ++ μ :: post := by
    intro μ hμ
    rw [hms, Expr.mentions, hleaf]
    simp [hμ]
  have hmem : ∀ μ, x.mention w₀ = some μ → μ ∈ ms := fun μ hμ => by simp [hmentioned μ hμ]
  cases x with
  | bool node val =>
    obtain rfl := Except.ok.inj hv
    obtain ⟨rfl, rfl⟩ := pure_ok_iff.mp hgen
    refine ⟨_, ⟨.bool, 0⟩, _, .getInt8 _, rfl, rfl, rfl, ?_⟩
    cases val
    · exact .bool false
    · exact .bool true
  | char node ch =>
    obtain rfl := Except.ok.inj hv
    obtain ⟨rfl, rfl⟩ := pure_ok_iff.mp hgen
    exact ⟨_, ⟨.char, 0⟩, _, .getInt8 _, rfl, rfl, rfl, .char ch⟩
  | number node num =>
    obtain rfl := Except.ok.inj hv
    obtain ⟨rfl, rfl⟩ := pure_ok_iff.mp hgen
    exact ⟨_, ⟨.int, 0⟩, _, .getInt32 _, rfl, rfl, rfl, .int num⟩
  | ident n =>
    cases hin : n.symbol.isInput with
    | true =>
      exact hf.ident_input hw₀ hw' hw hgen hv hgrown hmem hin (hready.resolved n (List.mem_singleton_self n)) hs
    | false =>
      rw [Expr.ownBool, hin] at hown
      exact hf.ident_local hw hgen hv hcur hin hs hown
  | arrLookup node n idxs =>
    cases hin : n.symbol.isInput with
    | true => exact hf.lookup_input hw₀ hw' hw hgen hv hgrown hmem hcur hin (hready.resolved n List.mem_cons_self) hs
    | false =>
      rw [Expr.ownBool, hin] at hown
      exact hf.lookup_local hw₀.ok hw hgen hv hcur hin hs hown
  | propertyLookup node n p =>
    cases hin : n.symbol.isInput with
    | true =>
      exact hf.length_input hw₀ hw hgen hv hgrown (fun μ hμ => ⟨post, hmentioned μ hμ⟩) hin
        (hready.resolved n (List.mem_singleton_self n)) hs
    | false => exact hf.length_local hw₀.ok hw hgen hv hcur hin hexact hs
  | binOp node op lhs rhs => exact absurd rfl (hx node op lhs rhs)
  | string | arrCreate => cases hgen

theorem Corresponds.int {e : Expr Symbol} (h : Corresponds m w e v z) (ht : e.typeIs (·.eqKind .int) = true) :
    ∃ i : BitVec 32, v.Reads w (.int32 i) ∧ i.toInt = z.int m := by
  obtain ⟨a, d, t, hreads, ht', heq, hc, hmeans⟩ := h
  rw [Expr.typeIs, ht'] at ht
  rw [(DeclTy.llvm_eq_int32_iff heq).mpr ht] at hc
  cases a with
  | int32 i =>
    refine ⟨i, hreads, ?_⟩
    cases hz : z.sort with
    | int =>
      rw [Model.eval_int hz] at hmeans
      obtain ⟨_, h, -⟩ | ⟨_, h, hi⟩ := hmeans.int_inv
      · cases h
      · exact Val.int32.inj h ▸ hi
    | bool =>
      rw [Model.eval_bool hz] at hmeans
      cases hmeans
  | _ => cases hc

/-- No declared type is the one of comparisons. -/
theorem DeclTy.chunk_ne_int1 (d : DeclTy) : d.llvm.chunk ≠ some .int1 := by
  obtain ⟨s, n⟩ := d
  cases n with
  | zero => cases s <;> simp [llvm, ScalarType.llvm, LTy.chunk]
  | succ n => simp [llvm, Function.iterate_succ_apply', LTy.chunk]

/-- The operands of an operator are of one machine type. -/
theorem Expr.typed_chunks (h : (Expr.binOp node op lhs rhs).typed = true) {t t' : Ty} {d d' : DeclTy}
    (ht : lhs.getType = .ok t) (ht' : rhs.getType = .ok t') (heq : t.eq d.toTy = true) (heq' : t'.eq d'.toTy = true) :
    d.llvm = d'.llvm := by
  obtain ⟨t1, t2, h1, h2, hcases⟩ := typed_binOp_iff.mp h
  obtain rfl := Except.ok.inj (ht.symm.trans h1)
  obtain rfl := Except.ok.inj (ht'.symm.trans h2)
  obtain ⟨-, hb, hb'⟩ | ⟨-, hsame⟩ := hcases
  · have hd := mapTypeToLlvmType_of_eqKind (s := .bool) ht hb
    have hd' := mapTypeToLlvmType_of_eqKind (s := .bool) ht' hb'
    rw [mapTypeToLlvmType_of_eq heq] at hd
    rw [mapTypeToLlvmType_of_eq heq'] at hd'
    exact (Except.ok.inj hd).trans (Except.ok.inj hd').symm
  · have hd := mapTypeToLlvmType_of_eq (Ty.eq_trans hsame heq')
    rw [mapTypeToLlvmType_of_eq heq] at hd
    exact Except.ok.inj hd

theorem Expr.getType_binOp (h : (Expr.binOp node op lhs rhs).typed = true) :
    (Expr.binOp node op lhs rhs).getType = .ok (.ofKind op.getOpGroupRes) := by
  obtain ⟨t, ht⟩ := typed_iff.mp h
  simp only [getType, Except.bind_ok_iff, binOpGetType_ok_iff] at ht
  obtain ⟨t1, h1, t2, h2, rfl, hcases⟩ := ht
  simp only [getType, h1, h2]
  exact binOpGetType_ok_iff.mpr ⟨rfl, hcases⟩

theorem Expr.plain_arith (h : (Expr.binOp node op lhs rhs).plain = true) :
    op ∈ arithOps ∧ lhs.typeIs (·.eqKind .int) = true ∧ rhs.typeIs (·.eqKind .int) = true ∨ op = .and ∨ op = .or := by
  cases op <;> simp_all [plain, arithOps]

/-- **Operands**: by induction, the code of each reads what the model has for its formula. -/
theorem FilledIn.operand (hf : FilledIn m ms w₀ w₁ w') (hw₀ : w₀.Whole inputs) (hw' : w'.Whole inputs)
    (e : Expr Symbol) : ∀ {done : List Mention} {w w₂ : World} {z : ZExpr} {v : LVal},
      Generated ms w₀ w₁ done w e z w₂ → codeGenExpr e = .ok v → e.Ready inputs w₀ → e.Operand → z.Exact m →
      Corresponds m w' e v z := by
  induction e with
  | binOp node op lhs rhs ihl ihr =>
    intro done w w₂ z v hg hv hready hop hexact
    obtain ⟨lz, rz, w₃, rfl, hargs, hgl, hgr⟩ := hg.operands
    simp only [codeGenExpr, Except.bind_ok_iff, Except.pure_ok_iff] at hv
    obtain ⟨lv, hlv, rv, hrv, rfl⟩ := hv
    have hl := ihl hgl hlv hready.operands.1 hop.operands.1 hexact.1
    have hr := ihr hgr hrv hready.operands.2 hop.operands.2 hexact.2.1
    have htyped : (Expr.binOp node op lhs rhs).typed = true := by
      obtain ⟨t, ht, -⟩ := Expr.typeIs_iff.mp (hop.scalar _ (Expr.mem_nodes_self _))
      exact Expr.typed_iff.mpr ⟨t, ht⟩
    have hty := Expr.getType_binOp htyped
    obtain ⟨harith, hli, hri⟩ | hlogic := Expr.plain_arith (hop.plain _ (Expr.mem_nodes_self _))
    · obtain ⟨i, hli, hi⟩ := hl.int hli
      obtain ⟨j, hrj, hj⟩ := hr.int hri
      obtain ⟨n, hn, hint⟩ := BinOpType.reads_arith harith hli hrj hi hj hexact
      have hres : op.getOpGroupRes = .int := by
        cases op <;> simp_all [arithOps, BinOpType.getOpGroupRes]
      have hsort : (ZExpr.binOp op lz rz).sort = .int := by
        cases op <;> simp_all [arithOps, ZExpr.sort, BinOpType.zsort]
      refine ⟨.int32 n, ⟨.int, 0⟩, _, hn, hty, by rw [hres]; rfl, rfl, ?_⟩
      rw [Model.eval_int hsort, ← hint]
      exact .int n
    · obtain ⟨a, d, t, hla, ht, heq, hc, ha⟩ := hl
      obtain ⟨b, d', t', hrb, ht', heq', hc', hb⟩ := hr
      have hchunk : a.chunk = b.chunk := by
        rw [Expr.typed_chunks htyped ht ht' heq heq', hc'] at hc
        exact (Option.some.inj hc).symm
      obtain ⟨c, hreads, hmeans, hcc⟩ := BinOpType.reads_logic hlogic hla hrb hchunk ha hb hargs
      have hres : op.getOpGroupRes = .bool := by
        obtain rfl | rfl := hlogic <;> rfl
      refine ⟨c, ⟨.bool, 0⟩, _, hreads, hty, by rw [hres]; rfl, ?_, hmeans⟩
      have hsort : lz.sort = .bool := (BinOpType.zargs_logic hlogic hargs).1
      rw [Model.eval_bool hsort] at ha
      obtain rfl | rfl := ha.bool_inv
      · exact absurd hc d.chunk_ne_int1
      · rw [hcc]
        rfl
  | _ =>
    intro done w w₂ z v hg hv hready hop hexact
    exact hf.leaf hw₀ hw' (fun _ _ _ _ he => by cases he) hg hv hready hop hexact

end

end DGen
