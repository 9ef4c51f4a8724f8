/-
What values mean for the solver: a value of the program is what the model has
for its formula (`Means`), operator by operator, and an input is in the end
what the model has for what was generated for it (`FilledIn`).
-/
import DGen.Forcing
import DGen.Reading
import DGen.WriteOnce

namespace DGen

open Memory StateT

variable {m : Model}

/-! ## Values and formulas -/

/-- What a value of the program is for the solver. -/
inductive Means : Val → ZVal → Prop
  | cmp (b : Bool) : Means (.int1 b) (.bool b)
  | bool (b : Bool) : Means (.int8 (BitVec.ofNat 8 b.toNat)) (.bool b)
  | char (c : BitVec 8) : Means (.int8 c) (.int c.toInt)
  | int (n : BitVec 32) : Means (.int32 n) (.int n.toInt)

/-- The integers of a formula are ones of 32 bits, its divisors are not zero,
and a negative dividend leaves nothing over. -/
def ZExpr.Exact (m : Model) : ZExpr → Prop
  | .intVal v => FitsInt32 v
  | .not e => e.Exact m
  | .binOp op lhs rhs => lhs.Exact m ∧ rhs.Exact m ∧
    (op ∈ arithOps → FitsInt32 ((ZExpr.binOp op lhs rhs).int m)) ∧
    (op = .div → rhs.int m ≠ 0 ∧ (0 ≤ lhs.int m ∨ rhs.int m ∣ lhs.int m))
  | _ => True

theorem Model.eval_int {z : ZExpr} (h : z.sort = .int) : m.eval z = .int (z.int m) := by
  rw [Model.eval, h]

theorem Model.eval_bool {z : ZExpr} (h : z.sort = .bool) : m.eval z = .bool (z.bool m) := by
  rw [Model.eval, h]

theorem Means.int_inv {a : Val} {n : Int} (h : Means a (.int n)) :
    (∃ c : BitVec 8, a = .int8 c ∧ c.toInt = n) ∨ ∃ i : BitVec 32, a = .int32 i ∧ i.toInt = n := by
  cases h with
  | char c => exact .inl ⟨c, rfl, rfl⟩
  | int i => exact .inr ⟨i, rfl, rfl⟩

theorem Means.bool_inv {a : Val} {b : Bool} (h : Means a (.bool b)) :
    a = .int1 b ∨ a = .int8 (BitVec.ofNat 8 b.toNat) := by
  cases h with
  | cmp => exact .inl rfl
  | bool => exact .inr rfl

section

variable {op : BinOpType} {lz rz : ZExpr}

/-- A formula of arithmetic is what the operator makes of the integers. -/
theorem ZExpr.int_binOp (hop : op ∈ arithOps) :
    (ZExpr.binOp op lz rz).int m = op.onZ3 m (lz.int m) (rz.int m) := by
  simp only [arithOps, List.mem_cons, List.not_mem_nil, or_false] at hop
  obtain rfl | rfl | rfl | rfl := hop <;> rfl

theorem ZExpr.Exact.onInts (h : (ZExpr.binOp op lz rz).Exact m) (hop : op ∈ arithOps) :
    (ZExpr.binOp op lz rz).int m = op.onInts (lz.int m) (rz.int m) := by
  rw [int_binOp hop]
  exact (BinOpType.onZ3_eq_iff fun hd => (h.2.2.2 hd).1).mpr fun hd => (h.2.2.2 hd).2

variable {w : World} {lv rv : LVal} {a b : Val}

/-- An instruction of arithmetic, on the integers the formulas have. -/
theorem BinOpType.reads_arith (hop : op ∈ arithOps) {i j : BitVec 32} (hl : lv.Reads w (.int32 i))
    (hr : rv.Reads w (.int32 j)) (hi : i.toInt = lz.int m) (hj : j.toInt = rz.int m)
    (hexact : (ZExpr.binOp op lz rz).Exact m) :
    ∃ n, (op.inst lv rv).Reads w (.int32 n) ∧ n.toInt = (ZExpr.binOp op lz rz).int m := by
  have hint := hexact.onInts hop
  have hfits : FitsInt32 (op.onInts i.toInt j.toInt) := by
    rw [hi, hj, ← hint]
    exact hexact.2.2.1 hop
  have hdiv : op = .div → j.toInt ≠ 0 := fun hd => hj ▸ (hexact.2.2.2 hd).1
  obtain ⟨n, heval, hn⟩ := @BinOpType.inst_eval op hop (.getInt32 i) (.getInt32 j) i j w w w rfl rfl hfits hdiv
  refine ⟨n, ?_, by rw [hn, hint, hi, hj]⟩
  have hbin {inst : BinInst} (h : (LVal.bin inst (.getInt32 i) (.getInt32 j)).eval w = .ok (.int32 n, w)) :
      (LVal.bin inst lv rv).Reads w (.int32 n) := .bin hl hr (ofOption_ok_iff.mp h).1
  simp only [arithOps, List.mem_cons, List.not_mem_nil, or_false] at hop
  obtain rfl | rfl | rfl | rfl := hop <;> exact hbin heval

theorem BinOpType.zargs_logic (hop : op = .and ∨ op = .or) (hargs : op.zargs lz.sort rz.sort = true) :
    lz.sort = .bool ∧ rz.sort = .bool := by
  obtain rfl | rfl := hop <;> simpa [zargs] using hargs

theorem BinOpType.reads_logic (hop : op = .and ∨ op = .or) (hl : lv.Reads w a) (hr : rv.Reads w b)
    (hchunk : a.chunk = b.chunk) (ha : Means a (m.eval lz)) (hb : Means b (m.eval rz))
    (hargs : op.zargs lz.sort rz.sort = true) :
    ∃ c, (op.inst lv rv).Reads w c ∧ Means c (m.eval (.binOp op lz rz)) ∧ c.chunk = a.chunk := by
  have hsorts := zargs_logic hop hargs
  have hbool : (ZExpr.binOp op lz rz).sort = .bool := by
    obtain rfl | rfl := hop <;> rfl
  rw [Model.eval_bool hbool]
  rw [Model.eval_bool hsorts.1] at ha
  rw [Model.eval_bool hsorts.2] at hb
  obtain rfl | rfl := ha.bool_inv <;> obtain rfl | rfl := hb.bool_inv
  case inl.inr | inr.inl => cases hchunk
  case inl.inl =>
    obtain rfl | rfl := hop <;> exact ⟨_, .bin hl hr rfl, .cmp _, rfl⟩
  case inr.inr =>
    have hbyte {i : BinInst} (h : i.evalBits (BitVec.ofNat 8 (lz.bool m).toNat) (BitVec.ofNat 8 (rz.bool m).toNat) =
        some (BitVec.ofNat 8 ((ZExpr.binOp op lz rz).bool m).toNat)) :
        ∃ c, (LVal.bin i lv rv).Reads w c ∧ Means c (.bool ((ZExpr.binOp op lz rz).bool m)) ∧ c.chunk = .int8 :=
      ⟨_, .bin hl hr (by rw [BinInst.eval, h]; rfl), .bool _, rfl⟩
    obtain rfl | rfl := hop <;> refine hbyte ?_ <;>
      cases hx : lz.bool m <;> cases hy : rz.bool m <;> simp [ZExpr.bool, BinInst.evalBits, hx, hy]

end

/-! ## Inputs, once they are filled in -/

/-- A scalar that denotes what a formula has is a value that means it. -/
theorem SymVal.Denotes.means {val : SymVal} {z : ZVal} (h : val.Denotes z) (hscalar : val.isArray = false) :
    ∃ v, val.scalar? = some v ∧ Means v z := by
  unfold Denotes at h
  split at h
  next num n =>
    obtain rfl := h
    exact ⟨_, rfl, .int num⟩
  next ch n =>
    obtain rfl := h
    exact ⟨_, rfl, .char ch⟩
  next val b =>
    obtain rfl := h
    exact ⟨_, rfl, .bool val⟩
  next => cases hscalar
  next => cases h

theorem SymVal.scalar?_chunk {val : SymVal} {t : DeclTy} {v : Val} (hcls : val.cls = t.newSym)
    (ht : t.toTy.isScalar = true) (hv : val.scalar? = some v) : t.llvm.chunk = some v.chunk := by
  obtain ⟨s, hs, rfl⟩ := DeclTy.isScalar_iff.mp ht
  cases s with
  | string => exact absurd rfl hs
  | int =>
    obtain ⟨num, rfl⟩ := cls_eq_number hcls
    obtain ⟨num, rfl, rfl⟩ := Option.map_eq_some_iff.mp hv
    rfl
  | char =>
    obtain ⟨ch, rfl⟩ := cls_eq_char hcls
    obtain ⟨ch, rfl, rfl⟩ := Option.map_eq_some_iff.mp hv
    rfl
  | bool =>
    obtain ⟨b, rfl⟩ := cls_eq_bool hcls
    obtain ⟨b, rfl, rfl⟩ := Option.map_eq_some_iff.mp hv
    rfl

/-- What `get_expr` makes of an object: its value, or the constant of its name. -/
structure SymObj.Yields (o : SymObj) (z : ZExpr) : Prop where
  scalar : o.val.isArray = false
  value : o.val.hasVal = true → ∀ m : Model, o.val.Denotes (m.eval z)
  const : o.val.hasVal = false → z = o.val.const o.name

theorem SymObj.getExpr_yields {o : SymObj} {z : ZExpr} {w w' : World} (h : o.getExpr w = .ok (z, w')) :
    w = w' ∧ o.Yields z := by
  obtain ⟨name, val⟩ := o
  cases val with
  | array => cases h
  | number v | char v | bool v =>
    cases v <;> obtain ⟨rfl, rfl⟩ := pure_ok_iff.mp h <;> refine ⟨rfl, rfl, fun hv _ => ?_, fun hv => ?_⟩ <;>
      first | rfl | cases hv

theorem genSymExpr_yields {sym : SymId} {w w' : World} {z : ZExpr} (h : genSymExpr sym w = .ok (z, w')) :
    ∃ o, w.syms sym = some o ∧ w'.syms = w.syms ∧ o.Yields z := by
  obtain ⟨o, _, hget, h⟩ := bind_ok_iff.mp h
  obtain ⟨ho, rfl⟩ := getSym_ok_iff.mp hget
  obtain ⟨z', _, hz, h⟩ := bind_ok_iff.mp h
  obtain ⟨rfl, hyields⟩ := SymObj.getExpr_yields hz
  refine ⟨o, ho, ?_⟩
  split at h
  next =>
    obtain ⟨_, _, hrec, h⟩ := bind_ok_iff.mp h
    obtain ⟨rfl, rfl⟩ := pure_ok_iff.mp h
    obtain rfl := modify_ok_iff.mp hrec
    exact ⟨rfl, hyields⟩
  next =>
    obtain ⟨rfl, rfl⟩ := pure_ok_iff.mp h
    exact ⟨rfl, hyields⟩

theorem genMention_yields {id : SymId} {path : List (BitVec 32)} {w w' : World} {z : ZExpr}
    (h : genMention (.value id path) w = .ok (z, w')) (hok : w.Ok) (hid : id ∈ w.inputs) :
    ∃ sym o, symAt w'.syms id path = some sym ∧ w'.syms sym = some o ∧ o.Yields z ∧
      ∀ r, w.syms id = some r → o.name = constName r.name path := by
  obtain ⟨w₁, sym, o, hreach, rfl⟩ := genMention_value_ok h hok hid
  refine ⟨sym, o, hreach.place, hreach.obj, ?_, hreach.name⟩
  cases path with
  | nil =>
    obtain ⟨o', ho', hsyms, hyields⟩ := genSymExpr_yields h
    obtain rfl := Option.some.inj hreach.place
    have hobj := hreach.obj
    have hsyms : w₁.syms = w.syms := hsyms
    rw [hsyms] at hobj
    obtain rfl := Option.some.inj (hobj.symm.trans ho')
    exact hyields
  | cons i path =>
    obtain ⟨sym', w₂, hsym, h⟩ := bind_ok_iff.mp h
    obtain ⟨hsizing, hat⟩ := getSymbolByIdxs_sizing hsym hok
    obtain ⟨r, _, hgr, h⟩ := bind_ok_iff.mp h
    obtain ⟨hr, rfl⟩ := getSym_ok_iff.mp hgr
    obtain ⟨o₂, _, hgo, h⟩ := bind_ok_iff.mp h
    obtain ⟨ho₂, rfl⟩ := getSym_ok_iff.mp hgo
    obtain ⟨_, _, hs, h⟩ := bind_ok_iff.mp h
    obtain rfl := setSym_ok_iff.mp hs
    obtain ⟨o', ho', hsyms, hyields⟩ := genSymExpr_yields h
    have hsyms : w₁.syms = _ := hsyms
    have hnin : sym' ∉ w₂.inputs := by
      obtain ⟨c, -, -, hc⟩ := symAt_snoc_iff.mp ((List.dropLast_concat_getLast (List.cons_ne_nil i path)).symm ▸ hat)
      exact (hsizing.ok.tree.child c sym' (List.mem_of_getElem? hc)).2
    have hat' := (grown_rename ho₂ hnin (elemName r.name (i :: path))).symAt hat
    have hplace := hreach.place
    have hobj := hreach.obj
    rw [hsyms] at hplace hobj
    obtain rfl := Option.some.inj (hplace.symm.trans hat')
    obtain rfl := Option.some.inj (hobj.symm.trans ho')
    exact hyields

/-- Each state of the formulas' generation grows into the next. -/
theorem genMention_grown {μ : Mention} {w w' : World} {z : ZExpr} (h : genMention μ w = .ok (z, w')) (hok : w.Ok)
    (hin : ∀ id path, μ = .value id path → id ∈ w.inputs) : Grown w w' := by
  cases μ with
  | value id path =>
    obtain ⟨w₁, sym, o, hreach, rfl⟩ := genMention_value_ok h hok (hin id path rfl)
    exact hreach.grown.trans (.of_syms rfl rfl rfl (Nat.le_refl _) rfl)
  | length id =>
    obtain ⟨o, -, -, rfl⟩ := genMention_length_ok h
    exact .of_syms rfl rfl rfl (Nat.le_refl _) rfl

theorem genExpr_grown (e : Expr Symbol) : ∀ {w w' : World} {z : ZExpr}, genExpr e w = .ok (z, w') → w.Ok →
    Grown w w' := by
  have hleaf {x : Expr Symbol} (hx : ∀ node op lhs rhs, x ≠ .binOp node op lhs rhs) {w w' : World} {z : ZExpr}
      (h : DGen.genExpr x w = .ok (z, w')) (hok : w.Ok) : Grown w w' := by
    obtain ⟨-, _, _, rfl⟩ | ⟨μ, hμ, h⟩ := genExpr_leaf hx h
    · exact .of_syms rfl rfl rfl (Nat.le_refl _) rfl
    · exact genMention_grown h hok fun id path he => Expr.mention_mem (.inl (hμ.trans (congrArg some he)))
  induction e with
  | binOp node op lhs rhs ihl ihr =>
    intro w w' z h hok
    obtain ⟨lz, w₁, hl, h⟩ := bind_ok_iff.mp h
    obtain ⟨rz, w₂, hr, h⟩ := bind_ok_iff.mp h
    have hok₁ := (Leaving.genExpr lhs hl hok).1
    unfold mkBinOp at h
    split at h
    · obtain ⟨-, rfl⟩ := pure_ok_iff.mp h
      exact (ihl hl hok).trans (ihr hr hok₁)
    · cases h
  | _ => exact hleaf (fun _ _ _ _ he => by cases he)

/-- The state in which the formulas are asked for, the one in which they are
there, and the one in which their model is filled in. -/
structure FilledIn (m : Model) (ms : List Mention) (w₀ w₁ w' : World) : Prop where
  recorded : Recorded w₀ ms w₁
  later : Later w₁ w'
  onward : w₀.Onward w'
  denotes : AllRecorded SymVal.Denotes m w₁.z3.exprs w₁.z3.symsToExprId w'

namespace FilledIn

variable {ms done : List Mention} {w₀ w₁ w' w w₂ : World} {z : ZExpr}

/-- An input or element is, in the end, what the model has for its formula. -/
theorem value (hf : FilledIn m ms w₀ w₁ w') (hrec : Recorded w₀ done w) {id : SymId} {path : List (BitVec 32)}
    (h : genMention (.value id path) w = .ok (z, w₂)) (hid : id ∈ w.inputs) (hgrown : Grown w₂ w₁)
    (hμ : .value id path ∈ ms) :
    ∃ sym o, symAt w'.syms id path = some sym ∧ w'.syms sym = some o ∧ o.val.isArray = false ∧
      o.val.Denotes (m.eval z) := by
  obtain ⟨sym, o₂, hat, ho₂, hyields, hname⟩ := genMention_yields h hrec.ok hid
  have hat₁ := hgrown.symAt hat
  obtain ⟨o₁, ho₁, -, hval⟩ := hgrown.kept sym o₂ ho₂
  obtain hval : o₁.val = o₂.val := by
    obtain hval | ⟨type, size, elems, hval, -⟩ := hval
    · exact hval
    · have hscalar := hyields.scalar
      rw [hval] at hscalar
      cases hscalar
  have hat' := hf.later.symAt hf.recorded.ok hat₁
  cases hhas : o₂.val.hasVal with
  | true =>
    have hdet : o₁.val.determined = true := by
      rw [hval, SymVal.determined_of_scalar hyields.scalar, hhas]
    obtain ⟨name, ho'⟩ := hf.later.val_eq ho₁ hdet
    exact ⟨sym, _, hat', ho', by rw [hval]; exact hyields.scalar, by rw [hval]; exact hyields.value hhas m⟩
  | false =>
    obtain ⟨sym', o', hat'', ho', hscalar, hkey⟩ := hf.recorded.value id path hμ
    obtain rfl := Option.some.inj (hat''.symm.trans hat₁)
    obtain rfl := Option.some.inj (ho'.symm.trans ho₁)
    obtain ⟨k, hk⟩ := hkey (by rw [hval]; exact hhas)
    obtain ⟨e, he, hrecas⟩ := hf.recorded.entry _ k hk
    obtain ⟨o, e', ho, he', hd⟩ := hf.denotes _ k hk
    obtain rfl := Option.some.inj (he.symm.trans he')
    have hcls : o.val.cls = o₂.val.cls := by
      obtain ⟨x, hx, hcls, -⟩ := hf.later.kept _ _ ho'
      obtain rfl := Option.some.inj (ho.symm.trans hx)
      rw [hcls, hval]
    refine ⟨_, o, hat', ho, (SymVal.isArray_cls hcls).trans hyields.scalar, ?_⟩
    -- what is recorded for the symbol is its own constant
    obtain rfl : e = z := by
      cases hrecas with
      | @value id' path' r _ o'' hdone hr hplace ho'' _ _ =>
        have hid₁ : id ∈ w₁.inputs := hf.recorded.inputs id path (.inl hμ)
        have hid' : id' ∈ w₁.inputs := hf.recorded.inputs id' path' (.inl hdone)
        obtain ⟨rfl, rfl⟩ := hf.recorded.ok.tree.symAt_inj hid₁ hid' hat₁ hplace
        obtain rfl := Option.some.inj (ho''.symm.trans ho')
        obtain ⟨r', hr', hnames, -⟩ := hrec.grown.kept id r hr
        rw [hyields.const hhas, hname r' hr', hnames (hf.recorded.grown.inputs ▸ hid₁), hval]
      | length _ _ hr harr _ =>
        have hcls := hf.recorded.grown.cls_eq hr ho'
        rw [← SymVal.isArray_cls hcls, hval, hyields.scalar] at harr
        cases harr
    exact hd

/-- A length is, in the end, what the model has for its formula. -/
theorem length (hf : FilledIn m ms w₀ w₁ w') (hrec : Recorded w₀ done w) {id : SymId}
    (h : genMention (.length id) w = .ok (z, w₂)) (hid : id ∈ w.inputs) (hgrown : Grown w₂ w₁)
    (hpre : ∃ post, ms = done ++ .length id :: post) :
    ∃ name type size elems, w'.syms id = some ⟨name, .array type (some size) elems⟩ ∧
      m.eval z = .int size.toInt := by
  obtain ⟨⟨name, val⟩, _, hget, h⟩ := bind_ok_iff.mp h
  obtain ⟨ho, rfl⟩ := getSym_ok_iff.mp hget
  cases val with
  | array type size elems =>
    cases size with
    | some size =>
      obtain ⟨rfl, rfl⟩ := pure_ok_iff.mp h
      obtain ⟨name', ho'⟩ := ((Later.of_grown hgrown hrec.ok).trans hf.later).val_eq ho rfl
      exact ⟨name', type, size, elems, ho', rfl⟩
    | none =>
      obtain ⟨_, w₃, hrec', h⟩ := bind_ok_iff.mp h
      obtain ⟨rfl, rfl⟩ := pure_ok_iff.mp h
      have hunseen : ∀ path, .value id path ∉ done := by
        intro path hmem
        cases hrec.looked id path _ hmem ho rfl
      obtain ⟨post, rfl⟩ := hpre
      have hr : w₀.syms id = some ⟨name, .array type none elems⟩ :=
        (hrec.unlooked id (hrec.grown.inputs ▸ hid) hunseen).symm.trans ho
      obtain ⟨k, hk⟩ := hf.recorded.length id done post _ rfl hunseen hr rfl
      obtain ⟨e, he, hrecas⟩ := hf.recorded.entry _ k hk
      obtain ⟨o, e', ho', he', hd⟩ := hf.denotes _ k hk
      obtain rfl := Option.some.inj (he.symm.trans he')
      have hgrown₀ := hf.recorded.grown
      have hcls : o.val.cls = .array type none [] := by
        obtain ⟨r₁, hr₁, -⟩ := hgrown₀.kept id _ hr
        obtain ⟨o₁, ho₁, hcls₁, -⟩ := hf.later.kept id r₁ hr₁
        obtain rfl := Option.some.inj (ho'.symm.trans ho₁)
        exact hcls₁.trans (hgrown₀.cls_eq hr hr₁)
      cases hrecas with
      | value _ _ _ ho'' hscalar _ =>
        have harr := SymVal.isArray_cls (hgrown₀.cls_eq hr ho'')
        rw [hscalar] at harr
        cases harr
      | length _ _ hr' _ _ =>
        obtain rfl := Option.some.inj (hr.symm.trans hr')
        obtain ⟨name', val⟩ := o
        cases val with
        | array type' size' elems' =>
          cases size' with
          | none => cases hd
          | some size' =>
            obtain ⟨rfl, -⟩ := SymVal.array.inj hcls
            have hlen : size'.toInt = (ZExpr.intConst (name ++ ".len")).int m := hd.1
            exact ⟨name', type', size', elems', ho', by rw [hlen, Model.eval_int rfl]⟩
        | number | char | bool => cases hcls
  | number | char | bool => cases h

end FilledIn

end DGen
