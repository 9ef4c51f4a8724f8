/-
Whether blocks are as large as the table has them.

Both products of a length and a size are made in 32 bits, and the length is
recorded in full. `create_arr` wraps around, so that the block has room
exactly if the product is below 2^32; `arr_rand_gen` multiplies `int`s, and
gives a copy exactly if no product overflows (`blocks_have_room_iff`).
-/
import DGen.Bounds
import DGen.Layout

namespace DGen

open Memory StateT

/-- The element that each index below the recorded length has is in the block. -/
def World.Room (w : World) (e : DeclTy) (p : Ptr) : Prop :=
  ∃ d, w.alloc? p = some d ∧ ∀ i < d.size.toNat, ∃ bs, w.mem p.block = some bs ∧ 0 ≤ p.offset ∧
    p.offset.toNat + (i + 1) * e.newSym.sizeof ≤ bs.length

/-- An array that was reached has room for its elements. -/
def World.Roomy (w : World) (a : Extent) : Prop := ∃ e, a.1.elem? = some e ∧ w.Room e a.2.1

/-! ## Arrays that the program creates -/

theorem createArr_alloc (w : World) (size : Nat) {len : BitVec 32} (hlen : 0 ≤ len.toInt) :
    ∃ w', createArr len size w = .ok (⟨w.next, 0⟩, w') ∧ w'.alloc? ⟨w.next, 0⟩ = some ⟨true, len⟩ ∧
      w'.mem w.next = some (List.replicate (len.toNat * size % 2 ^ 32) .undef) := by
  obtain ⟨w', hset⟩ : ∃ w', setAlloc ⟨w.next, 0⟩ ⟨true, len⟩
      (w.addBlock (List.replicate (len.toNat * size % 2 ^ 32) .undef)) = .ok ((), w') := ⟨_, rfl⟩
  have hmalloc : malloc (len.toNat * size % 2 ^ 32) w = .ok (⟨w.next, 0⟩, w.addBlock _) := rfl
  refine ⟨w', ?_, (setAlloc_alloc? hset).trans (if_pos rfl), ?_⟩
  · rw [createArr, if_neg (Int.not_lt.mpr hlen), bind_of_ok hmalloc]
    exact bind_of_ok hset
  · obtain rfl := setAlloc_ok_iff.mp hset
    exact Function.update_self ..

/-- The product is not what was asked for once it wraps around. -/
theorem createArr_room_iff {w : World} {e : DeclTy} {len : BitVec 32} (hlen : 0 ≤ len.toInt) :
    (∃ p w', createArr len e.newSym.sizeof w = .ok (p, w') ∧ w'.Room e p) ↔ len.toNat * e.newSym.sizeof < 2 ^ 32 := by
  obtain ⟨w', hrun, halloc, hmem⟩ := createArr_alloc w e.newSym.sizeof hlen
  constructor
  · rintro ⟨p, w'', hrun', d, hd, hroom⟩
    cases hrun.symm.trans hrun'
    cases halloc.symm.trans hd
    by_contra hwrap
    have hpos : 0 < len.toNat := Nat.pos_of_ne_zero fun h => by simp [h] at hwrap
    obtain ⟨bs, hbs, -, hlast⟩ := hroom (len.toNat - 1) (Nat.sub_lt hpos Nat.one_pos)
    cases hmem.symm.trans hbs
    rw [List.length_replicate, Nat.sub_add_cancel hpos] at hlast
    have := Nat.mod_lt (len.toNat * e.newSym.sizeof) (by decide : 0 < 2 ^ 32)
    omega
  · intro hfit
    rw [Nat.mod_eq_of_lt hfit] at hmem
    refine ⟨_, w', hrun, _, halloc, fun i hi => ⟨_, hmem, Int.le_refl _, ?_⟩⟩
    rw [List.length_replicate, Int.toNat_zero, Nat.zero_add]
    exact Nat.mul_le_mul_right _ hi

/-! ## Copies -/

section

variable {w w' : World} {lo hi : Nat}

theorem RepresentsArray.roomy {α : Type} {t e : DeclTy} (he : t.elem? = some e) {rep : α → Val → Prop}
    {sub : Val → List Extent} {cs : List α} {v : Val} (h : RepresentsArray w lo hi e rep cs v)
    (hsub : ∀ c u, rep c u → ∀ a ∈ sub u, w.Roomy a) : ∀ a ∈ reachedArray w gatherLayout t sub v, w.Roomy a := by
  obtain ⟨b, d, rfl, -, -, hd, hlen, helems⟩ := h
  have hcount : ((w.alloc? ⟨b, 0⟩).map fun d => d.size.toNat).getD 0 = cs.length := by
    rw [hd]
    exact hlen
  rw [reachedArray, hcount]
  intro a ha
  obtain rfl | ha := List.mem_cons.mp ha
  · refine ⟨e, he, d, hd, fun i hi => ?_⟩
    obtain ⟨u, hu, -⟩ := helems i _ (List.getElem?_eq_getElem (hlen ▸ hi))
    obtain ⟨bs, hbs, h0, hin⟩ := Mem.bounds_of_load hu
    refine ⟨bs, hbs, Int.le_refl _, ?_⟩
    rw [Int.toNat_natCast] at hin
    rw [SymVal.sizeof_eq, Int.toNat_zero, Nat.zero_add, Nat.succ_mul]
    exact hin
  · obtain ⟨i, hi, ha⟩ := List.mem_flatMap.mp ha
    obtain ⟨u, hu, hrep⟩ := helems i _ (List.getElem?_eq_getElem (List.mem_range.mp hi))
    rw [elemVal?_of_elem? he, Ptr.add, zero_add, hu] at ha
    exact hsub _ u hrep a ha

/-- A copy has room for what it has, in each of its arrays. -/
theorem Represents.roomy {s : ScalarType} : ∀ {n : Nat} {c : Content s n} {v : Val}, Represents w lo hi s n c v →
    ∀ a ∈ reached w gatherLayout s n v, w.Roomy a
  | 0, c, v, h => by
    cases s with
    | int | char | bool => exact fun _ ha => by cases ha
    | string => exact RepresentsArray.roomy rfl h fun _ _ _ _ ha => by cases ha
  | n + 1, cs, v, h => RepresentsArray.roomy rfl h fun _ _ => Represents.roomy

/-- What is too large later was too large. -/
theorem World.Fits.back {id : SymId} (h : w'.Fits id) (hok : w.Ok) (hl : Later w w') : w.Fits id := by
  intro path sub name type n elems hat hsub
  obtain ⟨name', hsub'⟩ := hl.val_eq hsub rfl
  exact h path sub name' type n elems (hl.symAt hok hat) hsub'

/-- An array is as large as it and its elements are. -/
theorem World.fits_of_elems {id : SymId} {name : String} {type : ArrType} {size : BitVec 32} {elems : List SymId}
    (ho : w.syms id = some ⟨name, .array type (some size) elems⟩) (hsize : size.toInt * type.elem.newSym.sizeof < 2 ^ 31)
    (helems : ∀ e ∈ elems, w.Fits e) : w.Fits id := by
  intro path sub name' type' n elems' hat hsub
  cases path with
  | nil =>
    obtain rfl := Option.some.inj hat
    cases ho.symm.trans hsub
    exact hsize
  | cons i path =>
    obtain ⟨e, -, he, hat⟩ := symAt_cons_iff.mp hat
    rw [elemsOf_of_some ho] at he
    exact helems e (List.mem_of_getElem? he) path sub name' type' n elems' hat hsub

theorem World.fits_of_scalar {id : SymId} {o : SymObj} (ho : w.syms id = some o) (hscalar : o.val.isArray = false) :
    w.Fits id := by
  intro path sub name type n elems hat hsub
  cases path with
  | nil =>
    obtain rfl := Option.some.inj hat
    cases ho.symm.trans hsub
    cases hscalar
  | cons i path =>
    obtain ⟨e, -, he, -⟩ := symAt_cons_iff.mp hat
    have hnone : o.val.elems = [] := by
      obtain ⟨name, val⟩ := o
      cases val <;> first | rfl | cases hscalar
    rw [elemsOf_of_some ho, hnone] at he
    cases he

end

/-- Where an element could be copied, it was not too large. -/
def CopyFits (copy : SymId → M Val) : Prop := ∀ {w w' : World} {id : SymId} {v : Val},
    copy id w = .ok (v, w') → w.Ok → w.Fits id

theorem fillElems_fits {copyArr : SymId → M Ptr} (hgen : ∀ id, Stepwise (copyArr id) World.DataPtr)
    (hel : CopyFits (fillVal copyArr)) {size : Nat} {elems : List SymId} : ∀ {data : Ptr} {w w' : World},
      fillElems copyArr size data elems w = .ok ((), w') → w.Ok → w.DataPtr data → ∀ e ∈ elems, w.Fits e := by
  induction elems with
  | nil => exact fun _ _ _ _ he => by cases he
  | cons sym elems ih =>
    intro data w w' h hok hdata e he
    obtain ⟨_, w₂, hfill, hrest⟩ := bind_ok_iff.mp h
    obtain ⟨v, w₁, hv, hst⟩ := bind_ok_iff.mp hfill
    obtain ⟨hs, hval⟩ := fillVal_generates hgen hv hok
    have hdata₁ := hs.dataPtr hdata
    obtain ⟨hglobal, m, hm, rfl⟩ := (storeMem_ok_iff hdata₁.1).mp hst
    have hs₂ : w.Steps { w₁ with mem := m } := hs.tail (.store hdata₁ hglobal hval hm)
    obtain rfl | he := List.mem_cons.mp he
    · exact hel hv hok
    · exact (ih hrest (World.Steps.ok hs₂ hok) (World.Steps.dataPtr hs₂ hdata) e he).back hok (World.Steps.later hs₂ hok)

theorem arrRandGenDepth_fits : ∀ {n : Nat} {w w' : World} {arr : SymId} {p : Ptr},
    arrRandGenDepth n arr w = .ok (p, w') → w.Ok → w.Fits arr
  | 0, _, _, _, _, h, _ => by simp [arrRandGenDepth] at h
  | n + 1, w, w', arr, p, h, hok => by
    have hel : CopyFits (fillVal (arrRandGenDepth n)) := by
      intro w w' id v h hok
      obtain ⟨⟨name, val⟩, _, hget, h⟩ := bind_ok_iff.mp h
      obtain ⟨ho, rfl⟩ := getSym_ok_iff.mp hget
      cases val with
      | array type s elems =>
        obtain ⟨p, _, hp, -⟩ := bind_ok_iff.mp h
        exact arrRandGenDepth_fits hp hok
      | _ => exact World.fits_of_scalar ho rfl
    obtain ⟨size, w₁, name, type, s, elems, w₂, hsize, ho, hsmall, ha, rfl, hf⟩ := arrRandGenDepth_succ_ok h
    have hs₁ := (getSize_generates hsize hok).1
    have hok₁ := hs₁.ok hok
    obtain ⟨name', type', elems', ho'⟩ := getSize_holds hsize
    cases ho.symm.trans ho'
    obtain ⟨hs₂, hdata, -⟩ := block_entered (by simp) ha hok₁
    have helems := fillElems_fits (fun _ => arrRandGenDepth_generates) @hel hf (hs₂.ok hok₁) hdata
    exact (World.fits_of_elems ho hsmall fun e he =>
      (helems e he).back hok₁ (hs₂.later hok₁)).back hok (hs₁.later hok)

/-- **Blocks have room for the recorded lengths** exactly if the products do not
overflow: the `uint32_t` of `create_arr`, and the `int`s of `arr_rand_gen`. -/
theorem blocks_have_room_iff {env : Env} {inputs : List Symbol} {ops : List Op} {w : World}
    (hrun : runOps ops (World.start env inputs) = .ok ((), w)) (e : DeclTy) {len : BitVec 32} (hlen : 0 ≤ len.toInt)
    {i : Nat} {s : Symbol} {id : SymId} (hs : inputs[i]? = some s) (hid : w.inputs[i]? = some id)
    (hdepth : 0 < s.type.depth) :
    ((∃ p w', createArr len e.newSym.sizeof w = .ok (p, w') ∧ w'.Room e p) ↔ len.toNat * e.newSym.sizeof < 2 ^ 32) ∧
      ((∃ p w', arrRandGen id w = .ok (p, w') ∧
        ∀ a ∈ reached w' gatherLayout s.type.scalar s.type.nested (.ptr p), w'.Roomy a) ↔ w.Fits id) := by
  refine ⟨createArr_room_iff hlen, ?_⟩
  have hw := (World.Whole.start env inputs).test hrun
  obtain ⟨hi, rfl⟩ := List.getElem?_eq_some_iff.mp hs
  obtain ⟨hi', rfl⟩ := List.getElem?_eq_some_iff.mp hid
  have hhas : w.Has inputs[i].type w.inputs[i] := hw.typed.get hi hi'
  constructor
  · rintro ⟨p, w', hcopy, -⟩
    obtain ⟨m, hm⟩ := arrRandGen_depth w.inputs[i] w
    exact arrRandGenDepth_fits (hm.symm.trans hcopy) hw.ok
  · intro hfits
    obtain ⟨p, w', hcopy⟩ := arrRandGen_returns hdepth hw.ok hw.alive hhas hfits
    obtain ⟨c, -, howns⟩ := arrRandGen_owns hdepth hw.ok hhas hcopy
    exact ⟨p, w', hcopy, howns.represents.roomy⟩

theorem blocks_have_room_iff_words :
    ((∃ p w', createArr 3 (⟨.int, 0⟩ : DeclTy).newSym.sizeof (World.start (Sample.draws 3) [Sample.words]) = .ok (p, w') ∧
      w'.Room ⟨.int, 0⟩ p) ↔ (3 : BitVec 32).toNat * (⟨.int, 0⟩ : DeclTy).newSym.sizeof < 2 ^ 32) ∧
    ((∃ p w', arrRandGen 0 (World.start (Sample.draws 3) [Sample.words]) = .ok (p, w') ∧
      ∀ a ∈ reached w' gatherLayout .string 1 (.ptr p), w'.Roomy a) ↔
        (World.start (Sample.draws 3) [Sample.words]).Fits 0) := by
  have hrun : runOps [] (World.start (Sample.draws 3) [Sample.words]) =
      .ok ((), World.start (Sample.draws 3) [Sample.words]) := rfl
  exact blocks_have_room_iff (i := 0) (s := Sample.words) hrun ⟨.int, 0⟩ (by decide) rfl rfl (by decide)

namespace Sample

/-- `int[] f(int k) { return int[1073741824] }`: four bytes for each of 2^30 elements. -/
def huge : FunctionNode Unit where
  node := node 0
  retType := ⟨.int, 1⟩
  name := "f"
  args := [param 1 "k" ⟨.int, 0⟩]
  body := [ret 2 (.arrCreate (node 3) ⟨.int, 0⟩ (num 4 1073741824))]
  distinct := by decide

end Sample

/-- The block for that array has no bytes. -/
theorem huge_has_no_room : ¬ ∀ (f : FunctionNode Unit) (g : FunctionNode Symbol) (inputs : List Symbol) (env : Env)
    (n : ReturnNode Symbol) (node : ASTNode) (e : DeclTy) (len : Expr Symbol) (v : LVal) (p : Ptr) (w' : World),
    f.accept = .ok (g, inputs) → .ret n ∈ Body.nodes g.body → n.expr = .arrCreate node e len →
      codeGenExpr n.expr = .ok v → v.eval (World.start env inputs) = .ok (.ptr p, w') → w'.Room e p := by
  intro h
  obtain ⟨g, inputs, n, node, len, ret, hacc, hn, hexpr, hgen⟩ : ∃ g inputs n node len ret,
      Sample.huge.accept = .ok (g, inputs) ∧ .ret n ∈ Body.nodes g.body ∧ n.expr = .arrCreate node ⟨.int, 0⟩ len ∧
        codeGenExpr n.expr = .ok (.createArr ret (.getInt32 1073741824) (⟨.int, 0⟩ : DeclTy).newSym.sizeof) :=
    ⟨_, _, _, _, _, _, rfl, List.mem_cons_self .., rfl, rfl⟩
  obtain ⟨w, hw⟩ : ∃ w, w = World.start (Sample.draws 0) inputs := ⟨_, rfl⟩
  obtain ⟨w', hrun, halloc, hmem⟩ := createArr_alloc w (⟨.int, 0⟩ : DeclTy).newSym.sizeof
    (by decide : 0 ≤ (1073741824 : BitVec 32).toInt)
  have hlen : (LVal.getInt32 1073741824).eval w = .ok (.int32 1073741824, w) := rfl
  have hint : asInt32 (.int32 1073741824) w = .ok (1073741824, w) := rfl
  have heval : (LVal.createArr ret (.getInt32 1073741824) (⟨.int, 0⟩ : DeclTy).newSym.sizeof).eval w =
      .ok (.ptr ⟨w.next, 0⟩, w') := by
    rw [LVal.eval, bind_of_ok hlen, bind_of_ok hint]
    exact bind_of_ok hrun
  subst hw
  obtain ⟨d, hd, hroom⟩ := h _ _ _ _ _ _ _ _ _ _ _ hacc hn hexpr hgen heval
  cases halloc.symm.trans hd
  obtain ⟨bs, hbs, -, hin⟩ := hroom 0 (by decide)
  cases hmem.symm.trans hbs
  rw [List.length_replicate] at hin
  have hfour : ¬ 0 + (0 + 1) * (⟨.int, 0⟩ : DeclTy).newSym.sizeof ≤
      (1073741824 : BitVec 32).toNat * (⟨.int, 0⟩ : DeclTy).newSym.sizeof % 2 ^ 32 := by decide
  exact hfour hin

end DGen
