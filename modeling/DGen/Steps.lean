/-
What generating a value does to the state: a sequence of single steps, each
of which draws a number, determines one input that was not determined, or
allocates or fills memory that is no input's.

Everything a run keeps is read off these steps.
-/
import DGen.Machine
import DGen.Tree

namespace DGen

open Memory StateT

/-! ## The operations on the state -/

section

variable {w w' : World} {α : Type}

@[simp] theorem fault_ok_iff {f : Fault} {a : α} : (fault f : M α) w = .ok (a, w') ↔ False := by simp [fault]

@[simp] theorem ofOption_ok_iff {f : Fault} {x : Option α} {a : α} :
    ofOption f x w = .ok (a, w') ↔ x = some a ∧ w = w' := by
  cases x <;> simp [ofOption, pure_ok_iff]

theorem getSym_ok_iff {id : SymId} {o : SymObj} : getSym id w = .ok (o, w') ↔ w.syms id = some o ∧ w = w' := by
  unfold getSym
  split <;> simp_all

theorem setSym_ok_iff {id : SymId} {o : SymObj} {u : Unit} :
    setSym id o w = .ok (u, w') ↔ w.setSym id o = w' := by
  simp [setSym]

theorem modify_ok_iff {f : World → World} {u : Unit} : (modify f : M Unit) w = .ok (u, w') ↔ f w = w' := by
  simp [modify, modifyGet, MonadStateOf.modifyGet, StateT.modifyGet, Pure.pure, Except.pure]

theorem get_ok_iff {a : World} : (get : M World) w = .ok (a, w') ↔ w = a ∧ w = w' := by
  simp [get, getThe, MonadStateOf.get, StateT.get, Pure.pure, Except.pure]

theorem rand_ok_iff {r : Nat} : rand w = .ok (r, w') ↔ r = w.rand 0 ∧ w' = w.drawn := by
  simp [rand, eq_comm]

theorem newBlock_ok_iff {bytes : List MByte} {p : Ptr} :
    newBlock bytes w = .ok (p, w') ↔ p = ⟨w.next, 0⟩ ∧ w' = w.addBlock bytes := by
  simp [newBlock, eq_comm]

theorem loadMem_ok_iff {c : Chunk} {p : Ptr} {v : Val} :
    loadMem c p w = .ok (v, w') ↔ w.mem.load c p = some v ∧ w = w' := by
  unfold loadMem
  split <;> simp_all

theorem inputId_ok_iff {r : SymRef} {id : SymId} :
    inputId r w = .ok (id, w') ↔ (∃ i, r = .input i ∧ w.inputs[i]? = some id) ∧ w = w' := by
  cases r with
  | input i =>
    unfold inputId
    simp only [SymRef.input.injEq]
    split <;> simp_all
  | var k => simp [inputId]

/-- Off the symbols, a store goes to memory, but to no literal. -/
theorem storeMem_ok_iff {p : Ptr} {v : Val} {u : Unit} (h : w.syms p.block = none) :
    storeMem p v w = .ok (u, w') ↔
      ¬w.IsGlobal p.block ∧ ∃ m, w.mem.store p v = some m ∧ w' = { w with mem := m } := by
  unfold storeMem
  rw [h]
  simp only
  split
  next hglobal => simp [hglobal]
  next hglobal => split <;> simp_all [eq_comm]

theorem strlen_ok_iff {p : Ptr} {n : Nat} : strlen p w = .ok (n, w') ↔
    (0 ≤ p.offset ∧ ∃ bs, w.mem p.block = some bs ∧ strlenBytes (bs.drop p.offset.toNat) = some n) ∧ w = w' := by
  unfold strlen
  cases hbs : w.mem p.block with
  | none => simp
  | some bs =>
    rw [Option.bind_some]
    split
    next hn =>
      split at hn
      next => cases hn
      next hoff => simp [Int.not_lt.mp hoff, hn]
    next hn =>
      split at hn
      next hoff => simp [Int.not_le.mpr hoff]
      next => simp [hn]

theorem setAlloc_ok {p : Ptr} {d : AllocData} {u : Unit} (h : setAlloc p d w = .ok (u, w')) :
    ∃ l, w' = { w with allocatedVals := l } := by
  cases h
  exact ⟨_, rfl⟩

theorem getAlloc_ok {p : Ptr} {d : AllocData} (h : getAlloc p w = .ok (d, w')) :
    ∃ l, w' = { w with allocatedVals := l } := by
  unfold getAlloc at h
  split at h <;> cases h
  exacts [⟨_, rfl⟩, ⟨_, rfl⟩]

end

theorem pushElems_eq (elem : DeclTy) (n : Nat) : ∀ w : World,
    pushElems elem n w = .ok (List.range' w.next n, w.pushed elem n) := by
  induction n with
  | zero =>
    intro w
    rw [pushElems, pure_apply, World.pushed_zero]
    rfl
  | succ n ih =>
    intro w
    have hnew : newObject ⟨"", elem.newSym⟩ w = .ok (w.next, w.addSym ⟨"", elem.newSym⟩) := rfl
    rw [pushElems, bind_of_ok hnew, bind_of_ok (ih _), pure_apply, World.pushed_succ]
    rfl

theorem initArr_ok_iff {id : SymId} {size : BitVec 32} {u : Unit} {w w' : World} :
    initArr id size w = .ok (u, w') ↔ 0 ≤ size.toInt ∧ ∃ name type s elems,
      w.syms id = some ⟨name, .array type s elems⟩ ∧ w' = w.rebuild id name type elems size := by
  unfold initArr
  rw [bind_ok_iff]
  simp only [getSym_ok_iff]
  constructor
  · rintro ⟨⟨name, val⟩, _, ⟨hsym, rfl⟩, h⟩
    cases val with
    | array type s elems =>
      simp only at h
      split at h
      · simp at h
      · rw [bind_ok_iff] at h
        obtain ⟨_, _, h₁, h⟩ := h
        rw [modify_ok_iff] at h₁
        subst h₁
        rw [bind_ok_iff] at h
        obtain ⟨_, _, h₁, h⟩ := h
        rw [pushElems_eq] at h₁
        cases h₁
        rw [setSym_ok_iff] at h
        exact ⟨by omega, name, type, s, elems, hsym, h.symm⟩
    | _ => simp at h
  · rintro ⟨hsize, name, type, s, elems, hsym, rfl⟩
    refine ⟨_, w, ⟨hsym, rfl⟩, ?_⟩
    simp only [if_neg (Int.not_lt.mpr hsize)]
    rw [bind_of_ok (modify_ok_iff (u := ()).mpr rfl), bind_of_ok (pushElems_eq _ _ _)]
    rfl

/-! ## Steps -/

namespace World

/-- An address of the program's memory: of no symbol, and allocated. -/
def DataPtr (w : World) (p : Ptr) : Prop := w.syms p.block = none ∧ p.block < w.next

def ValOk (w : World) (v : Val) : Prop := ∀ p, v = .ptr p → w.DataPtr p

/-- The symbols are a tree, and the program has the address of none. -/
structure Ok (w : World) : Prop where
  tree : Tree w.syms w.inputs w.next
  mem : ∀ b bs p i, w.mem b = some bs → .frag p i ∈ bs → w.DataPtr p
  frame : ∀ r p, w.frame r = some p → w.DataPtr p
  globals : ∀ x ∈ w.globals, w.DataPtr ⟨x.2, 0⟩ ∧ ∀ bs, w.mem x.2 = some bs → bs = x.1.bytes

theorem Ok.global_dataPtr {w : World} (h : w.Ok) {b : Nat} (hb : w.IsGlobal b) : w.DataPtr ⟨b, 0⟩ := by
  obtain ⟨x, hx, rfl⟩ := List.mem_map.mp hb
  exact (h.globals x hx).1

/-- The next block is no literal's. -/
theorem Ok.next_not_global {w : World} (h : w.Ok) : ¬w.IsGlobal w.next := fun hb =>
  Nat.lt_irrefl _ (h.global_dataPtr hb).2

theorem start_syms_none {env : Env} {inputs : List Symbol} {id : Nat} (h : inputs.length ≤ id) :
    (start env inputs).syms id = none := by
  simp only [start]
  rw [List.getElem?_eq_none h]
  rfl

/-- There is nothing in memory but the literals. -/
theorem start_mem {env : Env} {inputs : List Symbol} {b : Nat} {bs : List MByte}
    (h : (start env inputs).mem b = some bs) : ∃ n : StringNode, bs = n.bytes := by
  simp only [start] at h
  split at h
  · cases h
  · obtain ⟨n, -, rfl⟩ := Option.map_eq_some_iff.mp h
    exact ⟨n, rfl⟩

theorem start_literal {env : Env} {inputs : List Symbol} {x : StringNode × Nat} (h : x ∈ (start env inputs).globals) :
    inputs.length ≤ x.2 ∧ x.2 < (start env inputs).next ∧ (start env inputs).mem x.2 = some x.1.bytes := by
  obtain ⟨hle, hlt, hx⟩ := List.mem_zipIdx h
  refine ⟨hle, hlt, ?_⟩
  simp only [start]
  rw [if_neg (Nat.not_lt.mpr hle), List.getElem?_eq_getElem (by omega), hx]
  rfl

theorem start_ok (env : Env) (inputs : List Symbol) : (start env inputs).Ok where
  tree := by
    have hsome : ∀ {id o}, (start env inputs).syms id = some o → ∃ t : DeclTy, o.val = t.newSym := by
      intro id o ho
      obtain ⟨s, -, rfl⟩ := Option.map_eq_some_iff.mp ho
      exact ⟨s.type, rfl⟩
    have hnil : ∀ id, elemsOf (start env inputs).syms id = [] := by
      intro id
      cases ho : (start env inputs).syms id with
      | none => simp [elemsOf, ho]
      | some o =>
        obtain ⟨t, ht⟩ := hsome ho
        rw [elemsOf_of_some ho, ht, t.newSym_elems]
    refine ⟨fun id hid => start_syms_none (Nat.le_trans (Nat.le_add_right ..) hid), List.nodup_range, fun id hid => ?_,
      by simp [hnil], by simp [hnil], by simp [hnil], fun id name type s elems ho e he => ?_, fun id o ho => ?_⟩
    · exact (List.mem_range.mp hid).trans_le (Nat.le_add_right ..)
    · have := mem_elemsOf_iff.mpr ⟨_, ho, he⟩
      simp [hnil] at this
    · obtain ⟨t, ht⟩ := hsome ho
      exact ht ▸ t.newSym_sized
  mem := by
    intro b bs p i hb hfrag
    obtain ⟨n, rfl⟩ := start_mem hb
    simp [StringNode.bytes] at hfrag
  frame := fun _ _ h => by cases h
  globals := by
    intro x hx
    obtain ⟨hle, hlt, hmem⟩ := start_literal hx
    exact ⟨⟨start_syms_none hle, hlt⟩, fun bs hbs => Option.some.inj (hbs.symm.trans hmem)⟩

/-- A step of generation. -/
inductive Step : World → World → Prop
  | rand (w : World) : Step w w.drawn
  | number {w : World} {id : Nat} {name : String} (num : BitVec 32) (h : w.syms id = some ⟨name, .number none⟩) :
    Step w (w.setSym id ⟨name, .number (some num)⟩)
  | char {w : World} {id : Nat} {name : String} (ch : BitVec 8) (h : w.syms id = some ⟨name, .char none⟩) :
    Step w (w.setSym id ⟨name, .char (some ch)⟩)
  | bool {w : World} {id : Nat} {name : String} (val : Bool) (h : w.syms id = some ⟨name, .bool none⟩) :
    Step w (w.setSym id ⟨name, .bool (some val)⟩)
  | size {w : World} {id : Nat} {name : String} {type : ArrType} {elems : List SymId} (size : BitVec 32)
    (h : w.syms id = some ⟨name, .array type none elems⟩) (hsize : 0 ≤ size.toInt) :
    Step w (w.rebuild id name type elems size)
  | block (w : World) (bytes : List MByte) (h : ∀ p i, .frag p i ∉ bytes) : Step w (w.addBlock bytes)
  | alloc (w : World) (l : List (Ptr × AllocData))
    (h : ∀ item ∈ l, item.2.isAlloc = true → item ∈ w.allocatedVals ∨ ¬w.IsGlobal item.1.block) :
    Step w { w with allocatedVals := l }
  | store {w : World} {p : Ptr} {v : Val} {m : Mem} (hp : w.DataPtr p) (hglobal : ¬w.IsGlobal p.block) (hv : w.ValOk v)
    (h : w.mem.store p v = some m) : Step w { w with mem := m }

abbrev Steps : World → World → Prop := Relation.ReflTransGen Step

end World

namespace World

variable {w w' : World}

/-- What a step leaves alone. -/
structure SameStatic (w w' : World) : Prop where
  addr : w'.addr = w.addr
  inputs : w'.inputs = w.inputs
  globals : w'.globals = w.globals
  frame : w'.frame = w.frame
  ctx : w'.ctx = w.ctx
  z3 : w'.z3 = w.z3

theorem SameStatic.refl (w : World) : w.SameStatic w := ⟨rfl, rfl, rfl, rfl, rfl, rfl⟩

theorem SameStatic.trans {w'' : World} (h : w.SameStatic w') (h' : w'.SameStatic w'') : w.SameStatic w'' where
  addr := h'.addr.trans h.addr
  inputs := h'.inputs.trans h.inputs
  globals := h'.globals.trans h.globals
  frame := h'.frame.trans h.frame
  ctx := h'.ctx.trans h.ctx
  z3 := h'.z3.trans h.z3

theorem Step.sameStatic (h : w.Step w') : w.SameStatic w' := by
  cases h <;> exact ⟨rfl, rfl, rfl, rfl, rfl, rfl⟩

theorem SameStatic.isGlobal (h : w.SameStatic w') {b : Nat} (hb : w'.IsGlobal b) : w.IsGlobal b := by
  rwa [IsGlobal, h.globals] at hb

theorem Step.next_le (h : w.Step w') : w.next ≤ w'.next := by
  cases h <;> simp [setSym, rebuild, pushed, addBlock, drawn]

/-- What is no symbol, and allocated, does not become one. -/
theorem Step.syms_none {j : Nat} (h : w.Step w') (hlt : j < w.next) (hj : w.syms j = none) :
    w'.syms j = none := by
  have hset : ∀ {id : Nat} {o o' : SymObj}, w.syms id = some o → (w.setSym id o').syms j = none := by
    intro id o o' hid
    have hne : j ≠ id := by
      rintro rfl
      cases hj.symm.trans hid
    rw [setSym_of_ne _ _ hne]
    exact hj
  cases h with
  | number _ h | char _ h | bool _ h => exact hset h
  | @size id name type elems size h hsize =>
    have hne : j ≠ id := by
      rintro rfl
      cases hj.symm.trans h
    rw [rebuild, setSym_of_ne _ _ hne]
    refine (pushed_syms_of_lt (by exact hlt)).trans ?_
    rcases deleteSyms_le type.elem.depth elems w.syms j with h | h
    · exact h
    · exact h.trans hj
  | _ => exact hj

theorem Step.dataPtr {p : Ptr} (h : w.Step w') (hp : w.DataPtr p) : w'.DataPtr p :=
  ⟨h.syms_none hp.2 hp.1, Nat.lt_of_lt_of_le hp.2 h.next_le⟩

theorem Step.tree (h : w.Step w') (hw : Tree w.syms w.inputs w.next) : Tree w'.syms w'.inputs w'.next := by
  cases h with
  | number _ h | char _ h | bool _ h => exact hw.update h rfl rfl trivial
  | size _ h hsize => exact hw.rebuild h hsize
  | block => exact hw.mono (Nat.le_succ _)
  | _ => exact hw

/-- A literal's block keeps what is in it. -/
theorem Step.global_mem {b : Nat} (h : w.Step w') (hw : w.Ok) (hb : w.IsGlobal b) : w'.mem b = w.mem b := by
  cases h with
  | block =>
    refine Function.update_of_ne ?_ ..
    rintro rfl
    exact hw.next_not_global hb
  | @store p v m hp hglobal hv hm =>
    obtain ⟨bs, -, rfl⟩ := Mem.store_some hm
    refine Function.update_of_ne ?_ ..
    rintro rfl
    exact hglobal hb
  | _ => rfl

theorem Step.ok (h : w.Step w') (hw : w.Ok) : w'.Ok := by
  refine ⟨h.tree hw.tree, ?_, fun r p hp => h.dataPtr (hw.frame r p (h.sameStatic.frame ▸ hp)), fun x hx => ?_⟩
  rotate_left
  · rw [h.sameStatic.globals] at hx
    obtain ⟨hdata, hbytes⟩ := hw.globals x hx
    exact ⟨h.dataPtr hdata, fun bs hbs => hbytes bs ((h.global_mem hw (List.mem_map_of_mem hx)).symm.trans hbs)⟩
  intro b bs p i hb hmem
  cases h with
  | block bytes hfrag =>
    by_cases hbn : b = w.next
    · subst hbn
      simp only [addBlock, Mem.alloc, Function.update_self, Option.some.injEq] at hb
      subst hb
      exact absurd hmem (hfrag p i)
    · simp only [addBlock, Mem.alloc, Function.update_of_ne hbn] at hb
      exact (Step.block w bytes hfrag).dataPtr (hw.mem b bs p i hb hmem)
  | @store q v m hq hglobal hv hst =>
    obtain ⟨bs', hbs', rfl⟩ := Mem.store_some hst
    by_cases hbq : b = q.block
    · subst hbq
      simp only [Function.update_self, Option.some.injEq] at hb
      subst hb
      rcases Mem.mem_splice hmem with h | h
      · exact hw.mem _ _ p i hbs' h
      · exact hv p (Mem.frag_mem_encode h)
    · simp only [Function.update_of_ne hbq] at hb
      exact hw.mem b bs p i hb hmem
  | rand => exact hw.mem b bs p i hb hmem
  | alloc => exact hw.mem b bs p i hb hmem
  | number v h => exact (Step.number v h).dataPtr (hw.mem b bs p i hb hmem)
  | char v h => exact (Step.char v h).dataPtr (hw.mem b bs p i hb hmem)
  | bool v h => exact (Step.bool v h).dataPtr (hw.mem b bs p i hb hmem)
  | size size h hs => exact (Step.size size h hs).dataPtr (hw.mem b bs p i hb hmem)

theorem Steps.sameStatic (h : w.Steps w') : w.SameStatic w' := by
  induction h with
  | refl => exact .refl _
  | tail _ h ih => exact ih.trans h.sameStatic

theorem Steps.dataPtr {p : Ptr} (h : w.Steps w') (hp : w.DataPtr p) : w'.DataPtr p := by
  induction h with
  | refl => exact hp
  | tail _ h ih => exact h.dataPtr ih

theorem Steps.ok (h : w.Steps w') (hw : w.Ok) : w'.Ok := by
  induction h with
  | refl => exact hw
  | tail _ h ih => exact h.ok ih

end World

/-! ## Generating is made of steps -/

/-- Every run of `x` is a sequence of steps, and ends with `post`. -/
def Stepwise {α : Type} (x : M α) (post : World → α → Prop) : Prop :=
  ∀ ⦃w a w'⦄, x w = .ok (a, w') → w.Ok → w.Steps w' ∧ post w' a

abbrev Generates {α : Type} (x : M α) : Prop := Stepwise x fun _ _ => True

theorem World.ValOk.steps {w w' : World} {v : Val} (h : w.ValOk v) (hs : w.Steps w') : w'.ValOk v :=
  fun p hp => hs.dataPtr (h p hp)

section

variable {α β : Type} {x : M α} {f : α → M β} {post : World → α → Prop} {post' : World → β → Prop}

theorem Stepwise.bind (hx : Stepwise x post) (hf : ∀ a, Stepwise (f a) post') : Stepwise (x >>= f) post' := by
  intro w b w' h hok
  obtain ⟨a, w₁, h₁, h₂⟩ := bind_ok_iff.mp h
  obtain ⟨hs₁, -⟩ := hx h₁ hok
  obtain ⟨hs₂, hpost⟩ := hf a h₂ (hs₁.ok hok)
  exact ⟨hs₁.trans hs₂, hpost⟩

/-- A result made of `x`'s without another step. -/
theorem Stepwise.map {g : α → β} (hx : Stepwise x post) (hg : ∀ w a, post w a → post' w (g a)) :
    Stepwise (do return g (← x)) post' := by
  intro w b w' h hok
  obtain ⟨a, w₁, h₁, h₂⟩ := bind_ok_iff.mp h
  obtain ⟨rfl, rfl⟩ := pure_ok_iff.mp h₂
  obtain ⟨hs, hpost⟩ := hx h₁ hok
  exact ⟨hs, hg _ _ hpost⟩

theorem Stepwise.pure {a : α} (h : ∀ w, post w a) : Stepwise (pure a : M α) post := by
  intro w b w' hp _
  obtain ⟨rfl, rfl⟩ := pure_ok_iff.mp hp
  exact ⟨.refl, h _⟩

theorem Stepwise.fault {e : Fault} : Stepwise (DGen.fault e : M α) post := by
  intro w a w' h
  simp at h

theorem Stepwise.generates (hx : Stepwise x post) : Generates x := fun _ _ _ h hok => ⟨(hx h hok).1, trivial⟩

/-- What only reads the state. -/
theorem Stepwise.read (h : ∀ {w a w'}, x w = .ok (a, w') → w = w' ∧ (w.Ok → post w a)) : Stepwise x post := by
  intro w a w' hx hok
  obtain ⟨rfl, hpost⟩ := h hx
  exact ⟨.refl, hpost hok⟩

theorem ofOption_generates {e : Fault} {o : Option α} : Generates (ofOption e o) :=
  Stepwise.read fun h => ⟨(ofOption_ok_iff.mp h).2, fun _ => trivial⟩

end

theorem get_generates : Generates (get : M World) := Stepwise.read fun h => ⟨(get_ok_iff.mp h).2, fun _ => trivial⟩

theorem getSym_generates {id : SymId} : Generates (getSym id) :=
  Stepwise.read fun h => ⟨(getSym_ok_iff.mp h).2, fun _ => trivial⟩

theorem inputId_generates {r : SymRef} : Generates (inputId r) :=
  Stepwise.read fun h => ⟨(inputId_ok_iff.mp h).2, fun _ => trivial⟩

/-- A value not yet there is drawn once, and stays. -/
theorem scalarRandGen_ok_iff {α : Type} {cls : SymVal → Option (Option α)} {put : α → SymVal} {draw : Nat → α}
    {sym : SymId} {v : α} {w w' : World} :
    scalarRandGen cls put draw sym w = .ok (v, w') ↔ ∃ o, w.syms sym = some o ∧
      (cls o.val = some (some v) ∧ w' = w ∨
        cls o.val = some none ∧ v = draw (w.rand 0) ∧ w' = w.drawn.setSym sym { o with val := put v }) := by
  unfold scalarRandGen
  rw [bind_ok_iff]
  simp only [getSym_ok_iff]
  constructor
  · rintro ⟨o, _, ⟨hsym, rfl⟩, h⟩
    refine ⟨o, hsym, ?_⟩
    match hcls : cls o.val with
    | some (some v') =>
      rw [hcls] at h
      obtain ⟨rfl, rfl⟩ := pure_ok_iff.mp h
      exact .inl ⟨rfl, rfl⟩
    | some none =>
      rw [hcls] at h
      obtain ⟨r, _, hr, h⟩ := bind_ok_iff.mp h
      obtain ⟨rfl, rfl⟩ := rand_ok_iff.mp hr
      obtain ⟨_, _, hs, h⟩ := bind_ok_iff.mp h
      obtain ⟨rfl, rfl⟩ := pure_ok_iff.mp h
      exact .inr ⟨rfl, rfl, (setSym_ok_iff.mp hs).symm⟩
    | none =>
      rw [hcls] at h
      simp at h
  · rintro ⟨o, hsym, ⟨hcls, rfl⟩ | ⟨hcls, rfl, rfl⟩⟩
    · refine ⟨o, _, ⟨hsym, rfl⟩, ?_⟩
      simp only [hcls]
      rfl
    · refine ⟨o, _, ⟨hsym, rfl⟩, ?_⟩
      simp only [hcls]
      rfl

theorem scalarRandGen_generates {α : Type} {cls : SymVal → Option (Option α)} {put : α → SymVal}
    {draw : Nat → α} {sym : SymId}
    (hstep : ∀ w name val v, cls val = some none → w.syms sym = some ⟨name, val⟩ →
      World.Step w (w.setSym sym ⟨name, put v⟩)) :
    Generates (scalarRandGen cls put draw sym) := by
  intro w v w' h _
  obtain ⟨⟨name, val⟩, hsym, ⟨-, rfl⟩ | ⟨hcls, -, rfl⟩⟩ := scalarRandGen_ok_iff.mp h
  · exact ⟨.refl, trivial⟩
  · exact ⟨.tail (.single (.rand w)) (hstep _ name val v hcls hsym), trivial⟩

theorem numRandGen_generates {sym : SymId} : Generates (numRandGen sym) :=
  scalarRandGen_generates fun w name val v hcls hsym => by
    cases val <;> simp only [SymVal.number?, Option.some.injEq, reduceCtorEq] at hcls
    subst hcls
    exact .number v hsym

theorem charRandGen_generates {sym : SymId} : Generates (charRandGen sym) :=
  scalarRandGen_generates fun w name val v hcls hsym => by
    cases val <;> simp only [SymVal.char?, Option.some.injEq, reduceCtorEq] at hcls
    subst hcls
    exact .char v hsym

theorem boolRandGen_generates {sym : SymId} : Generates (boolRandGen sym) := by
  refine Stepwise.map (scalarRandGen_generates fun w name val v hcls hsym => ?_) fun _ _ _ => trivial
  cases val <;> simp only [SymVal.bool?, Option.some.injEq, reduceCtorEq] at hcls
  subst hcls
  exact .bool v hsym

theorem ofNat_mod_ten_nonneg (r : Nat) : 0 ≤ (BitVec.ofNat 32 (r % 10)).toInt := by
  have h := Nat.mod_lt r (by decide : 0 < 10)
  have hnat : (BitVec.ofNat 32 (r % 10)).toNat = r % 10 := by
    rw [BitVec.toNat_ofNat]
    omega
  rw [BitVec.toInt_eq_toNat_of_lt (by omega)]
  omega

/-- A length not yet there is drawn once, and stays. -/
theorem getSize_ok_iff {arr : SymId} {size : BitVec 32} {w w' : World} :
    getSize arr w = .ok (size, w') ↔ ∃ name type s elems, w.syms arr = some ⟨name, .array type s elems⟩ ∧
      (s = some size ∧ w' = w ∨ s = none ∧ size = BitVec.ofNat 32 (w.rand 0 % 10) ∧
        w' = w.drawn.rebuild arr name type elems size) := by
  unfold getSize
  rw [bind_ok_iff]
  simp only [getSym_ok_iff]
  constructor
  · rintro ⟨⟨name, val⟩, _, ⟨hsym, rfl⟩, h⟩
    cases val with
    | array type s elems =>
      refine ⟨name, type, s, elems, hsym, ?_⟩
      cases s with
      | some s =>
        obtain ⟨rfl, rfl⟩ := pure_ok_iff.mp h
        exact .inl ⟨rfl, rfl⟩
      | none =>
        obtain ⟨r, _, hr, h⟩ := bind_ok_iff.mp h
        obtain ⟨rfl, rfl⟩ := rand_ok_iff.mp hr
        obtain ⟨_, _, hi, h⟩ := bind_ok_iff.mp h
        obtain ⟨rfl, rfl⟩ := pure_ok_iff.mp h
        obtain ⟨-, _, _, _, _, hsym', rfl⟩ := initArr_ok_iff.mp hi
        cases hsym.symm.trans hsym'
        exact .inr ⟨rfl, rfl, rfl⟩
    | _ => simp at h
  · rintro ⟨name, type, s, elems, hsym, ⟨rfl, rfl⟩ | ⟨rfl, rfl, rfl⟩⟩
    · exact ⟨_, _, ⟨hsym, rfl⟩, rfl⟩
    · refine ⟨_, _, ⟨hsym, rfl⟩, ?_⟩
      have hinit : initArr arr (BitVec.ofNat 32 (w.rand 0 % 10)) w.drawn = .ok ((), _) :=
        initArr_ok_iff.mpr ⟨ofNat_mod_ten_nonneg _, name, type, none, elems, hsym, rfl⟩
      exact bind_ok_iff.mpr ⟨_, _, rand_ok_iff.mpr ⟨rfl, rfl⟩, bind_ok_iff.mpr ⟨(), _, hinit, rfl⟩⟩

theorem getSize_generates {arr : SymId} : Generates (getSize arr) := by
  intro w size w' h _
  obtain ⟨name, type, s, elems, hsym, ⟨-, rfl⟩ | ⟨rfl, rfl, rfl⟩⟩ := getSize_ok_iff.mp h
  · exact ⟨.refl, trivial⟩
  · exact ⟨.tail (.single (.rand w)) (.size _ hsym (ofNat_mod_ten_nonneg _)), trivial⟩

theorem getElem_generates {arr : SymId} {idx : BitVec 32} : Generates (getElem arr idx) := by
  refine getSize_generates.bind fun size => ?_
  split
  · exact .fault
  · refine getSym_generates.bind fun o => ?_
    split
    · split
      · exact .fault
      · exact ofOption_generates
    · exact .fault

theorem getSymbolByIdxs_generates : ∀ {idxs : List (BitVec 32)} {arr : SymId},
    Generates (getSymbolByIdxs arr idxs)
  | [], _ => .fault
  | [_], _ => getElem_generates
  | _ :: _ :: _, _ => getElem_generates.bind fun _ => getSymbolByIdxs_generates

theorem fillVal_generates {copyArr : SymId → M Ptr} (hcopy : ∀ id, Stepwise (copyArr id) World.DataPtr) {sym : SymId} :
    Stepwise (fillVal copyArr sym) World.ValOk := by
  refine getSym_generates.bind fun o => ?_
  split
  · exact numRandGen_generates.map fun _ _ _ _ h => by cases h
  · exact boolRandGen_generates.map fun _ _ _ _ h => by cases h
  · exact charRandGen_generates.map fun _ _ _ _ h => by cases h
  · exact (hcopy sym).map fun _ _ hp _ h => by cases h; exact hp

theorem fillElems_steps {copyArr : SymId → M Ptr} (hcopy : ∀ id, Stepwise (copyArr id) World.DataPtr) {size : Nat} :
    ∀ {syms : List SymId} {data : Ptr} {w w' : World} {u : Unit}, fillElems copyArr size data syms w = .ok (u, w') →
      w.Ok → w.DataPtr data → w.Steps w'
  | [], _, _, _, _, h, _, _ => by
    obtain ⟨-, rfl⟩ := pure_ok_iff.mp h
    exact .refl
  | sym :: syms, data, w, w', _, h, hok, hdata => by
    obtain ⟨_, w₁, h₁, h⟩ := bind_ok_iff.mp h
    obtain ⟨v, w₂, hv, hst⟩ := bind_ok_iff.mp h₁
    obtain ⟨hs, hval⟩ := fillVal_generates hcopy hv hok
    have hdata₂ := hs.dataPtr hdata
    obtain ⟨hglobal, m, hm, rfl⟩ := (storeMem_ok_iff hdata₂.1).mp hst
    have hs' : w.Steps { w₂ with mem := m } := hs.tail (.store hdata₂ hglobal hval hm)
    exact hs'.trans (fillElems_steps hcopy h (hs'.ok hok) (hs'.dataPtr hdata))

/-- An entry is set, which marks no literal. -/
theorem setAlloc_step {p : Ptr} {d : AllocData} {u : Unit} {w w' : World} (h : setAlloc p d w = .ok (u, w'))
    (hp : d.isAlloc = true → ¬w.IsGlobal p.block) : w.Step w' := by
  cases h
  refine .alloc w _ fun item hitem hmark => ?_
  obtain rfl | hitem := List.mem_cons.mp hitem
  · exact .inr (hp hmark)
  · exact .inl (List.mem_of_mem_filter hitem)

/-- An entry that is added for a lookup marks nothing. -/
theorem getAlloc_steps {p : Ptr} {d : AllocData} {w w' : World} (h : getAlloc p w = .ok (d, w')) : w.Steps w' := by
  unfold getAlloc at h
  split at h <;> cases h
  · exact .refl
  · refine .single (.alloc w _ fun item hitem hmark => ?_)
    obtain rfl | hitem := List.mem_cons.mp hitem
    · cases hmark
    · exact .inl hitem

/-- The state after a block was allocated and entered in the table. -/
theorem block_entered {w w' : World} {bytes : List MByte} {d : AllocData} (hfrag : ∀ p i, .frag p i ∉ bytes)
    (h : setAlloc ⟨w.next, 0⟩ d (w.addBlock bytes) = .ok ((), w')) (hok : w.Ok) :
    w.Steps w' ∧ w'.DataPtr ⟨w.next, 0⟩ ∧ w'.syms = w.syms ∧ w'.next = w.next + 1 := by
  have hs : w.Steps w' := .tail (.single (.block w _ hfrag)) (setAlloc_step h fun _ => hok.next_not_global)
  obtain ⟨l, rfl⟩ := setAlloc_ok h
  exact ⟨hs, ⟨hok.tree.fresh w.next (Nat.le_refl _), Nat.lt_succ_self w.next⟩, rfl, rfl⟩

/-- What `arr_rand_gen` does: the length, the block with its entry, and the elements. -/
theorem arrRandGenDepth_succ_ok {n : Nat} {arr : SymId} {w w' : World} {p : Ptr}
    (h : arrRandGenDepth (n + 1) arr w = .ok (p, w')) :
    ∃ size w₁ name type s elems w₂, getSize arr w = .ok (size, w₁) ∧ w₁.syms arr = some ⟨name, .array type s elems⟩ ∧
      size.toInt * type.elem.newSym.sizeof < 2 ^ 31 ∧
      setAlloc ⟨w₁.next, 0⟩ ⟨true, size⟩ (w₁.addBlock (List.replicate (size.toNat * type.elem.newSym.sizeof) .undef)) =
        .ok ((), w₂) ∧
      p = ⟨w₁.next, 0⟩ ∧ fillElems (arrRandGenDepth n) type.elem.newSym.sizeof ⟨w₁.next, 0⟩ elems w₂ = .ok ((), w') := by
  obtain ⟨size, w₁, hsize, h⟩ := bind_ok_iff.mp h
  obtain ⟨⟨name, val⟩, _, hget, h⟩ := bind_ok_iff.mp h
  obtain ⟨ho, rfl⟩ := getSym_ok_iff.mp hget
  cases val with
  | array type s elems =>
    dsimp only at h
    split at h
    · simp at h
    next hsmall =>
      obtain ⟨data, _, hd, h⟩ := bind_ok_iff.mp h
      obtain ⟨rfl, rfl⟩ := newBlock_ok_iff.mp hd
      obtain ⟨_, w₂, ha, h⟩ := bind_ok_iff.mp h
      obtain ⟨_, _, hf, h⟩ := bind_ok_iff.mp h
      obtain ⟨rfl, rfl⟩ := pure_ok_iff.mp h
      exact ⟨size, w₁, name, type, s, elems, w₂, hsize, ho, Int.not_le.mp hsmall, ha, rfl, hf⟩
  | _ => simp at h

theorem arrRandGenDepth_generates : ∀ {n : Nat} {arr : SymId}, Stepwise (arrRandGenDepth n arr) World.DataPtr
  | 0, _ => .fault
  | n + 1, arr => by
    intro w p w' h hok
    obtain ⟨size, w₁, name, type, s, elems, w₂, hsize, -, -, ha, rfl, hf⟩ := arrRandGenDepth_succ_ok h
    have hs₁ := (getSize_generates hsize hok).1
    obtain ⟨hs₂, hdata, -⟩ := block_entered (by simp) ha (hs₁.ok hok)
    have hfill := fillElems_steps (fun id => arrRandGenDepth_generates) hf (hs₂.ok (hs₁.ok hok)) hdata
    exact ⟨(hs₁.trans hs₂).trans hfill, hfill.dataPtr hdata⟩

theorem arrRandGen_generates {arr : SymId} : Stepwise (arrRandGen arr) World.DataPtr := by
  refine getSym_generates.bind fun o => ?_
  split
  · exact arrRandGenDepth_generates
  · exact .fault

theorem getValArr_generates {arr : SymId} {idxs : List (BitVec 32)} : Stepwise (getValArr arr idxs) World.ValOk :=
  getSymbolByIdxs_generates.bind fun _ => fillVal_generates fun _ => arrRandGen_generates

theorem randGen_generates {s : Symbol} : Stepwise (randGen s) World.ValOk :=
  inputId_generates.bind fun _ => fillVal_generates fun _ => arrRandGen_generates

theorem newBlock_steps {bytes : List MByte} (hfrag : ∀ p i, .frag p i ∉ bytes) :
    Stepwise (newBlock bytes) World.DataPtr := by
  intro w p w' h hok
  obtain ⟨rfl, rfl⟩ := newBlock_ok_iff.mp h
  exact ⟨.single (.block w bytes hfrag), hok.tree.fresh w.next (Nat.le_refl _), Nat.lt_succ_self w.next⟩

/-- A new block that is entered into the table. -/
theorem newBlock_setAlloc_steps {bytes : List MByte} {d : AllocData} (hfrag : ∀ p i, .frag p i ∉ bytes) :
    Stepwise (do
      let p ← newBlock bytes
      setAlloc p d
      return p) World.DataPtr := by
  intro w p w' h hok
  obtain ⟨p', _, hb, h⟩ := bind_ok_iff.mp h
  obtain ⟨rfl, rfl⟩ := newBlock_ok_iff.mp hb
  obtain ⟨_, _, ha, h⟩ := bind_ok_iff.mp h
  obtain ⟨rfl, rfl⟩ := pure_ok_iff.mp h
  obtain ⟨hs, hp, -⟩ := block_entered hfrag ha hok
  exact ⟨hs, hp⟩

theorem createArr_steps {len : BitVec 32} {n : Nat} : Stepwise (createArr len n) World.DataPtr := by
  unfold createArr
  split
  · exact .fault
  · exact newBlock_setAlloc_steps (by simp)

theorem strlen_generates {p : Ptr} : Generates (strlen p) :=
  .read fun h => ⟨(strlen_ok_iff.mp h).2, fun _ => trivial⟩

theorem setGlobalPtrSize_generates {p : Ptr} : Generates (setGlobalPtrSize p) :=
  strlen_generates.bind fun _ _ _ _ h _ => ⟨.single (setAlloc_step h nofun), trivial⟩

theorem World.globalPtr_some {w : World} {n : StringNode} {p : Ptr} (h : w.globalPtr n = some p) :
    (n, p.block) ∈ w.globals ∧ p.offset = 0 := by
  obtain ⟨⟨n', b⟩, hx, rfl⟩ := Option.map_eq_some_iff.mp h
  have hn := List.find?_some hx
  obtain rfl : n' = n := eq_of_beq hn
  exact ⟨List.mem_of_find?_eq_some hx, rfl⟩

theorem World.globalPtr_isGlobal {w : World} {n : StringNode} {p : Ptr} (h : w.globalPtr n = some p) :
    w.IsGlobal p.block := List.mem_map_of_mem (globalPtr_some h).1

theorem globalString_ok_iff {n : StringNode} {p : Ptr} {w w' : World} :
    globalString n w = .ok (p, w') ↔ w.globalPtr n = some p ∧ setGlobalPtrSize p w = .ok ((), w') := by
  unfold globalString
  constructor
  · intro h
    obtain ⟨_, _, hg, h⟩ := bind_ok_iff.mp h
    obtain ⟨rfl, rfl⟩ := get_ok_iff.mp hg
    obtain ⟨q, _, hget, h⟩ := bind_ok_iff.mp h
    obtain ⟨hq, rfl⟩ := ofOption_ok_iff.mp hget
    obtain ⟨_, _, hs, h⟩ := bind_ok_iff.mp h
    obtain ⟨rfl, rfl⟩ := pure_ok_iff.mp h
    exact ⟨hq, hs⟩
  · rintro ⟨hp, hs⟩
    rw [bind_of_ok (get_ok_iff.mpr ⟨rfl, rfl⟩), bind_of_ok (ofOption_ok_iff.mpr ⟨hp, rfl⟩), bind_of_ok hs]
    rfl

/-- What evaluating a literal does: its length is entered for its block. -/
theorem globalString_enters_iff {n : StringNode} {p : Ptr} {w w' : World} (hok : w.Ok) :
    globalString n w = .ok (p, w') ↔ w.globalPtr n = some p ∧ w.mem p.block = some n.bytes ∧
      ∃ k, strlenBytes n.bytes = some k ∧ setAlloc p ⟨false, BitVec.ofNat 32 k⟩ w = .ok ((), w') := by
  rw [globalString_ok_iff, and_congr_right_iff]
  intro hp
  obtain ⟨hmem, hoff⟩ := World.globalPtr_some hp
  rw [setGlobalPtrSize, bind_ok_iff]
  simp only [strlen_ok_iff, hoff, Int.le_refl, true_and, Int.toNat_zero, List.drop_zero]
  constructor
  · rintro ⟨k, _, ⟨⟨bs, hbs, hk⟩, rfl⟩, hset⟩
    obtain rfl := (hok.globals _ hmem).2 bs hbs
    exact ⟨hbs, k, hk, hset⟩
  · rintro ⟨hbs, k, hk, hset⟩
    exact ⟨k, w, ⟨⟨_, hbs, hk⟩, rfl⟩, hset⟩

theorem globalString_steps {n : StringNode} : Stepwise (globalString n) World.DataPtr := by
  intro w p w' h hok
  obtain ⟨hp, hs⟩ := globalString_ok_iff.mp h
  have hsteps := (setGlobalPtrSize_generates hs hok).1
  have hdata : w.DataPtr p := hok.global_dataPtr (World.globalPtr_isGlobal hp)
  exact ⟨hsteps, hsteps.dataPtr hdata⟩

theorem asPtr_ok_iff {v : Val} {p : Ptr} {w w' : World} : asPtr v w = .ok (p, w') ↔ v = .ptr p ∧ w = w' := by
  cases v <;> simp [asPtr, pure_ok_iff]

theorem asInt32_ok_iff {v : Val} {n : BitVec 32} {w w' : World} :
    asInt32 v w = .ok (n, w') ↔ v = .int32 n ∧ w = w' := by
  cases v <;> simp [asInt32, pure_ok_iff]

theorem asInt32_generates {v : Val} : Generates (asInt32 v) :=
  .read fun h => ⟨(asInt32_ok_iff.mp h).2, fun _ => trivial⟩

theorem gepOffset_generates {elem : LTy} {v : Val} : Generates (gepOffset elem v) := by
  cases v <;> first | exact .fault | exact .pure fun _ => trivial

theorem getAlloc_generates {p : Ptr} : Generates (getAlloc p) := fun _ _ _ h _ => ⟨getAlloc_steps h, trivial⟩

/-- What is read from memory is no symbol's address. -/
theorem loadMem_steps {c : Chunk} {p : Ptr} : Stepwise (loadMem c p) World.ValOk := by
  refine .read fun {w v _} h => ⟨(loadMem_ok_iff.mp h).2, fun hok q hq => ?_⟩
  subst hq
  obtain ⟨bs, hbs, i, hi⟩ := Mem.frag_of_load (loadMem_ok_iff.mp h).1
  exact hok.mem _ bs q i hbs hi

theorem World.ValOk.int {w : World} {v : Val} (h : ∀ p, v ≠ .ptr p) : w.ValOk v := fun p hp => absurd hp (h p)

theorem BinInst.eval_int {op : BinInst} {a b v : Val} (h : op.eval a b = some v) (p : Ptr) : v ≠ .ptr p := by
  rintro rfl
  unfold BinInst.eval at h
  split at h <;> try split at h
  all_goals simp at h

theorem IcmpPred.eval_int {pred : IcmpPred} {addr : Nat → BitVec 64} {a b v : Val} (h : pred.eval addr a b = some v)
    (p : Ptr) : v ≠ .ptr p := by
  rintro rfl
  unfold IcmpPred.eval at h
  split at h <;> try split at h
  all_goals simp at h

/-- A comparison, from its operands. -/
theorem LVal.icmp_ok_iff {pred : IcmpPred} {lhs rhs : LVal} {v : Val} {w w' : World} :
    (LVal.icmp pred lhs rhs).eval w = .ok (v, w') ↔
      ∃ a w₁ b, lhs.eval w = .ok (a, w₁) ∧ rhs.eval w₁ = .ok (b, w') ∧ pred.eval w'.addr a b = some v := by
  rw [LVal.eval]
  constructor
  · intro h
    obtain ⟨a, w₁, ha, h⟩ := bind_ok_iff.mp h
    obtain ⟨b, w₂, hb, h⟩ := bind_ok_iff.mp h
    obtain ⟨_, _, hg, h⟩ := bind_ok_iff.mp h
    obtain ⟨rfl, rfl⟩ := get_ok_iff.mp hg
    obtain ⟨hv, rfl⟩ := ofOption_ok_iff.mp h
    exact ⟨a, w₁, b, ha, hb, hv⟩
  · rintro ⟨a, w₁, b, ha, hb, hv⟩
    rw [bind_of_ok ha, bind_of_ok hb, bind_of_ok (get_ok_iff.mpr ⟨rfl, rfl⟩)]
    exact ofOption_ok_iff.mpr ⟨hv, rfl⟩

theorem intCast_int {a v : Val} {dest : LTy} (h : intCast a dest = some v) (p : Ptr) : v ≠ .ptr p := by
  rintro rfl
  unfold intCast at h
  split at h <;> simp at h

mutual
/-- Generated code is made of steps, and its values are no symbols' addresses. -/
theorem LVal.eval_steps : ∀ v : LVal, Stepwise v.eval World.ValOk
  | .getInt8 _ | .getInt32 _ => .pure fun _ => .int fun _ h => by cases h
  | .globalStringPtr _ => globalString_steps.map fun _ _ hp _ h => by cases h; exact hp
  | .bin op lhs rhs => (eval_steps lhs).bind fun _ => (eval_steps rhs).bind fun _ =>
    .read fun h => ⟨(ofOption_ok_iff.mp h).2, fun _ => .int (op.eval_int (ofOption_ok_iff.mp h).1)⟩
  | .icmp pred lhs rhs => (eval_steps lhs).bind fun _ => (eval_steps rhs).bind fun _ => get_generates.bind fun _ =>
    .read fun h => ⟨(ofOption_ok_iff.mp h).2, fun _ => .int (pred.eval_int (ofOption_ok_iff.mp h).1)⟩
  | .alloca (some s) _ => by
    refine .read fun {w v w'} h => ?_
    obtain ⟨_, _, hg, h⟩ := bind_ok_iff.mp h
    obtain ⟨rfl, rfl⟩ := get_ok_iff.mp hg
    obtain ⟨p, _, ho, h⟩ := bind_ok_iff.mp h
    obtain ⟨hp, rfl⟩ := ofOption_ok_iff.mp ho
    obtain ⟨rfl, rfl⟩ := pure_ok_iff.mp h
    exact ⟨rfl, fun hok q hq => by cases hq; exact hok.frame _ _ hp⟩
  | .alloca none allocated => (newBlock_steps (by simp)).map fun _ _ hp _ h => by cases h; exact hp
  | .load ty addr => (eval_steps addr).bind fun _ =>
    (Stepwise.read fun h => ⟨(asPtr_ok_iff.mp h).2, fun _ => trivial⟩ : Generates _).bind fun _ =>
    ofOption_generates.bind fun _ => loadMem_steps
  | .gep elem addr idx => by
    intro w v w' h hok
    obtain ⟨a, w₁, ha, h⟩ := bind_ok_iff.mp h
    obtain ⟨hs₁, hval⟩ := eval_steps addr ha hok
    obtain ⟨p, _, hp, h⟩ := bind_ok_iff.mp h
    obtain ⟨rfl, rfl⟩ := asPtr_ok_iff.mp hp
    obtain ⟨i, w₂, hi, h⟩ := bind_ok_iff.mp h
    obtain ⟨hs₂, -⟩ := eval_steps idx hi (hs₁.ok hok)
    obtain ⟨n, w₃, hn, h⟩ := bind_ok_iff.mp h
    obtain ⟨hs₃, -⟩ := gepOffset_generates hn (hs₂.ok (hs₁.ok hok))
    obtain ⟨rfl, rfl⟩ := pure_ok_iff.mp h
    have hs : World.Steps w₁ w₃ := hs₂.trans hs₃
    exact ⟨hs₁.trans hs, fun q hq => by cases hq; exact hs.dataPtr (hval p rfl)⟩
  | .intCast v dest => (eval_steps v).bind fun _ =>
    .read fun h => ⟨(ofOption_ok_iff.mp h).2, fun _ => .int (intCast_int (ofOption_ok_iff.mp h).1)⟩
  | .randGen s _ => randGen_generates
  | .getValArr s idxs _ => inputId_generates.bind fun _ => (evalIdxs_generates idxs).bind fun _ => getValArr_generates
  | .getPropertyInput _ => inputId_generates.bind fun _ =>
    getSize_generates.map fun _ _ _ => .int fun _ h => by cases h
  | .getPropertyLocal _ data => (eval_steps data).bind fun _ =>
    (Stepwise.read fun h => ⟨(asPtr_ok_iff.mp h).2, fun _ => trivial⟩ : Generates _).bind fun _ =>
    getAlloc_generates.map fun _ _ _ => .int fun _ h => by cases h
  | .createArr _ len _ => (eval_steps len).bind fun _ => asInt32_generates.bind fun _ =>
    createArr_steps.map fun _ _ hp _ h => by cases h; exact hp

theorem LVal.evalIdxs_generates : ∀ vs : List LVal, Generates (evalIdxs vs)
  | [] => .pure fun _ => trivial
  | v :: vs => (eval_steps v).bind fun _ => asInt32_generates.bind fun _ =>
    (evalIdxs_generates vs).map fun _ _ _ => trivial
end

end DGen
