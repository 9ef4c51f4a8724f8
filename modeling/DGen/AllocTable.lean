/-
The allocation table over whole runs (`Symbol::allocated_vals`): four
producers write it, two lookups extend it, and `DGen::reset` frees what it
says is allocated.

The invariant ties it to the allocator: what it marks as allocated are the
live blocks, and an array or string of this test has its own entry.
-/
import DGen.Effects
import DGen.Process

namespace DGen

open Memory StateT

/-! ## The invariant -/

/-- An address is marked as allocated. -/
def World.Marked (w : World) (q : Ptr) : Prop := ∃ size, w.alloc? q = some ⟨true, size⟩

namespace Process

variable {p p' p'' : Process}

/-- A block of the program's memory, which no symbol is in. -/
def Live (w : World) (b : Nat) : Prop := w.mem b ≠ none ∧ w.syms b = none ∧ b < w.next

/-- An array or a string with its entry, of the size it has: an array in a
block of its own, and a literal, whose size is a `uint32_t`. -/
inductive Entered (p : Process) : Ptr → Nat → Prop
  | array {b : Nat} {size : BitVec 32} (hb : b ∈ p.heap) (h : p.alloc? ⟨b, 0⟩ = some ⟨true, size⟩) :
    Entered p ⟨b, 0⟩ size.toNat
  | string {q : Ptr} {text : List (BitVec 8)} (hq : p.literalAt q = some text)
    (h : p.alloc? q = some ⟨false, BitVec.ofNat 32 text.length⟩) : Entered p q text.length

structure Ok (p : Process) : Prop where
  tree : Tree p.syms p.inputs p.next
  inputs : ∀ id : Nat, id ∈ p.inputs → ∃ o, p.syms id = some o
  nodup : p.heap.Nodup
  heap : ∀ b : Nat, b ∈ p.heap → Live p.toWorld b ∧ p.literals b = none
  literal : ∀ b text, p.literals b = some text →
    Live p.toWorld b ∧ p.mem b = some ((text ++ [0]).map .byte) ∧ 0 ∉ text
  keys : (p.allocatedVals.map (·.1)).Nodup
  /-- what the table marks as allocated is -/
  marked : ∀ q, p.Marked q ↔ ∃ b ∈ p.heap, q = ⟨b, 0⟩
  produced : ∀ q n, (q, n) ∈ p.produced → p.Entered q n
  /-- what `malloc` has returned is live, or was freed, as often as it was returned -/
  ledger : p.given.Perm (p.freed ++ p.heap.map fun b => ⟨b, 0⟩)

/-- What an operation other than `reset` leaves of the state before it. -/
structure Extends (p p' : Process) : Prop where
  inputs : p'.inputs = p.inputs
  literals : p'.literals = p.literals
  heap : p.heap ⊆ p'.heap
  freed : p'.freed = p.freed
  produced : p.produced ⊆ p'.produced
  entries : ∀ q n, (q, n) ∈ p.produced → p'.alloc? q = p.alloc? q

namespace Extends

theorem refl (p : Process) : p.Extends p := ⟨rfl, rfl, fun _ h => h, rfl, fun _ h => h, fun _ _ _ => rfl⟩

theorem trans (h : p.Extends p') (h' : p'.Extends p'') : p.Extends p'' where
  inputs := h'.inputs.trans h.inputs
  literals := h'.literals.trans h.literals
  heap := fun _ hb => h'.heap (h.heap hb)
  freed := h'.freed.trans h.freed
  produced := fun _ hq => h'.produced (h.produced hq)
  entries := fun q n hq => (h'.entries q n (h.produced hq)).trans (h.entries q n hq)

end Extends

/-! ## Operations on the state alone -/

/-- A state of the world that keeps the invariant: the blocks and literals are
there, and the table has the entries it must have. -/
structure Moves (p : Process) (w : World) : Prop where
  tree : Tree w.syms w.inputs w.next
  inputs : w.inputs = p.inputs
  objects : ∀ id : Nat, id ∈ p.inputs → ∃ o, w.syms id = some o
  live : ∀ b, Live p.toWorld b → Live w b
  literal : ∀ b text, p.literals b = some text → w.mem b = p.mem b
  keys : (w.allocatedVals.map (·.1)).Nodup
  marked : ∀ q, w.Marked q ↔ p.Marked q
  entries : ∀ q n, (q, n) ∈ p.produced → w.alloc? q = p.alloc? q

/-- An entry that is the same is still one. -/
theorem Entered.congr {q : Ptr} {n : Nat} (h : p.Entered q n) (hheap : p.heap ⊆ p'.heap)
    (hlit : p'.literals = p.literals)
    (hentry : p'.alloc? q = p.alloc? q) : p'.Entered q n := by
  cases h with
  | array hb h => exact .array (hheap hb) (hentry.trans h)
  | string hq h => exact .string (by rwa [literalAt, hlit]) (hentry.trans h)

theorem Ok.moves (h : p.Ok) {w : World} (hw : p.Moves w) :
    Ok { p with toWorld := w } ∧ p.Extends { p with toWorld := w } := by
  refine ⟨⟨hw.tree, fun id hid => hw.objects id (hw.inputs ▸ hid), h.nodup,
    fun b hb => ⟨hw.live b (h.heap b hb).1, (h.heap b hb).2⟩, fun b text hb => ?_, hw.keys,
    fun q => (hw.marked q).trans (h.marked q), fun q n hq => ?_, h.ledger⟩,
    hw.inputs, rfl, fun _ h => h, rfl, fun _ h => h, hw.entries⟩
  · obtain ⟨hlive, hmem, hnul⟩ := h.literal b text hb
    exact ⟨hw.live b hlive, (hw.literal b text hb).trans hmem, hnul⟩
  · exact (h.produced q n hq).congr (fun _ h => h) rfl (hw.entries q n hq)

theorem alloc?_congr {w w' : World} (h : w'.allocatedVals = w.allocatedVals) (q : Ptr) : w'.alloc? q = w.alloc? q := by
  rw [World.alloc?, World.alloc?, h]

theorem Ok.onSymbols (h : p.Ok) {w : World} (hw : p.toWorld.OnSymbols w) : p.Moves w where
  tree := hw.tree
  inputs := hw.inputs
  objects := by
    intro id hid
    obtain ⟨o, ho⟩ := h.inputs id hid
    obtain ⟨o', ho', -⟩ := hw.kept id o hid ho
    exact ⟨o', ho'⟩
  live := fun b hb => ⟨hw.mem ▸ hb.1, hw.vacant b hb.2.2 hb.2.1, Nat.lt_of_lt_of_le hb.2.2 hw.next⟩
  literal := fun b _ _ => by rw [hw.mem]
  keys := hw.table ▸ h.keys
  marked := fun q => by rw [World.Marked, World.Marked, alloc?_congr hw.table]
  entries := fun q _ _ => alloc?_congr hw.table q

theorem Ok.looked (h : p.Ok) {w : World} (hw : p.toWorld.Looked w) : p.Moves w := by
  have hrest := hw.rest
  have hentries : ∀ q n, (q, n) ∈ p.produced → w.alloc? q = p.alloc? q := by
    intro q n hq
    cases h.produced q n hq with
    | array _ he => rw [he, hw.known _ _ he]
    | string _ he => rw [he, hw.known _ _ he]
  refine ⟨?_, ?_, ?_, fun b hb => ?_, fun b _ _ => ?_, hw.keys h.keys, fun q => ?_, hentries⟩
  · rw [hrest]
    exact h.tree
  · rw [hrest]
  · rw [hrest]
    exact h.inputs
  · rw [hrest]
    exact hb
  · rw [hrest]
  · constructor
    · rintro ⟨size, hsize⟩
      cases hq : p.alloc? q with
      | none =>
        obtain hnone | hsome := hw.unknown q hq
        · cases hnone.symm.trans hsize
        · cases hsome.symm.trans hsize
      | some d => exact ⟨size, hq.trans ((hw.known q d hq).symm.trans hsize)⟩
    · rintro ⟨size, hsize⟩
      exact ⟨size, hw.known q _ hsize⟩

/-! ## Generation -/

section

variable {α β : Type}

@[simp] theorem fault_ok_iff {f : Fault} {a : α} : (Process.fault f : P α) p = .ok (a, p') ↔ False := by
  simp [Process.fault]

theorem lift_ok_iff {x : M α} {a : α} :
    lift x p = .ok (a, p') ↔ ∃ w, x p.toWorld = .ok (a, w) ∧ p' = { p with toWorld := w } := by
  unfold lift
  split
  next b w hx =>
    rw [hx]
    simp [eq_comm]
  next e hx => simp [hx]

theorem modify_ok_iff {f : Process → Process} {u : Unit} : (modify f : P Unit) p = .ok (u, p') ↔ f p = p' := by
  simp [modify, modifyGet, MonadStateOf.modifyGet, StateT.modifyGet, Pure.pure, Except.pure]

theorem get_ok_iff {q : Process} : (get : P Process) p = .ok (q, p') ↔ p = q ∧ p = p' := by
  simp [get, getThe, MonadStateOf.get, StateT.get, Pure.pure, Except.pure]

/-- Generation leaves what is determined, too. -/
structure Grows (p p' : Process) : Prop extends p.Extends p' where
  lasting : ∀ (j : Nat) o, p.syms j = some o → o.val.determined = true → p'.syms j = some o

theorem Grows.refl (p : Process) : p.Grows p := ⟨.refl p, fun _ _ ho _ => ho⟩

theorem Grows.trans (h : p.Grows p') (h' : p'.Grows p'') : p.Grows p'' :=
  ⟨h.toExtends.trans h'.toExtends, fun j o ho hd => h'.lasting j o (h.lasting j o ho hd) hd⟩

/-- `x` keeps the invariant, and what was produced and determined before it. -/
def Generating (x : P α) : Prop := ∀ ⦃p a p'⦄, x p = .ok (a, p') → p.Ok → p'.Ok ∧ p.Grows p'

variable {x : P α} {f : α → P β}

theorem Generating.bind (hx : Generating x) (hf : ∀ a, Generating (f a)) : Generating (x >>= f) := by
  intro p b p' h hok
  obtain ⟨a, p₁, h₁, h₂⟩ := bind_ok_iff.mp h
  obtain ⟨hok₁, hg₁⟩ := hx h₁ hok
  obtain ⟨hok', hg⟩ := hf a h₂ hok₁
  exact ⟨hok', hg₁.trans hg⟩

theorem Generating.read (h : ∀ {p a p'}, x p = .ok (a, p') → p = p') : Generating x := by
  intro p a p' hx hok
  obtain rfl := h hx
  exact ⟨hok, .refl p⟩

theorem Generating.pure {a : α} : Generating (Pure.pure a : P α) := .read fun h => (pure_ok_iff.mp h).2

theorem Generating.fault {e : Fault} : Generating (Process.fault e : P α) := by
  intro p a p' h
  simp at h

theorem Generating.of_symbolsOnly {x : M α} (hx : SymbolsOnly x) : Generating (lift x) := by
  intro p a p' h hok
  obtain ⟨w, hw, rfl⟩ := lift_ok_iff.mp h
  have hg := hx hw hok.tree
  obtain ⟨hok', hext⟩ := hok.moves (hok.onSymbols hg.toOnSymbols)
  exact ⟨hok', hext, hg.lasting⟩

theorem Generating.of_looksUp {x : M α} (hx : LooksUp x) : Generating (lift x) := by
  intro p a p' h hok
  obtain ⟨w, hw, rfl⟩ := lift_ok_iff.mp h
  have hlook := hx hw
  obtain ⟨hok', hext⟩ := hok.moves (hok.looked hlook)
  refine ⟨hok', hext, fun j o ho _ => ?_⟩
  show w.syms j = some o
  rw [hlook.rest]
  exact ho

end

/-- What has an entry lies in a live block. -/
theorem Entered.live {q : Ptr} {n : Nat} (h : p.Entered q n) (hok : p.Ok) : Live p.toWorld q.block := by
  cases h with
  | array hb _ => exact (hok.heap _ hb).1
  | string hq _ =>
    obtain ⟨text, htext, -⟩ := Option.bind_eq_some_iff.mp hq
    exact (hok.literal _ text htext).1

theorem setAlloc_keys {q : Ptr} {d : AllocData} {u : Unit} {w w' : World} (h : setAlloc q d w = .ok (u, w'))
    (hkeys : (w.allocatedVals.map (·.1)).Nodup) : (w'.allocatedVals.map (·.1)).Nodup := by
  obtain rfl := setAlloc_ok_iff.mp h
  refine List.nodup_cons.mpr ⟨fun hmem => ?_, hkeys.sublist (List.filter_sublist.map _)⟩
  obtain ⟨item, hitem, hq⟩ := List.mem_map.mp hmem
  simp [hq] at hitem

theorem malloc_ok {n : Nat} {q : Ptr} (h : malloc n p = .ok (q, p')) :
    ∃ b, p.mem b = none ∧ p.syms b = none ∧ q = ⟨b, 0⟩ ∧ p' = p.taken b n := by
  unfold malloc at h
  split at h
  next b _ _ =>
    split at h
    next hfree =>
      simp only [Bool.and_eq_true, Option.isNone_iff_eq_none] at hfree
      cases h
      exact ⟨b, hfree.1, hfree.2, rfl, rfl⟩
    next => cases h
  next => cases h

/-- A new array: in a block that was nowhere, with the entry it must have. -/
theorem allocate_ok {bytes n : Nat} {size : BitVec 32} {q : Ptr} (h : allocate bytes size n p = .ok (q, p'))
    (hok : p.Ok) (hsize : size.toNat = n) : p'.Ok ∧ p.Grows p' ∧ (q, n) ∈ p'.produced := by
  obtain ⟨_, p₁, hmalloc, h⟩ := bind_ok_iff.mp h
  obtain ⟨b, hmem, hsyms, rfl, rfl⟩ := malloc_ok hmalloc
  obtain ⟨_, p₂, hlift, h⟩ := bind_ok_iff.mp h
  obtain ⟨w, hset, rfl⟩ := lift_ok_iff.mp hlift
  obtain ⟨_, p₃, hrecord, h⟩ := bind_ok_iff.mp h
  obtain ⟨rfl, rfl⟩ := pure_ok_iff.mp h
  obtain rfl := modify_ok_iff.mp hrecord
  have halloc : ∀ r, w.alloc? r = if r = ⟨b, 0⟩ then some ⟨true, size⟩ else p.alloc? r := by
    intro r
    exact setAlloc_alloc? (w := (p.taken b bytes).toWorld) hset
  have hnew : ∀ b', Live p.toWorld b' → b' ≠ b := by
    rintro _ hlive rfl
    exact hlive.1 hmem
  have hlive : ∀ b', Live p.toWorld b' → Live (p.taken b bytes).toWorld b' := by
    intro b' hb
    refine ⟨?_, hb.2.1, Nat.lt_of_lt_of_le hb.2.2 (Nat.le_max_left ..)⟩
    exact (Function.update_of_ne (hnew b' hb) ..).trans_ne hb.1
  have hentries : ∀ r k, (r, k) ∈ p.produced → w.alloc? r = p.alloc? r := by
    intro r k hr
    rw [halloc, if_neg]
    rintro rfl
    exact hnew _ ((hok.produced _ k hr).live hok) rfl
  have hkeys := setAlloc_keys hset hok.keys
  obtain rfl := setAlloc_ok_iff.mp hset
  refine ⟨⟨hok.tree.mono (Nat.le_max_left ..), hok.inputs, ?_, fun b' hb' => ?_, fun b' text hb' => ?_, hkeys, fun r => ?_,
    fun r k hr => ?_, ?_⟩, ⟨⟨rfl, rfl, List.subset_cons_self .., rfl, List.subset_cons_self .., hentries⟩,
      fun _ _ ho _ => ho⟩, List.mem_cons_self ..⟩
  · exact List.nodup_cons.mpr ⟨fun hb => hnew b (hok.heap b hb).1 rfl, hok.nodup⟩
  · obtain rfl | hb' := List.mem_cons.mp hb'
    · refine ⟨⟨?_, hsyms, Nat.lt_of_lt_of_le (Nat.lt_succ_self _) (Nat.le_max_right ..)⟩, ?_⟩
      · exact (Function.update_self ..).trans_ne (Option.some_ne_none _)
      · by_contra hlit
        obtain ⟨text, htext⟩ := Option.ne_none_iff_exists'.mp hlit
        exact hnew _ (hok.literal _ text htext).1 rfl
    · exact ⟨hlive b' (hok.heap b' hb').1, (hok.heap b' hb').2⟩
  · obtain ⟨hb, hbytes, hnul⟩ := hok.literal b' text hb'
    exact ⟨hlive b' hb, (Function.update_of_ne (hnew b' hb) ..).trans hbytes, hnul⟩
  · show World.Marked _ r ↔ ∃ b' ∈ b :: p.heap, r = ⟨b', 0⟩
    simp only [World.Marked, halloc, List.exists_mem_cons_iff]
    split
    next hr => exact iff_of_true ⟨size, rfl⟩ (.inl hr)
    next hr => exact (hok.marked r).trans ⟨.inr, fun h => h.resolve_left hr⟩
  · obtain hr | hr := List.mem_cons.mp hr
    · obtain ⟨rfl, rfl⟩ := Prod.mk.inj hr
      subst hsize
      exact .array (List.mem_cons_self ..) ((halloc _).trans (if_pos rfl))
    · exact (hok.produced r k hr).congr (List.subset_cons_self ..) rfl (hentries r k hr)
  · exact (hok.ledger.cons ⟨b, 0⟩).trans List.perm_middle.symm

theorem storeMem_generating {q : Ptr} {v : Val} : Generating (storeMem q v) := by
  intro p u p' h hok
  unfold storeMem at h
  split at h
  next hfree =>
    simp only [Bool.and_eq_true, Option.isNone_iff_eq_none] at hfree
    obtain ⟨w, hst, rfl⟩ := lift_ok_iff.mp h
    obtain ⟨-, m, hm, rfl⟩ := (storeMem_ok_iff hfree.2).mp hst
    obtain ⟨bs, hbs, rfl⟩ := Mem.store_some hm
    have hmoves : p.Moves { p.toWorld with
        mem := Function.update p.mem q.block (some (Mem.splice bs v.encode q.offset.toNat)) } := by
      refine ⟨hok.tree, rfl, hok.inputs, fun b hb => ⟨?_, hb.2⟩, fun b text hb => ?_, hok.keys, fun _ => .rfl,
        fun _ _ _ => rfl⟩
      · by_cases hbq : b = q.block
        · subst hbq
          exact (Function.update_self ..).trans_ne (Option.some_ne_none _)
        · exact (Function.update_of_ne hbq ..).trans_ne hb.1
      · refine Function.update_of_ne ?_ ..
        rintro rfl
        cases hfree.1.symm.trans hb
    obtain ⟨hok', hext⟩ := hok.moves hmoves
    exact ⟨hok', hext, fun _ _ ho _ => ho⟩
  next => cases h

/-! ## Literals -/

theorem strlenBytes_eq {text : List (BitVec 8)} (hnul : 0 ∉ text) :
    strlenBytes ((text ++ [0]).map .byte) = some text.length := by
  induction text with
  | nil => rfl
  | cons c text ih =>
    have hc : c ≠ 0 := fun hc => hnul (hc ▸ List.mem_cons_self ..)
    have htext : 0 ∉ text := fun h => hnul (List.mem_cons_of_mem _ h)
    rw [List.cons_append, List.map_cons, strlenBytes, if_neg hc, ih htext]
    rfl

/-- `strlen` of a literal without a 0 in it is the number of its bytes. -/
theorem strlen_literal (hok : p.Ok) {q : Ptr} {text : List (BitVec 8)} (hq : p.literalAt q = some text) :
    strlen q p.toWorld = .ok (text.length, p.toWorld) := by
  obtain ⟨whole, hwhole, hq⟩ := Option.bind_eq_some_iff.mp hq
  obtain ⟨-, hmem, hnul⟩ := hok.literal _ whole hwhole
  split at hq
  next hoff =>
    obtain rfl := Option.some.inj hq
    have hdrop : ((whole ++ [0]).map MByte.byte).drop q.offset.toNat =
        (whole.drop q.offset.toNat ++ [0]).map MByte.byte := by
      rw [← List.map_drop, List.drop_append_of_le_length hoff.2]
    have hlen := @strlenBytes_eq (whole.drop q.offset.toNat) fun h => hnul (List.mem_of_mem_drop h)
    simp only [strlen, hmem, Option.bind_some, if_neg (Int.not_lt.mpr hoff.1), hdrop, hlen]
  next => cases hq

theorem Ok.record (hok : p.Ok) {q : Ptr} {n : Nat} (h : p.Entered q n) :
    Ok { p with produced := (q, n) :: p.produced } ∧ p.Grows { p with produced := (q, n) :: p.produced } := by
  refine ⟨{ hok with produced := fun r k hr => ?_ }, ⟨rfl, rfl, fun _ h => h, rfl, List.subset_cons_self .., fun _ _ _ => rfl⟩,
    fun _ _ ho _ => ho⟩
  obtain hr | hr := List.mem_cons.mp hr
  · obtain ⟨rfl, rfl⟩ := Prod.mk.inj hr
    exact h.congr (fun _ h => h) rfl rfl
  · exact (hok.produced r k hr).congr (fun _ h => h) rfl rfl

/-- A literal's entry is set, to what it was if it was one of this test. -/
theorem evalString_ok {str q : Ptr} (h : evalString str p = .ok (q, p')) (hok : p.Ok) :
    p'.Ok ∧ p.Grows p' ∧ q = str ∧ ∃ text, p.literalAt str = some text ∧ (str, text.length) ∈ p'.produced := by
  obtain ⟨_, _, hget, h⟩ := bind_ok_iff.mp h
  obtain ⟨rfl, rfl⟩ := get_ok_iff.mp hget
  cases htext : p.literalAt str with
  | none =>
    rw [htext] at h
    simp at h
  | some text =>
    rw [htext] at h
    obtain ⟨_, _, hlift, h⟩ := bind_ok_iff.mp h
    obtain ⟨w, hset, rfl⟩ := lift_ok_iff.mp hlift
    obtain ⟨n, _, hlen, hset⟩ := bind_ok_iff.mp hset
    obtain ⟨rfl, rfl⟩ := Prod.mk.inj (Except.ok.inj ((strlen_literal hok htext).symm.trans hlen))
    obtain ⟨_, _, hrecord, h⟩ := bind_ok_iff.mp h
    obtain ⟨rfl, rfl⟩ := pure_ok_iff.mp h
    obtain rfl := modify_ok_iff.mp hrecord
    have halloc : ∀ r, w.alloc? r = if r = str then some ⟨false, BitVec.ofNat 32 text.length⟩ else p.alloc? r := by
      intro r
      exact setAlloc_alloc? (w := p.toWorld) hset
    -- no array is where a literal is
    have hheap : ∀ b ∈ p.heap, (⟨b, 0⟩ : Ptr) ≠ str := by
      rintro b hb rfl
      obtain ⟨whole, hwhole, -⟩ := Option.bind_eq_some_iff.mp htext
      cases (hok.heap b hb).2.symm.trans hwhole
    have hmarked : ∀ r, w.Marked r ↔ p.Marked r := by
      intro r
      simp only [World.Marked, halloc]
      split
      next hr =>
        subst hr
        refine iff_of_false (by simp) fun hmark => ?_
        obtain ⟨b, hb, hq⟩ := (hok.marked r).mp hmark
        exact hheap b hb hq.symm
      next => exact .rfl
    have hentries : ∀ r k, (r, k) ∈ p.produced → w.alloc? r = p.alloc? r := by
      intro r k hr
      rw [halloc]
      split
      next heq =>
        subst heq
        cases hok.produced r k hr with
        | array hb _ => exact absurd rfl (hheap _ hb)
        | string hq he =>
          obtain rfl := Option.some.inj (hq.symm.trans htext)
          exact he.symm
      next => rfl
    have hkeys := setAlloc_keys hset hok.keys
    obtain ⟨hmoves, hsyms⟩ : p.Moves w ∧ w.syms = p.syms := by
      obtain rfl := setAlloc_ok_iff.mp hset
      exact ⟨⟨hok.tree, rfl, hok.inputs, fun _ hb => hb, fun _ _ _ => rfl, hkeys, hmarked, hentries⟩, rfl⟩
    obtain ⟨hok₁, hext₁⟩ := hok.moves hmoves
    have hentered : Entered { p with toWorld := w } str text.length := .string htext ((halloc str).trans (if_pos rfl))
    obtain ⟨hok₂, hg₂⟩ := hok₁.record hentered
    exact ⟨hok₂, .trans ⟨hext₁, fun _ _ ho _ => hsyms ▸ ho⟩ hg₂, rfl, text, rfl, List.mem_cons_self ..⟩

/-! ## Producers -/

theorem fillVal_ok {copyArr : SymId → P Ptr}
    (hcopy : ∀ id p q p', copyArr id p = .ok (q, p') → p.Ok → p'.Ok ∧ p.Grows p' ∧ ∃ n, (q, n) ∈ p'.produced)
    {sym : SymId} {v : Val} (h : fillVal copyArr sym p = .ok (v, p')) (hok : p.Ok) :
    p'.Ok ∧ p.Grows p' ∧ ∀ q, v = .ptr q → ∃ n, (q, n) ∈ p'.produced := by
  have hscalar {α : Type} {x : M α} {f : α → Val} (hx : SymbolsOnly x) (hf : ∀ a q, f a ≠ .ptr q)
      (h : (do return f (← lift x)) p = .ok (v, p')) :
      p'.Ok ∧ p.Grows p' ∧ ∀ q, v = .ptr q → ∃ n, (q, n) ∈ p'.produced := by
    obtain ⟨a, p₁, ha, h⟩ := bind_ok_iff.mp h
    obtain ⟨rfl, rfl⟩ := pure_ok_iff.mp h
    obtain ⟨hok', hg⟩ := Generating.of_symbolsOnly hx ha hok
    exact ⟨hok', hg, fun q hq => absurd hq (hf a q)⟩
  obtain ⟨o, _, hlift, h⟩ := bind_ok_iff.mp h
  obtain ⟨_, hget, rfl⟩ := lift_ok_iff.mp hlift
  obtain ⟨ho, rfl⟩ := getSym_ok_iff.mp hget
  obtain ⟨name, val⟩ := o
  cases val with
  | number num => exact hscalar (f := .int32) .numRandGen (fun _ _ h => by cases h) h
  | char ch => exact hscalar (f := .int8) .charRandGen (fun _ _ h => by cases h) h
  | bool b => exact hscalar (f := .int8) .boolRandGen (fun _ _ h => by cases h) h
  | array type s elems =>
    obtain ⟨q, p₁, hq, h⟩ := bind_ok_iff.mp h
    obtain ⟨rfl, rfl⟩ := pure_ok_iff.mp h
    obtain ⟨hok', hg, n, hn⟩ := hcopy sym _ q _ hq hok
    refine ⟨hok', hg, fun r hr => ⟨n, ?_⟩⟩
    cases hr
    exact hn

theorem fillElems_generating {copyArr : SymId → P Ptr}
    (hcopy : ∀ id p q p', copyArr id p = .ok (q, p') → p.Ok → p'.Ok ∧ p.Grows p' ∧ ∃ n, (q, n) ∈ p'.produced)
    {size : Nat} : ∀ {elems : List SymId} {data : Ptr}, Generating (fillElems copyArr size data elems)
  | [], _ => .pure
  | _ :: _, _ => by
    refine .bind (.bind (fun _ _ _ h hok => ?_) fun _ => storeMem_generating) fun _ => fillElems_generating hcopy
    obtain ⟨hok', hg, -⟩ := fillVal_ok hcopy h hok
    exact ⟨hok', hg⟩

/-- `arr_rand_gen` gives an array of as many elements as its symbol has, which
it has when it returns too. So do the calls for elements. -/
theorem arrRandGenDepth_ok : ∀ {n : Nat} {arr : SymId} {p p' : Process} {q : Ptr},
    arrRandGenDepth n arr p = .ok (q, p') → p.Ok →
      p'.Ok ∧ p.Grows p' ∧ (q, (elemsOf p'.syms arr).length) ∈ p'.produced
  | 0, _, _, _, _, h, _ => by simp [arrRandGenDepth] at h
  | n + 1, arr, p, p', q, h, hok => by
    obtain ⟨size, p₁, hsize, h⟩ := bind_ok_iff.mp h
    obtain ⟨hok₁, hg₁⟩ := Generating.of_symbolsOnly .getSize hsize hok
    obtain ⟨w₁, hgetSize, rfl⟩ := lift_ok_iff.mp hsize
    obtain ⟨o, _, hlift, h⟩ := bind_ok_iff.mp h
    obtain ⟨_, hget, rfl⟩ := lift_ok_iff.mp hlift
    obtain ⟨ho, rfl⟩ := getSym_ok_iff.mp hget
    obtain ⟨name, type, elems, hsized⟩ := getSize_holds hgetSize
    obtain rfl := Option.some.inj (hsized.symm.trans ho)
    simp only at h
    split at h
    · simp at h
    · obtain ⟨data, p₂, hdata, h⟩ := bind_ok_iff.mp h
      obtain ⟨_, p₃, hfill, h⟩ := bind_ok_iff.mp h
      obtain ⟨rfl, rfl⟩ := pure_ok_iff.mp h
      have hlen : size.toNat = elems.length := by
        have hint : (elems.length : Int) = size.toInt := hok₁.tree.sized _ _ ho
        have := toNat_of_nonneg (n := size) (by omega)
        omega
      obtain ⟨hok₂, hg₂, hmem⟩ := allocate_ok hdata hok₁ hlen
      obtain ⟨hok₃, hg₃⟩ := fillElems_generating (fun id p q p' h hok => by
        obtain ⟨hok', hg, hq⟩ := arrRandGenDepth_ok h hok
        exact ⟨hok', hg, _, hq⟩) hfill hok₂
      have ho₃ := (hg₂.trans hg₃).lasting arr _ ho rfl
      refine ⟨hok₃, hg₁.trans (hg₂.trans hg₃), ?_⟩
      rw [elemsOf_of_some ho₃]
      exact hg₃.produced hmem

theorem arrRandGen_ok {arr : SymId} {q : Ptr} (h : arrRandGen arr p = .ok (q, p')) (hok : p.Ok) :
    p'.Ok ∧ p.Grows p' ∧ (q, (elemsOf p'.syms arr).length) ∈ p'.produced := by
  obtain ⟨o, _, hlift, h⟩ := bind_ok_iff.mp h
  obtain ⟨_, hget, rfl⟩ := lift_ok_iff.mp hlift
  obtain ⟨ho, rfl⟩ := getSym_ok_iff.mp hget
  obtain ⟨name, val⟩ := o
  cases val with
  | array type s elems => exact arrRandGenDepth_ok h hok
  | _ => simp at h

theorem getValArr_ok {arr : SymId} {idxs : List (BitVec 32)} {v : Val} (h : getValArr arr idxs p = .ok (v, p'))
    (hok : p.Ok) : p'.Ok ∧ p.Grows p' ∧ ∀ q, v = .ptr q → ∃ n, (q, n) ∈ p'.produced := by
  obtain ⟨sym, p₁, hsym, h⟩ := bind_ok_iff.mp h
  obtain ⟨hok₁, hg₁⟩ := Generating.of_symbolsOnly .getSymbolByIdxs hsym hok
  obtain ⟨hok', hg, hv⟩ := fillVal_ok (fun id p q p' h hok => by
    obtain ⟨hok', hg, hq⟩ := arrRandGen_ok h hok
    exact ⟨hok', hg, _, hq⟩) h hok₁
  exact ⟨hok', hg₁.trans hg, hv⟩

theorem createArr_ok {len : BitVec 32} {pointedSizeof : Nat} {q : Ptr}
    (h : createArr len pointedSizeof p = .ok (q, p')) (hok : p.Ok) :
    p'.Ok ∧ p.Grows p' ∧ (q, len.toNat) ∈ p'.produced := by
  unfold createArr at h
  split at h
  · simp at h
  · exact allocate_ok h hok rfl

end Process

/-! ## `reset_val` -/

/-- An array that is cleared is one that was built without elements. -/
theorem World.setSym_rebuild_zero (w : World) (id : SymId) (name : String) (type : ArrType) (elems : List SymId)
    (o : SymObj) : (w.rebuild id name type elems 0).setSym id o =
      World.setSym { w with syms := deleteSyms type.elem.depth elems w.syms } id o := by
  have hzero : (0 : BitVec 32).toNat = 0 := rfl
  rw [World.rebuild, hzero, World.pushed_zero]
  simp only [World.setSym, Function.update_idem]

/-- An array without its elements. -/
theorem World.OnSymbols.cleared {w : World} (h : Tree w.syms w.inputs w.next) {id : SymId} {name : String}
    {type : ArrType} {s : Option (BitVec 32)} {elems : List SymId}
    (ho : w.syms id = some ⟨name, .array type s elems⟩) :
    w.OnSymbols (World.setSym { w with syms := deleteSyms type.elem.depth elems w.syms } id ⟨name, .array type none []⟩) := by
  -- it is one that is built with no elements, and then has no length
  have hbuilt : w.OnSymbols (w.rebuild id name type elems 0) := .rebuild h ho (by decide)
  have hnil : (w.rebuild id name type elems 0).syms id = some ⟨name, .array type (some 0) []⟩ := World.setSym_self ..
  have hcleared : w.OnSymbols ((w.rebuild id name type elems 0).setSym id ⟨name, .array type none []⟩) :=
    hbuilt.trans (.setSym hbuilt.tree hnil rfl rfl rfl rfl)
  exact World.setSym_rebuild_zero w id name type elems _ ▸ hcleared

/-- A symbol of an input has nothing determined any more, and the other inputs are as they were. -/
theorem resetVal_ok {w : World} {id : SymId} {o : SymObj} (h : Tree w.syms w.inputs w.next) (ho : w.syms id = some o) :
    ∃ w', resetVal id w = .ok ((), w') ∧ w.OnSymbols w' ∧ w'.syms id = some ⟨o.name, o.val.cls⟩ ∧
      ∀ j : Nat, j ∈ w.inputs → j ≠ id → w'.syms j = w.syms j := by
  have hget : getSym id w = .ok (o, w) := getSym_ok_iff.mpr ⟨ho, rfl⟩
  have hother {o' : SymObj} : ∀ j : Nat, j ∈ w.inputs → j ≠ id → (w.setSym id o').syms j = w.syms j :=
    fun j _ hj => World.setSym_of_ne _ _ hj
  rw [resetVal, bind_of_ok hget]
  obtain ⟨name, val⟩ := o
  cases val with
  | number num => exact ⟨_, rfl, .setSym h ho rfl rfl rfl trivial, World.setSym_self .., hother⟩
  | char ch => exact ⟨_, rfl, .setSym h ho rfl rfl rfl trivial, World.setSym_self .., hother⟩
  | bool b => exact ⟨_, rfl, .setSym h ho rfl rfl rfl trivial, World.setSym_self .., hother⟩
  | array type s elems =>
    refine ⟨_, rfl, .cleared h ho, World.setSym_self .., fun j hj hne => ?_⟩
    exact (World.setSym_of_ne _ _ hne).trans (World.OnSymbols.deleteSyms_input h ho _ hj)

theorem resetVals_ok {ids : List SymId} : ∀ {w : World}, Tree w.syms w.inputs w.next → ids ⊆ w.inputs →
    (∀ id ∈ ids, ∃ o, w.syms id = some o) →
      ∃ w', resetVals ids w = .ok ((), w') ∧ w.OnSymbols w' ∧
        (∀ id o, id ∈ ids → w.syms id = some o → w'.syms id = some ⟨o.name, o.val.cls⟩) ∧
        ∀ j : Nat, j ∈ w.inputs → j ∉ ids → w'.syms j = w.syms j := by
  induction ids with
  | nil =>
    intro w h _ _
    exact ⟨w, rfl, .refl h, by simp, fun _ _ _ => rfl⟩
  | cons id ids ih =>
    intro w h hsub hobj
    obtain ⟨hid, hids⟩ := List.cons_subset.mp hsub
    obtain ⟨⟨o, ho⟩, hobjs⟩ := List.forall_mem_cons.mp hobj
    obtain ⟨w₁, h₁, hon₁, hcls, hother₁⟩ := resetVal_ok h ho
    obtain ⟨w', h', hon', hreset, hother'⟩ := ih hon₁.tree (hon₁.inputs ▸ hids) fun j hj => by
      obtain ⟨oj, hoj⟩ := hobjs j hj
      obtain ⟨oj', hoj', -⟩ := hon₁.kept j oj (hids hj) hoj
      exact ⟨oj', hoj'⟩
    refine ⟨w', by rw [resetVals, bind_of_ok h₁]; exact h', hon₁.trans hon', fun j oj hj hoj => ?_, fun j hj hne => ?_⟩
    · by_cases hjid : j = id
      · subst hjid
        obtain rfl := Option.some.inj (hoj.symm.trans ho)
        by_cases hin : j ∈ ids
        · simpa [SymVal.cls_cls] using hreset j _ hin hcls
        · exact (hother' j (hon₁.inputs ▸ hid) hin).trans hcls
      · obtain hj | hj := List.mem_cons.mp hj
        · exact absurd hj hjid
        · exact hreset j oj hj ((hother₁ j (hids hj) hjid).trans hoj)
    · obtain ⟨hjid, hjids⟩ := not_or.mp (List.mem_cons.not.mp hne)
      exact (hother' j (hon₁.inputs ▸ hj) hjids).trans (hother₁ j hj hjid)

namespace Process

variable {p p' : Process}

/-! ## `reset` -/

/-- What a walk over the table frees. -/
def allocs (items : List (Ptr × AllocData)) : List Ptr := (items.filter (·.2.isAlloc)).map (·.1)

theorem allocs_cons (q : Ptr) (d : AllocData) (items : List (Ptr × AllocData)) :
    allocs ((q, d) :: items) = if d.isAlloc then q :: allocs items else allocs items := by
  unfold allocs
  cases hd : d.isAlloc <;> simp [hd]

theorem free_ok {b : Nat} (hb : b ∈ p.heap) :
    free ⟨b, 0⟩ p = .ok ((), { p with
      mem := Function.update p.mem b none, heap := p.heap.erase b, freed := ⟨b, 0⟩ :: p.freed }) := if_pos ⟨rfl, hb⟩

/-- The walk frees the live blocks that the table says are allocated, each once. -/
theorem freeAllocs_ok {items : List (Ptr × AllocData)} : ∀ {p : Process}, p.heap.Nodup → (allocs items).Nodup →
    (∀ q ∈ allocs items, ∃ b ∈ p.heap, q = ⟨b, 0⟩) →
      ∃ mem heap, freeAllocs items p =
          .ok ((), { p with mem := mem, heap := heap, freed := (allocs items).reverse ++ p.freed }) ∧
        (∀ b, b ∉ p.heap → mem b = p.mem b) ∧ (∀ b, b ∈ heap ↔ b ∈ p.heap ∧ ⟨b, 0⟩ ∉ allocs items) := by
  induction items with
  | nil =>
    intro p _ _ _
    exact ⟨p.mem, p.heap, rfl, fun _ _ => rfl, by simp [allocs]⟩
  | cons item items ih =>
    intro p hnodup hallocs hlive
    obtain ⟨q, d⟩ := item
    rw [allocs_cons] at hallocs hlive ⊢
    cases hd : d.isAlloc with
    | false =>
      simp only [hd, Bool.false_eq_true, if_false] at hallocs hlive ⊢
      obtain ⟨mem, heap, hrun, hmem, hheap⟩ := ih hnodup hallocs hlive
      exact ⟨mem, heap, by rw [freeAllocs, hd]; exact hrun, hmem, hheap⟩
    | true =>
      simp only [hd, if_true] at hallocs hlive ⊢
      obtain ⟨⟨b, hb, rfl⟩, hlives⟩ := List.forall_mem_cons.mp hlive
      obtain ⟨hnotin, hallocs⟩ := List.nodup_cons.mp hallocs
      obtain ⟨mem, heap, hrun, hmem, hheap⟩ := ih (p := { p with
          mem := Function.update p.mem b none, heap := p.heap.erase b, freed := ⟨b, 0⟩ :: p.freed })
        (hnodup.erase b) hallocs fun q hq => by
          obtain ⟨b', hb', rfl⟩ := hlives q hq
          refine ⟨b', (List.mem_erase_of_ne ?_).mpr hb', rfl⟩
          rintro rfl
          exact hnotin hq
      refine ⟨mem, heap, ?_, fun b' hb' => ?_, fun b' => ?_⟩
      · rw [freeAllocs, hd, if_pos rfl, List.reverse_cons, List.append_assoc]
        exact (bind_of_ok (free_ok hb)).trans hrun
      · have hne : b' ≠ b := by
          rintro rfl
          exact hb' hb
        exact (hmem b' fun h => hb' (List.mem_of_mem_erase h)).trans (Function.update_of_ne hne ..)
      · rw [hheap, hnodup.mem_erase_iff, List.mem_cons, Ptr.mk.injEq, not_or]
        constructor
        · rintro ⟨⟨hne, hb'⟩, hnot⟩
          exact ⟨hb', fun h => hne h.1, hnot⟩
        · rintro ⟨hb', hne, hnot⟩
          exact ⟨⟨fun h => hne ⟨h, rfl⟩, hb'⟩, hnot⟩

theorem mem_iff_find?_eq_some {items : List (Ptr × AllocData)} (h : (items.map (·.1)).Nodup) {q : Ptr} {d : AllocData} :
    (q, d) ∈ items ↔ (items.find? (·.1 == q)).map (·.2) = some d := by
  induction items with
  | nil => simp
  | cons item items ih =>
    obtain ⟨r, c⟩ := item
    obtain ⟨hnotin, h⟩ := List.nodup_cons.mp h
    by_cases hrq : r = q
    · subst hrq
      have hnot : (r, d) ∉ items := fun hmem => hnotin (List.mem_map.mpr ⟨_, hmem, rfl⟩)
      simp [hnot, eq_comm]
    · rw [List.mem_cons, ih h, List.find?_cons_of_neg (by simp [hrq])]
      simp [Ne.symm hrq]

theorem mem_allocs_iff (hok : p.Ok) {q : Ptr} : q ∈ allocs p.allocatedVals ↔ ∃ b ∈ p.heap, q = ⟨b, 0⟩ := by
  rw [← hok.marked q]
  unfold allocs
  simp only [List.mem_map, List.mem_filter, Prod.exists, exists_and_right, exists_eq_right]
  constructor
  · rintro ⟨⟨_, size⟩, hmem, rfl⟩
    exact ⟨size, (mem_iff_find?_eq_some hok.keys).mp hmem⟩
  · rintro ⟨size, h⟩
    exact ⟨⟨true, size⟩, (mem_iff_find?_eq_some hok.keys).mpr h, rfl⟩

/-- What a reset does to a state. -/
structure Resets (p p' : Process) : Prop where
  inputs : p'.inputs = p.inputs
  literals : p'.literals = p.literals
  given : p'.given = p.given
  /-- each live block is freed once, and nothing else is, no literal -/
  freed : ∃ l, p'.freed = l ++ p.freed ∧ l.Nodup ∧ (∀ q, q ∈ l ↔ ∃ b ∈ p.heap, q = ⟨b, 0⟩) ∧
    ∀ q ∈ l, p.literals q.block = none
  heap : p'.heap = []
  table : p'.allocatedVals = []
  produced : p'.produced = []
  undetermined : ∀ (id : Nat) o, id ∈ p.inputs → p.syms id = some o → p'.syms id = some ⟨o.name, o.val.cls⟩

theorem reset_ok (hok : p.Ok) : ∃ p', reset p = .ok ((), p') ∧ p'.Ok ∧ p.Resets p' := by
  have hallocs : (allocs p.allocatedVals).Nodup := hok.keys.sublist (List.filter_sublist.map _)
  obtain ⟨mem, heap, hfree, hmem, hheap⟩ :=
    freeAllocs_ok hok.nodup hallocs fun q hq => (mem_allocs_iff hok).mp hq
  obtain rfl : heap = [] := by
    refine List.eq_nil_iff_forall_not_mem.mpr fun b hb => ?_
    obtain ⟨hb, hnot⟩ := (hheap b).mp hb
    exact hnot ((mem_allocs_iff hok).mpr ⟨b, hb, rfl⟩)
  obtain ⟨w, hreset, hon, hundet, -⟩ := @resetVals_ok p.inputs { p.toWorld with mem := mem, allocatedVals := [] }
    hok.tree (fun _ h => h) hok.inputs
  refine ⟨{ p with toWorld := w, heap := [], freed := (allocs p.allocatedVals).reverse ++ p.freed, produced := [] }, ?_,
    ?_, hon.inputs, rfl, rfl, ⟨_, rfl, List.nodup_reverse.mpr hallocs, fun q => ?_, fun q hq => ?_⟩, rfl,
      hon.table, rfl,
    fun id o hid ho => hundet id o hid ho⟩
  · have hlift : lift (resetVals p.inputs) { p with
        mem := mem, allocatedVals := [], heap := [], freed := (allocs p.allocatedVals).reverse ++ p.freed,
        produced := [] } = .ok ((), { p with
        toWorld := w, heap := [], freed := (allocs p.allocatedVals).reverse ++ p.freed, produced := [] }) :=
      lift_ok_iff.mpr ⟨w, hreset, rfl⟩
    exact bind_ok_iff.mpr ⟨_, _, get_ok_iff.mpr ⟨rfl, rfl⟩, bind_ok_iff.mpr ⟨(), _, hfree,
      bind_ok_iff.mpr ⟨(), _, modify_ok_iff.mpr rfl, bind_ok_iff.mpr ⟨_, _, get_ok_iff.mpr ⟨rfl, rfl⟩, hlift⟩⟩⟩⟩
  · have hperm : (allocs p.allocatedVals).reverse.Perm (p.heap.map fun b => ⟨b, 0⟩) := by
      refine (List.perm_ext_iff_of_nodup (List.nodup_reverse.mpr hallocs) ?_).mpr fun q => ?_
      · exact hok.nodup.map fun _ _ h => (Ptr.mk.inj h).1
      · rw [List.mem_reverse, mem_allocs_iff hok, List.mem_map]
        simp only [eq_comm]
    refine ⟨hon.tree, fun id hid => ?_, List.nodup_nil, by simp, fun b text hb => ?_, ?_, fun q => ?_, by simp, ?_⟩
    · obtain ⟨o, ho⟩ := hok.inputs id (hon.inputs ▸ hid)
      exact ⟨_, hundet id o (hon.inputs ▸ hid) ho⟩
    · obtain ⟨hlive, hbytes, hnul⟩ := hok.literal b text hb
      have hb' : b ∉ p.heap := by
        intro hin
        cases (hok.heap b hin).2.symm.trans hb
      have hwmem : w.mem b = p.mem b := by rw [hon.mem]; exact hmem b hb'
      exact ⟨⟨hwmem ▸ hlive.1, hon.vacant b hlive.2.2 hlive.2.1, Nat.lt_of_lt_of_le hlive.2.2 hon.next⟩,
        hwmem.trans hbytes, hnul⟩
    · show (w.allocatedVals.map (·.1)).Nodup
      rw [hon.table]
      exact List.nodup_nil
    · show w.Marked q ↔ _
      simp [World.Marked, World.alloc?, hon.table]
    · simpa using hok.ledger.trans (List.perm_append_comm.trans (hperm.symm.append_right p.freed))
  · rw [List.mem_reverse]
    exact mem_allocs_iff hok
  · obtain ⟨b, hb, rfl⟩ := (mem_allocs_iff hok).mp (List.mem_reverse.mp hq)
    exact (hok.heap b hb).2

/-- A cell of the program's stack. -/
theorem alloca_ok {bytes : Nat} {q : Ptr} (h : lift (DGen.malloc bytes) p = .ok (q, p')) (hok : p.Ok) :
    p'.Ok ∧ p.Extends p' := by
  obtain ⟨w, hnew, rfl⟩ := lift_ok_iff.mp h
  obtain ⟨-, rfl⟩ := newBlock_ok_iff.mp hnew
  refine hok.moves ⟨hok.tree.mono (Nat.le_succ _), rfl, hok.inputs, fun b hb => ⟨?_, hb.2.1, Nat.lt_succ_of_lt hb.2.2⟩,
    fun b text hb => ?_, hok.keys, fun _ => .rfl, fun _ _ _ => rfl⟩
  · exact (Function.update_of_ne (Nat.ne_of_lt hb.2.2) ..).trans_ne hb.1
  · exact Function.update_of_ne (Nat.ne_of_lt (hok.literal b text hb).1.2.2) ..

theorem start_ok {env : Env} {inputs : List Symbol} {texts : List (List (BitVec 8))} {blocks : List Nat}
    (hnul : ∀ text ∈ texts, 0 ∉ text) : (start env inputs texts blocks).Ok where
  tree := (World.start_ok { env with literals := [] } inputs).tree.mono (Nat.le_add_right ..)
  inputs := by
    intro id hid
    have hlt : id < inputs.length := List.mem_range.mp hid
    exact ⟨⟨inputs[id].name, inputs[id].type.newSym⟩, by simp [start, World.start, hlt]⟩
  nodup := List.nodup_nil
  heap := by simp [start]
  literal := by
    intro b text hb
    simp only [start] at hb
    split at hb
    · cases hb
    next hge =>
      have hlt := (List.getElem?_eq_some_iff.mp hb).1
      have hmem : (start env inputs texts blocks).mem b = some ((text ++ [0]).map .byte) := by
        simp [start, hge, hb]
      refine ⟨⟨by rw [hmem]; exact Option.some_ne_none _, ?_, ?_⟩, hmem, hnul text (List.mem_of_getElem? hb)⟩
      · have hnone : inputs[b]? = none := List.getElem?_eq_none (Nat.not_lt.mp hge)
        simp [start, World.start, hnone]
      · simp only [start]
        omega
  keys := List.nodup_nil
  marked := by simp [start, World.start, World.Marked, World.alloc?]
  produced := by simp [start]
  ledger := .refl _

end Process

/-! ## Runs -/

/-- What happens in a process: the operations on the table, and what else the
program and the solver do to the state. -/
inductive AllocOp
  | createArr (len : BitVec 32) (pointedSizeof : Nat)
  | arrRandGen (arr : SymId)
  | getValArr (arr : SymId) (idxs : List (BitVec 32))
  | string (str : Ptr)
  | getProperty (s : Symbol) (data : Ptr)
  | gatherRec (s : ScalarType) (n : Nat) (res : Ptr)
  | reset
  | alloca (bytes : Nat)
  | store (q : Ptr) (v : Val)
  | fillVal (sym : SymId) (expr : ZVal)

namespace AllocOp

/-- The operation, and the array or string it produces. -/
def exec : AllocOp → P (Option Ptr)
  | createArr len pointedSizeof => do return some (← Process.createArr len pointedSizeof)
  | arrRandGen arr => do return some (← Process.arrRandGen arr)
  | getValArr arr idxs => do
    match ← Process.getValArr arr idxs with
    | .ptr q => return some q
    | _ => return none
  | string str => do return some (← Process.evalString str)
  | getProperty s data => do
    let _ ← Process.lift (DGen.getProperty s data)
    return none
  | gatherRec s n res => do
    let _ ← Process.lift (DGen.gatherRec s n res)
    return none
  | reset => do
    Process.reset
    return none
  | alloca bytes => do
    let _ ← Process.lift (DGen.malloc bytes)
    return none
  | store q v => do
    Process.storeMem q v
    return none
  | fillVal sym expr => do
    Process.lift (fillSym sym expr)
    return none

/-- How many elements what an operation produced has. -/
def count (p : Process) : AllocOp → Option Nat
  | createArr len _ => some len.toNat
  | arrRandGen arr => some (elemsOf p.syms arr).length
  | string str => (p.literalAt str).map List.length
  | _ => none

def isReset : AllocOp → Bool
  | reset => true
  | _ => false

def isLookup : AllocOp → Bool
  | getProperty _ _ | gatherRec _ _ _ => true
  | _ => false

end AllocOp

def runAllocOps : List AllocOp → P Unit
  | [] => return ()
  | op :: ops => do
    let _ ← op.exec
    runAllocOps ops

section

variable {p p' : Process}

/-- What one operation does: the step of the invariant. -/
theorem AllocOp.exec_ok {op : AllocOp} {a : Option Ptr} (h : op.exec p = .ok (a, p')) (hok : p.Ok) :
    p'.Ok ∧ (op.isReset = false → p.Extends p') ∧
      ∀ q, a = some q → ∃ n, (q, n) ∈ p'.produced ∧ ∀ k, op.count p' = some k → k = n := by
  have hnone {α : Type} {x : P α} (hx : ∀ b p', x p = .ok (b, p') → p'.Ok ∧ p.Extends p')
      (h : (do let _ ← x; return none) p = .ok (a, p')) :
      p'.Ok ∧ p.Extends p' ∧ ∀ q, a ≠ some q := by
    obtain ⟨b, p₁, hb, h⟩ := bind_ok_iff.mp h
    obtain ⟨rfl, rfl⟩ := pure_ok_iff.mp h
    obtain ⟨hok', hext⟩ := hx b _ hb
    exact ⟨hok', hext, by simp⟩
  have hquiet {b : Option Nat} (h : p'.Ok ∧ p.Extends p' ∧ ∀ q, a ≠ some q) :
      p'.Ok ∧ (op.isReset = false → p.Extends p') ∧
      ∀ q, a = some q → ∃ n, (q, n) ∈ p'.produced ∧ ∀ k, b = some k → k = n :=
    ⟨h.1, fun _ => h.2.1, fun q hq => absurd hq (h.2.2 q)⟩
  have hgen {α : Type} {x : P α} (hx : Process.Generating x) : ∀ b p', x p = .ok (b, p') → p'.Ok ∧ p.Extends p' := by
    intro b p' h
    obtain ⟨hok', hg⟩ := hx h hok
    exact ⟨hok', hg.toExtends⟩
  cases op with
  | createArr len pointedSizeof =>
    obtain ⟨q, p₁, hq, h⟩ := bind_ok_iff.mp h
    obtain ⟨rfl, rfl⟩ := pure_ok_iff.mp h
    obtain ⟨hok', hg, hmem⟩ := Process.createArr_ok hq hok
    refine ⟨hok', fun _ => hg.toExtends, fun r hr => ⟨len.toNat, ?_, fun k hk => (Option.some.inj hk).symm⟩⟩
    exact Option.some.inj hr ▸ hmem
  | arrRandGen arr =>
    obtain ⟨q, p₁, hq, h⟩ := bind_ok_iff.mp h
    obtain ⟨rfl, rfl⟩ := pure_ok_iff.mp h
    obtain ⟨hok', hg, hmem⟩ := Process.arrRandGen_ok hq hok
    refine ⟨hok', fun _ => hg.toExtends, fun r hr => ⟨_, ?_, fun k hk => (Option.some.inj hk).symm⟩⟩
    exact Option.some.inj hr ▸ hmem
  | getValArr arr idxs =>
    obtain ⟨v, p₁, hv, h⟩ := bind_ok_iff.mp h
    obtain ⟨hok', hg, hmem⟩ := Process.getValArr_ok hv hok
    cases v with
    | ptr q =>
      obtain ⟨rfl, rfl⟩ := pure_ok_iff.mp h
      refine ⟨hok', fun _ => hg.toExtends, fun r hr => ?_⟩
      obtain ⟨n, hn⟩ := hmem q rfl
      exact ⟨n, Option.some.inj hr ▸ hn, by simp [AllocOp.count]⟩
    | _ =>
      obtain ⟨rfl, rfl⟩ := pure_ok_iff.mp h
      exact ⟨hok', fun _ => hg.toExtends, by simp⟩
  | string str =>
    obtain ⟨q, p₁, hq, h⟩ := bind_ok_iff.mp h
    obtain ⟨rfl, rfl⟩ := pure_ok_iff.mp h
    obtain ⟨hok', hg, rfl, text, htext, hmem⟩ := Process.evalString_ok hq hok
    refine ⟨hok', fun _ => hg.toExtends, fun r hr => ⟨text.length, Option.some.inj hr ▸ hmem, fun k hk => ?_⟩⟩
    have htext' : p₁.literalAt q = some text := by rwa [Process.literalAt, hg.literals]
    rw [AllocOp.count, htext'] at hk
    exact (Option.some.inj hk).symm
  | getProperty s data =>
    refine hquiet (hnone (fun b p' h => ?_) h)
    obtain ⟨w, hw, rfl⟩ := Process.lift_ok_iff.mp h
    unfold DGen.getProperty at hw
    split at hw
    · have hsym : SymbolsOnly (do getSize (← inputId s.ref)) := SymbolsOnly.inputId.bind fun _ => .getSize
      exact hok.moves (hok.onSymbols (hsym hw hok.tree).toOnSymbols)
    · obtain ⟨d, _, hd, hpure⟩ := bind_ok_iff.mp hw
      obtain ⟨-, rfl⟩ := pure_ok_iff.mp hpure
      exact hok.moves (hok.looked (getAlloc_looked hd))
  | gatherRec s n res => exact hquiet (hnone (hgen (.of_looksUp .gatherRec)) h)
  | reset =>
    obtain ⟨_, p₁, hreset, h⟩ := bind_ok_iff.mp h
    obtain ⟨rfl, rfl⟩ := pure_ok_iff.mp h
    obtain ⟨p₂, hreset', hok', -⟩ := Process.reset_ok hok
    obtain ⟨-, rfl⟩ := Prod.mk.inj (Except.ok.inj (hreset'.symm.trans hreset))
    exact ⟨hok', by simp [AllocOp.isReset], by simp⟩
  | alloca bytes => exact hquiet (hnone (fun _ _ h => Process.alloca_ok h hok) h)
  | store q v => exact hquiet (hnone (hgen Process.storeMem_generating) h)
  | fillVal sym expr =>
    refine hquiet (hnone (fun b p' h => ?_) h)
    obtain ⟨w, hw, rfl⟩ := Process.lift_ok_iff.mp h
    exact hok.moves (hok.onSymbols (fillSym_onSymbols hw hok.tree))

theorem runAllocOps_ok {ops : List AllocOp} : ∀ {p p' : Process}, runAllocOps ops p = .ok ((), p') → p.Ok → p'.Ok := by
  induction ops with
  | nil =>
    intro p p' h hok
    obtain ⟨-, rfl⟩ := pure_ok_iff.mp h
    exact hok
  | cons op ops ih =>
    intro p p' h hok
    obtain ⟨a, p₁, hop, h⟩ := bind_ok_iff.mp h
    exact ih h (op.exec_ok hop hok).1

end

/-! ## The table -/

/-- What the table is for, in a state: it has the length of every array and
string of the test, whatever operation is next, and a reset can go by it. -/
structure Process.TableExact (p : Process) : Prop where
  /-- an array's or string's entry has the number of its elements, as a `uint32_t` -/
  entry : ∀ q n, (q, n) ∈ p.produced →
    ∃ d, p.alloc? q = some d ∧ d.size = BitVec.ofNat 32 n ∧ (d.isAlloc = true → d.size.toNat = n)
  /-- what an operation gives the program is one of them -/
  product : ∀ (op : AllocOp) q p', op.exec p = .ok (some q, p') →
    ∃ n, (q, n) ∈ p'.produced ∧ ∀ k, op.count p' = some k → k = n
  /-- no operation but a reset changes their entries -/
  frame : ∀ (op : AllocOp) a p', op.exec p = .ok (a, p') → op.isReset = false →
    p.produced ⊆ p'.produced ∧ ∀ q n, (q, n) ∈ p.produced → p'.alloc? q = p.alloc? q
  /-- a lookup marks no address as allocated that had no entry -/
  lookup : ∀ (op : AllocOp) a p', op.exec p = .ok (a, p') → op.isLookup = true →
    ∀ q, p.alloc? q = none → p'.alloc? q = none ∨ p'.alloc? q = some ⟨false, 0⟩
  /-- a reset succeeds, and after it all that `malloc` ever returned has been freed as often -/
  reset : ∃ p', Process.reset p = .ok ((), p') ∧ p.Resets p' ∧ p'.freed.Perm p'.given

theorem AllocOp.exec_lookup {p p' : Process} {op : AllocOp} {a : Option Ptr} (h : op.exec p = .ok (a, p'))
    (hlookup : op.isLookup = true) (hok : p.Ok) {q : Ptr} (hq : p.alloc? q = none) :
    p'.alloc? q = none ∨ p'.alloc? q = some ⟨false, 0⟩ := by
  cases op with
  | getProperty s data =>
    obtain ⟨_, p₁, hlift, h⟩ := bind_ok_iff.mp h
    obtain ⟨-, rfl⟩ := pure_ok_iff.mp h
    obtain ⟨w, hw, rfl⟩ := Process.lift_ok_iff.mp hlift
    unfold DGen.getProperty at hw
    split at hw
    · have hsym : SymbolsOnly (do getSize (← inputId s.ref)) := SymbolsOnly.inputId.bind fun _ => .getSize
      exact .inl ((Process.alloc?_congr (hsym hw hok.tree).table q).trans hq)
    · obtain ⟨d, _, hd, hpure⟩ := bind_ok_iff.mp hw
      obtain ⟨-, rfl⟩ := pure_ok_iff.mp hpure
      exact (getAlloc_looked hd).unknown q hq
  | gatherRec s n res =>
    obtain ⟨_, p₁, hlift, h⟩ := bind_ok_iff.mp h
    obtain ⟨-, rfl⟩ := pure_ok_iff.mp h
    obtain ⟨w, hw, rfl⟩ := Process.lift_ok_iff.mp hlift
    exact (LooksUp.gatherRec hw).unknown q hq
  | _ => cases hlookup

/-- **The allocation table is exact in every state of a process**, whatever
addresses `malloc` returns, as long as nothing is there. -/
theorem alloc_table_exact {env : Env} {inputs : List Symbol} {texts : List (List (BitVec 8))} {blocks : List Nat}
    {ops : List AllocOp} {p : Process} (hnul : ∀ text ∈ texts, 0 ∉ text)
    (h : runAllocOps ops (Process.start env inputs texts blocks) = .ok ((), p)) : p.TableExact := by
  have hok := runAllocOps_ok h (Process.start_ok hnul)
  refine ⟨fun q n hq => ?_, fun op q p' h => ?_, fun op a p' h hreset => ?_, fun op a p' h hlookup q hq => ?_, ?_⟩
  · cases hok.produced q n hq with
    | array _ he => exact ⟨_, he, by simp, fun _ => rfl⟩
    | string _ he => exact ⟨_, he, rfl, by simp⟩
  · exact (op.exec_ok h hok).2.2 q rfl
  · have hext := (op.exec_ok h hok).2.1 hreset
    exact ⟨hext.produced, hext.entries⟩
  · exact op.exec_lookup h hlookup hok hq
  · obtain ⟨p', hreset, hok', hresets⟩ := Process.reset_ok hok
    have hledger := hok'.ledger
    rw [hresets.heap] at hledger
    exact ⟨p', hreset, hresets, by simpa using hledger.symm⟩

namespace Sample

/-- A test that produces arrays and a string, looks an address up that is
neither's, and ends; in the next `malloc` returns the first address again. -/
def twoTests : List AllocOp :=
  [.createArr 3 4, .arrRandGen 0, .string ⟨1, 0⟩, .getProperty ⟨.var 0, ⟨1, 0⟩, ⟨.int, 1⟩, "b"⟩ ⟨99, 0⟩, .alloca 8,
    .store ⟨51, 0⟩ (.ptr ⟨30, 0⟩), .gatherRec .int 2 ⟨51, 0⟩, .reset, .createArr 3 4]

def process : Process :=
  .start (draws 2) [⟨.input 0, ⟨1, 0⟩, ⟨.int, 2⟩, "a"⟩] [[97, 98]] [5, 30, 40, 50, 5]

end Sample

theorem alloc_table_exact_twoTests :
    ∃ p, runAllocOps Sample.twoTests Sample.process = .ok ((), p) ∧ p.heap = [5] ∧ p.freed.length = 4 ∧
      p.TableExact := by
  have hrun : ((runAllocOps Sample.twoTests Sample.process).map fun r => (r.2.heap, r.2.freed.length)) =
      .ok ([5], 4) := by decide +kernel
  obtain ⟨⟨_, p⟩, hp, hfacts⟩ := Except.map_ok_iff.mp hrun
  obtain ⟨hheap, hfreed⟩ := Prod.mk.inj hfacts
  exact ⟨p, hp, hheap, hfreed, alloc_table_exact (by decide) hp⟩

end DGen
