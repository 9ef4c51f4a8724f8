/-
A run in which blocks are counted, as the other modules have it, is a run of
a process: the one in which `malloc` returns those blocks.
-/
import DGen.AllocTable

namespace DGen

open Memory StateT

namespace World

/-- No block is above the counter. -/
def Vacant (w : World) : Prop := ∀ b : Nat, w.next ≤ b → w.mem b = none

theorem Step.vacant {w w' : World} (h : w.Step w') (hv : w.Vacant) : w'.Vacant := by
  have hnext := h.next_le
  intro b hb
  have hold := hv b (Nat.le_trans hnext hb)
  cases h with
  | block bytes =>
    refine (Function.update_of_ne ?_ ..).trans hold
    exact Nat.ne_of_gt hb
  | store _ _ _ hm =>
    obtain ⟨bs, hbs, rfl⟩ := Mem.store_some hm
    refine (Function.update_of_ne ?_ ..).trans hold
    rintro rfl
    cases hold.symm.trans hbs
  | _ => exact hold

theorem Steps.vacant {w w' : World} (h : w.Steps w') (hv : w.Vacant) : w'.Vacant := by
  induction h with
  | refl => exact hv
  | tail _ h ih => exact h.vacant ih

theorem Steps.next_le {w w' : World} (h : w.Steps w') : w.next ≤ w'.next := by
  induction h with
  | refl => exact Nat.le_refl _
  | tail _ h ih => exact Nat.le_trans ih h.next_le

end World

namespace Process

/-- A state with nothing above the counter. -/
structure Counted (p : Process) : Prop where
  ok : p.toWorld.Ok
  vacant : p.Vacant
  literals : ∀ b : Nat, p.next ≤ b → p.literals b = none

/-- With the right blocks to return, `y` ends in `w`. -/
def Runs {α : Type} (y : P α) (p : Process) (a : α) (w : World) : Prop :=
  ∃ bs heap given produced, ∀ rest, y { p with blocks := bs ++ rest } = .ok (a, { p with
    toWorld := w, blocks := rest, heap := heap ++ p.heap, given := given ++ p.given, produced :=
      produced ++ p.produced })

/-- Every run of `x` is one of `y`. -/
def Follows {α : Type} (y : P α) (x : M α) : Prop :=
  ∀ ⦃p a w⦄, x p.toWorld = .ok (a, w) → p.Counted → Runs y p a w

section

variable {α β : Type} {p : Process} {w : World} {a : α}

theorem Counted.steps (h : p.Counted) (hs : p.toWorld.Steps w) {heap : List Nat} {given : List Ptr}
    {produced : List (Ptr × Nat)} :
    Counted { p with toWorld := w, heap := heap, given := given, produced := produced } :=
  ⟨hs.ok h.ok, hs.vacant h.vacant, fun b hb => h.literals b (Nat.le_trans hs.next_le hb)⟩

theorem Runs.lift {x : M α} (h : x p.toWorld = .ok (a, w)) : Runs (lift x) p a w :=
  ⟨[], [], [], [], fun _ => lift_ok_iff.mpr ⟨w, h, rfl⟩⟩

theorem Runs.pure (p : Process) (a : α) : Runs (Pure.pure a : P α) p a p.toWorld := ⟨[], [], [], [], fun _ => rfl⟩

/-- One run after another. -/
theorem Runs.bind {y : P α} {g : α → P β} {b : β} {w' : World} (h : Runs y p a w)
    (h' : ∀ heap given produced, Runs (g a) { p with toWorld := w, heap := heap, given := given, produced := produced } b w') :
    Runs (y >>= g) p b w' := by
  obtain ⟨bs, heap, given, produced, h⟩ := h
  obtain ⟨bs', heap', given', produced', h'⟩ := h' (heap ++ p.heap) (given ++ p.given) (produced ++ p.produced)
  refine ⟨bs ++ bs', heap' ++ heap, given' ++ given, produced' ++ produced, fun rest => ?_⟩
  rw [List.append_assoc, bind_of_ok (h (bs' ++ rest))]
  simpa only [List.append_assoc] using h' rest

theorem Follows.lift {x : M α} : Follows (Process.lift x) x := fun _ _ _ h _ => .lift h

theorem Follows.bind {y : P α} {x : M α} {g : α → P β} {f : α → M β} (hx : Follows y x) (hsteps : Generates x)
    (hf : ∀ a, Follows (g a) (f a)) : Follows (y >>= g) (x >>= f) := by
  intro p b w' h hp
  obtain ⟨a, w, h₁, h₂⟩ := bind_ok_iff.mp h
  exact (hx h₁ hp).bind fun _ _ _ => hf a h₂ (hp.steps (hsteps h₁ hp.ok).1)

theorem Follows.fault {f : Fault} : Follows (Process.fault f : P α) (DGen.fault f) := by
  intro p a w h
  simp at h

theorem Follows.pure : Follows (Pure.pure a : P α) (Pure.pure a : M α) := by
  intro p b w h _
  obtain ⟨rfl, rfl⟩ := pure_ok_iff.mp h
  exact .pure p a

end

variable {p : Process} {w : World}

/-- The block that is next is one `malloc` may return. -/
theorem allocate_runs {bytes n : Nat} {size : BitVec 32} (hp : p.Counted)
    (h : setAlloc ⟨p.next, 0⟩ ⟨true, size⟩ (p.addBlock (List.replicate bytes .undef)) = .ok ((), w)) :
    Runs (allocate bytes size n) p ⟨p.next, 0⟩ w := by
  refine ⟨[p.next], [p.next], [⟨p.next, 0⟩], [(⟨p.next, 0⟩, n)], fun rest => ?_⟩
  have hmalloc : malloc bytes { p with blocks := [p.next] ++ rest } = .ok (⟨p.next, 0⟩, { p with
      toWorld := p.addBlock (List.replicate bytes .undef), blocks := rest, heap := p.next :: p.heap,
      given := ⟨p.next, 0⟩ :: p.given }) := by
    have hfree : ((p.mem p.next).isNone && (p.syms p.next).isNone) = true := by
      simp [hp.vacant p.next (Nat.le_refl _), hp.ok.tree.fresh p.next (Nat.le_refl _)]
    simp only [malloc, List.singleton_append]
    rw [if_pos hfree]
    simp [taken, World.addBlock]
  exact bind_ok_iff.mpr ⟨_, _, hmalloc, bind_ok_iff.mpr ⟨(), _, lift_ok_iff.mpr ⟨w, h, rfl⟩,
    bind_ok_iff.mpr ⟨(), _, modify_ok_iff.mpr rfl, rfl⟩⟩⟩

theorem createArr_follows {len : BitVec 32} {pointedSizeof : Nat} :
    Follows (createArr len pointedSizeof) (DGen.createArr len pointedSizeof) := by
  intro p q w h hp
  unfold DGen.createArr at h
  unfold createArr
  split at h
  · simp at h
  next hlen =>
    obtain ⟨_, _, hnew, h⟩ := bind_ok_iff.mp h
    obtain ⟨rfl, rfl⟩ := newBlock_ok_iff.mp hnew
    obtain ⟨_, w', hset, h⟩ := bind_ok_iff.mp h
    obtain ⟨rfl, rfl⟩ := pure_ok_iff.mp h
    rw [if_neg hlen]
    exact allocate_runs hp hset

theorem storeMem_runs {q : Ptr} {v : Val} {u : Unit} (hlit : p.literals q.block = none)
    (hsym : p.syms q.block = none) (h : DGen.storeMem q v p.toWorld = .ok (u, w)) : Runs (storeMem q v) p u w := by
  obtain ⟨bs, heap, given, produced, hrun⟩ := Runs.lift (p := p) h
  refine ⟨bs, heap, given, produced, fun rest => ?_⟩
  rw [storeMem, if_pos (by simp [hlit, hsym])]
  exact hrun rest

theorem fillVal_follows {copy : SymId → P Ptr} {copyArr : SymId → M Ptr} (hcopy : ∀ id, Follows (copy id) (copyArr id))
    (hsteps : ∀ id, Generates (copyArr id)) {sym : SymId} : Follows (fillVal copy sym) (DGen.fillVal copyArr sym) := by
  refine .bind .lift getSym_generates fun o => ?_
  obtain ⟨name, val⟩ := o
  cases val with
  | number num => exact .bind .lift numRandGen_generates fun _ => .pure
  | char ch => exact .bind .lift charRandGen_generates fun _ => .pure
  | bool b => exact .bind .lift boolRandGen_generates fun _ => .pure
  | array type s elems => exact .bind (hcopy sym) (hsteps sym) fun _ => .pure

theorem fillElems_runs {copy : SymId → P Ptr} {copyArr : SymId → M Ptr} (hcopy : ∀ id, Follows (copy id) (copyArr id))
    (hsteps : ∀ id, Stepwise (copyArr id) World.DataPtr) {size : Nat} :
      ∀ {elems : List SymId} {data : Ptr} {p : Process}
      {w : World}, DGen.fillElems copyArr size data elems p.toWorld = .ok ((), w) → p.Counted → p.DataPtr data →
        p.literals data.block = none → Runs (fillElems copy size data elems) p () w
  | [], _, p, w, h, _, _, _ => by
    obtain ⟨-, rfl⟩ := pure_ok_iff.mp h
    exact .pure p ()
  | sym :: elems, data, p, w, h, hp, hdata, hlit => by
    obtain ⟨_, w₂, h₁, h⟩ := bind_ok_iff.mp h
    obtain ⟨v, w₁, hv, hst⟩ := bind_ok_iff.mp h₁
    obtain ⟨hs, hval⟩ := fillVal_generates hsteps hv hp.ok
    have hdata₁ := hs.dataPtr hdata
    obtain ⟨hglobal, m, hm, rfl⟩ := (storeMem_ok_iff hdata₁.1).mp hst
    have hs₂ : p.toWorld.Steps { w₁ with mem := m } := hs.tail (.store hdata₁ hglobal hval hm)
    refine .bind (.bind (fillVal_follows hcopy (fun id => (hsteps id).generates) hv hp) fun _ _ _ =>
      storeMem_runs hlit hdata₁.1 hst) fun _ _ _ => ?_
    exact fillElems_runs hcopy hsteps h (hp.steps hs₂) (hs₂.dataPtr hdata) hlit

theorem arrRandGenDepth_follows : ∀ {n : Nat} {arr : SymId},
    Follows (arrRandGenDepth n arr) (DGen.arrRandGenDepth n arr)
  | 0, _ => .fault
  | n + 1, arr => by
    refine .bind .lift getSize_generates fun size => .bind .lift getSym_generates fun o => ?_
    obtain ⟨name, val⟩ := o
    cases val with
    | array type s elems =>
      intro p q w h hp
      simp only at h ⊢
      split at h
      · simp at h
      next hsize =>
        obtain ⟨_, _, hnew, h⟩ := bind_ok_iff.mp h
        obtain ⟨rfl, rfl⟩ := newBlock_ok_iff.mp hnew
        obtain ⟨_, w₁, hset, h⟩ := bind_ok_iff.mp h
        obtain ⟨_, w₂, hfill, h⟩ := bind_ok_iff.mp h
        obtain ⟨rfl, rfl⟩ := pure_ok_iff.mp h
        rw [if_neg hsize]
        obtain ⟨hs, hdata, -⟩ := block_entered (by simp) hset hp.ok
        refine .bind (allocate_runs hp hset) fun _ _ _ => .bind (a := ()) ?_ fun _ _ _ => .pure _ _
        exact fillElems_runs (fun _ => arrRandGenDepth_follows) (fun _ => arrRandGenDepth_generates) hfill (hp.steps hs)
          hdata (hp.literals p.next (Nat.le_refl _))
    | _ => exact .fault

/-- **A run of `arr_rand_gen` with counted blocks is a run of a process.** -/
theorem arrRandGen_follows {arr : SymId} : Follows (arrRandGen arr) (DGen.arrRandGen arr) := by
  refine .bind .lift getSym_generates fun o => ?_
  obtain ⟨name, val⟩ := o
  cases val with
  | array type s elems => exact arrRandGenDepth_follows
  | _ => exact .fault

theorem getValArr_follows {arr : SymId} {idxs : List (BitVec 32)} :
    Follows (getValArr arr idxs) (DGen.getValArr arr idxs) :=
  .bind .lift getSymbolByIdxs_generates fun _ =>
    fillVal_follows (fun _ => arrRandGen_follows) fun _ => arrRandGen_generates.generates

end Process

end DGen
