/-
Copies of inputs in memory (`fill_dest`, `arr_rand_gen`): generating an
input determines it, and the value it gives represents its content, in
blocks of its own that the table has the lengths of.
-/
import DGen.Content

namespace DGen

open Memory StateT

/-! ## Representing a content -/

/-- How a symbol's value lies in memory. -/
def SymVal.chunk : SymVal → Chunk
  | .number _ => .int32
  | .char _ | .bool _ => .int8
  | .array _ _ _ => .ptr

def DeclTy.chunk (t : DeclTy) : Chunk := t.newSym.chunk

theorem SymVal.sizeof_eq (v : SymVal) : v.sizeof = v.chunk.size := by cases v <;> rfl

/-- The entry of an address in the table. -/
def World.alloc? (w : World) (p : Ptr) : Option AllocData := (w.allocatedVals.find? (·.1 == p)).map (·.2)

/-- A pointer to a block from `lo` on, below `hi`, with a value in it for each
element, and their number in the table. -/
def RepresentsArray {α : Type} (w : World) (lo hi : Nat) (elem : DeclTy) (rep : α → Val → Prop) (cs : List α)
    (v : Val) : Prop :=
  ∃ b d, v = .ptr ⟨b, 0⟩ ∧ lo ≤ b ∧ b < hi ∧ w.alloc? ⟨b, 0⟩ = some d ∧ d.size.toNat = cs.length ∧
    ∀ i c, cs[i]? = some c →
      ∃ u, w.mem.load elem.chunk ⟨b, (i * elem.chunk.size : Nat)⟩ = some u ∧ rep c u

def RepresentsChar (_ : World) (_ _ : Nat) (ch : BitVec 8) (v : Val) : Prop := v = .int8 ch

def ScalarType.Represents (w : World) (lo hi : Nat) : (s : ScalarType) → s.Value → Val → Prop
  | .int, num, v => v = .int32 num
  | .string, chs, v => RepresentsArray w lo hi ⟨.char, 0⟩ (RepresentsChar w lo hi) chs v
  | .char, ch, v => RepresentsChar w lo hi ch v
  | .bool, val, v => v = .int8 (BitVec.ofNat 8 val.toNat)

/-- A machine value stands for a content, with blocks from `lo` on, below `hi`. -/
def Represents (w : World) (lo hi : Nat) (s : ScalarType) : (n : Nat) → Content s n → Val → Prop
  | 0, c, v => s.Represents w lo hi c v
  | n + 1, cs, v => RepresentsArray w lo hi ⟨s, n⟩ (Represents w lo hi s n) cs v

/-- The blocks from `lo` on, below `hi`, are the same, and what the table has of their addresses. -/
structure SameBlocks (lo hi : Nat) (w w' : World) : Prop where
  mem : ∀ b, lo ≤ b → b < hi → w'.mem b = w.mem b
  table : ∀ p : Ptr, lo ≤ p.block → p.block < hi → w'.alloc? p = w.alloc? p

section

variable {lo lo' hi hi' : Nat} {w w' w'' : World}

theorem SameBlocks.refl (lo hi : Nat) (w : World) : SameBlocks lo hi w w := ⟨fun _ _ _ => rfl, fun _ _ _ => rfl⟩

theorem SameBlocks.trans (h : SameBlocks lo hi w w') (h' : SameBlocks lo hi w' w'') : SameBlocks lo hi w w'' :=
  ⟨fun b hlo hhi => (h'.mem b hlo hhi).trans (h.mem b hlo hhi),
    fun p hlo hhi => (h'.table p hlo hhi).trans (h.table p hlo hhi)⟩

theorem SameBlocks.mono (h : SameBlocks lo hi w w') (hlo : lo ≤ lo') (hhi : hi' ≤ hi) : SameBlocks lo' hi' w w' :=
  ⟨fun b hb hb' => h.mem b (Nat.le_trans hlo hb) (Nat.lt_of_lt_of_le hb' hhi),
    fun p hp hp' => h.table p (Nat.le_trans hlo hp) (Nat.lt_of_lt_of_le hp' hhi)⟩

/-- A value stands for the same while its blocks are the same. -/
theorem RepresentsArray.mono {α : Type} {elem : DeclTy} {rep rep' : α → Val → Prop} {cs : List α} {v : Val}
    (h : RepresentsArray w lo hi elem rep cs v) (hsame : SameBlocks lo hi w w') (hlo : lo' ≤ lo) (hhi : hi ≤ hi')
    (himp : ∀ c u, rep c u → rep' c u) : RepresentsArray w' lo' hi' elem rep' cs v := by
  obtain ⟨b, d, rfl, hb, hb', hd, hlen, helems⟩ := h
  refine ⟨b, d, rfl, Nat.le_trans hlo hb, Nat.lt_of_lt_of_le hb' hhi, (hsame.table ⟨b, 0⟩ hb hb').trans hd, hlen,
    fun i c hc => ?_⟩
  obtain ⟨u, hu, hrep⟩ := helems i c hc
  exact ⟨u, (Mem.load_congr (hsame.mem b hb hb')).trans hu, himp c u hrep⟩

theorem Represents.mono {s : ScalarType} (hsame : SameBlocks lo hi w w') (hlo : lo' ≤ lo) (hhi : hi ≤ hi') :
    ∀ {n : Nat} {c : Content s n} {v : Val}, Represents w lo hi s n c v → Represents w' lo' hi' s n c v
  | 0, c, v, h => by
    cases s with
    | int | char | bool => exact h
    | string => exact RepresentsArray.mono h hsame hlo hhi fun _ _ => id
  | n + 1, cs, v, h => RepresentsArray.mono h hsame hlo hhi fun _ _ => Represents.mono hsame hlo hhi

end

/-! ## Owning the blocks -/

/-- As `RepresentsArray`, with the blocks of one element before those of the next. -/
def OwnsArray {α : Type} (w : World) (lo hi : Nat) (elem : DeclTy) (owns : Nat → Nat → α → Val → Prop) (cs : List α)
    (v : Val) : Prop :=
  ∃ b d, ∃ cuts : Nat → Nat, v = .ptr ⟨b, 0⟩ ∧ lo ≤ b ∧ b < cuts 0 ∧ (∀ i, cuts i ≤ cuts (i + 1)) ∧
    cuts cs.length ≤ hi ∧
    w.alloc? ⟨b, 0⟩ = some d ∧ d.size.toNat = cs.length ∧ ∀ i c, cs[i]? = some c →
      ∃ u, w.mem.load elem.chunk ⟨b, (i * elem.chunk.size : Nat)⟩ = some u ∧ owns (cuts i) (cuts (i + 1)) c u

def ScalarType.Owns (w : World) (lo hi : Nat) : (s : ScalarType) → s.Value → Val → Prop
  | .int, num, v => v = .int32 num
  | .string, chs, v => OwnsArray w lo hi ⟨.char, 0⟩ (RepresentsChar w) chs v
  | .char, ch, v => RepresentsChar w lo hi ch v
  | .bool, val, v => v = .int8 (BitVec.ofNat 8 val.toNat)

/-- A machine value stands for a content, no two arrays of it in the same block. -/
def Owns (w : World) (s : ScalarType) : (n : Nat) → Nat → Nat → Content s n → Val → Prop
  | 0, lo, hi, c, v => s.Owns w lo hi c v
  | n + 1, lo, hi, cs, v => OwnsArray w lo hi ⟨s, n⟩ (Owns w s n) cs v

section

variable {lo lo' hi hi' : Nat} {w w' : World}

theorem cuts_mono {cuts : Nat → Nat} (h : ∀ i, cuts i ≤ cuts (i + 1)) {i j : Nat} (hij : i ≤ j) : cuts i ≤ cuts j :=
  monotone_nat_of_le_succ h hij

theorem OwnsArray.mono {α : Type} {elem : DeclTy} {owns owns' : Nat → Nat → α → Val → Prop} {cs : List α} {v : Val}
    (h : OwnsArray w lo hi elem owns cs v) (hsame : SameBlocks lo hi w w') (hlo : lo' ≤ lo) (hhi : hi ≤ hi')
    (himp : ∀ lo₁ hi₁ c u, lo ≤ lo₁ → hi₁ ≤ hi → owns lo₁ hi₁ c u → owns' lo₁ hi₁ c u) :
    OwnsArray w' lo' hi' elem owns' cs v := by
  obtain ⟨b, d, cuts, rfl, hb, hcut, hstep, hend, hd, hlen, helems⟩ := h
  have hbhi : b < hi := Nat.lt_of_lt_of_le hcut (Nat.le_trans (cuts_mono hstep (Nat.zero_le _)) hend)
  refine ⟨b, d, cuts, rfl, Nat.le_trans hlo hb, hcut, hstep, Nat.le_trans hend hhi,
    (hsame.table ⟨b, 0⟩ hb hbhi).trans hd, hlen, fun i c hc => ?_⟩
  obtain ⟨u, hu, howns⟩ := helems i c hc
  obtain ⟨hi, -⟩ := List.getElem?_eq_some_iff.mp hc
  refine ⟨u, (Mem.load_congr (hsame.mem b hb hbhi)).trans hu, himp _ _ c u ?_ ?_ howns⟩
  · exact Nat.le_trans hb (Nat.le_trans (Nat.le_of_lt hcut) (cuts_mono hstep (Nat.zero_le _)))
  · exact Nat.le_trans (cuts_mono hstep hi) hend

theorem Owns.mono {s : ScalarType} : ∀ {n lo lo' hi hi' : Nat} {c : Content s n} {v : Val}, Owns w s n lo hi c v →
    SameBlocks lo hi w w' → lo' ≤ lo → hi ≤ hi' → Owns w' s n lo' hi' c v
  | 0, _, _, _, _, c, v, h, hsame, hlo, hhi => by
    cases s with
    | int | char | bool => exact h
    | string => exact OwnsArray.mono h hsame hlo hhi fun _ _ _ _ _ _ => id
  | n + 1, _, _, _, _, cs, v, h, hsame, hlo, hhi => OwnsArray.mono h hsame hlo hhi fun _ _ _ _ hl hh ho =>
    ho.mono (hsame.mono hl hh) (Nat.le_refl _) (Nat.le_refl _)

theorem OwnsArray.represents {α : Type} {elem : DeclTy} {owns : Nat → Nat → α → Val → Prop} {rep : α → Val → Prop}
    {cs : List α} {v : Val} (h : OwnsArray w lo hi elem owns cs v)
    (himp : ∀ lo₁ hi₁ c u, lo ≤ lo₁ → hi₁ ≤ hi → owns lo₁ hi₁ c u → rep c u) :
      RepresentsArray w lo hi elem rep cs v := by
  obtain ⟨b, d, cuts, rfl, hb, hcut, hstep, hend, hd, hlen, helems⟩ := h
  refine ⟨b, d, rfl, hb, Nat.lt_of_lt_of_le hcut (Nat.le_trans (cuts_mono hstep (Nat.zero_le _)) hend), hd, hlen,
    fun i c hc => ?_⟩
  obtain ⟨u, hu, howns⟩ := helems i c hc
  obtain ⟨hi, -⟩ := List.getElem?_eq_some_iff.mp hc
  refine ⟨u, hu, himp _ _ c u ?_ (Nat.le_trans (cuts_mono hstep hi) hend) howns⟩
  exact Nat.le_trans hb (Nat.le_trans (Nat.le_of_lt hcut) (cuts_mono hstep (Nat.zero_le _)))

theorem Owns.represents {s : ScalarType} : ∀ {n lo hi : Nat} {c : Content s n} {v : Val}, Owns w s n lo hi c v →
    Represents w lo hi s n c v
  | 0, _, _, c, v, h => by
    cases s with
    | int | char | bool => exact h
    | string => exact OwnsArray.represents h fun _ _ _ _ _ _ => id
  | n + 1, _, _, cs, v, h => OwnsArray.represents h fun _ _ _ _ hl hh ho =>
    ho.represents.mono (.refl ..) hl hh

end

/-! ## The table -/

theorem alloc?_cons_self {w : World} {p : Ptr} {d : AllocData} {l : List (Ptr × AllocData)} :
    World.alloc? { w with allocatedVals := (p, d) :: l } p = some d := by
  simp [World.alloc?]

/-- An entry is set, and no other changes. -/
theorem setAlloc_ok_iff {p : Ptr} {d : AllocData} {u : Unit} {w w' : World} :
    setAlloc p d w = .ok (u, w') ↔ w' = { w with allocatedVals := (p, d) :: w.allocatedVals.filter (·.1 != p) } := by
  simp [setAlloc, eq_comm]

theorem setAlloc_alloc? {p q : Ptr} {d : AllocData} {w w' : World} (h : setAlloc p d w = .ok ((), w')) :
    w'.alloc? q = if q = p then some d else w.alloc? q := by
  obtain rfl := setAlloc_ok_iff.mp h
  by_cases hq : q = p
  · subst hq
    rw [if_pos rfl, alloc?_cons_self]
  · have hpq : (p == q) = false := by simp [Ne.symm hq]
    have hfilter : ∀ l : List (Ptr × AllocData), (l.filter (·.1 != p)).find? (·.1 == q) = l.find? (·.1 == q) := by
      intro l
      rw [List.find?_filter]
      congr 1
      funext x
      by_cases hx : x.1 = q <;> simp [hx, hq]
    rw [if_neg hq, World.alloc?, World.alloc?, List.find?_cons, hpq, hfilter]

/-! ## Copying -/

theorem SameBlocks.of_eq {lo hi : Nat} {w w' : World} (hmem : w'.mem = w.mem)
    (halloc : w'.allocatedVals = w.allocatedVals) :
    SameBlocks lo hi w w' :=
  ⟨fun _ _ _ => by rw [hmem], fun _ _ _ => by rw [World.alloc?, World.alloc?, halloc]⟩

theorem scalarRandGen_same {α : Type} {cls : SymVal → Option (Option α)} {put : α → SymVal} {draw : Nat → α}
    {sym : SymId} {v : α} {w w' : World} (h : scalarRandGen cls put draw sym w = .ok (v, w')) {lo hi : Nat} :
    SameBlocks lo hi w w' := by
  obtain ⟨_, -, ⟨-, rfl⟩ | ⟨-, -, rfl⟩⟩ := scalarRandGen_ok_iff.mp h
  · exact .refl ..
  · exact .of_eq rfl rfl

theorem getSize_same {arr : SymId} {size : BitVec 32} {w w' : World} (h : getSize arr w = .ok (size, w'))
    {lo hi : Nat} :
    SameBlocks lo hi w w' := by
  obtain ⟨_, _, _, _, -, ⟨-, rfl⟩ | ⟨-, -, rfl⟩⟩ := getSize_ok_iff.mp h
  · exact .refl ..
  · exact .of_eq rfl rfl

/-- A callback determines a symbol of a type and gives a value for its content,
in blocks of its own. -/
def Copies {α : Type} (copy : SymId → M Val) (t : DeclTy) (holds : (Nat → Option SymObj) → α → SymId → Prop)
    (rep : World → Nat → Nat → α → Val → Prop) : Prop :=
  ∀ {sym : SymId} {w w' : World} {v : Val}, copy sym w = .ok (v, w') → w.Ok → w.Typed t sym →
    SameBlocks 0 w.next w w' ∧ v.chunk = t.chunk ∧ ∃ c, holds w'.syms c sym ∧ rep w' w.next w'.next c v

/-- A value stands for its content in later states too, and within wider bounds. -/
def Framed {α : Type} (rep : World → Nat → Nat → α → Val → Prop) : Prop :=
  ∀ ⦃lo lo' hi hi' : Nat⦄ ⦃w w' : World⦄ ⦃c : α⦄ ⦃v : Val⦄, rep w lo hi c v → SameBlocks lo hi w w' → lo' ≤ lo →
    hi ≤ hi' → rep w' lo' hi' c v

theorem Owns.framed (s : ScalarType) (n : Nat) : Framed fun w lo hi => Owns w s n lo hi :=
  fun _ _ _ _ _ _ _ _ h hsame hlo hhi => h.mono hsame hlo hhi

/-- A store into a block changes no other. -/
theorem SameBlocks.store {w : World} {p : Ptr} {v : Val} {m : Mem} (h : w.mem.store p v = some m) {lo hi : Nat}
    (hp : p.block < lo ∨ hi ≤ p.block) : SameBlocks lo hi w { w with mem := m } := by
  obtain ⟨bs, -, rfl⟩ := Mem.store_some h
  refine ⟨fun b hlo hhi => ?_, fun _ _ _ => rfl⟩
  exact Function.update_of_ne (by omega) ..

section

variable {α : Type} {copyArr : SymId → M Ptr} {t : DeclTy} {holds : (Nat → Option SymObj) → α → SymId → Prop}
  {rep : World → Nat → Nat → α → Val → Prop}

/-- The loop of `arr_rand_gen`, `k` elements on. -/
theorem fillElems_copies (hcopy : ∀ id, Stepwise (copyArr id) World.DataPtr)
    (hel : Copies (fillVal copyArr) t holds rep)
    (hlast : Lasting holds) (hframed : Framed rep) {b : Nat} {elems : List SymId} : ∀ {k : Nat} {w w' : World},
      fillElems copyArr t.chunk.size ⟨b, (k * t.chunk.size : Nat)⟩ elems w = .ok ((), w') → w.Ok → w.DataPtr ⟨b, 0⟩ →
        (∀ e ∈ elems, w.Typed t e) →
          SameBlocks 0 b w w' ∧ SameBlocks (b + 1) w.next w w' ∧ w'.alloc? ⟨b, 0⟩ = w.alloc? ⟨b, 0⟩ ∧
          (∀ j < k, w'.mem.load t.chunk ⟨b, (j * t.chunk.size : Nat)⟩ = w.mem.load t.chunk ⟨b, (j * t.chunk.size : Nat)⟩) ∧
          ∃ cs, ∃ cuts : Nat → Nat, List.Forall₂ (holds w'.syms) cs elems ∧ cuts 0 = w.next ∧
            (∀ i, cuts i ≤ cuts (i + 1)) ∧ cuts cs.length ≤ w'.next ∧ ∀ i c, cs[i]? = some c →
              ∃ u, w'.mem.load t.chunk ⟨b, ((k + i) * t.chunk.size : Nat)⟩ = some u ∧
                rep w' (cuts i) (cuts (i + 1)) c u := by
  induction elems with
  | nil =>
    intro k w w' h _ _ _
    obtain ⟨-, rfl⟩ := pure_ok_iff.mp h
    exact ⟨.refl .., .refl .., rfl, fun _ _ => rfl, [], fun _ => w.next, .nil, rfl, fun _ => Nat.le_refl _,
      Nat.le_refl _, by simp⟩
  | cons sym elems ih =>
    intro k w w' h hok hdata htyped
    obtain ⟨_, w₂, h₁, h⟩ := bind_ok_iff.mp h
    obtain ⟨v, w₁, hv, hst⟩ := bind_ok_iff.mp h₁
    obtain ⟨htype, htypes⟩ := List.forall_mem_cons.mp htyped
    obtain ⟨hs, hval⟩ := fillVal_generates hcopy hv hok
    obtain ⟨hsame, hchunk, c, hc, hrep⟩ := hel hv hok htype
    have hdata₁ := hs.dataPtr hdata
    obtain ⟨hglobal, m, hm, rfl⟩ := (storeMem_ok_iff (by exact hdata₁.1)).mp hst
    have hs₂ : w.Steps { w₁ with mem := m } := hs.tail (.store (by exact hdata₁) hglobal hval hm)
    have hok₂ := hs₂.ok hok
    have hl := hs₂.later hok
    have hl₂ := (fillElems_steps hcopy h hok₂ (hs₂.dataPtr hdata)).later hok₂
    have hlt : b < w.next := hdata.2
    have hnext : ({ w₁ with mem := m } : World).next = w₁.next := rfl
    rw [Ptr.mul_add] at h
    obtain ⟨hbelow, habove, htable, hloads, cs, cuts, hcs, hzero, hstep, hend, hreps⟩ :=
      ih h hok₂ (hs₂.dataPtr hdata) fun e he => hl.typed (htypes e he)
    have hstore {lo hi : Nat} (hp : b < lo ∨ hi ≤ b) : SameBlocks lo hi w₁ { w₁ with mem := m } := .store hm hp
    refine ⟨(hsame.mono (Nat.le_refl _) (Nat.le_of_lt hlt)).trans ((hstore (.inr (Nat.le_refl _))).trans hbelow),
      (hsame.mono (Nat.zero_le _) (Nat.le_refl _)).trans ((hstore (.inl (Nat.lt_succ_self b))).trans
        (habove.mono (Nat.le_refl _) hl.next)), htable.trans (hsame.table ⟨b, 0⟩ (Nat.zero_le _) hlt), fun j hj => ?_,
      c :: cs, fun i => i.casesOn w.next cuts, .cons (hlast hl₂ hc) hcs, rfl, fun i => ?_, hend, fun i c' hc' => ?_⟩
    · have hbeside : ((j * t.chunk.size : Nat) : Int) + t.chunk.size ≤ (k * t.chunk.size : Nat) := by
        rw [← Nat.cast_add, ← Nat.succ_mul]
        exact_mod_cast Nat.mul_le_mul_right _ hj
      rw [hloads j (Nat.lt_succ_of_lt hj),
        Mem.load_store_of_disjoint hm (Int.natCast_nonneg _) (.inr (.inl hbeside))]
      exact Mem.load_congr (hsame.mem b (Nat.zero_le _) hlt)
    · cases i with
      | zero => exact Nat.le_trans hl.next (Nat.le_of_eq hzero.symm)
      | succ i => exact hstep i
    · cases i with
      | zero =>
        obtain rfl := Option.some.inj hc'
        refine ⟨v, ?_, hframed hrep ?_ (Nat.le_refl _) (Nat.le_of_eq hzero.symm)⟩
        · rw [Nat.add_zero, hloads k (Nat.lt_succ_self k), ← hchunk]
          exact Mem.load_store (hchunk ▸ hm)
        · exact (hstore (.inl hlt)).trans (habove.mono hlt (Nat.le_refl _))
      | succ i =>
        obtain ⟨u, hu, hrepu⟩ := hreps i c' hc'
        rw [Nat.succ_add_eq_add_succ] at hu
        exact ⟨u, hu, hrepu⟩

/-- `arr_rand_gen`, its elements being copied. -/
theorem arrRandGenDepth_copies {n : Nat} {type : ArrType}
    (hel : Copies (fillVal (arrRandGenDepth n)) type.elem holds rep) (hlast : Lasting holds) (hframed : Framed rep)
    {arr : SymId} {w w' : World} {p : Ptr} (h : arrRandGenDepth (n + 1) arr w = .ok (p, w')) (hok : w.Ok)
    (hcls : ∀ o, w.syms arr = some o → o.val.cls = .array type none []) :
    SameBlocks 0 w.next w w' ∧ ∃ cs, HoldsArray w'.syms type (holds w'.syms) cs arr ∧
      OwnsArray w' w.next w'.next type.elem (rep w') cs (.ptr p) := by
  obtain ⟨size, w₁, name, type', s, elems, w₂, hsize, ho, -, ha, rfl, hf⟩ := arrRandGenDepth_succ_ok h
  have hs₁ := (getSize_generates hsize hok).1
  have hnext := (hs₁.later hok).next
  have hsame₁ : SameBlocks 0 w.next w w₁ := getSize_same hsize
  obtain ⟨hok₁, name', elems', ho'⟩ := getSize_typed hsize hok hcls ho
  cases ho'
  -- the state in which the loop starts
  obtain ⟨hs₂, hdata, hsyms, hnext₂⟩ := block_entered (by simp) ha hok₁
  have hok₂ := hs₂.ok hok₁
  have halloc := setAlloc_alloc? (q := ⟨w₁.next, 0⟩) ha
  have hsame₂ : SameBlocks 0 w₁.next w₁ w₂ := by
    refine ⟨fun b _ hb => ?_, fun q _ hq => ?_⟩
    · obtain rfl := setAlloc_ok_iff.mp ha
      exact Function.update_of_ne (Nat.ne_of_lt hb) ..
    · rw [setAlloc_alloc? ha, if_neg fun he => by simp [he] at hq]
      rfl
  have ho₂ : w₂.syms arr = some ⟨name, .array type (some size) elems⟩ := hsyms ▸ ho
  have hzero : (⟨w₁.next, 0⟩ : Ptr) = ⟨w₁.next, (0 * type.elem.chunk.size : Nat)⟩ := by simp
  rw [SymVal.sizeof_eq, ← DeclTy.chunk, hzero] at hf
  obtain ⟨hbelow, -, htable, -, cs, cuts, hcs, hcut, hstep, hend, hreps⟩ :=
    fillElems_copies (fun _ => arrRandGenDepth_generates) hel hlast hframed
    hf hok₂ hdata fun e he => hok₂.typed_elem ho₂ he
  have hl₃ := (fillElems_steps (fun _ => arrRandGenDepth_generates) hf hok₂ hdata).later hok₂
  obtain ⟨name', ho'⟩ := hl₃.val_eq ho₂ rfl
  have hlen : size.toNat = cs.length := by
    have hsized : (elems.length : Int) = size.toInt := hok₁.tree.sized _ _ ho
    have := toNat_of_nonneg (n := size) (by omega)
    rw [hcs.length_eq]
    omega
  refine ⟨hsame₁.trans ((hsame₂.trans hbelow).mono (Nat.le_refl _) hnext), cs,
    ⟨name', size, elems, ho', hcs⟩, w₁.next,
    ⟨true, size⟩, cuts, rfl, hnext, ?_, hstep, hend, htable.trans (halloc.trans (if_pos rfl)), hlen, fun i c hc => ?_⟩
  · rw [hcut, hnext₂]
    exact Nat.lt_succ_self _
  · obtain ⟨u, hu, hrep⟩ := hreps i c hc
    rw [Nat.zero_add] at hu
    exact ⟨u, hu, hrep⟩

end

theorem RepresentsChar.framed : Framed RepresentsChar := fun _ _ _ _ _ _ _ _ h _ _ _ => h

theorem fillVal_copies_char {copyArr : SymId → M Ptr} :
    Copies (fillVal copyArr) ⟨.char, 0⟩ HoldsChar RepresentsChar := by
  intro sym w w' v h _ ht
  obtain ⟨⟨name, val⟩, _, hget, h⟩ := bind_ok_iff.mp h
  obtain ⟨ho, rfl⟩ := getSym_ok_iff.mp hget
  obtain ⟨ch, rfl⟩ := cls_eq_char (ht.2 _ ho)
  obtain ⟨ch, _, hch, h⟩ := bind_ok_iff.mp h
  obtain ⟨rfl, rfl⟩ := pure_ok_iff.mp h
  exact ⟨scalarRandGen_same hch, rfl, ch, charRandGen_holds hch, rfl⟩

theorem HoldsChar.lasting : Lasting HoldsChar := fun _ _ _ _ hl h => h.later hl

/-- `fill_dest` determines a symbol, and what it copies stands for its content. -/
theorem fillVal_depth_copies {s : ScalarType} {m : Nat} : ∀ {n : Nat}, Copies (fillVal (arrRandGenDepth m)) ⟨s, n⟩
    (fun syms => Holds syms s n) fun w lo hi => Owns w s n lo hi := by
  have hby : ∀ {m : Nat}, (∀ k, m = k + 1 → ∀ {n : Nat}, Copies (fillVal (arrRandGenDepth k)) ⟨s, n⟩
      (fun syms => Holds syms s n) fun w lo hi => Owns w s n lo hi) → ∀ {n : Nat},
      Copies (fillVal (arrRandGenDepth m)) ⟨s, n⟩ (fun syms => Holds syms s n) fun w lo hi => Owns w s n lo hi := by
    intro m hel n sym w w' v h hok ht
    obtain ⟨⟨name, val⟩, _, hget, h'⟩ := bind_ok_iff.mp h
    obtain ⟨ho, rfl⟩ := getSym_ok_iff.mp hget
    have hcls := ht.2 _ ho
    cases n with
    | zero =>
      cases s with
      | int =>
        obtain ⟨num, rfl⟩ := cls_eq_number hcls
        obtain ⟨num, _, hnum, h'⟩ := bind_ok_iff.mp h'
        obtain ⟨rfl, rfl⟩ := pure_ok_iff.mp h'
        exact ⟨scalarRandGen_same hnum, rfl, num, numRandGen_holds hnum, rfl⟩
      | char => exact fillVal_copies_char h hok ht
      | bool =>
        obtain ⟨b, rfl⟩ := cls_eq_bool hcls
        obtain ⟨b, _, hb, h'⟩ := bind_ok_iff.mp h'
        obtain ⟨rfl, rfl⟩ := pure_ok_iff.mp h'
        obtain ⟨val, name', rfl, hval⟩ := boolRandGen_holds hb
        obtain ⟨_, _, hscalar, hpure⟩ := bind_ok_iff.mp hb
        obtain ⟨-, rfl⟩ := pure_ok_iff.mp hpure
        exact ⟨scalarRandGen_same hscalar, rfl, val, ⟨name', hval⟩, rfl⟩
      | string =>
        obtain ⟨size, elems, rfl⟩ := cls_eq_array hcls
        obtain ⟨p, _, hp, h'⟩ := bind_ok_iff.mp h'
        obtain ⟨rfl, rfl⟩ := pure_ok_iff.mp h'
        cases m with
        | zero => simp [arrRandGenDepth] at hp
        | succ m =>
          obtain ⟨hsame, chs, hholds, hrep⟩ := @arrRandGenDepth_copies _ _ _ m .string fillVal_copies_char
            HoldsChar.lasting RepresentsChar.framed _ _ _ _ hp hok ht.2
          exact ⟨hsame, rfl, chs, hholds, hrep⟩
    | succ n =>
      rw [DeclTy.newSym_succ] at hcls
      obtain ⟨size, elems, rfl⟩ := cls_eq_array hcls
      obtain ⟨p, _, hp, h'⟩ := bind_ok_iff.mp h'
      obtain ⟨rfl, rfl⟩ := pure_ok_iff.mp h'
      cases m with
      | zero => simp [arrRandGenDepth] at hp
      | succ m =>
        obtain ⟨hsame, cs, hholds, hrep⟩ := @arrRandGenDepth_copies _ _ _ m (.arr ⟨s, n⟩) (hel m rfl)
          (Holds.lasting s n) (Owns.framed s n) _ _ _ _ hp hok fun o ho => by rw [ht.2 o ho, DeclTy.newSym_succ]
        exact ⟨hsame, by rw [DeclTy.chunk, DeclTy.newSym_succ]; rfl, cs, hholds, hrep⟩
  induction m with
  | zero => exact hby fun k hk => by cases hk
  | succ m ih => exact hby fun k hk => by cases hk; exact ih

theorem arrRandGen_depth (arr : SymId) (w : World) : ∃ m, arrRandGen arr w = arrRandGenDepth m arr w := by
  cases ho : w.syms arr with
  | none =>
    have hget : getSym arr w = .error .undefined := by rw [getSym, ho]
    refine ⟨0, ?_⟩
    rw [arrRandGen, arrRandGenDepth]
    exact Except.bind_error_iff.mpr (.inl hget)
  | some o =>
    have hget : getSym arr w = .ok (o, w) := getSym_ok_iff.mpr ⟨ho, rfl⟩
    obtain ⟨name, val⟩ := o
    rw [arrRandGen, bind_of_ok hget]
    cases val with
    | array type s elems => exact ⟨type.toDecl.depth, rfl⟩
    | _ => exact ⟨0, rfl⟩

theorem fillVal_congr {copyArr copyArr' : SymId → M Ptr} {sym : SymId} {w : World}
    (h : copyArr sym w = copyArr' sym w) : fillVal copyArr sym w = fillVal copyArr' sym w := by
  cases ho : w.syms sym with
  | none =>
    have hget : getSym sym w = .error .undefined := by rw [getSym, ho]
    rw [fillVal, fillVal]
    exact (Except.bind_error_iff.mpr (.inl hget)).trans (Except.bind_error_iff.mpr (.inl hget)).symm
  | some o =>
    have hget : getSym sym w = .ok (o, w) := getSym_ok_iff.mpr ⟨ho, rfl⟩
    obtain ⟨name, val⟩ := o
    rw [fillVal, fillVal, bind_of_ok hget, bind_of_ok hget]
    cases val with
    | array type s elems => simp only [Bind.bind, StateT.bind, h]
    | _ => rfl

/-- The callback for a whole input determines it, and gives a value for its content. -/
theorem fillVal_owns {s : ScalarType} {n : Nat} : Copies (fillVal arrRandGen) ⟨s, n⟩ (fun syms => Holds syms s n)
    fun w lo hi => Owns w s n lo hi := by
  intro sym w w' v h hok ht
  obtain ⟨m, hm⟩ := arrRandGen_depth sym w
  rw [fillVal_congr hm] at h
  exact fillVal_depth_copies h hok ht

theorem fillVal_copies {s : ScalarType} {n : Nat} : Copies (fillVal arrRandGen) ⟨s, n⟩ (fun syms => Holds syms s n)
    fun w lo hi => Represents w lo hi s n := by
  intro sym w w' v h hok ht
  obtain ⟨hsame, hchunk, c, hc, howns⟩ := fillVal_owns h hok ht
  exact ⟨hsame, hchunk, c, hc, howns.represents⟩

end DGen
