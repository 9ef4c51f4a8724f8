/-
Three places say where the elements of an array lie: the copy goes by
`get_sizeof` of its symbols, `gather_rec` by that of a symbol it makes for the
dropped type, and the program's code by the pointee of a machine type. They
say the same, so that what the copy writes is what both of the others read
(`copy_faithful`).
-/
import DGen.Arrays
import DGen.Encoders

namespace DGen

open Memory StateT

/-! ## Reading by a layout -/

/-- Where the elements of an array of a type are: what is read for one, and the bytes from one to the next. -/
abbrev Layout := DeclTy → Option (Chunk × Nat)

/-- What `gather_rec` goes by: the symbol that `create_symbol` makes for the dropped type. -/
def gatherLayout : Layout := fun t => t.elem?.map fun e => (e.newSym.chunk, e.newSym.sizeof)

/-- What `get_address` goes by: the pointee of the array's machine type. -/
def codeLayout : Layout := fun t =>
  match mapTypeToLlvmType t.toTy with
  | .ok (.ptr elem) => elem.chunk.map fun c => (c, elem.size)
  | _ => none

section

variable (w : World) (lay : Layout)

/-- The value in an array's memory at an index. -/
def elemVal? (t : DeclTy) (p : Ptr) (i : Nat) : Option Val :=
  (lay t).bind fun e => w.mem.load e.1 (p.add (i * e.2 : Nat))

/-- As many values as the table has for the address, each decoded. -/
def decodeArray {α : Type} (t : DeclTy) (dec : Val → Option α) : Val → Option (List α)
  | .ptr p => (w.alloc? p).bind fun d => (List.range d.size.toNat).mapM fun i => (elemVal? w lay t p i).bind dec
  | _ => none

def decodeChar : Val → Option (BitVec 8)
  | .int8 ch => some ch
  | _ => none

def ScalarType.decode : (s : ScalarType) → Val → Option s.Value
  | .int, .int32 num => some num
  | .string, v => decodeArray w lay ⟨.string, 0⟩ decodeChar v
  | .char, v => decodeChar v
  | .bool, .int8 b => some (b != 0)
  | _, _ => none

/-- The content that memory has for a value of a type. -/
def decode (s : ScalarType) : (n : Nat) → Val → Option (Content s n)
  | 0, v => s.decode w lay v
  | n + 1, v => decodeArray w lay ⟨s, n + 1⟩ (decode s n) v

/-- An array in memory: its type, where it starts, and how many elements it has. -/
abbrev Extent := DeclTy × Ptr × Nat

/-- The arrays that a value of an array type leads to, itself the first. -/
def reachedArray (t : DeclTy) (reached : Val → List Extent) : Val → List Extent
  | .ptr p =>
    let n := ((w.alloc? p).map fun d => d.size.toNat).getD 0
    (t, p, n) :: (List.range n).flatMap fun i => ((elemVal? w lay t p i).map reached).getD []
  | _ => []

def ScalarType.reached : ScalarType → Val → List Extent
  | .string, v => reachedArray w lay ⟨.string, 0⟩ (fun _ => []) v
  | _, _ => []

/-- The arrays that a value of a type leads to. -/
def reached (s : ScalarType) : Nat → Val → List Extent
  | 0, v => s.reached w lay v
  | n + 1, v => reachedArray w lay ⟨s, n + 1⟩ (reached s n) v

def Extent.block (a : Extent) : Nat := a.2.1.block

/-- The addresses of the bytes of the elements, one element after the other. -/
def Extent.bytes (a : Extent) : List Ptr :=
  match lay a.1 with
  | some (c, stride) => (List.range a.2.2).flatMap fun i => (List.range c.size).map fun k =>
      a.2.1.add (i * stride + k : Nat)
  | none => []

end

/-! ## The layouts agree -/

/-- The machine type of an element, as `get_sizeof` has it. -/
theorem DeclTy.llvm_layout (e : DeclTy) : e.llvm.chunk = some e.chunk ∧ e.llvm.size = e.newSym.sizeof := by
  obtain ⟨s, n⟩ := e
  cases n with
  | zero => cases s <;> exact ⟨rfl, rfl⟩
  | succ n =>
    rw [DeclTy.chunk, DeclTy.newSym_succ, DeclTy.llvm, Function.iterate_succ_apply']
    exact ⟨rfl, rfl⟩

/-- **The program's code looks for elements where `gather_rec` does.** -/
theorem codeLayout_eq : codeLayout = gatherLayout := by
  funext t
  rw [codeLayout, gatherLayout, mapTypeToLlvmType_toTy]
  cases he : t.elem? with
  | some e =>
    obtain ⟨hchunk, hsize⟩ := e.llvm_layout
    rw [DeclTy.llvm_of_elem? he]
    dsimp only
    rw [hchunk, hsize]
    rfl
  | none =>
    match t, he with
    | ⟨.int, 0⟩, _ | ⟨.char, 0⟩, _ | ⟨.bool, 0⟩, _ => rfl
    | ⟨.string, 0⟩, he | ⟨_, _ + 1⟩, he => cases he

/-- And both look where `fill_dest` has put them. -/
theorem gatherLayout_of_elem? {t e : DeclTy} (h : t.elem? = some e) :
    gatherLayout t = some (e.chunk, e.chunk.size) := by
  rw [gatherLayout, h, Option.map_some, SymVal.sizeof_eq]
  rfl

/-! ## What is read -/

section

variable {w : World} {lo hi : Nat} {α : Type}

theorem elemVal?_of_elem? {t e : DeclTy} (h : t.elem? = some e) (p : Ptr) (i : Nat) :
    elemVal? w gatherLayout t p i = w.mem.load e.chunk (p.add (i * e.chunk.size : Nat)) := by
  rw [elemVal?, gatherLayout_of_elem? h, Option.bind_some]

theorem RepresentsArray.decodes {t e : DeclTy} (he : t.elem? = some e) {rep : α → Val → Prop} {dec : Val → Option α}
    {cs : List α} {v : Val} (h : RepresentsArray w lo hi e rep cs v) (hdec : ∀ c u, rep c u → dec u = some c) :
    decodeArray w gatherLayout t dec v = some cs := by
  obtain ⟨b, d, rfl, -, -, hd, hlen, helems⟩ := h
  rw [decodeArray, hd, Option.bind_some, hlen]
  refine Option.mapM_range fun i c hc => ?_
  obtain ⟨u, hu, hrep⟩ := helems i c hc
  rw [elemVal?_of_elem? he, Ptr.add, zero_add, hu, Option.bind_some]
  exact hdec c u hrep

theorem Represents.decodes {s : ScalarType} : ∀ {n : Nat} {c : Content s n} {v : Val}, Represents w lo hi s n c v →
    decode w gatherLayout s n v = some c
  | 0, c, v, h => by
    cases s with
    | int | char =>
      obtain rfl := h
      rfl
    | bool =>
      obtain rfl := h
      exact congrArg some (ofNat_toNat_ne_zero c)
    | string =>
      refine RepresentsArray.decodes rfl h fun ch u hu => ?_
      obtain rfl := hu
      rfl
  | n + 1, cs, v, h => RepresentsArray.decodes rfl h fun _ _ => Represents.decodes

/-- The arrays of a value lie in blocks of their own, between the bounds. -/
theorem OwnsArray.reached {t e : DeclTy} (he : t.elem? = some e) {owns : Nat → Nat → α → Val → Prop}
    {sub : Val → List Extent} {cs : List α} {v : Val} (h : OwnsArray w lo hi e owns cs v)
    (hsub : ∀ lo₁ hi₁ c u, owns lo₁ hi₁ c u →
      ((sub u).map Extent.block).Nodup ∧ ∀ a ∈ sub u, lo₁ ≤ a.block ∧ a.block < hi₁) :
    ((reachedArray w gatherLayout t sub v).map Extent.block).Nodup ∧
      ∀ a ∈ reachedArray w gatherLayout t sub v, lo ≤ a.block ∧ a.block < hi := by
  obtain ⟨b, d, cuts, rfl, hb, hcut, hstep, hend, hd, hlen, helems⟩ := h
  -- the arrays below each element are between two cuts
  have hbelow : ∀ i ∈ List.range cs.length, ∀ as, ((elemVal? w gatherLayout t ⟨b, 0⟩ i).map sub).getD [] = as →
      (as.map Extent.block).Nodup ∧ ∀ a ∈ as, cuts i ≤ a.block ∧ a.block < cuts (i + 1) := by
    rintro i hi _ rfl
    have hc := List.getElem?_eq_getElem (List.mem_range.mp hi)
    obtain ⟨u, hu, howns⟩ := helems i _ hc
    rw [elemVal?_of_elem? he, Ptr.add, zero_add, hu]
    exact hsub _ _ _ u howns
  have hcount : ((w.alloc? ⟨b, 0⟩).map fun d => d.size.toNat).getD 0 = cs.length := by
    rw [hd]
    exact hlen
  rw [reachedArray, hcount]
  constructor
  · rw [List.map_cons, List.nodup_cons, List.map_flatMap, List.nodup_flatMap]
    refine ⟨fun hmem => ?_, fun i hi => (hbelow i hi _ rfl).1,
      List.pairwise_lt_range.imp_of_mem fun {i j} hi hj hij => ?_⟩
    · obtain ⟨i, hi, hmem⟩ := List.mem_flatMap.mp hmem
      obtain ⟨a, ha, hab⟩ := List.mem_map.mp hmem
      have hlo := ((hbelow i hi _ rfl).2 a ha).1
      have hle := Nat.le_trans (cuts_mono hstep (Nat.zero_le i)) hlo
      exact absurd (Nat.lt_of_lt_of_le hcut hle) (hab ▸ Nat.lt_irrefl _)
    · intro x hx hx'
      obtain ⟨a, ha, rfl⟩ := List.mem_map.mp hx
      obtain ⟨a', ha', heq⟩ := List.mem_map.mp hx'
      have hbefore := ((hbelow _ hi _ rfl).2 a ha).2
      have hafter := ((hbelow _ hj _ rfl).2 a' ha').1
      have hcuts : cuts (i + 1) ≤ cuts j := cuts_mono hstep hij
      omega
  · intro a ha
    obtain rfl | ha := List.mem_cons.mp ha
    · exact ⟨hb, Nat.lt_of_lt_of_le hcut (Nat.le_trans (cuts_mono hstep (Nat.zero_le _)) hend)⟩
    · obtain ⟨i, hi, ha⟩ := List.mem_flatMap.mp ha
      obtain ⟨hlo, hhi⟩ := (hbelow i hi _ rfl).2 a ha
      have hfirst := cuts_mono hstep (Nat.zero_le i)
      have hlast : cuts (i + 1) ≤ cuts cs.length := cuts_mono hstep (List.mem_range.mp hi)
      exact ⟨by omega, by omega⟩

theorem Owns.reached {s : ScalarType} : ∀ {n lo hi : Nat} {c : Content s n} {v : Val}, Owns w s n lo hi c v →
    ((DGen.reached w gatherLayout s n v).map Extent.block).Nodup ∧
      ∀ a ∈ DGen.reached w gatherLayout s n v, lo ≤ a.block ∧ a.block < hi
  | 0, _, _, c, v, h => by
    cases s with
    | int | char | bool => exact ⟨List.nodup_nil, fun _ ha => by cases ha⟩
    | string => exact OwnsArray.reached rfl h fun _ _ _ _ _ => ⟨List.nodup_nil, fun _ ha => by cases ha⟩
  | n + 1, _, _, cs, v, h => OwnsArray.reached rfl h fun _ _ _ _ => Owns.reached

/-- The elements of one array have bytes of their own. -/
theorem Extent.bytes_nodup (a : Extent) : (a.bytes gatherLayout).Nodup ∧
    ∀ q ∈ a.bytes gatherLayout, q.block = a.block := by
  obtain ⟨t, p, n⟩ := a
  cases he : t.elem? with
  | none =>
    have hnone : gatherLayout t = none := by rw [gatherLayout, he]; rfl
    simp [Extent.bytes, hnone]
  | some e =>
    rw [Extent.bytes, gatherLayout_of_elem? he]
    dsimp only
    constructor
    · have hinj : ∀ {i j k l : Nat}, p.add (i * e.chunk.size + k : Nat) = p.add (j * e.chunk.size + l : Nat) →
          i * e.chunk.size + k = j * e.chunk.size + l := by
        intro i j k l h
        have := congrArg Ptr.offset h
        simp only [Ptr.add] at this
        omega
      refine List.nodup_flatMap.mpr ⟨fun i _ => List.nodup_range.map fun k l h => ?_,
        List.pairwise_lt_range.imp fun {i j} hij q hq hq' => ?_⟩
      · exact Nat.add_left_cancel (hinj h)
      · obtain ⟨k, hk, rfl⟩ := List.mem_map.mp hq
        obtain ⟨l, -, heq⟩ := List.mem_map.mp hq'
        have hmul := Nat.mul_le_mul_right e.chunk.size (Nat.succ_le_of_lt hij)
        have := hinj heq
        have := List.mem_range.mp hk
        rw [Nat.succ_mul] at hmul
        omega
    · intro q hq
      obtain ⟨i, -, hq⟩ := List.mem_flatMap.mp hq
      obtain ⟨k, -, rfl⟩ := List.mem_map.mp hq
      rfl

/-- Where the blocks differ, no byte belongs to two elements. -/
theorem nodup_bytes {as : List Extent} (h : (as.map Extent.block).Nodup) :
    (as.flatMap (Extent.bytes gatherLayout)).Nodup := by
  refine List.nodup_flatMap.mpr ⟨fun a _ => a.bytes_nodup.1, (List.pairwise_map.mp h).imp fun {a b} hab q hq hq' => ?_⟩
  exact hab ((a.bytes_nodup.2 q hq).symm.trans (b.bytes_nodup.2 q hq'))

end

/-! ## Sizes -/

/-- The arrays that are there below a symbol, and it, take less than 2^31 bytes each. -/
def World.Fits (w : World) (id : SymId) : Prop :=
  ∀ path sub name type (n : BitVec 32) elems, symAt w.syms id path = some sub →
    w.syms sub = some ⟨name, .array type (some n) elems⟩ → n.toInt * type.elem.newSym.sizeof < 2 ^ 31

/-- A length that was not there is a small one. -/
def World.Draws (w w' : World) : Prop :=
  ∀ (j : Nat) name type (n : BitVec 32) elems, w'.syms j = some ⟨name, .array type (some n) elems⟩ →
    (∃ name, w.syms j = some ⟨name, .array type (some n) elems⟩) ∨ n.toInt < 10

section

variable {w w' w'' : World}

theorem World.Draws.of_syms (h : w'.syms = w.syms) : w.Draws w' :=
  fun j name _ _ _ hj => .inl ⟨name, (congrFun h j).symm.trans hj⟩

theorem World.Draws.trans (h : w.Draws w') (h' : w'.Draws w'') : w.Draws w'' := by
  intro j name type n elems hj
  obtain ⟨name', hj'⟩ | hn := h' j name type n elems hj
  · exact h j name' type n elems hj'
  · exact .inr hn

theorem SymVal.sizeof_le (v : SymVal) : v.sizeof ≤ 8 := by cases v <;> simp [sizeof]

/-- What was there has been at its place. -/
theorem Later.symAt_back (h : Later w w') (hok : w.Ok) {path : List (BitVec 32)} : ∀ {id e : SymId},
    DGen.symAt w'.syms id path = some e → e < w.next → DGen.symAt w.syms id path = some e := by
  induction path using List.reverseRecOn with
  | nil => exact fun he _ => he
  | append_singleton path i ih =>
    intro id e he hlt
    obtain ⟨c, hc, hi, hce⟩ := symAt_snoc_iff.mp he
    obtain ⟨o', ho', hmem⟩ := mem_elemsOf_iff.mp (List.mem_of_getElem? hce)
    cases ho : w.syms c with
    | none => exact absurd hlt (Nat.not_lt.mpr ((h.new c o' ho ho').2 e hmem))
    | some o =>
      obtain ⟨o'', ho'', -, hdet, hundet⟩ := h.kept c o ho
      cases ho''.symm.trans ho'
      cases hd : o.val.determined with
      | false => exact absurd hlt (Nat.not_lt.mpr (hundet hd e hmem))
      | true =>
        rw [elemsOf_of_some ho', hdet hd, ← elemsOf_of_some ho] at hce
        exact symAt_snoc_iff.mpr ⟨c, ih hc (hok.tree.lt_next ho), hi, hce⟩

theorem World.Fits.later {id : SymId} (h : w.Fits id) (hok : w.Ok) (hl : Later w w') (hd : w.Draws w') :
    w'.Fits id := by
  intro path sub name type n elems hat hsub
  obtain ⟨name', hsub'⟩ | hn := hd sub name type n elems hsub
  · exact h path sub name' type n elems (hl.symAt_back hok hat (hok.tree.lt_next hsub')) hsub'
  · have hle : (type.elem.newSym.sizeof : Int) ≤ 8 := by exact_mod_cast type.elem.newSym.sizeof_le
    by_cases hneg : n.toInt < 0
    · have := Int.mul_nonpos_of_nonpos_of_nonneg (Int.le_of_lt hneg) (Int.natCast_nonneg type.elem.newSym.sizeof)
      omega
    · have := Int.mul_le_mul (Int.le_of_lt hn) hle (Int.natCast_nonneg _) (by decide)
      omega

/-- Below an element is less than below its array. -/
theorem World.Fits.elem {id e : SymId} (h : w.Fits id) (hok : w.Ok) {name : String} {type : ArrType} {size : BitVec 32}
    {elems : List SymId} (ho : w.syms id = some ⟨name, .array type (some size) elems⟩) (he : e ∈ elems) : w.Fits e := by
  intro path sub name' type' n elems' hat hsub
  obtain ⟨i, hi⟩ := List.getElem?_of_mem he
  have hsized : (elems.length : Int) = size.toInt := hok.tree.sized _ _ ho
  obtain ⟨hlt, -⟩ := List.getElem?_eq_some_iff.mp hi
  have hnat : (BitVec.ofNat 32 i).toNat = i := by
    have := size.toInt_lt
    rw [BitVec.toNat_ofNat]
    omega
  have hidx : 0 ≤ (BitVec.ofNat 32 i).toInt := by
    have := size.toInt_lt
    rw [BitVec.toInt_eq_toNat_of_lt (by omega)]
    omega
  refine h (BitVec.ofNat 32 i :: path) sub name' type' n elems' (symAt_cons_iff.mpr ⟨e, hidx, ?_, hat⟩) hsub
  rw [elemsOf_of_some ho, hnat]
  exact hi

end

/-- Every run of `x` draws its lengths. -/
def Drawing {α : Type} (x : M α) : Prop := ∀ ⦃w a w'⦄, x w = .ok (a, w') → w.Ok → w.Draws w'

namespace Drawing

variable {α β : Type} {x : M α}

theorem bind {f : α → M β} {post : World → α → Prop} (hx : Drawing x) (hs : Stepwise x post) (hf : ∀ a, Drawing (f a)) :
    Drawing (x >>= f) := by
  intro w b w' h hok
  obtain ⟨a, w₁, h₁, h₂⟩ := bind_ok_iff.mp h
  exact (hx h₁ hok).trans (hf a h₂ ((hs h₁ hok).1.ok hok))

/-- A result made of `x`'s. -/
theorem map {g : α → β} (hx : Drawing x) : Drawing (do return g (← x)) := by
  intro w b w' h hok
  obtain ⟨a, _, hrun, hpure⟩ := bind_ok_iff.mp h
  obtain ⟨-, rfl⟩ := pure_ok_iff.mp hpure
  exact hx hrun hok

theorem of_syms (h : ∀ {w a w'}, x w = .ok (a, w') → w'.syms = w.syms) : Drawing x := fun _ _ _ hx _ => .of_syms (h hx)

theorem pure {a : α} : Drawing (pure a : M α) := .of_syms fun h => by
  obtain ⟨-, rfl⟩ := pure_ok_iff.mp h
  rfl

theorem fault {e : Fault} : Drawing (DGen.fault e : M α) := .of_syms fun h => by simp at h

theorem getSym {id : SymId} : Drawing (getSym id) := .of_syms fun h => by
  obtain ⟨-, rfl⟩ := getSym_ok_iff.mp h
  rfl

theorem scalarRandGen {cls : SymVal → Option (Option α)} {put : α → SymVal} {draw : Nat → α} {sym : SymId}
    (hput : ∀ v, (put v).isArray = false) : Drawing (scalarRandGen cls put draw sym) := by
  intro w v w' h _
  obtain ⟨o, ho, ⟨-, rfl⟩ | ⟨-, rfl, rfl⟩⟩ := scalarRandGen_ok_iff.mp h
  · exact .of_syms rfl
  · intro j name type n elems hj
    by_cases hjs : j = sym
    · subst hjs
      rw [World.setSym_self] at hj
      have hval : put (draw (w.rand 0)) = .array type (some n) elems := congrArg SymObj.val (Option.some.inj hj)
      have hscalar := hput (draw (w.rand 0))
      rw [hval] at hscalar
      cases hscalar
    · exact .inl ⟨name, (World.setSym_of_ne _ _ hjs).symm.trans hj⟩

theorem getSize {arr : SymId} : Drawing (getSize arr) := by
  intro w size w' h _
  obtain ⟨name, type, s, elems, ho, ⟨-, rfl⟩ | ⟨-, rfl, rfl⟩⟩ := getSize_ok_iff.mp h
  · exact .of_syms rfl
  · intro j name' type' n elems' hj
    obtain ⟨-, hnew⟩ | ⟨-, -, hnew⟩ | ⟨-, hold⟩ := World.rebuild_some hj
    · cases hnew
      have := Nat.mod_lt (w.rand 0) (by decide : 0 < 10)
      refine .inr ?_
      rw [BitVec.toInt_eq_toNat_of_lt (by rw [BitVec.toNat_ofNat]; omega), BitVec.toNat_ofNat]
      omega
    · have hval := congrArg SymObj.val hnew
      obtain h | h | h | ⟨_, h⟩ := type.elem.newSym_cases <;> cases h.symm.trans hval.symm
    · exact .inl ⟨name', hold⟩

theorem fillVal {copyArr : SymId → M Ptr} (hcopy : ∀ id, Drawing (copyArr id)) {sym : SymId} :
    Drawing (fillVal copyArr sym) := by
  refine getSym.bind getSym_generates fun o => ?_
  split
  · exact (scalarRandGen fun _ => rfl).map
  · exact (scalarRandGen fun _ => rfl).map.map
  · exact (scalarRandGen fun _ => rfl).map
  · exact (hcopy sym).map

theorem fillElems {copyArr : SymId → M Ptr} (hcopy : ∀ id, Drawing (copyArr id))
    (hgen : ∀ id, Stepwise (copyArr id) World.DataPtr) {size : Nat} :
      ∀ {elems : List SymId} {data : Ptr} {w w' : World},
      fillElems copyArr size data elems w = .ok ((), w') → w.Ok → w.DataPtr data → w.Draws w'
  | [], _, _, _, h, _, _ => by
    obtain ⟨-, rfl⟩ := pure_ok_iff.mp h
    exact .of_syms rfl
  | sym :: elems, data, w, w', h, hok, hdata => by
    obtain ⟨_, w₂, hfill, hrest⟩ := bind_ok_iff.mp h
    obtain ⟨v, w₁, hv, hst⟩ := bind_ok_iff.mp hfill
    obtain ⟨hs, hval⟩ := fillVal_generates hgen hv hok
    have hdata₁ := hs.dataPtr hdata
    obtain ⟨hglobal, m, hm, rfl⟩ := (storeMem_ok_iff hdata₁.1).mp hst
    have hs₂ : w.Steps { w₁ with mem := m } := hs.tail (.store hdata₁ hglobal hval hm)
    have hd₁ : w.Draws { w₁ with mem := m } := (fillVal hcopy hv hok).trans (.of_syms rfl)
    exact hd₁.trans (fillElems hcopy hgen hrest (hs₂.ok hok) (hs₂.dataPtr hdata))

theorem arrRandGenDepth : ∀ {n : Nat} {arr : SymId}, Drawing (arrRandGenDepth n arr)
  | 0, _ => fault
  | n + 1, arr => by
    intro w p w' h hok
    obtain ⟨size, w₁, name, type, s, elems, w₂, hsize, -, -, ha, rfl, hf⟩ := arrRandGenDepth_succ_ok h
    have hok₁ := (getSize_generates hsize hok).1.ok hok
    obtain ⟨hs₂, hdata, hsyms, -⟩ := block_entered (by simp) ha hok₁
    have hloop := fillElems (fun _ => arrRandGenDepth) (fun _ => arrRandGenDepth_generates) hf (hs₂.ok hok₁) hdata
    exact (getSize hsize hok).trans (World.Draws.trans (.of_syms hsyms) hloop)

end Drawing

/-! ## Copying returns -/

section

variable {α : Type} {copyArr : SymId → M Ptr} {e : DeclTy} {holds : (Nat → Option SymObj) → α → SymId → Prop}
  {rep : World → Nat → Nat → α → Val → Prop}

/-- The loop of `arr_rand_gen` has room for its elements. -/
theorem fillElems_returns (hgen : ∀ id, Stepwise (copyArr id) World.DataPtr) (hdraw : ∀ id, Drawing (copyArr id))
    (hel : Copies (fillVal copyArr) e holds rep)
    (hret : ∀ {w : World} {id : SymId}, w.Ok → w.Alive → w.Has e id → w.Fits id →
      ∃ v w', fillVal copyArr id w = .ok (v, w'))
    {b : Nat} {elems : List SymId} : ∀ {k : Nat} {w : World} {bs : List MByte}, w.Ok → w.Alive → w.DataPtr ⟨b, 0⟩ →
      ¬w.IsGlobal b → w.mem b = some bs → (k + elems.length) * e.chunk.size ≤ bs.length → (∀ c ∈ elems, w.Has e c ∧ w.Fits c) →
        ∃ w', fillElems copyArr e.chunk.size ⟨b, (k * e.chunk.size : Nat)⟩ elems w = .ok ((), w') := by
  induction elems with
  | nil => exact fun {k w bs} _ _ _ _ _ _ _ => ⟨w, rfl⟩
  | cons sym elems ih =>
    intro k w bs hok halive hdata hown hbs hroom hall
    obtain ⟨⟨hhas, hfits⟩, hrest⟩ := List.forall_mem_cons.mp hall
    obtain ⟨v, w₁, hv⟩ := hret hok halive hhas hfits
    obtain ⟨hs, hval⟩ := fillVal_generates hgen hv hok
    obtain ⟨hsame, hchunk, -⟩ := hel hv hok (hhas.typed hok)
    have hdata₁ := hs.dataPtr hdata
    have hown₁ : ¬w₁.IsGlobal b := fun hb => hown (hs.sameStatic.isGlobal hb)
    have hbs₁ : w₁.mem b = some bs := (hsame.mem b (Nat.zero_le _) hdata.2).trans hbs
    rw [List.length_cons] at hroom
    have hin : k * e.chunk.size + v.chunk.size ≤ bs.length := by
      rw [hchunk, ← Nat.succ_mul]
      exact Nat.le_trans (Nat.mul_le_mul_right _ (by omega)) hroom
    obtain ⟨m, hm, bs', hbs', hlen⟩ : ∃ m, w₁.mem.store ⟨b, (k * e.chunk.size : Nat)⟩ v = some m ∧
        ∃ bs', m b = some bs' ∧ bs'.length = bs.length :=
      ⟨_, Mem.store_of_bounds hbs₁ (Int.natCast_nonneg _) hin, _, Function.update_self ..,
        Mem.length_splice (by rw [Mem.encode_length]; exact hin)⟩
    have hst : storeMem ⟨b, (k * e.chunk.size : Nat)⟩ v w₁ = .ok ((), { w₁ with mem := m }) :=
      (storeMem_ok_iff (by exact hdata₁.1)).mpr ⟨hown₁, m, hm, rfl⟩
    have hs₂ : w.Steps { w₁ with mem := m } := hs.tail (.store (by exact hdata₁) hown₁ hval hm)
    have hd : w.Draws { w₁ with mem := m } := (Drawing.fillVal hdraw hv hok).trans (.of_syms rfl)
    have hl : Later w { w₁ with mem := m } := World.Steps.later hs₂ hok
    obtain ⟨w', hloop⟩ := @ih (k + 1) { w₁ with mem := m } bs' (World.Steps.ok hs₂ hok)
      (World.Steps.alive hs₂ hok halive) (World.Steps.dataPtr hs₂ hdata) hown₁ hbs' (by rw [hlen]; convert hroom using 2; omega)
      fun c hc => ⟨hl.has (hrest c hc).1, (hrest c hc).2.later hok hl hd⟩
    refine ⟨w', ?_⟩
    have hdest : fillDest copyArr sym ⟨b, (k * e.chunk.size : Nat)⟩ w = .ok ((), { w₁ with mem := m }) :=
      (bind_of_ok hv).trans hst
    rw [fillElems, bind_of_ok hdest, Ptr.mul_add]
    exact hloop

end

/-- `arr_rand_gen` of an array of fitting size, whose elements can be copied. -/
theorem arrRandGenDepth_returns {n : Nat} {t e : DeclTy} (he : t.elem? = some e)
    (hret : ∀ {w : World} {id : SymId}, w.Ok → w.Alive → w.Has e id → w.Fits id →
      ∃ v w', fillVal (arrRandGenDepth n) id w = .ok (v, w'))
    {w : World} {arr : SymId} (hok : w.Ok) (halive : w.Alive) (harr : w.Has t arr) (hfits : w.Fits arr) :
    ∃ p w', arrRandGenDepth (n + 1) arr w = .ok (p, w') := by
  obtain ⟨size, w₁, name, type, elems, hsize, hs₁, ho, rfl, hcount, helems⟩ := getSize_returns hok halive harr he
  have hok₁ := hs₁.ok hok
  have hfits₁ := hfits.later hok (hs₁.later hok) (Drawing.getSize hsize hok)
  have hbytes := hfits₁ [] arr name type size elems rfl ho
  have hget : getSym arr w₁ = .ok (⟨name, .array type (some size) elems⟩, w₁) := getSym_ok_iff.mpr ⟨ho, rfl⟩
  -- the block, and the state in which the loop starts
  obtain ⟨w₂, hw₂⟩ : ∃ w₂, setAlloc ⟨w₁.next, 0⟩ ⟨true, size⟩
      (w₁.addBlock (List.replicate (size.toNat * type.elem.newSym.sizeof) .undef)) = .ok ((), w₂) := ⟨_, rfl⟩
  obtain ⟨hs₂, hdata, hsyms, -⟩ := block_entered (by simp) hw₂ hok₁
  obtain ⟨l, rfl⟩ := setAlloc_ok hw₂
  have hroom : (0 + elems.length) * type.elem.chunk.size ≤
      (List.replicate (size.toNat * type.elem.newSym.sizeof) MByte.undef).length := by
    have hnat := toNat_of_nonneg (n := size) (by omega)
    rw [List.length_replicate, SymVal.sizeof_eq, Nat.zero_add]
    exact Nat.mul_le_mul_right _ (by omega)
  have hall : ∀ c ∈ elems, World.Has _ type.elem c ∧ World.Fits _ c := fun c hc =>
    ⟨(World.Steps.later hs₂ hok₁).has (helems c hc),
      (hfits₁.elem hok₁ ho hc).later hok₁ (World.Steps.later hs₂ hok₁) (.of_syms hsyms)⟩
  have hel : Copies (fillVal (arrRandGenDepth n)) type.elem (fun syms => Holds syms type.elem.scalar type.elem.nested)
      fun w lo hi => Owns w type.elem.scalar type.elem.nested lo hi := @fillVal_depth_copies _ n _
  obtain ⟨w', hloop⟩ := fillElems_returns (fun _ => arrRandGenDepth_generates) (fun _ => Drawing.arrRandGenDepth)
    @hel hret (World.Steps.ok hs₂ hok₁) (World.Steps.alive hs₂ hok₁ (hs₁.alive hok halive)) hdata
    hok₁.next_not_global (Function.update_self ..) hroom hall
  refine ⟨⟨w₁.next, 0⟩, w', ?_⟩
  have hmalloc : malloc (size.toNat * type.elem.newSym.sizeof) w₁ = .ok (⟨w₁.next, 0⟩, w₁.addBlock _) := rfl
  rw [Nat.zero_mul, DeclTy.chunk, ← SymVal.sizeof_eq] at hloop
  rw [arrRandGenDepth, bind_of_ok hsize, bind_of_ok hget]
  dsimp only
  rw [if_neg (by omega), bind_of_ok hmalloc, bind_of_ok hw₂]
  exact bind_of_ok hloop

/-- `fill_dest` of a symbol that is not deeper than it goes has a value. -/
theorem fillVal_depth_returns : ∀ {n : Nat} {t : DeclTy} {w : World} {id : SymId}, t.depth ≤ n → w.Ok → w.Alive →
    w.Has t id → w.Fits id → ∃ v w', fillVal (arrRandGenDepth n) id w = .ok (v, w') := by
  have hby : ∀ {n : Nat} {t : DeclTy} {w : World} {id : SymId},
      (∀ e, t.elem? = some e → w.Has t id → ∃ p w', arrRandGenDepth n id w = .ok (p, w')) → w.Has t id →
        ∃ v w', fillVal (arrRandGenDepth n) id w = .ok (v, w') := by
    intro n t w id harr hid
    obtain ⟨⟨name, val⟩, ho, hcls⟩ := hid
    have hget : getSym id w = .ok (⟨name, val⟩, w) := getSym_ok_iff.mpr ⟨ho, rfl⟩
    rw [fillVal, bind_of_ok hget]
    cases val with
    | number num =>
      obtain ⟨v, w', hv⟩ : ∃ v w', numRandGen id w = .ok (v, w') := scalarRandGen_returns ho rfl
      exact ⟨_, w', bind_of_ok hv⟩
    | char ch =>
      obtain ⟨v, w', hv⟩ : ∃ v w', charRandGen id w = .ok (v, w') := scalarRandGen_returns ho rfl
      exact ⟨_, w', bind_of_ok hv⟩
    | bool b =>
      have hread : SymVal.bool? (.bool b) = some b := rfl
      obtain ⟨v, w', hv⟩ := scalarRandGen_returns ho hread
      exact ⟨_, w', bind_of_ok (bind_of_ok hv)⟩
    | array type s elems =>
      obtain ⟨p, w', hp⟩ := harr _ (DeclTy.elem?_of_newSym hcls.symm) ⟨_, ho, hcls⟩
      exact ⟨_, w', bind_of_ok hp⟩
  intro n
  induction n with
  | zero =>
    intro t w id hn _ _ hid _
    refine hby (fun e he _ => ?_) hid
    rw [DeclTy.depth_of_elem? he] at hn
    exact absurd hn (Nat.not_succ_le_zero _)
  | succ n ih =>
    intro t w id hn hok halive hid hfits
    refine hby (fun e he h => ?_) hid
    rw [DeclTy.depth_of_elem? he] at hn
    exact arrRandGenDepth_returns he (ih (Nat.le_of_succ_le_succ hn)) hok halive h hfits

theorem arrRandGen_returns {t : DeclTy} {w : World} {id : SymId} (hdepth : 0 < t.depth) (hok : w.Ok) (halive : w.Alive)
    (hid : w.Has t id) (hfits : w.Fits id) : ∃ p w', arrRandGen id w = .ok (p, w') := by
  obtain ⟨e, he⟩ := DeclTy.elem?_of_depth hdepth
  obtain ⟨o, ho, hcls⟩ := hid
  obtain ⟨name, type, s, elems, ho', rfl⟩ := World.Has.array ⟨o, ho, hcls⟩ he
  cases ho.symm.trans ho'
  have htype : type.toDecl.depth = t.depth := (SymVal.depth_cls (hcls.trans t.newSym_cls.symm)).trans t.newSym_depth
  have hget : getSym id w = .ok (⟨name, .array type s elems⟩, w) := getSym_ok_iff.mpr ⟨ho, rfl⟩
  rw [arrRandGen, bind_of_ok hget]
  dsimp only
  rw [htype, DeclTy.depth_of_elem? he]
  exact arrRandGenDepth_returns he (fillVal_depth_returns (Nat.le_refl _)) hok halive ⟨_, ho, hcls⟩ hfits

/-! ## The copy of an input -/

section

variable {w w' : World} {s : ScalarType} {n : Nat} {id : SymId} {p : Ptr}

/-- What a copy has: the content of its input, in new blocks of its own. -/
theorem arrRandGen_owns (hdepth : 0 < (⟨s, n⟩ : DeclTy).depth) (hok : w.Ok) (hid : w.Has ⟨s, n⟩ id)
    (hrun : arrRandGen id w = .ok (p, w')) :
    ∃ c, Holds w'.syms s n c id ∧ Owns w' s n w.next w'.next c (.ptr p) := by
  obtain ⟨e, he⟩ := DeclTy.elem?_of_depth hdepth
  obtain ⟨name, type, size, elems, ho, -⟩ := hid.array he
  have hget : getSym id w = .ok (⟨name, .array type size elems⟩, w) := getSym_ok_iff.mpr ⟨ho, rfl⟩
  have hfill : fillVal arrRandGen id w = .ok (.ptr p, w') := by
    rw [fillVal, bind_of_ok hget]
    exact bind_of_ok hrun
  obtain ⟨-, -, hc⟩ := fillVal_owns hfill hok (hid.typed hok)
  exact hc

/-- The code that `get_address` makes of an index reads at `codeLayout`. -/
theorem getLookupAddress_reads {t e : DeclTy} (he : t.elem? = some e) {addr vi : LVal} {idx : Expr Symbol} {q : Ptr}
    {i : BitVec 32} (hi : 0 ≤ i.toInt) (hty : addr.ty = .ptr t.llvm) (hgen : codeGenExpr idx = .ok vi)
    (haddr : addr.eval w = .ok (.ptr q, w)) (hvi : vi.eval w = .ok (.int32 i, w))
    (hload : w.mem.load .ptr q = some (.ptr p)) :
    ∃ a, getLookupAddress addr [idx] = .ok a ∧ (LVal.load e.llvm a).eval w =
      ofOption .undefined (elemVal? w codeLayout t p i.toNat) w := by
  have hptr := DeclTy.llvm_of_elem? he
  obtain ⟨hchunk, hsize⟩ := e.llvm_layout
  refine ⟨.gep e.llvm (.load t.llvm addr) vi, ?_, ?_⟩
  · rw [getLookupAddress, hty, hgen, hptr]
    rfl
  · have hasptr : ∀ q : Ptr, asPtr (.ptr q) w = .ok (q, w) := fun _ => rfl
    have hbase : (LVal.load t.llvm addr).eval w = .ok (.ptr p, w) := by
      rw [LVal.eval, bind_of_ok haddr, bind_of_ok (hasptr q), hptr]
      exact loadMem_of_some hload
    have hoff : gepOffset e.llvm (.int32 i) w = .ok (i.toInt * e.llvm.size, w) := rfl
    have hgep : (LVal.gep e.llvm (.load t.llvm addr) vi).eval w = .ok (.ptr (p.add (i.toInt * e.llvm.size)), w) := by
      rw [LVal.eval, bind_of_ok hbase, bind_of_ok (hasptr p), bind_of_ok hvi, bind_of_ok hoff]
      rfl
    have hlay : codeLayout t = some (e.chunk, e.llvm.size) := by
      rw [codeLayout_eq, gatherLayout, he, hsize]
      rfl
    have hnat : ((i.toNat * e.llvm.size : Nat) : Int) = i.toInt * e.llvm.size := by
      rw [Nat.cast_mul, toNat_of_nonneg hi]
    have hread (c : Chunk) (r : Ptr) : loadMem c r w = ofOption .undefined (w.mem.load c r) w := by
      rw [loadMem]
      cases w.mem.load c r <;> rfl
    rw [LVal.eval, bind_of_ok hgep, bind_of_ok (hasptr _), hchunk, elemVal?, hlay, Option.bind_some, hnat]
    exact hread ..

end

/-- **A copy is the input it was made of**, whichever way it is read. Its arrays
have no byte in common, nor with a second copy. -/
theorem copy_faithful {env : Env} {inputs : List Symbol} {ops : List Op} {w : World}
    (hrun : runOps ops (World.start env inputs) = .ok ((), w)) {i : Nat} {s : Symbol} {id : SymId}
    (hs : inputs[i]? = some s) (hid : w.inputs[i]? = some id) (hdepth : 0 < s.type.depth) (hfits : w.Fits id) :
    ∃ p w' c, arrRandGen id w = .ok (p, w') ∧ Holds w'.syms s.type.scalar s.type.nested c id ∧
      decode w' gatherLayout s.type.scalar s.type.nested (.ptr p) = some c ∧
      decode w' codeLayout s.type.scalar s.type.nested (.ptr p) = some c ∧
      (∀ cell, w'.mem.load .ptr cell = some (.ptr p) → gatherRec s.type.scalar s.type.nested cell w' =
        .ok (gatheredText s.type.scalar s.type.nested c, w')) ∧
      ((reached w' gatherLayout s.type.scalar s.type.nested (.ptr p)).flatMap (Extent.bytes gatherLayout)).Nodup ∧
      ∀ ops' w₁ q w₂, runOps ops' w' = .ok ((), w₁) → arrRandGen id w₁ = .ok (q, w₂) →
        ((reached w' gatherLayout s.type.scalar s.type.nested (.ptr p)).map Extent.block).Disjoint
          ((reached w₂ gatherLayout s.type.scalar s.type.nested (.ptr q)).map Extent.block) := by
  have hw := (World.Whole.start env inputs).test hrun
  obtain ⟨hi, rfl⟩ := List.getElem?_eq_some_iff.mp hs
  obtain ⟨hi', rfl⟩ := List.getElem?_eq_some_iff.mp hid
  have hhas : w.Has inputs[i].type w.inputs[i] := hw.typed.get hi hi'
  obtain ⟨p, w', hcopy⟩ := arrRandGen_returns hdepth hw.ok hw.alive hhas hfits
  obtain ⟨c, hc, howns⟩ := arrRandGen_owns hdepth hw.ok hhas hcopy
  have hdec := howns.represents.decodes
  obtain ⟨hnodup, hbelow⟩ := howns.reached
  obtain ⟨e, he⟩ := DeclTy.elem?_of_depth hdepth
  obtain ⟨type, htype, -⟩ := DeclTy.newSym_of_elem? he
  have hchunk : inputs[i].type.chunk = .ptr := by
    rw [DeclTy.chunk, htype]
    rfl
  refine ⟨p, w', c, hcopy, hc, hdec, codeLayout_eq ▸ hdec,
    fun cell hcell => gatherRec_eq (hchunk ▸ hcell) howns.represents, nodup_bytes hnodup,
    fun ops' w₁ q w₂ hrun' hcopy' => ?_⟩
  have hs' := (arrRandGen_generates hcopy hw.ok).1
  have hok' := hs'.ok hw.ok
  obtain ⟨hok₁, hl₁⟩ := runOps_keeps hrun' hok'
  obtain ⟨c₂, -, howns₂⟩ := arrRandGen_owns hdepth hok₁ (hl₁.has ((hs'.later hw.ok).has hhas)) hcopy'
  intro b hb hb'
  obtain ⟨a, ha, rfl⟩ := List.mem_map.mp hb
  obtain ⟨a', ha', heq⟩ := List.mem_map.mp hb'
  have hlt := (hbelow a ha).2
  have hle := (howns₂.reached.2 a' ha').1
  have hnext := hl₁.next
  omega

theorem copy_faithful_words : ∃ p w' c, arrRandGen 0 (World.start (Sample.draws 3) [Sample.words]) = .ok (p, w') ∧
    Holds w'.syms .string 1 c 0 ∧ decode w' gatherLayout .string 1 (.ptr p) = some c := by
  have hrun : runOps [] (World.start (Sample.draws 3) [Sample.words]) =
      .ok ((), World.start (Sample.draws 3) [Sample.words]) := rfl
  have hfits : (World.start (Sample.draws 3) [Sample.words]).Fits 0 := by
    intro path sub name type n elems _ hsub
    match sub, hsub with
    | 0, hsub => cases hsub
    | j + 1, hsub => cases hsub
  obtain ⟨p, w', c, hcopy, hc, hdec, -⟩ := copy_faithful (i := 0) hrun rfl rfl (by decide) hfits
  exact ⟨p, w', c, hcopy, hc, hdec⟩

end DGen
