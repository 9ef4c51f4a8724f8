/-
A call on inputs that are determined already, beside one that determines its
inputs as it goes: it evaluates to the same, if its inputs hold what those of
the other hold in the end.

What the one reads of an input it reads for good (`Later`), so the other has
it from the start (`Shares`). Blocks are allocated side by side, and
correspond by a pairing, that of a literal to itself; whatever else the one
does, for the solver, touches no block of it (`World.Adds`). Where the blocks
lie may differ, so the code is one that orders numbers only.
-/
import DGen.Additions
import DGen.Execution
import DGen.Layout
import DGen.Ordering
import DGen.Lib.Pairing
import DGen.Lib.Simulation

namespace DGen

open Memory StateT Simulation

/-! ## Symbols that hold the same -/

/-- Two symbols hold one content. -/
def Shares (syms syms' : Nat → Option SymObj) (id id' : SymId) : Prop :=
  ∃ s n, ∃ c : Content s n, Holds syms s n c id ∧ Holds syms' s n c id'

/-- Values that are determined, and the same but for the symbols of the elements. -/
inductive SharedVal (shares : SymId → SymId → Prop) : SymVal → SymVal → Prop
  | number (num : BitVec 32) : SharedVal shares (.number (some num)) (.number (some num))
  | char (ch : BitVec 8) : SharedVal shares (.char (some ch)) (.char (some ch))
  | bool (val : Bool) : SharedVal shares (.bool (some val)) (.bool (some val))
  | array (type : ArrType) (size : BitVec 32) {elems elems' : List SymId} (h : List.Forall₂ shares elems elems') :
    SharedVal shares (.array type (some size) elems) (.array type (some size) elems')

theorem forall₂_of_common {α β γ : Type} {r : α → β → Prop} {r' : α → γ → Prop} {as : List α} {bs : List β}
    {cs : List γ}
    (h : List.Forall₂ r as bs) (h' : List.Forall₂ r' as cs) : List.Forall₂ (fun b c => ∃ a, r a b ∧ r' a c) bs cs := by
  induction h generalizing cs with
  | nil =>
    cases h'
    exact .nil
  | cons hab _ ih =>
    cases h' with
    | cons hac h' => exact .cons ⟨_, hab, hac⟩ (ih h')

section

variable {last first : World} {id id' : SymId}

theorem HoldsArray.shared {α : Type} {type : ArrType} {holds holds' : α → SymId → Prop} {cs : List α} (hok : last.Ok)
    (hok' : first.Ok) (h : HoldsArray last.syms type holds cs id) (h' : HoldsArray first.syms type holds' cs id')
    (helem : ∀ c e e', holds c e → holds' c e' → Shares last.syms first.syms e e') :
    ∃ name name' val val', last.syms id = some ⟨name, val⟩ ∧ first.syms id' = some ⟨name', val'⟩ ∧
      SharedVal (Shares last.syms first.syms) val val' := by
  obtain ⟨name, size, elems, ho, hall⟩ := h
  obtain ⟨name', size', elems', ho', hall'⟩ := h'
  have hsize : (elems.length : Int) = size.toInt := hok.tree.sized id _ ho
  have hsize' : (elems'.length : Int) = size'.toInt := hok'.tree.sized id' _ ho'
  have hlen := hall.length_eq.symm.trans hall'.length_eq
  obtain rfl : size = size' := BitVec.eq_of_toInt_eq (by omega)
  refine ⟨name, name', _, _, ho, ho', .array type size ?_⟩
  exact (forall₂_of_common hall hall').imp fun e e' ⟨c, hc, hc'⟩ => helem c e e' hc hc'

/-- What two symbols that share a content are. -/
theorem Shares.val (hok : last.Ok) (hok' : first.Ok) (h : Shares last.syms first.syms id id') :
    ∃ name name' val val', last.syms id = some ⟨name, val⟩ ∧ first.syms id' = some ⟨name', val'⟩ ∧
      SharedVal (Shares last.syms first.syms) val val' := by
  obtain ⟨s, n, c, hc, hc'⟩ := h
  cases n with
  | zero =>
    cases s with
    | int =>
      obtain ⟨name, ho⟩ := hc
      obtain ⟨name', ho'⟩ := hc'
      exact ⟨name, name', _, _, ho, ho', .number c⟩
    | char =>
      obtain ⟨name, ho⟩ := hc
      obtain ⟨name', ho'⟩ := hc'
      exact ⟨name, name', _, _, ho, ho', .char c⟩
    | bool =>
      obtain ⟨name, ho⟩ := hc
      obtain ⟨name', ho'⟩ := hc'
      exact ⟨name, name', _, _, ho, ho', .bool c⟩
    | string =>
      exact HoldsArray.shared hok hok' hc hc' fun ch e e' he he' => ⟨.char, 0, ch, he, he'⟩
  | succ n => exact HoldsArray.shared hok hok' hc hc' fun c e e' he he' => ⟨s, n, c, he, he'⟩

end

/-! ## States that correspond -/

/-- The literals are in memory, and a reset will not free them. -/
structure World.Loaded (w : World) : Prop where
  there : ∀ x ∈ w.globals, w.mem x.2 = some x.1.bytes
  unmarked : ∀ item ∈ w.allocatedVals, item.2.isAlloc = true → ¬w.IsGlobal item.1.block

namespace World.Loaded

variable {w w' : World}

theorem start (env : Env) (inputs : List Symbol) : (World.start env inputs).Loaded :=
  ⟨fun _ hx => (start_literal hx).2.2, fun _ hitem => nomatch hitem⟩

theorem step (h : w.Loaded) (hok : w.Ok) (hs : w.Step w') : w'.Loaded where
  there x hx := by
    rw [hs.sameStatic.globals] at hx
    rw [hs.global_mem hok (List.mem_map_of_mem hx)]
    exact h.there x hx
  unmarked item hitem hmark hb := by
    have hb' := hs.sameStatic.isGlobal hb
    cases hs with
    | alloc l hl =>
      obtain hold | hnot := hl item hitem hmark
      · exact h.unmarked item hold hmark hb'
      · exact hnot hb'
    | _ => exact h.unmarked item hitem hmark hb'

theorem steps (h : w.Loaded) (hok : w.Ok) (hs : w.Steps w') : w'.Loaded := by
  induction hs with
  | refl => exact h
  | tail hs hlast ih => exact ih.step (World.Steps.ok hs hok) hlast

theorem same (h : w.Loaded) (hglobals : w'.globals = w.globals) (hmem : w'.mem = w.mem)
    (hmarked : ∀ item ∈ w'.allocatedVals, item.2.isAlloc = true → item ∈ w.allocatedVals) : w'.Loaded where
  there x hx := by
    rw [hglobals] at hx
    rw [hmem]
    exact h.there x hx
  unmarked item hitem hmark := by
    rw [World.IsGlobal, hglobals]
    exact h.unmarked item (hmarked item hitem hmark) hmark

theorem globalPtr_mem (h : w.Loaded) {n : StringNode} {p : Ptr} (hn : w.globalPtr n = some p) :
    w.mem p.block = some n.bytes := h.there _ (World.globalPtr_some hn).1

/-- What is entered for a literal depends on its block only. -/
theorem size_eq (h : w.Loaded) {n n' : StringNode} {p : Ptr} (hn : w.globalPtr n = some p)
    (hn' : w.globalPtr n' = some p) : n.size = n'.size := by
  have hbytes := Option.some.inj ((h.globalPtr_mem hn).symm.trans (h.globalPtr_mem hn'))
  rw [StringNode.size, StringNode.size, hbytes]

end World.Loaded

/-- The inputs are there, under their names, and the literals. -/
structure World.Intact (inputs : List Symbol) (w : World) : Prop extends World.Whole inputs w where
  named : w.Named inputs
  loaded : w.Loaded

theorem World.Intact.start (env : Env) (inputs : List Symbol) : (World.start env inputs).Intact inputs :=
  ⟨.start env inputs, .start env inputs, .start env inputs⟩

theorem World.Intact.steps {inputs : List Symbol} {w w' : World} (h : w.Intact inputs) (hs : w.Steps w') :
    w'.Intact inputs where
  toWhole := h.toWhole.steps hs
  named := h.named.kept (.steps hs h.ok)
  loaded := h.loaded.steps h.ok hs

/-- Nothing is listed for it but by a lookup: it is past the blocks, or inside a literal's. -/
def World.Unlisted (w : World) (p : Ptr) : Prop := w.next ≤ p.block ∨ w.IsGlobal p.block ∧ p.offset ≠ 0

theorem World.Adds.unlisted {w w' : World} (h : w.Adds w.next w') (hok : w.Ok) {p : Ptr} (hp : w'.Unlisted p) :
    w.Unlisted p ∧ w'.allocSize p = w.allocSize p := by
  have hp' : w.Unlisted p := by
    rw [World.Unlisted, World.IsGlobal, h.globals] at hp
    exact hp.imp_left h.next.trans
  refine ⟨hp', (h.sizes p ?_).resolve_right ?_⟩
  · obtain hlt | hglobal := hp
    · exact .inr hlt
    · rw [World.IsGlobal, h.globals] at hglobal
      exact .inl (hok.global_dataPtr hglobal.1).2
  · rintro ⟨n, hn, -⟩
    obtain hle | hglobal := hp'
    · exact absurd (hok.global_dataPtr (World.globalPtr_isGlobal hn)).2 (Nat.not_lt.mpr hle)
    · exact hglobal.2 (World.globalPtr_some hn).2

/-- The inputs have these values. -/
def World.Values (vs : List InputValue) (w : World) : Prop :=
  List.Forall₂ (fun v id => Holds w.syms v.1.type.scalar v.1.type.nested v.2 id) vs w.inputs

/-- The state of the call whose inputs are determined from the start, beside that of the other. -/
structure Mirrors (inputs : List Symbol) (first : World) (ρ : Pairing) (w e : World) : Prop where
  whole : w.Intact inputs
  whole' : e.Intact inputs
  later : Later first e
  globals : w.globals = e.globals
  mem : Mem.Paired ρ w.mem e.mem
  data : ∀ b c, ρ.pair b = some c → w.DataPtr ⟨b, 0⟩ ∧ e.DataPtr ⟨c, 0⟩
  literal : ∀ b c, ρ.pair b = some c → w.IsGlobal b ∨ e.IsGlobal c → b = c
  entered : ∀ b c n, ρ.pair b = some c → w.globalPtr n = some ⟨b, 0⟩ → w.allocSize ⟨b, 0⟩ = n.size
  sizes : ∀ p q, ρ.Ptrs p q → e.allocSize q = w.allocSize p
  vacant : ∀ p, w.Unlisted p → w.allocSize p = 0
  vacant' : ∀ p, e.Unlisted p → e.allocSize p = 0
  frame : ∀ r p, w.frame r = some p → ∃ q, e.frame r = some q ∧ ρ.Ptrs p q

/-- The first call is to end in `last`, and the second begins in `first`. -/
def replay (inputs : List Symbol) (last first : World) : Setting Pairing World World where
  rel := Mirrors inputs first
  inv w := w.Intact inputs
  leads w := Later w last
  inv_of_rel h := h.whole

section

variable {inputs : List Symbol} {last first w w' e e' : World} {ρ : Pairing}

theorem Later.dataPtr (h : Later w w') {p : Ptr} (hp : w.DataPtr p) : w'.DataPtr p := by
  obtain ⟨hnone, hlt⟩ := hp
  refine ⟨Option.eq_none_iff_forall_ne_some.mpr fun o ho => ?_, hlt.trans_le h.next⟩
  have hle : w.next ≤ p.block := (h.new p.block o hnone ho).1
  exact absurd hlt (Nat.not_lt.mpr hle)

theorem Mirrors.isGlobal (h : Mirrors inputs first ρ w e) {b : Nat} : w.IsGlobal b ↔ e.IsGlobal b := by
  rw [World.IsGlobal, World.IsGlobal, h.globals]

theorem Mirrors.globalPtr (h : Mirrors inputs first ρ w e) (n : StringNode) : w.globalPtr n = e.globalPtr n := by
  rw [World.globalPtr, World.globalPtr, h.globals]

/-- Of what corresponds, nothing is entered anew but a literal's length, which has been entered. -/
theorem Mirrors.size_left (h : Mirrors inputs first ρ w e) (hadds : w.Adds w.next w') {p q : Ptr} (hpq : ρ.Ptrs p q) :
    w'.allocSize p = w.allocSize p := by
  obtain heq | ⟨n, hn, heq⟩ := hadds.sizes p (.inl (h.data _ _ hpq.block).1.2)
  · exact heq
  · obtain ⟨b, o⟩ := p
    obtain rfl : o = 0 := (World.globalPtr_some hn).2
    exact heq.trans (h.entered b q.block n hpq.block hn).symm

theorem Mirrors.size_right (h : Mirrors inputs first ρ w e) (hadds : e.Adds e.next e') {p q : Ptr} (hpq : ρ.Ptrs p q) :
    e'.allocSize q = e.allocSize q := by
  obtain heq | ⟨n, hn, heq⟩ := hadds.sizes q (.inl (h.data _ _ hpq.block).2.2)
  · exact heq
  · obtain ⟨b, o⟩ := p
    have hb : b = q.block := h.literal _ _ hpq.block (.inr (World.globalPtr_isGlobal hn))
    obtain rfl : o = 0 := hpq.offset.symm.trans (World.globalPtr_some hn).2
    obtain rfl : q = ⟨b, 0⟩ := congrArg₂ Ptr.mk hb.symm hpq.offset
    rw [heq, h.sizes _ _ hpq, h.entered b b n hpq.block ((h.globalPtr n).trans hn)]

/-- The first call goes on alone. -/
theorem Mirrors.left (h : Mirrors inputs first ρ w e) (hw' : w'.Intact inputs) (hl : Later w w')
    (hadds : w.Adds w.next w') :
    Mirrors inputs first ρ w' e where
  whole := hw'
  whole' := h.whole'
  later := h.later
  globals := hadds.globals.trans h.globals
  mem := h.mem.congr fun b c hbc => ⟨hadds.mem b (h.data b c hbc).1.2, rfl⟩
  data b c hbc := ⟨hl.dataPtr (h.data b c hbc).1, (h.data b c hbc).2⟩
  literal b c hbc := by
    rw [World.IsGlobal, hadds.globals]
    exact h.literal b c hbc
  entered b c n hbc hn := by
    rw [World.globalPtr_congr hadds.globals] at hn
    have hpq : ρ.Ptrs ⟨b, 0⟩ ⟨c, 0⟩ := ⟨hbc, rfl⟩
    exact (h.size_left hadds hpq).trans (h.entered b c n hbc hn)
  sizes p q hpq := by rw [h.sizes p q hpq, h.size_left hadds hpq]
  vacant p hp := by
    obtain ⟨hp', heq⟩ := hadds.unlisted h.whole.ok hp
    exact heq.trans (h.vacant p hp')
  vacant' := h.vacant'
  frame r p hp := by
    rw [hadds.frame] at hp
    exact h.frame r p hp

/-- And so does the second. -/
theorem Mirrors.right (h : Mirrors inputs first ρ w e) (he' : e'.Intact inputs) (hl : Later e e')
    (hadds : e.Adds e.next e') :
    Mirrors inputs first ρ w e' where
  whole := h.whole
  whole' := he'
  later := h.later.trans hl
  globals := h.globals.trans hadds.globals.symm
  mem := h.mem.congr fun b c hbc => ⟨rfl, hadds.mem c (h.data b c hbc).2.2⟩
  data b c hbc := ⟨(h.data b c hbc).1, hl.dataPtr (h.data b c hbc).2⟩
  literal b c hbc hb := by
    have hiff : e'.IsGlobal c ↔ e.IsGlobal c := by rw [World.IsGlobal, World.IsGlobal, hadds.globals]
    exact h.literal b c hbc (hb.imp_right hiff.mp)
  entered := h.entered
  sizes p q hpq := by rw [h.size_right hadds hpq, h.sizes p q hpq]
  vacant := h.vacant
  vacant' q hq := by
    obtain ⟨hq', heq⟩ := hadds.unlisted h.whole'.ok hq
    exact heq.trans (h.vacant' q hq')
  frame r p hp := by
    rw [hadds.frame]
    exact h.frame r p hp

end

section

variable {inputs : List Symbol} {first w e : World} {ρ : Pairing}

theorem Mirrors.ptrs (h : Mirrors inputs first ρ w e) {p q : Ptr} (hpq : ρ.Ptrs p q) : w.DataPtr p ∧ e.DataPtr q :=
  h.data _ _ hpq.block

/-- Values that correspond are no symbols' addresses. -/
theorem Mirrors.vals (h : Mirrors inputs first ρ w e) {v u : Val} (hvu : ρ.Vals v u) : w.ValOk v ∧ e.ValOk u := by
  cases hvu with
  | ptr hp =>
    refine ⟨fun p heq => ?_, fun q heq => ?_⟩
    · cases heq
      exact (h.ptrs hp).1
    · cases heq
      exact (h.ptrs hp).2
  | _ => exact ⟨.int fun _ heq => (by cases heq), .int fun _ heq => (by cases heq)⟩

end

/-- The inputs of the first call have these values in the end, and those of
the second from the start. -/
structure Common (inputs : List Symbol) (vs : List InputValue) (last first : World) : Prop where
  ok : last.Ok
  ok' : first.Ok
  symbols : vs.map (·.1) = inputs
  values : last.Values vs
  values' : first.Values vs

theorem Common.shares {inputs : List Symbol} {vs : List InputValue} {last first : World}
    (h : Common inputs vs last first) :
    List.Forall₂ (Shares last.syms first.syms) last.inputs first.inputs :=
  (forall₂_of_common h.values h.values').imp fun _ _ ⟨v, hv, hv'⟩ => ⟨_, _, v.2, hv, hv'⟩

section

variable {inputs : List Symbol} {vs : List InputValue} {last first : World} {α β : Type} {x : M α} {y : M β}

/-- Generation leads on to where it has come from. -/
theorem Stepwise.onTheWay {post : World → α → Prop} (h : Stepwise x post) : OnTheWay (replay inputs last first) x := by
  intro w hw a w' hrun
  have hs := (h hrun hw.ok).1
  exact ⟨hw.steps hs, fun hl => (hs.later hw.ok).trans hl⟩

/-! ## Reading symbols -/

section

variable {w e : World} {id id' : SymId}

/-- What is determined, the second call has too. -/
theorem Common.seen (hc : Common inputs vs last first) (h : Shares last.syms first.syms id id') (hl : Later w last)
    (he : Later first e) {name : String} {val : SymVal} (ho : w.syms id = some ⟨name, val⟩)
    (hdet : val.determined = true) :
    ∃ name' val', e.syms id' = some ⟨name', val'⟩ ∧ SharedVal (Shares last.syms first.syms) val val' := by
  obtain ⟨_, ho'⟩ := hl.val_eq ho hdet
  obtain ⟨_, _, _, val', hlast, hfirst, hval⟩ := h.val hc.ok hc.ok'
  cases ho'.symm.trans hlast
  have hdet' : val'.determined = true := by cases hval <;> rfl
  obtain ⟨name', he'⟩ := he.val_eq hfirst hdet'
  exact ⟨name', val', he', hval⟩

/-- Determined or not, it has the class. -/
theorem Common.seen_cls (hc : Common inputs vs last first) (h : Shares last.syms first.syms id id') (hl : Later w last)
    (he : Later first e) {name : String} {val : SymVal} (ho : w.syms id = some ⟨name, val⟩) :
    ∃ name₁ val₁ name' val', last.syms id = some ⟨name₁, val₁⟩ ∧ val₁.cls = val.cls ∧ e.syms id' = some ⟨name', val'⟩ ∧
      SharedVal (Shares last.syms first.syms) val₁ val' := by
  obtain ⟨⟨name₁, val₁⟩, hlast, hcls, -⟩ := hl.kept id _ ho
  have hdet : val₁.determined = true := by
    obtain ⟨_, _, _, _, hlast', -, hval⟩ := h.val hc.ok hc.ok'
    cases hlast.symm.trans hlast'
    cases hval <;> rfl
  have hself : Later last last := .refl hc.ok
  obtain ⟨name', val', he', hval⟩ := hc.seen h hself he hlast hdet
  exact ⟨name₁, val₁, name', val', hlast, hcls, he', hval⟩

end

/-- What reads symbols only, of which the second call has what is read. -/
theorem mirrored_of_read {Q : α → β → Prop} (hsyms : SymbolsOnly x) (hgen : Generates x)
    (hread : ∀ {w a w' e}, x w = .ok (a, w') → w.Ok → Later w' last → Later first e → ∃ b, y e = .ok (b, e) ∧ Q a b) :
    Mirrored (replay inputs last first) (fun _ => True) x y fun _ => Q := by
  intro ρ w e h _ a w' hrun hl
  obtain ⟨b, hy, hq⟩ := hread hrun h.whole.ok hl h.later
  have hs := (hgen hrun h.whole.ok).1
  have hadds := (Leaving.symbols hsyms hgen hrun h.whole.ok).2.adds w.next
  exact ⟨ρ, b, e, le_rfl, hy, h.left (h.whole.steps hs) (hs.later h.whole.ok) hadds, hq⟩

section

variable {id id' : SymId}

theorem numRandGen_mirrored (hc : Common inputs vs last first) (h : Shares last.syms first.syms id id') :
    Mirrored (replay inputs last first) (fun _ => True) (numRandGen id) (numRandGen id') fun _ a b => b = a := by
  refine mirrored_of_read .numRandGen numRandGen_generates fun {w a w' e} hrun _ hl he => ?_
  obtain ⟨name, ho⟩ := numRandGen_holds hrun
  obtain ⟨_, _, ho', hval⟩ := hc.seen h hl he ho rfl
  cases hval
  exact ⟨a, scalarRandGen_ok_iff.mpr ⟨_, ho', .inl ⟨rfl, rfl⟩⟩, rfl⟩

theorem charRandGen_mirrored (hc : Common inputs vs last first) (h : Shares last.syms first.syms id id') :
    Mirrored (replay inputs last first) (fun _ => True) (charRandGen id) (charRandGen id') fun _ a b => b = a := by
  refine mirrored_of_read .charRandGen charRandGen_generates fun {w a w' e} hrun _ hl he => ?_
  obtain ⟨name, ho⟩ := charRandGen_holds hrun
  obtain ⟨_, _, ho', hval⟩ := hc.seen h hl he ho rfl
  cases hval
  exact ⟨a, scalarRandGen_ok_iff.mpr ⟨_, ho', .inl ⟨rfl, rfl⟩⟩, rfl⟩

theorem boolRandGen_mirrored (hc : Common inputs vs last first) (h : Shares last.syms first.syms id id') :
    Mirrored (replay inputs last first) (fun _ => True) (boolRandGen id) (boolRandGen id') fun _ a b => b = a := by
  refine mirrored_of_read .boolRandGen boolRandGen_generates fun {w a w' e} hrun _ hl he => ?_
  obtain ⟨val, name, rfl, ho⟩ := boolRandGen_holds hrun
  obtain ⟨_, _, ho', hval⟩ := hc.seen h hl he ho rfl
  cases hval
  exact ⟨_, bind_of_ok (scalarRandGen_ok_iff.mpr ⟨_, ho', .inl ⟨rfl, rfl⟩⟩), rfl⟩

theorem getSize_mirrored (hc : Common inputs vs last first) (h : Shares last.syms first.syms id id') :
    Mirrored (replay inputs last first) (fun _ => True) (getSize id) (getSize id') fun _ a b => b = a := by
  refine mirrored_of_read .getSize getSize_generates fun {w a w' e} hrun _ hl he => ?_
  obtain ⟨name, type, elems, ho⟩ := getSize_holds hrun
  obtain ⟨_, _, ho', hval⟩ := hc.seen h hl he ho rfl
  cases hval
  exact ⟨a, getSize_ok_iff.mpr ⟨_, _, _, _, ho', .inl ⟨rfl, rfl⟩⟩, rfl⟩

/-- An element of an array is looked up with the same bounds. -/
theorem getElem_mirrored (hc : Common inputs vs last first) (h : Shares last.syms first.syms id id') {idx : BitVec 32} :
    Mirrored (replay inputs last first) (fun _ => True) (getElem id idx) (getElem id' idx) fun _ =>
      Shares last.syms first.syms := by
  refine mirrored_of_read .getElem getElem_generates fun {w sym w' e} hrun hok hl he => ?_
  obtain ⟨size, w₁, hsize, -⟩ := bind_ok_iff.mp hrun
  obtain ⟨name, type, elems, ho⟩ := getSize_holds hsize
  rw [getElem_eq hsize ho] at hrun
  split at hrun
  next => cases hrun
  next hlt =>
    split at hrun
    next => cases hrun
    next hpos =>
      obtain ⟨hsym, rfl⟩ := ofOption_ok_iff.mp hrun
      obtain ⟨_, _, ho', hval⟩ := hc.seen h hl he ho rfl
      cases hval with
      | array _ _ helems =>
        obtain ⟨hi, rfl⟩ := List.getElem?_eq_some_iff.mp hsym
        have hi' := helems.length_eq ▸ hi
        have hsize' : getSize id' e = .ok (size, e) := getSize_ok_iff.mpr ⟨_, _, _, _, ho', .inl ⟨rfl, rfl⟩⟩
        refine ⟨_, ?_, helems.get hi hi'⟩
        rw [getElem_eq hsize' ho', if_neg hlt, if_neg hpos]
        exact ofOption_ok_iff.mpr ⟨List.getElem?_eq_getElem hi', rfl⟩

theorem getSymbolByIdxs_mirrored (hc : Common inputs vs last first) : ∀ {idxs : List (BitVec 32)} {id id' : SymId},
    Shares last.syms first.syms id id' → Mirrored (replay inputs last first) (fun _ => True) (getSymbolByIdxs id idxs)
      (getSymbolByIdxs id' idxs) fun _ => Shares last.syms first.syms
  | [], _, _, _ => .of_never fun _ _ _ h => by cases h
  | [_], _, _, h => getElem_mirrored hc h
  | _ :: _ :: _, _, _, h => by
    refine (getElem_mirrored hc h).bind getElem_generates.onTheWay (fun _ => getSymbolByIdxs_generates.onTheWay) ?_
    exact fun sub sub' => .of_fact fun hsub => getSymbolByIdxs_mirrored hc hsub

end

/-! ## Memory -/

section

variable {v u : Val} {p q : Ptr}

/-- New blocks correspond. -/
theorem newBlock_mirrored {bytes : List MByte} (hfrag : ∀ p i, .frag p i ∉ bytes) :
    Mirrored (replay inputs last first) (fun _ => True) (newBlock bytes) (newBlock bytes) Pairing.Ptrs := by
  intro ρ w e h _ p w' hrun _
  obtain ⟨rfl, rfl⟩ := newBlock_ok_iff.mp hrun
  have hb : ρ.pair w.next = none :=
    Option.eq_none_iff_forall_ne_some.mpr fun c hc => absurd (h.data _ _ hc).1.2 (Nat.lt_irrefl _)
  have hc : ∀ b', ρ.pair b' ≠ some e.next := fun b' hb' => absurd (h.data _ _ hb').2.2 (Nat.lt_irrefl _)
  have hle : ρ ≤ ρ.add w.next e.next hc := Pairing.le_add hb
  refine ⟨ρ.add w.next e.next hc, ⟨e.next, 0⟩, e.addBlock bytes, hle, rfl, ?_, Pairing.add_self, rfl⟩
  have hs : w.Steps (w.addBlock bytes) := .single (.block w bytes hfrag)
  have hs' : e.Steps (e.addBlock bytes) := .single (.block e bytes hfrag)
  exact {
    whole := h.whole.steps hs
    whole' := h.whole'.steps hs'
    later := h.later.trans (hs'.later h.whole'.ok)
    mem := by
      refine h.mem.alloc hb fun x hx => ?_
      cases x with
      | undef => exact .undef
      | byte b => exact .byte b
      | frag p i => exact absurd hx (hfrag p i)
    data := fun b c hbc => by
      obtain ⟨rfl, rfl⟩ | hold := Pairing.add_cases hbc
      · exact ⟨⟨h.whole.ok.tree.fresh _ (Nat.le_refl _), Nat.lt_succ_self _⟩,
          h.whole'.ok.tree.fresh _ (Nat.le_refl _), Nat.lt_succ_self _⟩
      · exact ⟨hs.dataPtr (h.data b c hold).1, hs'.dataPtr (h.data b c hold).2⟩
    globals := h.globals
    literal := fun b c hbc hglobal => by
      obtain ⟨rfl, rfl⟩ | hold := Pairing.add_cases hbc
      · exact hglobal.elim (fun hb => absurd hb h.whole.ok.next_not_global)
          fun hc => absurd hc h.whole'.ok.next_not_global
      · exact h.literal b c hold hglobal
    entered := fun b c n hbc hn => by
      obtain ⟨rfl, rfl⟩ | hold := Pairing.add_cases hbc
      · exact absurd (World.globalPtr_isGlobal hn) h.whole.ok.next_not_global
      · exact h.entered b c n hold hn
    sizes := fun p q hpq => by
      obtain ⟨hp, hq⟩ | hold := Pairing.add_cases hpq.block
      · exact (h.vacant' q (.inl hq.ge)).trans (h.vacant p (.inl hp.ge)).symm
      · exact h.sizes p q ⟨hold, hpq.offset⟩
    vacant := fun p hp => h.vacant p (hp.imp_left (Nat.le_succ _).trans)
    vacant' := fun q hq => h.vacant' q (hq.imp_left (Nat.le_succ _).trans)
    frame := fun r p hp => by
      obtain ⟨q, hq, hpq⟩ := h.frame r p hp
      exact ⟨q, hq, hpq.mono hle⟩ }

/-- Entries for blocks that correspond, and are no literals'. -/
theorem Mirrors.setAlloc {d : AllocData} {ρ : Pairing} {w w' e : World} (h : Mirrors inputs first ρ w e)
    (hpq : ρ.Ptrs p q) (hp : ¬w.IsGlobal p.block) (hrun : setAlloc p d w = .ok ((), w')) :
    ∃ e', DGen.setAlloc q d e = .ok ((), e') ∧ Mirrors inputs first ρ w' e' := by
  obtain ⟨e', hrun'⟩ : ∃ e', DGen.setAlloc q d e = .ok ((), e') := ⟨_, rfl⟩
  have hq : ¬e.IsGlobal q.block := by
    intro hq
    have hblock := h.literal _ _ hpq.block (.inr hq)
    exact hp (h.isGlobal.mpr (hblock ▸ hq))
  have hs : w.Steps w' := .single (setAlloc_step hrun fun _ => hp)
  have hs' : e.Steps e' := .single (setAlloc_step hrun' fun _ => hq)
  have hsize := fun p' => setAlloc_allocSize (q := p') hrun
  have hsize' := fun q' => setAlloc_allocSize (q := q') hrun'
  obtain ⟨l, rfl⟩ := setAlloc_ok hrun
  obtain ⟨l', rfl⟩ := setAlloc_ok hrun'
  obtain ⟨hdata, hdata'⟩ := h.ptrs hpq
  refine ⟨_, hrun', { h with
    whole := h.whole.steps hs
    whole' := h.whole'.steps hs'
    later := h.later.trans (hs'.later h.whole'.ok)
    entered := fun b c n hbc hn => ?_
    sizes := fun p' q' hpq' => ?_
    vacant := fun p' hp' => ?_
    vacant' := fun q' hq' => ?_ }⟩
  · rw [hsize, if_neg]
    · exact h.entered b c n hbc hn
    · rintro rfl
      exact hp (World.globalPtr_isGlobal hn)
  · rw [hsize, hsize', h.sizes p' q' hpq']
    simp only [hpq'.eq_iff hpq]
  · rw [hsize, if_neg]
    · exact h.vacant p' hp'
    · rintro rfl
      exact hp'.elim (fun hle => absurd hdata.2 (Nat.not_lt.mpr hle)) fun hglobal => hp hglobal.1
  · rw [hsize', if_neg]
    · exact h.vacant' q' hq'
    · rintro rfl
      exact hq'.elim (fun hle => absurd hdata'.2 (Nat.not_lt.mpr hle)) fun hglobal => hq hglobal.1

/-- A new block that is entered into the table. -/
theorem newBlock_setAlloc_mirrored {bytes : List MByte} {d : AllocData} (hfrag : ∀ p i, .frag p i ∉ bytes) :
    Mirrored (replay inputs last first) (fun _ => True)
      (do
        let p ← newBlock bytes
        setAlloc p d
        return p)
      (do
        let p ← newBlock bytes
        setAlloc p d
        return p) Pairing.Ptrs := by
  intro ρ w e h _ p w' hrun hl
  obtain ⟨p, w₁, hb, hrun⟩ := bind_ok_iff.mp hrun
  obtain ⟨_, w₂, ha, hrun⟩ := bind_ok_iff.mp hrun
  obtain ⟨rfl, rfl⟩ := pure_ok_iff.mp hrun
  have hok₁ := (newBlock_steps hfrag hb h.whole.ok).1.ok h.whole.ok
  have hnew : ¬w₁.IsGlobal p.block := by
    obtain ⟨rfl, rfl⟩ := newBlock_ok_iff.mp hb
    exact h.whole.ok.next_not_global
  have hl₁ : Later w₁ last := ((setAlloc_step ha fun _ => hnew).later hok₁).trans hl
  obtain ⟨ρ₁, q, e₁, hle₁, hb', h₁, hpq⟩ := newBlock_mirrored hfrag h trivial hb hl₁
  obtain ⟨e₂, ha', h₂⟩ := h₁.setAlloc hpq hnew ha
  refine ⟨ρ₁, q, e₂, hle₁, ?_, h₂, hpq⟩
  exact bind_ok_iff.mpr ⟨q, e₁, hb', bind_ok_iff.mpr ⟨(), e₂, ha', rfl⟩⟩

/-- A literal's block that is entered on both sides corresponds to itself. -/
theorem Mirrors.literal_paired {ρ : Pairing} {w e : World} (h : Mirrors inputs first ρ w e) {n : StringNode}
    (hn : w.globalPtr n = some p) (hsize : w.allocSize p = n.size) (hsize' : e.allocSize p = n.size) :
    ∃ ρ', ρ ≤ ρ' ∧ Mirrors inputs first ρ' w e ∧ ρ'.Ptrs p p := by
  have hglobal := World.globalPtr_isGlobal hn
  have hoff := (World.globalPtr_some hn).2
  cases hpair : ρ.pair p.block with
  | some c =>
    obtain rfl : p.block = c := h.literal _ _ hpair (.inl hglobal)
    exact ⟨ρ, le_rfl, h, hpair, rfl⟩
  | none =>
    have hnone : ∀ b', ρ.pair b' ≠ some p.block := by
      intro b' hb'
      obtain rfl := h.literal _ _ hb' (.inr (h.isGlobal.mp hglobal))
      cases hpair.symm.trans hb'
    have hmem := h.whole.loaded.globalPtr_mem hn
    have hmem' := h.whole'.loaded.globalPtr_mem ((h.globalPtr n).symm.trans hn)
    have hle : ρ ≤ ρ.add p.block p.block hnone := Pairing.le_add hpair
    refine ⟨_, hle, { h with mem := ?_, data := ?_, literal := ?_, entered := ?_, sizes := ?_, frame := ?_ },
      Pairing.add_self, rfl⟩
    · have hbytes : ∀ x ∈ n.bytes, (ρ.add p.block p.block hnone).Bytes x x := by
        rw [StringNode.bytes, List.forall_mem_map]
        exact fun b _ => .byte b
      have hpaired := h.mem.alloc hpair hbytes
      rwa [Mem.alloc, Mem.alloc, Function.update_eq_self_iff.mpr hmem.symm,
        Function.update_eq_self_iff.mpr hmem'.symm] at hpaired
    · intro b c hbc
      obtain ⟨rfl, rfl⟩ | hold := Pairing.add_cases hbc
      · exact ⟨h.whole.ok.global_dataPtr hglobal, h.whole'.ok.global_dataPtr (h.isGlobal.mp hglobal)⟩
      · exact h.data b c hold
    · intro b c hbc hb
      obtain ⟨rfl, rfl⟩ | hold := Pairing.add_cases hbc
      · rfl
      · exact h.literal b c hold hb
    · intro b c n' hbc hn'
      obtain ⟨rfl, rfl⟩ | hold := Pairing.add_cases hbc
      · have hp : (⟨p.block, 0⟩ : Ptr) = p := congrArg (Ptr.mk p.block) hoff.symm
        rw [hp] at hn' ⊢
        exact hsize.trans (h.whole.loaded.size_eq hn hn')
      · exact h.entered b c n' hold hn'
    · intro p' q' hpq'
      obtain ⟨hp', hq'⟩ | hold := Pairing.add_cases hpq'.block
      · obtain rfl : p' = q' := congrArg₂ Ptr.mk (hp'.trans hq'.symm) hpq'.offset.symm
        by_cases hzero : p'.offset = 0
        · obtain rfl : p' = p := congrArg₂ Ptr.mk hp' (hzero.trans hoff.symm)
          rw [hsize, hsize']
        · have hin : w.IsGlobal p'.block := hp' ▸ hglobal
          rw [h.vacant p' (.inr ⟨hin, hzero⟩), h.vacant' p' (.inr ⟨h.isGlobal.mp hin, hzero⟩)]
      · exact h.sizes p' q' ⟨hold, hpq'.offset⟩
    · intro r p' hp'
      obtain ⟨q', hq', hpq'⟩ := h.frame r p' hp'
      exact ⟨q', hq', hpq'.mono hle⟩

/-- A literal is where it is, and its length is entered. -/
theorem globalString_mirrored {n : StringNode} : Mirrored (replay inputs last first) (fun _ => True) (globalString n)
    (globalString n) Pairing.Ptrs := by
  intro ρ w e h _ p w' hrun _
  obtain ⟨hp, -, k, hk, hset⟩ := (globalString_enters_iff h.whole.ok).mp hrun
  have hp' := (h.globalPtr n).symm.trans hp
  obtain ⟨e', hset'⟩ : ∃ e', setAlloc p ⟨false, BitVec.ofNat 32 k⟩ e = .ok ((), e') := ⟨_, rfl⟩
  have hrun' : globalString n e = .ok (p, e') :=
    (globalString_enters_iff h.whole'.ok).mpr ⟨hp', h.whole'.loaded.globalPtr_mem hp', k, hk, hset'⟩
  have hs := (globalString_steps hrun h.whole.ok).1
  have hs' := (globalString_steps hrun' h.whole'.ok).1
  have hadds := (AddsFrom.globalString hrun h.whole.ok (Nat.le_refl _)).2
  have hadds' := (AddsFrom.globalString hrun' h.whole'.ok (Nat.le_refl _)).2
  have h' := (h.left (h.whole.steps hs) (hs.later h.whole.ok) hadds).right (h.whole'.steps hs')
    (hs'.later h.whole'.ok) hadds'
  have hk' : (BitVec.ofNat 32 k).toNat = n.size := by rw [StringNode.size, hk, Option.getD_some]
  have hsize : w'.allocSize p = n.size := by rw [setAlloc_allocSize hset, if_pos rfl, hk']
  have hsize' : e'.allocSize p = n.size := by rw [setAlloc_allocSize hset', if_pos rfl, hk']
  have hn : w'.globalPtr n = some p := (World.globalPtr_congr hadds.globals n).trans hp
  obtain ⟨ρ', hle, h'', hpp⟩ := h'.literal_paired hn hsize hsize'
  exact ⟨ρ', p, e', hle, hrun', h'', hpp⟩

theorem storeMem_mirrored : Mirrored (replay inputs last first) (fun ρ => ρ.Ptrs p q ∧ ρ.Vals v u) (storeMem p v)
    (storeMem q u) fun _ _ _ => True := by
  rintro ρ w e h ⟨hpq, hvu⟩ _ w' hrun _
  obtain ⟨hdata, hdata'⟩ := h.ptrs hpq
  obtain ⟨hv, hu⟩ := h.vals hvu
  obtain ⟨hglobal, m, hm, rfl⟩ := (storeMem_ok_iff hdata.1).mp hrun
  obtain ⟨m', hm', hmem⟩ := h.mem.store hpq hvu hm
  have hglobal' : ¬e.IsGlobal q.block := by
    intro hq
    have hblock := h.literal _ _ hpq.block (.inr hq)
    exact hglobal (h.isGlobal.mpr (hblock ▸ hq))
  have hs : w.Steps { w with mem := m } := .single (.store hdata hglobal hv hm)
  have hs' : e.Steps { e with mem := m' } := .single (.store hdata' hglobal' hu hm')
  refine ⟨ρ, (), { e with mem := m' }, le_rfl, (storeMem_ok_iff hdata'.1).mpr ⟨hglobal', m', hm', rfl⟩, ?_, trivial⟩
  exact { h with
    whole := h.whole.steps hs
    whole' := h.whole'.steps hs'
    later := h.later.trans (hs'.later h.whole'.ok)
    mem := hmem }

theorem loadMem_mirrored {c : Chunk} : Mirrored (replay inputs last first) (fun ρ => ρ.Ptrs p q) (loadMem c p)
    (loadMem c q) Pairing.Vals := by
  intro ρ w e h hpq v w' hrun _
  obtain ⟨hload, rfl⟩ := loadMem_ok_iff.mp hrun
  obtain ⟨u, hu, hvu⟩ := h.mem.load hpq hload
  exact ⟨ρ, u, e, le_rfl, loadMem_ok_iff.mpr ⟨hu, rfl⟩, h, hvu⟩

theorem getAlloc_mirrored : Mirrored (replay inputs last first) (fun ρ => ρ.Ptrs p q) (getAlloc p) (getAlloc q)
    fun _ d d' => d'.size = d.size := by
  intro ρ w e h hpq d w' hrun _
  obtain ⟨d', e', hrun'⟩ : ∃ d' e', getAlloc q e = .ok (d', e') := by
    unfold getAlloc
    split <;> exact ⟨_, _, rfl⟩
  have hs := (getAlloc_generates hrun h.whole.ok).1
  have hs' := (getAlloc_generates hrun' h.whole'.ok).1
  have hadds := (Leaving.getAlloc hrun h.whole.ok).2.adds w.next
  have hadds' := (Leaving.getAlloc hrun' h.whole'.ok).2.adds e.next
  refine ⟨ρ, d', e', le_rfl, hrun', ?_, ?_⟩
  · exact (h.left (h.whole.steps hs) (hs.later h.whole.ok) hadds).right (h.whole'.steps hs')
      (hs'.later h.whole'.ok) hadds'
  · have hsize := h.sizes p q hpq
    rw [getAlloc_size hrun, getAlloc_size hrun'] at hsize
    exact BitVec.eq_of_toNat_eq hsize

end

/-! ## Copies -/

section

variable {id id' : SymId} {copyArr : SymId → M Ptr}

/-- What begins with the class of a symbol: the other one is of it too. -/
theorem getSym_mirrored (hc : Common inputs vs last first) (h : Shares last.syms first.syms id id') {f : SymObj → M α}
    {g : SymObj → M β} {Q : Pairing → α → β → Prop} (hway : OnTheWay (replay inputs last first) (getSym id >>= f))
    (hf : ∀ {name val name' val'}, SymVal.cls val' = val.cls →
      Mirrored (replay inputs last first) (fun _ => True) (f ⟨name, val⟩) (g ⟨name', val'⟩) Q) :
    Mirrored (replay inputs last first) (fun _ => True) (getSym id >>= f) (getSym id' >>= g) Q := by
  intro ρ w e hr _ v w' hrun hl
  have hlast : Later w last := (hway hr.whole hrun).2 hl
  obtain ⟨⟨name, val⟩, _, hget, hrun⟩ := bind_ok_iff.mp hrun
  obtain ⟨ho, rfl⟩ := getSym_ok_iff.mp hget
  obtain ⟨_, val₁, name', val', -, hcls, ho', hval⟩ := hc.seen_cls h hlast hr.later ho
  have hcls' : val'.cls = val₁.cls := by cases hval <;> rfl
  rw [bind_of_ok (getSym_ok_iff.mpr ⟨ho', rfl⟩)]
  exact hf (hcls'.trans hcls) hr trivial hrun hl

theorem mirrored_map {P : Pairing → Prop} {Q : Pairing → α → β → Prop} {γ δ : Type} {T : Pairing → γ → δ → Prop}
    {f : α → γ} {g : β → δ} (hx : Mirrored (replay inputs last first) P x y Q) (hgen : Generates x)
    (h : ∀ ρ a b, Q ρ a b → T ρ (f a) (g b)) :
    Mirrored (replay inputs last first) P (do return f (← x)) (do return g (← y)) T :=
  hx.bind hgen.onTheWay (fun _ => .pure) fun a b => .pure fun ρ hq => h ρ a b hq

theorem fillVal_mirrored (hc : Common inputs vs last first) (hsteps : ∀ id, Stepwise (copyArr id) World.DataPtr)
    (hcopy : ∀ {id id'}, Shares last.syms first.syms id id' →
      Mirrored (replay inputs last first) (fun _ => True) (copyArr id) (copyArr id') Pairing.Ptrs)
    (h : Shares last.syms first.syms id id') :
    Mirrored (replay inputs last first) (fun _ => True) (fillVal copyArr id) (fillVal copyArr id') Pairing.Vals := by
  refine getSym_mirrored hc h (fillVal_generates hsteps).onTheWay fun {name val name' val'} hcls => ?_
  cases val <;> cases val' <;> cases hcls
  · refine mirrored_map (numRandGen_mirrored hc h) numRandGen_generates fun ρ a b hb => ?_
    obtain rfl := hb
    exact .int32 b
  · refine mirrored_map (charRandGen_mirrored hc h) charRandGen_generates fun ρ a b hb => ?_
    obtain rfl := hb
    exact .int8 b
  · refine mirrored_map (boolRandGen_mirrored hc h) boolRandGen_generates fun ρ a b hb => ?_
    obtain rfl := hb
    exact .int8 b
  · exact mirrored_map (hcopy h) (hsteps id).generates fun ρ p q hpq => .ptr hpq

/-- Elements are copied one beside the other. -/
theorem fillElems_mirrored (hc : Common inputs vs last first) (hsteps : ∀ id, Stepwise (copyArr id) World.DataPtr)
    (hcopy : ∀ {id id'}, Shares last.syms first.syms id id' →
      Mirrored (replay inputs last first) (fun _ => True) (copyArr id) (copyArr id') Pairing.Ptrs) {size : Nat}
    {elems elems' : List SymId} (h : List.Forall₂ (Shares last.syms first.syms) elems elems') :
    ∀ {p q : Ptr}, Mirrored (replay inputs last first) (fun ρ => ρ.Ptrs p q) (fillElems copyArr size p elems)
      (fillElems copyArr size q elems') fun _ _ _ => True := by
  induction h with
  | nil => exact fun {p q} => .pure fun _ _ => trivial
  | @cons id id' elems elems' hid _ ih =>
    intro p q ρ w e hr hpq u w' hrun hl
    obtain ⟨_, w₂, h₁, hrest⟩ := bind_ok_iff.mp hrun
    obtain ⟨v, w₁, hv, hst⟩ := bind_ok_iff.mp h₁
    -- the states between lead on to the last one too
    obtain ⟨hs₁, hval⟩ := fillVal_generates hsteps hv hr.whole.ok
    have hok₁ := hs₁.ok hr.whole.ok
    have hp₁ := hs₁.dataPtr (hr.ptrs hpq).1
    obtain ⟨hglobal, m, hm, rfl⟩ := (storeMem_ok_iff hp₁.1).mp hst
    have hs₂ : w₁.Steps { w₁ with mem := m } := .single (.store hp₁ hglobal hval hm)
    have hs₃ := fillElems_steps hsteps hrest (hs₂.ok hok₁) (hs₂.dataPtr hp₁)
    have hl₂ := (hs₃.later (hs₂.ok hok₁)).trans hl
    have hl₁ := (hs₂.later hok₁).trans hl₂
    obtain ⟨ρ₁, u₁, e₁, hle₁, hv', hr₁, hvals⟩ := fillVal_mirrored hc hsteps hcopy hid hr trivial hv hl₁
    obtain ⟨ρ₂, _, e₂, hle₂, hst', hr₂, -⟩ := storeMem_mirrored hr₁ ⟨hpq.mono hle₁, hvals⟩ hst hl₂
    have hpq₂ := (hpq.mono (hle₁.trans hle₂)).add size
    obtain ⟨ρ₃, _, e₃, hle₃, hrest', hr₃, -⟩ := ih hr₂ hpq₂ hrest hl
    refine ⟨ρ₃, (), e₃, (hle₁.trans hle₂).trans hle₃, ?_, hr₃, trivial⟩
    exact bind_ok_iff.mpr ⟨(), e₂, bind_ok_iff.mpr ⟨u₁, e₁, hv', hst'⟩, hrest'⟩

/-- What `arr_rand_gen` comes to, from its parts. -/
theorem arrRandGenDepth_succ_of {n : Nat} {arr : SymId} {size : BitVec 32} {name : String} {type : ArrType}
    {s : Option (BitVec 32)} {elems : List SymId} {w w₁ w₂ w' : World} {p : Ptr}
    (hsize : getSize arr w = .ok (size, w₁))
    (ho : w₁.syms arr = some ⟨name, .array type s elems⟩) (hsmall : size.toInt * type.elem.newSym.sizeof < 2 ^ 31)
    (hblock : (do
      let data ← newBlock (List.replicate (size.toNat * type.elem.newSym.sizeof) .undef)
      setAlloc data ⟨true, size⟩
      return data) w₁ = .ok (p, w₂))
    (hf : fillElems (arrRandGenDepth n) type.elem.newSym.sizeof p elems w₂ = .ok ((), w')) :
    arrRandGenDepth (n + 1) arr w = .ok (p, w') := by
  obtain ⟨data, w₃, hb, hblock⟩ := bind_ok_iff.mp hblock
  obtain ⟨_, _, ha, hblock⟩ := bind_ok_iff.mp hblock
  obtain ⟨rfl, rfl⟩ := pure_ok_iff.mp hblock
  have hsmall' : ¬ 2 ^ 31 ≤ size.toInt * type.elem.newSym.sizeof := Int.not_le.mpr hsmall
  rw [arrRandGenDepth, bind_of_ok hsize, bind_of_ok (getSym_ok_iff.mpr ⟨ho, rfl⟩)]
  dsimp only
  rw [if_neg hsmall', malloc, bind_of_ok hb, bind_of_ok ha, bind_of_ok hf]
  rfl

/-- Two copies of an array: blocks of one size, with one length in the table. -/
theorem arrRandGenDepth_mirrored (hc : Common inputs vs last first) : ∀ {n : Nat} {id id' : SymId},
    Shares last.syms first.syms id id' → Mirrored (replay inputs last first) (fun _ => True) (arrRandGenDepth n id)
      (arrRandGenDepth n id') Pairing.Ptrs
  | 0, _, _, _ => .of_never fun _ _ _ h => by cases h
  | n + 1, id, id', h => by
    intro ρ w e hr _ p w' hrun hl
    have hok := hr.whole.ok
    obtain ⟨size, w₁, name, type, s, elems, w₂, hsize, ho, hsmall, ha, rfl, hf⟩ := arrRandGenDepth_succ_ok hrun
    have hok₁ := (getSize_generates hsize hok).1.ok hok
    obtain ⟨hs₂, hdata, -⟩ := block_entered (by simp) ha hok₁
    have hs₃ := fillElems_steps (fun _ => arrRandGenDepth_generates) hf (hs₂.ok hok₁) hdata
    have hl₂ := (hs₃.later (hs₂.ok hok₁)).trans hl
    have hl₁ := (hs₂.later hok₁).trans hl₂
    obtain ⟨ρ₁, size', e₁, hle₁, hsize', hr₁, hsame⟩ := getSize_mirrored hc h hr trivial hsize hl₁
    obtain rfl : size' = size := hsame
    -- the array has its length now, and the elements share their contents
    obtain ⟨name, type', elems', ho₁⟩ := getSize_holds hsize
    cases ho.symm.trans ho₁
    obtain ⟨name', val', ho', hval⟩ := hc.seen h hl₁ hr₁.later ho rfl
    cases hval with
    | array _ _ helems =>
      have hblock : (do
          let data ← newBlock (List.replicate (size'.toNat * type.elem.newSym.sizeof) .undef)
          setAlloc data ⟨true, size'⟩
          return data) w₁ = .ok (⟨w₁.next, 0⟩, w₂) := bind_ok_iff.mpr ⟨_, _, rfl, bind_ok_iff.mpr ⟨(), w₂, ha, rfl⟩⟩
      obtain ⟨ρ₂, q, e₂, hle₂, hblock', hr₂, hpq⟩ :=
        newBlock_setAlloc_mirrored (by simp) hr₁ trivial hblock hl₂
      obtain ⟨ρ₃, _, e₃, hle₃, hf', hr₃, -⟩ := fillElems_mirrored hc (fun _ => arrRandGenDepth_generates)
        (arrRandGenDepth_mirrored hc) helems hr₂ hpq hf hl
      refine ⟨ρ₃, q, e₃, (hle₁.trans hle₂).trans hle₃, ?_, hr₃, hpq.mono hle₃⟩
      exact arrRandGenDepth_succ_of hsize' ho' hsmall hblock' hf'

theorem arrRandGen_mirrored (hc : Common inputs vs last first) (h : Shares last.syms first.syms id id') :
    Mirrored (replay inputs last first) (fun _ => True) (arrRandGen id) (arrRandGen id') Pairing.Ptrs := by
  refine getSym_mirrored hc h arrRandGen_generates.onTheWay fun {name val name' val'} hcls => ?_
  cases val <;> cases val' <;> cases hcls
  case array.array => exact arrRandGenDepth_mirrored hc h
  all_goals exact .of_never fun _ _ _ h => by cases h

end

/-! ## Generated code -/

section

variable {P : Pairing → Prop} {v u a a' b b' : Val}

theorem mirrored_ofOption {o : Option α} {o' : Option β} {f : Fault} {Q : Pairing → α → β → Prop}
    (h : ∀ ρ, P ρ → ∀ v, o = some v → ∃ u, o' = some u ∧ Q ρ v u) :
    Mirrored (replay inputs last first) P (ofOption f o) (ofOption f o') Q := by
  intro ρ w e hr hp v w' hrun _
  obtain ⟨hv, rfl⟩ := ofOption_ok_iff.mp hrun
  obtain ⟨u, hu, hq⟩ := h ρ hp v hv
  exact ⟨ρ, u, e, le_rfl, ofOption_ok_iff.mpr ⟨hu, rfl⟩, hr, hq⟩

theorem inputId_mirrored (hc : Common inputs vs last first) {r : SymRef} :
    Mirrored (replay inputs last first) (fun _ => True) (inputId r) (inputId r) fun _ =>
      Shares last.syms first.syms := by
  intro ρ w e hr _ id w' hrun hl
  obtain ⟨⟨i, rfl, hid⟩, rfl⟩ := inputId_ok_iff.mp hrun
  rw [← hl.inputs] at hid
  obtain ⟨hi, rfl⟩ := List.getElem?_eq_some_iff.mp hid
  have hi' := hc.shares.length_eq ▸ hi
  refine ⟨ρ, _, e, le_rfl, inputId_ok_iff.mpr ⟨⟨i, rfl, ?_⟩, rfl⟩, hr, hc.shares.get hi hi'⟩
  rw [hr.later.inputs]
  exact List.getElem?_eq_getElem hi'

theorem asPtr_mirrored : Mirrored (replay inputs last first) (fun ρ => ρ.Vals v u) (asPtr v) (asPtr u) Pairing.Ptrs := by
  intro ρ w e hr hvu p w' hrun _
  obtain ⟨rfl, rfl⟩ := asPtr_ok_iff.mp hrun
  cases hvu with
  | ptr hpq => exact ⟨ρ, _, e, le_rfl, rfl, hr, hpq⟩

theorem asInt32_mirrored : Mirrored (replay inputs last first) (fun ρ => ρ.Vals v u) (asInt32 v) (asInt32 u)
    fun _ n n' => n' = n := by
  intro ρ w e hr hvu n w' hrun _
  obtain ⟨rfl, rfl⟩ := asInt32_ok_iff.mp hrun
  cases hvu
  exact ⟨ρ, n, e, le_rfl, rfl, hr, rfl⟩

theorem gepOffset_mirrored {elem : LTy} : Mirrored (replay inputs last first) (fun ρ => ρ.Vals v u) (gepOffset elem v)
    (gepOffset elem u) fun _ n n' => n' = n := by
  intro ρ w e hr hvu n w' hrun _
  cases hvu with
  | ptr => cases hrun
  | _ =>
    obtain ⟨rfl, rfl⟩ := pure_ok_iff.mp hrun
    exact ⟨ρ, _, e, le_rfl, rfl, hr, rfl⟩

/-- Arithmetic is on integers, which are the same. -/
theorem BinInst.eval_mirrored {ρ : Pairing} {op : BinInst} (ha : ρ.Vals a a') (hb : ρ.Vals b b')
    (h : op.eval a b = some v) : ∃ u, op.eval a' b' = some u ∧ ρ.Vals v u := by
  have hself : ρ.Vals v v := .same (op.eval_int h)
  cases ha <;> cases hb <;> exact ⟨v, h, hself⟩

/-- Pointers are compared too: they are equal on both sides or on neither. -/
theorem IcmpPred.eval_mirrored {ρ : Pairing} {pred : IcmpPred} {addr addr' : Nat → BitVec 64} (ha : ρ.Vals a a')
    (hb : ρ.Vals b b') (hnum : pred.orders = true → ∀ p, a ≠ .ptr p) (h : pred.eval addr a b = some v) :
    ∃ u, pred.eval addr' a' b' = some u ∧ ρ.Vals v u := by
  have hself : ρ.Vals v v := .same (pred.eval_int h)
  refine ⟨v, ?_, hself⟩
  rw [← h]
  cases ha with
  | ptr ha =>
    cases hb with
    | ptr hb =>
      cases pred with
      | eq | ne => simp [IcmpPred.eval, bne, ha.eq_iff hb]
      | _ => exact absurd rfl (hnum rfl _)
    | _ => rfl
  | _ => cases hb <;> rfl

theorem intCast_mirrored {ρ : Pairing} {dest : LTy} (ha : ρ.Vals a a') (h : intCast a dest = some v) :
    ∃ u, intCast a' dest = some u ∧ ρ.Vals v u := by
  have hself : ρ.Vals v v := .same (intCast_int h)
  cases ha with
  | ptr => cases h
  | _ => exact ⟨v, h, hself⟩

end

theorem vals_lasting {v u : Val} : Simulation.Lasting fun ρ : Pairing => ρ.Vals v u := fun _ _ hle h => h.mono hle

theorem ptrs_lasting {p q : Ptr} : Simulation.Lasting fun ρ : Pairing => ρ.Ptrs p q := fun _ _ hle h => h.mono hle

theorem asPtr_generates {v : Val} : Generates (asPtr v) := .read fun h => ⟨(asPtr_ok_iff.mp h).2, fun _ => trivial⟩

/-- One part after the other, of what is made of steps. -/
theorem mirrored_bind {P : Pairing → Prop} {Q : Pairing → α → β → Prop} {γ δ : Type} {T : Pairing → γ → δ → Prop}
    {f : α → M γ} {g : β → M δ} {post : World → α → Prop} (hx : Mirrored (replay inputs last first) P x y Q)
    (hs : Stepwise x post) (hrest : ∀ a, Generates (f a))
    (hf : ∀ a b, Mirrored (replay inputs last first) (fun ρ => Q ρ a b) (f a) (g b) T) :
    Mirrored (replay inputs last first) P (x >>= f) (y >>= g) T :=
  hx.bind hs.onTheWay (fun a => (hrest a).onTheWay) hf

/-- Two operands, and what is computed from them. -/
theorem operands_mirrored {l r : LVal} {f : Val → Val → Option Val}
    (hl : Mirrored (replay inputs last first) (fun _ => True) l.eval l.eval Pairing.Vals)
    (hr : Mirrored (replay inputs last first) (fun _ => True) r.eval r.eval Pairing.Vals)
    (hf : ∀ {ρ : Pairing} {a a' b b' v}, ρ.Vals a a' → ρ.Vals b b' → f a b = some v → ∃ u, f a' b' = some u ∧
      ρ.Vals v u) :
    Mirrored (replay inputs last first) (fun _ => True)
      (do ofOption .undefined (f (← l.eval) (← r.eval)))
      (do ofOption .undefined (f (← l.eval) (← r.eval))) Pairing.Vals := by
  refine mirrored_bind hl l.eval_steps (fun a => r.eval_steps.bind fun _ => ofOption_generates) fun a a' => ?_
  refine mirrored_bind (hr.keeping (fun _ _ => trivial) vals_lasting) r.eval_steps (fun _ => ofOption_generates)
    fun b b' => ?_
  exact mirrored_ofOption fun ρ hab v hv => hf hab.2 hab.1 hv

theorem createArr_mirrored {len : BitVec 32} {size : Nat} : Mirrored (replay inputs last first) (fun _ => True)
    (createArr len size) (createArr len size) Pairing.Ptrs := by
  unfold createArr
  split
  · exact .of_never fun _ _ _ h => by cases h
  · exact newBlock_setAlloc_mirrored (by simp)

mutual

/-- **Generated code that orders numbers only evaluates to the same** on inputs
that are determined already. -/
theorem LVal.eval_mirrored (hc : Common inputs vs last first) : ∀ v : LVal, v.OrdersNumbers inputs →
    Mirrored (replay inputs last first) (fun _ => True) v.eval v.eval Pairing.Vals
  | .getInt8 v, _ => .pure fun _ _ => .int8 v
  | .getInt32 v, _ => .pure fun _ _ => .int32 v
  | .globalStringPtr _, _ =>
    mirrored_map globalString_mirrored globalString_steps.generates fun _ _ _ hp => .ptr hp
  | .bin op lhs rhs, ho =>
    operands_mirrored (eval_mirrored hc lhs ho.1) (eval_mirrored hc rhs ho.2) BinInst.eval_mirrored
  | .icmp pred lhs rhs, ho => by
    intro ρ w e hr _ v w' hrun hl
    obtain ⟨a, w₁, b, ha, hb, hv⟩ := LVal.icmp_ok_iff.mp hrun
    have hok₁ := (lhs.eval_steps ha hr.whole.ok).1.ok hr.whole.ok
    have hl₁ := ((rhs.eval_steps hb hok₁).1.later hok₁).trans hl
    obtain ⟨ρ₁, a', e₁, hle₁, ha', hr₁, haa'⟩ := eval_mirrored hc lhs ho.2.1 hr trivial ha hl₁
    obtain ⟨ρ₂, b', e₂, hle₂, hb', hr₂, hbb'⟩ := eval_mirrored hc rhs ho.2.2 hr₁ trivial hb hl
    obtain ⟨u, hu, hvu⟩ := IcmpPred.eval_mirrored (haa'.mono hle₂) hbb'
      (fun hord => ho.1 hord ha hr.whole.toWhole) hv
    exact ⟨ρ₂, u, e₂, hle₁.trans hle₂, LVal.icmp_ok_iff.mpr ⟨a', e₁, b', ha', hb', hu⟩, hr₂, hvu⟩
  | .alloca (some s) _, _ => by
    intro ρ w e hr _ v w' hrun _
    obtain ⟨_, _, hg, hrun⟩ := bind_ok_iff.mp hrun
    obtain ⟨rfl, rfl⟩ := get_ok_iff.mp hg
    obtain ⟨p, _, ho, hrun⟩ := bind_ok_iff.mp hrun
    obtain ⟨hp, rfl⟩ := ofOption_ok_iff.mp ho
    obtain ⟨rfl, rfl⟩ := pure_ok_iff.mp hrun
    obtain ⟨q, hq, hpq⟩ := hr.frame _ _ hp
    refine ⟨ρ, .ptr q, e, le_rfl, ?_, hr, .ptr hpq⟩
    exact bind_ok_iff.mpr ⟨e, e, get_ok_iff.mpr ⟨rfl, rfl⟩,
      bind_ok_iff.mpr ⟨q, e, ofOption_ok_iff.mpr ⟨hq, rfl⟩, pure_ok_iff.mpr ⟨rfl, rfl⟩⟩⟩
  | .alloca none _, _ =>
    mirrored_map (newBlock_mirrored (by simp)) (newBlock_steps (by simp)).generates fun _ _ _ hp => .ptr hp
  | .load ty addr, ho => by
    have hload (p : Ptr) : Generates (do loadMem (← ofOption .undefined ty.chunk) p : M Val) :=
      ofOption_generates.bind fun _ => loadMem_steps.generates
    refine mirrored_bind (eval_mirrored hc addr ho) addr.eval_steps (fun _ => asPtr_generates.bind hload) fun v u => ?_
    refine mirrored_bind asPtr_mirrored asPtr_generates hload fun p q => ?_
    have hchunk : Mirrored (replay inputs last first) (fun ρ => ρ.Ptrs p q) (ofOption .undefined ty.chunk)
        (ofOption .undefined ty.chunk) fun ρ c c' => c' = c ∧ ρ.Ptrs p q :=
      mirrored_ofOption fun _ hp c hcv => ⟨c, hcv, rfl, hp⟩
    refine mirrored_bind hchunk ofOption_generates (fun _ => loadMem_steps.generates) fun c c' => .given ?_
    rintro rfl
    exact loadMem_mirrored
  | .gep elem addr idx, ho => by
    have hoff (p : Ptr) (i : Val) : Generates (do return .ptr (p.add (← gepOffset elem i)) : M Val) :=
      gepOffset_generates.map fun _ _ _ => trivial
    have hidx (p : Ptr) : Generates (do
        let n ← gepOffset elem (← idx.eval)
        return .ptr (p.add n) : M Val) := idx.eval_steps.bind (hoff p)
    refine mirrored_bind (eval_mirrored hc addr ho.1) addr.eval_steps (fun _ => asPtr_generates.bind hidx) fun v u => ?_
    refine mirrored_bind asPtr_mirrored asPtr_generates hidx fun p q => ?_
    refine mirrored_bind ((eval_mirrored hc idx ho.2).keeping (fun _ _ => trivial) ptrs_lasting) idx.eval_steps (hoff p)
      fun i j => ?_
    refine mirrored_bind (gepOffset_mirrored.keeping (fun _ h => h.1) (vals_lasting.and ptrs_lasting)) gepOffset_generates
      (fun _ => Stepwise.pure fun _ => trivial) fun n n' => .given ?_
    rintro rfl
    exact .pure fun _ h => .ptr (h.2.add n')
  | .intCast v dest, ho => by
    refine mirrored_bind (eval_mirrored hc v ho) v.eval_steps (fun _ => ofOption_generates) fun a a' => ?_
    exact mirrored_ofOption fun ρ ha v hv => intCast_mirrored ha hv
  | .randGen s _, _ => by
    refine mirrored_bind (inputId_mirrored hc) inputId_generates
      (fun _ => (fillVal_generates fun _ => arrRandGen_generates).generates) fun id id' => .of_fact fun hid => ?_
    exact fillVal_mirrored hc (fun _ => arrRandGen_generates) (arrRandGen_mirrored hc) hid
  | .getValArr s idxs _, ho => by
    have hget (is : List (BitVec 32)) (id : SymId) : Generates (DGen.getValArr id is) := getValArr_generates.generates
    refine mirrored_bind (inputId_mirrored hc) inputId_generates
      (fun id => (evalIdxs_generates idxs).bind fun is => hget is id) fun id id' => .of_fact fun hid => ?_
    refine mirrored_bind (evalIdxs_mirrored hc idxs ho) (evalIdxs_generates idxs) (fun is => hget is id)
      fun is is' => .of_fact ?_
    rintro rfl
    refine mirrored_bind (getSymbolByIdxs_mirrored hc hid) getSymbolByIdxs_generates
      (fun _ => (fillVal_generates fun _ => arrRandGen_generates).generates) fun sym sym' => .of_fact fun hsym => ?_
    exact fillVal_mirrored hc (fun _ => arrRandGen_generates) (arrRandGen_mirrored hc) hsym
  | .getPropertyInput _, _ => by
    refine mirrored_bind (inputId_mirrored hc) inputId_generates (fun _ => getSize_generates.map fun _ _ _ => trivial)
      fun id id' => .of_fact fun hid => ?_
    refine mirrored_map (getSize_mirrored hc hid) getSize_generates fun ρ n n' hn => ?_
    obtain rfl := hn
    exact .int32 n'
  | .getPropertyLocal _ data, ho => by
    have hsize (p : Ptr) : Generates (do return .int32 (← getAlloc p).size : M Val) :=
      getAlloc_generates.map fun _ _ _ => trivial
    refine mirrored_bind (eval_mirrored hc data ho) data.eval_steps (fun _ => asPtr_generates.bind hsize) fun v u => ?_
    refine mirrored_bind asPtr_mirrored asPtr_generates hsize fun p q => ?_
    refine mirrored_map getAlloc_mirrored getAlloc_generates fun ρ d d' hd => ?_
    rw [hd]
    exact .int32 d.size
  | .createArr _ len size, ho => by
    have hcreate (n : BitVec 32) : Generates (do return .ptr (← DGen.createArr n size) : M Val) :=
      createArr_steps.map fun _ _ _ => trivial
    refine mirrored_bind (eval_mirrored hc len ho) len.eval_steps (fun _ => asInt32_generates.bind hcreate) fun v u => ?_
    refine mirrored_bind asInt32_mirrored asInt32_generates hcreate fun n n' => .of_fact ?_
    rintro rfl
    exact mirrored_map createArr_mirrored createArr_steps.generates fun _ _ _ hp => .ptr hp

theorem LVal.evalIdxs_mirrored (hc : Common inputs vs last first) : ∀ vs : List LVal,
    LVal.OrdersNumbersIdxs inputs vs →
      Mirrored (replay inputs last first) (fun _ => True) (evalIdxs vs) (evalIdxs vs) fun _ is is' => is' = is
  | [], _ => .pure fun _ _ => rfl
  | v :: vs, ho => by
    have hrest (n : BitVec 32) : Generates (do return n :: (← evalIdxs vs) : M (List (BitVec 32))) :=
      (evalIdxs_generates vs).map fun _ _ _ => trivial
    refine mirrored_bind (eval_mirrored hc v ho.1) v.eval_steps (fun _ => asInt32_generates.bind hrest) fun a a' => ?_
    refine mirrored_bind asInt32_mirrored asInt32_generates hrest fun n n' => .of_fact ?_
    rintro rfl
    exact mirrored_map (evalIdxs_mirrored hc vs ho.2) (evalIdxs_generates vs) fun _ _ _ his => congrArg _ his

end

end

end DGen
