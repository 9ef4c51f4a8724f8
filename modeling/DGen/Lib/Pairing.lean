/-
Memories that are the same but for where their blocks are.
A pairing says which block of one stands for which of the other. What is
stored in paired blocks is the same, pointers being paired in their turn; an
access to one memory is then mirrored by one to the other.
-/
import DGen.Lib.Memory

namespace Memory

/-- Blocks of one memory, each with its own block of another. -/
structure Pairing where
  pair : Nat → Option Nat
  inj : ∀ {b b' c}, pair b = some c → pair b' = some c → b = b'

namespace Pairing

/-- More is paired. -/
instance : LE Pairing := ⟨fun ρ ρ' => ∀ b c, ρ.pair b = some c → ρ'.pair b = some c⟩

instance : Preorder Pairing where
  le_refl _ _ _ := id
  le_trans _ _ _ h h' b c hb := h' b c (h b c hb)

/-- Nothing is paired. -/
def empty : Pairing := ⟨fun _ => none, fun h => nomatch h⟩

/-- Two blocks that nothing has been paired with. -/
def add (ρ : Pairing) (b c : Nat) (hc : ∀ b', ρ.pair b' ≠ some c) : Pairing where
  pair := Function.update ρ.pair b (some c)
  inj := by
    intro x y d hx hy
    simp only [Function.update_apply] at hx hy
    split at hx <;> split at hy
    next hxb hyb => exact hxb.trans hyb.symm
    next => exact absurd (Option.some.inj hx ▸ hy) (hc y)
    next => exact absurd (Option.some.inj hy ▸ hx) (hc x)
    next => exact ρ.inj hx hy

variable {ρ ρ' : Pairing}

theorem add_self {b c : Nat} {hc : ∀ b', ρ.pair b' ≠ some c} : (ρ.add b c hc).pair b = some c :=
  Function.update_self ..

theorem le_add {b c : Nat} {hc : ∀ b', ρ.pair b' ≠ some c} (hb : ρ.pair b = none) : ρ ≤ ρ.add b c hc := by
  intro b' c' h
  have hne : b' ≠ b := fun he => by rw [he, hb] at h; cases h
  exact (Function.update_of_ne hne ..).trans h

theorem add_cases {b c : Nat} {hc : ∀ b', ρ.pair b' ≠ some c} {b' c' : Nat} (h : (ρ.add b c hc).pair b' = some c') :
    (b' = b ∧ c' = c) ∨ ρ.pair b' = some c' := by
  by_cases hb : b' = b
  · subst hb
    rw [add_self] at h
    exact .inl ⟨rfl, (Option.some.inj h).symm⟩
  · exact .inr ((Function.update_of_ne hb ..).symm.trans h)

/-! ## Values and bytes -/

/-- Pointers into paired blocks, at one offset. -/
structure Ptrs (ρ : Pairing) (p q : Ptr) : Prop where
  block : ρ.pair p.block = some q.block
  offset : q.offset = p.offset

/-- Values that are the same but for their blocks. -/
inductive Vals (ρ : Pairing) : Val → Val → Prop
  | int1 (b : Bool) : Vals ρ (.int1 b) (.int1 b)
  | int8 (v : BitVec 8) : Vals ρ (.int8 v) (.int8 v)
  | int32 (v : BitVec 32) : Vals ρ (.int32 v) (.int32 v)
  | ptr {p q : Ptr} (h : ρ.Ptrs p q) : Vals ρ (.ptr p) (.ptr q)

inductive Bytes (ρ : Pairing) : MByte → MByte → Prop
  | undef : Bytes ρ .undef .undef
  | byte (b : BitVec 8) : Bytes ρ (.byte b) (.byte b)
  | frag {p q : Ptr} (h : ρ.Ptrs p q) (i : Nat) : Bytes ρ (.frag p i) (.frag q i)

theorem Ptrs.mono {p q : Ptr} (h : ρ.Ptrs p q) (hle : ρ ≤ ρ') : ρ'.Ptrs p q := ⟨hle _ _ h.block, h.offset⟩

theorem Vals.mono {v u : Val} (h : ρ.Vals v u) (hle : ρ ≤ ρ') : ρ'.Vals v u := by
  cases h with
  | ptr h => exact .ptr (h.mono hle)
  | _ => constructor

theorem Bytes.mono {x y : MByte} (h : ρ.Bytes x y) (hle : ρ ≤ ρ') : ρ'.Bytes x y := by
  cases h with
  | frag h i => exact .frag (h.mono hle) i
  | _ => constructor

theorem Ptrs.unique {p q q' : Ptr} (h : ρ.Ptrs p q) (h' : ρ.Ptrs p q') : q = q' := by
  obtain ⟨_, _⟩ := q
  obtain ⟨_, _⟩ := q'
  have hb := Option.some.inj (h.block.symm.trans h'.block)
  have ho := h.offset.trans h'.offset.symm
  exact congrArg₂ Ptr.mk hb ho

/-- Two pointers are equal exactly if those they are paired with are. -/
theorem Ptrs.eq_iff {p p' q q' : Ptr} (h : ρ.Ptrs p q) (h' : ρ.Ptrs p' q') : p = p' ↔ q = q' := by
  constructor
  · rintro rfl
    exact h.unique h'
  · rintro rfl
    obtain ⟨_, _⟩ := p
    obtain ⟨_, _⟩ := p'
    have hb := ρ.inj h.block h'.block
    have ho := h.offset.symm.trans h'.offset
    exact congrArg₂ Ptr.mk hb ho

theorem Ptrs.add {p q : Ptr} (h : ρ.Ptrs p q) (n : Int) : ρ.Ptrs (p.add n) (q.add n) :=
  ⟨h.block, congrArg (· + n) h.offset⟩

/-- Data is paired with itself. -/
theorem Vals.same {v : Val} (h : ∀ p, v ≠ .ptr p) : ρ.Vals v v := by
  cases v with
  | ptr p => exact absurd rfl (h p)
  | _ => constructor

theorem Vals.chunk {v u : Val} (h : ρ.Vals v u) : u.chunk = v.chunk := by cases h <;> rfl

/-- Values are paired byte by byte. -/
theorem Vals.encode {v u : Val} (h : ρ.Vals v u) : List.Forall₂ ρ.Bytes v.encode u.encode := by
  cases h with
  | int1 b => exact .cons (.byte _) .nil
  | int8 v => exact .cons (.byte _) .nil
  | int32 v => exact .cons (.byte _) (.cons (.byte _) (.cons (.byte _) (.cons (.byte _) .nil)))
  | ptr h =>
    refine List.forall₂_map_left_iff.mpr (List.forall₂_map_right_iff.mpr (List.forall₂_same.mpr ?_))
    exact fun i _ => .frag h i

theorem Bytes.unique {x y y' : MByte} (h : ρ.Bytes x y) (h' : ρ.Bytes x y') : y = y' := by
  cases h with
  | frag h i =>
    cases h' with
    | frag h' => rw [h.unique h']
  | _ => cases h'; rfl

theorem bytes_unique {xs ys : List MByte} (h : List.Forall₂ ρ.Bytes xs ys) :
    ∀ {ys'}, List.Forall₂ ρ.Bytes xs ys' → ys = ys' := by
  induction h with
  | nil =>
    rintro _ ⟨⟩
    rfl
  | cons h _ ih =>
    rintro _ (_ | ⟨h', hs'⟩)
    rw [h.unique h', ih hs']

/-- Data is the same on both sides. -/
theorem bytes_eq {xs ys : List MByte} (h : List.Forall₂ ρ.Bytes xs ys) (hdata : ∀ x ∈ xs, ∃ b, x = .byte b) :
    ys = xs := by
  refine bytes_unique h (List.forall₂_same.mpr fun x hx => ?_)
  obtain ⟨b, rfl⟩ := hdata x hx
  exact .byte b

theorem decode_cases {c : Chunk} {xs : List MByte} {v : Val} (h : c.decode xs = some v) :
    (∃ p, v = .ptr p ∧ xs = v.encode) ∨ ((∀ ρ : Pairing, ρ.Vals v v) ∧ ∀ x ∈ xs, ∃ b, x = .byte b) := by
  unfold Chunk.decode at h
  split at h
  next => exact .inr (by cases h; exact ⟨fun _ => .int1 _, by simp⟩)
  next => exact .inr (by cases h; exact ⟨fun _ => .int8 _, by simp⟩)
  next => exact .inr (by cases h; exact ⟨fun _ => .int32 _, by simp⟩)
  next p i bs =>
    split at h
    next he => exact .inl (by cases h; exact ⟨p, rfl, he⟩)
    next => cases h
  next => cases h

theorem decode {c : Chunk} {xs ys : List MByte} (h : List.Forall₂ ρ.Bytes xs ys) {v : Val}
    (hv : c.decode xs = some v) : ∃ u, c.decode ys = some u ∧ ρ.Vals v u := by
  obtain ⟨p, rfl, rfl⟩ | ⟨hrefl, hdata⟩ := decode_cases hv
  · -- the first fragment tells which pointer it is
    obtain ⟨q, hq⟩ : ∃ q, ρ.Ptrs p q := by
      obtain _ | ⟨hfirst, -⟩ := h
      cases hfirst with
      | frag h => exact ⟨_, h⟩
    obtain rfl := bytes_unique h (Vals.ptr hq).encode
    refine ⟨.ptr q, ?_, .ptr hq⟩
    obtain rfl : c = .ptr := by
      cases c <;> simp [Val.encode, List.range, List.range.loop, Chunk.decode] at hv ⊢
    exact Mem.decode_encode (.ptr q)
  · obtain rfl := bytes_eq h hdata
    exact ⟨v, hv, hrefl ρ⟩

end Pairing

/-! ## Memories -/

/-- Paired blocks hold the same. -/
def Mem.Paired (ρ : Pairing) (m m' : Mem) : Prop :=
  ∀ ⦃b c⦄, ρ.pair b = some c → ∀ ⦃bs⦄, m b = some bs → ∃ bs', m' c = some bs' ∧ List.Forall₂ ρ.Bytes bs bs'

namespace Mem.Paired

variable {ρ ρ' : Pairing} {m m' : Mem}

theorem slice (h : Mem.Paired ρ m m') {p q : Ptr} (hp : ρ.Ptrs p q) {n : Nat} {bs : List MByte}
    (hs : m.slice p n = some bs) : ∃ bs', m'.slice q n = some bs' ∧ List.Forall₂ ρ.Bytes bs bs' := by
  obtain ⟨block, hb, hs⟩ := Option.bind_eq_some_iff.mp hs
  obtain ⟨block', hb', hall⟩ := h hp.block hb
  split at hs
  next hin =>
    cases hs
    refine ⟨(block'.drop p.offset.toNat).take n, ?_, List.forall₂_take n (List.forall₂_drop _ hall)⟩
    rw [← hp.offset] at hin ⊢
    exact Mem.slice_some hb' hin.1 (hall.length_eq ▸ hin.2)
  next => cases hs

theorem load (h : Mem.Paired ρ m m') {p q : Ptr} (hp : ρ.Ptrs p q) {c : Chunk} {v : Val} (hv : m.load c p = some v) :
    ∃ u, m'.load c q = some u ∧ ρ.Vals v u := by
  obtain ⟨bs, hs, hv⟩ := Option.bind_eq_some_iff.mp hv
  obtain ⟨bs', hs', hall⟩ := h.slice hp hs
  obtain ⟨u, hu, hvu⟩ := Pairing.decode hall hv
  exact ⟨u, Option.bind_eq_some_iff.mpr ⟨bs', hs', hu⟩, hvu⟩

theorem store (h : Mem.Paired ρ m m') {p q : Ptr} (hp : ρ.Ptrs p q) {v u : Val} (hv : ρ.Vals v u) {m₁ : Mem}
    (hs : m.store p v = some m₁) : ∃ m₁', m'.store q u = some m₁' ∧ Mem.Paired ρ m₁ m₁' := by
  obtain ⟨bs, hb, hs⟩ := Option.bind_eq_some_iff.mp hs
  obtain ⟨bs', hb', hall⟩ := h hp.block hb
  split at hs
  next hin =>
    cases hs
    have hlen : u.encode.length = v.encode.length := hv.encode.length_eq.symm
    refine ⟨Function.update m' q.block (some (Mem.splice bs' u.encode p.offset.toNat)), ?_, ?_⟩
    · rw [← hp.offset] at hin ⊢
      have hin' : 0 ≤ q.offset ∧ q.offset.toNat + u.encode.length ≤ bs'.length := by
        rw [hlen, ← hall.length_eq]
        exact hin
      simp only [Mem.store, hb', Option.bind_some, if_pos hin']
    · intro b c hbc block hblock
      simp only [Function.update_apply] at hblock
      split at hblock
      next heq =>
        cases hblock
        obtain rfl : c = q.block := Option.some.inj ((heq ▸ hbc).symm.trans hp.block)
        refine ⟨_, Function.update_self .., ?_⟩
        exact List.rel_append (List.rel_append (List.forall₂_take _ hall) hv.encode) (hlen ▸ List.forall₂_drop _ hall)
      next hne =>
        have hc : c ≠ q.block := fun he => hne (ρ.inj (he ▸ hbc) hp.block)
        rw [Function.update_of_ne hc]
        exact h hbc hblock
  next => cases hs

/-- Blocks that are not paired do not matter. -/
theorem congr (h : Mem.Paired ρ m m') {m₁ m₁' : Mem} (hm : ∀ b c, ρ.pair b = some c → m₁ b = m b ∧ m₁' c = m' c) :
    Mem.Paired ρ m₁ m₁' := by
  intro b c hbc bs hbs
  obtain ⟨heq, heq'⟩ := hm b c hbc
  rw [heq]  at hbs
  rw [heq']
  exact h hbc hbs

/-- New blocks with the same in them. -/
theorem alloc (h : Mem.Paired ρ m m') {b c : Nat} (hb : ρ.pair b = none) {hc : ∀ b', ρ.pair b' ≠ some c}
    {bs : List MByte} (hbs : ∀ x ∈ bs, (ρ.add b c hc).Bytes x x) :
    Mem.Paired (ρ.add b c hc) (m.alloc b bs) (m'.alloc c bs) := by
  intro b' c' hbc block hblock
  obtain ⟨rfl, rfl⟩ | hold := Pairing.add_cases hbc
  · rw [Mem.alloc, Function.update_self] at hblock ⊢
    cases hblock
    exact ⟨bs, rfl, List.forall₂_same.mpr hbs⟩
  · have hne : b' ≠ b := fun he => by rw [he, hb] at hold; cases hold
    have hne' : c' ≠ c := fun he => hc b' (he ▸ hold)
    rw [Mem.alloc, Function.update_of_ne hne] at hblock
    rw [Mem.alloc, Function.update_of_ne hne']
    obtain ⟨bs', hbs', hall⟩ := h hold hblock
    exact ⟨bs', hbs', hall.imp fun _ _ hxy => hxy.mono (Pairing.le_add hb)⟩

end Mem.Paired

end Memory
