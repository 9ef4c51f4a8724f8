/-
Memory as blocks of bytes. A pointer is a block and an offset into it; in
memory it is eight fragments, which only a load of all of them, in order,
puts together again. An access outside a live block has no result.
-/
import Mathlib.Tactic

namespace Memory

structure Ptr where
  block : Nat
  offset : Int
  deriving DecidableEq, Repr

def Ptr.add (p : Ptr) (n : Int) : Ptr := { p with offset := p.offset + n }

/-- The element after the i-th one from an address on. -/
theorem Ptr.add_mul (p : Ptr) (i size : Nat) : (p.add size).add (i * size : Nat) = p.add ((i + 1) * size : Nat) := by
  simp only [Ptr.add, Ptr.mk.injEq, true_and]
  push_cast
  ring

/-- The element after the i-th one of a block. -/
theorem Ptr.mul_add (b i size : Nat) : (⟨b, (i * size : Nat)⟩ : Ptr).add size = ⟨b, ((i + 1) * size : Nat)⟩ := by
  simp only [Ptr.add, Ptr.mk.injEq, true_and]
  push_cast
  ring

/-- What one byte of memory holds. -/
inductive MByte
  | undef
  | byte (b : BitVec 8)
  | frag (p : Ptr) (i : Nat)
  deriving DecidableEq, Repr

/-- Machine values. -/
inductive Val
  | int1 (b : Bool)
  | int8 (v : BitVec 8)
  | int32 (v : BitVec 32)
  | ptr (p : Ptr)
  deriving DecidableEq, Repr

/-- What a load or a store moves. -/
inductive Chunk
  | int1 | int8 | int32 | ptr
  deriving DecidableEq, Repr

def Chunk.size : Chunk → Nat
  | .int1 | .int8 => 1
  | .int32 => 4
  | .ptr => 8

def Val.chunk : Val → Chunk
  | .int1 _ => .int1
  | .int8 _ => .int8
  | .int32 _ => .int32
  | .ptr _ => .ptr

/-- The bytes of a value, the lowest first. -/
def Val.encode : Val → List MByte
  | .int1 b => [.byte (BitVec.ofNat 8 b.toNat)]
  | .int8 v => [.byte v]
  | .int32 v => [.byte (v.extractLsb' 0 8), .byte (v.extractLsb' 8 8), .byte (v.extractLsb' 16 8),
      .byte (v.extractLsb' 24 8)]
  | .ptr p => (List.range 8).map (MByte.frag p)

def Chunk.decode : Chunk → List MByte → Option Val
  | .int1, [.byte b] => some (.int1 (b.getLsbD 0))
  | .int8, [.byte b] => some (.int8 b)
  | .int32, [.byte b₀, .byte b₁, .byte b₂, .byte b₃] => some (.int32 (b₃ ++ b₂ ++ b₁ ++ b₀))
  | .ptr, .frag p i :: bs => if .frag p i :: bs = (Val.ptr p).encode then some (.ptr p) else none
  | _, _ => none

/-- The blocks that are allocated, each as the bytes in it. -/
abbrev Mem := Nat → Option (List MByte)

namespace Mem

/-- The bytes of an access of `n` bytes at `p`, if it is inside a block. -/
def slice (m : Mem) (p : Ptr) (n : Nat) : Option (List MByte) :=
  (m p.block).bind fun bs =>
    if 0 ≤ p.offset ∧ p.offset.toNat + n ≤ bs.length then some ((bs.drop p.offset.toNat).take n) else none

def load (m : Mem) (c : Chunk) (p : Ptr) : Option Val := (m.slice p c.size).bind c.decode

/-- The bytes of a block with `new` written over them from `i` on. -/
def splice (bs new : List MByte) (i : Nat) : List MByte := bs.take i ++ new ++ bs.drop (i + new.length)

def store (m : Mem) (p : Ptr) (v : Val) : Option Mem :=
  (m p.block).bind fun bs =>
    if 0 ≤ p.offset ∧ p.offset.toNat + v.encode.length ≤ bs.length then
      some (Function.update m p.block (some (splice bs v.encode p.offset.toNat)))
    else none

/-- A new block. -/
def alloc (m : Mem) (b : Nat) (bytes : List MByte) : Mem := Function.update m b (some bytes)

/-! ## What an access touches -/

theorem mem_of_slice {m : Mem} {p : Ptr} {n : Nat} {bs : List MByte} (h : m.slice p n = some bs) :
    ∃ block, m p.block = some block ∧ ∀ b ∈ bs, b ∈ block := by
  obtain ⟨block, hblock, h⟩ := Option.bind_eq_some_iff.mp h
  refine ⟨block, hblock, ?_⟩
  split at h
  · cases h
    exact fun b hb => List.mem_of_mem_drop (List.mem_of_mem_take hb)
  · cases h

/-- A pointer that is loaded has its fragments in the block. -/
theorem frag_of_load {m : Mem} {c : Chunk} {p q : Ptr} (h : m.load c p = some (.ptr q)) :
    ∃ block, m p.block = some block ∧ ∃ i, .frag q i ∈ block := by
  obtain ⟨bs, hbs, h⟩ := Option.bind_eq_some_iff.mp h
  obtain ⟨block, hblock, hmem⟩ := mem_of_slice hbs
  refine ⟨block, hblock, ?_⟩
  unfold Chunk.decode at h
  split at h
  case h_4 =>
    split at h
    · cases h
      exact ⟨_, hmem _ (List.mem_cons_self ..)⟩
    · cases h
  all_goals cases h

/-- What is loaded is of its chunk. -/
theorem chunk_of_load {m : Mem} {c : Chunk} {p : Ptr} {v : Val} (h : m.load c p = some v) : v.chunk = c := by
  obtain ⟨bs, -, h⟩ := Option.bind_eq_some_iff.mp h
  unfold Chunk.decode at h
  split at h
  case h_4 =>
    split at h
    · cases h
      rfl
    · cases h
  all_goals
    cases h
    try rfl

theorem mem_splice {bs new : List MByte} {i : Nat} {b : MByte} (h : b ∈ splice bs new i) : b ∈ bs ∨ b ∈ new := by
  simp only [splice, List.mem_append] at h
  obtain (h | h) | h := h
  · exact .inl (List.mem_of_mem_take h)
  · exact .inr h
  · exact .inl (List.mem_of_mem_drop h)

/-- A store changes one block, to the bytes it had and those of the value. -/
theorem store_some {m m' : Mem} {p : Ptr} {v : Val} (h : m.store p v = some m') :
    ∃ bs, m p.block = some bs ∧ m' = Function.update m p.block (some (splice bs v.encode p.offset.toNat)) := by
  obtain ⟨bs, hbs, h⟩ := Option.bind_eq_some_iff.mp h
  split at h
  · cases h
    exact ⟨bs, hbs, rfl⟩
  · cases h

theorem frag_mem_encode {v : Val} {p : Ptr} {i : Nat} (h : .frag p i ∈ v.encode) : v = .ptr p := by
  cases v <;> simp [Val.encode] at h
  obtain ⟨_, -, rfl, -⟩ := h
  rfl

/-! ## Reading what was written -/

theorem length_splice {bs new : List MByte} {i : Nat} (h : i + new.length ≤ bs.length) :
    (splice bs new i).length = bs.length := by
  simp only [splice, List.length_append, List.length_take, List.length_drop]
  omega

/-- What was written is there. -/
theorem take_drop_splice {bs new : List MByte} {i : Nat} (h : i + new.length ≤ bs.length) :
    ((splice bs new i).drop i).take new.length = new := by
  have hlen : (bs.take i).length = i := List.length_take_of_le (by omega)
  rw [splice, List.append_assoc, List.drop_left' hlen, List.take_left' rfl]

/-- What lies beside it is as it was. -/
theorem take_drop_splice_of_disjoint {bs new : List MByte} {i j n : Nat} (h : i + new.length ≤ bs.length)
    (hdisj : j + n ≤ i ∨ i + new.length ≤ j) : ((splice bs new i).drop j).take n = (bs.drop j).take n := by
  have hlen : (bs.take i).length = i := List.length_take_of_le (by omega)
  apply List.ext_getElem?
  intro k
  by_cases hk : k < n
  · rw [List.getElem?_take_of_lt hk, List.getElem?_take_of_lt hk, List.getElem?_drop, List.getElem?_drop, splice,
      List.append_assoc]
    obtain hbefore | hafter := hdisj
    · rw [List.getElem?_append_left (by omega), List.getElem?_take_of_lt (by omega)]
    · rw [List.getElem?_append_right (by omega), List.getElem?_append_right (by omega), List.getElem?_drop]
      congr 1
      omega
  · rw [List.getElem?_take_eq_none (Nat.not_lt.mp hk), List.getElem?_take_eq_none (Nat.not_lt.mp hk)]

theorem encode_length (v : Val) : v.encode.length = v.chunk.size := by cases v <;> rfl

/-- Four bytes, put together again. -/
theorem append_extractLsb' (v : BitVec 32) :
    v.extractLsb' 24 8 ++ v.extractLsb' 16 8 ++ v.extractLsb' 8 8 ++ v.extractLsb' 0 8 = v := by
  apply BitVec.eq_of_getLsbD_eq
  intro i hi
  simp only [BitVec.getLsbD_append, BitVec.getLsbD_extractLsb']
  grind

theorem decode_encode (v : Val) : v.chunk.decode v.encode = some v := by
  cases v with
  | int1 b => cases b <;> rfl
  | int8 v => rfl
  | int32 v =>
    simp only [Val.chunk, Val.encode, Chunk.decode]
    exact congrArg (some ∘ Val.int32) (append_extractLsb' v)
  | ptr p => simp [Val.chunk, Val.encode, Chunk.decode, List.range_succ]

theorem slice_some {m : Mem} {p : Ptr} {n : Nat} {bs : List MByte} (hbs : m p.block = some bs) (h0 : 0 ≤ p.offset)
    (hn : p.offset.toNat + n ≤ bs.length) : m.slice p n = some ((bs.drop p.offset.toNat).take n) := by
  rw [slice, hbs, Option.bind_some, if_pos ⟨h0, hn⟩]

/-- What is loaded is inside its block. -/
theorem bounds_of_load {m : Mem} {c : Chunk} {p : Ptr} {v : Val} (h : m.load c p = some v) :
    ∃ bs, m p.block = some bs ∧ 0 ≤ p.offset ∧ p.offset.toNat + c.size ≤ bs.length := by
  obtain ⟨_, hslice, -⟩ := Option.bind_eq_some_iff.mp h
  obtain ⟨bs, hbs, hslice⟩ := Option.bind_eq_some_iff.mp hslice
  split at hslice
  next hin => exact ⟨bs, hbs, hin⟩
  next => cases hslice

/-- A store that stays inside its block. -/
theorem store_of_bounds {m : Mem} {p : Ptr} {v : Val} {bs : List MByte} (hbs : m p.block = some bs) (h0 : 0 ≤ p.offset)
    (hlen : p.offset.toNat + v.chunk.size ≤ bs.length) :
    m.store p v = some (Function.update m p.block (some (splice bs v.encode p.offset.toNat))) := by
  rw [store, hbs, Option.bind_some, encode_length, if_pos ⟨h0, hlen⟩]

/-- A load gives the value that was stored. -/
theorem load_store {m m' : Mem} {p : Ptr} {v : Val} (h : m.store p v = some m') : m'.load v.chunk p = some v := by
  obtain ⟨bs, hbs, h⟩ := Option.bind_eq_some_iff.mp h
  split at h
  next hin =>
    cases h
    have hsplice := length_splice hin.2
    rw [load, slice_some (Function.update_self ..) hin.1 (by rw [hsplice, ← encode_length]; exact hin.2),
      Option.bind_some, ← encode_length, take_drop_splice hin.2, decode_encode]
  next => cases h

/-- A load beside a store gives what it gave. -/
theorem load_store_of_disjoint {m m' : Mem} {p q : Ptr} {v : Val} {c : Chunk} (h : m.store p v = some m')
    (hq : 0 ≤ q.offset) (hdisj : q.block ≠ p.block ∨ q.offset + c.size ≤ p.offset ∨
      p.offset + v.chunk.size ≤ q.offset) :
    m'.load c q = m.load c q := by
  obtain ⟨bs, hbs, h⟩ := Option.bind_eq_some_iff.mp h
  split at h
  next hin =>
    cases h
    by_cases hblock : q.block = p.block
    · have hoff : q.offset.toNat + c.size ≤ p.offset.toNat ∨ p.offset.toNat + v.encode.length ≤ q.offset.toNat := by
        rw [encode_length]
        omega
      rw [load, load, slice, slice, hblock, Function.update_self, hbs, Option.bind_some, Option.bind_some,
        length_splice hin.2, take_drop_splice_of_disjoint hin.2 hoff]
    · rw [load, load, slice, slice, Function.update_of_ne hblock]
  next => cases h

theorem load_congr {m m' : Mem} {c : Chunk} {p : Ptr} (h : m' p.block = m p.block) : m'.load c p = m.load c p := by
  rw [load, load, slice, slice, h]

end Mem

end Memory
