/-
Strings as their bytes: the UTF-8 encoding of a list of characters. A byte
below 128 is an ASCII character wherever it stands, so it is found in the
bytes exactly where it is found in the characters.
-/
import Mathlib.Tactic

/-! ## Byte arrays -/

theorem ByteArray.toList_loop_eq (bs : ByteArray) (i : Nat) (acc : List UInt8) :
    ByteArray.toList.loop bs i acc = acc.reverse ++ bs.data.toList.drop i := by
  induction i, acc using ByteArray.toList.loop.induct bs with
  | case1 i acc hi ih =>
    have hlt : i < bs.data.toList.length := hi
    have hget : bs.get! i = bs.data.toList[i] := getElem!_pos bs.data i hi
    rw [ByteArray.toList.loop, if_pos hi, ih, hget, List.reverse_cons, List.append_assoc, List.singleton_append,
      ← List.drop_eq_getElem_cons]
  | case2 i acc hi =>
    have hle : bs.data.toList.length ≤ i := Nat.not_lt.mp hi
    rw [ByteArray.toList.loop, if_neg hi, List.drop_eq_nil_of_le hle, List.append_nil]

theorem ByteArray.toList_eq_data (bs : ByteArray) : bs.toList = bs.data.toList := ByteArray.toList_loop_eq bs 0 []

namespace Utf8

/-- The bytes of characters. -/
def encode (cs : List Char) : List (BitVec 8) := cs.flatMap fun c => (String.utf8EncodeChar c).map UInt8.toBitVec

@[simp] theorem encode_nil : encode [] = [] := rfl

@[simp] theorem encode_cons (c : Char) (cs : List Char) :
    encode (c :: cs) = (String.utf8EncodeChar c).map UInt8.toBitVec ++ encode cs := rfl

@[simp] theorem encode_append (cs cs' : List Char) : encode (cs ++ cs') = encode cs ++ encode cs' := List.flatMap_append

theorem toUTF8_toList (s : String) : s.toUTF8.toList.map UInt8.toBitVec = encode s.toList := by
  rw [String.toUTF8_eq_toByteArray, ByteArray.toList_eq_data, ← String.utf8Encode_toList, List.utf8Encode,
    List.toList_data_toByteArray, List.map_flatMap]
  rfl

/-! ## ASCII -/

/-- An ASCII character is its own byte. -/
theorem encode_ascii {c : Char} (h : c.toNat < 128) : (String.utf8EncodeChar c).map UInt8.toBitVec =
    [BitVec.ofNat 8 c.toNat] := by
  have hle : c.val.toNat ≤ 0x7f := Nat.le_of_lt_succ h
  rw [String.utf8EncodeChar]
  simp only [if_pos hle]
  rfl

/-- Any other takes bytes that no ASCII character does. -/
theorem encode_not_ascii {c : Char} (h : 128 ≤ c.toNat) :
    ∀ b ∈ (String.utf8EncodeChar c).map UInt8.toBitVec, 128 ≤ b.toNat := by
  have hnot : ¬c.val.toNat ≤ 0x7f := Nat.not_le.mpr h
  intro b hb
  obtain ⟨u, hu, rfl⟩ := List.mem_map.mp hb
  have hofNat {n : Nat} (hn : 128 ≤ n) (hn' : n < 256) : 128 ≤ (UInt8.ofNat n).toBitVec.toNat := by
    simpa [Nat.mod_eq_of_lt hn'] using hn
  rw [String.utf8EncodeChar] at hu
  simp only [if_neg hnot] at hu
  split at hu
  · simp only [List.mem_cons, List.not_mem_nil, or_false] at hu
    obtain rfl | rfl := hu <;> exact hofNat (by omega) (by omega)
  · split at hu
    · simp only [List.mem_cons, List.not_mem_nil, or_false] at hu
      obtain rfl | rfl | rfl := hu <;> exact hofNat (by omega) (by omega)
    · simp only [List.mem_cons, List.not_mem_nil, or_false] at hu
      obtain rfl | rfl | rfl | rfl := hu <;> exact hofNat (by omega) (by omega)

theorem length_encode_char (c : Char) : ((String.utf8EncodeChar c).map UInt8.toBitVec).length = c.utf8Size := by
  rw [List.length_map, String.length_utf8EncodeChar]

theorem length_le_encode (cs : List Char) : cs.length ≤ (encode cs).length := by
  induction cs with
  | nil => exact Nat.le_refl 0
  | cons c cs ih =>
    have := Char.utf8Size_pos c
    rw [encode_cons, List.length_append, length_encode_char, List.length_cons]
    omega

/-- The ASCII characters are found in the bytes. -/
theorem mem_encode {cs : List Char} {c : Char} (hc : c ∈ cs) (h : c.toNat < 128) : BitVec.ofNat 8 c.toNat ∈ encode cs :=
  List.mem_flatMap.mpr ⟨c, hc, by rw [encode_ascii h]; exact List.mem_singleton_self _⟩

/-- And the bytes below 128 in the characters. -/
theorem of_mem_encode {cs : List Char} {b : BitVec 8} (hb : b ∈ encode cs) (h : b.toNat < 128) :
    ∃ c ∈ cs, c.toNat = b.toNat := by
  obtain ⟨c, hc, hb⟩ := List.mem_flatMap.mp hb
  by_cases hascii : c.toNat < 128
  · rw [encode_ascii hascii, List.mem_singleton] at hb
    refine ⟨c, hc, ?_⟩
    rw [hb, BitVec.toNat_ofNat, Nat.mod_eq_of_lt (by omega)]
  · have := encode_not_ascii (Nat.not_lt.mp hascii) b hb
    omega

end Utf8
