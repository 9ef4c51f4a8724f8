/-
The tokens of strings (`StringSym::serialize`, the `STRING` case of
`gather_rec`).

Both print the bytes of a string between quotes, as they are. That is a
literal of the string exactly if its bytes are UTF-8 with no quote, backslash
or control character among them (`string_literal_iff`); what is drawn at
random is such a string, what the solver or the program makes need not be.
-/
import DGen.Encoders
import DGen.Lib.Json

namespace DGen

open Memory StateT

/-- The bytes of an output, a character each. -/
def textBytes (s : String) : List (BitVec 8) := s.toList.map fun c => BitVec.ofNat 8 c.toNat

/-- Bytes that need no escape: UTF-8, with no quote, backslash or control character. -/
def NeedsNoEscape (chs : List (BitVec 8)) : Prop :=
  (∀ ch ∈ chs, 32 ≤ ch.toNat ∧ ch.toNat ≠ 34 ∧ ch.toNat ≠ 92) ∧ ∃ cs, Utf8.encode cs = chs

/-- One of the encoders prints the text for a string with these characters:
an input, or an element of one, or a returned string, or an element of what is returned. -/
inductive PrintsString (text : String) (chs : List (BitVec 8)) : Prop
  | serialize {w w' : World} {sym : SymId} (hok : w.Ok) (ht : w.Typed ⟨.string, 0⟩ sym)
      (hrun : stringSerialize sym w = .ok (text, w')) (hc : Holds w'.syms .string 0 chs sym)
  | gatherRec {w w' : World} {lo hi : Nat} {p : Ptr} {v : Val} (hload : w.mem.load .ptr p = some v)
      (hrep : Represents w lo hi .string 0 chs v) (hrun : DGen.gatherRec .string 0 p w = .ok (text, w'))

theorem textBytes_text (chs : List (BitVec 8)) : textBytes (ScalarType.string.text chs) = 34#8 :: (chs ++ [34#8]) := by
  have hchar (ch : BitVec 8) : BitVec.ofNat 8 (Char.ofNat ch.toNat).toNat = ch := by
    have hvalid : ch.toNat.isValidChar := .inl (by omega)
    have hnat : (Char.ofNat ch.toNat).toNat = ch.toNat := by
      rw [Char.ofNat, dif_pos hvalid]
      rfl
    rw [hnat, BitVec.ofNat_toNat, BitVec.setWidth_eq]
  simp only [textBytes, ScalarType.text, String.toList_append, String.toList_ofList, List.map_append, List.map_map,
    Function.comp_def, hchar, List.map_id']
  rfl

/-- Both print the same. -/
theorem PrintsString.text_eq {text : String} {chs : List (BitVec 8)} (h : PrintsString text chs) :
    text = ScalarType.string.text chs := by
  cases h with
  | serialize hok ht hrun hc =>
    obtain ⟨chs', hc', rfl⟩ := stringSerialize_holds hrun hok ht.2
    rw [Holds.unique (s := .string) (n := 0) hc hc']
  | gatherRec hload hrep hrun =>
    cases (gatherRec_eq hload hrep).symm.trans hrun
    rfl

/-- **The token of a string is a literal of it** exactly if nothing in it
needs an escape. No token is that of two strings. -/
theorem string_literal_iff {text : String} {chs : List (BitVec 8)} (h : PrintsString text chs) :
    (Json.Literal (textBytes text) chs ↔ NeedsNoEscape chs) ∧ ∀ chs', PrintsString text chs' → chs' = chs := by
  constructor
  · rw [h.text_eq, textBytes_text]
    exact Json.literal_iff
  · intro chs' h'
    have hbytes : textBytes (ScalarType.string.text chs') = textBytes (ScalarType.string.text chs) := by
      rw [← h'.text_eq, ← h.text_eq]
    rw [textBytes_text, textBytes_text] at hbytes
    exact List.append_cancel_right (List.cons.inj hbytes).2

namespace Sample

/-- `string s`, an input. -/
def stringS : Symbol := ⟨.input 0, ⟨1, 0⟩, ⟨.string, 0⟩, "s"⟩

/-- The solver gives it the length 1, and a quote for its character. -/
def solveQuote : M Unit := do
  fillSym 0 (.int 1)
  fillSym 1 (.int 34)

theorem serialize_quote : ∃ w w', solveQuote (World.start (Sample.draws 0) [stringS]) = .ok ((), w) ∧
    w.Typed ⟨.string, 0⟩ 0 ∧ stringSerialize 0 w = .ok ("\"\"\"", w') ∧ Holds w'.syms .string 0 [34] 0 := by
  refine ⟨_, _, rfl, ⟨by decide, fun o ho => ?_⟩, rfl, _, _, _, rfl, .cons ⟨_, rfl⟩ .nil⟩
  cases ho
  rfl

theorem printsString_quote : PrintsString "\"\"\"" [34] := by
  obtain ⟨w, w', hfill, ht, hrun, hc⟩ := serialize_quote
  obtain ⟨_, w₁, hlen, hchar⟩ := bind_ok_iff.mp hfill
  have hok := (fillSym_keeps hchar (fillSym_keeps hlen (World.start_ok _ _)).1).1
  exact .serialize hok ht hrun hc

end Sample

theorem string_literal_iff_quote : (Json.Literal (textBytes "\"\"\"") [34] ↔ NeedsNoEscape [34]) ∧
    ∀ chs', PrintsString "\"\"\"" chs' → chs' = [34] := string_literal_iff Sample.printsString_quote

/-- A quote is printed as it is. -/
theorem quote_not_literal : ¬ ∀ text chs, PrintsString text chs → Json.Literal (textBytes text) chs := by
  intro h
  have hlit := h _ _ Sample.printsString_quote
  rw [Sample.printsString_quote.text_eq, textBytes_text, Json.literal_iff] at hlit
  exact (hlit.1 34 List.mem_cons_self).2.1 rfl

end DGen
