/-
The document of tests (`generate_json`), and how it reads.

What `gather_rec` prints of a value is a JSON value, whatever the value. What
`serialize` prints of an array without elements is its closing bracket only:
then the document has more brackets closed than opened, and no reading of it
is JSON. Otherwise it has one reading, and that gives the tests back
(`document_iff`).
-/
import DGen.Encoders
import DGen.Grammar
import DGen.Lib.Json

namespace DGen

open Memory StateT
open Json (Piece Text Closed)

/-! ## The text -/

/-- The lines of the tests: a comma after all but the last. -/
def testLines : List String → String
  | [] => ""
  | t :: ts => "\t" ++ t ++ (if ts.isEmpty then "" else ",") ++ "\n" ++ testLines ts

/-- What `DGen::generate_json` returns for the tests gathered. -/
def generateJson (tests : List String) : String := "\x7b\n\t\"tests\": [\n" ++ testLines tests ++ "\t]\n\x7d"

/-! ## The values -/

def ScalarType.json : (s : ScalarType) → s.Value → Json
  | .int, num => .num num.toInt
  | .string, chs => .str (String.ofList (chs.map fun ch => Char.ofNat ch.toNat))
  | .char, ch => .num ch.toInt
  | .bool, val => .bool val

/-- The JSON value of a content: a character is a number. -/
def contentJson (s : ScalarType) : (n : Nat) → Content s n → Json
  | 0, v => s.json v
  | n + 1, cs => .arr (List.map (contentJson s n) cs)

/-! ## The tokens of a content -/

def ScalarType.token : (s : ScalarType) → s.Value → Json.Token
  | .int, num => .num num.toInt
  | .string, chs => .str (String.ofList (chs.map fun ch => Char.ofNat ch.toNat))
  | .char, ch => .num ch.toInt
  | .bool, val => if val then .true else .false

/-- A comma after all but the last. -/
def commaTokens : List (List Json.Token) → List Json.Token
  | [] => []
  | ts :: rest => ts ++ (if rest = [] then [] else [.comma]) ++ commaTokens rest

/-- The tokens of a content, with `onEmpty` for an array without elements. -/
def contentTokens (onEmpty : List Json.Token) (s : ScalarType) : (n : Nat) → Content s n → List Json.Token
  | 0, v => [s.token v]
  | n + 1, cs => if cs = [] then onEmpty
    else .lbracket :: (commaTokens (List.map (contentTokens onEmpty s n) cs) ++ [.rbracket])

/-- What `gather_rec` prints for an array without elements. -/
abbrev bothBrackets : List Json.Token := [.lbracket, .rbracket]

/-- What `serialize` prints for one. -/
abbrev closingBracket : List Json.Token := [.rbracket]

theorem ScalarType.text_reads {s : ScalarType} (hs : s ≠ .string) (v : s.Value) : Text (s.text v) [s.token v] := by
  cases s with
  | int => exact Text.int _
  | char => exact Text.int _
  | bool =>
    cases v with
    | true => exact (@Piece.fixed 't' _ _ rfl).text
    | false => exact (@Piece.fixed 'f' _ _ rfl).text
  | string => exact absurd rfl hs

theorem comma_reads : Piece "," [.comma] := @Piece.fixed ',' _ _ rfl

theorem commaBetween_reads {texts : List String} {tss : List (List Json.Token)} (h : List.Forall₂ Text texts tss) :
    Text (commaBetween texts) (commaTokens tss) := by
  induction h with
  | nil => exact fun _ _ _ hs => hs
  | @cons t ts texts tss ht hrest ih =>
    cases hrest with
    | nil =>
      rw [commaBetween_singleton]
      simpa [commaTokens] using ht
    | cons hu hrest =>
      rw [commaBetween_cons_cons, commaTokens, if_neg (List.cons_ne_nil _ _)]
      exact (ht.append comma_reads fun s => Json.closed_cons (by decide) s).appendText ih

theorem brackets_read {t : String} {ts : List Json.Token} (h : Text t ts) : Text ("[" ++ t ++ "]") (.lbracket :: (ts ++ [.rbracket])) := by
  have hopen : Piece "[" [.lbracket] := @Piece.fixed '[' _ _ rfl
  have hclose : Piece "]" [.rbracket] := @Piece.fixed ']' _ _ rfl
  exact ((hopen.appendText h).append hclose fun s => Json.closed_cons (by decide) s).text

/-- A text of contents that prints what has elements between brackets, with commas. -/
theorem contentTokens_reads {s : ScalarType} {text : (n : Nat) → Content s n → String} {onEmpty : List Json.Token}
    (hs : s ≠ .string) (hscalar : ∀ v, text 0 v = s.text v) (hnil : ∀ n, Text (text (n + 1) []) onEmpty)
    (hcons : ∀ (n : Nat) (cs : List (Content s n)), cs ≠ [] →
      text (n + 1) cs = "[" ++ commaBetween (cs.map (text n)) ++ "]") :
    ∀ (n : Nat) (c : Content s n), Text (text n c) (contentTokens onEmpty s n c)
  | 0, v => hscalar v ▸ ScalarType.text_reads hs v
  | n + 1, cs => by
    rw [contentTokens]
    split
    next hnone => exact hnone ▸ hnil n
    next hne =>
      rw [hcons n cs hne]
      refine brackets_read (commaBetween_reads ?_)
      rw [List.forall₂_map_left_iff, List.forall₂_map_right_iff, List.forall₂_same]
      exact fun c _ => contentTokens_reads hs hscalar hnil hcons n c

theorem gatheredText_reads {s : ScalarType} (hs : s ≠ .string) (n : Nat) (c : Content s n) :
    Text (gatheredText s n c) (contentTokens bothBrackets s n c) := by
  have hempty : Text "" [] := fun _ _ _ h => h
  exact contentTokens_reads hs (fun _ => rfl) (fun _ => brackets_read hempty) (fun _ _ _ => rfl) n c

theorem serializedText_reads {s : ScalarType} (hs : s ≠ .string) (n : Nat) (c : Content s n) :
    Text (serializedText s n c) (contentTokens closingBracket s n c) := by
  refine contentTokens_reads hs (fun _ => rfl) (fun n => ?_) (fun _ _ h => serialized_cons h) n c
  have htext : serializedText s (n + 1) [] = "]" := by simp [serializedText, commaEach, closeBracket]
  rw [htext]
  exact (@Piece.fixed ']' _ _ rfl).text

/-! ## Reading them -/

theorem ScalarType.token_scalar? (s : ScalarType) (v : s.Value) : (s.token v).scalar? = some (s.json v) := by
  cases s with
  | bool => cases v <;> rfl
  | int | char | string => rfl

/-- Elements with commas between them, up to the bracket. -/
theorem commaTokens_elems {α : Type} {tokens : α → List Json.Token} {json : α → Json} {as : List α}
    {rest : List Json.Token}
    (hne : as ≠ []) (h : ∀ a ∈ as, ∀ ts, Json.Reads (tokens a ++ ts) (.value (json a)) ts) :
    Json.Reads (commaTokens (as.map tokens) ++ .rbracket :: rest) (.elems (as.map json)) rest := by
  induction as with
  | nil => exact absurd rfl hne
  | cons a as ih =>
    obtain ⟨ha, has⟩ := List.forall_mem_cons.mp h
    cases as with
    | nil => simpa [commaTokens] using Json.Reads.lastElem (ha (.rbracket :: rest))
    | cons b as =>
      have hrest := ih (List.cons_ne_nil b as) has
      rw [List.map_cons, commaTokens, if_neg (by simp), List.append_assoc, List.append_assoc]
      exact .elem (ha _) hrest

/-- What `gather_rec` prints is read as the value of the content. -/
theorem contentTokens_value {s : ScalarType} : ∀ {n : Nat} (c : Content s n) (ts : List Json.Token),
    Json.Reads (contentTokens bothBrackets s n c ++ ts) (.value (contentJson s n c)) ts
  | 0, v, ts => .scalar (s.token_scalar? v) ts
  | n + 1, cs, ts => by
    rw [contentTokens]
    split
    next hnone =>
      subst hnone
      exact .arrNil ts
    next hne =>
      rw [List.cons_append, List.append_assoc, contentJson]
      exact .arr (commaTokens_elems hne fun c _ => contentTokens_value c)

/-- What is printed for an empty array does not matter where there is none. -/
theorem contentTokens_nonempty {s : ScalarType} {onEmpty onEmpty' : List Json.Token} : ∀ {n : Nat} {c : Content s n},
    NonemptyArrays s n c → contentTokens onEmpty s n c = contentTokens onEmpty' s n c
  | 0, _, _ => rfl
  | n + 1, cs, h => by
    obtain ⟨hne, hall⟩ := h
    rw [contentTokens, contentTokens, if_neg hne, if_neg hne,
      List.map_congr_left fun c hc => contentTokens_nonempty (hall c hc)]

/-! ## Brackets -/

theorem commaTokens_brackets (tss : List (List Json.Token)) :
    Json.brackets (commaTokens tss) = (tss.map Json.brackets).sum := by
  induction tss with
  | nil => rfl
  | cons ts tss ih =>
    have hcomma : Json.brackets (if tss = [] then [] else [.comma]) = 0 := by split <;> rfl
    rw [commaTokens, Json.brackets_append, Json.brackets_append, hcomma, ih, add_zero, List.map_cons, List.sum_cons]

theorem ScalarType.token_bracket (s : ScalarType) (v : s.Value) : (s.token v).bracket = 0 :=
  Json.Token.bracket_of_scalar (s.token_scalar? v)

/-- The brackets of a content are those of its empty arrays. -/
theorem contentTokens_brackets {s : ScalarType} {onEmpty : List Json.Token} : ∀ {n : Nat} (c : Content s n),
    Json.brackets (contentTokens onEmpty s n c) = emptyArrays s n c * Json.brackets onEmpty
  | 0, v => by simp [contentTokens, emptyArrays, s.token_bracket v]
  | n + 1, cs => by
    rw [contentTokens, emptyArrays]
    split
    next => simp
    next hne =>
      have hsum : (cs.map fun c => Json.brackets (contentTokens onEmpty s n c)).sum =
          (cs.map (emptyArrays s n)).sum * Json.brackets onEmpty := by
        simp only [contentTokens_brackets, List.sum_map_mul_right, Nat.cast_list_sum, List.map_map, Function.comp_def]
      rw [Json.brackets_cons, Json.brackets_append, commaTokens_brackets, List.map_map]
      simp only [Function.comp_def, hsum, Json.Token.bracket, Json.brackets_cons, Json.brackets_nil]
      omega

/-! ## Tests -/

/-- A member of the object of a test. -/
structure Member where
  name : String
  text : String
  tokens : List Json.Token
  json : Json

/-- A test: the members of the inputs, and the one of what is returned. -/
structure Test where
  fields : List Member
  res : Member

def Test.members (t : Test) : List Member := t.fields ++ [t.res]

/-- The text of a test, as `gather_res` puts it together. -/
def Test.text (t : Test) : String :=
  "\x7b\n" ++ String.join (t.fields.map fun field => "\t\t\"" ++ field.name ++ "\": " ++ field.text ++ ",\n") ++
    "\t\t\"" ++ t.res.name ++ "\": " ++ t.res.text ++ "\n\t\x7d"

def Test.json (t : Test) : Json := .obj (t.members.map fun m => (m.name, m.json))

/-- What a member is printed as reads as its value, or closes more brackets than it opens. -/
structure Member.Printed (m : Member) : Prop where
  name : ∀ c ∈ m.name.toList, Json.IsPlain c
  text : Text m.text m.tokens
  closed : Json.brackets m.tokens ≤ 0
  reads : Json.brackets m.tokens = 0 → ∀ ts, Json.Reads (m.tokens ++ ts) (.value m.json) ts

def Member.allTokens (m : Member) : List Json.Token := .str m.name :: .colon :: m.tokens

def Test.tokens (t : Test) : List Json.Token :=
  .lbrace :: (t.fields.flatMap (fun field => field.allTokens ++ [.comma]) ++ (t.res.allTokens ++ [.rbrace]))

theorem spaces_read {cs : List Char} (h : ∀ c ∈ cs, c = '\t' ∨ c = '\n' ∨ c = ' ') : Piece (String.ofList cs) [] := by
  refine Piece.spaces fun c hc => ?_
  obtain h | h | h := h c hc
  · exact .inr (.inl h)
  · exact .inr (.inr (.inl h))
  · exact .inl h

theorem Member.Printed.text_reads {m : Member} (h : m.Printed) : Text ("\t\t\"" ++ m.name ++ "\": " ++ m.text) m.allTokens := by
  have htext : "\t\t\"" ++ m.name ++ "\": " = "\t\t" ++ ("\"" ++ m.name ++ "\"") ++ (":" ++ " ") := by
    apply String.toList_injective
    simp
  have hindent : Piece "\t\t" [] := @spaces_read ['\t', '\t'] (by simp)
  have hcolon : Piece (":" ++ " ") ([.colon] ++ []) := (@Piece.fixed ':' _ _ rfl).append (@spaces_read [' '] (by simp))
  rw [htext]
  exact ((hindent.append (Piece.quoted h.name)).append hcolon).appendText h.text

theorem fields_read {fields : List Member} (h : ∀ f ∈ fields, f.Printed) :
    Piece (String.join (fields.map fun field => "\t\t\"" ++ field.name ++ "\": " ++ field.text ++ ",\n"))
      (fields.flatMap fun field => field.allTokens ++ [.comma]) := by
  have hcomma : Piece ",\n" [.comma] := comma_reads.append (@spaces_read ['\n'] (by simp))
  induction fields with
  | nil => exact fun _ _ hs => hs
  | cons f fields ih =>
    obtain ⟨hf, hfields⟩ := List.forall_mem_cons.mp h
    rw [List.map_cons, String.join_cons, List.flatMap_cons]
    exact (hf.text_reads.append hcomma fun s => Json.closed_cons (by decide) _).append (ih hfields)

section

variable {t : Test}

theorem Test.text_reads (h : ∀ m ∈ t.members, m.Printed) : Piece t.text t.tokens := by
  obtain ⟨hfields, hres⟩ := List.forall_mem_append.mp h
  have hopen : Piece "\x7b\n" [.lbrace] := (@Piece.fixed '\x7b' _ _ rfl).append (@spaces_read ['\n'] (by simp))
  have hclose : Piece "\n\t\x7d" [.rbrace] := (@spaces_read ['\n', '\t'] (by simp)).append (@Piece.fixed '\x7d' _ _ rfl)
  have hlast := (hres t.res List.mem_cons_self).text_reads.append hclose fun s => Json.closed_cons (by decide) _
  simpa [Test.text, Test.tokens, String.append_assoc] using (hopen.append (fields_read hfields)).append hlast

/-- Members with commas between them, up to the brace. -/
theorem fields_value {fields : List Member} {res : Member} {rest : List Json.Token}
    (h : ∀ m ∈ fields ++ [res], ∀ ts, Json.Reads (m.tokens ++ ts) (.value m.json) ts) :
    Json.Reads (fields.flatMap (fun field => field.allTokens ++ [.comma]) ++ (res.allTokens ++ .rbrace :: rest))
      (.members ((fields ++ [res]).map fun m => (m.name, m.json))) rest := by
  induction fields with
  | nil => exact .lastMember (h res List.mem_cons_self (.rbrace :: rest))
  | cons f fields ih =>
    obtain ⟨hf, hrest⟩ := List.forall_mem_cons.mp h
    rw [List.flatMap_cons, List.append_assoc, List.append_assoc]
    exact .member (hf _) (ih hrest)

theorem Test.value (h : ∀ m ∈ t.members, m.Printed) (hbalanced : ∀ m ∈ t.members, Json.brackets m.tokens = 0)
    (ts : List Json.Token) : Json.Reads (t.tokens ++ ts) (.value t.json) ts := by
  rw [Test.tokens, List.cons_append, List.append_assoc, List.append_assoc]
  exact .obj (fields_value fun m hm => (h m hm).reads (hbalanced m hm))

theorem Test.brackets : Json.brackets t.tokens = (t.members.map fun m => Json.brackets m.tokens).sum := by
  have hmember (m : Member) : Json.brackets m.allTokens = Json.brackets m.tokens := by
    simp [Member.allTokens, Json.Token.bracket]
  have hfields (fields : List Member) : Json.brackets (fields.flatMap fun field => field.allTokens ++ [.comma]) =
      (fields.map fun m => Json.brackets m.tokens).sum := by
    induction fields with
    | nil => rfl
    | cons f fields ih => simp [ih, hmember, Json.Token.bracket]
  simp [Test.tokens, Test.members, hfields, hmember, Json.Token.bracket]

end

/-! ## The two kinds of members -/

theorem IsIdent.plain {name : String} (h : IsIdent name) : ∀ c ∈ name.toList, Json.IsPlain c := by
  obtain ⟨d, cs, hname, -, hall⟩ := h
  intro c hc
  rw [hname] at hc
  obtain hc | rfl := hall c hc
  · refine ⟨?_, ?_, ?_⟩
    · have hcontrol : ∀ n < 32, (Char.ofNat n).isAlphanum = false := by decide
      by_contra hlow
      have hfalse := hcontrol c.toNat (by omega)
      rw [Char.ofNat_toNat, hc] at hfalse
      cases hfalse
    · rintro rfl
      exact absurd hc (by decide)
    · rintro rfl
      exact absurd hc (by decide)
  · exact ⟨by decide, by decide, by decide⟩

section

variable {name : String} {s : ScalarType} {n : Nat} {c : Content s n}

/-- The member of an input. -/
def serializedMember (name : String) (s : ScalarType) (n : Nat) (c : Content s n) : Member :=
  ⟨name, serializedText s n c, contentTokens closingBracket s n c, contentJson s n c⟩

/-- The member of a result. -/
def gatheredMember (name : String) (s : ScalarType) (n : Nat) (c : Content s n) : Member :=
  ⟨name, gatheredText s n c, contentTokens bothBrackets s n c, contentJson s n c⟩

/-- It is balanced exactly if there is no empty array. -/
theorem serializedMember_balanced_iff : Json.brackets (serializedMember name s n c).tokens = 0 ↔
    NonemptyArrays s n c := by
  have hclosing : Json.brackets closingBracket = -1 := rfl
  rw [serializedMember, contentTokens_brackets, hclosing, ← emptyArrays_eq_zero_iff]
  omega

theorem gatheredMember_balanced : Json.brackets (gatheredMember name s n c).tokens = 0 := by
  have hboth : Json.brackets bothBrackets = 0 := rfl
  rw [gatheredMember, contentTokens_brackets, hboth, Int.mul_zero]

theorem serializedMember_printed (hname : IsIdent name) (hs : s ≠ .string) : (serializedMember name s n c).Printed where
  name := hname.plain
  text := serializedText_reads hs n c
  closed := by
    have hclosing : Json.brackets closingBracket = -1 := rfl
    rw [serializedMember, contentTokens_brackets, hclosing]
    omega
  reads h ts := by
    rw [serializedMember, contentTokens_nonempty (serializedMember_balanced_iff.mp h)]
    exact contentTokens_value c ts

theorem gatheredMember_printed (hname : IsIdent name) (hs : s ≠ .string) : (gatheredMember name s n c).Printed where
  name := hname.plain
  text := gatheredText_reads hs n c
  closed := gatheredMember_balanced.le
  reads _ := contentTokens_value c

end

/-! ## The document -/

def documentTokens (tests : List (List Json.Token)) : List Json.Token :=
  .lbrace :: .str "tests" :: .colon :: .lbracket :: (commaTokens tests ++ [.rbracket, .rbrace])

def documentJson (tests : List Json) : Json := .obj [("tests", .arr tests)]

theorem testLines_read {texts : List String} {tss : List (List Json.Token)} (h : List.Forall₂ Piece texts tss) :
    Piece (testLines texts) (commaTokens tss) := by
  have hindent : Piece "\t" [] := @spaces_read ['\t'] (by simp)
  have hend : Piece "\n" [] := @spaces_read ['\n'] (by simp)
  induction h with
  | nil => exact fun _ _ hs => hs
  | @cons t ts texts tss ht hrest ih =>
    have hcomma : Piece (if texts.isEmpty then "" else ",") (if tss = [] then [] else [.comma]) := by
      cases hrest with
      | nil => exact fun _ _ hs => hs
      | cons => exact comma_reads
    have hline := (((hindent.append ht).append hcomma).append hend).append ih
    simpa [testLines, commaTokens] using hline

theorem generateJson_tokens {texts : List String} {tss : List (List Json.Token)} (h : List.Forall₂ Piece texts tss) :
    Json.Tokens (generateJson texts).toList (documentTokens tss) := by
  have hopen : Piece "\x7b\n\t\"tests\": [\n" [.lbrace, .str "tests", .colon, .lbracket] := by
    have hstr : Piece ("\"" ++ "tests" ++ "\"") [.str "tests"] := Piece.quoted (by simp [Json.IsPlain])
    have hbrace : Piece "\x7b" [.lbrace] := @Piece.fixed '\x7b' _ _ rfl
    have hcolon : Piece ":" [.colon] := @Piece.fixed ':' _ _ rfl
    have hbracket : Piece "[" [.lbracket] := @Piece.fixed '[' _ _ rfl
    have hlines := @spaces_read ['\n', '\t'] (by simp)
    exact ((((hbrace.append hlines).append hstr).append (hcolon.append (@spaces_read [' '] (by simp)))).append hbracket).append
      (@spaces_read ['\n'] (by simp))
  have hclose : Piece "\t]\n\x7d" [.rbracket, .rbrace] := by
    have hbracket : Piece "]" [.rbracket] := @Piece.fixed ']' _ _ rfl
    have hbrace : Piece "\x7d" [.rbrace] := @Piece.fixed '\x7d' _ _ rfl
    exact (((@spaces_read ['\t'] (by simp)).append hbracket).append (@spaces_read ['\n'] (by simp))).append hbrace
  have hdoc := ((hopen.append (testLines_read h)).append hclose) Json.Tokens.nil
  simpa [generateJson, documentTokens] using hdoc

theorem documentTokens_value {tests : List Test} (h : ∀ t ∈ tests, ∀ ts, Json.Reads (t.tokens ++ ts) (.value t.json) ts) :
    Json.Reads (documentTokens (tests.map Test.tokens)) (.value (documentJson (tests.map Test.json))) [] := by
  refine .obj (.lastMember ?_)
  by_cases hnone : tests = []
  · subst hnone
    exact .arrNil _
  · exact .arr (@commaTokens_elems _ _ _ _ [.rbrace] hnone h)

theorem documentTokens_brackets (tests : List Test) : Json.brackets (documentTokens (tests.map Test.tokens)) =
    ((tests.flatMap Test.members).map fun m => Json.brackets m.tokens).sum := by
  have hall : (tests.map fun t => Json.brackets t.tokens).sum =
      ((tests.flatMap Test.members).map fun m => Json.brackets m.tokens).sum := by
    induction tests with
    | nil => rfl
    | cons t tests ih =>
      rw [List.map_cons, List.sum_cons, List.flatMap_cons, List.map_append, List.sum_append, ih, Test.brackets]
  simp [documentTokens, commaTokens_brackets, Function.comp_def, hall, Json.Token.bracket]

/-- **The document is that of the tests** exactly if no member closes more
brackets than it opens, however many tests there are. -/
theorem document_iff {tests : List Test} (h : ∀ t ∈ tests, ∀ m ∈ t.members, m.Printed) :
    (∀ v, Json.Document (generateJson (tests.map Test.text)).toList v ↔ v = documentJson (tests.map Test.json)) ↔
      ∀ t ∈ tests, ∀ m ∈ t.members, Json.brackets m.tokens = 0 := by
  have htexts : List.Forall₂ Piece (tests.map Test.text) (tests.map Test.tokens) := by
    rw [List.forall₂_map_left_iff, List.forall₂_map_right_iff, List.forall₂_same]
    exact fun t ht => Test.text_reads (h t ht)
  have htokens := generateJson_tokens htexts
  constructor
  · intro hdoc t ht m hm
    obtain ⟨ts, hts, hreads⟩ := (hdoc _).mpr rfl
    obtain rfl := htokens.unique hts
    have hsum := hreads.brackets
    rw [documentTokens_brackets] at hsum
    -- no member can make up for another
    have hclosed : ∀ x ∈ (tests.flatMap Test.members).map fun m => Json.brackets m.tokens, x ≤ 0 := by
      simp only [List.forall_mem_map, List.mem_flatMap]
      rintro m ⟨t, ht, hm⟩
      exact (h t ht m hm).closed
    exact @List.all_zero_of_le_zero_le_of_sum_eq_zero (OrderDual ℤ) _ _ _ _ hclosed hsum _
      (List.mem_map.mpr ⟨m, List.mem_flatMap.mpr ⟨t, ht, hm⟩, rfl⟩)
  · intro hbalanced v
    have hvalue : Json.Document (generateJson (tests.map Test.text)).toList (documentJson (tests.map Test.json)) :=
      ⟨_, htokens, documentTokens_value fun t ht => Test.value (h t ht) (hbalanced t ht)⟩
    constructor
    · exact fun hv => hv.unique hvalue
    · rintro rfl
      exact hvalue

end DGen
