/-
JSON texts: the tokens of a text, and the value that tokens stand for.

A text has at most one list of tokens and stands for at most one value
(`Document.unique`). What stands between brackets is balanced in the tokens
of a value, whatever it is (`Reads.brackets`).
-/
import DGen.Lib.Utf8

/-- A value. The members of an object are in order. -/
inductive Json
  | null
  | bool (b : Bool)
  | num (value : ℚ)
  | str (s : String)
  | arr (elems : List Json)
  | obj (members : List (String × Json))

namespace Json

inductive Token
  | lbrace | rbrace | lbracket | rbracket | comma | colon | true | false | null
  | num (value : ℚ)
  | str (s : String)
  deriving DecidableEq

/-! ## Numbers -/

def digits (s : List Char) : List Char := s.takeWhile Char.isDigit

def afterDigits (s : List Char) : List Char := s.dropWhile Char.isDigit

/-- `0`, or digits that do not start with it. -/
def scanInt : List Char → Option (Nat × List Char)
  | [] => none
  | c :: s =>
    if c = '0' then some (0, s)
    else if c.isDigit then some (Nat.ofDigitChars 10 (digits (c :: s)) 0, afterDigits (c :: s))
    else none

/-- Digits after a point, if there is one. -/
def scanFrac : List Char → Option (ℚ × List Char)
  | [] => some (0, [])
  | c :: s =>
    if c = '.' then
      if digits s = [] then none
      else some (Nat.ofDigitChars 10 (digits s) 0 / 10 ^ (digits s).length, afterDigits s)
    else some (0, c :: s)

/-- Whether an exponent is negative. -/
def scanSign : List Char → Bool × List Char
  | '-' :: s => (true, s)
  | '+' :: s => (false, s)
  | s => (false, s)

/-- A power of ten, if there is one. -/
def scanExp : List Char → Option (ℚ × List Char)
  | [] => some (1, [])
  | c :: s =>
    if c = 'e' ∨ c = 'E' then
      let (neg, s) := scanSign s
      let exp := Nat.ofDigitChars 10 (digits s) 0
      if digits s = [] then none else some (if neg then 1 / 10 ^ exp else 10 ^ exp, afterDigits s)
    else some (1, c :: s)

def scanUnsigned (s : List Char) : Option (ℚ × List Char) := do
  let (n, s) ← scanInt s
  let (frac, s) ← scanFrac s
  let (exp, s) ← scanExp s
  return ((n + frac) * exp, s)

def scanNumber : List Char → Option (ℚ × List Char)
  | [] => none
  | c :: s => if c = '-' then (scanUnsigned s).map fun r => (-r.1, r.2) else scanUnsigned (c :: s)

/-! ## Strings -/

def hexDigit (c : Char) : Option Nat :=
  if c.isDigit then some (c.toNat - '0'.toNat)
  else if 'a' ≤ c ∧ c ≤ 'f' then some (c.toNat - 'a'.toNat + 10)
  else if 'A' ≤ c ∧ c ≤ 'F' then some (c.toNat - 'A'.toNat + 10)
  else none

def hex4 : List Char → Option (Nat × List Char)
  | a :: b :: c :: d :: s => do
    let a ← hexDigit a
    let b ← hexDigit b
    let c ← hexDigit c
    let d ← hexDigit d
    return (((a * 16 + b) * 16 + c) * 16 + d, s)
  | _ => none

/-- The second half of a surrogate pair. -/
def lowSurrogate : List Char → Option (Nat × List Char)
  | '\\' :: 'u' :: s => do
    let (low, s) ← hex4 s
    if 0xDC00 ≤ low ∧ low < 0xE000 then return (low - 0xDC00, s) else none
  | _ => none

/-- What a character stands for after a backslash. -/
def escaped : Char → Option Char
  | '"' => some '"'
  | '\\' => some '\\'
  | '/' => some '/'
  | 'b' => some '\x08'
  | 'f' => some '\x0c'
  | 'n' => some '\n'
  | 'r' => some '\r'
  | 't' => some '\t'
  | _ => none

/-- The character that what follows a backslash stands for. -/
def unescape : List Char → Option (Char × List Char)
  | [] => none
  | c :: s =>
    if c = 'u' then do
      let (n, s) ← hex4 s
      if 0xD800 ≤ n ∧ n < 0xDC00 then
        let (low, s) ← lowSurrogate s
        return (Char.ofNat (0x10000 + (n - 0xD800) * 0x400 + low), s)
      else if 0xDC00 ≤ n ∧ n < 0xE000 then none
      else return (Char.ofNat n, s)
    else (escaped c).map (·, s)

/-- A character that stands for itself. -/
def IsPlain (c : Char) : Prop := 32 ≤ c.toNat ∧ c ≠ '"' ∧ c ≠ '\\'

/-- A text after an opening quote, the characters it stands for, and what follows the closing one. -/
inductive Chars : List Char → List Char → List Char → Prop
  | close (s : List Char) : Chars ('"' :: s) [] s
  | plain {c : Char} {s cs rest : List Char} (hc : IsPlain c) (h : Chars s cs rest) : Chars (c :: s) (c :: cs) rest
  | escape {c : Char} {s s' cs rest : List Char} (hc : unescape s = some (c, s')) (h : Chars s' cs rest) :
      Chars ('\\' :: s) (c :: cs) rest

/-! ## Tokens -/

/-- The tokens with one text each, by its first character: the rest of it. -/
def fixedAt : Char → Option (List Char × Token)
  | '\x7b' => some ([], .lbrace)
  | '\x7d' => some ([], .rbrace)
  | '[' => some ([], .lbracket)
  | ']' => some ([], .rbracket)
  | ',' => some ([], .comma)
  | ':' => some ([], .colon)
  | 't' => some (['r', 'u', 'e'], .true)
  | 'f' => some (['a', 'l', 's', 'e'], .false)
  | 'n' => some (['u', 'l', 'l'], .null)
  | _ => none

/-- A text begins with a token. -/
inductive Lex : List Char → Token → List Char → Prop
  | fixed {c : Char} {w : List Char} {t : Token} (h : fixedAt c = some (w, t)) (s : List Char) : Lex (c :: (w ++ s)) t s
  | num {s s' : List Char} {q : ℚ} (h : scanNumber s = some (q, s')) : Lex s (.num q) s'
  | str {s cs s' : List Char} (h : Chars s cs s') : Lex ('"' :: s) (.str (String.ofList cs)) s'

def IsSpace (c : Char) : Prop := c = ' ' ∨ c = '\t' ∨ c = '\n' ∨ c = '\r'

/-- The tokens of a text. -/
inductive Tokens : List Char → List Token → Prop
  | nil : Tokens [] []
  | space {c : Char} {s : List Char} {ts : List Token} (hc : IsSpace c) (h : Tokens s ts) : Tokens (c :: s) ts
  | cons {s s' : List Char} {t : Token} {ts : List Token} (ht : Lex s t s') (h : Tokens s' ts) : Tokens s (t :: ts)

/-! ## Values -/

/-- The value of a token that is one by itself. -/
def Token.scalar? : Token → Option Json
  | .true => some (.bool Bool.true)
  | .false => some (.bool Bool.false)
  | .null => some .null
  | .num q => some (.num q)
  | .str s => some (.str s)
  | _ => none

/-- What tokens stand for: a value, or the rest of an array or of an object, up to its closing bracket. -/
inductive Phrase
  | value (v : Json)
  | elems (vs : List Json)
  | members (ms : List (String × Json))

/-- Tokens begin with a phrase. -/
inductive Reads : List Token → Phrase → List Token → Prop
  | scalar {t : Token} {v : Json} (h : t.scalar? = some v) (ts : List Token) : Reads (t :: ts) (.value v) ts
  | arrNil (ts : List Token) : Reads (.lbracket :: .rbracket :: ts) (.value (.arr [])) ts
  | arr {ts ts' : List Token} {vs : List Json} (h : Reads ts (.elems vs) ts') :
      Reads (.lbracket :: ts) (.value (.arr vs)) ts'
  | objNil (ts : List Token) : Reads (.lbrace :: .rbrace :: ts) (.value (.obj [])) ts
  | obj {ts ts' : List Token} {ms : List (String × Json)} (h : Reads ts (.members ms) ts') :
      Reads (.lbrace :: ts) (.value (.obj ms)) ts'
  | lastElem {ts ts' : List Token} {v : Json} (h : Reads ts (.value v) (.rbracket :: ts')) : Reads ts (.elems [v]) ts'
  | elem {ts ts' ts'' : List Token} {v : Json} {vs : List Json} (h : Reads ts (.value v) (.comma :: ts'))
      (hs : Reads ts' (.elems vs) ts'') : Reads ts (.elems (v :: vs)) ts''
  | lastMember {k : String} {ts ts' : List Token} {v : Json} (h : Reads ts (.value v) (.rbrace :: ts')) :
      Reads (.str k :: .colon :: ts) (.members [(k, v)]) ts'
  | member {k : String} {ts ts' ts'' : List Token} {v : Json} {ms : List (String × Json)}
      (h : Reads ts (.value v) (.comma :: ts')) (hs : Reads ts' (.members ms) ts'') :
      Reads (.str k :: .colon :: ts) (.members ((k, v) :: ms)) ts''

/-- The text is that of the value. -/
def Document (s : List Char) (v : Json) : Prop := ∃ ts, Tokens s ts ∧ Reads ts (.value v) []

/-! ## One value -/

theorem Chars.unique {s cs rest : List Char} (h : Chars s cs rest) : ∀ {cs' rest' : List Char}, Chars s cs' rest' →
    cs = cs' ∧ rest = rest' := by
  induction h with
  | close s =>
    intro cs' rest' h'
    cases h' with
    | close => exact ⟨rfl, rfl⟩
    | plain hc => exact absurd rfl hc.2.1
  | plain hc _ ih =>
    intro cs' rest' h'
    cases h' with
    | close => exact absurd rfl hc.2.1
    | plain _ h' =>
      obtain ⟨rfl, rfl⟩ := ih h'
      exact ⟨rfl, rfl⟩
    | escape => exact absurd rfl hc.2.2
  | escape hc _ ih =>
    intro cs' rest' h'
    cases h' with
    | plain hc' => exact absurd rfl hc'.2.2
    | escape hc' h' =>
      obtain ⟨rfl, rfl⟩ := Prod.mk.inj (Option.some.inj (hc.symm.trans hc'))
      obtain ⟨rfl, rfl⟩ := ih h'
      exact ⟨rfl, rfl⟩

theorem scanInt_head {c : Char} {s s' : List Char} {n : Nat} (h : scanInt (c :: s) = some (n, s')) :
    c.isDigit = true := by
  rw [scanInt] at h
  split at h
  next hc =>
    rw [hc]
    rfl
  next =>
    split at h
    next hc => exact hc
    next => cases h

/-- A number begins with a digit or a sign. -/
theorem scanNumber_head {c : Char} {s s' : List Char} {q : ℚ} (h : scanNumber (c :: s) = some (q, s')) :
    c = '-' ∨ c.isDigit = true := by
  rw [scanNumber] at h
  split at h
  next hc => exact .inl hc
  next =>
    obtain ⟨⟨n, s₁⟩, hn, -⟩ := Option.bind_eq_some_iff.mp h
    exact .inr (scanInt_head hn)

/-- Only these characters begin a fixed token. -/
theorem mem_of_fixedAt {c : Char} {w : List Char} {t : Token} (h : fixedAt c = some (w, t)) :
    c ∈ ['\x7b', '\x7d', '[', ']', ',', ':', 't', 'f', 'n'] := by
  unfold fixedAt at h
  split at h <;> first | decide | cases h

theorem fixedAt_number {c : Char} (h : c = '-' ∨ c.isDigit = true) : fixedAt c = none := by
  by_contra hne
  obtain ⟨⟨w, t⟩, hw⟩ := Option.ne_none_iff_exists'.mp hne
  have hnot : ∀ d ∈ ['\x7b', '\x7d', '[', ']', ',', ':', 't', 'f', 'n'], ¬(d = '-' ∨ d.isDigit = true) := by
    simp [Char.isDigit]
  exact hnot c (mem_of_fixedAt hw) h

/-- What a token can begin with. -/
theorem Lex.cases_head {s s' : List Char} {t : Token} (h : Lex s t s') : ∃ c s₁, s = c :: s₁ ∧
    ((∃ w, fixedAt c = some (w, t) ∧ s₁ = w ++ s') ∨
      (c = '-' ∨ c.isDigit = true) ∧ (∃ q, t = .num q ∧ scanNumber s = some (q, s')) ∨
      c = '"' ∧ ∃ cs, t = .str (String.ofList cs) ∧ Chars s₁ cs s') := by
  cases h with
  | @fixed c w _ hf => exact ⟨c, _, rfl, .inl ⟨w, hf, rfl⟩⟩
  | @num _ _ q hn =>
    cases s with
    | nil => cases hn
    | cons c s => exact ⟨c, s, rfl, .inr (.inl ⟨scanNumber_head hn, q, rfl, hn⟩)⟩
  | @str _ cs _ hc => exact ⟨'"', _, rfl, .inr (.inr ⟨rfl, cs, rfl, hc⟩)⟩

theorem Lex.unique {s s' s'' : List Char} {t t' : Token} (h : Lex s t s') (h' : Lex s t' s'') : t = t' ∧ s' = s'' := by
  obtain ⟨c, s₁, rfl, h⟩ := h.cases_head
  obtain ⟨c', s₂, hs, h'⟩ := h'.cases_head
  obtain ⟨rfl, rfl⟩ := List.cons.inj hs
  have hquote : ¬('"' = '-' ∨ '"'.isDigit = true) := by decide
  obtain ⟨w, hf, rfl⟩ | ⟨hc, q, rfl, hn⟩ | ⟨rfl, cs, rfl, hcs⟩ := h
  · obtain ⟨w', hf', hw⟩ | ⟨hc', -⟩ | ⟨rfl, -⟩ := h'
    · obtain ⟨rfl, rfl⟩ := Prod.mk.inj (Option.some.inj (hf.symm.trans hf'))
      exact ⟨rfl, List.append_cancel_left hw⟩
    · rw [fixedAt_number hc'] at hf
      cases hf
    · cases hf
  · obtain ⟨w', hf', -⟩ | ⟨-, q', rfl, hn'⟩ | ⟨rfl, -⟩ := h'
    · rw [fixedAt_number hc] at hf'
      cases hf'
    · obtain ⟨rfl, rfl⟩ := Prod.mk.inj (Option.some.inj (hn.symm.trans hn'))
      exact ⟨rfl, rfl⟩
    · exact absurd hc hquote
  · obtain ⟨w', hf', -⟩ | ⟨hc', -⟩ | ⟨-, cs', rfl, hcs'⟩ := h'
    · cases hf'
    · exact absurd hc' hquote
    · obtain ⟨rfl, rfl⟩ := hcs.unique hcs'
      exact ⟨rfl, rfl⟩

/-- No token begins with a space. -/
theorem Lex.not_space {c : Char} {s s' : List Char} {t : Token} (h : Lex (c :: s) t s') : ¬IsSpace c := by
  obtain ⟨c', s₁, hs, h⟩ := h.cases_head
  obtain ⟨rfl, rfl⟩ := List.cons.inj hs
  rintro (rfl | rfl | rfl | rfl) <;>
    obtain ⟨w, hf, -⟩ | ⟨hc, -⟩ | ⟨hc, -⟩ := h <;>
      first | cases hf | exact absurd hc (by decide)

theorem Lex.ne_nil {s' : List Char} {t : Token} : ¬Lex [] t s' := by
  intro h
  obtain ⟨c, s, hs, -⟩ := h.cases_head
  cases hs

/-- A text has one list of tokens. -/
theorem Tokens.unique {s : List Char} {ts : List Token} (h : Tokens s ts) :
    ∀ {ts' : List Token}, Tokens s ts' → ts = ts' := by
  induction h with
  | nil =>
    intro ts' h'
    cases h' with
    | nil => rfl
    | cons ht => exact absurd ht Lex.ne_nil
  | space hc _ ih =>
    intro ts' h'
    cases h' with
    | space _ h' => exact ih h'
    | cons ht => exact absurd hc ht.not_space
  | cons ht _ ih =>
    intro ts' h'
    cases h' with
    | nil => exact absurd ht Lex.ne_nil
    | space hc => exact absurd hc ht.not_space
    | cons ht' h' =>
      obtain ⟨rfl, rfl⟩ := ht.unique ht'
      rw [ih h']

/-- Phrases of one kind. -/
def Phrase.Like : Phrase → Phrase → Prop
  | .value _, .value _ | .elems _, .elems _ | .members _, .members _ => True
  | _, _ => False

theorem Reads.not_rbracket {ts ts' : List Token} {vs : List Json} : ¬Reads (.rbracket :: ts) (.elems vs) ts' := by
  have hvalue {v : Json} {ts'' : List Token} (h : Reads (.rbracket :: ts) (.value v) ts'') : False := by
    cases h with
    | scalar h => cases h
  intro h
  cases h with
  | lastElem h => exact hvalue h
  | elem h => exact hvalue h

theorem Reads.unique {ts ts' : List Token} {p : Phrase} (h : Reads ts p ts') : ∀ {p' : Phrase} {ts'' : List Token},
    Reads ts p' ts'' → p.Like p' → p = p' ∧ ts' = ts'' := by
  induction h with
  | scalar hv ts =>
    intro p' ts'' h' hl
    cases h' with
    | scalar hv' =>
      obtain rfl := Option.some.inj (hv.symm.trans hv')
      exact ⟨rfl, rfl⟩
    | arrNil | arr | objNil | obj => cases hv
    | lastElem | elem | lastMember | member => cases hl
  | arrNil ts =>
    intro p' ts'' h' hl
    cases h' with
    | scalar hv => cases hv
    | arrNil => exact ⟨rfl, rfl⟩
    | arr h' => exact absurd h' not_rbracket
    | lastElem | elem => cases hl
  | arr h ih =>
    intro p' ts'' h' hl
    cases h' with
    | scalar hv => cases hv
    | arrNil => exact absurd h not_rbracket
    | arr h' =>
      obtain ⟨heq, rfl⟩ := ih h' trivial
      cases heq
      exact ⟨rfl, rfl⟩
    | lastElem | elem => cases hl
  | objNil ts =>
    intro p' ts'' h' hl
    cases h' with
    | scalar hv => cases hv
    | objNil => exact ⟨rfl, rfl⟩
    | obj h' => cases h'
    | lastElem | elem => cases hl
  | obj h ih =>
    intro p' ts'' h' hl
    cases h' with
    | scalar hv => cases hv
    | objNil => cases h
    | obj h' =>
      obtain ⟨heq, rfl⟩ := ih h' trivial
      cases heq
      exact ⟨rfl, rfl⟩
    | lastElem | elem => cases hl
  | lastElem _ ih =>
    intro p' ts'' h' hl
    cases h' with
    | lastElem h' =>
      obtain ⟨heq, hts⟩ := ih h' trivial
      cases heq
      cases hts
      exact ⟨rfl, rfl⟩
    | elem h' _ =>
      obtain ⟨-, hts⟩ := ih h' trivial
      cases hts
    | scalar | arrNil | arr | objNil | obj | lastMember | member => cases hl
  | elem _ _ ih ihs =>
    intro p' ts'' h' hl
    cases h' with
    | lastElem h' =>
      obtain ⟨-, hts⟩ := ih h' trivial
      cases hts
    | elem h' hs' =>
      obtain ⟨heq, hts⟩ := ih h' trivial
      cases heq
      cases hts
      obtain ⟨heq, rfl⟩ := ihs hs' trivial
      cases heq
      exact ⟨rfl, rfl⟩
    | scalar | arrNil | arr | objNil | obj | lastMember | member => cases hl
  | lastMember _ ih =>
    intro p' ts'' h' hl
    cases h' with
    | lastMember h' =>
      obtain ⟨heq, hts⟩ := ih h' trivial
      cases heq
      cases hts
      exact ⟨rfl, rfl⟩
    | member h' _ =>
      obtain ⟨-, hts⟩ := ih h' trivial
      cases hts
    | scalar | lastElem | elem => cases hl
  | member _ _ ih ihs =>
    intro p' ts'' h' hl
    cases h' with
    | lastMember h' =>
      obtain ⟨-, hts⟩ := ih h' trivial
      cases hts
    | member h' hs' =>
      obtain ⟨heq, hts⟩ := ih h' trivial
      cases heq
      cases hts
      obtain ⟨heq, rfl⟩ := ihs hs' trivial
      cases heq
      exact ⟨rfl, rfl⟩
    | scalar | lastElem | elem => cases hl

/-- A text is that of one value. -/
theorem Document.unique {s : List Char} {v v' : Json} (h : Document s v) (h' : Document s v') : v = v' := by
  obtain ⟨ts, hts, hv⟩ := h
  obtain ⟨ts', hts', hv'⟩ := h'
  obtain rfl := hts.unique hts'
  obtain ⟨heq, -⟩ := hv.unique hv' trivial
  cases heq
  rfl

/-! ## Brackets -/

def Token.bracket : Token → Int
  | .lbracket => 1
  | .rbracket => -1
  | _ => 0

/-- The brackets opened, less those closed. -/
def brackets (ts : List Token) : Int := (ts.map Token.bracket).sum

@[simp] theorem brackets_nil : brackets [] = 0 := rfl

@[simp] theorem brackets_cons (t : Token) (ts : List Token) : brackets (t :: ts) = t.bracket + brackets ts := by
  simp [brackets]

@[simp] theorem brackets_append (ts us : List Token) : brackets (ts ++ us) = brackets ts + brackets us := by
  simp [brackets]

/-- What a phrase closes that is not opened in it. -/
def Phrase.closes : Phrase → Int
  | .elems _ => 1
  | .value _ | .members _ => 0

theorem Token.bracket_of_scalar {t : Token} {v : Json} (h : t.scalar? = some v) : t.bracket = 0 := by
  cases t <;> first | rfl | cases h

/-- Brackets are balanced in a value. -/
theorem Reads.brackets {ts ts' : List Token} {p : Phrase} (h : Reads ts p ts') :
    Json.brackets ts = Json.brackets ts' - p.closes := by
  induction h with
  | scalar hv ts => simp [Phrase.closes, Token.bracket_of_scalar hv]
  | arrNil | objNil => simp [Phrase.closes, Token.bracket]
  | arr _ ih | obj _ ih | lastElem _ ih | lastMember _ ih =>
    simp only [brackets_cons, Token.bracket, Phrase.closes] at ih ⊢
    omega
  | elem _ _ ih ihs | member _ _ ih ihs =>
    simp only [brackets_cons, Token.bracket, Phrase.closes] at ih ihs ⊢
    omega

/-! ## Texts of integers -/

/-- What does not go on with a number. -/
def Closed (s : List Char) : Prop := ∀ c ∈ s.head?, c.isDigit = Bool.false ∧ c ≠ '.' ∧ c ≠ 'e' ∧ c ≠ 'E'

theorem digits_append {ds s : List Char} (hds : ∀ c ∈ ds, c.isDigit = Bool.true) (hs : Closed s) :
    digits (ds ++ s) = ds ∧ afterDigits (ds ++ s) = s := by
  rw [digits, afterDigits, List.takeWhile_append_of_pos hds, List.dropWhile_append_of_pos hds]
  cases s with
  | nil => simp
  | cons c s =>
    have hc : ¬c.isDigit = Bool.true := by simp [(hs c rfl).1]
    rw [List.takeWhile_cons_of_neg hc, List.dropWhile_cons_of_neg hc, List.append_nil]
    exact ⟨rfl, rfl⟩

theorem scanFrac_closed {s : List Char} (hs : Closed s) : scanFrac s = some (0, s) := by
  cases s with
  | nil => rfl
  | cons c s => rw [scanFrac, if_neg (hs c rfl).2.1]

theorem scanExp_closed {s : List Char} (hs : Closed s) : scanExp s = some (1, s) := by
  cases s with
  | nil => rfl
  | cons c s => rw [scanExp, if_neg (not_or.mpr (hs c rfl).2.2)]

theorem isDigit_toDigits {n : Nat} {c : Char} (h : c ∈ Nat.toDigits 10 n) : c.isDigit = Bool.true :=
  Nat.isDigit_of_mem_toDigits (by decide) (by decide) h

/-- Only 0 begins with a 0. -/
theorem toDigits_head {n : Nat} (h : (Nat.toDigits 10 n).head? = some '0') : n = 0 := by
  induction n using Nat.strongRecOn with
  | ind n ih =>
    rw [Nat.toDigits_eq_if (by decide)] at h
    split at h
    next hn =>
      have hall : ∀ m < 10, [Nat.digitChar m].head? = some '0' → m = 0 := by decide
      exact hall n hn h
    next hn =>
      rw [List.head?_append_of_ne_nil _ Nat.toDigits_ne_nil] at h
      have := ih (n / 10) (by omega) h
      omega

theorem scanUnsigned_toDigits {s : List Char} (hs : Closed s) (n : Nat) :
    scanUnsigned (Nat.toDigits 10 n ++ s) = some ((n : ℚ), s) := by
  have hint : scanInt (Nat.toDigits 10 n ++ s) = some (n, s) := by
    obtain ⟨d, ds, hd⟩ := List.exists_cons_of_ne_nil (Nat.toDigits_ne_nil (n := n) (b := 10))
    obtain ⟨hdigits, hafter⟩ := digits_append (fun c => isDigit_toDigits (n := n) (c := c)) hs
    rw [hd, List.cons_append] at hdigits hafter
    rw [hd, List.cons_append, scanInt]
    split
    next hzero =>
      obtain rfl := toDigits_head (n := n) (by rw [hd, hzero]; rfl)
      rw [Nat.toDigits_zero] at hd
      cases hd
      rfl
    next =>
      have hdigit : d.isDigit = Bool.true := isDigit_toDigits (n := n) (by rw [hd]; exact List.mem_cons_self)
      rw [if_pos hdigit, hdigits, hafter, ← hd, Nat.ofDigitChars_ten_toDigits]
  simp [scanUnsigned, hint, scanFrac_closed hs, scanExp_closed hs]

/-- An integer as it is printed. -/
theorem scanNumber_int {s : List Char} (hs : Closed s) (z : Int) :
    scanNumber ((toString z).toList ++ s) = some ((z : ℚ), s) := by
  cases z with
  | ofNat n =>
    have htext : (toString (Int.ofNat n)).toList = Nat.toDigits 10 n := Nat.toList_repr
    have hscan := scanUnsigned_toDigits hs n
    obtain ⟨d, ds, hd⟩ := List.exists_cons_of_ne_nil (Nat.toDigits_ne_nil (n := n) (b := 10))
    have hdigit : d.isDigit = Bool.true := isDigit_toDigits (n := n) (by rw [hd]; exact List.mem_cons_self)
    have hminus : d ≠ '-' := by
      rintro rfl
      cases hdigit
    rw [hd, List.cons_append] at hscan
    rw [htext, hd, List.cons_append, scanNumber, if_neg hminus, hscan]
    rfl
  | negSucc n =>
    have htext : (toString (Int.negSucc n)).toList = '-' :: Nat.toDigits 10 (n + 1) := by
      have : toString (Int.negSucc n) = "-" ++ (n + 1).repr := rfl
      rw [this, String.toList_append, Nat.toList_repr]
      rfl
    rw [htext, List.cons_append, scanNumber, if_pos rfl, scanUnsigned_toDigits hs]
    simp

/-! ## Texts piece by piece -/

/-- A text reads as tokens, whatever follows. -/
def Piece (t : String) (ts : List Token) : Prop := ∀ ⦃s us⦄, Tokens s us → Tokens (t.toList ++ s) (ts ++ us)

/-- A text reads as tokens, in front of what does not go on with a number. -/
def Text (t : String) (ts : List Token) : Prop := ∀ ⦃s us⦄, Closed s → Tokens s us → Tokens (t.toList ++ s) (ts ++ us)

theorem closed_cons {c : Char} (hc : c.isDigit = Bool.false ∧ c ≠ '.' ∧ c ≠ 'e' ∧ c ≠ 'E') (s : List Char) :
    Closed (c :: s) := by
  intro d hd
  obtain rfl := Option.some.inj hd
  exact hc

theorem Piece.text {t : String} {ts : List Token} (h : Piece t ts) : Text t ts := fun _ _ _ hs => h hs

theorem Piece.append {t u : String} {ts us : List Token} (h : Piece t ts) (hu : Piece u us) :
    Piece (t ++ u) (ts ++ us) := by
  intro s vs hs
  rw [String.toList_append, List.append_assoc, List.append_assoc]
  exact h (hu hs)

theorem Piece.appendText {t u : String} {ts us : List Token} (h : Piece t ts) (hu : Text u us) :
    Text (t ++ u) (ts ++ us) := by
  intro s vs hc hs
  rw [String.toList_append, List.append_assoc, List.append_assoc]
  exact h (hu hc hs)

/-- A text in front of a piece that does not go on with it. -/
theorem Text.append {t u : String} {ts us : List Token} (h : Text t ts) (hu : Piece u us)
    (hc : ∀ s, Closed (u.toList ++ s)) :
    Piece (t ++ u) (ts ++ us) := by
  intro s vs hs
  rw [String.toList_append, List.append_assoc, List.append_assoc]
  exact h (hc s) (hu hs)

theorem Text.int (z : Int) : Text (toString z) [.num z] := fun _ _ hc hs => .cons (.num (scanNumber_int hc z)) hs

theorem Piece.fixed {c : Char} {w : List Char} {t : Token} (h : fixedAt c = some (w, t)) :
    Piece (String.ofList (c :: w)) [t] := by
  intro s us hs
  rw [String.toList_ofList]
  exact .cons (.fixed h s) hs

theorem Piece.spaces {cs : List Char} (h : ∀ c ∈ cs, IsSpace c) : Piece (String.ofList cs) [] := by
  intro s us hs
  rw [String.toList_ofList]
  induction cs with
  | nil => exact hs
  | cons c cs ih =>
    obtain ⟨hc, hcs⟩ := List.forall_mem_cons.mp h
    exact .space hc (ih hcs)

/-- Plain characters stand for themselves. -/
theorem Chars.of_plain {cs : List Char} (h : ∀ c ∈ cs, IsPlain c) (s : List Char) : Chars (cs ++ '"' :: s) cs s := by
  induction cs with
  | nil => exact .close s
  | cons c cs ih =>
    obtain ⟨hc, hcs⟩ := List.forall_mem_cons.mp h
    exact .plain hc (ih hcs)

theorem Piece.quoted {name : String} (h : ∀ c ∈ name.toList, IsPlain c) : Piece ("\"" ++ name ++ "\"") [.str name] := by
  intro s us hs
  have hlex : Lex ('"' :: (name.toList ++ '"' :: s)) (.str (String.ofList name.toList)) s := .str (.of_plain h s)
  rw [String.ofList_toList] at hlex
  have htext : ("\"" ++ name ++ "\"").toList ++ s = '"' :: (name.toList ++ '"' :: s) := by simp
  rw [htext]
  exact .cons hlex hs

/-! ## String literals -/

/-- Bytes that are a literal in whatever they stand, and the bytes of the characters it stands for. -/
def Literal (bytes content : List (BitVec 8)) : Prop :=
  ∃ cs ds, Utf8.encode cs = bytes ∧ Utf8.encode ds = content ∧ ∀ s, Lex (cs ++ s) (.str (String.ofList ds)) s

theorem escaped_size {c e : Char} (h : escaped c = some e) : e.utf8Size = 1 := by
  unfold escaped at h
  split at h <;> cases h <;> rfl

theorem hex4_eq {s s' : List Char} {n : Nat} (h : hex4 s = some (n, s')) :
    ∃ used, s = used ++ s' ∧ used.length = 4 := by
  unfold hex4 at h
  split at h
  next a b c d s =>
    simp only [Option.bind_eq_bind, Option.bind_eq_some_iff, Option.pure_def, Option.some.injEq, Prod.mk.injEq] at h
    obtain ⟨_, -, _, -, _, -, _, -, -, rfl⟩ := h
    exact ⟨[a, b, c, d], rfl, rfl⟩
  next => cases h

theorem lowSurrogate_eq {s s' : List Char} {n : Nat} (h : lowSurrogate s = some (n, s')) : ∃ used, s = used ++ s' := by
  unfold lowSurrogate at h
  split at h
  next s =>
    obtain ⟨⟨low, s₁⟩, hlow, hres⟩ := Option.bind_eq_some_iff.mp h
    obtain ⟨used, rfl, -⟩ := hex4_eq hlow
    dsimp only at hres
    split at hres
    next =>
      obtain ⟨-, rfl⟩ := Prod.mk.inj (Option.some.inj hres)
      exact ⟨'\\' :: 'u' :: used, rfl⟩
    next => cases hres
  next => cases h

/-- An escape is longer than the character it stands for. -/
theorem unescape_size {s s' : List Char} {c : Char} (h : unescape s = some (c, s')) :
    ∃ used, s = used ++ s' ∧ c.utf8Size ≤ (Utf8.encode used).length := by
  have hlong {used : List Char} (hlen : 4 ≤ used.length) : c.utf8Size ≤ (Utf8.encode used).length :=
    (Char.utf8Size_le_four c).trans (hlen.trans (Utf8.length_le_encode used))
  cases s with
  | nil => cases h
  | cons e s =>
    rw [unescape] at h
    split at h
    next he =>
      obtain ⟨⟨n, s₁⟩, hn, hres⟩ := Option.bind_eq_some_iff.mp h
      obtain ⟨used, rfl, hlen⟩ := hex4_eq hn
      dsimp only at hres
      split at hres
      next =>
        obtain ⟨⟨low, s₂⟩, hlow, hlast⟩ := Option.bind_eq_some_iff.mp hres
        obtain ⟨used', rfl⟩ := lowSurrogate_eq hlow
        cases hlast
        exact ⟨e :: (used ++ used'), by simp, hlong (by simp; omega)⟩
      next =>
        split at hres <;> cases hres
        exact ⟨e :: used, rfl, hlong (by simp; omega)⟩
    next =>
      obtain ⟨c', hc, hres⟩ := Option.map_eq_some_iff.mp h
      cases hres
      refine ⟨[e], rfl, ?_⟩
      rw [escaped_size hc]
      exact Utf8.length_le_encode [e]

/-- A literal is as long as its characters only if they stand for themselves. -/
theorem Chars.shape {s cs rest : List Char} (h : Chars s cs rest) : ∃ text, s = text ++ '"' :: rest ∧
    (Utf8.encode cs).length ≤ (Utf8.encode text).length ∧
    ((Utf8.encode text).length ≤ (Utf8.encode cs).length → text = cs ∧ ∀ c ∈ cs, IsPlain c) := by
  induction h with
  | close s => exact ⟨[], rfl, Nat.le_refl _, fun _ => ⟨rfl, List.forall_mem_nil _⟩⟩
  | @plain c s cs rest hc _ ih =>
    obtain ⟨text, rfl, hle, heq⟩ := ih
    refine ⟨c :: text, rfl, ?_, fun hlen => ?_⟩
    · simp only [Utf8.encode_cons, List.length_append]
      omega
    · simp only [Utf8.encode_cons, List.length_append] at hlen
      obtain ⟨rfl, hplain⟩ := heq (by omega)
      exact ⟨rfl, List.forall_mem_cons.mpr ⟨hc, hplain⟩⟩
  | @escape c s s' cs rest hc _ ih =>
    obtain ⟨text, rfl, hle, -⟩ := ih
    obtain ⟨used, rfl, hsize⟩ := unescape_size hc
    have hlt : (Utf8.encode (c :: cs)).length < (Utf8.encode ('\\' :: (used ++ text))).length := by
      have hback : '\\'.utf8Size = 1 := rfl
      simp only [Utf8.encode_cons, Utf8.encode_append, List.length_append, Utf8.length_encode_char]
      omega
    refine ⟨'\\' :: (used ++ text), by simp, hlt.le, fun hlen => ?_⟩
    omega

theorem fixedAt_ne_str {c : Char} {w : List Char} {str : String} : fixedAt c ≠ some (w, .str str) := by
  intro h
  unfold fixedAt at h
  split at h <;> cases h

/-- Between quotes, bytes stand for themselves exactly if they are UTF-8 and
none of them is a quote, a backslash or a control character. -/
theorem literal_iff {content : List (BitVec 8)} : Literal (34#8 :: (content ++ [34#8])) content ↔
    (∀ b ∈ content, 32 ≤ b.toNat ∧ b.toNat ≠ 34 ∧ b.toNat ≠ 92) ∧ ∃ ds, Utf8.encode ds = content := by
  have hquote (cs : List Char) : Utf8.encode ('"' :: cs) = 34#8 :: Utf8.encode cs := rfl
  constructor
  · rintro ⟨cs, ds, hcs, hds, hlex⟩
    obtain ⟨c, s, hs, ⟨w, hf, -⟩ | ⟨-, q, hq, -⟩ | ⟨rfl, ds', hds', hchars⟩⟩ := (hlex []).cases_head
    · exact absurd hf fixedAt_ne_str
    · cases hq
    obtain rfl := String.ofList_injective (Token.str.inj hds')
    rw [List.append_nil] at hs
    subst hs
    obtain ⟨text, rfl, -, hplain⟩ := hchars.shape
    rw [hquote, Utf8.encode_append, hquote] at hcs
    have htext : Utf8.encode text = content := List.append_cancel_right (List.cons.inj hcs).2
    obtain ⟨rfl, hplain⟩ := hplain (by rw [htext, hds])
    refine ⟨fun b hb => ?_, text, htext⟩
    by_cases hascii : b.toNat < 128
    · obtain ⟨c, hc, hcb⟩ := Utf8.of_mem_encode (htext ▸ hb) hascii
      obtain ⟨hlow, hq, hback⟩ := hplain c hc
      refine ⟨hcb ▸ hlow, fun h => hq ?_, fun h => hback ?_⟩
      · exact Char.toNat_inj.mp (hcb.trans h)
      · exact Char.toNat_inj.mp (hcb.trans h)
    · omega
  · rintro ⟨hbytes, ds, rfl⟩
    refine ⟨'"' :: (ds ++ ['"']), ds, by rw [hquote, Utf8.encode_append]; rfl, rfl, fun s => ?_⟩
    have hplain : ∀ c ∈ ds, IsPlain c := fun c hc => by
      by_cases hascii : c.toNat < 128
      · have hnat : (BitVec.ofNat 8 c.toNat).toNat = c.toNat := Nat.mod_eq_of_lt (by omega)
        obtain ⟨hlow, hq, hback⟩ := hbytes _ (Utf8.mem_encode hc hascii)
        rw [hnat] at hlow hq hback
        refine ⟨hlow, fun h => hq (h ▸ rfl), fun h => hback (h ▸ rfl)⟩
      · refine ⟨by omega, fun h => hascii (h ▸ by decide), fun h => hascii (h ▸ by decide)⟩
    have := Lex.str (Chars.of_plain hplain s)
    simpa using this

end Json
