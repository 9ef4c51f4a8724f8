/-
The derivations of an expression (`d_gen.g4`, rules `logic_expr` to `f`).

A parenthesised operand has many: `logic_inner_expr` and `inner_expr` overlap
at every level of nesting. What is built does not depend on which is taken
(`derivations_agree`): a reader of tokens that never has a choice comes to
what is built from any of them.
-/
import DGen.Builder

namespace DGen

/-! ## The reader -/

/-- The operator node of two operands. -/
def opNode (pos : Position) (opType : String) (lhs rhs : Build (Expr Unit)) : Build (Expr Unit) := do
  let lhs ← lhs
  let rhs ← rhs
  BinOpNode.create pos opType lhs rhs

def lookupNode (pos : Position) (name : String) (idxs : Build (List (Expr Unit))) : Build (Expr Unit) := do
  let idxs ← idxs
  let (node, ident, idxs) ← ArrLookupNode.new pos name idxs
  return .arrLookup node ident idxs

def createNode (pos : Position) (scalar : String) (nested : Nat) (len : Build (Expr Unit)) : Build (Expr Unit) := do
  let elem : DeclTy ← (do return ⟨← mapType scalar, nested⟩)
  let len ← len
  return .arrCreate (← newNode pos (.arrCreate len.id)) elem len

def minusNode (pos : Position) (f : Build (Expr Unit)) : Build (Expr Unit) := do
  let f ← f
  let num ← NumberNode.new pos (-1)
  BinOpNode.new pos .mul num f

def consIdx (idx : Build (Expr Unit)) (idxs : Build (List (Expr Unit))) : Build (List (Expr Unit)) := do
  let idx ← idx
  let idxs ← idxs
  return idx :: idxs

/-- The position of the next token. -/
def nextPos (ts : List Token) : Position := (ts.head?.map (·.pos)).getD ⟨0, 0⟩

mutual
/-- Reads a tree of a rule: what it builds, and the tokens left. In
parentheses it takes a `logic_expr` wherever an operand may stand. -/
def readRule : Nat → Rule → List Token → Option (Build (Expr Unit) × List Token)
  | 0, _, _ => none
  | n + 1, .chain c, ts => do
    let (x, rest) ← readRule n c.operand ts
    readMore n c x rest
  | n + 1, .logicF, ts => do
    let (lhs, rest) ← readRule n (.chain .expr) ts
    match rest with
    | ⟨.cmpOp, text, _⟩ :: ts' => do
      let (rhs, rest) ← readRule n (.chain .expr) ts'
      return (opNode (nextPos ts) text lhs rhs, rest)
    | _ => return (lhs, rest)
  | n + 1, .f, ts =>
    match ts with
    | ⟨.lparen, _, _⟩ :: ts => do
      let (e, rest) ← readRule n (.chain .logicExpr) ts
      match rest with
      | ⟨.rparen, _, _⟩ :: rest => return (e, rest)
      | _ => none
    | ⟨.char, text, pos⟩ :: ts => return (CharNode.create pos text, ts)
    | ⟨.string, text, pos⟩ :: ts => return (StringNode.new pos (String.ofList text.toList.tail.dropLast), ts)
    | ⟨.num, text, pos⟩ :: ts => return (NumberNode.new pos (atoi text), ts)
    | ⟨.bool, text, pos⟩ :: ts => return (BoolNode.create pos text, ts)
    | ⟨.ident, name, pos⟩ :: ts =>
      match ts with
      | ⟨.dot, _, _⟩ :: ⟨.ident, property, _⟩ :: rest => return (PropertyLookupNode.new pos name property, rest)
      | ⟨.lbracket, _, _⟩ :: _ => do
        let (idxs, rest) ← readIdxs n ts
        return (lookupNode pos name idxs, rest)
      | _ => return ((do return .ident (← IdentNode.new pos name)), ts)
    | ⟨.scalarType, text, pos⟩ :: ts =>
      match ts.dropWhile (·.kind = .nestedType) with
      | ⟨.lbracket, _, _⟩ :: ts' => do
        let (len, rest) ← readRule n (.chain .expr) ts'
        match rest with
        | ⟨.rbracket, _, _⟩ :: rest => return (createNode pos text (ts.takeWhile (·.kind = .nestedType)).length len, rest)
        | _ => none
      | _ => none
    | ⟨.minus, _, pos⟩ :: ts => do
      let (f, rest) ← readRule n .f ts
      return (minusNode pos f, rest)
    | _ => none

/-- The operands that follow in a chain. -/
def readMore : Nat → Chain → Build (Expr Unit) → List Token → Option (Build (Expr Unit) × List Token)
  | 0, _, _, _ => none
  | n + 1, c, acc, ts =>
    match ts with
    | op :: ts' =>
      if op.kind ∈ c.ops then do
        let (x, rest) ← readRule n c.operand ts'
        readMore n c (opNode (nextPos ts') op.text acc x) rest
      else return (acc, ts)
    | [] => return (acc, ts)

def readIdxs : Nat → List Token → Option (Build (List (Expr Unit)) × List Token)
  | 0, _ => none
  | n + 1, ts =>
    match ts with
    | ⟨.lbracket, _, _⟩ :: ts => do
      let (idx, rest) ← readRule n (.chain .expr) ts
      match rest with
      | ⟨.rbracket, _, _⟩ :: rest =>
        match rest with
        | ⟨.lbracket, _, _⟩ :: _ => do
          let (idxs, rest) ← readIdxs n rest
          return (consIdx idx idxs, rest)
        | _ => return ((do return [← idx]), rest)
      | _ => none
    | _ => none
end

/-! ## Where a tree ends -/

/-- How tightly a token goes on with what is before it. -/
def TokenKind.level : TokenKind → Nat
  | .lbracket | .dot => 0
  | .times | .divide => 1
  | .plus | .minus => 2
  | .cmpOp => 3
  | .andand => 4
  | .oror => 5
  | _ => 6

def Rule.level : Rule → Nat
  | .f => 0
  | .chain .t => 1
  | .chain .expr => 2
  | .logicF => 3
  | .chain .logicT => 4
  | .chain .logicExpr => 5

/-- No tree of the rule goes on with these tokens. -/
def Rule.Closed (r : Rule) (ts : List Token) : Prop := ∀ tok ∈ ts.head?, r.level < tok.kind.level

theorem Chain.mem_ops_iff {c : Chain} {k : TokenKind} : k ∈ c.ops ↔ k.level = (Rule.chain c).level := by
  cases c <;> cases k <;> decide

theorem Chain.operand_level (c : Chain) : c.operand.level + 1 = (Rule.chain c).level := by
  cases c <;> rfl

namespace Rule.Closed

variable {r : Rule} {ts : List Token}

theorem nil : r.Closed [] := by simp [Closed]

theorem cons_iff {tok : Token} : r.Closed (tok :: ts) ↔ r.level < tok.kind.level := by simp [Closed]

theorem mono {r' : Rule} (h : r.Closed ts) (hle : r'.level ≤ r.level) : r'.Closed ts :=
  fun tok htok => Nat.lt_of_le_of_lt hle (h tok htok)

theorem operand {c : Chain} (h : (Rule.chain c).Closed ts) : c.operand.Closed ts :=
  h.mono (Nat.le_of_succ_le c.operand_level.le)

/-- A closing bracket ends every tree. -/
theorem bracket {tok : Token} (h : tok.kind.level = 6) : r.Closed (tok :: ts) := by
  rw [cons_iff, h]
  cases r with
  | chain c => cases c <;> decide
  | _ => decide

end Rule.Closed

/-! ## What is read -/

/-- With enough fuel. -/
def ReadsTo (r : Rule) (ts : List Token) (res : Build (Expr Unit) × List Token) : Prop :=
  ∃ n₀, ∀ n ≥ n₀, readRule n r ts = some res

def ReadsMore (c : Chain) (acc : Build (Expr Unit)) (ts : List Token) (res : Build (Expr Unit) × List Token) : Prop :=
  ∃ n₀, ∀ n ≥ n₀, readMore n c acc ts = some res

def ReadsIdxs (ts : List Token) (res : Build (List (Expr Unit)) × List Token) : Prop :=
  ∃ n₀, ∀ n ≥ n₀, readIdxs n ts = some res

/-- One call of a reader, over those it makes. -/
theorem exists_fuel {α : Type} {read : Nat → Option α} {a : α} (n₀ : Nat) (h : ∀ n ≥ n₀, read (n + 1) = some a) :
    ∃ n₀, ∀ n ≥ n₀, read n = some a := by
  refine ⟨n₀ + 1, fun n hn => ?_⟩
  obtain ⟨m, rfl⟩ : ∃ m, n = m + 1 := ⟨n - 1, by omega⟩
  exact h m (by omega)

section

variable {ts rest : List Token} {x y : Build (Expr Unit)} {res : Build (Expr Unit) × List Token} {c : Chain}

theorem ReadsTo.chain (hx : ReadsTo c.operand ts (x, rest)) (hmore : ReadsMore c x rest res) :
    ReadsTo (.chain c) ts res := by
  obtain ⟨m, hx⟩ := hx
  obtain ⟨k, hmore⟩ := hmore
  refine exists_fuel (max m k) fun n hn => ?_
  rw [readRule, hx n (by omega)]
  exact hmore n (by omega)

theorem ReadsMore.stop (h : (Rule.chain c).Closed rest) : ReadsMore c x rest (x, rest) := by
  refine exists_fuel 0 fun n _ => ?_
  cases rest with
  | nil => rfl
  | cons tok rest =>
    have hop : tok.kind ∉ c.ops := fun hop => (Rule.Closed.cons_iff.mp h).ne' (Chain.mem_ops_iff.mp hop)
    rw [readMore, if_neg hop]
    rfl

theorem ReadsMore.step {op : Token} (hop : op.kind ∈ c.ops) (hy : ReadsTo c.operand ts (y, rest))
    (hmore : ReadsMore c (opNode (nextPos ts) op.text x y) rest res) : ReadsMore c x (op :: ts) res := by
  obtain ⟨m, hy⟩ := hy
  obtain ⟨k, hmore⟩ := hmore
  refine exists_fuel (max m k) fun n hn => ?_
  rw [readMore, if_pos hop, hy n (by omega)]
  exact hmore n (by omega)

/-- An operand alone. -/
theorem ReadsTo.single (hx : ReadsTo c.operand ts (x, rest)) (h : (Rule.chain c).Closed rest) :
    ReadsTo (.chain c) ts (x, rest) :=
  hx.chain (.stop h)

theorem ReadsTo.cmpOp {op : Token} (hk : op.kind = .cmpOp) {ts' : List Token}
    (hx : ReadsTo (.chain .expr) ts (x, op :: ts'))
    (hy : ReadsTo (.chain .expr) ts' (y, rest)) : ReadsTo .logicF ts (opNode (nextPos ts) op.text x y, rest) := by
  obtain ⟨m, hx⟩ := hx
  obtain ⟨k, hy⟩ := hy
  obtain ⟨kind, text, pos⟩ := op
  obtain rfl : kind = .cmpOp := hk
  refine exists_fuel (max m k) fun n hn => ?_
  rw [readRule, hx n (by omega)]
  show (readRule n (.chain .expr) ts').bind _ = _
  rw [hy n (by omega)]
  rfl

theorem ReadsTo.expr (hx : ReadsTo (.chain .expr) ts (x, rest)) (h : Rule.logicF.Closed rest) :
    ReadsTo .logicF ts (x, rest) := by
  obtain ⟨m, hx⟩ := hx
  refine exists_fuel m fun n hn => ?_
  rw [readRule, hx n hn]
  cases rest with
  | nil => rfl
  | cons tok rest =>
    obtain ⟨kind, text, pos⟩ := tok
    have hlt : 3 < kind.level := Rule.Closed.cons_iff.mp h
    cases kind with
    | cmpOp => exact absurd hlt (by decide)
    | _ => rfl

/-- Up to the rules a tree of `expr` is one of. -/
theorem ReadsTo.logicExpr (hx : ReadsTo (.chain .expr) ts (x, rest)) (h : (Rule.chain .logicExpr).Closed rest) :
    ReadsTo (.chain .logicExpr) ts (x, rest) := by
  have hF : ReadsTo .logicF ts (x, rest) := hx.expr (h.mono (by decide))
  have hT : ReadsTo (.chain .logicT) ts (x, rest) := ReadsTo.single hF (h.mono (by decide))
  exact ReadsTo.single hT h

theorem ReadsTo.parens {l r : Token} (hl : l.kind = .lparen) (hr : r.kind = .rparen)
    (hx : ReadsTo (.chain .logicExpr) ts (x, r :: rest)) : ReadsTo .f (l :: ts) (x, rest) := by
  obtain ⟨m, hx⟩ := hx
  obtain ⟨lk, lt, lp⟩ := l
  obtain ⟨rk, rt, rp⟩ := r
  obtain rfl : lk = .lparen := hl
  obtain rfl : rk = .rparen := hr
  refine exists_fuel m fun n hn => ?_
  show (readRule n (.chain .logicExpr) ts).bind _ = _
  rw [hx n hn]
  rfl

theorem ReadsTo.unaryMinus {minus : Token} (hk : minus.kind = .minus) (hx : ReadsTo .f ts (x, rest)) :
    ReadsTo .f (minus :: ts) (minusNode minus.pos x, rest) := by
  obtain ⟨m, hx⟩ := hx
  obtain ⟨kind, text, pos⟩ := minus
  obtain rfl : kind = .minus := hk
  refine exists_fuel m fun n hn => ?_
  show (readRule n .f ts).bind _ = _
  rw [hx n hn]
  rfl

theorem ReadsTo.const (t : ConstTree) : ReadsTo .f (t.token :: rest) (visitConst t, rest) := by
  refine exists_fuel 0 fun n _ => ?_
  cases t <;> rfl

theorem ReadsTo.fIdent {name : Tok .ident} (h : Rule.f.Closed rest) :
    ReadsTo .f (name.token :: rest) ((do return .ident (← visitFIdent name)), rest) := by
  refine exists_fuel 0 fun n _ => ?_
  cases rest with
  | nil => rfl
  | cons tok rest =>
    obtain ⟨kind, text, pos⟩ := tok
    have hlt : 0 < kind.level := Rule.Closed.cons_iff.mp h
    cases kind with
    | dot | lbracket => exact absurd hlt (by decide)
    | _ => rfl

theorem ReadsTo.propertyLookup {name : Tok .ident} {dot : Tok .dot} {property : Tok .ident} :
    ReadsTo .f (name.token :: dot.token :: property.token :: rest)
      (PropertyLookupNode.new name.pos name.text property.text, rest) :=
  exists_fuel 0 fun _ _ => rfl

theorem ReadsTo.arrayLookup {name : Tok .ident} {l : Tok .lbracket} {idxs : Build (List (Expr Unit))}
    (h : ReadsIdxs (l.token :: ts) (idxs, rest)) :
    ReadsTo .f (name.token :: l.token :: ts) (lookupNode name.pos name.text idxs, rest) := by
  obtain ⟨m, h⟩ := h
  refine exists_fuel m fun n hn => ?_
  show (readIdxs n (l.token :: ts)).bind _ = _
  rw [h n hn]
  rfl

theorem ReadsTo.arrayCreate {type : TypeTree} {l : Tok .lbracket} {r : Tok .rbracket}
    (h : ReadsTo (.chain .expr) ts (x, r.token :: rest)) :
    ReadsTo .f (type.yield ++ l.token :: ts) (createNode type.scalar.pos type.scalar.text type.nested.length x, rest) := by
  obtain ⟨m, h⟩ := h
  have hnested : ∀ tok ∈ type.nested.map Tok.token, decide (tok.kind = .nestedType) = true := by
    rw [List.forall_mem_map]
    exact fun _ _ => rfl
  have hdrop : (type.nested.map Tok.token ++ l.token :: ts).dropWhile (fun tok => tok.kind = .nestedType) =
      l.token :: ts := by
    rw [List.dropWhile_append_of_pos hnested]
    rfl
  have htake : (type.nested.map Tok.token ++ l.token :: ts).takeWhile (fun tok => tok.kind = .nestedType) =
      type.nested.map Tok.token := by
    rw [List.takeWhile_append_of_pos hnested]
    exact List.append_nil _
  refine exists_fuel m fun n hn => ?_
  show readRule (n + 1) .f (⟨.scalarType, type.scalar.text, type.scalar.pos⟩ :: (type.nested.map Tok.token ++ l.token :: ts)) = _
  rw [readRule, hdrop, htake, List.length_map]
  show (readRule n (.chain .expr) ts).bind _ = _
  rw [h n hn]
  rfl

theorem ReadsIdxs.last {l : Tok .lbracket} {r : Tok .rbracket} (hx : ReadsTo (.chain .expr) ts (x, r.token :: rest))
    (h : Rule.f.Closed rest) : ReadsIdxs (l.token :: ts) ((do return [← x]), rest) := by
  obtain ⟨m, hx⟩ := hx
  refine exists_fuel m fun n hn => ?_
  show (readRule n (.chain .expr) ts).bind _ = _
  rw [hx n hn]
  cases rest with
  | nil => rfl
  | cons tok rest =>
    obtain ⟨kind, text, pos⟩ := tok
    have hlt : 0 < kind.level := Rule.Closed.cons_iff.mp h
    cases kind with
    | lbracket => exact absurd hlt (by decide)
    | _ => rfl

theorem ReadsIdxs.cons {l l' : Tok .lbracket} {r : Tok .rbracket} {ts' : List Token} {idxs : Build (List (Expr Unit))}
    (hx : ReadsTo (.chain .expr) ts (x, r.token :: l'.token :: ts')) (h : ReadsIdxs (l'.token :: ts') (idxs, rest)) :
    ReadsIdxs (l.token :: ts) (consIdx x idxs, rest) := by
  obtain ⟨m, hx⟩ := hx
  obtain ⟨k, h⟩ := h
  refine exists_fuel (max m k) fun n hn => ?_
  show (readRule n (.chain .expr) ts).bind _ = _
  rw [hx n (by omega)]
  show (readIdxs n (l'.token :: ts')).bind _ = _
  rw [h n (by omega)]
  rfl

end

/-! ## Every derivation is read -/

theorem yield_start : (∀ (r : Rule) (d : ExprTree r), ∃ tok ts, d.yield = tok :: ts ∧ tok.pos = d.startPos) ∧
    ∀ d : IdxTree, ∃ (l : Tok .lbracket) (ts : List Token), d.yield = l.token :: ts := by
  have happend {r r' : Rule} {d : ExprTree r} {d' : ExprTree r'} {ts : List Token}
      (h : ∃ tok ts, d.yield = tok :: ts ∧ tok.pos = d.startPos) (hy : d'.yield = d.yield ++ ts)
      (hp : d'.startPos = d.startPos) : ∃ tok ts, d'.yield = tok :: ts ∧ tok.pos = d'.startPos := by
    obtain ⟨tok, ts', hd, hpos⟩ := h
    exact ⟨tok, ts' ++ ts, by rw [hy, hd, List.cons_append], hpos.trans hp.symm⟩
  apply ExprTree.induct
  case one => exact fun _ _ ih => happend ih (List.append_nil _).symm rfl
  case more => exact fun _ _ _ _ _ _ ih _ => happend ih rfl rfl
  case cmpOp => exact fun _ _ _ ih _ => happend ih rfl rfl
  case expr => exact fun _ ih => happend ih (List.append_nil _).symm rfl
  case const => exact fun c => ⟨_, _, rfl, rfl⟩
  case logicInnerExpr | innerExpr => exact fun _ _ _ _ => ⟨_, _, rfl, rfl⟩
  case arrayLookup | unaryMinus => exact fun _ _ _ => ⟨_, _, rfl, rfl⟩
  case arrayCreate => exact fun _ _ _ _ _ => ⟨_, _, rfl, rfl⟩
  case last => exact fun _ _ _ _ => ⟨_, _, rfl⟩
  case cons => exact fun _ _ _ _ _ _ => ⟨_, _, rfl⟩
  all_goals
    intros
    exact ⟨_, _, rfl, rfl⟩

theorem nextPos_yield {r : Rule} (d : ExprTree r) (rest : List Token) : nextPos (d.yield ++ rest) = d.startPos := by
  obtain ⟨tok, ts, hd, hpos⟩ := yield_start.1 r d
  rw [hd]
  exact hpos

/-- A tree of a chain is read up to the operands that follow. -/
def ReadsTree : (r : Rule) → ExprTree r → Prop
  | .chain c, d => ∀ rest res, c.operand.Closed rest → ReadsMore c d.visit rest res →
      ReadsTo (.chain c) (d.yield ++ rest) res
  | r, d => ∀ rest, r.Closed rest → ReadsTo r (d.yield ++ rest) (d.visit, rest)

theorem ReadsTree.reads {r : Rule} {d : ExprTree r} (h : ReadsTree r d) {rest : List Token} (hrest : r.Closed rest) :
    ReadsTo r (d.yield ++ rest) (d.visit, rest) := by
  cases r with
  | chain c => exact h rest _ hrest.operand (.stop hrest)
  | _ => exact h rest hrest

/-- **Every derivation is what the reader reads**, where its tokens are not gone on with. -/
theorem readsTree : (∀ (r : Rule) (d : ExprTree r), ReadsTree r d) ∧
    ∀ (d : IdxTree) (rest : List Token), Rule.f.Closed rest →
    ReadsIdxs (d.yield ++ rest) (d.visit, rest) := by
  apply ExprTree.induct
  case one => exact fun c x ih rest res hrest hmore => (ih.reads hrest).chain hmore
  case more =>
    intro c init k op hop x ihinit ihx rest res hrest hmore
    have hlevel : c.operand.Closed (op.token :: (x.yield ++ rest)) := by
      rw [Rule.Closed.cons_iff]
      exact Nat.lt_of_lt_of_eq (Nat.lt_of_succ_le c.operand_level.le) (Chain.mem_ops_iff.mp hop).symm
    rw [ExprTree.yield, List.append_assoc, List.cons_append]
    refine ihinit _ res hlevel (.step hop (ihx.reads hrest) ?_)
    rw [nextPos_yield]
    exact hmore
  case logicInnerExpr =>
    intro l e r ih rest hrest
    rw [ExprTree.yield, List.cons_append, List.append_assoc]
    have hf : ReadsTo .f (l.token :: (e.yield ++ ([r.token] ++ rest))) (e.visit, rest) :=
      .parens rfl rfl (ih.reads (.bracket rfl))
    have ht : ReadsTo (.chain .t) _ _ := ReadsTo.single hf (hrest.mono (by decide))
    have he : ReadsTo (.chain .expr) _ _ := ReadsTo.single ht (hrest.mono (by decide))
    exact he.expr hrest
  case cmpOp =>
    intro lhs op rhs ihl ihr rest hrest
    rw [ExprTree.yield, List.append_assoc, List.cons_append]
    have hop : (Rule.chain .expr).Closed (op.token :: (rhs.yield ++ rest)) :=
      Rule.Closed.cons_iff.mpr (Nat.lt_succ_self 2)
    have hl := ihl.reads hop
    have h := ReadsTo.cmpOp rfl hl (ihr.reads (hrest.mono (by decide)))
    rw [nextPos_yield] at h
    exact h
  case expr => exact fun e ih rest hrest => (ih.reads (hrest.mono (by decide))).expr hrest
  case innerExpr =>
    intro l e r ih rest _
    rw [ExprTree.yield, List.cons_append, List.append_assoc]
    exact .parens rfl rfl ((ih.reads (.bracket rfl)).logicExpr (.bracket rfl))
  case const => exact fun c rest _ => .const c
  case fIdent => exact fun name rest hrest => .fIdent hrest
  case arrayLookup =>
    intro name idxs ih rest hrest
    have h := ih rest hrest
    obtain ⟨l, ts, hl⟩ := yield_start.2 idxs
    rw [ExprTree.yield, List.cons_append]
    rw [hl, List.cons_append] at h ⊢
    exact .arrayLookup h
  case arrayCreate =>
    intro type l len r ih rest _
    rw [ExprTree.yield, List.append_assoc, List.cons_append, List.append_assoc]
    exact .arrayCreate (ih.reads (.bracket rfl))
  case propertyLookup => exact fun name dot property rest _ => .propertyLookup
  case unaryMinus => exact fun minus f ih rest hrest => .unaryMinus rfl (ih.reads hrest)
  case last =>
    intro l e r ih rest hrest
    rw [IdxTree.yield, List.cons_append, List.append_assoc]
    exact .last (ih.reads (.bracket rfl)) hrest
  case cons =>
    intro l e r more ih ihmore rest hrest
    have h := ihmore rest hrest
    obtain ⟨l', ts, hl⟩ := yield_start.2 more
    have hclosed : (Rule.chain .expr).Closed (r.token :: (more.yield ++ rest)) := .bracket rfl
    have he := ih.reads hclosed
    rw [IdxTree.yield, List.cons_append, List.append_assoc, List.cons_append]
    rw [hl, List.cons_append] at h he ⊢
    exact .cons he h

/-! ## Any two derivations -/

/-- A tree of a rule below, as one of `logic_expr`. -/
def ExprTree.toLogicExpr : {r : Rule} → ExprTree r → LogicExprTree
  | .chain .logicExpr, d => d
  | .chain .logicT, d => .one .logicExpr d
  | .logicF, d => .one .logicExpr (.one .logicT d)
  | .chain .expr, d => .one .logicExpr (.one .logicT (.expr d))
  | .chain .t, d => .one .logicExpr (.one .logicT (.expr (.one .expr d)))
  | .f, d => .one .logicExpr (.one .logicT (.expr (.one .expr (.one .t d))))

theorem toLogicExpr_yield {r : Rule} (d : ExprTree r) : d.toLogicExpr.yield = d.yield := by
  rcases r with c | _ | _
  · cases c <;> rfl
  · rfl
  · rfl

theorem toLogicExpr_visit {r : Rule} (d : ExprTree r) : d.toLogicExpr.visit = d.visit := by
  rcases r with c | _ | _
  · cases c <;> rfl
  · rfl
  · rfl

theorem visit_of_yield {d d' : LogicExprTree} (h : d.yield = d'.yield) : d.visit = d'.visit := by
  obtain ⟨m, hd⟩ := (readsTree.1 _ d).reads Rule.Closed.nil
  obtain ⟨n, hd'⟩ := (readsTree.1 _ d').reads Rule.Closed.nil
  rw [← h] at hd'
  have heq := (hd (max m n) (Nat.le_max_left m n)).symm.trans (hd' (max m n) (Nat.le_max_right m n))
  exact congrArg Prod.fst (Option.some.inj heq)

/-- **What is built does not depend on the derivation**: not the nodes, nor
their positions, nor the order they are made in. Tokens that are a chain, an
operator and an operand of the rule below build the operator's node over what
these build, so equal operators nest to the left and those of the rules below
bind tighter; and tokens that are two `expr` and a comparison build its node. -/
theorem derivations_agree (d d' : LogicExprTree) (h : d.yield = d'.yield) : d.visit = d'.visit ∧
    (∀ (c : Chain) (init : ExprTree (.chain c)) (k : TokenKind) (op : Tok k) (operand : ExprTree c.operand), k ∈ c.ops →
      d.yield = init.yield ++ op.token :: operand.yield →
        d.visit = opNode operand.startPos op.text init.visit operand.visit) ∧
    ∀ (lhs : ExprTree (.chain .expr)) (op : Tok .cmpOp) (rhs : ExprTree (.chain .expr)),
      d.yield = lhs.yield ++ op.token :: rhs.yield → d.visit = opNode lhs.startPos op.text lhs.visit rhs.visit := by
  have hany {r : Rule} (e : ExprTree r) (he : d.yield = e.yield) : d.visit = e.visit :=
    (visit_of_yield (he.trans (toLogicExpr_yield e).symm)).trans (toLogicExpr_visit e)
  refine ⟨visit_of_yield h, fun c init k op operand hop hd => ?_, fun lhs op rhs hd => ?_⟩
  · exact hany (.more c init op hop operand) hd
  · exact hany (.cmpOp lhs op rhs) hd

namespace Sample

/-- `(1)`, with the parentheses of `logic_inner_expr`. -/
def logicParens : LogicExprTree :=
  .one .logicExpr (.one .logicT (.logicInnerExpr (tok .lparen "(" 0 rfl) one.toLogicExpr (tok .rparen ")" 2 rfl)))

/-- `(1)`, with those of `inner_expr`. -/
def exprParens : LogicExprTree :=
  ExprTree.toLogicExpr (.innerExpr (tok .lparen "(" 0 rfl) (.one .expr (.one .t one)) (tok .rparen ")" 2 rfl))

end Sample

theorem derivations_agree_parens : Sample.logicParens.yield = Sample.exprParens.yield ∧
    Sample.logicParens.visit = Sample.exprParens.visit :=
  ⟨rfl, (derivations_agree Sample.logicParens Sample.exprParens rfl).1⟩

end DGen
