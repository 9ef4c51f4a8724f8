/-
The grammar (`d_gen.g4`): tokens with their texts, and the parse trees of its rules.

The four rules `operands += x (ops += o operands += x)*` are the chains of one
constructor. Trees of expressions have all their tokens, so that a tree's
yield is what it was derived from; those of statements leave out the tokens
that say nothing but which rule it was.
-/
import DGen.Ast

namespace DGen

/-! ## Tokens -/

inductive TokenKind
  | lparen | rparen | lbrace | lbracket | rbracket | dot
  | oror | andand | plus | minus | times | divide
  | return_ | break_ | continue_ | for_ | while_ | if_
  | nestedType | scalarType | assg | assgType | cremType | cmpOp
  | bool | ident | char | string | num
  deriving DecidableEq, Repr

/-- `IDENT`. -/
def IsIdent (name : String) : Prop :=
  ∃ c cs, name.toList = c :: cs ∧ c.isAlpha = true ∧ ∀ d ∈ c :: cs, d.isAlphanum = true ∨ d = '_'

/-- A character between two of the quotes `q`, or an escape. -/
def IsCharText (q : Char) (text : String) : Prop :=
  (∃ c, text.toList = [q, c, q]) ∨ text.toList = [q, '\\', 'n', q] ∨ text.toList = [q, '\\', 't', q]

def IsStringText (q : Char) (text : String) : Prop := ∃ cs, text.toList = q :: (cs ++ [q]) ∧ q ∉ cs

/-- `NUM`: no leading 0 but that of 0. -/
def IsNumText (text : String) : Prop :=
  ∃ c cs, text.toList = c :: cs ∧ (∀ d ∈ c :: cs, d.isDigit = true) ∧ (c = '0' → cs = [])

/-- The texts a rule of the lexer matches. -/
def TokenKind.Lexes : TokenKind → String → Prop
  | .lparen => (· = "(")
  | .rparen => (· = ")")
  | .lbrace => (· = "\x7b")
  | .lbracket => (· = "[")
  | .rbracket => (· = "]")
  | .dot => (· = ".")
  | .oror => (· = "||")
  | .andand => (· = "&&")
  | .plus => (· = "+")
  | .minus => (· = "-")
  | .times => (· = "*")
  | .divide => (· = "/")
  | .return_ => (· = "return")
  | .break_ => (· = "break")
  | .continue_ => (· = "continue")
  | .for_ => (· = "for")
  | .while_ => (· = "while")
  | .if_ => (· = "if")
  | .nestedType => (· = "[]")
  | .scalarType => (· ∈ ["int", "string", "char", "bool"])
  | .assg => (· = "=")
  | .assgType => (· ∈ ["+=", "-=", "*=", "/="])
  | .cremType => (· ∈ ["++", "--"])
  | .cmpOp => (· ∈ ["<", "<=", ">", ">=", "==", "!="])
  | .bool => (· ∈ ["true", "false"])
  | .ident => IsIdent
  | .char => IsCharText (Char.ofNat 39)
  | .string => IsStringText (Char.ofNat 34)
  | .num => IsNumText

structure Token where
  kind : TokenKind
  text : String
  pos : Position
  deriving DecidableEq, Repr

/-- A token of a kind. -/
structure Tok (k : TokenKind) where
  text : String
  pos : Position
  lexes : k.Lexes text

def Tok.token {k : TokenKind} (t : Tok k) : Token := ⟨k, t.text, t.pos⟩

/-! ## Expressions -/

/-- `type`. -/
structure TypeTree where
  scalar : Tok .scalarType
  nested : List (Tok .nestedType)

/-- `const`. -/
inductive ConstTree
  | char (t : Tok .char)
  | string (t : Tok .string)
  | num (t : Tok .num)
  | bool (t : Tok .bool)

/-- The rules that are chains of operands. -/
inductive Chain
  | logicExpr | logicT | expr | t
  deriving DecidableEq, Repr

inductive Rule
  | chain (c : Chain)
  | logicF | f
  deriving DecidableEq, Repr

def Chain.operand : Chain → Rule
  | .logicExpr => .chain .logicT
  | .logicT => .logicF
  | .expr => .chain .t
  | .t => .f

def Chain.ops : Chain → List TokenKind
  | .logicExpr => [.oror]
  | .logicT => [.andand]
  | .expr => [.plus, .minus]
  | .t => [.times, .divide]

mutual
/-- The trees of `logic_expr` and of the rules below it. -/
inductive ExprTree : Rule → Type
  | one (c : Chain) (operand : ExprTree c.operand) : ExprTree (.chain c)
  | more (c : Chain) (init : ExprTree (.chain c)) {k : TokenKind} (op : Tok k) (hop : k ∈ c.ops)
      (operand : ExprTree c.operand) : ExprTree (.chain c)
  | logicInnerExpr (l : Tok .lparen) (e : ExprTree (.chain .logicExpr)) (r : Tok .rparen) : ExprTree .logicF
  | cmpOp (lhs : ExprTree (.chain .expr)) (op : Tok .cmpOp) (rhs : ExprTree (.chain .expr)) : ExprTree .logicF
  | expr (e : ExprTree (.chain .expr)) : ExprTree .logicF
  | innerExpr (l : Tok .lparen) (e : ExprTree (.chain .expr)) (r : Tok .rparen) : ExprTree .f
  | const (c : ConstTree) : ExprTree .f
  | fIdent (name : Tok .ident) : ExprTree .f
  | arrayLookup (name : Tok .ident) (idxs : IdxTree) : ExprTree .f
  | arrayCreate (type : TypeTree) (l : Tok .lbracket) (len : ExprTree (.chain .expr)) (r : Tok .rbracket) : ExprTree .f
  | propertyLookup (name : Tok .ident) (dot : Tok .dot) (property : Tok .ident) : ExprTree .f
  | unaryMinus (minus : Tok .minus) (f : ExprTree .f) : ExprTree .f

/-- `('[' expr ']')+`. -/
inductive IdxTree : Type
  | last (l : Tok .lbracket) (e : ExprTree (.chain .expr)) (r : Tok .rbracket) : IdxTree
  | cons (l : Tok .lbracket) (e : ExprTree (.chain .expr)) (r : Tok .rbracket) (rest : IdxTree) : IdxTree
end

/-- Induction over the trees of expressions (`P`) and of indices (`Q`) together. -/
theorem ExprTree.induct {P : (r : Rule) → ExprTree r → Prop} {Q : IdxTree → Prop}
    (one : ∀ c x, P c.operand x → P (.chain c) (.one c x))
    (more : ∀ c init k (op : Tok k) hop x, P (.chain c) init → P c.operand x → P (.chain c) (.more c init op hop x))
    (logicInnerExpr : ∀ l e r, P (.chain .logicExpr) e → P .logicF (.logicInnerExpr l e r))
    (cmpOp : ∀ lhs op rhs, P (.chain .expr) lhs → P (.chain .expr) rhs → P .logicF (.cmpOp lhs op rhs))
    (expr : ∀ e, P (.chain .expr) e → P .logicF (.expr e))
    (innerExpr : ∀ l e r, P (.chain .expr) e → P .f (.innerExpr l e r)) (const : ∀ c, P .f (.const c))
    (fIdent : ∀ name, P .f (.fIdent name)) (arrayLookup : ∀ name idxs, Q idxs → P .f (.arrayLookup name idxs))
    (arrayCreate : ∀ type l len r, P (.chain .expr) len → P .f (.arrayCreate type l len r))
    (propertyLookup : ∀ name dot property, P .f (.propertyLookup name dot property))
    (unaryMinus : ∀ minus f, P .f f → P .f (.unaryMinus minus f))
    (last : ∀ l e r, P (.chain .expr) e → Q (.last l e r))
    (cons : ∀ l e r rest, P (.chain .expr) e → Q rest → Q (.cons l e r rest)) : (∀ r d, P r d) ∧ ∀ d, Q d :=
  ⟨fun r d => @ExprTree.rec P Q one (fun c init k op hop x => more c init k op hop x) logicInnerExpr cmpOp expr innerExpr const
      fIdent arrayLookup arrayCreate propertyLookup unaryMinus last cons r d,
   fun d => @IdxTree.rec P Q one (fun c init k op hop x => more c init k op hop x) logicInnerExpr cmpOp expr innerExpr const
      fIdent arrayLookup arrayCreate propertyLookup unaryMinus last cons d⟩

abbrev LogicExprTree := ExprTree (.chain .logicExpr)

def TypeTree.yield (t : TypeTree) : List Token := t.scalar.token :: t.nested.map Tok.token

def ConstTree.token : ConstTree → Token
  | .char t => t.token
  | .string t => t.token
  | .num t => t.token
  | .bool t => t.token

mutual
/-- The tokens a tree derives. -/
def ExprTree.yield : {r : Rule} → ExprTree r → List Token
  | _, .one _ x => x.yield
  | _, .more _ init op _ x => init.yield ++ op.token :: x.yield
  | _, .logicInnerExpr l e r => l.token :: (e.yield ++ [r.token])
  | _, .cmpOp lhs op rhs => lhs.yield ++ op.token :: rhs.yield
  | _, .expr e => e.yield
  | _, .innerExpr l e r => l.token :: (e.yield ++ [r.token])
  | _, .const c => [c.token]
  | _, .fIdent name => [name.token]
  | _, .arrayLookup name idxs => name.token :: idxs.yield
  | _, .arrayCreate type l len r => type.yield ++ l.token :: (len.yield ++ [r.token])
  | _, .propertyLookup name dot property => [name.token, dot.token, property.token]
  | _, .unaryMinus minus f => minus.token :: f.yield

def IdxTree.yield : IdxTree → List Token
  | .last l e r => l.token :: (e.yield ++ [r.token])
  | .cons l e r rest => l.token :: (e.yield ++ r.token :: rest.yield)
end

/-- `getStartPos`. -/
def ExprTree.startPos : {r : Rule} → ExprTree r → Position
  | _, .one _ x => x.startPos
  | _, .more _ init _ _ _ => init.startPos
  | _, .logicInnerExpr l _ _ => l.pos
  | _, .cmpOp lhs _ _ => lhs.startPos
  | _, .expr e => e.startPos
  | _, .innerExpr l _ _ => l.pos
  | _, .const c => c.token.pos
  | _, .fIdent name => name.pos
  | _, .arrayLookup name _ => name.pos
  | _, .arrayCreate type _ _ _ => type.scalar.pos
  | _, .propertyLookup name _ _ => name.pos
  | _, .unaryMinus minus _ => minus.pos

/-! ## Statements -/

/-- `f_ident | array_lookup`. -/
inductive LValueTree
  | fIdent (name : Tok .ident)
  | arrayLookup (name : Tok .ident) (idxs : IdxTree)

def LValueTree.startPos : LValueTree → Position
  | .fIdent name | .arrayLookup name _ => name.pos

/-- `assignment`. -/
inductive AsgTree
  | assg (lhs : LValueTree) (op : Tok .assg) (rhs : LogicExprTree)
  | assgType (lhs : LValueTree) (op : Tok .assgType) (rhs : LogicExprTree)
  | crem (lhs : LValueTree) (op : Tok .cremType)

/-- `precondition`. -/
structure PrecondTree where
  lbracket : Tok .lbracket
  prob : Option (Tok .num)
  expr : Option LogicExprTree

mutual
/-- `statement`; an `if` with an `else` has a constructor of its own. -/
inductive StmtTree
  | assignment (a : AsgTree)
  | return_ (kw : Tok .return_) (e : LogicExprTree)
  | break_ (kw : Tok .break_)
  | continue_ (kw : Tok .continue_)
  | define (type : TypeTree) (name : Tok .ident) (rhs : Option LogicExprTree)
  | for_ (precond : Option PrecondTree) (kw : Tok .for_) (preAsg : Option AsgTree) (cond : Option LogicExprTree)
      (incAsg : Option AsgTree) (body : BodyTree)
  | while_ (precond : Option PrecondTree) (kw : Tok .while_) (cond : LogicExprTree) (body : BodyTree)
  | if_ (precond : Option PrecondTree) (kw : Tok .if_) (cond : LogicExprTree) (body : BodyTree)
  | ifElse (precond : Option PrecondTree) (kw : Tok .if_) (cond : LogicExprTree) (body elseBody : BodyTree)

/-- `body`. -/
inductive BodyTree
  | mk (lbrace : Tok .lbrace) (stmts : StmtsTree)

/-- `(stmts += statement NEWLINE)*`. -/
inductive StmtsTree
  | nil
  | cons (stmt : StmtTree) (rest : StmtsTree)
end

/-- Induction over statements (`P`), bodies (`Q`) and their lists (`R`) together. -/
theorem StmtTree.induct {P : StmtTree → Prop} {Q : BodyTree → Prop} {R : StmtsTree → Prop}
    (assignment : ∀ a, P (.assignment a)) (return_ : ∀ kw e, P (.return_ kw e)) (break_ : ∀ kw, P (.break_ kw))
    (continue_ : ∀ kw, P (.continue_ kw)) (define : ∀ type name rhs, P (.define type name rhs))
    (for_ : ∀ p kw a c i b, Q b → P (.for_ p kw a c i b)) (while_ : ∀ p kw c b, Q b → P (.while_ p kw c b))
    (if_ : ∀ p kw c b, Q b → P (.if_ p kw c b)) (ifElse : ∀ p kw c b e, Q b → Q e → P (.ifElse p kw c b e))
    (mk : ∀ lbrace ss, R ss → Q (.mk lbrace ss)) (nil : R .nil) (cons : ∀ s rest, P s → R rest → R (.cons s rest)) :
    (∀ s, P s) ∧ (∀ b, Q b) ∧ ∀ ss, R ss :=
  ⟨fun s => @StmtTree.rec P Q R assignment return_ break_ continue_ define for_ while_ if_ ifElse mk nil cons s,
   fun b => @BodyTree.rec P Q R assignment return_ break_ continue_ define for_ while_ if_ ifElse mk nil cons b,
   fun ss => @StmtsTree.rec P Q R assignment return_ break_ continue_ define for_ while_ if_ ifElse mk nil cons ss⟩

structure ParamTree where
  type : TypeTree
  name : Tok .ident

/-- `function`, which is all there is to a `program`. -/
structure FunctionTree where
  retType : TypeTree
  name : Tok .ident
  param : ParamTree
  params : List ParamTree
  body : BodyTree

/-- The start of a statement that may begin with a precondition. -/
def startPosOf {k : TokenKind} (precond : Option PrecondTree) (kw : Tok k) : Position :=
  match precond with
  | some p => p.lbracket.pos
  | none => kw.pos

namespace Sample

def tok (k : TokenKind) (text : String) (col : Int) (h : k.Lexes text) : Tok k := ⟨text, ⟨1, col⟩, h⟩

def one : ExprTree .f := .const (.num (tok .num "1" 1 ⟨'1', [], rfl, List.forall_mem_singleton.mpr rfl, fun _ => rfl⟩))

def typeInt : TypeTree := ⟨tok .scalarType "int" 0 List.mem_cons_self, []⟩

def identF : Tok .ident := tok .ident "f" 0 ⟨'f', [], rfl, rfl, List.forall_mem_singleton.mpr (.inl rfl)⟩

def identN : Tok .ident := tok .ident "n" 0 ⟨'n', [], rfl, rfl, List.forall_mem_singleton.mpr (.inl rfl)⟩

def toExpr (f : ExprTree .f) : ExprTree (.chain .expr) := .one .expr (.one .t f)

def toLogicExpr (e : ExprTree (.chain .expr)) : LogicExprTree := .one .logicExpr (.one .logicT (.expr e))

/-- `int f(int n)` with the statements. -/
def function (stmts : StmtsTree) : FunctionTree where
  retType := typeInt
  name := identF
  param := ⟨typeInt, identN⟩
  params := []
  body := .mk (tok .lbrace "\x7b" 0 rfl) stmts

end Sample

end DGen
