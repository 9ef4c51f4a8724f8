/-
What the constants of a program's tree hold (`CharNode::create`,
`NumberNode::create`, `visitConst`, `visitPrecondition`).

They are, in order, what the builder decodes the literal tokens to, and a few
it adds on its own (`visitFunction_constants`). The decoders take any token
of the lexer without an error, and look at less of it than it has: `atoi`
goes on counting past the largest `int`, and of a `CHAR` only the first byte
after the quote is read, which in an escape is the backslash. So the
constants hold what is written exactly where neither matters
(`literals_denote_iff`).
-/
import DGen.Builder
import DGen.Lib.Result
import DGen.Lib.Utf8

namespace DGen

open StateT

/-! ## The constants of a tree -/

/-- What a node holds instead of a name or an operator. -/
inductive Constant
  | char (ch : BitVec 8)
  | string (str : String)
  | num (num : BitVec 32)
  | bool (val : Bool)
  deriving DecidableEq, Repr

mutual
def Expr.constants {σ : Type} : Expr σ → List Constant
  | .char _ ch => [.char ch]
  | .string _ str => [.string str]
  | .number _ num => [.num num]
  | .bool _ val => [.bool val]
  | .ident _ | .propertyLookup _ _ _ => []
  | .binOp _ _ lhs rhs => lhs.constants ++ rhs.constants
  | .arrLookup _ _ idxs => constantsList idxs
  | .arrCreate _ _ len => len.constants

def Expr.constantsList {σ : Type} : List (Expr σ) → List Constant
  | [] => []
  | e :: es => e.constants ++ constantsList es
end

def AsgNode.constants {σ : Type} (n : AsgNode σ) : List Constant := n.lhs.toExpr.constants ++ n.rhs.constants

/-- `prob`, and what the condition holds. -/
def PrecondNode.constants {σ : Type} (n : PrecondNode σ) : List Constant :=
  .num n.prob :: n.expr.toList.flatMap Expr.constants

mutual
def Stmt.constants {σ : Type} : Stmt σ → List Constant
  | .asg n => n.constants
  | .ret n => n.expr.constants
  | .def_ n => n.rhs.toList.flatMap Expr.constants
  | .cont _ _ | .brk _ _ => []
  | .for_ _ p a c i b => p.toList.flatMap PrecondNode.constants ++ a.toList.flatMap AsgNode.constants ++ c.constants ++
    i.toList.flatMap AsgNode.constants ++ Body.constants b
  | .if_ _ p c b => p.toList.flatMap PrecondNode.constants ++ c.constants ++ Body.constants b
  | .ifElse _ p c b e => p.toList.flatMap PrecondNode.constants ++ c.constants ++ Body.constants b ++ Body.constants e

def Body.constants {σ : Type} : Body σ → List Constant
  | [] => []
  | s :: rest => s.constants ++ Body.constants rest
end

/-! ## What is written -/

/-- Where a constant comes from: a literal of the program, the number of a
precondition, or the builder, which adds the -1 of a unary minus and of a
precondition without a number, and the 1 of `++` and `--`. -/
inductive Written
  | const (c : ConstTree)
  | prob (num : Tok .num)
  | added (num : BitVec 32)

mutual
def ExprTree.written : {r : Rule} → ExprTree r → List Written
  | _, .one _ x => x.written
  | _, .more _ init _ _ x => init.written ++ x.written
  | _, .logicInnerExpr _ e _ => e.written
  | _, .cmpOp l _ r => l.written ++ r.written
  | _, .expr e => e.written
  | _, .innerExpr _ e _ => e.written
  | _, .const c => [.const c]
  | _, .fIdent _ => []
  | _, .arrayLookup _ idxs => idxs.written
  | _, .arrayCreate _ _ len _ => len.written
  | _, .propertyLookup _ _ _ => []
  | _, .unaryMinus _ f => .added (-1) :: f.written

def IdxTree.written : IdxTree → List Written
  | .last _ e _ => e.written
  | .cons _ e _ rest => e.written ++ rest.written
end

def LValueTree.written : LValueTree → List Written
  | .fIdent _ => []
  | .arrayLookup _ idxs => idxs.written

/-- A compound assignment writes its left side twice. -/
def AsgTree.written : AsgTree → List Written
  | .assg l _ r => l.written ++ r.written
  | .assgType l _ r => l.written ++ (l.written ++ r.written)
  | .crem l _ => l.written ++ (l.written ++ [.added 1])

def PrecondTree.written (p : PrecondTree) : List Written :=
  (match p.prob with
    | some num => .prob num
    | none => .added (-1)) :: p.expr.toList.flatMap ExprTree.written

mutual
def StmtTree.written : StmtTree → List Written
  | .assignment a => a.written
  | .return_ _ e => e.written
  | .break_ _ | .continue_ _ => []
  | .define _ _ rhs => rhs.toList.flatMap ExprTree.written
  | .for_ p _ a c i b => p.toList.flatMap PrecondTree.written ++ a.toList.flatMap AsgTree.written ++
    c.toList.flatMap ExprTree.written ++ i.toList.flatMap AsgTree.written ++ b.written
  | .while_ p _ c b | .if_ p _ c b => p.toList.flatMap PrecondTree.written ++ c.written ++ b.written
  | .ifElse p _ c b e => p.toList.flatMap PrecondTree.written ++ c.written ++ b.written ++ e.written

def BodyTree.written : BodyTree → List Written
  | .mk _ ss => ss.written

def StmtsTree.written : StmtsTree → List Written
  | .nil => []
  | .cons s rest => s.written ++ rest.written
end

/-- What the builder makes of it. -/
def Written.decode : Written → Constant
  | .const (.char t) => .char ((t.text.toUTF8.toList.map (·.toBitVec)).getD 1 0)
  | .const (.string t) => .string (String.ofList t.text.toList.tail.dropLast)
  | .const (.num t) => .num (atoi t.text)
  | .const (.bool t) => .bool (t.text.toList.head? == some 't')
  | .prob t => .num (atoi t.text)
  | .added num => .num num

/-! ## Building -/

/-- What the builder makes holds what it makes of the constants written. -/
abbrev HoldsWritten {α : Type} (m : Build α) (constants : α → List Constant) (ws : List Written) : Prop :=
  Gives m fun a => constants a = ws.map Written.decode

theorem visitConst_constants (c : ConstTree) : HoldsWritten (visitConst c) Expr.constants [.const c] := by
  cases c with
  | char t => exact .after fun _ => .pure rfl
  | string t => exact .after fun _ => .pure rfl
  | num t => exact .after fun _ => .pure rfl
  | bool t =>
    rw [visitConst, BoolNode.create]
    split
    next h => exact .after fun _ => .pure (by simp [Expr.constants, Written.decode, h])
    next h =>
      split
      next h => exact .after fun _ => .pure (by simp [Expr.constants, Written.decode, h])
      next => exact fun _ _ _ hr => by cases hr

theorem binOpNode_constants (pos : Position) (op : BinOpType) (lhs rhs : Expr Unit) :
    Gives (BinOpNode.new pos op lhs rhs) fun e => e.constants = lhs.constants ++ rhs.constants :=
  .after fun _ => .pure rfl

theorem binOpCreate_constants (pos : Position) (op : String) (lhs rhs : Expr Unit) :
    Gives (BinOpNode.create pos op lhs rhs) fun e => e.constants = lhs.constants ++ rhs.constants :=
  .after fun op => binOpNode_constants pos op lhs rhs

theorem arrLookupNode_constants (pos : Position) (name : String) (idxs : List (Expr Unit)) :
    Gives (ArrLookupNode.new pos name idxs) fun r => r.2.2 = idxs :=
  .after fun _ => .after fun _ => .pure rfl

theorem exprVisit_constants : (∀ (r : Rule) (d : ExprTree r), HoldsWritten d.visit Expr.constants d.written) ∧
    ∀ d : IdxTree, HoldsWritten d.visit Expr.constantsList d.written := by
  have hop {lhs rhs : Expr Unit} {ws ws' : List Written} (hl : lhs.constants = ws.map Written.decode)
      (hr : rhs.constants = ws'.map Written.decode) (pos : Position) (op : String) :
      HoldsWritten (BinOpNode.create pos op lhs rhs) Expr.constants (ws ++ ws') :=
    (binOpCreate_constants pos op lhs rhs).imp fun e he => by rw [he, hl, hr, List.map_append]
  apply ExprTree.induct
  case one => exact fun _ _ ih => ih
  case more =>
    intro c init k op _ x ihinit ihx
    exact ihinit.bind fun lhs hl => ihx.bind fun rhs hr => hop hl hr _ op.text
  case logicInnerExpr => exact fun _ _ _ ih => ih
  case cmpOp =>
    intro l op r ihl ihr
    exact ihl.bind fun lhs hl => ihr.bind fun rhs hr => hop hl hr _ op.text
  case expr => exact fun _ ih => ih
  case innerExpr => exact fun _ _ _ ih => ih
  case const => exact visitConst_constants
  case fIdent => exact fun name => .after fun _ => .pure rfl
  case arrayLookup =>
    intro name idxs ih
    refine ih.bind fun es hes => (arrLookupNode_constants _ _ es).bind fun r hr => .pure ?_
    rw [Expr.constants, hr, hes]
    rfl
  case arrayCreate =>
    intro t l len r ih
    exact .after fun _ => ih.bind fun n hn => .after fun _ => .pure hn
  case propertyLookup => exact fun name _ property => .after fun _ => .after fun _ => .pure rfl
  case unaryMinus =>
    intro minus f ih
    refine ih.bind fun e he => ?_
    have hnum : Gives (NumberNode.new minus.pos (-1)) fun n => n.constants = [.num (-1)] := .after fun _ => .pure rfl
    refine hnum.bind fun num hn => (binOpNode_constants _ _ num e).imp fun b hb => ?_
    rw [hb, hn, he]
    rfl
  case last =>
    intro _ e _ ih
    refine ih.bind fun e he => .pure ?_
    rw [Expr.constantsList, he, Expr.constantsList, List.append_nil]
    rfl
  case cons =>
    intro _ e _ rest ih ihrest
    refine ih.bind fun e he => ihrest.bind fun es hes => .pure ?_
    rw [Expr.constantsList, he, hes, IdxTree.written, List.map_append]

/-- A copy holds what was copied. -/
theorem copy_constants (e : Expr Unit) : Gives e.copy fun c => c.constants = e.constants := by
  have hlist {es : List (Expr Unit)} (ih : ∀ e ∈ es, Gives e.copy fun c => c.constants = e.constants) :
      Gives (Expr.copyIdxs es) fun cs => Expr.constantsList cs = Expr.constantsList es := by
    induction es with
    | nil => exact .pure rfl
    | cons e es ihes =>
      obtain ⟨ihe, ihrest⟩ := List.forall_mem_cons.mp ih
      refine ihe.bind fun c hc => (ihes ihrest).bind fun cs hcs => .pure ?_
      rw [Expr.constantsList, hc, hcs, Expr.constantsList]
  induction e with
  | number node num => exact .after fun _ => .pure rfl
  | ident n => exact .after fun _ => .pure rfl
  | propertyLookup node n property => exact .after fun _ => .after fun _ => .pure rfl
  | binOp node op lhs rhs ihl ihr =>
    refine ihl.bind fun l hl => ihr.bind fun r hr => (binOpNode_constants node.pos op l r).imp fun c hc => ?_
    rw [hc, hl, hr, Expr.constants]
  | arrLookup node n idxs ih =>
    refine (hlist ih).bind fun cs hcs => (arrLookupNode_constants node.pos n.name cs).bind fun r hr => .pure ?_
    rw [Expr.constants, hr, hcs, Expr.constants]
  | _ => exact .pure rfl

theorem lvalue_constants (l : LValueTree) : Gives l.visit fun v =>
    v.toExpr.constants = l.written.map Written.decode := by
  cases l with
  | fIdent name => exact .after fun _ => .pure rfl
  | arrayLookup name idxs =>
    refine (exprVisit_constants.2 idxs).bind fun es hes => (arrLookupNode_constants _ _ es).bind fun r hr => .pure ?_
    show Expr.constantsList r.2.2 = _
    rw [hr, hes]
    rfl

theorem asgNode_constants (pos : Position) (lhs : LValue Unit) (rhs : Expr Unit) :
    Gives (AsgNode.new pos lhs rhs) fun n => n.constants = lhs.toExpr.constants ++ rhs.constants :=
  .after fun _ => .pure rfl

/-- A compound assignment holds a copy of its left side. -/
theorem asgCompound_constants (pos : Position) (lhs : LValue Unit) (op : BinOpType) (rhs : Expr Unit) :
    Gives (do AsgNode.new pos lhs (← BinOpNode.new pos op (← lhs.toExpr.copy) rhs)) fun n =>
      n.constants = lhs.toExpr.constants ++ (lhs.toExpr.constants ++ rhs.constants) := by
  refine (copy_constants lhs.toExpr).bind fun c hc => (binOpNode_constants pos op c rhs).bind fun e he => ?_
  exact (asgNode_constants pos lhs e).imp fun n hn => by rw [hn, he, hc]

theorem asgVisit_constants (a : AsgTree) : HoldsWritten a.visit AsgNode.constants a.written := by
  cases a with
  | assg l op r =>
    refine (lvalue_constants l).bind fun lhs hl => (exprVisit_constants.1 _ r).bind fun rhs hr => ?_
    obtain hop : op.text = "=" := op.lexes
    rw [hop]
    refine (asgNode_constants _ lhs rhs).imp fun n hn => ?_
    rw [hn, hl, hr, AsgTree.written, List.map_append]
  | assgType l op r =>
    refine (lvalue_constants l).bind fun lhs hl => (exprVisit_constants.1 _ r).bind fun rhs hr => ?_
    have hcompound (bop : BinOpType) :=
      (asgCompound_constants l.startPos lhs bop rhs).imp fun n hn =>
        show n.constants = (AsgTree.assgType l op r).written.map Written.decode by
        rw [hn, hl, hr, AsgTree.written, List.map_append, List.map_append]
    have hop := op.lexes
    simp only [TokenKind.Lexes, List.mem_cons, List.not_mem_nil, or_false] at hop
    obtain h | h | h | h := hop <;> rw [h] <;> exact hcompound _
  | crem l op =>
    refine (lvalue_constants l).bind fun lhs hl => ?_
    refine .after fun bop => (copy_constants lhs.toExpr).bind fun c hc => ?_
    have hone : Gives (NumberNode.new l.startPos 1) fun n => n.constants = [.num 1] := .after fun _ => .pure rfl
    refine hone.bind fun one hone => (binOpNode_constants _ bop c one).bind fun e he => ?_
    refine (asgNode_constants _ lhs e).imp fun n hn => ?_
    rw [hn, he, hc, hone, hl, AsgTree.written, List.map_append, List.map_append]
    rfl

theorem option_constants {α β : Type} {visit : α → Build β} {constants : β → List Constant} {written : α → List Written}
    (h : ∀ a, HoldsWritten (visit a) constants (written a)) (o : Option α) :
    Gives (visitOption visit o) fun b => b.toList.flatMap constants =
      (o.toList.flatMap written).map Written.decode := by
  cases o with
  | none => exact .pure rfl
  | some a =>
    refine (h a).bind fun b hb => .pure ?_
    simpa using hb

theorem visitPrecondition_constants (p : PrecondTree) :
    HoldsWritten (visitPrecondition p) PrecondNode.constants p.written := by
  refine (option_constants (exprVisit_constants.1 _) p.expr).bind fun expr hexpr => .after fun _ => .pure ?_
  rw [PrecondNode.constants, hexpr, PrecondTree.written, List.map_cons]
  cases p.prob <;> rfl

theorem visitLogicExpr_constants (c : Option LogicExprTree) :
    HoldsWritten (visitLogicExpr c) Expr.constants (c.toList.flatMap ExprTree.written) := by
  cases c with
  | none => exact fun _ _ _ h => by cases h
  | some e => exact (exprVisit_constants.1 _ e).imp fun _ he => by simpa using he

theorem stmtVisit_constants : (∀ s : StmtTree, HoldsWritten s.visit Stmt.constants s.written) ∧
    (∀ b : BodyTree, Gives b.visit fun r => Body.constants r.2 = b.written.map Written.decode) ∧
    ∀ ss : StmtsTree, HoldsWritten ss.visit Body.constants ss.written := by
  have hfor (pos : Position) (p : Option (PrecondNode Unit)) (a : Option (AsgNode Unit)) (c : Expr Unit)
      (i : Option (AsgNode Unit)) (b : NodeId × Body Unit) : Gives (ForNode.new pos p a c i b) fun s =>
      s.constants = (Stmt.for_ ⟨0, pos⟩ p a c i b.2).constants := .after fun _ => .pure rfl
  apply StmtTree.induct
  case assignment => exact fun a => (asgVisit_constants a).bind fun n hn => .pure hn
  case return_ =>
    intro kw e
    exact (exprVisit_constants.1 _ e).bind fun expr he => .after fun _ => .pure he
  case break_ => exact fun kw => .after fun _ => .pure rfl
  case continue_ => exact fun kw => .after fun _ => .pure rfl
  case define =>
    intro t name r
    refine .after fun type => (option_constants (exprVisit_constants.1 _) r).bind fun rhs hr => ?_
    have hdef : Gives (DefNode.new t.scalar.pos name.text type rhs) fun n => n.rhs = rhs := .after fun _ => .pure rfl
    refine hdef.bind fun n hn => .pure ?_
    rw [Stmt.constants, hn, hr]
    rfl
  case for_ =>
    intro p kw a c i b ih
    refine (option_constants visitPrecondition_constants p).bind fun precond hp =>
      (option_constants asgVisit_constants a).bind fun preAsg ha => (visitLogicExpr_constants c).bind fun cond hc =>
        (option_constants asgVisit_constants i).bind fun incAsg hi =>
          ih.bind fun body hb => (hfor _ precond preAsg cond incAsg body).imp fun s hs => ?_
    rw [hs, Stmt.constants, hp, ha, hc, hi, hb]
    simp only [StmtTree.written, List.map_append]
  case while_ =>
    intro p kw c b ih
    refine (option_constants visitPrecondition_constants p).bind fun precond hp =>
      (exprVisit_constants.1 _ c).bind fun cond hc =>
      ih.bind fun body hb => (hfor _ precond none cond none body).imp fun s hs => ?_
    rw [hs, Stmt.constants, hp, hc, hb]
    simp [StmtTree.written]
  case if_ =>
    intro p kw c b ih
    refine (option_constants visitPrecondition_constants p).bind fun precond hp =>
      (exprVisit_constants.1 _ c).bind fun cond hc =>
      ih.bind fun body hb => .after fun _ => .pure ?_
    rw [Stmt.constants, hp, hc, hb]
    simp only [StmtTree.written, List.map_append]
  case ifElse =>
    intro p kw c b e ihb ihe
    refine (option_constants visitPrecondition_constants p).bind fun precond hp =>
      (exprVisit_constants.1 _ c).bind fun cond hc =>
      ihb.bind fun body hb => ihe.bind fun elseBody he => .after fun _ => .pure ?_
    rw [Stmt.constants, hp, hc, hb, he]
    simp only [StmtTree.written, List.map_append]
  case mk =>
    intro lbrace ss ih
    exact ih.bind fun stmts hs => .after fun _ => .pure hs
  case nil => exact .pure rfl
  case cons =>
    intro s rest ihs ihr
    refine ihs.bind fun stmt hs => ihr.bind fun stmts hr => .pure ?_
    rw [Body.constants, hs, hr, StmtsTree.written, List.map_append]

/-- The constants of a function are those its literals are decoded to. -/
theorem visitFunction_constants (f : FunctionTree) :
    Gives (visitFunction f) fun fn => Body.constants fn.body = f.body.written.map Written.decode :=
  .after fun _ => .after fun _ => (stmtVisit_constants.2.1 f.body).bind fun _ hb => .after fun _ => .pure hb

/-! ## Denotations -/

/-- The number that digits write. -/
def decimal (text : String) : Nat := Nat.ofDigits 10 (text.toList.reverse.map fun c => c.toNat - '0'.toNat)

/-- The character that a `CHAR` token writes between its quotes `q`. -/
inductive WritesChar (q : Char) (text : String) : Char → Prop
  | plain (c : Char) (h : text.toList = [q, c, q]) : WritesChar q text c
  | newline (h : text.toList = [q, '\\', 'n', q]) : WritesChar q text '\n'
  | tab (h : text.toList = [q, '\\', 't', q]) : WritesChar q text '\t'

/-- A constant holds the value of what is written. -/
def Written.Denotes : Written → Constant → Prop
  | .const (.char t), .char ch => ∃ c, WritesChar (Char.ofNat 39) t.text c ∧ ch.toInt = c.toNat
  | .const (.string t), .string str => t.text.toList = Char.ofNat 34 :: (str.toList ++ [Char.ofNat 34])
  | .const (.num t), .num num | .prob t, .num num => num.toInt = decimal t.text
  | .const (.bool t), .bool val => t.text = if val then "true" else "false"
  | .added num, .num num' => num' = num
  | _, _ => False

/-- What the decoders can take in: an `int`, an ASCII character and no escape. -/
def Written.InRange : Written → Prop
  | .const (.char t) => ∃ c, t.text.toList = [Char.ofNat 39, c, Char.ofNat 39] ∧ c.toNat < 128
  | .const (.num t) | .prob t => decimal t.text < 2 ^ 31
  | .const (.string _) | .const (.bool _) | .added _ => True

theorem atoi_eq (text : String) : atoi text = BitVec.ofNat 32 (min (decimal text) (2 ^ 63 - 1)) := by
  rw [atoi, decimal, Nat.ofDigits_eq_foldr, List.foldr_map, List.foldr_reverse]
  simp only [Nat.cast_id, Nat.add_comm]

theorem atoi_iff (text : String) : (atoi text).toInt = decimal text ↔ decimal text < 2 ^ 31 := by
  constructor
  · intro h
    have := BitVec.toInt_lt (x := atoi text)
    omega
  · intro h
    have hnat : (BitVec.ofNat 32 (decimal text)).toNat = decimal text := Nat.mod_eq_of_lt (by omega)
    rw [atoi_eq, min_eq_left (by omega), BitVec.toInt_eq_toNat_of_lt (by omega), hnat]

/-- The byte after an ASCII character. -/
theorem secondByte {text : String} {q c : Char} {cs : List Char} (h : text.toList = q :: c :: cs) (hq : q.toNat < 128) :
    (text.toUTF8.toList.map (·.toBitVec)).getD 1 0 = ((String.utf8EncodeChar c).map UInt8.toBitVec).headD 0 := by
  have hne : (String.utf8EncodeChar c).map UInt8.toBitVec ≠ [] := by
    rw [ne_eq, List.map_eq_nil_iff, ← List.length_eq_zero_iff, String.length_utf8EncodeChar]
    exact (Char.utf8Size_pos c).ne'
  rw [show text.toUTF8.toList.map UInt8.toBitVec = Utf8.encode text.toList from Utf8.toUTF8_toList text, h,
    Utf8.encode_cons,
    Utf8.encode_ascii hq, Utf8.encode_cons, List.singleton_append, List.getD_cons_succ]
  obtain ⟨b, bs, hbs⟩ := List.exists_cons_of_ne_nil hne
  rw [hbs]
  rfl

/-- The first byte of a character is its value if it is an ASCII one, and a negative `char` if not. -/
theorem firstByte_iff (c : Char) :
    (((String.utf8EncodeChar c).map UInt8.toBitVec).headD 0).toInt = c.toNat ↔ c.toNat < 128 := by
  by_cases hc : c.toNat < 128
  · have hnat : (BitVec.ofNat 8 c.toNat).toNat = c.toNat := Nat.mod_eq_of_lt (by omega)
    rw [Utf8.encode_ascii hc, List.headD_cons, BitVec.toInt_eq_toNat_of_lt (by omega), hnat]
    exact iff_of_true rfl hc
  · refine iff_of_false (fun h => ?_) hc
    have := BitVec.toInt_lt (x := ((String.utf8EncodeChar c).map UInt8.toBitVec).headD 0)
    omega

/-- The character decoded is the one written, unless that is an escape or no ASCII character. -/
theorem char_denotes_iff (t : Tok .char) : (Written.const (.char t)).Denotes (Written.const (.char t)).decode ↔
    (Written.const (.char t)).InRange := by
  have hq : (Char.ofNat 39).toNat < 128 := by decide
  have hesc {e : Char} {v : Char} (he : t.text.toList = [Char.ofNat 39, '\\', e, Char.ofNat 39]) (hv : v.toNat ≠ 92) :
      ((t.text.toUTF8.toList.map UInt8.toBitVec).getD 1 0).toInt ≠ v.toNat := by
    rw [secondByte he hq, (firstByte_iff '\\').mpr (by decide)]
    exact fun h => hv (Int.ofNat_inj.mp h).symm
  constructor
  · rintro ⟨c, hw, hv⟩
    cases hw with
    | plain c h =>
      rw [secondByte h hq, firstByte_iff] at hv
      exact ⟨c, h, hv⟩
    | newline h => exact absurd hv (hesc h (v := '\n') (by decide))
    | tab h => exact absurd hv (hesc h (v := '\t') (by decide))
  · rintro ⟨c, h, hc⟩
    refine ⟨c, .plain c h, ?_⟩
    rw [secondByte h hq, firstByte_iff]
    exact hc

theorem denotes_iff (w : Written) : w.Denotes w.decode ↔ w.InRange := by
  match w with
  | .const (.char t) => exact char_denotes_iff t
  | .const (.num t) | .prob t => exact atoi_iff t.text
  | .added num => exact iff_of_true rfl trivial
  | .const (.string t) =>
    obtain ⟨cs, h, -⟩ := t.lexes
    refine iff_of_true ?_ trivial
    rw [Written.decode, Written.Denotes, String.toList_ofList, h, List.tail_cons, List.dropLast_concat]
  | .const (.bool t) =>
    have htext := t.lexes
    simp only [TokenKind.Lexes, List.mem_cons, List.not_mem_nil, or_false] at htext
    refine iff_of_true ?_ trivial
    obtain h | h := htext <;> simp [Written.decode, Written.Denotes, h]

/-- **The constants of a program hold what its literals write** exactly if
its numbers are below 2^31 and its characters ASCII, and no escapes. -/
theorem literals_denote_iff {f : FunctionTree} {fn : FunctionFields} {heap : NodeHeap}
    (h : visitFunction f [] = .ok (fn, heap)) :
    List.Forall₂ Written.Denotes f.body.written (Body.constants fn.body) ↔ ∀ w ∈ f.body.written, w.InRange := by
  rw [visitFunction_constants f [] fn heap h, List.forall₂_map_right_iff, List.forall₂_same]
  exact forall₂_congr fun w _ => denotes_iff w

namespace Sample

/-- The escape for a new line, between quotes. -/
def charNewline : Tok .char :=
  tok .char (String.ofList [Char.ofNat 39, '\\', 'n', Char.ofNat 39]) 8 (.inr (.inl (String.toList_ofList ..)))

def typeChar : TypeTree := ⟨tok .scalarType "char" 0 (by simp [TokenKind.Lexes]), []⟩

/-- `char f(int n) { return '\n' }`, which the builder builds. -/
def returnNewline : FunctionTree :=
  { function (.cons (.return_ (tok .return_ "return" 1 rfl) (toLogicExpr (toExpr (.const (.char charNewline))))) .nil) with
    retType := typeChar }

/-- `int f(int n) { return 1 }`. -/
def returnOne : FunctionTree :=
  function (.cons (.return_ (tok .return_ "return" 1 rfl) (toLogicExpr (toExpr one))) .nil)

end Sample

theorem literals_denote_iff_one : ∃ fn heap, visitFunction Sample.returnOne [] = .ok (fn, heap) ∧
    List.Forall₂ Written.Denotes Sample.returnOne.body.written (Body.constants fn.body) := by
  refine ⟨_, _, rfl, (literals_denote_iff (f := Sample.returnOne) rfl).mpr ?_⟩
  refine List.forall_mem_singleton.mpr ?_
  show decimal "1" < 2 ^ 31
  decide

/-- The escape for a new line is a backslash in the tree. -/
theorem newline_not_denoted : ∃ fn heap, visitFunction Sample.returnNewline [] = .ok (fn, heap) ∧
    ¬List.Forall₂ Written.Denotes Sample.returnNewline.body.written (Body.constants fn.body) := by
  refine ⟨_, _, rfl, fun h => ?_⟩
  rw [visitFunction_constants Sample.returnNewline [] _ _ rfl, List.forall₂_map_right_iff, List.forall₂_same] at h
  obtain ⟨c, hc, -⟩ := (denotes_iff _).mp (h _ List.mem_cons_self)
  have hlen : 4 = 3 := congrArg List.length hc
  omega

end DGen
