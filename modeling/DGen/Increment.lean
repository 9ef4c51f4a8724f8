/-
The increments of loops, over every run of the emitted code.

The increment stands at the end of the loop's body, before the branch back
(`Paired`). A continue branches to the condition's block past it. So between
two tests of the condition the loop's own increment is executed once, and no
other assignment in its place, unless they are joined by a continue, and then
nothing is (`increment_once_iff`).

What the runs rest on is a property of the blocks (`Gen.WF`): a loop's
condition is tested in its own block, the one named `loop_cond_bb` for it,
and only branches of the loop go there.
-/
import DGen.Lowering

namespace DGen

open Blocks

variable {σ Store Value : Type}

/-! ## The instructions of a loop -/

namespace Instr

/-- Tests the condition of `l`. -/
def isTest (l : NodeId) : Instr → Bool
  | .condBr (.ofLoop l') _ _ _ => l' == l
  | _ => false

/-- Enters the loop, from before it. -/
def isEnter (l : NodeId) : Instr → Bool
  | .br (.enter l') _ => l' == l
  | _ => false

/-- The assignment executed where the increment of `l` stands. -/
def inc? (l : NodeId) : Instr → Option (AsgNode Symbol)
  | .asg (.inc l') n => if l' = l then some n else none
  | _ => none

def isBack (l : NodeId) : Instr → Bool
  | .br (.back l') _ => l' == l
  | _ => false

/-- A continue bound to `l`. -/
def isCont (l : NodeId) : Instr → Bool
  | .br (.cont (some l')) _ => l' == l
  | _ => false

end Instr

/-- The loop whose condition a branch goes to. -/
def BrSite.condOf : BrSite → Option NodeId
  | .enter l | .back l => some l
  | .cont l => l
  | .merge | .brk _ => none

/-- The increment `asg` of `l` is followed by the branch back, which follows nothing else. -/
inductive Paired (l : NodeId) (asg : AsgNode Symbol) : List Instr → Prop
  | nil : Paired l asg []
  | other {i rest} : i.inc? l = none → i.isBack l = false → Paired l asg rest → Paired l asg (i :: rest)
  | pair {i j rest} : i.inc? l = some asg → j.isBack l = true → Paired l asg rest → Paired l asg (i :: j :: rest)

section Paired
variable {l : NodeId} {asg : AsgNode Symbol} {is js : List Instr}

theorem Paired.append (h : Paired l asg is) (h' : Paired l asg js) : Paired l asg (is ++ js) := by
  induction h with
  | nil => exact h'
  | other hi hb _ ih => exact .other hi hb ih
  | pair hi hb _ ih => exact .pair hi hb ih

theorem Paired.of_other (h : ∀ i ∈ is, i.inc? l = none ∧ i.isBack l = false) : Paired l asg is := by
  induction is with
  | nil => exact .nil
  | cons i is ih =>
    exact .other (h i (List.mem_cons_self ..)).1 (h i (List.mem_cons_self ..)).2
      (ih fun j hj => h j (List.mem_cons_of_mem _ hj))

theorem Instr.inc?_of_isBack {i : Instr} (h : i.isBack l = true) : i.inc? l = none := by
  cases i <;> simp_all [isBack, inc?]

/-- No other assignment stands where the increment does. -/
theorem Paired.inc_eq (h : Paired l asg is) : ∀ i ∈ is, i.inc? l = none ∨ i.inc? l = some asg := by
  induction h with
  | nil => simp
  | other hi _ _ ih => exact List.forall_mem_cons.mpr ⟨.inl hi, ih⟩
  | pair hi hb _ ih =>
    exact List.forall_mem_cons.mpr ⟨.inr hi, List.forall_mem_cons.mpr ⟨.inl (Instr.inc?_of_isBack hb), ih⟩⟩

/-- The instruction before `pc` is the increment of `l`. -/
def AfterInc (l : NodeId) (asg : AsgNode Symbol) (is : List Instr) (pc : Nat) : Prop :=
  ∃ q i, pc = q + 1 ∧ is[q]? = some i ∧ i.inc? l = some asg

/-- A branch back is what comes after an increment. -/
theorem Paired.isBack_iff (h : Paired l asg is) :
    ∀ {pc i}, is[pc]? = some i → (i.isBack l = true ↔ AfterInc l asg is pc) := by
  have hnot (i : Instr) (hi : i.inc? l = some asg) : i.isBack l = false :=
    Bool.eq_false_iff.mpr fun hb => by simp [Instr.inc?_of_isBack hb] at hi
  induction h with
  | nil => intro pc i hi; simp at hi
  | @other j rest hj hb _ ih =>
    intro pc i hi
    cases pc with
    | zero =>
      simp only [List.getElem?_cons_zero, Option.some.injEq] at hi
      subst hi
      simp [hb, AfterInc]
    | succ pc =>
      rw [ih (by simpa using hi)]
      constructor
      · rintro ⟨q, i', rfl, hq, hi'⟩
        exact ⟨q + 1, i', rfl, by simpa using hq, hi'⟩
      · rintro ⟨q, i', hq, hget, hi'⟩
        obtain rfl : q = pc := by omega
        cases q with
        | zero =>
          simp only [List.getElem?_cons_zero, Option.some.injEq] at hget
          simp [← hget, hj] at hi'
        | succ q => exact ⟨q, i', rfl, by simpa using hget, hi'⟩
  | @pair j k rest hj hk _ ih =>
    intro pc i hi
    match pc with
    | 0 =>
      simp only [List.getElem?_cons_zero, Option.some.injEq] at hi
      subst hi
      simp [hnot j hj, AfterInc]
    | 1 =>
      simp only [List.getElem?_cons_succ, List.getElem?_cons_zero, Option.some.injEq] at hi
      subst hi
      exact ⟨fun _ => ⟨0, j, rfl, rfl, hj⟩, fun _ => hk⟩
    | pc + 2 =>
      rw [ih (by simpa using hi)]
      constructor
      · rintro ⟨q, i', rfl, hq, hi'⟩
        exact ⟨q + 2, i', rfl, by simpa using hq, hi'⟩
      · rintro ⟨q, i', hq, hget, hi'⟩
        obtain rfl : q = pc + 1 := by omega
        cases pc with
        | zero =>
          -- The branch back is no increment, so nothing comes after one.
          simp only [List.getElem?_cons_succ, List.getElem?_cons_zero, Option.some.injEq] at hget
          simp [← hget, Instr.inc?_of_isBack hk] at hi'
        | succ q => exact ⟨q, i', rfl, by simpa using hget, hi'⟩

end Paired

/-! ## Well-formed code -/

/-- The name of a block where a loop's condition is tested. -/
def condBbName : String := "loop_cond_bb"

namespace Gen

/-- A block that is no loop's condition. -/
def Plain (g : Gen) (k : Nat) : Prop := k < g.size ∧ g.name k ≠ condBbName

/-- Only the branches of a loop go to its condition. -/
def Targets (g : Gen) : Instr → Prop
  | .br site dest =>
    (∀ l, site.condOf = some l → ∃ bbs, g.loops l = some bbs ∧ dest = some bbs.1) ∧
      (site.condOf = none → ∀ k, dest = some k → g.Plain k)
  | .condBr _ _ ifTrue ifFalse => g.Plain ifTrue ∧ g.Plain ifFalse
  | _ => True

/-- The code of a plain block. -/
def PlainCode (l : NodeId) (asg : AsgNode Symbol) (is : List Instr) : Prop :=
  Paired l asg is ∧ ∀ i ∈ is, ∀ l', i.isTest l' = false

/-- Well-formed code, for the increment `asg` of `l`. -/
structure WF (l : NodeId) (asg : AsgNode Symbol) (g : Gen) : Prop where
  cur : g.Plain g.cur
  loop : ∀ {l' bbs}, g.loops l' = some bbs → (bbs.1 < g.size ∧ g.name bbs.1 = condBbName) ∧ g.Plain bbs.2 ∧
    ∃ p c t e, g.code bbs.1 = condCode p (.ofLoop l') c t e
  head : ∀ k < g.size, g.name k = condBbName → ∃ l' m, g.loops l' = some (k, m)
  plain : ∀ k, g.Plain k → PlainCode l asg (g.code k)
  targets : ∀ k < g.size, ∀ i ∈ g.code k, g.Targets i

/-- Blocks and loops stay what they are. -/
structure Keeps (g g' : Gen) : Prop where
  size_le : g.size ≤ g'.size
  name : ∀ k < g.size, g'.name k = g.name k
  loops : ∀ {l bbs}, g.loops l = some bbs → g'.loops l = some bbs

theorem Keeps.plain {g g' : Gen} (h : g.Keeps g') {k : Nat} (hk : g.Plain k) : g'.Plain k :=
  ⟨hk.1.trans_le h.size_le, by rw [h.name k hk.1]; exact hk.2⟩

theorem Keeps.targets {g g' : Gen} (h : g.Keeps g') {i : Instr} (hi : g.Targets i) : g'.Targets i := by
  unfold Targets at hi ⊢
  split
  · exact ⟨fun l hl => (hi.1 l hl).imp fun _ hb => ⟨h.loops hb.1, hb.2⟩, fun hl k hk => h.plain (hi.2 hl k hk)⟩
  · exact ⟨h.plain hi.1, h.plain hi.2⟩
  · trivial

variable {l : NodeId} {asg : AsgNode Symbol}

theorem PlainCode.append {is js : List Instr} (h : PlainCode l asg is) (h' : PlainCode l asg js) :
    PlainCode l asg (is ++ js) :=
  ⟨h.1.append h'.1, fun i hi => (List.mem_append.mp hi).elim (h.2 i) (h'.2 i)⟩

theorem PlainCode.nil : PlainCode l asg [] := ⟨.nil, by simp⟩

theorem PlainCode.of_forall {is : List Instr}
    (h : ∀ i ∈ is, (i.inc? l = none ∧ i.isBack l = false) ∧ ∀ l', i.isTest l' = false) : PlainCode l asg is :=
  ⟨.of_other fun i hi => (h i hi).1, fun i hi => (h i hi).2⟩

/-- Appending plain code. -/
theorem WF.append {g g' : Gen} {is : List Instr} (h : g.WF l asg) (hsize : g'.size = g.size)
    (hname : g'.name = g.name) (hcur : g'.cur = g.cur) (hloops : g'.loops = g.loops)
    (hcode : ∀ k, g'.code k = if k = g.cur then g.code k ++ is else g.code k) (hp : PlainCode l asg is)
    (ht : ∀ i ∈ is, g.Targets i) : g'.WF l asg := by
  have hk : g.Keeps g' := ⟨hsize.ge, fun _ _ => by rw [hname], fun h => by rw [hloops]; exact h⟩
  have hplain (k : Nat) : g'.Plain k ↔ g.Plain k := by rw [Plain, Plain, hsize, hname]
  refine ⟨hcur ▸ hk.plain h.cur, fun {l' bbs} hl => ?_, fun k hk hn => ?_, fun k hk => ?_, fun k hlt i hi => ?_⟩
  · rw [hloops] at hl
    obtain ⟨⟨hc, hn⟩, hm, p, c, t, e, hcd⟩ := h.loop hl
    have hne : bbs.1 ≠ g.cur := fun he => h.cur.2 (he ▸ hn)
    refine ⟨⟨hsize ▸ hc, by rw [hname, hn]⟩, (hplain _).mpr hm, p, c, t, e, ?_⟩
    rw [hcode, if_neg hne, hcd]
  · rw [hloops]
    exact h.head k (hsize ▸ hk) (by rw [← hname, hn])
  · rw [hcode]
    split
    · exact (h.plain k ((hplain k).mp hk)).append hp
    · exact h.plain k ((hplain k).mp hk)
  · rw [hcode] at hi
    refine hk.targets ?_
    split at hi
    · exact (List.mem_append.mp hi).elim (h.targets k (hsize ▸ hlt) i) (ht i)
    · exact h.targets k (hsize ▸ hlt) i hi

theorem WF.emit {g : Gen} (h : g.WF l asg) {i : Instr}
    (hi : (i.inc? l = none ∧ i.isBack l = false) ∧ ∀ l', i.isTest l' = false) (ht : g.Targets i) :
    (g.emit i).WF l asg :=
  h.append rfl rfl rfl rfl (fun _ => rfl) (.of_forall (by simpa using hi)) (by simpa using ht)

theorem WF.setInsertPoint {g : Gen} (h : g.WF l asg) {k : Nat} (hk : g.Plain k) :
    (g.setInsertPoint k).WF l asg := ⟨hk, h.loop, h.head, h.plain, h.targets⟩

/-- Adding an empty plain block. -/
theorem WF.createBlock {g : Gen} (h : g.WF l asg) {n : String} (hn : n ≠ condBbName) :
    (g.createBlock n).WF l asg := by
  have hk : g.Keeps (g.createBlock n) := ⟨Nat.le_succ _, fun k hk => by simp [hk.ne], fun h => h⟩
  have hold (k : Nat) (hk : k < g.size) : (g.createBlock n).code k = g.code k := by simp [hk.ne]
  refine ⟨hk.plain h.cur, fun {l' bbs} hl => ?_, fun k hlt hkn => ?_, fun k hp => ?_, fun k hlt i hi => ?_⟩
  · obtain ⟨⟨hc, hn⟩, hm, p, c, t, e, hcd⟩ := h.loop hl
    exact ⟨⟨Nat.lt_succ_of_lt hc, by rw [hk.name _ hc, hn]⟩, hk.plain hm, p, c, t, e, by rw [hold _ hc, hcd]⟩
  · by_cases he : k = g.size
    · simp [he, hn] at hkn
    · exact h.head k (by simp at hlt; omega) (by simpa [he] using hkn)
  · by_cases he : k = g.size
    · simp [he, PlainCode.nil]
    · have hlt : k < g.size := by have := hp.1; simp at this; omega
      rw [hold k hlt]
      exact h.plain k ⟨hlt, by rw [← hk.name k hlt]; exact hp.2⟩
  · by_cases he : k = g.size
    · simp [he] at hi
    · have hlt : k < g.size := by simp at hlt; omega
      rw [hold k hlt] at hi
      exact hk.targets (h.targets k hlt i hi)

end Gen

section Parts
open Gen
variable {l : NodeId} {asg : AsgNode Symbol} {g : Gen} (h : g.WF l asg)
include h

theorem codeGenAsg?_wf (loop : NodeId) (n : Option (AsgNode Symbol)) : (codeGenAsg? (.pre loop) n g).WF l asg := by
  refine h.append (by simp) (by simp) (by simp) (by simp) (codeGenAsg?_code g · _ n) (.of_forall ?_) ?_ <;>
    simp +contextual [asgCode?, Instr.inc?, Instr.isBack, Instr.isTest, Targets]

theorem codeGenArmEnd_wf (b : Body Symbol) {m : Nat} (hm : g.Plain m) : (codeGenArmEnd b m g).WF l asg := by
  refine h.append (by simp) (by simp) (by simp) (by simp) (codeGenArmEnd_code g · b m) (.of_forall ?_) ?_ <;>
    unfold armEndCode <;> split <;>
    simp [Instr.inc?, Instr.isBack, Instr.isTest, Targets, BrSite.condOf, hm]

theorem codeGenLoopEnd_wf {loop : NodeId} {inc : Option (AsgNode Symbol)} (b : Body Symbol) {k m : Nat}
    (hl : g.loops loop = some (k, m)) (hinc : loop = l → inc = some asg) :
    (codeGenLoopEnd loop inc b k g).WF l asg := by
  refine h.append (by simp) (by simp) (by simp) (by simp) (codeGenLoopEnd_code g · loop inc b k) ?_ ?_
  · unfold loopEndCode
    split
    · exact .nil
    · by_cases he : loop = l
      · obtain rfl := hinc he
        exact ⟨.pair (by simp [Instr.inc?, he]) (by simp [Instr.isBack, he]) .nil,
          by simp [asgCode?, Instr.isTest]⟩
      · refine .of_forall ?_
        cases inc <;> simp [asgCode?, Instr.inc?, Instr.isBack, Instr.isTest, he]
  · intro i hi
    unfold loopEndCode at hi
    split at hi
    · cases hi
    · cases inc <;> simp only [asgCode?, Option.map_none, Option.map_some, Option.toList_none, Option.toList_some,
        List.nil_append, List.cons_append, List.mem_cons, List.not_mem_nil, or_false] at hi
      · subst hi
        simp [Targets, BrSite.condOf, hl]
      · rcases hi with rfl | rfl <;> simp [Targets, BrSite.condOf, hl]

theorem codeGenIfHead_wf (node : ASTNode) (p : Option (PrecondNode Symbol)) (c : Expr Symbol) :
    (codeGenIfHead node p c g).WF l asg ∧ (codeGenIfHead node p c g).Plain (g.size + 1) ∧
      (codeGenIfHead node p c g).Plain (g.size + 2) := by
  have h₁ := ((h.createBlock (n := "then") (by decide)).createBlock (n := "else") (by decide)).createBlock
    (n := "merge") (by decide)
  have hp (k : Nat) (hk : k = g.size ∨ k = g.size + 1 ∨ k = g.size + 2) :
      (((g.createBlock "then").createBlock "else").createBlock "merge").Plain k := by
    have hne : g.size ≠ g.size + 1 + 1 := by omega
    rcases hk with rfl | rfl | rfl <;> simp [Plain, condBbName, hne]
    omega
  refine ⟨WF.setInsertPoint (h₁.append (by simp) (by simp) (by simp) (by simp)
    (codeGenCond_code _ · p (.ofIf node.id) c g.size (g.size + 1)) (.of_forall ?_) ?_) ?_, ?_, ?_⟩
  · cases p <;> simp [condCode, Instr.inc?, Instr.isBack, Instr.isTest]
  · cases p <;> simp [condCode, Targets, hp]
  · simpa [Plain] using hp g.size (.inl rfl)
  · simpa [Plain, codeGenIfHead] using hp (g.size + 1) (.inr (.inl rfl))
  · simpa [Plain, codeGenIfHead] using hp (g.size + 2) (.inr (.inr rfl))

end Parts

section ForHead
open Gen
variable {l : NodeId} {asg : AsgNode Symbol} {g : Gen}

theorem codeGenForHead_name (node : ASTNode) (p : Option (PrecondNode Symbol)) (c : Expr Symbol) (k : Nat) :
    (codeGenForHead node p c g).name k = if k = g.size + 2 then "merge_bb" else if k = g.size + 1 then "loop_bb"
      else if k = g.size then condBbName else g.name k := by
  simp [codeGenForHead, codeGenForEntry, condBbName]
  rfl

theorem codeGenForHead_keeps {node : ASTNode} (hfresh : g.loops node.id = none) (p : Option (PrecondNode Symbol))
    (c : Expr Symbol) : g.Keeps (codeGenForHead node p c g) := by
  refine ⟨by simp, fun k hk => ?_, fun {l' bbs} hl => ?_⟩
  · rw [codeGenForHead_name, if_neg (by omega), if_neg (by omega), if_neg (by omega)]
  · have hne : l' ≠ node.id := fun he => by simp [he, hfresh] at hl
    rw [codeGenForHead_loops, if_neg hne, hl]

theorem codeGenForHead_plain (node : ASTNode) (p : Option (PrecondNode Symbol)) (c : Expr Symbol) :
    (codeGenForHead node p c g).Plain (g.size + 1) ∧ (codeGenForHead node p c g).Plain (g.size + 2) :=
  ⟨⟨by simp, by simp [codeGenForHead_name, condBbName]⟩, by simp, by simp [codeGenForHead_name, condBbName]⟩

/-- The blocks of the loops there were, and the new one's. -/
theorem codeGenForHead_cond (h : g.WF l asg) {node : ASTNode} (hfresh : g.loops node.id = none)
    (p : Option (PrecondNode Symbol)) (c : Expr Symbol) {l' : NodeId} {bbs : Nat × Nat}
    (hl : (codeGenForHead node p c g).loops l' = some bbs) :
    (bbs.1 < (codeGenForHead node p c g).size ∧ (codeGenForHead node p c g).name bbs.1 = condBbName) ∧
      (codeGenForHead node p c g).Plain bbs.2 ∧
      ∃ p' c' t e, (codeGenForHead node p c g).code bbs.1 = condCode p' (.ofLoop l') c' t e := by
  have hlt := h.cur.1
  have hk := codeGenForHead_keeps hfresh p c
  rw [codeGenForHead_loops] at hl
  by_cases he : l' = node.id
  · rw [if_pos he, Option.some.injEq] at hl
    subst hl
    refine ⟨⟨by simp, by simp [codeGenForHead_name]⟩, (codeGenForHead_plain node p c).2, p, c, g.size + 1,
      g.size + 2, ?_⟩
    rw [codeGenForHead_code g _ hlt, if_neg hlt.ne', if_pos rfl, he]
  · rw [if_neg he] at hl
    obtain ⟨⟨hc, hn⟩, hm, hcd⟩ := h.loop hl
    have hne : bbs.1 ≠ g.cur := fun he => h.cur.2 (he ▸ hn)
    refine ⟨⟨hc.trans_le hk.size_le, by rw [hk.name _ hc, hn]⟩, hk.plain hm, ?_⟩
    rwa [codeGenForHead_code g _ hlt, if_neg hne, if_neg (by omega), if_neg (by omega)]

theorem codeGenForHead_targets (h : g.WF l asg) {node : ASTNode} (hfresh : g.loops node.id = none)
    (p : Option (PrecondNode Symbol)) (c : Expr Symbol) {k : Nat} (hk : k < (codeGenForHead node p c g).size)
    {i : Instr} (hi : i ∈ (codeGenForHead node p c g).code k) : (codeGenForHead node p c g).Targets i := by
  have hlt := h.cur.1
  have hkeeps := codeGenForHead_keeps hfresh p c
  have hplain := codeGenForHead_plain node p c (g := g)
  rw [codeGenForHead_size] at hk
  rw [codeGenForHead_code g k hlt] at hi
  split_ifs at hi with h₁ h₂ h₃
  · rw [List.mem_append, List.mem_singleton] at hi
    rcases hi with hi | rfl
    · exact hkeeps.targets (h.targets k (h₁ ▸ hlt) i hi)
    · simp [Targets, BrSite.condOf]
  · cases p <;> simp only [condCode, Option.map_none, Option.map_some, Option.toList_none, Option.toList_some,
      List.nil_append, List.cons_append, List.mem_cons, List.not_mem_nil, or_false] at hi
    · rw [hi]
      exact hplain
    · rcases hi with rfl | rfl
      exacts [trivial, hplain]
  · simp at hi
  · exact hkeeps.targets (h.targets k (by omega) i hi)

theorem codeGenForHead_wf (h : g.WF l asg) {node : ASTNode} (hfresh : g.loops node.id = none)
    (p : Option (PrecondNode Symbol)) (c : Expr Symbol) : (codeGenForHead node p c g).WF l asg := by
  have hlt := h.cur.1
  have hkeeps := codeGenForHead_keeps hfresh p c
  refine ⟨by simpa using (codeGenForHead_plain node p c).1, codeGenForHead_cond h hfresh p c,
    fun k hk hn => ?_, fun k hp => ?_, fun k hk i hi => codeGenForHead_targets h hfresh p c hk hi⟩
  · by_cases he : k = g.size
    · exact ⟨node.id, g.size + 2, by simp [he]⟩
    · rw [codeGenForHead_size] at hk
      have hold : k < g.size := by
        by_contra hge
        obtain he' | he' : k = g.size + 1 ∨ k = g.size + 2 := by omega
        · exact (codeGenForHead_plain node p c).1.2 (he' ▸ hn)
        · exact (codeGenForHead_plain node p c).2.2 (he' ▸ hn)
      obtain ⟨l', m, hl⟩ := h.head k hold (by rw [← hkeeps.name k hold, hn])
      exact ⟨l', m, hkeeps.loops hl⟩
  · obtain ⟨hk, hn⟩ := hp
    rw [codeGenForHead_size] at hk
    rw [codeGenForHead_name] at hn
    rw [codeGenForHead_code g k hlt]
    split_ifs with h₁ h₂ h₃
    · exact (h₁ ▸ h.plain _ h.cur).append (.of_forall (by simp [Instr.inc?, Instr.isBack, Instr.isTest]))
    · simp [h₂] at hn
    · exact .nil
    · refine h.plain k ⟨by omega, ?_⟩
      rwa [if_neg (by omega), if_neg (by omega), if_neg h₂] at hn

end ForHead

/-! ### Loops with an increment -/

mutual
def Stmt.incs : Stmt σ → List (NodeId × AsgNode σ)
  | .for_ node _ _ _ incAsg body => (incAsg.map (node.id, ·)).toList ++ Body.incs body
  | .if_ _ _ _ body => Body.incs body
  | .ifElse _ _ _ body elseBody => Body.incs body ++ Body.incs elseBody
  | _ => []

/-- The loops with an increment, each with the assignment that is its `inc_asg`. -/
def Body.incs : Body σ → List (NodeId × AsgNode σ)
  | [] => []
  | s :: rest => s.incs ++ Body.incs rest
end

mutual
def Stmt.HasInc (l : NodeId) (asg : AsgNode σ) : Stmt σ → Prop
  | .for_ node _ _ _ incAsg body => (node.id = l → incAsg = some asg) ∧ Body.HasInc l asg body
  | .if_ _ _ _ body => Body.HasInc l asg body
  | .ifElse _ _ _ body elseBody => Body.HasInc l asg body ∧ Body.HasInc l asg elseBody
  | _ => True

/-- If `l` is a loop in here, `asg` is its increment. -/
def Body.HasInc (l : NodeId) (asg : AsgNode σ) : Body σ → Prop
  | [] => True
  | s :: rest => s.HasInc l asg ∧ Body.HasInc l asg rest
end

theorem incs_subset_keyIds {l : NodeId} {asg : AsgNode σ} :
    (∀ s : Stmt σ, (l, asg) ∈ s.incs → l ∈ s.keyIds) ∧ ∀ b : Body σ, (l, asg) ∈ Body.incs b → l ∈ Body.keyIds b := by
  apply Stmt.induct <;> intros <;> simp only [Stmt.incs, Body.incs, List.not_mem_nil, List.mem_append] at *
  case for_ node p pre c inc b ih h =>
    simp only [Stmt.keyIds, List.mem_cons, List.mem_append]
    rcases h with h | h
    · obtain ⟨n, -, hn⟩ := Option.map_eq_some_iff.mp (Option.mem_toList.mp h)
      exact .inl (Prod.ext_iff.mp hn).1.symm
    · exact .inr (.inr (ih h))
  case if_ ih h => exact List.mem_append_right _ (ih h)
  case ifElse ihb ihe h =>
    exact List.mem_append_right _ (List.mem_append.mpr (h.imp ihb ihe))
  case cons ihs ihr h => exact List.mem_append.mpr (h.imp ihs ihr)

/-- No two loops are the same node, so one with an increment has that one. -/
theorem hasInc_of_mem {l : NodeId} {asg : AsgNode σ} :
    (∀ s : Stmt σ, s.keyIds.Nodup → (l ∈ s.keyIds → (l, asg) ∈ s.incs) → s.HasInc l asg) ∧
    ∀ b : Body σ, (Body.keyIds b).Nodup → (l ∈ Body.keyIds b → (l, asg) ∈ Body.incs b) → Body.HasInc l asg b := by
  apply Stmt.induct
  case for_ =>
    intro node p pre c inc b ih hd h
    simp only [Stmt.keyIds, List.nodup_cons, List.mem_append, List.nodup_append, not_or] at hd
    simp only [Stmt.keyIds, Stmt.incs, List.mem_cons, List.mem_append] at h
    refine ⟨?_, ih hd.2.2.1 fun hl => (h (.inr (.inr hl))).resolve_left ?_⟩
    · rintro rfl
      have hnot : (node.id, asg) ∉ Body.incs b := fun hm => hd.1.2 (incs_subset_keyIds.2 b hm)
      simpa using (h (.inl rfl)).resolve_right hnot
    · simp only [Option.mem_toList, Option.map_eq_some_iff, Prod.mk.injEq]
      rintro ⟨n, -, rfl, -⟩
      exact hd.1.2 hl
  case if_ =>
    intro node p c b ih hd h
    simp only [Stmt.keyIds, List.nodup_append] at hd
    exact ih hd.2.1 fun hl => h (List.mem_append_right _ hl)
  case ifElse =>
    intro node p c b e ihb ihe hd h
    have hd := (List.nodup_append.mp hd).2.1
    have hdis := List.nodup_append.mp hd
    simp only [Stmt.keyIds, Stmt.incs, List.mem_append] at h
    refine ⟨ihb hdis.1 fun hl => ?_, ihe hdis.2.1 fun hl => ?_⟩
    · exact (h (.inr (.inl hl))).resolve_right fun he => hdis.2.2 l hl l (incs_subset_keyIds.2 e he) rfl
    · exact (h (.inr (.inr hl))).resolve_left fun hb => hdis.2.2 l (incs_subset_keyIds.2 b hb) l hl rfl
  case cons =>
    intro s rest ihs ihr hd h
    have hdis := List.nodup_append.mp hd
    simp only [Body.keyIds, Body.incs, List.mem_append] at h
    refine ⟨ihs hdis.1 fun hl => ?_, ihr hdis.2.1 fun hl => ?_⟩
    · exact (h (.inl hl)).resolve_right fun he => hdis.2.2 l hl l (incs_subset_keyIds.2 rest he) rfl
    · exact (h (.inr hl)).resolve_left fun hb => hdis.2.2 l (incs_subset_keyIds.1 s hb) l hl rfl
  all_goals
    intros
    trivial

theorem Gen.Plain.extends {g g' : Gen} (h : g.Extends g') {k : Nat} (hk : g.Plain k) : g'.Plain k :=
  ⟨hk.1.trans_le h.size_le, by rw [h.name k hk.1]; exact hk.2⟩

theorem codeGenThen_wf {l : NodeId} {asg : AsgNode Symbol} {g : Gen} (h : g.WF l asg) {node : ASTNode}
    {p : Option (PrecondNode Symbol)} {c : Expr Symbol} {b : Body Symbol}
    (hb : (codeGenBody b (codeGenIfHead node p c g)).WF l asg) :
    (codeGenThen node p c b g).WF l asg ∧ (codeGenThen node p c b g).Plain (g.size + 2) := by
  obtain ⟨-, h₁, h₂⟩ := codeGenIfHead_wf h node p c
  have hext := codeGen_extends.2 b (codeGenIfHead node p c g) (by simp)
  have h₂ := h₂.extends hext
  exact ⟨Gen.WF.setInsertPoint (codeGenArmEnd_wf hb b h₂) (by simpa [Gen.Plain] using h₁.extends hext),
    by simpa [Gen.Plain, codeGenThen] using h₂⟩

/-- **Emission keeps the code well-formed.** -/
theorem codeGen_wf {l : NodeId} {asg : AsgNode Symbol} :
    (∀ s : Stmt Symbol, ∀ {g : Gen} {loop}, g.WF l asg → s.HasInc l asg → s.keyIds.Nodup →
      (∀ l' ∈ s.keyIds, g.loops l' = none) → s.Connected loop → (∀ l' ∈ loop, ∃ bbs, g.loops l' = some bbs) →
      (codeGenStmt s g).WF l asg) ∧
    ∀ b : Body Symbol, ∀ {g : Gen} {loop}, g.WF l asg → Body.HasInc l asg b → (Body.keyIds b).Nodup →
      (∀ l' ∈ Body.keyIds b, g.loops l' = none) → Body.Connected loop b →
      (∀ l' ∈ loop, ∃ bbs, g.loops l' = some bbs) → (codeGenBody b g).WF l asg := by
  apply Stmt.induct
  case asg | def_ =>
    intro n g loop h _ _ _ _ _
    exact h.emit (by simp [Instr.inc?, Instr.isBack, Instr.isTest]) trivial
  case ret =>
    intro n g loop h _ _ _ _ _
    have h₁ : (g.emit (.gatherRes n)).WF l asg := h.emit (by simp [Instr.inc?, Instr.isBack, Instr.isTest]) trivial
    exact h₁.emit (by simp [Instr.inc?, Instr.isBack, Instr.isTest]) trivial
  case cont =>
    intro node l' g loop h _ _ _ hc hl
    obtain ⟨hsome, rfl⟩ := hc
    refine h.emit (by simp [Instr.inc?, Instr.isBack, Instr.isTest]) ⟨fun l₁ h₁ => ?_, fun hn => ?_⟩
    · obtain rfl : l' = some l₁ := h₁
      obtain ⟨bbs, hb⟩ := hl l₁ rfl
      exact ⟨bbs, hb, by simp [hb]⟩
    · obtain rfl : l' = none := hn
      cases hsome
  case brk =>
    intro node l' g loop h _ _ _ hc hl
    refine h.emit (by simp [Instr.inc?, Instr.isBack, Instr.isTest]) ⟨by simp [BrSite.condOf], fun _ k hk => ?_⟩
    simp only [Option.map_eq_some_iff, Option.bind_eq_some_iff] at hk
    obtain ⟨bbs, ⟨l₁, -, hb⟩, rfl⟩ := hk
    exact (h.loop hb).2.1
  case nil => intro g loop h _ _ _ _ _; exact h
  case cons =>
    intro s rest ihs ihr g loop h hi hd hf hc hl
    have hdis := List.nodup_append.mp hd
    have h₁ := ihs h hi.1 hdis.1 (fun l' hl' => hf l' (List.mem_append_left _ hl')) hc.1 hl
    refine ihr h₁ hi.2 hdis.2.1 (fun l' hl' => ?_) hc.2 ?_
    · rw [codeGen_loops.1 s g fun hm => hdis.2.2 l' hm l' hl' rfl]
      exact hf l' (List.mem_append_right _ hl')
    · intro l' hl'
      obtain ⟨bbs, hb⟩ := hl l' hl'
      have hnot : l' ∉ s.keyIds := fun hm => by
        have := hf l' (List.mem_append_left _ hm)
        simp [hb] at this
      exact ⟨bbs, by rw [codeGen_loops.1 s g hnot, hb]⟩
  case for_ =>
    intro node p pre c inc b ih g loop h hi hd hf hc hl
    rw [codeGenStmt_for]
    have h₀ := codeGenAsg?_wf h node.id pre
    have hloops : (codeGenAsg? (.pre node.id) pre g).loops = g.loops := codeGenAsg?_loops _ _ _
    generalize codeGenAsg? (.pre node.id) pre g = g₀ at h₀ hloops ⊢
    have hids := List.nodup_cons.mp hd
    have hnot : node.id ∉ Body.keyIds b := fun hm => hids.1 (List.mem_append_right _ hm)
    have hfresh : g₀.loops node.id = none := by rw [hloops]; exact hf _ (List.mem_cons_self ..)
    have hhead := codeGenForHead_wf h₀ hfresh p c
    have hbody := ih hhead hi.2 (hids.2.sublist (List.sublist_append_right _ _)) (fun l' hl' => by
      rw [codeGenForHead_loops, if_neg (by rintro rfl; exact hnot hl'), hloops]
      exact hf l' (List.mem_cons_of_mem _ (List.mem_append_right _ hl'))) hc (fun l' hl' => by cases hl'; simp)
    have hbbs : (codeGenBody b (codeGenForHead node p c g₀)).loops node.id = some (g₀.size, g₀.size + 2) := by
      rw [codeGen_loops.2 b _ hnot]
      simp
    exact Gen.WF.setInsertPoint (codeGenLoopEnd_wf hbody b hbbs hi.1)
      (by simpa [Gen.Plain] using (hbody.loop hbbs).2.1)
  case if_ =>
    intro node p c b ih g loop h hi hd hf hc hl
    rw [codeGenStmt_if]
    have hids := List.nodup_append.mp hd
    have hbody := ih (codeGenIfHead_wf h node p c).1 hi hids.2.1
      (fun l' hl' => by simpa using hf l' (List.mem_append_right _ hl')) hc (by simpa using hl)
    obtain ⟨hthen, hm⟩ := codeGenThen_wf h hbody
    refine Gen.WF.setInsertPoint (hthen.emit (by simp [Instr.inc?, Instr.isBack, Instr.isTest]) ?_)
      (by simpa [Gen.Plain] using hm)
    simpa [Gen.Targets, BrSite.condOf] using hm
  case ifElse =>
    intro node p c b e ihb ihe g loop h hi hd hf hc hl
    rw [codeGenStmt_ifElse]
    have hids := List.nodup_append.mp (List.nodup_append.mp hd).2.1
    have hfb (l' : NodeId) (hl' : l' ∈ Body.keyIds b) : g.loops l' = none :=
      hf l' (List.mem_append_right _ (List.mem_append_left _ hl'))
    have hfe (l' : NodeId) (hl' : l' ∈ Body.keyIds e) : g.loops l' = none :=
      hf l' (List.mem_append_right _ (List.mem_append_right _ hl'))
    have hbody := ihb (codeGenIfHead_wf h node p c).1 hi.1 hids.1 (by simpa using hfb) hc.1 (by simpa using hl)
    obtain ⟨hthen, hm⟩ := codeGenThen_wf h hbody
    have hloops (l' : NodeId) (hl' : l' ∉ Body.keyIds b) : (codeGenThen node p c b g).loops l' = g.loops l' := by
      simpa [codeGenThen] using codeGen_loops.2 b (codeGenIfHead node p c g) hl'
    have helse := ihe hthen hi.2 hids.2.1 (fun l' hl' => by
      rw [hloops l' fun hb => hids.2.2 l' hb l' hl' rfl]
      exact hfe l' hl') hc.2 (fun l' hl' => by
      obtain ⟨bbs, hb⟩ := hl l' hl'
      exact ⟨bbs, by rw [hloops l' fun hm => by simp [hfb l' hm] at hb, hb]⟩)
    have hm := hm.extends (codeGen_extends.2 e _ hthen.cur.1)
    exact Gen.WF.setInsertPoint (codeGenArmEnd_wf helse e hm) (by simpa [Gen.Plain, codeGenElse] using hm)

/-! ## Runs -/

variable {sem : Sem Store Value}

/-- Only a branch goes to another block. -/
theorem Sem.exec_goto {i : Instr} {s s' : Store} {k : Nat} {es : List (Event Value)}
    (h : sem.exec i s = some (.goto k, s', es)) :
    (∃ site, i = .br site (some k)) ∨ ∃ site c t e, i = .condBr site c t e ∧ (k = t ∨ k = e) := by
  cases i with
  | br site dest =>
    simp only [Sem.exec, Option.map_eq_some_iff, Prod.mk.injEq, Flow.goto.injEq] at h
    obtain ⟨_, rfl, rfl, -, -⟩ := h
    exact .inl ⟨site, rfl⟩
  | condBr site c t e =>
    simp only [Sem.exec, Option.map_eq_some_iff, Prod.mk.injEq, Flow.goto.injEq] at h
    obtain ⟨⟨b, s₁⟩, -, rfl, -, -⟩ := h
    refine .inr ⟨site, c, t, e, rfl, ?_⟩
    cases b <;> simp
  | _ => simp [Sem.exec] at h

/-- What was executed since the last test of `l`: in place of its increment, and
how many continues of `l`. -/
abbrev Executed := List (AsgNode Symbol) × Nat

/-- What is remembered of a run, unless the loop was entered anew since the last test. -/
def sinceTest (l : NodeId) (x : Option Executed) (t : Instr × List (Event Value)) : Option Executed :=
  if t.1.isTest l then some ([], 0)
  else if t.1.isEnter l then none
  else x.map fun n => (n.1 ++ (t.1.inc? l).toList, n.2 + (t.1.isCont l).toNat)

/-- What that is, where the run stands: the increment or a continue at the condition
of `l`, the increment right after it, and nothing elsewhere. -/
structure Gen.Since (g : Gen) (l : NodeId) (asg : AsgNode Symbol) (k pc : Nat) (n : Executed) : Prop where
  cond : ∀ m, g.loops l = some (k, m) → n = ([asg], 0) ∨ n = ([], 1)
  inc : (∀ m, g.loops l ≠ some (k, m)) → AfterInc l asg (g.code k) pc → n = ([asg], 0)
  rest : (∀ m, g.loops l ≠ some (k, m)) → ¬ AfterInc l asg (g.code k) pc → n = ([], 0)

def Gen.SinceTest (g : Gen) (l : NodeId) (asg : AsgNode Symbol) : Config Store → Option Executed → Prop
  | .done _, _ => True
  | .run k pc _, x => k < g.size ∧ ∀ n, x = some n → g.Since l asg k pc n

theorem not_afterInc_zero {l : NodeId} {asg : AsgNode Symbol} {is : List Instr} : ¬ AfterInc l asg is 0 := by
  rintro ⟨q, _, h, -⟩
  cases h

theorem afterInc_succ {l : NodeId} {asg : AsgNode Symbol} {is : List Instr} {pc : Nat} {i : Instr}
    (h : is[pc]? = some i) : AfterInc l asg is (pc + 1) ↔ i.inc? l = some asg := by
  constructor
  · rintro ⟨q, j, hq, hj, hi⟩
    obtain rfl : pc = q := by omega
    rw [h] at hj
    cases hj
    exact hi
  · exact fun hi => ⟨pc, i, rfl, h, hi⟩

namespace Gen
variable {g : Gen} {l : NodeId} {asg : AsgNode Symbol}

theorem Plain.not_cond {k : Nat} (h : g.WF l asg) (hk : g.Plain k) {l' m} : g.loops l' ≠ some (k, m) :=
  fun hl => hk.2 (h.loop hl).1.2

/-- At the start of a plain block nothing is remembered. -/
theorem Plain.since {k : Nat} (h : g.WF l asg) (hk : g.Plain k) : g.Since l asg k 0 ([], 0) :=
  ⟨fun _ hl => absurd hl (hk.not_cond h), fun _ ha => absurd ha not_afterInc_zero, fun _ _ => rfl⟩

theorem WF.cond_inj (h : g.WF l asg) {l₁ l₂ : NodeId} {k m₁ m₂ : Nat} (h₁ : g.loops l₁ = some (k, m₁))
    (h₂ : g.loops l₂ = some (k, m₂)) : l₁ = l₂ := by
  obtain ⟨-, -, p₁, c₁, t₁, e₁, hc₁⟩ := h.loop h₁
  obtain ⟨-, -, p₂, c₂, t₂, e₂, hc₂⟩ := h.loop h₂
  rw [hc₁] at hc₂
  have := congrArg List.getLast? hc₂
  simp only [condCode, List.getLast?_append, List.getLast?_singleton, Option.some_or, Option.some.injEq,
    Instr.condBr.injEq, CondSite.ofLoop.injEq] at this
  exact this.1

/-- Outside the condition of `l`. -/
theorem WF.paired (h : g.WF l asg) {k : Nat} (hk : k < g.size) (hne : ∀ m, g.loops l ≠ some (k, m)) :
    Paired l asg (g.code k) ∧ ∀ i ∈ g.code k, i.isTest l = false := by
  by_cases hn : g.name k = condBbName
  · obtain ⟨l', m, hl⟩ := h.head k hk hn
    obtain ⟨-, -, p, c, t, e, hc⟩ := h.loop hl
    have hne' : l' ≠ l := by
      rintro rfl
      exact hne m hl
    simp only at hc
    rw [hc]
    cases p <;> exact ⟨.of_other (by simp [condCode, Instr.inc?, Instr.isBack]),
      by simp [condCode, Instr.isTest, hne']⟩
  · exact ⟨(h.plain k ⟨hk, hn⟩).1, fun i hi => (h.plain k ⟨hk, hn⟩).2 i hi l⟩

end Gen

/-- A non-terminator is no branch and no test. -/
theorem Instr.of_not_isTerm {i : Instr} (h : i.isTerm = false) (l : NodeId) :
    i.isTest l = false ∧ i.isEnter l = false ∧ i.isBack l = false ∧ i.isCont l = false := by
  cases i <;> simp_all [isTerm, isTest, isEnter, isBack, isCont]

theorem sinceTest_next {l : NodeId} {x : Option Executed} {i : Instr} {es : List (Event Value)}
    (h : i.isTerm = false) : sinceTest l x (i, es) = x.map fun n => (n.1 ++ (i.inc? l).toList, n.2) := by
  obtain ⟨h₁, h₂, -, h₃⟩ := Instr.of_not_isTerm h l
  simp [sinceTest, h₁, h₂, h₃]

/-- A branch that is none of the loop's forgets nothing. -/
theorem sinceTest_br {l : NodeId} {x : Option Executed} {i : Instr} {es : List (Event Value)}
    (hi : i.isTerm = true) (h₁ : i.isTest l = false) (h₂ : i.isEnter l = false) (h₃ : i.isCont l = false) :
    sinceTest l x (i, es) = x := by
  have h₄ : i.inc? l = none := by cases i <;> simp_all [Instr.isTerm, Instr.inc?]
  simp [sinceTest, h₁, h₂, h₃, h₄]

section Step
variable {g : Gen} {l : NodeId} {asg : AsgNode Symbol} (h : g.WF l asg)
include h

/-- A step in the block of the condition: the precondition's calls, or the test. -/
theorem sinceTest_cond {k m pc : Nat} {s s' : Store} {i : Instr} {f : Flow} {es : List (Event Value)}
    {x : Option Executed} (hm : g.loops l = some (k, m)) (hx : g.SinceTest l asg (.run k pc s) x)
    (hi : (g.code k)[pc]? = some i) (he : sem.exec i s = some (f, s', es)) :
    g.SinceTest l asg (f.config k pc s') (sinceTest l x (i, es)) := by
  obtain ⟨-, -, p, c, t, e, hc⟩ := h.loop hm
  have hmem := List.mem_of_getElem? hi
  cases f with
  | halt => trivial
  | next =>
    have hinc : i.inc? l = none := by
      rw [show g.code k = _ from hc] at hmem
      cases p <;> simp [condCode] at hmem <;> rcases hmem with rfl | rfl <;> rfl
    rw [sinceTest_next (sem.isa.exec_next he), hinc]
    refine ⟨hx.1, fun n hn => ⟨fun m' hm' => ?_, fun hne => absurd hm (hne m), fun hne => absurd hm (hne m)⟩⟩
    simp only [Option.map_eq_some_iff] at hn
    obtain ⟨n', hn', rfl⟩ := hn
    simpa using (hx.2 n' hn').cond m hm
  | goto k' =>
    have htarget := h.targets k hx.1 i hmem
    have htest : i.isTest l = true := by
      rw [show g.code k = _ from hc] at hmem
      cases p <;> simp [condCode] at hmem <;> rcases hmem with rfl | rfl <;> simp_all [Instr.isTest, Sem.exec]
    rw [sinceTest, if_pos htest]
    have hp : g.Plain k' := by
      rcases sem.exec_goto he with ⟨site, rfl⟩ | ⟨site, c', t', e', rfl, hk'⟩
      · simp [Instr.isTest] at htest
      · rcases hk' with rfl | rfl
        exacts [htarget.1, htarget.2]
    exact ⟨hp.1, fun n hn => by cases hn; exact hp.since h⟩

/-- A step in any other block. -/
theorem sinceTest_other {k pc : Nat} {s s' : Store} {i : Instr} {f : Flow} {es : List (Event Value)}
    {x : Option Executed} (hne : ∀ m, g.loops l ≠ some (k, m)) (hx : g.SinceTest l asg (.run k pc s) x)
    (hi : (g.code k)[pc]? = some i) (he : sem.exec i s = some (f, s', es)) :
    g.SinceTest l asg (f.config k pc s') (sinceTest l x (i, es)) := by
  have hmem := List.mem_of_getElem? hi
  obtain ⟨hpair, htest⟩ := h.paired hx.1 hne
  have hback := hpair.isBack_iff hi
  have hzero (hb : i.isBack l = false) (n : Executed) (hn : x = some n) : n = ([], 0) :=
    (hx.2 n hn).rest hne fun ha => by simp [hback.mpr ha] at hb
  cases f with
  | halt => trivial
  | next =>
    have hterm := sem.isa.exec_next he
    rw [sinceTest_next hterm]
    refine ⟨hx.1, fun n hn => ?_⟩
    simp only [Option.map_eq_some_iff] at hn
    obtain ⟨n', hn', rfl⟩ := hn
    obtain rfl := hzero (Instr.of_not_isTerm hterm l).2.2.1 n' hn'
    refine ⟨fun m hm => absurd hm (hne m), fun _ ha => ?_, fun _ ha => ?_⟩
    · rw [(afterInc_succ hi).mp ha]
      rfl
    · rw [(hpair.inc_eq i hmem).resolve_right fun hi' => ha ((afterInc_succ hi).mpr hi')]
      rfl
  | goto k' =>
    have hterm : i.isTerm = true := sem.isa.exec_term he (by simp)
    have htarget := h.targets k hx.1 i hmem
    -- Anywhere but at the condition of `l`, what is remembered stays nothing.
    have helse (hb : i.isBack l = false) (hen : i.isEnter l = false) (hc : i.isCont l = false) (hk' : k' < g.size)
        (hne' : ∀ m, g.loops l ≠ some (k', m)) : g.SinceTest l asg (.run k' 0 s') (sinceTest l x (i, es)) := by
      rw [sinceTest_br hterm (htest i hmem) hen hc]
      refine ⟨hk', fun n hn => ?_⟩
      obtain rfl := hzero hb n hn
      exact ⟨fun m hm => absurd hm (hne' m), fun _ ha => absurd ha not_afterInc_zero, fun _ _ => rfl⟩
    rcases sem.exec_goto he with ⟨site, rfl⟩ | ⟨site, c, t, e, rfl, hk'⟩
    · cases hs : site.condOf with
      | none =>
        have hp : g.Plain k' := htarget.2 hs k' rfl
        cases site <;> simp only [BrSite.condOf, reduceCtorEq] at hs
        case merge | brk => exact helse rfl rfl rfl hp.1 fun m => hp.not_cond h
        case cont l' =>
          subst hs
          exact helse rfl rfl rfl hp.1 fun m => hp.not_cond h
      | some l' =>
        obtain ⟨bbs, hb, hk'⟩ := htarget.1 l' hs
        obtain rfl : k' = bbs.1 := by simpa using hk'
        have hlt := (h.loop hb).1.1
        by_cases hl : l' = l
        · subst hl
          -- Back at the condition of `l`: by the branch after the increment, or by a continue.
          refine ⟨hlt, fun n hn => ⟨fun m _ => ?_, fun hne' => absurd hb (hne' _), fun hne' => absurd hb (hne' _)⟩⟩
          cases site <;> simp only [BrSite.condOf, Option.some.injEq, reduceCtorEq] at hs
          case enter =>
            subst hs
            simp [sinceTest, Instr.isTest, Instr.isEnter] at hn
          case back =>
            subst hs
            simp only [sinceTest, Instr.isTest, Instr.isEnter, Instr.inc?, Instr.isCont] at hn
            obtain rfl := (hx.2 n (by simpa using hn)).inc hne (hback.mp (by simp [Instr.isBack]))
            exact .inl rfl
          case cont =>
            subst hs
            simp only [sinceTest, Instr.isTest, Instr.isEnter, Instr.inc?, Instr.isCont, beq_self_eq_true,
              Bool.toNat_true, Option.map_eq_some_iff, Bool.false_eq_true, if_false] at hn
            obtain ⟨n', hn', rfl⟩ := hn
            obtain rfl := hzero rfl n' hn'
            exact .inr rfl
        · have hne' (m : Nat) : g.loops l ≠ some (bbs.1, m) := fun hm => hl (h.cond_inj hb hm)
          cases site <;> simp only [BrSite.condOf, Option.some.injEq, reduceCtorEq] at hs <;> subst hs
          all_goals
            exact helse (by simp [Instr.isBack, hl]) (by simp [Instr.isEnter, hl]) (by simp [Instr.isCont, hl]) hlt hne'
    · have hp : g.Plain k' := by
        rcases hk' with rfl | rfl
        exacts [htarget.1, htarget.2]
      exact helse rfl rfl rfl hp.1 fun m => hp.not_cond h

end Step

theorem sinceTest_step {g : Gen} {l : NodeId} {asg : AsgNode Symbol} (h : g.WF l asg) {c c' : Config Store}
    {t : Instr × List (Event Value)} {x : Option Executed} (hx : g.SinceTest l asg c x)
    (hs : step sem.isa g.code c = some (t, c')) : g.SinceTest l asg c' (sinceTest l x t) := by
  cases c with
  | done s => cases hs
  | run k pc s =>
    obtain ⟨f, s', hi, he, rfl⟩ := step_inv hs
    by_cases hk : ∃ m, g.loops l = some (k, m)
    · obtain ⟨m, hm⟩ := hk
      exact sinceTest_cond h hm hx hi he
    · exact sinceTest_other h (fun m hm => hk ⟨m, hm⟩) hx hi he

/-- Between two tests what is remembered is what the steps executed. -/
theorem foldl_sinceTest {l : NodeId} {seg : List (Instr × List (Event Value))}
    (hseg : ∀ t ∈ seg, t.1.isTest l = false ∧ t.1.isEnter l = false) (n : Executed) :
    seg.foldl (sinceTest l) (some n) =
      some (n.1 ++ seg.filterMap (·.1.inc? l), n.2 + seg.countP (·.1.isCont l)) := by
  induction seg generalizing n with
  | nil => simp
  | cons t seg ih =>
    obtain ⟨h₁, h₂⟩ := hseg t (List.mem_cons_self ..)
    have hstep : sinceTest l (some n) t = some (n.1 ++ (t.1.inc? l).toList, n.2 + (t.1.isCont l).toNat) := by
      simp [sinceTest, h₁, h₂]
    rw [List.foldl_cons, hstep, ih fun t ht => hseg t (List.mem_cons_of_mem _ ht), List.countP_cons]
    cases hi : t.1.inc? l <;> cases t.1.isCont l <;> simp [hi] <;> omega

theorem codeGen_start_wf (l : NodeId) (asg : AsgNode Symbol) : Gen.start.WF l asg :=
  ⟨⟨Nat.one_pos, by decide⟩, fun h => (by cases h),
    fun _ _ hn => absurd hn (by simp [Gen.start, Builder.start, condBbName]), fun _ _ => Gen.PlainCode.nil,
    fun _ _ _ hi => (by cases hi)⟩

/-- From one test of a loop's condition to the next, with the loop not entered
anew in between, its increment or a continue of it is executed, once. -/
theorem increment_or_cont {f : FunctionNode Unit} {g : FunctionNode Symbol} {inputs : List Symbol}
    (h : f.accept = .ok (g, inputs)) {l : NodeId} {asg : AsgNode Symbol} (hl : (l, asg) ∈ Body.incs g.body)
    {s : Store} {c : Config Store}
    {pre seg post : List (Instr × List (Event Value))} {t t' : Instr × List (Event Value)}
    (hrun : Run sem.isa (codeGen g).code (.run 0 0 s) (pre ++ t :: (seg ++ t' :: post)) c)
    (ht : t.1.isTest l = true) (ht' : t'.1.isTest l = true)
    (hseg : ∀ t ∈ seg, t.1.isTest l = false ∧ t.1.isEnter l = false) :
    (seg.filterMap (·.1.inc? l) = [asg] ∧ seg.countP (·.1.isCont l) = 0) ∨
      (seg.filterMap (·.1.inc? l) = [] ∧ seg.countP (·.1.isCont l) = 1) := by
  have hwf : (codeGen g).WF l asg := by
    refine codeGen_wf.2 g.body (codeGen_start_wf l asg) (hasInc_of_mem.2 _ g.distinct fun _ => hl) g.distinct
      (fun _ _ => rfl) (FunctionNode.accept_jumps h).2 (by simp)
  rw [List.append_cons, ← List.append_assoc] at hrun
  obtain ⟨c₁, h₁, h₂⟩ := hrun.split
  have hinv : (codeGen g).SinceTest l asg (.run 0 0 s) none := by
    refine ⟨(codeGen_extends.2 g.body Gen.start Nat.one_pos).size_le, fun _ hn => by cases hn⟩
  have hat := Run.keeps (I := (codeGen g).SinceTest l asg) (sinceTest_step hwf) h₁ hinv
  rw [List.foldl_append, List.foldl_append, List.foldl_cons, List.foldl_nil, sinceTest, if_pos ht,
    foldl_sinceTest hseg] at hat
  cases h₂ with
  | @step _ _ c₂ _ _ hs _ =>
    cases c₁ with
    | done s => cases hs
    | run k pc s₁ =>
      obtain ⟨_, _, hi, _, rfl⟩ := step_inv hs
      by_cases hk : ∃ m, (codeGen g).loops l = some (k, m)
      · obtain ⟨m, hm⟩ := hk
        simpa using (hat.2 _ rfl).cond m hm
      · have := (hwf.paired hat.1 fun m hm => hk ⟨m, hm⟩).2 _ (List.mem_of_getElem? hi)
        simp [ht'] at this

/-- **The increment of a loop is executed** between two tests of its condition,
once and nothing else in its place, in every run, exactly where no continue of
the loop is. -/
theorem increment_once_iff {f : FunctionNode Unit} {g : FunctionNode Symbol} {inputs : List Symbol}
    (h : f.accept = .ok (g, inputs)) {l : NodeId} {asg : AsgNode Symbol} (hl : (l, asg) ∈ Body.incs g.body)
    {s : Store} {c : Config Store}
    {pre seg post : List (Instr × List (Event Value))} {t t' : Instr × List (Event Value)}
    (hrun : Run sem.isa (codeGen g).code (.run 0 0 s) (pre ++ t :: (seg ++ t' :: post)) c)
    (ht : t.1.isTest l = true) (ht' : t'.1.isTest l = true)
    (hseg : ∀ t ∈ seg, t.1.isTest l = false ∧ t.1.isEnter l = false) :
    seg.filterMap (·.1.inc? l) = [asg] ↔ ∀ t ∈ seg, t.1.isCont l = false := by
  have hz : seg.countP (·.1.isCont l) = 0 ↔ ∀ t ∈ seg, t.1.isCont l = false := by
    simp [List.countP_eq_zero]
  rw [← hz]
  obtain ⟨hi, hc⟩ | ⟨hi, hc⟩ := increment_or_cont h hl hrun ht ht' hseg <;> simp [hi, hc]

namespace Sample

/-- `int k = 0 for k = 0; k < 2; k += 1 { body } return k`. -/
def forBody (body : Body Unit) : Body Unit := [
  .def_ ⟨node 1, "k", ⟨.int, 0⟩, some (num 2 0), ()⟩,
  .for_ (node 3) none (some ⟨node 4, var 5 "k", num 6 0⟩) (.binOp (node 7) .lt (ident 8 "k") (num 9 2))
    (some ⟨node 10, var 11 "k", .binOp (node 12) .sum (ident 13 "k") (num 14 1)⟩) body,
  ret 15 (ident 16 "k")]

/-- `int f(int n) { forBody }`. -/
def forLoop (body : Body Unit) (distinct : (Body.keyIds (forBody body)).Nodup) : FunctionNode Unit :=
  ⟨node 0, ⟨.int, 0⟩, "f", [param 18 "n" ⟨.int, 0⟩], forBody body, distinct⟩

/-- The assignments count nothing here, so the loop goes on. -/
def forSem : Sem Nat Nat := { countsSem with asg := fun _ s => some s }

/-- The code of a function, if it is accepted. -/
def code (f : FunctionNode Unit) : Nat → List Instr :=
  match f.accept with
  | .ok (g, _) => (codeGen g).code
  | .error _ => fun _ => []

/-- The loop entered and its body run once, up to the second test. -/
def forRun (n : Nat) (f : FunctionNode Unit) : List (Instr × List (Event Nat)) :=
  (steps forSem.isa (code f) n (.run 0 0 0)).1

def fallsThrough : FunctionNode Unit := forLoop [] (by decide)

def continues : FunctionNode Unit := forLoop [.cont (node 17) none] (by decide)

end Sample

theorem increment_once_iff_fallsThrough : ∃ g inputs asg c pre seg post t t',
    Sample.fallsThrough.accept = .ok (g, inputs) ∧ (3, asg) ∈ Body.incs g.body ∧
    Run Sample.forSem.isa (codeGen g).code (.run 0 0 0) (pre ++ t :: (seg ++ t' :: post)) c ∧
    (seg.filterMap (·.1.inc? 3) = [asg] ↔ ∀ t ∈ seg, t.1.isCont 3 = false) := by
  let ls := Sample.forRun 7 Sample.fallsThrough
  have hrun : Run Sample.forSem.isa (Sample.code Sample.fallsThrough) (.run 0 0 0)
      (ls.take 3 ++ ls.get ⟨3, by decide⟩ :: ((ls.drop 4).take 2 ++ ls.get ⟨6, by decide⟩ :: [])) _ :=
    steps_run 7 _
  refine ⟨_, _, _, _, _, _, _, _, _, rfl, .head _, hrun, ?_⟩
  exact increment_once_iff (f := Sample.fallsThrough) rfl (.head _) hrun rfl rfl (by decide)

/-- A continue goes back to the condition past the increment. -/
theorem continues_skips : ¬ ∀ (f : FunctionNode Unit) (g : FunctionNode Symbol) (inputs : List Symbol)
    (sem : Sem Nat Nat) (l : NodeId) (asg : AsgNode Symbol) (s : Nat) (c : Config Nat)
    (pre seg post : List (Instr × List (Event Nat))) (t t' : Instr × List (Event Nat)),
    f.accept = .ok (g, inputs) → (l, asg) ∈ Body.incs g.body →
    Run sem.isa (codeGen g).code (.run 0 0 s) (pre ++ t :: (seg ++ t' :: post)) c →
    t.1.isTest l = true → t'.1.isTest l = true →
    (∀ t ∈ seg, t.1.isTest l = false ∧ t.1.isEnter l = false) → seg.filterMap (·.1.inc? l) = [asg] := by
  intro h
  let ls := Sample.forRun 6 Sample.continues
  have hrun : Run Sample.forSem.isa (Sample.code Sample.continues) (.run 0 0 0)
      (ls.take 3 ++ ls.get ⟨3, by decide⟩ :: ((ls.drop 4).take 1 ++ ls.get ⟨5, by decide⟩ :: [])) _ :=
    steps_run 6 _
  have := h Sample.continues _ _ Sample.forSem 3 _ 0 _ _ _ _ _ _ rfl (.head _) hrun rfl rfl (by decide)
  cases this

end DGen
