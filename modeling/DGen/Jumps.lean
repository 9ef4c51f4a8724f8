/-
What the passes leave of jumps: after `connect_loops` and
`eliminate_unreachable_code` every jump is the last statement of its body
(`JumpsLast`), and every continue and break names the loop around it
(`Connected`).

`connect_loops` and the elimination stop at different statements of a body,
so `Connected` is stated of what the elimination leaves.
-/
import DGen.Source

namespace DGen

variable {σ : Type}

/-! ## Jumps come last -/

mutual
def Stmt.JumpsLast : Stmt σ → Prop
  | .for_ _ _ _ _ _ body => Body.JumpsLast body
  | .if_ _ _ _ body => Body.JumpsLast body
  | .ifElse _ _ _ body elseBody => Body.JumpsLast body ∧ Body.JumpsLast elseBody
  | _ => True

/-- In this body and every nested one, only the last statement is a jump. -/
def Body.JumpsLast : Body σ → Prop
  | [] => True
  | s :: rest => (s.isJump = true → rest = []) ∧ s.JumpsLast ∧ Body.JumpsLast rest
end

theorem eliminate_isJump (s : Stmt σ) : (eliminateUnreachableCodeVisitStmt s).isJump = s.isJump := by
  cases s <;> rfl

theorem eliminate_jumpsLast :
    (∀ s : Stmt σ, (eliminateUnreachableCodeVisitStmt s).JumpsLast) ∧
    ∀ b : Body σ, Body.JumpsLast (eliminateUnreachableCodeVisitBody b) := by
  apply Stmt.induct
  case for_ => intro _ _ _ _ _ _ ih; exact ih
  case if_ => intro _ _ _ _ ih; exact ih
  case ifElse => intro _ _ _ _ _ ihb ihe; exact ⟨ihb, ihe⟩
  case cons =>
    intro s rest ihs ihr
    simp only [eliminateUnreachableCodeVisitBody]
    split
    · rename_i hj
      cases s <;> simp_all [Stmt.isJump, Body.JumpsLast, Stmt.JumpsLast]
    · rename_i hj
      exact ⟨fun h => absurd (eliminate_isJump s ▸ h) hj, ihs, ihr⟩
  all_goals
    intros
    trivial

/-! ## Jumps are bound to the loop around them -/

mutual
def Stmt.Connected (loop : Option NodeId) : Stmt σ → Prop
  | .cont _ l | .brk _ l => l.isSome = true ∧ l = loop
  | .for_ node _ _ _ _ body => Body.Connected (some node.id) body
  | .if_ _ _ _ body => Body.Connected loop body
  | .ifElse _ _ _ body elseBody => Body.Connected loop body ∧ Body.Connected loop elseBody
  | _ => True

/-- Every continue and break in the body names the innermost loop around
it; `loop` is the one around the body. -/
def Body.Connected (loop : Option NodeId) : Body σ → Prop
  | [] => True
  | s :: rest => s.Connected loop ∧ Body.Connected loop rest
end

theorem connectLoops_connected :
    (∀ s : Stmt σ, ∀ {loop s'}, s.isJump = false → connectLoopsVisitStmt loop s = .ok s' →
      s'.isJump = false ∧ (eliminateUnreachableCodeVisitStmt s').Connected loop) ∧
    ∀ b : Body σ, ∀ {loop b'}, connectLoopsVisitBody loop b = .ok b' →
      Body.Connected loop (eliminateUnreachableCodeVisitBody b') := by
  apply Stmt.induct
  case for_ =>
    intro node p pre c inc b ih loop s' _ h
    simp only [connectLoopsVisitStmt, Except.bind_ok_iff, Except.pure_ok_iff] at h
    obtain ⟨b', hb, rfl⟩ := h
    exact ⟨rfl, ih hb⟩
  case if_ =>
    intro node p c b ih loop s' _ h
    simp only [connectLoopsVisitStmt, Except.bind_ok_iff, Except.pure_ok_iff] at h
    obtain ⟨b', hb, rfl⟩ := h
    exact ⟨rfl, ih hb⟩
  case ifElse =>
    intro node p c b e ihb ihe loop s' _ h
    simp only [connectLoopsVisitStmt, Except.bind_ok_iff, Except.pure_ok_iff] at h
    obtain ⟨b', hb, e', he, rfl⟩ := h
    exact ⟨rfl, ihb hb, ihe he⟩
  case nil =>
    intro loop b' h
    simp only [connectLoopsVisitBody, Except.pure_ok_iff] at h
    subst h
    trivial
  case cons =>
    intro s rest ihs ihr loop b' h
    by_cases hj : s.isJump = true
    · -- The elimination stops here, and what `connect_loops` did after a return is cut.
      cases s with
      | cont node l | brk node l =>
        cases loop <;> simp only [connectLoopsVisitBody, buildError, reduceCtorEq, Except.pure_ok_iff] at h
        subst h
        simp [eliminateUnreachableCodeVisitBody, Stmt.isJump, Body.Connected, Stmt.Connected]
      | ret n =>
        simp only [connectLoopsVisitBody, connectLoopsVisitStmt, Except.bind_ok_iff, Except.pure_ok_iff] at h
        obtain ⟨_, rfl, _, -, rfl⟩ := h
        simp [eliminateUnreachableCodeVisitBody, Stmt.isJump, Body.Connected, Stmt.Connected]
      | _ => simp [Stmt.isJump] at hj
    · have hj : s.isJump = false := by simpa using hj
      have hb : connectLoopsVisitBody loop (s :: rest) = (do
          let s ← connectLoopsVisitStmt loop s
          let rest ← connectLoopsVisitBody loop rest
          return s :: rest) := by
        cases s <;> first | rfl | simp [Stmt.isJump] at hj
      simp only [hb, Except.bind_ok_iff, Except.pure_ok_iff] at h
      obtain ⟨s', hs, rest', hr, rfl⟩ := h
      obtain ⟨hj', hc⟩ := ihs hj hs
      simp only [eliminateUnreachableCodeVisitBody, hj', Bool.false_eq_true, if_false]
      exact ⟨hc, ihr hr⟩
  all_goals
    intros
    rename_i hj h
    simp only [connectLoopsVisitStmt, Except.pure_ok_iff] at h
    subst h
    first | exact ⟨hj, trivial⟩ | cases hj

/-- Name resolution changes no jump. -/
theorem typeVisitor_connected :
    (∀ s : Stmt Unit, ∀ {st r loop}, typeVisitorStmt st s = .ok r →
      r.1.isJump = s.isJump ∧ ((eliminateUnreachableCodeVisitStmt s).Connected loop →
        (eliminateUnreachableCodeVisitStmt r.1).Connected loop)) ∧
    ∀ b : Body Unit, ∀ {st r loop}, typeVisitorBody st b = .ok r →
      Body.Connected loop (eliminateUnreachableCodeVisitBody b) →
      Body.Connected loop (eliminateUnreachableCodeVisitBody r.1) := by
  apply Stmt.induct
  case for_ =>
    intro node p pre c inc b ih st r loop h
    simp only [typeVisitorStmt, Except.bind_ok_iff, Except.pure_ok_iff] at h
    obtain ⟨p', -, pre', -, c', -, inc', -, ⟨b', st'⟩, hb, rfl⟩ := h
    exact ⟨rfl, ih hb⟩
  case if_ =>
    intro node p c b ih st r loop h
    simp only [typeVisitorStmt, Except.bind_ok_iff, Except.pure_ok_iff] at h
    obtain ⟨p', -, c', -, ⟨b', st'⟩, hb, rfl⟩ := h
    exact ⟨rfl, ih hb⟩
  case ifElse =>
    intro node p c b e ihb ihe st r loop h
    simp only [typeVisitorStmt, Except.bind_ok_iff, Except.pure_ok_iff] at h
    obtain ⟨p', -, c', -, ⟨b', st'⟩, hb, ⟨e', st''⟩, he, rfl⟩ := h
    exact ⟨rfl, fun hc => ⟨ihb hb hc.1, ihe he hc.2⟩⟩
  case nil =>
    intro st r loop h hc
    simp only [typeVisitorBody, Except.pure_ok_iff] at h
    subst h
    trivial
  case cons =>
    intro s rest ihs ihr st r loop h hc
    simp only [typeVisitorBody, Except.bind_ok_iff, Except.pure_ok_iff] at h
    obtain ⟨⟨s', st'⟩, hs, ⟨rest', st''⟩, hr, rfl⟩ := h
    obtain ⟨hj, hs'⟩ := @ihs _ _ loop hs
    simp only [eliminateUnreachableCodeVisitBody, hj] at hc ⊢
    by_cases hj' : s.isJump = true
    · simp only [hj', if_true] at hc ⊢
      refine ⟨?_, trivial⟩
      have hid : ∀ {τ} (t : Stmt τ), t.isJump = true → eliminateUnreachableCodeVisitStmt t = t := by
        intro τ t ht
        cases t <;> first | rfl | simp [Stmt.isJump] at ht
      rw [hid s hj', hid s' (hj.trans hj')] at hs'
      exact hs' hc.1
    · simp only [hj'] at hc ⊢
      exact ⟨hs' hc.1, ihr hr hc.2⟩
  all_goals
    intros
    rename_i h
    simp only [typeVisitorStmt, Except.bind_ok_iff, Except.pure_ok_iff] at h
    first | subst h | obtain ⟨_, -, rfl⟩ := h
    exact ⟨rfl, fun hc => hc⟩

/-- **Accepted functions have their jumps last and bound.** -/
theorem FunctionNode.accept_jumps {f : FunctionNode Unit} {g : FunctionNode Symbol} {inputs : List Symbol}
    (h : f.accept = .ok (g, inputs)) : Body.JumpsLast g.body ∧ Body.Connected none g.body := by
  obtain ⟨f₁, f₂, h₁, h₂, -, rfl⟩ := accept_ok h
  obtain ⟨⟨st, hb⟩, -⟩ := typeAst_ok h₂
  refine ⟨eliminate_jumpsLast.2 _, ?_⟩
  exact typeVisitor_connected.2 _ hb (connectLoops_connected.2 _ (connectLoops_ok h₁).1)

/-! ## What `connect_loops` rejects -/

mutual
def Stmt.strays : Stmt σ → List ASTNode
  | .cont node _ | .brk node _ => [node]
  | .if_ _ _ _ body => Body.strays body
  | .ifElse _ _ _ body elseBody => Body.strays body ++ Body.strays elseBody
  | _ => []

/-- The continues and breaks of a body that no loop in it encloses. -/
def Body.strays : Body σ → List ASTNode
  | [] => []
  | s :: rest => s.strays ++ Body.strays rest
end

/-- Inside a loop nothing is rejected. -/
theorem connectLoops_some :
    (∀ s : Stmt σ, ∀ l, (connectLoopsVisitStmt (some l) s).OkWhen True fun _ => True) ∧
    ∀ b : Body σ, ∀ l, (connectLoopsVisitBody (some l) b).OkWhen True fun _ => True := by
  apply Stmt.induct
  case for_ =>
    intro node p pre c inc b ih l
    exact ((ih node.id).bind fun _ => .pure trivial).congr (by simp)
  case if_ =>
    intro node p c b ih l
    exact ((ih l).bind fun _ => .pure trivial).congr (by simp)
  case ifElse =>
    intro node p c b e ihb ihe l
    exact ((ihb l).bind fun _ => (ihe l).bind fun _ => .pure trivial).congr (by simp)
  case cons =>
    intro s rest ihs ihr l
    cases s with
    | cont | brk => exact .pure trivial
    | _ => exact ((ihs l).bind fun _ => (ihr l).bind fun _ => .pure trivial).congr (by simp)
  all_goals
    intros
    exact .pure trivial

/-- Outside of loops the walk goes on until it meets a stray, which it rejects. -/
theorem connectLoops_none :
    (∀ s : Stmt σ, s.isJump = false → (connectLoopsVisitStmt none s).OkWhen (s.strays = []) fun _ => True) ∧
    ∀ b : Body σ, (connectLoopsVisitBody none b).OkWhen (Body.strays b = []) fun _ => True := by
  apply Stmt.induct
  case for_ =>
    intro node p pre c inc b _ _
    exact ((connectLoops_some.2 b node.id).bind fun _ => .pure trivial).congr (by simp [Stmt.strays])
  case if_ =>
    intro node p c b ih _
    exact (ih.bind fun _ => .pure trivial).congr (by simp [Stmt.strays])
  case ifElse =>
    intro node p c b e ihb ihe _
    exact (ihb.bind fun _ => ihe.bind fun _ => .pure trivial).congr (by simp [Stmt.strays])
  case cons =>
    intro s rest ihs ihr
    cases s with
    | cont node l | brk node l => exact ⟨by simp [connectLoopsVisitBody, buildError, Body.strays, Stmt.strays],
        fun _ => trivial⟩
    | ret n => exact (ihr.bind fun _ => .pure trivial).congr (by simp [Body.strays, Stmt.strays])
    | _ => exact ((ihs rfl).bind fun _ => ihr.bind fun _ => .pure trivial).congr (by simp [Body.strays])
  case nil => exact (Except.OkWhen.pure trivial).congr (by simp [Body.strays])
  case asg | def_ =>
    intro n _
    exact (Except.OkWhen.pure trivial).congr (by simp [Stmt.strays])
  all_goals
    intros
    rename_i h
    cases h

/-- What is rejected is a stray, and the message names it. -/
theorem connectLoops_error :
    (∀ s : Stmt σ, ∀ {loop e}, connectLoopsVisitStmt loop s = .error e → loop = none ∧ ∃ node ∈ s.strays,
      ∃ what ∈ ["continue", "break"], e = ⟨[⟨node.pos, "cannot match a " ++ what ++ " node to a loop"⟩]⟩) ∧
    ∀ b : Body σ, ∀ {loop e}, connectLoopsVisitBody loop b = .error e → loop = none ∧ ∃ node ∈ Body.strays b,
      ∃ what ∈ ["continue", "break"], e = ⟨[⟨node.pos, "cannot match a " ++ what ++ " node to a loop"⟩]⟩ := by
  apply Stmt.induct
  case for_ =>
    intro node p pre c inc b ih loop e h
    simp only [connectLoopsVisitStmt, Except.bind_error_iff, Except.pure_ne_error, and_false, exists_false,
      or_false] at h
    exact absurd (ih h).1 (by simp)
  case if_ =>
    intro node p c b ih loop e h
    simp only [connectLoopsVisitStmt, Except.bind_error_iff, Except.pure_ne_error, and_false, exists_false,
      or_false] at h
    exact ih h
  case ifElse =>
    intro node p c b els ihb ihe loop e h
    simp only [connectLoopsVisitStmt, Except.bind_error_iff, Except.pure_ne_error, and_false, exists_false,
      or_false, Stmt.strays, List.mem_append] at h ⊢
    rcases h with h | ⟨_, -, h⟩
    · obtain ⟨hl, n, hn, he⟩ := ihb h
      exact ⟨hl, n, .inl hn, he⟩
    · obtain ⟨hl, n, hn, he⟩ := ihe h
      exact ⟨hl, n, .inr hn, he⟩
  case cons =>
    intro s rest ihs ihr loop e h
    simp only [Body.strays, List.mem_append]
    cases s with
    | cont node l =>
      cases loop with
      | some _ => exact absurd h (by simp [connectLoopsVisitBody, Except.pure_ne_error])
      | none =>
        cases h
        exact ⟨rfl, node, .inl (List.mem_singleton_self node), "continue", by simp, rfl⟩
    | brk node l =>
      cases loop with
      | some _ => exact absurd h (by simp [connectLoopsVisitBody, Except.pure_ne_error])
      | none =>
        cases h
        exact ⟨rfl, node, .inl (List.mem_singleton_self node), "break", by simp, rfl⟩
    | _ =>
      simp only [connectLoopsVisitBody, Except.bind_error_iff, Except.pure_ne_error, and_false, exists_false,
        or_false] at h
      rcases h with h | ⟨_, -, h⟩
      · obtain ⟨hl, n, hn, he⟩ := ihs h
        exact ⟨hl, n, .inl hn, he⟩
      · obtain ⟨hl, n, hn, he⟩ := ihr h
        exact ⟨hl, n, .inr hn, he⟩
  all_goals
    intros
    rename_i h
    exact absurd h (by simp [connectLoopsVisitStmt, connectLoopsVisitBody, Except.pure_ne_error])

/-- The elimination keeps no stray the program did not have. -/
theorem strays_eliminate :
    (∀ s : Stmt σ, (eliminateUnreachableCodeVisitStmt s).strays.Sublist s.strays) ∧
    ∀ b : Body σ, (Body.strays (eliminateUnreachableCodeVisitBody b)).Sublist (Body.strays b) := by
  apply Stmt.induct
  case if_ => intro _ _ _ _ ih; exact ih
  case ifElse => intro _ _ _ _ _ ihb ihe; exact ihb.append ihe
  case cons =>
    intro s rest ihs ihr
    simp only [eliminateUnreachableCodeVisitBody]
    split
    · simp [Body.strays]
    · exact ihs.append ihr
  all_goals
    intros
    exact List.Sublist.refl _

theorem FunctionNode.connectLoops_error {f : FunctionNode σ} {e : BuildError} :
    f.connectLoops = .error e ↔ connectLoopsVisitBody none f.body = .error e := by
  unfold connectLoops
  split
  · rename_i h
    simp [h]
  · rename_i h
    simp [h]

/-- **Every surviving jump targets its innermost loop**, where `connect_loops`
accepts; it rejects exactly the programs with a continue or break that no
loop encloses, wherever that stands, so also each whose stray would survive the elimination. -/
theorem connectLoops_exact (f : FunctionNode σ) :
    (∀ g, f.connectLoops = .ok g → Body.Connected none g.eliminateUnreachableCode.body) ∧
    (∀ e, f.connectLoops = .error e → ∃ node ∈ Body.strays f.body, ∃ what ∈ ["continue", "break"],
      e = ⟨[⟨node.pos, "cannot match a " ++ what ++ " node to a loop"⟩]⟩) ∧
    (Body.strays f.eliminateUnreachableCode.body ≠ [] → ∃ e, f.connectLoops = .error e) := by
  refine ⟨fun g h => connectLoops_connected.2 _ (FunctionNode.connectLoops_ok h).1, fun e h => ?_, fun h => ?_⟩
  · exact (connectLoops_error.2 _ (FunctionNode.connectLoops_error.mp h)).2
  · have hs : Body.strays f.body ≠ [] := fun hn => h (by
      simpa [hn, FunctionNode.eliminateUnreachableCode] using strays_eliminate.2 f.body)
    rw [Ne, ← (connectLoops_none.2 f.body).exists_iff, Except.ok_iff_ne_error] at hs
    push Not at hs
    exact hs.imp fun e he => FunctionNode.connectLoops_error.mpr he

end DGen
