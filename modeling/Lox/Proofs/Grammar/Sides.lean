/-
  Lox.Proofs.Grammar.Sides
  ────────────────────────
  **NO TOKEN IS IN A TREE TWICE.**

  Every token of a tree is a token of the text it was read from, at a place of
  its own: rule by rule, the tokens of the tree are some tokens of the text.
  Only the increment of a loop stands elsewhere in the tree than in the text.
-/
import Lox.Proofs.Grammar.Basic
import Lox.Proofs.Resolve.Sides
import Mathlib.Data.List.Nodup
import Mathlib.Data.List.Perm.Subperm

namespace Lox.Grammar

open Resolve

/-! ## §1. Tokens of a text. -/

/-- Tokens that stand in a text, each at a place of its own. -/
def Carries (w : List Token) (sided : List (Token × Bool)) : Prop :=
  (sided.map Prod.fst).Subperm w

section Carrying

variable {w w' : List Token} {sided sided' : List (Token × Bool)}

theorem carries_nil (w : List Token) : Carries w [] :=
  List.nil_subperm

theorem Carries.append (h : Carries w sided) (h' : Carries w' sided') :
    Carries (w ++ w') (sided ++ sided') := by
  unfold Carries
  rw [List.map_append]
  exact List.Subperm.append h h'

/-- Two parts of a tree that stand the other way round in the text. -/
theorem Carries.swapped (h : Carries w sided) (h' : Carries w' sided') :
    Carries (w ++ w') (sided' ++ sided) :=
  (List.perm_append_comm.map Prod.fst).subperm.trans (h.append h')

theorem Carries.mark (h : Carries w sided) (t : Token) (anew : Bool) :
    Carries (t :: w) ((t, anew) :: sided) :=
  (List.subperm_cons t).mpr h

/-- A token of the text that is not in the tree. -/
theorem Carries.skip (h : Carries w sided) (t : Token) : Carries (t :: w) sided :=
  List.Subperm.cons_right t h

theorem Carries.before (h : Carries w sided) (w' : List Token) : Carries (w ++ w') sided := by
  have happend := h.append (carries_nil w')
  rwa [List.append_nil] at happend

theorem Carries.nodup (h : Carries w sided) (hw : (w.map Token.line).Nodup) :
    (sided.map fun p => p.1.line).Nodup := by
  obtain ⟨ts, hperm, hsublist⟩ := h
  have hlines : (ts.map Token.line).Nodup := (hsublist.map Token.line).nodup hw
  have hmap := (hperm.map Token.line).nodup_iff.mp hlines
  rwa [List.map_map] at hmap

theorem Carries.mem (h : Carries w sided) {p : Token × Bool} (hp : p ∈ sided) : p.1 ∈ w :=
  List.Subperm.subset h (List.mem_map_of_mem hp)

end Carrying

/-! ## §2. Expressions. -/

section Trees

variable {d : Token}

theorem sidedAll_exprs_append (sides : List Bool) (scopes : Scopes) (es es' : List Expr) :
    Expr.sidedAll sides scopes (es ++ es')
      = Expr.sidedAll sides scopes es ++ Expr.sidedAll sides scopes es' := by
  induction es with
  | nil => rfl
  | cons e es ih => rw [List.cons_append, Expr.sidedAll, Expr.sidedAll, ih, List.append_assoc]

theorem sidedAll_expr (sides : List Bool) (scopes : Scopes) (e : Expr) :
    Expr.sidedAll sides scopes [e] = e.sided sides scopes :=
  List.append_nil _

theorem sided_node (l : Level) (sides : List Bool) (scopes : Scopes) (left right : Expr)
    (operator : Token) : (l.node left operator right).sided sides scopes
      = left.sided sides scopes ++ operator.kept :: right.sided sides scopes := by
  cases l <;> rfl

mutual

theorem Derives.carries (sides : List Bool) (scopes : Scopes) : ∀ {nt : Nonterminal}
    {w : List Token} {e : Expr}, Derives nt w e → Carries w (e.sided sides scopes)
  | _, _, _, .expression h => h.carries sides scopes
  | _, _, _, .assign _ _ _ h => ((h.carries sides scopes).skip _).mark _ _
  | _, _, _, .set ho _ _ _ hv =>
    (ho.carries sides scopes).append ((((hv.carries sides scopes).skip _).mark _ _).skip _)
  | _, _, _, .logic h => h.carries sides scopes
  | _, _, _, .operand h => h.carries sides scopes
  | _, _, _, .chain hl _ hr => by
    rw [sided_node]
    exact (hl.carries sides scopes).append ((hr.carries sides scopes).mark _ _)
  | _, _, _, .unary _ h => (h.carries sides scopes).mark _ _
  | _, _, _, .noUnary h => h.carries sides scopes
  | _, _, _, .primary h => h.carries sides scopes
  | _, _, _, .callEmpty h _ _ =>
    (h.carries sides scopes).append (((carries_nil []).mark _ _).skip _)
  | _, _, _, .call h _ ha _ _ =>
    (h.carries sides scopes).append
      (((ha.carries sides scopes).append ((carries_nil []).mark _ _)).skip _)
  | _, _, _, .get h _ _ => (h.carries sides scopes).append (((carries_nil []).mark _ _).skip _)
  | _, _, _, .number _ => carries_nil _
  | _, _, _, .string _ => carries_nil _
  | _, _, _, .true _ => carries_nil _
  | _, _, _, .false _ => carries_nil _
  | _, _, _, .nil _ => carries_nil _
  | _, _, _, .this _ _ => (carries_nil []).mark _ _
  | _, _, _, .name _ _ => (carries_nil []).mark _ _
  | _, _, _, .group _ h _ => ((h.carries sides scopes).before _).skip _
  | _, _, _, .super _ _ _ _ => ((((carries_nil []).mark _ _).skip _).mark _ _)

theorem Arguments.carries (sides : List Bool) (scopes : Scopes) : ∀ {w : List Token}
    {es : List Expr}, Arguments w es → Carries w (Expr.sidedAll sides scopes es)
  | _, _, .one h => by
    rw [sidedAll_expr]
    exact h.carries sides scopes
  | _, _, .more h _ he => by
    rw [sidedAll_exprs_append, sidedAll_expr]
    exact (h.carries sides scopes).append ((he.carries sides scopes).skip _)

end

theorem Optional.carries (sides : List Bool) (scopes : Scopes) {w : List Token} {e : Option Expr}
    (h : Optional w e) : Carries w (Expr.sided? sides scopes e) := by
  cases h with
  | none => exact carries_nil _
  | some h => exact h.carries sides scopes

/-! ## §3. Statements. -/

theorem sidedAll_append (sides : List Bool) (scopes : Scopes) (ss ss' : List Stmt) :
    Stmt.sidedAll d sides scopes (ss ++ ss')
      = Stmt.sidedAll d sides scopes ss ++ Stmt.sidedAll d sides (scopes.afterAll ss) ss' := by
  induction ss generalizing scopes with
  | nil => rfl
  | cons s ss ih =>
    rw [List.cons_append, Stmt.sidedAll, Stmt.sidedAll, ih, List.append_assoc]
    rfl

theorem sidedAll_stmt (sides : List Bool) (scopes : Scopes) (s : Stmt) :
    Stmt.sidedAll d sides scopes [s] = s.sided d sides scopes :=
  List.append_nil _

theorem sidedMethods_append (sides : List Bool) (scopes : Scopes)
    (ms ms' : List (FunctionDecl Stmt)) : Stmt.sidedMethods d sides scopes (ms ++ ms')
      = Stmt.sidedMethods d sides scopes ms ++ Stmt.sidedMethods d sides scopes ms' := by
  induction ms with
  | nil => rfl
  | cons m ms ih => rw [List.cons_append, Stmt.sidedMethods, Stmt.sidedMethods, ih, List.append_assoc]

theorem sidedMethods_function (sides : List Bool) (scopes : Scopes) (m : FunctionDecl Stmt) :
    Stmt.sidedMethods d sides scopes [m] = Stmt.sidedFunction d sides scopes m :=
  List.append_nil _

theorem VarDecl.carries (sides : List Bool) (scopes : Scopes) {w : List Token} {s : Stmt}
    (h : VarDecl w s) : Carries w (s.sided d sides scopes) := by
  cases h with
  | empty => exact (((carries_nil _).mark _ _).skip _)
  | value _ _ _ h => exact ((((h.carries _ _).before _).skip _).mark _ _).skip _

theorem ExprStmt.carries (sides : List Bool) (scopes : Scopes) {w : List Token} {s : Stmt}
    (h : ExprStmt w s) : Carries w (s.sided d sides scopes) := by
  cases h with
  | mk h => exact (h.carries sides scopes).before _

theorem Superclass.carries {w : List Token} {parent : Option Occurrence} (h : Superclass w parent)
    (side : Occurrence → Bool) :
    Carries w (parent.toList.map fun o => (o.name, side o)) := by
  cases h with
  | none => exact carries_nil _
  | some => exact ((carries_nil []).mark _ _).skip _

theorem Parameters.carries (side : Bool) {w params : List Token} (h : Parameters w params) :
    Carries w (params.map (·, side)) := by
  induction h with
  | one => exact (carries_nil []).mark _ _
  | more _ _ _ ih =>
    rw [List.map_append]
    exact ih.append (((carries_nil []).mark _ _).skip _)

theorem ParameterList.carries (side : Bool) {w params : List Token} (h : ParameterList w params) :
    Carries w (params.map (·, side)) := by
  cases h with
  | empty => exact carries_nil _
  | some _ h => exact ((h.carries side).before _).skip _

theorem carries_while {wc wb : List Token} {condition : Option Expr} {body : Stmt}
    (semicolon : Token) (hc : Optional wc condition)
    (hb : ∀ sides scopes, Carries wb (body.sided d sides scopes)) (sides : List Bool)
    (scopes : Scopes) : Carries (wc ++ semicolon :: wb)
      ((Stmt.while (condition.getD (.literal (.bool true))) body).sided d sides scopes) := by
  rw [Stmt.sided]
  refine Carries.append ?_ ((hb sides scopes).skip semicolon)
  cases hc with
  | none => exact carries_nil _
  | some hc => exact hc.carries sides scopes

theorem forLoop_some (s : Stmt) (condition increment : Option Expr) (body : Stmt) :
    Stmt.forLoop (some s) condition increment body
      = .block [s, .forLoop none condition increment body] :=
  rfl

/-- The body of a loop and its increment are the other way round in the text. -/
theorem carries_forLoop {wi wc wn wb : List Token} {initializer : Option Stmt}
    {condition increment : Option Expr} {body : Stmt} (semicolon rparen : Token)
    (hi : ForInitializer wi initializer) (hc : Optional wc condition) (hn : Optional wn increment)
    (hb : ∀ sides scopes, Carries wb (body.sided d sides scopes)) (sides : List Bool)
    (scopes : Scopes) : Carries (wi ++ (wc ++ semicolon :: (wn ++ rparen :: wb)))
      ((Stmt.forLoop initializer condition increment body).sided d sides scopes) := by
  have hloop : ∀ sides scopes, Carries (wc ++ semicolon :: (wn ++ rparen :: wb))
      ((Stmt.forLoop none condition increment body).sided d sides scopes) := by
    intro sides scopes
    cases hn with
    | none => exact carries_while semicolon hc (fun _ _ => (hb _ _).skip rparen) sides scopes
    | some hn =>
      refine carries_while semicolon hc (fun sides scopes => ?_) sides scopes
      rw [Stmt.sided, Stmt.sidedAll, sidedAll_stmt]
      exact (hn.carries _ _).swapped ((hb _ _).skip rparen)
  cases hi with
  | var hi =>
    rw [forLoop_some, Stmt.sided, Stmt.sidedAll, sidedAll_stmt]
    exact (hi.carries _ _).append (hloop _ _)
  | expression hi =>
    rw [forLoop_some, Stmt.sided, Stmt.sidedAll, sidedAll_stmt]
    exact (hi.carries _ _).append (hloop _ _)
  | none => exact (hloop sides scopes).skip _

mutual

/-- **The tokens of a declaration are tokens of its text.** -/
theorem Declaration.carries : ∀ {w : List Token} {s : Stmt}, Declaration w s →
    ∀ (sides : List Bool) (scopes : Scopes), Carries w (s.sided d sides scopes)
  | _, _, .classDecl _ _ hs _ hm _, sides, scopes => by
    rw [Stmt.sided]
    refine ((Superclass.carries hs _).append ?_).mark _ _ |>.skip _
    exact ((hm.carries _ _).before _).skip _
  | _, _, .funDecl _ h, sides, scopes => by
    rw [Stmt.sided]
    exact (h.carries sides _).skip _
  | _, _, .varDecl h, sides, scopes => h.carries sides scopes
  | _, _, .statement h, sides, scopes => h.carries sides scopes

theorem Declarations.carries : ∀ {w : List Token} {ss : List Stmt}, Declarations w ss →
    ∀ (sides : List Bool) (scopes : Scopes), Carries w (Stmt.sidedAll d sides scopes ss)
  | _, _, .nil, _, _ => carries_nil _
  | _, _, .snoc h hs, sides, scopes => by
    rw [sidedAll_append, sidedAll_stmt]
    exact (h.carries sides scopes).append (hs.carries _ _)

theorem Block.carries : ∀ {w : List Token} {ss : List Stmt}, Block w ss →
    ∀ (sides : List Bool) (scopes : Scopes), Carries w (Stmt.sidedAll d sides scopes ss)
  | _, _, .mk _ h _, sides, scopes => ((h.carries sides scopes).before _).skip _

theorem Function.carries : ∀ {w : List Token} {m : FunctionDecl Stmt}, Function w m →
    ∀ (sides : List Bool) (scopes : Scopes), Carries w (Stmt.sidedFunction d sides scopes m)
  | _, _, .mk _ hp hb, sides, scopes => by
    rw [Stmt.sidedFunction]
    exact ((hp.carries _).append (hb.carries _ _)).mark _ _

theorem Functions.carries : ∀ {w : List Token} {ms : List (FunctionDecl Stmt)}, Functions w ms →
    ∀ (sides : List Bool) (scopes : Scopes), Carries w (Stmt.sidedMethods d sides scopes ms)
  | _, _, .nil, _, _ => carries_nil _
  | _, _, .snoc h hm, sides, scopes => by
    rw [sidedMethods_append, sidedMethods_function]
    exact (h.carries sides scopes).append (hm.carries _ _)

theorem Statement.carries : ∀ {w : List Token} {s : Stmt}, Statement w s →
    ∀ (sides : List Bool) (scopes : Scopes), Carries w (s.sided d sides scopes)
  | _, _, .exprStmt h, sides, scopes => h.carries sides scopes
  | _, _, .forStmt _ _ hi hc _ hn _ hb, sides, scopes =>
    ((carries_forLoop _ _ hi hc hn (fun sides scopes => hb.carries sides scopes) sides
      scopes).skip _).skip _
  | _, _, .ifStmt _ _ hc _ ht, sides, scopes => by
    rw [Stmt.sided]
    exact (((hc.carries _ _).append ((ht.carries _ _).skip _)).skip _).skip _
  | _, _, .ifElse _ _ hc _ ht _ he, sides, scopes => by
    rw [Stmt.sided]
    refine (((hc.carries _ _).append (Carries.skip ?_ _)).skip _).skip _
    exact (ht.carries _ _).append ((he.carries _ _).skip _)
  | _, _, .printStmt _ h _, sides, scopes => by
    rw [Stmt.sided]
    exact ((h.carries _ _).before _).skip _
  | _, _, .returnStmt _ h _, sides, scopes => by
    rw [Stmt.sided]
    exact ((h.carries _ _).before _).mark _ _
  | _, _, .whileStmt _ _ hc _ hb, sides, scopes => by
    rw [Stmt.sided]
    exact (((hc.carries _ _).append ((hb.carries _ _).skip _)).skip _).skip _
  | _, _, .block h, sides, scopes => by
    rw [Stmt.sided]
    exact h.carries _ _

end

theorem Program.carries {w : List Token} {ss : List Stmt} (h : Program w ss) (sides : List Bool)
    (scopes : Scopes) : Carries w (Stmt.sidedAll d sides scopes ss) := by
  cases h with
  | mk h => exact (h.carries sides scopes).before _

end Trees

end Lox.Grammar
