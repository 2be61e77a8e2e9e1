/-
  Lox.Proofs.Parse.Shape
  ──────────────────────
  **THE SHAPE OF TREES THAT ARE READ.**

  What the scope analysis and a running program can rely on: `this` and
  `super` are spelled so and nothing else is, and no branch and no loop body
  is a declaration by itself.  A tree that the grammar derives from scanned
  tokens has this shape.
-/
import Lox.Proofs.Grammar.Program
import Lox.Token.Scan

namespace Lox

/-! ## §1. Names. -/

/-- A name that is neither `this` nor `super`. -/
def Ordinary (name : String) : Prop :=
  name ≠ "this" ∧ name ≠ "super"

theorem not_ordinary_this : ¬ Ordinary "this" :=
  fun h => h.1 rfl

theorem not_ordinary_super : ¬ Ordinary "super" :=
  fun h => h.2 rfl

/-- A token that is spelled as its kind wants. -/
structure Token.Spelled (t : Token) : Prop where
  identifier : t.kind = .identifier → Ordinary t.lexeme
  this : t.kind = .kwThis → t.lexeme = "this"
  super : t.kind = .kwSuper → t.lexeme = "super"

/-! ## §2. Trees. -/

mutual

/-- The names in an expression are what they should be. -/
def Expr.Proper : Expr → Prop
  | .literal _ => True
  | .unary _ right => right.Proper
  | .binary left _ right => left.Proper ∧ right.Proper
  | .logical left _ right => left.Proper ∧ right.Proper
  | .grouping inner => inner.Proper
  | .variable occurrence => Ordinary occurrence.name.lexeme
  | .assign target value => Ordinary target.name.lexeme ∧ value.Proper
  | .call callee _ arguments => callee.Proper ∧ ProperAll arguments
  | .get object _ => object.Proper
  | .set object _ value => object.Proper ∧ value.Proper
  | .super occurrence _ => occurrence.name.lexeme = "super"
  | .this occurrence => occurrence.name.lexeme = "this"

/-- The names in expressions are what they should be. -/
def Expr.ProperAll : List Expr → Prop
  | [] => True
  | e :: rest => e.Proper ∧ ProperAll rest

end

/-- The names in an expression that may be missing are what they should be. -/
def Expr.ProperOption : Option Expr → Prop
  | none => True
  | some e => e.Proper

/-- The name that a statement declares. -/
def Stmt.declared? : Stmt → Option Token
  | .var name _ => some name
  | .function decl => some decl.name
  | .class name _ _ => some name
  | _ => none

mutual

/-- The shape of a statement. -/
def Stmt.Proper : Stmt → Prop
  | .expression e => e.Proper
  | .print e => e.Proper
  | .var name initializer => Ordinary name.lexeme ∧ Expr.ProperOption initializer
  | .block body => ProperAll body
  | .ifElse condition thenBranch none =>
      condition.Proper ∧ thenBranch.Proper ∧ thenBranch.declared? = none
  | .ifElse condition thenBranch (some elseBranch) =>
      condition.Proper ∧ (thenBranch.Proper ∧ thenBranch.declared? = none)
        ∧ elseBranch.Proper ∧ elseBranch.declared? = none
  | .while condition body => condition.Proper ∧ body.Proper ∧ body.declared? = none
  | .function decl => Ordinary decl.name.lexeme ∧ ProperFunction decl
  | .return _ value => Expr.ProperOption value
  | .class name superclass methods =>
      Ordinary name.lexeme ∧ (∀ o ∈ superclass, Ordinary o.name.lexeme) ∧ ProperMethods methods

/-- The shape of statements. -/
def Stmt.ProperAll : List Stmt → Prop
  | [] => True
  | s :: rest => s.Proper ∧ ProperAll rest

/-- The shape of a function. -/
def Stmt.ProperFunction : FunctionDecl Stmt → Prop
  | ⟨_, params, body⟩ => (∀ t ∈ params, Ordinary t.lexeme) ∧ ProperAll body

/-- The shape of methods. -/
def Stmt.ProperMethods : List (FunctionDecl Stmt) → Prop
  | [] => True
  | m :: rest => ProperFunction m ∧ ProperMethods rest

end

theorem Expr.properAll_append (es es' : List Expr) :
    ProperAll (es ++ es') ↔ ProperAll es ∧ ProperAll es' := by
  induction es with
  | nil => simp [ProperAll]
  | cons e es ih => simp [ProperAll, ih, and_assoc]

theorem Stmt.properAll_append (ss ss' : List Stmt) :
    ProperAll (ss ++ ss') ↔ ProperAll ss ∧ ProperAll ss' := by
  induction ss with
  | nil => simp [ProperAll]
  | cons s ss ih => simp [ProperAll, ih, and_assoc]

theorem Stmt.properMethods_append (ms ms' : List (FunctionDecl Stmt)) :
    ProperMethods (ms ++ ms') ↔ ProperMethods ms ∧ ProperMethods ms' := by
  induction ms with
  | nil => simp [ProperMethods]
  | cons m ms ih => simp [ProperMethods, ih, and_assoc]

/-- A loop with three clauses has the shape of a statement. -/
theorem Stmt.proper_forLoop {initializer : Option Stmt} {condition increment : Option Expr}
    {body : Stmt} (hi : ∀ s ∈ initializer, s.Proper) (hc : Expr.ProperOption condition)
    (hn : Expr.ProperOption increment) (hb : body.Proper) (hd : body.declared? = none) :
    (Stmt.forLoop initializer condition increment body).Proper
      ∧ (Stmt.forLoop initializer condition increment body).declared? = none := by
  have hcondition : (condition.getD (.literal (.bool true))).Proper := by
    cases condition with
    | none => trivial
    | some c => exact hc
  cases initializer with
  | none =>
    cases increment with
    | none => exact ⟨⟨hcondition, hb, hd⟩, rfl⟩
    | some n => exact ⟨⟨hcondition, ⟨hb, hn, trivial⟩, rfl⟩, rfl⟩
  | some s =>
    cases increment with
    | none => exact ⟨⟨hi s rfl, ⟨hcondition, hb, hd⟩, trivial⟩, rfl⟩
    | some n => exact ⟨⟨hi s rfl, ⟨hcondition, ⟨hb, hn, trivial⟩, rfl⟩, trivial⟩, rfl⟩

theorem Stmt.declared?_forLoop (initializer : Option Stmt) (condition increment : Option Expr)
    (body : Stmt) : (Stmt.forLoop initializer condition increment body).declared? = none := by
  cases initializer <;> rfl

/-- The body of a loop with three clauses has the shape of a statement. -/
theorem Stmt.Proper.forLoop_body {initializer : Option Stmt} {condition increment : Option Expr}
    {body : Stmt} (h : (Stmt.forLoop initializer condition increment body).Proper) :
    body.Proper := by
  have hloop : (Stmt.forLoop none condition increment body).Proper := by
    cases initializer with
    | none => exact h
    | some s => exact h.2.1
  cases increment with
  | none => exact hloop.2.1
  | some n => exact hloop.2.1.1

end Lox

namespace Lox.Grammar

/-! ## §3. What is derived has the shape. -/

/-- All tokens are spelled as their kinds want. -/
def AllSpelled (w : List Token) : Prop :=
  ∀ t ∈ w, t.Spelled

theorem allSpelled_append (w w' : List Token) :
    AllSpelled (w ++ w') ↔ AllSpelled w ∧ AllSpelled w' :=
  List.forall_mem_append

theorem allSpelled_cons (t : Token) (w : List Token) :
    AllSpelled (t :: w) ↔ t.Spelled ∧ AllSpelled w :=
  List.forall_mem_cons

mutual

theorem Derives.proper : ∀ {nt : Nonterminal} {w : List Token} {e : Expr}, Derives nt w e →
    AllSpelled w → e.Proper
  | _, _, _, .expression h, hw => h.proper hw
  | _, _, _, .assign _ hname _ hvalue, hw => by
    rw [allSpelled_cons, allSpelled_cons] at hw
    exact ⟨hw.1.identifier hname, hvalue.proper hw.2.2⟩
  | _, _, _, .set hobject _ _ _ hvalue, hw => by
    rw [allSpelled_append, allSpelled_cons, allSpelled_cons, allSpelled_cons] at hw
    exact ⟨hobject.proper hw.1, hvalue.proper hw.2.2.2.2⟩
  | _, _, _, .logic h, hw => h.proper hw
  | _, _, _, .operand h, hw => h.proper hw
  | _, _, _, @Derives.chain l _ _ _ _ _ hleft _ hright, hw => by
    rw [allSpelled_append, allSpelled_cons] at hw
    have hboth := And.intro (hleft.proper hw.1) (hright.proper hw.2.2)
    cases l <;> exact hboth
  | _, _, _, .unary _ h, hw => by
    rw [allSpelled_cons] at hw
    exact h.proper hw.2
  | _, _, _, .noUnary h, hw => h.proper hw
  | _, _, _, .primary h, hw => h.proper hw
  | _, _, _, .callEmpty hcallee _ _, hw => by
    rw [allSpelled_append] at hw
    exact ⟨hcallee.proper hw.1, trivial⟩
  | _, _, _, .call hcallee _ hargs _ _, hw => by
    rw [allSpelled_append, allSpelled_cons, allSpelled_append] at hw
    exact ⟨hcallee.proper hw.1, hargs.proper hw.2.2.1⟩
  | _, _, _, .get hobject _ _, hw => by
    rw [allSpelled_append] at hw
    exact hobject.proper hw.1
  | _, _, _, .number _, _ => trivial
  | _, _, _, .string _, _ => trivial
  | _, _, _, .true _, _ => trivial
  | _, _, _, .false _, _ => trivial
  | _, _, _, .nil _, _ => trivial
  | _, _, _, .this _ hk, hw => (hw _ List.mem_cons_self).this hk
  | _, _, _, .name _ hk, hw => (hw _ List.mem_cons_self).identifier hk
  | _, _, _, .group _ h _, hw => by
    rw [allSpelled_cons, allSpelled_append] at hw
    exact h.proper hw.2.1
  | _, _, _, .super _ hk _ _, hw => (hw _ List.mem_cons_self).super hk

theorem Arguments.proper : ∀ {w : List Token} {es : List Expr}, Arguments w es → AllSpelled w →
    Expr.ProperAll es
  | _, _, .one h, hw => ⟨h.proper hw, trivial⟩
  | _, _, .more hargs _ h, hw => by
    rw [allSpelled_append, allSpelled_cons] at hw
    exact (Expr.properAll_append _ _).mpr ⟨hargs.proper hw.1, h.proper hw.2.2, trivial⟩

end

theorem Optional.proper {w : List Token} {e : Option Expr} (h : Optional w e)
    (hw : AllSpelled w) : Expr.ProperOption e := by
  cases h with
  | none => trivial
  | some h => exact h.proper hw

theorem VarDecl.proper {w : List Token} {s : Stmt} (h : VarDecl w s) (hw : AllSpelled w) :
    s.Proper := by
  cases h with
  | empty _ hn _ => exact ⟨(hw _ (by simp)).identifier hn, trivial⟩
  | value _ hn _ he _ =>
    refine ⟨(hw _ (by simp)).identifier hn, he.proper ?_⟩
    intro t ht
    exact hw t (by simp [ht])

theorem ExprStmt.proper {w : List Token} {s : Stmt} (h : ExprStmt w s) (hw : AllSpelled w) :
    s.Proper ∧ s.declared? = none := by
  cases h with
  | mk he _ =>
    rw [allSpelled_append] at hw
    exact ⟨he.proper hw.1, rfl⟩

theorem ForInitializer.proper {w : List Token} {s : Option Stmt} (h : ForInitializer w s)
    (hw : AllSpelled w) : ∀ s' ∈ s, s'.Proper := by
  cases h with
  | var h =>
    rintro _ ⟨⟩
    exact h.proper hw
  | expression h =>
    rintro _ ⟨⟩
    exact (h.proper hw).1
  | none => exact fun _ h => nomatch h

theorem Parameters.proper {w params : List Token} (h : Parameters w params) (hw : AllSpelled w) :
    ∀ t ∈ params, Ordinary t.lexeme := by
  induction h with
  | one hn =>
    intro t ht
    rw [List.mem_singleton.mp ht]
    exact (hw _ List.mem_cons_self).identifier hn
  | @more w params comma name _ _ hn ih =>
    rw [allSpelled_append] at hw
    intro t ht
    rcases List.mem_append.mp ht with ht | ht
    · exact ih hw.1 t ht
    · rw [List.mem_singleton.mp ht]
      exact (hw.2 name (by simp)).identifier hn

theorem ParameterList.proper {w params : List Token} (h : ParameterList w params)
    (hw : AllSpelled w) : ∀ t ∈ params, Ordinary t.lexeme := by
  cases h with
  | empty => simp
  | some _ hp _ _ =>
    rw [allSpelled_cons, allSpelled_append] at hw
    exact hp.proper hw.2.1

theorem Superclass.proper {w : List Token} {o : Option Occurrence} (h : Superclass w o)
    (hw : AllSpelled w) : ∀ o' ∈ o, Ordinary o'.name.lexeme := by
  cases h with
  | none => exact fun _ h => nomatch h
  | some _ _ hn =>
    rintro _ ⟨⟩
    exact (hw _ (by simp)).identifier hn

mutual

theorem Declaration.proper : ∀ {w : List Token} {s : Stmt}, Declaration w s → AllSpelled w →
    s.Proper
  | _, _, .classDecl _ hn hs _ hm _, hw => by
    rw [allSpelled_cons, allSpelled_cons, allSpelled_append, allSpelled_cons,
      allSpelled_append] at hw
    exact ⟨hw.2.1.identifier hn, hs.proper hw.2.2.1, hm.proper hw.2.2.2.2.1⟩
  | _, _, .funDecl _ h, hw => by
    rw [allSpelled_cons] at hw
    exact h.proper hw.2
  | _, _, .varDecl h, hw => h.proper hw
  | _, _, .statement h, hw => (h.proper hw).1

/-- **Every derived program has the shape.** -/
theorem Declarations.proper : ∀ {w : List Token} {ss : List Stmt}, Declarations w ss →
    AllSpelled w → Stmt.ProperAll ss
  | _, _, .nil, _ => trivial
  | _, _, .snoc h h', hw => by
    rw [allSpelled_append] at hw
    exact (Stmt.properAll_append _ _).mpr ⟨h.proper hw.1, h'.proper hw.2, trivial⟩

theorem Block.proper : ∀ {w : List Token} {ss : List Stmt}, Block w ss → AllSpelled w →
    Stmt.ProperAll ss
  | _, _, .mk _ h _, hw => by
    rw [allSpelled_cons, allSpelled_append] at hw
    exact h.proper hw.2.1

theorem Function.proper : ∀ {w : List Token} {d : FunctionDecl Stmt}, Function w d →
    AllSpelled w → Ordinary d.name.lexeme ∧ Stmt.ProperFunction d
  | _, _, .mk hn hp h, hw => by
    rw [allSpelled_cons, allSpelled_append] at hw
    exact ⟨hw.1.identifier hn, hp.proper hw.2.1, h.proper hw.2.2⟩

theorem Functions.proper : ∀ {w : List Token} {ds : List (FunctionDecl Stmt)}, Functions w ds →
    AllSpelled w → Stmt.ProperMethods ds
  | _, _, .nil, _ => trivial
  | _, _, .snoc h h', hw => by
    rw [allSpelled_append] at hw
    exact (Stmt.properMethods_append _ _).mpr ⟨h.proper hw.1, (h'.proper hw.2).2, trivial⟩

theorem Statement.proper : ∀ {w : List Token} {s : Stmt}, Statement w s → AllSpelled w →
    s.Proper ∧ s.declared? = none
  | _, _, .exprStmt h, hw => h.proper hw
  | _, _, .forStmt _ _ hi hc _ hn _ hb, hw => by
    rw [allSpelled_cons, allSpelled_cons, allSpelled_append, allSpelled_append, allSpelled_cons,
      allSpelled_append, allSpelled_cons] at hw
    obtain ⟨-, -, hwi, hwc, -, hwn, -, hwb⟩ := hw
    obtain ⟨hbody, hdeclared⟩ := hb.proper hwb
    exact Stmt.proper_forLoop (hi.proper hwi) (hc.proper hwc) (hn.proper hwn) hbody hdeclared
  | _, _, .ifStmt _ _ hc _ ht, hw => by
    rw [allSpelled_cons, allSpelled_cons, allSpelled_append, allSpelled_cons] at hw
    obtain ⟨-, -, hwc, -, hwt⟩ := hw
    exact ⟨⟨hc.proper hwc, ht.proper hwt⟩, rfl⟩
  | _, _, .ifElse _ _ hc _ ht _ he, hw => by
    rw [allSpelled_cons, allSpelled_cons, allSpelled_append, allSpelled_cons, allSpelled_append,
      allSpelled_cons] at hw
    obtain ⟨-, -, hwc, -, hwt, -, hwe⟩ := hw
    exact ⟨⟨hc.proper hwc, ht.proper hwt, he.proper hwe⟩, rfl⟩
  | _, _, .printStmt _ he _, hw => by
    rw [allSpelled_cons, allSpelled_append] at hw
    exact ⟨he.proper hw.2.1, rfl⟩
  | _, _, .returnStmt _ hv _, hw => by
    rw [allSpelled_cons, allSpelled_append] at hw
    exact ⟨hv.proper hw.2.1, rfl⟩
  | _, _, .whileStmt _ _ hc _ hb, hw => by
    rw [allSpelled_cons, allSpelled_cons, allSpelled_append, allSpelled_cons] at hw
    obtain ⟨-, -, hwc, -, hwb⟩ := hw
    exact ⟨⟨hc.proper hwc, hb.proper hwb⟩, rfl⟩
  | _, _, .block h, hw => ⟨h.proper hw, rfl⟩

end

end Lox.Grammar
