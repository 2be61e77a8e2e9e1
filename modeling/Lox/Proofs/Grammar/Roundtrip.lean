/-
  Lox.Proofs.Grammar.Roundtrip
  ────────────────────────────
  **READING AND WRITING OUT ARE INVERSE.**

  `flatten` writes a tree out as the tokens it was read from, in their order.
  A tree keeps its names, its operators, the parentheses that close calls and
  its `return`s as whole tokens; of every other token only the kind can be
  written.  Which trees can be written so that they are read again is said on
  trees alone:

    • `Expr.StandsAt` — every operand is at the level of its position,
    • `Stmt.Shaped`   — names are identifiers, branches are no declarations,
    • `Stmt.ElseInnermost` — every `else` belongs to the innermost `if`.

  Without `for`, a derivation is the same as the shape of a tree together with
  what the tree writes (`derives_iff`, `declarations_iff`).
-/
import Lox.Proofs.Grammar.Acceptance
import Lox.Proofs.Parse.Shape
import Mathlib.Data.List.Forall2

namespace Lox

open Parse (maxArity)
open Grammar (Level)

/-! ## §1. Writing trees out. -/

/-- What a tree says about one of its tokens. -/
inductive Mark where
  /-- A token of which the tree keeps the kind only. -/
  | kind (k : TokenKind)
  /-- A token that the tree keeps. -/
  | token (t : Token)

/-- Whether a token is as a tree says. -/
def Mark.Shows : Mark → Token → Prop
  | .kind k, t => t.kind = k
  | .token t', t => t = t'

/-- The kind of the token that a literal is written as. -/
def Literal.tokenKind : Literal → TokenKind
  | .number x => .number x
  | .string s => .string s
  | .bool true => .kwTrue
  | .bool false => .kwFalse
  | .nil => .kwNil

namespace Expr

mutual

/-- **An expression written out.** -/
def flatten : Expr → List Mark
  | .literal v => [.kind v.tokenKind]
  | .unary operator right => .token operator :: right.flatten
  | .binary left operator right => left.flatten ++ .token operator :: right.flatten
  | .logical left operator right => left.flatten ++ .token operator :: right.flatten
  | .grouping inner => .kind .leftParen :: (inner.flatten ++ [.kind .rightParen])
  | .variable o => [.token o.name]
  | .assign o value => .token o.name :: .kind .equal :: value.flatten
  | .call callee paren arguments =>
      callee.flatten ++ .kind .leftParen :: (flattenAll arguments ++ [.token paren])
  | .get object name => object.flatten ++ [.kind .dot, .token name]
  | .set object name value =>
      object.flatten ++ .kind .dot :: .token name :: .kind .equal :: value.flatten
  | .super o method => [.token o.name, .kind .dot, .token method]
  | .this o => [.token o.name]

/-- Arguments written out. -/
def flattenAll : List Expr → List Mark
  | [] => []
  | e :: rest => e.flatten ++ flattenMore rest

/-- Arguments behind the first one written out. -/
def flattenMore : List Expr → List Mark
  | [] => []
  | e :: rest => .kind .comma :: (e.flatten ++ flattenMore rest)

end

mutual

/-- **The shape of an expression that stands where at least level `n` is
needed**: assignments have level 0, binary operators the levels 1 to 6, unary
operators level 7, calls and properties level 8. -/
def StandsAt (n : Nat) : Expr → Prop
  | .literal _ => True
  | .unary operator right =>
      n ≤ 7 ∧ (operator.kind = .bang ∨ operator.kind = .minus) ∧ right.StandsAt 7
  | .binary left operator right =>
      ∃ l : Level, n ≤ l.rank ∧ operator.kind ∈ l.operators ∧ l.node = .binary
        ∧ left.StandsAt l.rank ∧ right.StandsAt (l.rank + 1)
  | .logical left operator right =>
      ∃ l : Level, n ≤ l.rank ∧ operator.kind ∈ l.operators ∧ l.node = .logical
        ∧ left.StandsAt l.rank ∧ right.StandsAt (l.rank + 1)
  | .grouping inner => inner.StandsAt 0
  | .variable o => o.name.kind = .identifier
  | .assign o value => n = 0 ∧ o.name.kind = .identifier ∧ value.StandsAt 0
  | .call callee paren arguments =>
      n ≤ 8 ∧ callee.StandsAt 8 ∧ paren.kind = .rightParen ∧ arguments.length ≤ maxArity
        ∧ StandAll arguments
  | .get object name => n ≤ 8 ∧ object.StandsAt 8 ∧ name.kind = .identifier
  | .set object name value =>
      n = 0 ∧ object.StandsAt 8 ∧ name.kind = .identifier ∧ value.StandsAt 0
  | .super o method => o.name.kind = .kwSuper ∧ method.kind = .identifier
  | .this o => o.name.kind = .kwThis

/-- The shape of arguments. -/
def StandAll : List Expr → Prop
  | [] => True
  | e :: rest => e.StandsAt 0 ∧ StandAll rest

end

end Expr

/-- Parameters behind the first one written out. -/
def flattenNames : List Token → List Mark
  | [] => []
  | name :: rest => .kind .comma :: .token name :: flattenNames rest

/-- Parameters written out. -/
def flattenParameters : List Token → List Mark
  | [] => []
  | name :: rest => .token name :: flattenNames rest

/-- The name of a superclass written out. -/
def flattenParent : Option Occurrence → List Mark
  | none => []
  | some o => [.kind .less, .token o.name]

/-- What is written in braces. -/
def braced (ms : List Mark) : List Mark :=
  .kind .leftBrace :: (ms ++ [.kind .rightBrace])

/-- The value of a `return` written out. -/
def flattenValue : Option Expr → List Mark
  | none => []
  | some e => e.flatten

namespace Stmt

mutual

/-- **A statement written out.** -/
def flatten : Stmt → List Mark
  | .expression e => e.flatten ++ [.kind .semicolon]
  | .print e => .kind .kwPrint :: (e.flatten ++ [.kind .semicolon])
  | .var name none => [.kind .kwVar, .token name, .kind .semicolon]
  | .var name (some e) =>
      .kind .kwVar :: .token name :: .kind .equal :: (e.flatten ++ [.kind .semicolon])
  | .block body => braced (flattenAll body)
  | .ifElse condition thenBranch none =>
      .kind .kwIf :: .kind .leftParen
        :: (condition.flatten ++ .kind .rightParen :: thenBranch.flatten)
  | .ifElse condition thenBranch (some elseBranch) =>
      .kind .kwIf :: .kind .leftParen
        :: (condition.flatten ++ .kind .rightParen
          :: (thenBranch.flatten ++ .kind .kwElse :: elseBranch.flatten))
  | .while condition body =>
      .kind .kwWhile :: .kind .leftParen
        :: (condition.flatten ++ .kind .rightParen :: body.flatten)
  | .function decl => .kind .kwFun :: flattenFunction decl
  | .return keyword value => .token keyword :: (flattenValue value ++ [.kind .semicolon])
  | .class name parent methods =>
      .kind .kwClass :: .token name
        :: (flattenParent parent ++ .kind .leftBrace
          :: (flattenMethods methods ++ [.kind .rightBrace]))

/-- Statements written out. -/
def flattenAll : List Stmt → List Mark
  | [] => []
  | s :: rest => s.flatten ++ flattenAll rest

/-- A function written out. -/
def flattenFunction : FunctionDecl Stmt → List Mark
  | ⟨name, params, body⟩ =>
      .token name :: (.kind .leftParen :: (flattenParameters params ++ [.kind .rightParen])
        ++ braced (flattenAll body))

/-- Methods written out. -/
def flattenMethods : List (FunctionDecl Stmt) → List Mark
  | [] => []
  | m :: rest => flattenFunction m ++ flattenMethods rest

end

mutual

/-- **The shape of a statement**: its expressions stand where any level does,
names are identifiers, and no declaration is a branch or the body of a loop. -/
def Shaped : Stmt → Prop
  | .expression e => e.StandsAt 0
  | .print e => e.StandsAt 0
  | .var name initializer => name.kind = .identifier ∧ ∀ e ∈ initializer, e.StandsAt 0
  | .block body => ShapedAll body
  | .ifElse condition thenBranch none =>
      condition.StandsAt 0 ∧ thenBranch.declared? = none ∧ thenBranch.Shaped
  | .ifElse condition thenBranch (some elseBranch) =>
      condition.StandsAt 0 ∧ (thenBranch.declared? = none ∧ thenBranch.Shaped)
        ∧ elseBranch.declared? = none ∧ elseBranch.Shaped
  | .while condition body => condition.StandsAt 0 ∧ body.declared? = none ∧ body.Shaped
  | .function decl => ShapedFunction decl
  | .return keyword value => keyword.kind = .kwReturn ∧ ∀ e ∈ value, e.StandsAt 0
  | .class name parent methods =>
      name.kind = .identifier ∧ (∀ o ∈ parent, o.name.kind = .identifier) ∧ ShapedMethods methods

/-- The shape of statements. -/
def ShapedAll : List Stmt → Prop
  | [] => True
  | s :: rest => s.Shaped ∧ ShapedAll rest

/-- The shape of a function. -/
def ShapedFunction : FunctionDecl Stmt → Prop
  | ⟨name, params, body⟩ =>
      name.kind = .identifier ∧ (∀ p ∈ params, p.kind = .identifier)
        ∧ params.length ≤ maxArity ∧ ShapedAll body

/-- The shape of methods. -/
def ShapedMethods : List (FunctionDecl Stmt) → Prop
  | [] => True
  | m :: rest => ShapedFunction m ∧ ShapedMethods rest

end

end Stmt

/-! ## §2. Tokens as a tree writes them. -/

/-- **Tokens that are as a tree says**, one by one. -/
def Writes (ms : List Mark) (w : List Token) : Prop :=
  List.Forall₂ Mark.Shows ms w

theorem writes_nil {w : List Token} : Writes [] w ↔ w = [] :=
  List.forall₂_nil_left_iff

theorem writes_kind {k : TokenKind} {ms : List Mark} {w : List Token} :
    Writes (.kind k :: ms) w ↔ ∃ t w', w = t :: w' ∧ t.kind = k ∧ Writes ms w' := by
  constructor
  · intro h
    obtain ⟨t, w', ht, hw, rfl⟩ := List.forall₂_cons_left_iff.mp h
    exact ⟨t, w', rfl, ht, hw⟩
  · rintro ⟨t, w', rfl, ht, hw⟩
    exact .cons ht hw

theorem writes_token {t : Token} {ms : List Mark} {w : List Token} :
    Writes (.token t :: ms) w ↔ ∃ w', w = t :: w' ∧ Writes ms w' := by
  constructor
  · intro h
    obtain ⟨t', w', rfl, hw, rfl⟩ := List.forall₂_cons_left_iff.mp h
    exact ⟨w', rfl, hw⟩
  · rintro ⟨w', rfl, hw⟩
    exact .cons rfl hw

theorem Writes.append {ms ms' : List Mark} {w w' : List Token} (h : Writes ms w)
    (h' : Writes ms' w') : Writes (ms ++ ms') (w ++ w') :=
  List.rel_append h h'

theorem writes_append {ms ms' : List Mark} {w : List Token} :
    Writes (ms ++ ms') w ↔ ∃ u u', w = u ++ u' ∧ Writes ms u ∧ Writes ms' u' := by
  constructor
  · intro h
    induction ms generalizing w with
    | nil => exact ⟨[], w, rfl, .nil, h⟩
    | cons m ms ih =>
      obtain ⟨t, w', ht, hw, rfl⟩ := List.forall₂_cons_left_iff.mp h
      obtain ⟨u, u', rfl, hu, hu'⟩ := ih hw
      exact ⟨t :: u, u', rfl, .cons ht hu, hu'⟩
  · rintro ⟨u, u', rfl, hu, hu'⟩
    exact hu.append hu'

/-- A token of which only the kind is kept can be any of its kind. -/
theorem writes_one {k : TokenKind} {t : Token} (h : t.kind = k) : Writes [.kind k] [t] :=
  .cons h .nil

/-! ## §3. Expressions. -/

namespace Expr

theorem StandsAt.looser {e : Expr} {m n : Nat} (hmn : m ≤ n) (h : e.StandsAt n) :
    e.StandsAt m := by
  cases e with
  | unary operator right => exact ⟨Nat.le_trans hmn h.1, h.2⟩
  | binary left operator right =>
    obtain ⟨l, hl, hrest⟩ := h
    exact ⟨l, Nat.le_trans hmn hl, hrest⟩
  | logical left operator right =>
    obtain ⟨l, hl, hrest⟩ := h
    exact ⟨l, Nat.le_trans hmn hl, hrest⟩
  | assign o value =>
    obtain ⟨rfl, hrest⟩ := h
    exact ⟨Nat.le_zero.mp hmn, hrest⟩
  | call callee paren arguments => exact ⟨Nat.le_trans hmn h.1, h.2⟩
  | get object name => exact ⟨Nat.le_trans hmn h.1, h.2⟩
  | set object name value =>
    obtain ⟨rfl, hrest⟩ := h
    exact ⟨Nat.le_zero.mp hmn, hrest⟩
  | literal | grouping | «variable» | super | this => exact h

theorem standAll_append (es es' : List Expr) :
    StandAll (es ++ es') ↔ StandAll es ∧ StandAll es' := by
  induction es with
  | nil => simp [StandAll]
  | cons e rest ih => simp [StandAll, ih, and_assoc]

theorem flattenMore_snoc (es : List Expr) (e : Expr) :
    flattenMore (es ++ [e]) = flattenMore es ++ .kind .comma :: e.flatten := by
  induction es with
  | nil => simp [flattenMore]
  | cons _ rest ih => simp [flattenMore, ih]

theorem flattenAll_snoc {es : List Expr} (h : es ≠ []) (e : Expr) :
    flattenAll (es ++ [e]) = flattenAll es ++ .kind .comma :: e.flatten := by
  cases es with
  | nil => exact absurd rfl h
  | cons _ rest => simp [flattenAll, flattenMore_snoc]

end Expr

end Lox

namespace Lox.Grammar

open Parse (maxArity)

/-- An operator with its operands has the shape of its level. -/
theorem standsAt_node {l : Level} (left right : Expr) {operator : Token}
    (hop : operator.kind ∈ l.operators) (hl : left.StandsAt l.rank)
    (hr : right.StandsAt (l.rank + 1)) : (l.node left operator right).StandsAt l.rank := by
  cases l <;> exact ⟨_, Nat.le_refl _, hop, rfl, hl, hr⟩

theorem flatten_node (l : Level) (left right : Expr) (operator : Token) :
    (l.node left operator right).flatten = left.flatten ++ .token operator :: right.flatten := by
  cases l <;> rfl

theorem Arguments.ne_nil {w : List Token} {es : List Expr} (h : Arguments w es) : es ≠ [] := by
  cases h <;> simp

mutual

/-- **A derived tree has the shape of the grammar and writes its tokens.** -/
theorem Derives.shape : ∀ {nt : Nonterminal} {w : List Token} {e : Expr}, Derives nt w e →
    e.StandsAt nt.rank ∧ Writes e.flatten w
  | _, _, _, .expression h => h.shape
  | _, _, _, .assign id hn heq hv => ⟨⟨rfl, hn, hv.shape.1⟩, .cons rfl (.cons heq hv.shape.2)⟩
  | _, _, _, .set ho hd hn heq hv =>
    ⟨⟨rfl, ho.shape.1, hn, hv.shape.1⟩,
      ho.shape.2.append (.cons hd (.cons rfl (.cons heq hv.shape.2)))⟩
  | _, _, _, .logic h => ⟨h.shape.1.looser (Nat.zero_le _), h.shape.2⟩
  | _, _, _, .operand (l := l) h =>
    ⟨h.shape.1.looser (by rw [l.rank_operand]; exact Nat.le_succ _), h.shape.2⟩
  | _, _, _, .chain (l := l) h hop h' => by
    have hright := h'.shape
    rw [l.rank_operand] at hright
    refine ⟨standsAt_node _ _ hop h.shape.1 hright.1, ?_⟩
    rw [flatten_node]
    exact h.shape.2.append (.cons rfl hright.2)
  | _, _, _, .unary hop h => ⟨⟨Nat.le_refl _, hop, h.shape.1⟩, .cons rfl h.shape.2⟩
  | _, _, _, .noUnary h => ⟨h.shape.1.looser (Nat.le_succ _), h.shape.2⟩
  | _, _, _, .primary h => h.shape
  | _, _, _, .callEmpty h hl hr =>
    ⟨⟨Nat.le_refl _, h.shape.1, hr, Nat.zero_le _, trivial⟩,
      h.shape.2.append (.cons hl (.cons rfl .nil))⟩
  | _, _, _, .call h hl ha hlen hr =>
    ⟨⟨Nat.le_refl _, h.shape.1, hr, hlen, ha.shape.1⟩,
      h.shape.2.append (.cons hl (ha.shape.2.append (.cons rfl .nil)))⟩
  | _, _, _, .get h hd hn =>
    ⟨⟨Nat.le_refl _, h.shape.1, hn⟩, h.shape.2.append (.cons hd (.cons rfl .nil))⟩
  | _, _, _, .number ht => ⟨trivial, writes_one ht⟩
  | _, _, _, .string ht => ⟨trivial, writes_one ht⟩
  | _, _, _, .true ht => ⟨trivial, writes_one ht⟩
  | _, _, _, .false ht => ⟨trivial, writes_one ht⟩
  | _, _, _, .nil ht => ⟨trivial, writes_one ht⟩
  | _, _, _, .this _ ht => ⟨ht, .cons rfl .nil⟩
  | _, _, _, .name _ ht => ⟨ht, .cons rfl .nil⟩
  | _, _, _, .group hl h hr => ⟨h.shape.1, .cons hl (h.shape.2.append (writes_one hr))⟩
  | _, _, _, .super _ hk hd hm => ⟨⟨hk, hm⟩, .cons rfl (.cons hd (.cons rfl .nil))⟩

theorem Arguments.shape : ∀ {w : List Token} {es : List Expr}, Arguments w es →
    Expr.StandAll es ∧ Writes (Expr.flattenAll es) w
  | _, _, .one h => by
    refine ⟨⟨h.shape.1, trivial⟩, ?_⟩
    rw [Expr.flattenAll, Expr.flattenMore, List.append_nil]
    exact h.shape.2
  | _, _, .more h hc h' => by
    refine ⟨(Expr.standAll_append _ _).mpr ⟨h.shape.1, h'.shape.1, trivial⟩, ?_⟩
    rw [Expr.flattenAll_snoc h.ne_nil]
    exact h.shape.2.append (.cons hc h'.shape.2)

end

theorem derives_literal {w : List Token} (v : Literal) (h : Writes (Expr.literal v).flatten w) :
    Derives .primary w (.literal v) := by
  obtain ⟨t, _, rfl, ht, hw⟩ := writes_kind.mp h
  cases writes_nil.mp hw
  match v, ht with
  | .number x, ht => exact .number ht
  | .string s, ht => exact .string ht
  | .bool true, ht => exact .true ht
  | .bool false, ht => exact .false ht
  | .nil, ht => exact .nil ht

/-- What can stand everywhere can stand at any level. -/
theorem Derives.anywhere {w : List Token} {e : Expr} (h : Derives .primary w e) (n : Nat) :
    Derives (.ofRank n) w e :=
  Derives.looser (n := n + 9) (Nat.le_add_right n 9) h

theorem Derives.assignment {w : List Token} {e : Expr} (h : Derives .expression w e) :
    Derives .assignment w e := by
  cases h with
  | expression h => exact h

/-- The tokens of an operator with its operands. -/
theorem derives_node {l : Level} {w : List Token} {left right : Expr} {operator : Token} {n : Nat}
    (hn : n ≤ l.rank) (hop : operator.kind ∈ l.operators)
    (hw : Writes (left.flatten ++ .token operator :: right.flatten) w)
    (hl : ∀ u, Writes left.flatten u → Derives (.ofRank l.rank) u left)
    (hr : ∀ u, Writes right.flatten u → Derives (.ofRank (l.rank + 1)) u right) :
    Derives (.ofRank n) w (l.node left operator right) := by
  obtain ⟨u, u', rfl, hu, hu'⟩ := writes_append.mp hw
  obtain ⟨v, rfl, hv⟩ := writes_token.mp hu'
  have hleft := hl u hu
  have hright := hr v hv
  rw [ofRank_rank] at hleft
  rw [ofRank_rank_succ] at hright
  refine Derives.looser hn ?_
  rw [ofRank_rank]
  exact .chain hleft hop hright

mutual

/-- **Tokens that a tree of the shape writes derive it.** -/
theorem derives_of_shape : ∀ (e : Expr) {n : Nat} {w : List Token}, e.StandsAt n →
    Writes e.flatten w → Derives (.ofRank n) w e
  | .literal v, n, w, _, hw => (derives_literal v hw).anywhere n
  | .unary operator right, n, w, h, hw => by
    obtain ⟨hn, hop, hright⟩ := h
    obtain ⟨u, rfl, hu⟩ := writes_token.mp hw
    exact Derives.looser hn (.unary hop (derives_of_shape right hright hu))
  | .binary left operator right, n, w, h, hw => by
    obtain ⟨l, hn, hop, hnode, hleft, hright⟩ := h
    rw [← hnode]
    exact derives_node hn hop hw (fun _ => derives_of_shape left hleft)
      (fun _ => derives_of_shape right hright)
  | .logical left operator right, n, w, h, hw => by
    obtain ⟨l, hn, hop, hnode, hleft, hright⟩ := h
    rw [← hnode]
    exact derives_node hn hop hw (fun _ => derives_of_shape left hleft)
      (fun _ => derives_of_shape right hright)
  | .grouping inner, n, w, h, hw => by
    simp only [Expr.flatten, writes_kind, writes_append, writes_nil] at hw
    obtain ⟨lparen, _, rfl, hl, u, _, rfl, hu, rparen, _, rfl, hr, rfl⟩ := hw
    exact (Derives.group hl (derives_of_shape inner h hu) hr).anywhere n
  | .variable o, n, w, h, hw => by
    simp only [Expr.flatten, writes_token, writes_nil] at hw
    obtain ⟨_, rfl, rfl⟩ := hw
    exact (Derives.name o.id h).anywhere n
  | .assign o value, n, w, h, hw => by
    obtain ⟨rfl, hname, hvalue⟩ := h
    simp only [Expr.flatten, writes_token, writes_kind] at hw
    obtain ⟨_, rfl, equals, u, rfl, heq, hu⟩ := hw
    exact .expression (.assign o.id hname heq (derives_of_shape value hvalue hu).assignment)
  | .call callee paren arguments, n, w, h, hw => by
    obtain ⟨hn, hcallee, hparen, hlen, harguments⟩ := h
    simp only [Expr.flatten, writes_append, writes_kind, writes_token, writes_nil] at hw
    obtain ⟨u, _, rfl, hu, lparen, _, rfl, hl, ua, _, rfl, hua, _, rfl, rfl⟩ := hw
    have hc := derives_of_shape callee hcallee hu
    refine Derives.looser hn ?_
    match arguments, harguments, hua, hlen with
    | [], _, hua, _ =>
      cases writes_nil.mp hua
      exact .callEmpty hc hl hparen
    | e :: rest, hs, hua, hlen =>
      obtain ⟨u₁, u₂, rfl, hu₁, hu₂⟩ := writes_append.mp hua
      have hall := arguments_of_shape rest hs.2 hu₂ (.one (derives_of_shape e hs.1 hu₁))
      exact .call hc hl hall hlen hparen
  | .get object name, n, w, h, hw => by
    obtain ⟨hn, hobject, hname⟩ := h
    simp only [Expr.flatten, writes_append, writes_kind, writes_token, writes_nil] at hw
    obtain ⟨u, _, rfl, hu, dot, _, rfl, hd, _, rfl, rfl⟩ := hw
    exact Derives.looser hn (.get (derives_of_shape object hobject hu) hd hname)
  | .set object name value, n, w, h, hw => by
    obtain ⟨rfl, hobject, hname, hvalue⟩ := h
    simp only [Expr.flatten, writes_append, writes_kind, writes_token] at hw
    obtain ⟨u, _, rfl, hu, dot, _, rfl, hd, _, rfl, equals, v, rfl, heq, hv⟩ := hw
    exact .expression (.set (derives_of_shape object hobject hu) hd hname heq
      (derives_of_shape value hvalue hv).assignment)
  | .super o method, n, w, h, hw => by
    simp only [Expr.flatten, writes_kind, writes_token, writes_nil] at hw
    obtain ⟨_, rfl, dot, _, rfl, hd, _, rfl, rfl⟩ := hw
    exact (Derives.super o.id h.1 hd h.2).anywhere n
  | .this o, n, w, h, hw => by
    simp only [Expr.flatten, writes_token, writes_nil] at hw
    obtain ⟨_, rfl, rfl⟩ := hw
    exact (Derives.this o.id h).anywhere n

/-- Arguments are derived one behind the other. -/
theorem arguments_of_shape : ∀ (es : List Expr) {w u : List Token} {earlier : List Expr},
    Expr.StandAll es → Writes (Expr.flattenMore es) w → Arguments u earlier →
    Arguments (u ++ w) (earlier ++ es)
  | [], w, u, earlier, _, hw, ha => by
    cases writes_nil.mp hw
    simpa using ha
  | e :: rest, w, u, earlier, h, hw, ha => by
    obtain ⟨comma, _, rfl, hc, hw⟩ := writes_kind.mp hw
    obtain ⟨v, v', rfl, hv, hv'⟩ := writes_append.mp hw
    have hmore := arguments_of_shape rest h.2 hv' (ha.more hc (derives_of_shape e h.1 hv))
    simpa using hmore

end

/-- **An expression is derived from the tokens it writes**, if it has the shape
that its place needs, and from no others. -/
theorem derives_iff {e : Expr} {w : List Token} :
    Derives .expression w e ↔ e.StandsAt 0 ∧ Writes e.flatten w :=
  ⟨Derives.shape, fun h => derives_of_shape e h.1 h.2⟩

/-! ## §4. Lists of statements and names. -/

theorem shapedAll_snoc (ss : List Stmt) (s : Stmt) :
    Stmt.ShapedAll (ss ++ [s]) ↔ Stmt.ShapedAll ss ∧ s.Shaped := by
  induction ss with
  | nil => simp [Stmt.ShapedAll]
  | cons _ rest ih => simp [Stmt.ShapedAll, ih, and_assoc]

theorem flattenAll_snoc (ss : List Stmt) (s : Stmt) :
    Stmt.flattenAll (ss ++ [s]) = Stmt.flattenAll ss ++ s.flatten := by
  induction ss with
  | nil => simp [Stmt.flattenAll]
  | cons _ rest ih => simp [Stmt.flattenAll, ih]

theorem shapedMethods_snoc (ds : List (FunctionDecl Stmt)) (d : FunctionDecl Stmt) :
    Stmt.ShapedMethods (ds ++ [d]) ↔ Stmt.ShapedMethods ds ∧ Stmt.ShapedFunction d := by
  induction ds with
  | nil => simp [Stmt.ShapedMethods]
  | cons _ rest ih => simp [Stmt.ShapedMethods, ih, and_assoc]

theorem flattenMethods_snoc (ds : List (FunctionDecl Stmt)) (d : FunctionDecl Stmt) :
    Stmt.flattenMethods (ds ++ [d]) = Stmt.flattenMethods ds ++ Stmt.flattenFunction d := by
  induction ds with
  | nil => simp [Stmt.flattenMethods]
  | cons _ rest ih => simp [Stmt.flattenMethods, ih]

theorem flattenNames_snoc (params : List Token) (name : Token) :
    flattenNames (params ++ [name]) = flattenNames params ++ [.kind .comma, .token name] := by
  induction params with
  | nil => rfl
  | cons _ rest ih => simp [flattenNames, ih]

theorem flattenParameters_snoc {params : List Token} (h : params ≠ []) (name : Token) :
    flattenParameters (params ++ [name])
      = flattenParameters params ++ [.kind .comma, .token name] := by
  cases params with
  | nil => exact absurd rfl h
  | cons _ rest => simp [flattenParameters, flattenNames_snoc]

theorem Parameters.shape {w params : List Token} (h : Parameters w params) :
    params ≠ [] ∧ (∀ p ∈ params, p.kind = .identifier) ∧ Writes (flattenParameters params) w := by
  induction h with
  | one hn => exact ⟨List.cons_ne_nil _ _, by simpa using hn, .cons rfl .nil⟩
  | more _ hc hn ih =>
    obtain ⟨hne, hkinds, hw⟩ := ih
    refine ⟨by simp, ?_, ?_⟩
    · intro p hp
      rcases List.mem_append.mp hp with hp | hp
      · exact hkinds p hp
      · cases List.mem_singleton.mp hp
        exact hn
    · rw [flattenParameters_snoc hne]
      exact hw.append (.cons hc (.cons rfl .nil))

theorem ParameterList.shape {w params : List Token} (h : ParameterList w params) :
    (∀ p ∈ params, p.kind = .identifier) ∧ params.length ≤ maxArity
      ∧ Writes (.kind .leftParen :: (flattenParameters params ++ [.kind .rightParen])) w := by
  cases h with
  | empty hl hr => exact ⟨by simp, Nat.zero_le _, .cons hl (writes_one hr)⟩
  | some hl h hlen hr =>
    obtain ⟨-, hkinds, hw⟩ := h.shape
    exact ⟨hkinds, hlen, .cons hl (hw.append (writes_one hr))⟩

theorem parameters_of_shape (params : List Token) {w u earlier : List Token}
    (hp : ∀ p ∈ params, p.kind = .identifier) (hw : Writes (flattenNames params) w)
    (h : Parameters u earlier) : Parameters (u ++ w) (earlier ++ params) := by
  induction params generalizing w u earlier with
  | nil =>
    cases writes_nil.mp hw
    simpa using h
  | cons name rest ih =>
    simp only [flattenNames, writes_kind, writes_token] at hw
    obtain ⟨comma, _, rfl, hc, v, rfl, hv⟩ := hw
    have hrest := fun p hr => hp p (List.mem_cons_of_mem name hr)
    have hmore := ih hrest hv (h.more hc (hp name List.mem_cons_self))
    simpa using hmore

theorem parameterList_of_shape {params w : List Token} (hp : ∀ p ∈ params, p.kind = .identifier)
    (hlen : params.length ≤ maxArity)
    (hw : Writes (.kind .leftParen :: (flattenParameters params ++ [.kind .rightParen])) w) :
    ParameterList w params := by
  simp only [writes_kind, writes_append, writes_nil] at hw
  obtain ⟨lparen, _, rfl, hl, u, _, rfl, hu, rparen, _, rfl, hr, rfl⟩ := hw
  cases params with
  | nil =>
    cases writes_nil.mp hu
    exact .empty hl hr
  | cons name rest =>
    obtain ⟨v, rfl, hv⟩ := writes_token.mp hu
    have hrest := fun p hr => hp p (List.mem_cons_of_mem name hr)
    exact .some hl (parameters_of_shape rest hrest hv (.one (hp name List.mem_cons_self))) hlen hr

theorem Superclass.shape {w : List Token} {parent : Option Occurrence} (h : Superclass w parent) :
    (∀ o ∈ parent, o.name.kind = .identifier) ∧ Writes (flattenParent parent) w := by
  cases h with
  | none => exact ⟨by simp, .nil⟩
  | some id hless hn =>
    refine ⟨?_, .cons hless (.cons rfl .nil)⟩
    rintro o ⟨⟩
    exact hn

theorem superclass_of_shape {w : List Token} {parent : Option Occurrence}
    (hp : ∀ o ∈ parent, o.name.kind = .identifier) (hw : Writes (flattenParent parent) w) :
    Superclass w parent := by
  cases parent with
  | none =>
    cases writes_nil.mp hw
    exact .none
  | some o =>
    simp only [flattenParent, writes_kind, writes_token, writes_nil] at hw
    obtain ⟨less, _, rfl, hless, _, rfl, rfl⟩ := hw
    exact .some o.id hless (hp o rfl)

theorem Optional.shape {w : List Token} {value : Option Expr} (h : Optional w value) :
    (∀ e ∈ value, e.StandsAt 0) ∧ Writes (flattenValue value) w := by
  cases h with
  | none => exact ⟨by simp, .nil⟩
  | some h =>
    obtain ⟨hs, hw⟩ := derives_iff.mp h
    refine ⟨?_, hw⟩
    rintro e ⟨⟩
    exact hs

theorem optional_of_shape {w : List Token} {value : Option Expr} (h : ∀ e ∈ value, e.StandsAt 0)
    (hw : Writes (flattenValue value) w) : Optional w value := by
  cases value with
  | none =>
    cases writes_nil.mp hw
    exact .none
  | some e => exact .some (derives_iff.mpr ⟨h e rfl, hw⟩)

/-! ## §5. Statements. -/

theorem VarDecl.shape {w : List Token} {s : Stmt} (h : VarDecl w s) :
    s.Shaped ∧ Writes s.flatten w := by
  cases h with
  | empty hk hn hs => exact ⟨⟨hn, by simp⟩, .cons hk (.cons rfl (writes_one hs))⟩
  | value hk hn heq he hs =>
    obtain ⟨hshape, hw⟩ := derives_iff.mp he
    refine ⟨⟨hn, ?_⟩, .cons hk (.cons rfl (.cons heq (hw.append (writes_one hs))))⟩
    rintro e ⟨⟩
    exact hshape

/-- A statement of the shape of the grammar that writes these tokens, if none
of them is a `for`. -/
def StatementShape (w : List Token) (s : Stmt) : Prop :=
  ForFree w → s.declared? = none ∧ s.Shaped ∧ Writes s.flatten w

def DeclarationShape (w : List Token) (s : Stmt) : Prop :=
  ForFree w → s.Shaped ∧ Writes s.flatten w

def DeclarationsShape (w : List Token) (ss : List Stmt) : Prop :=
  ForFree w → Stmt.ShapedAll ss ∧ Writes (Stmt.flattenAll ss) w

def BlockShape (w : List Token) (ss : List Stmt) : Prop :=
  ForFree w → Stmt.ShapedAll ss ∧ Writes (braced (Stmt.flattenAll ss)) w

def FunctionShape (w : List Token) (d : FunctionDecl Stmt) : Prop :=
  ForFree w → Stmt.ShapedFunction d ∧ Writes (Stmt.flattenFunction d) w

def FunctionsShape (w : List Token) (ds : List (FunctionDecl Stmt)) : Prop :=
  ForFree w → Stmt.ShapedMethods ds ∧ Writes (Stmt.flattenMethods ds) w

section Shapes

variable {w w' wt we wb : List Token} {s thenBranch elseBranch body : Stmt} {ss : List Stmt}
  {e condition : Expr} {keyword lparen rparen kwElse lbrace rbrace name : Token}

theorem statementShape_expression (h : ExprStmt w s) : StatementShape w s := by
  intro _
  cases h with
  | mk he hs =>
    obtain ⟨hshape, hw⟩ := derives_iff.mp he
    exact ⟨rfl, hshape, hw.append (writes_one hs)⟩

theorem statementShape_if (hk : keyword.kind = .kwIf) (hl : lparen.kind = .leftParen)
    (hc : Derives .expression w condition) (hr : rparen.kind = .rightParen)
    (hthen : StatementShape wt thenBranch) :
    StatementShape (keyword :: lparen :: (w ++ rparen :: wt))
      (.ifElse condition thenBranch none) := by
  intro hfor
  obtain ⟨hcondition, hwc⟩ := derives_iff.mp hc
  obtain ⟨hnone, hbranch, hwt⟩ := hthen hfor.afterHead
  exact ⟨rfl, ⟨hcondition, hnone, hbranch⟩, .cons hk (.cons hl (hwc.append (.cons hr hwt)))⟩

theorem statementShape_ifElse (hk : keyword.kind = .kwIf) (hl : lparen.kind = .leftParen)
    (hc : Derives .expression w condition) (hr : rparen.kind = .rightParen)
    (hthen : StatementShape wt thenBranch) (hk' : kwElse.kind = .kwElse)
    (helse : StatementShape we elseBranch) :
    StatementShape (keyword :: lparen :: (w ++ rparen :: (wt ++ kwElse :: we)))
      (.ifElse condition thenBranch (some elseBranch)) := by
  intro hfor
  have hbranches := forFree_append.mp hfor.afterHead
  obtain ⟨hcondition, hwc⟩ := derives_iff.mp hc
  obtain ⟨hnone, hbranch, hwt⟩ := hthen hbranches.1
  obtain ⟨hnone', hbranch', hwe⟩ := helse (forFree_cons.mp hbranches.2).2
  exact ⟨rfl, ⟨hcondition, ⟨hnone, hbranch⟩, hnone', hbranch'⟩,
    .cons hk (.cons hl (hwc.append (.cons hr (hwt.append (.cons hk' hwe)))))⟩

theorem statementShape_print {semicolon : Token} (hk : keyword.kind = .kwPrint)
    (he : Derives .expression w e) (hs : semicolon.kind = .semicolon) :
    StatementShape (keyword :: (w ++ [semicolon])) (.print e) := by
  intro _
  obtain ⟨hshape, hw⟩ := derives_iff.mp he
  exact ⟨rfl, hshape, .cons hk (hw.append (writes_one hs))⟩

theorem statementShape_return {value : Option Expr} {semicolon : Token}
    (hk : keyword.kind = .kwReturn) (hv : Optional w value) (hs : semicolon.kind = .semicolon) :
    StatementShape (keyword :: (w ++ [semicolon])) (.return keyword value) := by
  intro _
  obtain ⟨hshape, hw⟩ := hv.shape
  exact ⟨rfl, ⟨hk, hshape⟩, .cons rfl (hw.append (writes_one hs))⟩

theorem statementShape_while (hk : keyword.kind = .kwWhile) (hl : lparen.kind = .leftParen)
    (hc : Derives .expression w condition) (hr : rparen.kind = .rightParen)
    (hbody : StatementShape wb body) :
    StatementShape (keyword :: lparen :: (w ++ rparen :: wb)) (.while condition body) := by
  intro hfor
  obtain ⟨hcondition, hwc⟩ := derives_iff.mp hc
  obtain ⟨hnone, hshape, hwb⟩ := hbody hfor.afterHead
  exact ⟨rfl, ⟨hcondition, hnone, hshape⟩, .cons hk (.cons hl (hwc.append (.cons hr hwb)))⟩

theorem BlockShape.statement (h : BlockShape w ss) : StatementShape w (.block ss) :=
  fun hfor => ⟨rfl, h hfor⟩

theorem DeclarationsShape.snoc (h : DeclarationsShape w ss) (h' : DeclarationShape w' s) :
    DeclarationsShape (w ++ w') (ss ++ [s]) := by
  intro hfor
  obtain ⟨hss, hw⟩ := h (forFree_append.mp hfor).1
  obtain ⟨hs, hw'⟩ := h' (forFree_append.mp hfor).2
  rw [shapedAll_snoc, flattenAll_snoc]
  exact ⟨⟨hss, hs⟩, hw.append hw'⟩

theorem DeclarationsShape.block (hl : lbrace.kind = .leftBrace) (h : DeclarationsShape w ss)
    (hr : rbrace.kind = .rightBrace) : BlockShape (lbrace :: (w ++ [rbrace])) ss := by
  intro hfor
  obtain ⟨hss, hw⟩ := h (forFree_append.mp (forFree_cons.mp hfor).2).1
  exact ⟨hss, .cons hl (hw.append (writes_one hr))⟩

theorem functionShape {params : List Token} (hn : name.kind = .identifier)
    (hp : ParameterList w params) (h : BlockShape wb ss) :
    FunctionShape (name :: (w ++ wb)) ⟨name, params, ss⟩ := by
  intro hfor
  obtain ⟨hkinds, hlen, hwp⟩ := hp.shape
  obtain ⟨hbody, hwb⟩ := h (forFree_append.mp (forFree_cons.mp hfor).2).2
  exact ⟨⟨hn, hkinds, hlen, hbody⟩, .cons rfl (hwp.append hwb)⟩

theorem FunctionsShape.snoc {ds : List (FunctionDecl Stmt)} {d : FunctionDecl Stmt}
    (h : FunctionsShape w ds) (h' : FunctionShape w' d) : FunctionsShape (w ++ w') (ds ++ [d]) := by
  intro hfor
  obtain ⟨hds, hw⟩ := h (forFree_append.mp hfor).1
  obtain ⟨hd, hw'⟩ := h' (forFree_append.mp hfor).2
  rw [shapedMethods_snoc, flattenMethods_snoc]
  exact ⟨⟨hds, hd⟩, hw.append hw'⟩

theorem declarationShape_class {ws : List Token} {parent : Option Occurrence}
    {methods : List (FunctionDecl Stmt)} (hk : keyword.kind = .kwClass)
    (hn : name.kind = .identifier) (hs : Superclass ws parent) (hl : lbrace.kind = .leftBrace)
    (hm : FunctionsShape w methods) (hr : rbrace.kind = .rightBrace) :
    DeclarationShape (keyword :: name :: (ws ++ lbrace :: (w ++ [rbrace])))
      (.class name parent methods) := by
  intro hfor
  have hmembers := (forFree_append.mp (forFree_cons.mp (forFree_cons.mp hfor).2).2).2
  obtain ⟨hparent, hws⟩ := hs.shape
  obtain ⟨hmethods, hwm⟩ := hm (forFree_append.mp (forFree_cons.mp hmembers).2).1
  exact ⟨⟨hn, hparent, hmethods⟩,
    .cons hk (.cons rfl (hws.append (.cons hl (hwm.append (writes_one hr)))))⟩

theorem FunctionShape.declaration {d : FunctionDecl Stmt} (hk : keyword.kind = .kwFun)
    (h : FunctionShape w d) : DeclarationShape (keyword :: w) (.function d) := by
  intro hfor
  obtain ⟨hshape, hw⟩ := h (forFree_cons.mp hfor).2
  exact ⟨hshape, .cons hk hw⟩

end Shapes

mutual

theorem Declaration.shape : ∀ {w : List Token} {s : Stmt}, Declaration w s → DeclarationShape w s
  | _, _, .classDecl hk hn hs hl hm hr => declarationShape_class hk hn hs hl hm.shape hr
  | _, _, .funDecl hk h => h.shape.declaration hk
  | _, _, .varDecl h => fun _ => h.shape
  | _, _, .statement h => fun hfor => (h.shape hfor).2

/-- **Derived statements have the shape of the grammar and write their tokens.** -/
theorem Declarations.shape : ∀ {w : List Token} {ss : List Stmt}, Declarations w ss →
    DeclarationsShape w ss
  | _, _, .nil => fun _ => ⟨trivial, .nil⟩
  | _, _, .snoc h h' => h.shape.snoc h'.shape

theorem Block.shape : ∀ {w : List Token} {ss : List Stmt}, Block w ss → BlockShape w ss
  | _, _, .mk hl h hr => h.shape.block hl hr

theorem Function.shape : ∀ {w : List Token} {d : FunctionDecl Stmt}, Function w d →
    FunctionShape w d
  | _, _, .mk hn hp h => functionShape hn hp h.shape

theorem Functions.shape : ∀ {w : List Token} {ds : List (FunctionDecl Stmt)}, Functions w ds →
    FunctionsShape w ds
  | _, _, .nil => fun _ => ⟨trivial, .nil⟩
  | _, _, .snoc h h' => h.shape.snoc h'.shape

theorem Statement.shape : ∀ {w : List Token} {s : Stmt}, Statement w s → StatementShape w s
  | _, _, .exprStmt h => statementShape_expression h
  | _, _, .forStmt hk .. => fun hfor => absurd hk (forFree_cons.mp hfor).1
  | _, _, .ifStmt hk hl hc hr hthen => statementShape_if hk hl hc hr hthen.shape
  | _, _, .ifElse hk hl hc hr hthen hk' helse =>
    statementShape_ifElse hk hl hc hr hthen.shape hk' helse.shape
  | _, _, .printStmt hk he hs => statementShape_print hk he hs
  | _, _, .returnStmt hk hv hs => statementShape_return hk hv hs
  | _, _, .whileStmt hk hl hc hr hbody => statementShape_while hk hl hc hr hbody.shape
  | _, _, .block h => h.shape.statement

end

/-- A statement is a declaration. -/
theorem block_of_declarations {w : List Token} {ss : List Stmt}
    (hw : Writes (braced (Stmt.flattenAll ss)) w)
    (hss : ∀ u, Writes (Stmt.flattenAll ss) u → Declarations u ss) : Block w ss := by
  simp only [braced, writes_append, writes_kind, writes_nil] at hw
  obtain ⟨lbrace, _, rfl, hl, u, _, rfl, hu, rbrace, _, rfl, hr, rfl⟩ := hw
  exact .mk hl (hss u hu) hr

theorem declaration_of_statement {w : List Token} {s : Stmt} (h : Statement w s) :
    Declaration w s ∧ (s.declared? = none → Statement w s) :=
  ⟨.statement h, fun _ => h⟩

mutual

/-- **Tokens that a statement of the shape writes derive it.** -/
theorem declaration_of_shape : ∀ (s : Stmt) {w : List Token}, s.Shaped → Writes s.flatten w →
    Declaration w s ∧ (s.declared? = none → Statement w s)
  | .expression e, w, h, hw => by
    simp only [Stmt.flatten, writes_append, writes_kind, writes_nil] at hw
    obtain ⟨u, _, rfl, hu, semicolon, _, rfl, hs, rfl⟩ := hw
    exact declaration_of_statement (.exprStmt (.mk (derives_iff.mpr ⟨h, hu⟩) hs))
  | .print e, w, h, hw => by
    simp only [Stmt.flatten, writes_append, writes_kind, writes_nil] at hw
    obtain ⟨keyword, _, rfl, hk, u, _, rfl, hu, semicolon, _, rfl, hs, rfl⟩ := hw
    exact declaration_of_statement (.printStmt hk (derives_iff.mpr ⟨h, hu⟩) hs)
  | .var name none, w, h, hw => by
    simp only [Stmt.flatten, writes_token, writes_kind, writes_nil] at hw
    obtain ⟨keyword, _, rfl, hk, _, rfl, semicolon, _, rfl, hs, rfl⟩ := hw
    exact ⟨.varDecl (.empty hk h.1 hs), fun hnone => nomatch hnone⟩
  | .var name (some e), w, h, hw => by
    simp only [Stmt.flatten, writes_append, writes_token, writes_kind, writes_nil] at hw
    obtain ⟨keyword, _, rfl, hk, _, rfl, equals, _, rfl, heq, u, _, rfl, hu, semicolon, _, rfl,
      hs, rfl⟩ := hw
    have he := derives_iff.mpr ⟨h.2 e rfl, hu⟩
    exact ⟨.varDecl (.value hk h.1 heq he hs), fun hnone => nomatch hnone⟩
  | .block body, w, h, hw => by
    have hbody := block_of_declarations hw fun u hu => declarations_of_shape body h hu .nil
    exact declaration_of_statement (.block hbody)
  | .ifElse condition thenBranch none, w, h, hw => by
    simp only [Stmt.flatten, writes_append, writes_kind] at hw
    obtain ⟨keyword, _, rfl, hk, lparen, _, rfl, hl, u, _, rfl, hu, rparen, v, rfl, hr, hv⟩ := hw
    have hthen := (declaration_of_shape thenBranch h.2.2 hv).2 h.2.1
    exact declaration_of_statement (.ifStmt hk hl (derives_iff.mpr ⟨h.1, hu⟩) hr hthen)
  | .ifElse condition thenBranch (some elseBranch), w, h, hw => by
    simp only [Stmt.flatten, writes_append, writes_kind] at hw
    obtain ⟨keyword, _, rfl, hk, lparen, _, rfl, hl, u, _, rfl, hu, rparen, _, rfl, hr, v, _, rfl,
      hv, kwElse, v', rfl, hk', hv'⟩ := hw
    have hthen := (declaration_of_shape thenBranch h.2.1.2 hv).2 h.2.1.1
    have helse := (declaration_of_shape elseBranch h.2.2.2 hv').2 h.2.2.1
    exact declaration_of_statement
      (.ifElse hk hl (derives_iff.mpr ⟨h.1, hu⟩) hr hthen hk' helse)
  | .while condition body, w, h, hw => by
    simp only [Stmt.flatten, writes_append, writes_kind] at hw
    obtain ⟨keyword, _, rfl, hk, lparen, _, rfl, hl, u, _, rfl, hu, rparen, v, rfl, hr, hv⟩ := hw
    have hbody := (declaration_of_shape body h.2.2 hv).2 h.2.1
    exact declaration_of_statement (.whileStmt hk hl (derives_iff.mpr ⟨h.1, hu⟩) hr hbody)
  | .function decl, w, h, hw => by
    simp only [Stmt.flatten, writes_kind] at hw
    obtain ⟨keyword, u, rfl, hk, hu⟩ := hw
    exact ⟨.funDecl hk (function_of_shape decl h hu), fun hnone => nomatch hnone⟩
  | .return keyword value, w, h, hw => by
    simp only [Stmt.flatten, writes_append, writes_token, writes_kind, writes_nil] at hw
    obtain ⟨_, rfl, u, _, rfl, hu, semicolon, _, rfl, hs, rfl⟩ := hw
    exact declaration_of_statement (.returnStmt h.1 (optional_of_shape h.2 hu) hs)
  | .class name parent methods, w, h, hw => by
    simp only [Stmt.flatten, writes_append, writes_token, writes_kind, writes_nil] at hw
    obtain ⟨keyword, _, rfl, hk, _, rfl, u, _, rfl, hu, lbrace, _, rfl, hl, v, _, rfl, hv, rbrace,
      _, rfl, hr, rfl⟩ := hw
    have hparent := superclass_of_shape h.2.1 hu
    have hmethods := functions_of_shape methods h.2.2 hv .nil
    exact ⟨.classDecl hk h.1 hparent hl hmethods hr, fun hnone => nomatch hnone⟩

/-- Statements are derived one behind the other. -/
theorem declarations_of_shape : ∀ (ss : List Stmt) {w u : List Token} {earlier : List Stmt},
    Stmt.ShapedAll ss → Writes (Stmt.flattenAll ss) w → Declarations u earlier →
    Declarations (u ++ w) (earlier ++ ss)
  | [], w, u, earlier, _, hw, h => by
    cases writes_nil.mp hw
    simpa using h
  | s :: rest, w, u, earlier, hs, hw, h => by
    simp only [Stmt.flattenAll, writes_append] at hw
    obtain ⟨v, v', rfl, hv, hv'⟩ := hw
    have hmore := declarations_of_shape rest hs.2 hv' (h.snoc (declaration_of_shape s hs.1 hv).1)
    simpa using hmore

theorem function_of_shape : ∀ (d : FunctionDecl Stmt) {w : List Token}, Stmt.ShapedFunction d →
    Writes (Stmt.flattenFunction d) w → Function w d
  | ⟨name, params, body⟩, w, h, hw => by
    obtain ⟨hn, hkinds, hlen, hbody⟩ := h
    obtain ⟨_, rfl, hrest⟩ := writes_token.mp hw
    obtain ⟨u, v, rfl, hu, hv⟩ := writes_append.mp hrest
    have hblock := block_of_declarations hv fun u hu => declarations_of_shape body hbody hu .nil
    exact .mk hn (parameterList_of_shape hkinds hlen hu) hblock

/-- Methods are derived one behind the other. -/
theorem functions_of_shape : ∀ (ds : List (FunctionDecl Stmt)) {w u : List Token}
    {earlier : List (FunctionDecl Stmt)}, Stmt.ShapedMethods ds →
    Writes (Stmt.flattenMethods ds) w → Functions u earlier → Functions (u ++ w) (earlier ++ ds)
  | [], w, u, earlier, _, hw, h => by
    cases writes_nil.mp hw
    simpa using h
  | d :: rest, w, u, earlier, hs, hw, h => by
    simp only [Stmt.flattenMethods, writes_append] at hw
    obtain ⟨v, v', rfl, hv, hv'⟩ := hw
    have hmore := functions_of_shape rest hs.2 hv' (h.snoc (function_of_shape d hs.1 hv))
    simpa using hmore

end

/-- **Statements are derived from the tokens they write**, if they have the
shape of the grammar, and from no others without `for`. -/
theorem declarations_iff {ss : List Stmt} {w : List Token} (hfor : ForFree w) :
    Declarations w ss ↔ Stmt.ShapedAll ss ∧ Writes (Stmt.flattenAll ss) w :=
  ⟨fun h => h.shape hfor, fun h => declarations_of_shape ss h.1 h.2 .nil⟩

/-! ## §6. No tree writes a `for` or an end of input. -/

/-- Whether a token of this kind can stand inside a written tree. -/
def Inner (k : TokenKind) : Prop :=
  k ≠ .eof ∧ k ≠ .kwFor

/-- Whether what is written has inner tokens only. -/
def InnerAll (ms : List Mark) : Prop :=
  ∀ m ∈ ms, ∀ t : Token, m.Shows t → Inner t.kind

theorem inner_of_writes {ms : List Mark} {w : List Token} (h : Writes ms w) (hms : InnerAll ms) :
    ∀ t ∈ w, Inner t.kind := by
  intro t ht
  induction h with
  | nil => exact absurd ht List.not_mem_nil
  | @cons m t' ms w hshow _ ih =>
    rcases List.mem_cons.mp ht with rfl | ht
    · exact hms m List.mem_cons_self t hshow
    · exact ih (fun m' hm' => hms m' (List.mem_cons_of_mem m hm')) ht

@[simp]
theorem innerAll_nil : InnerAll [] :=
  fun _ h => absurd h List.not_mem_nil

@[simp]
theorem innerAll_append (ms ms' : List Mark) :
    InnerAll (ms ++ ms') ↔ InnerAll ms ∧ InnerAll ms' :=
  List.forall_mem_append

@[simp]
theorem innerAll_kind (k : TokenKind) (ms : List Mark) :
    InnerAll (.kind k :: ms) ↔ Inner k ∧ InnerAll ms := by
  refine List.forall_mem_cons.trans (and_congr_left fun _ => ⟨?_, ?_⟩)
  · exact fun h => h ⟨k, "", 0⟩ rfl
  · rintro h t rfl
    exact h

@[simp]
theorem innerAll_token (t : Token) (ms : List Mark) :
    InnerAll (.token t :: ms) ↔ Inner t.kind ∧ InnerAll ms := by
  refine List.forall_mem_cons.trans (and_congr_left fun _ => ⟨?_, ?_⟩)
  · exact fun h => h t rfl
  · rintro h t rfl
    exact h

theorem inner_operator {l : Level} {k : TokenKind} (h : k ∈ l.operators) : Inner k := by
  cases l <;> simp only [Level.operators, List.mem_cons, List.not_mem_nil, or_false] at h <;>
    rcases h with rfl | rfl | rfl | rfl <;> simp [Inner]

theorem inner_literal (v : Literal) : Inner v.tokenKind := by
  match v with
  | .number x | .string s | .bool true | .bool false | .nil => simp [Inner, Literal.tokenKind]

mutual

theorem innerAll_expr : ∀ (e : Expr) {n : Nat}, e.StandsAt n → InnerAll e.flatten
  | .literal v, _, _ => by simpa [Expr.flatten] using inner_literal v
  | .unary operator right, _, h => by
    have hop : Inner operator.kind := by rcases h.2.1 with hk | hk <;> simp [Inner, hk]
    simpa [Expr.flatten] using ⟨hop, innerAll_expr right h.2.2⟩
  | .binary left operator right, _, h => by
    obtain ⟨l, -, hop, -, hl, hr⟩ := h
    simpa [Expr.flatten] using ⟨innerAll_expr left hl, inner_operator hop, innerAll_expr right hr⟩
  | .logical left operator right, _, h => by
    obtain ⟨l, -, hop, -, hl, hr⟩ := h
    simpa [Expr.flatten] using ⟨innerAll_expr left hl, inner_operator hop, innerAll_expr right hr⟩
  | .grouping inner, _, h => by simpa [Expr.flatten, Inner] using innerAll_expr inner h
  | .variable o, _, h => by
    have hk : o.name.kind = .identifier := h
    simp [Expr.flatten, Inner, hk]
  | .assign o value, _, h => by
    simpa [Expr.flatten, Inner, h.2.1] using innerAll_expr value h.2.2
  | .call callee paren arguments, _, h => by
    obtain ⟨-, hc, hp, -, ha⟩ := h
    simpa [Expr.flatten, Inner, hp] using ⟨innerAll_expr callee hc, innerAll_exprs arguments ha⟩
  | .get object name, _, h => by
    simpa [Expr.flatten, Inner, h.2.2] using innerAll_expr object h.2.1
  | .set object name value, _, h => by
    obtain ⟨-, ho, hn, hv⟩ := h
    simpa [Expr.flatten, Inner, hn] using ⟨innerAll_expr object ho, innerAll_expr value hv⟩
  | .super o method, _, h => by simp [Expr.flatten, Inner, h.1, h.2]
  | .this o, _, h => by
    have hk : o.name.kind = .kwThis := h
    simp [Expr.flatten, Inner, hk]

theorem innerAll_exprs : ∀ es : List Expr, Expr.StandAll es → InnerAll (Expr.flattenAll es)
  | [], _ => innerAll_nil
  | e :: rest, h => by
    simpa [Expr.flattenAll] using ⟨innerAll_expr e h.1, innerAll_moreExprs rest h.2⟩

theorem innerAll_moreExprs : ∀ es : List Expr, Expr.StandAll es → InnerAll (Expr.flattenMore es)
  | [], _ => innerAll_nil
  | e :: rest, h => by
    simpa [Expr.flattenMore, Inner] using ⟨innerAll_expr e h.1, innerAll_moreExprs rest h.2⟩

end

theorem innerAll_names (names : List Token) (h : ∀ p ∈ names, p.kind = .identifier) :
    InnerAll (flattenNames names) := by
  induction names with
  | nil => exact innerAll_nil
  | cons name rest ih =>
    have hname := h name List.mem_cons_self
    simpa [flattenNames, Inner, hname] using ih fun p hp => h p (List.mem_cons_of_mem name hp)

theorem innerAll_parameters (params : List Token) (h : ∀ p ∈ params, p.kind = .identifier) :
    InnerAll (flattenParameters params) := by
  cases params with
  | nil => exact innerAll_nil
  | cons name rest =>
    have hname := h name List.mem_cons_self
    have hrest := innerAll_names rest fun p hp => h p (List.mem_cons_of_mem name hp)
    simpa [flattenParameters, Inner, hname] using hrest

theorem innerAll_parent (parent : Option Occurrence)
    (h : ∀ o ∈ parent, o.name.kind = .identifier) : InnerAll (flattenParent parent) := by
  cases parent with
  | none => exact innerAll_nil
  | some o => simp [flattenParent, Inner, h o rfl]

theorem innerAll_value (value : Option Expr) (h : ∀ e ∈ value, e.StandsAt 0) :
    InnerAll (flattenValue value) := by
  cases value with
  | none => exact innerAll_nil
  | some e => exact innerAll_expr e (h e rfl)

mutual

theorem innerAll_stmt : ∀ s : Stmt, s.Shaped → InnerAll s.flatten
  | .expression e, h => by simpa [Stmt.flatten, Inner] using innerAll_expr e h
  | .print e, h => by simpa [Stmt.flatten, Inner] using innerAll_expr e h
  | .var name none, h => by simp [Stmt.flatten, Inner, h.1]
  | .var name (some e), h => by
    simpa [Stmt.flatten, Inner, h.1] using innerAll_expr e (h.2 e rfl)
  | .block body, h => by simpa [Stmt.flatten, braced, Inner] using innerAll_stmts body h
  | .ifElse condition thenBranch none, h => by
    simpa [Stmt.flatten, Inner] using ⟨innerAll_expr condition h.1, innerAll_stmt thenBranch h.2.2⟩
  | .ifElse condition thenBranch (some elseBranch), h => by
    simpa [Stmt.flatten, Inner] using ⟨innerAll_expr condition h.1,
      innerAll_stmt thenBranch h.2.1.2, innerAll_stmt elseBranch h.2.2.2⟩
  | .while condition body, h => by
    simpa [Stmt.flatten, Inner] using ⟨innerAll_expr condition h.1, innerAll_stmt body h.2.2⟩
  | .function decl, h => by simpa [Stmt.flatten, Inner] using innerAll_function decl h
  | .return keyword value, h => by
    simpa [Stmt.flatten, Inner, h.1] using innerAll_value value h.2
  | .class name parent methods, h => by
    simpa [Stmt.flatten, Inner, h.1] using
      ⟨innerAll_parent parent h.2.1, innerAll_functions methods h.2.2⟩

/-- Statements of the shape write no `for` and no end of input. -/
theorem innerAll_stmts : ∀ ss : List Stmt, Stmt.ShapedAll ss → InnerAll (Stmt.flattenAll ss)
  | [], _ => innerAll_nil
  | s :: rest, h => by
    simpa [Stmt.flattenAll] using ⟨innerAll_stmt s h.1, innerAll_stmts rest h.2⟩

theorem innerAll_function : ∀ d : FunctionDecl Stmt, Stmt.ShapedFunction d →
    InnerAll (Stmt.flattenFunction d)
  | ⟨name, params, body⟩, h => by
    obtain ⟨hn, hkinds, -, hbody⟩ := h
    simpa [Stmt.flattenFunction, braced, Inner, hn] using
      ⟨innerAll_parameters params hkinds, innerAll_stmts body hbody⟩

theorem innerAll_functions : ∀ ds : List (FunctionDecl Stmt), Stmt.ShapedMethods ds →
    InnerAll (Stmt.flattenMethods ds)
  | [], _ => innerAll_nil
  | d :: rest, h => by
    simpa [Stmt.flattenMethods] using ⟨innerAll_function d h.1, innerAll_functions rest h.2⟩

end

/-! ## §7. Reading and writing out. -/

/-- Nothing behind the first end of the input is read. -/
theorem program_past_eof (firstId : Nat) {ts : List Token} (rest : List Token) {eof : Token}
    (heof : eof.kind = .eof) (hts : ∀ t ∈ ts, t.kind ≠ .eof) :
    Parse.program firstId (ts ++ eof :: rest) = Parse.program firstId (ts ++ [eof]) := by
  unfold Parse.program
  rw [readAll_append _ _ hts, readAll_append _ _ hts, readAll_eof _ _ heof, readAll_eof _ _ heof]

/-- **Reading and writing out are inverse.**  Tokens without `for` that are read
without a failure are the ones that the read statements write, and these have
the shape of the grammar.  Whatever statements of that shape write, if each
`else` belongs to the innermost `if`, is read without a failure as the same
statements, up to the numbers of occurrences. -/
theorem program_flatten (firstId : Nat) (ts rest : List Token) (eof : Token)
    (heof : eof.kind = .eof) :
    ((∀ t ∈ ts, t.kind ≠ .eof ∧ t.kind ≠ .kwFor) →
        (Parse.program firstId (ts ++ eof :: rest)).failures = [] →
        Stmt.ShapedAll (Parse.program firstId (ts ++ eof :: rest)).statements
          ∧ Writes (Stmt.flattenAll (Parse.program firstId (ts ++ eof :: rest)).statements) ts)
      ∧ ∀ ss : List Stmt, Stmt.ShapedAll ss → Stmt.ElseInnermostAll ss →
          Writes (Stmt.flattenAll ss) ts →
          (Parse.program firstId (ts ++ eof :: rest)).failures = []
            ∧ Stmt.AlikeAll (Parse.program firstId (ts ++ eof :: rest)).statements ss := by
  constructor
  · intro hinner hread
    have hts : ∀ t ∈ ts, t.kind ≠ .eof := fun t ht => (hinner t ht).1
    have hfor : ForFree ts := fun t ht => (hinner t ht).2
    rw [program_past_eof firstId rest heof hts] at hread ⊢
    have hderived := declarations_of_program (derives_program heof hts hread)
    exact (declarations_iff hfor).mp hderived
  · intro ss hshape helse hw
    have hinner := inner_of_writes hw (innerAll_stmts ss hshape)
    have hts : ∀ t ∈ ts, t.kind ≠ .eof := fun t ht => (hinner t ht).1
    have hfor : ForFree ts := fun t ht => (hinner t ht).2
    have hderived := (declarations_iff hfor).mpr ⟨hshape, hw⟩
    rw [program_past_eof firstId rest heof hts]
    exact ⟨hderived.accepted heof hts firstId,
      hderived.statements_alike heof hts firstId hfor helse⟩

/-- `print a - b - a;` is written by what is read from it, and a difference of a
difference is read from it. -/
theorem program_flatten_minus :
    let a : Token := ⟨.identifier, "a", 1⟩
    let b : Token := ⟨.identifier, "b", 1⟩
    let minus : Token := ⟨.minus, "-", 1⟩
    let ts : List Token := [⟨.kwPrint, "print", 1⟩, a, minus, b, minus, a, ⟨.semicolon, ";", 1⟩]
    let read := (Parse.program 0 (ts ++ [⟨.eof, "", 1⟩])).statements
    Writes (Stmt.flattenAll read) ts
      ∧ Stmt.AlikeAll read [.print (.binary (.binary (.variable ⟨7, a⟩) minus (.variable ⟨8, b⟩))
          minus (.variable ⟨9, a⟩))] := by
  intro a b minus ts read
  have h := program_flatten 0 ts [] ⟨.eof, "", 1⟩ rfl
  refine ⟨(h.1 ?_ rfl).2, (h.2 _ ?_ ?_ ?_).2⟩
  · decide
  · have hminus : minus.kind ∈ Level.term.operators := List.mem_cons_self
    have hinner := standsAt_node (.variable ⟨7, a⟩) (.variable ⟨8, b⟩) hminus rfl rfl
    have houter := standsAt_node _ (.variable ⟨9, a⟩) hminus hinner rfl
    exact ⟨houter.looser (Nat.zero_le _), trivial⟩
  · exact ⟨trivial, trivial⟩
  · exact .cons rfl (.cons rfl (.cons rfl (.cons rfl (.cons rfl (.cons rfl (.cons rfl .nil))))))

end Lox.Grammar
