/-
  Lox.Proofs.Syntax.Reread
  ────────────────────────
  **OUTLINES ARE READ BACK.**

  A reader of nested lists that knows how numbers are written finds the tree
  of a legible program again, with every number of an occurrence and every
  line forgotten (`Stmt.stmt_nest`).  Each form has its own head, or its own
  parts: what stands in front is a keyword, a symbol or a name, and a list of
  two parts behind `-` is not a list of one.
-/
import Lox.Proofs.Syntax.Outlined
import Lox.Proofs.Syntax.Relabel

namespace Lox

open Nest (tagged separate)

/-! ## §1. Words as tokens. -/

/-- Without lines, and without numbers of occurrences. -/
def Relabel.bare : Relabel :=
  ⟨Token.reline fun _ => 0, fun _ => 0, fun _ => rfl⟩

/-- The kind of the token that a word spells. -/
def TokenKind.spelledBy (w : String) : TokenKind :=
  match w.toList with
  | [] => .eof
  | c :: cs =>
      match (cut c cs).1 with
      | .token kind _ => kind
      | _ => .eof

/-- The token that a word spells, on no line. -/
def Token.spelledBy (w : String) : Token :=
  ⟨.spelledBy w, w, 0⟩

theorem TokenKind.spelledBy_of_lexeme {kind : TokenKind} {w : String} (h : Lexeme kind w.toList) :
    spelledBy w = kind := by
  obtain ⟨c, cs, hlist, hcut⟩ := h.cut_alone
  unfold spelledBy
  rw [hlist]
  dsimp only
  rw [hcut]

theorem Token.Legible.kind_eq {t : Token} (h : t.Legible) :
    TokenKind.spelledBy t.lexeme = t.kind :=
  TokenKind.spelledBy_of_lexeme h.2

/-- **A legible token is spelled by its lexeme.** -/
theorem Token.Legible.relabel_bare {t : Token} (h : t.Legible) :
    t.relabel .bare = .spelledBy t.lexeme := by
  unfold Token.spelledBy
  rw [h.kind_eq]
  rfl

/-- The tokens that are always spelled alike. -/
def spellings : List (String × TokenKind) :=
  symbols.map (fun p => (String.ofList p.1, p.2)) ++ TokenKind.keywords

theorem Token.Legible.mem_spellings {t : Token} (h : t.Legible) (hname : t.kind ≠ .identifier)
    (hnumber : ∀ x, t.kind ≠ .number x) : (t.lexeme, t.kind) ∈ spellings := by
  obtain ⟨hkind, hlexeme⟩ := h
  suffices hlist : (String.ofList t.lexeme.toList, t.kind) ∈ spellings by
    rwa [String.ofList_toList] at hlist
  generalize t.lexeme.toList = cs at hlexeme
  generalize t.kind = kind at hkind hlexeme hname hnumber
  cases hlexeme with
  | symbol hmem => exact List.mem_append_left _ (List.mem_map.mpr ⟨_, hmem, rfl⟩)
  | @word c cs _ _ =>
    refine List.mem_append_right _ ?_
    unfold TokenKind.ofWord at hname ⊢
    cases hlookup : TokenKind.keywords.lookup (String.ofList (c :: cs)) with
    | none =>
      rw [hlookup] at hname
      exact absurd rfl hname
    | some kind => exact mem_of_lookup hlookup
  | string => exact hkind.elim
  | whole => exact absurd rfl (hnumber _)
  | fraction => exact absurd rfl (hnumber _)

/-- A token that is always spelled alike is spelled so. -/
theorem Token.Legible.lexeme_eq {t : Token} {k : TokenKind} {w : String} (h : t.Legible)
    (hk : t.kind = k) (hw : ∀ p ∈ spellings, p.2 = k → p.1 = w) (hname : k ≠ .identifier)
    (hnumber : ∀ x, k ≠ .number x) : t.lexeme = w := by
  subst hk
  exact hw _ (h.mem_spellings hname hnumber) rfl

/-! ## §2. A reader. -/

section Reader

variable (number : String → Float)

/-- The expression that a word is. -/
def Expr.ofWord (w : String) : Expr :=
  match TokenKind.spelledBy w with
  | .kwTrue => .literal (.bool true)
  | .kwFalse => .literal (.bool false)
  | .kwNil => .literal .nil
  | .kwThis => .this ⟨0, .spelledBy w⟩
  | .identifier => .variable ⟨0, .spelledBy w⟩
  | _ => .literal (.number (number w))

/-- The expression that a list is, from its first word and its other parts. -/
def Expr.ofParts (tag : String) (parts : List Expr) : Expr :=
  match TokenKind.spelledBy tag, parts with
  | .kwSuper, [.variable method] => .super ⟨0, .spelledBy tag⟩ method.name
  | .dot, [object, .variable name] => .get object name.name
  | .equal, [.variable target, value] => .assign target value
  | .equal, [.get object name, value] => .set object name value
  | .identifier, e :: rest =>
      if tag = "group" then .grouping e else .call e (.spelledBy ")") rest
  | .kwAnd, [left, right] => .logical left (.spelledBy tag) right
  | .kwOr, [left, right] => .logical left (.spelledBy tag) right
  | _, [right] => .unary (.spelledBy tag) right
  | _, [left, right] => .binary left (.spelledBy tag) right
  | _, _ => .literal .nil

mutual

/-- The expression that a nested list is. -/
def Nest.expr : Nest → Expr
  | .word w => .ofWord number w
  | .list (.word tag :: rest) => .ofParts tag (exprs rest)
  | _ => .literal .nil

/-- The expressions behind blanks. -/
def Nest.exprs : List Nest → List Expr
  | .blank :: n :: rest => n.expr :: exprs rest
  | _ => []

end

/-- The words of a list as tokens. -/
def Nest.names : List Nest → List Token
  | [] => []
  | .word w :: rest => .spelledBy w :: names rest
  | _ :: rest => names rest

/-- The statement that a list is, from its first word and its other parts, each
read as an expression and as a statement. -/
def Stmt.ofParts (tag : String) (es : List Expr) (ss : List Stmt) : Stmt :=
  match TokenKind.spelledBy tag, es, ss with
  | .semicolon, [e], _ => .expression e
  | .kwPrint, [e], _ => .print e
  | .kwVar, [.variable name], _ => .var name.name none
  | .kwVar, [.variable name, e], _ => .var name.name (some e)
  | .kwIf, condition :: _, [_, thenBranch] => .ifElse condition thenBranch none
  | .kwIf, condition :: _, [_, thenBranch, elseBranch] =>
      .ifElse condition thenBranch (some elseBranch)
  | .kwWhile, condition :: _, [_, body] => .while condition body
  | .kwReturn, [], _ => .return (.spelledBy tag) none
  | .kwReturn, [e], _ => .return (.spelledBy tag) (some e)
  | _, _, _ => .block ss

/-- A class from the words behind its first one, and its methods. -/
def Stmt.ofNames (names : List Token) (methods : List (FunctionDecl Stmt)) : Stmt :=
  match names with
  | [name] => .class name none methods
  | [name, _, superclass] => .class name (some ⟨0, superclass⟩) methods
  | _ => .block []

mutual

/-- The statement that a nested list is. -/
def Nest.stmt : Nest → Stmt
  | .list (.word tag :: rest) =>
      match TokenKind.spelledBy tag with
      | .kwFun => .function (function rest)
      | .kwClass => .ofNames (names rest) (methods rest)
      | _ => .ofParts tag (exprs number rest) (stmts rest)
  | _ => .block []

/-- The statements behind blanks. -/
def Nest.stmts : List Nest → List Stmt
  | .blank :: n :: rest => n.stmt :: stmts rest
  | _ => []

/-- A function from what is behind its first word. -/
def Nest.function : List Nest → FunctionDecl Stmt
  | .blank :: .word name :: .list params :: body => ⟨.spelledBy name, names params, stmts body⟩
  | _ => ⟨.spelledBy "", [], []⟩

/-- The lists behind blanks as functions. -/
def Nest.methods : List Nest → List (FunctionDecl Stmt)
  | .blank :: .list (.word _ :: method) :: rest => function method :: methods rest
  | .blank :: _ :: rest => methods rest
  | _ => []

end

/-! ## §3. Lists with a word in front. -/

theorem Nest.exprs_separate (parts : List Nest) :
    exprs number (separate parts) = parts.map (expr number) := by
  induction parts with
  | nil => rfl
  | cons n parts ih => exact congrArg (n.expr number :: ·) ih

theorem Nest.stmts_separate (parts : List Nest) :
    stmts number (separate parts) = parts.map (stmt number) := by
  induction parts with
  | nil => rfl
  | cons n parts ih => exact congrArg (n.stmt number :: ·) ih

theorem Nest.expr_tagged (tag : String) (parts : List Nest) :
    (tagged tag parts).expr number = .ofParts tag (parts.map (expr number)) :=
  congrArg (Expr.ofParts tag) (exprs_separate number parts)

theorem Nest.stmt_tagged {tag : String} (hfun : TokenKind.spelledBy tag ≠ .kwFun)
    (hclass : TokenKind.spelledBy tag ≠ .kwClass) (parts : List Nest) :
    (tagged tag parts).stmt number
      = .ofParts tag (parts.map (expr number)) (parts.map (stmt number)) := by
  rw [tagged, stmt]
  split
  · next h => exact absurd h hfun
  · next h => exact absurd h hclass
  · rw [exprs_separate, stmts_separate]

theorem Nest.names_intersperse (ws : List String) :
    names ((ws.map .word).intersperse .blank) = ws.map .spelledBy := by
  induction ws with
  | nil => rfl
  | cons w ws ih =>
    cases ws with
    | nil => rfl
    | cons w' ws => exact congrArg (Token.spelledBy w :: ·) ih

/-- Methods are lists. -/
theorem Nest.names_nestMethods (ds : List (FunctionDecl Stmt)) :
    names (separate (Stmt.nestMethods ds)) = [] := by
  induction ds with
  | nil => rw [Stmt.nestMethods]; rfl
  | cons d ds ih =>
    rw [Stmt.nestMethods]
    obtain ⟨name, params, body⟩ := d
    rw [Stmt.nestFunction]
    exact ih

/-! ## §4. Expressions. -/

theorem cutNumber_number (c : Char) (cs : List Char) :
    ∃ x lexeme, (cutNumber c cs).1 = .token (.number x) lexeme := by
  unfold cutNumber
  dsimp only
  split
  · split
    · exact ⟨_, _, rfl⟩
    · exact ⟨_, _, rfl⟩
  · exact ⟨_, _, rfl⟩

/-- A numeral is no keyword and no name. -/
theorem Expr.ofWord_numeral {s : String} (h : IsNumeral s) :
    ofWord number s = .literal (.number (number s)) := by
  have hkind : TokenKind.spelledBy s = .dot ∨ ∃ x, TokenKind.spelledBy s = .number x := by
    obtain ⟨c, cs, hs⟩ := List.exists_cons_of_ne_nil h.1
    unfold TokenKind.spelledBy
    rw [hs]
    dsimp only
    rcases h.2 c (hs ▸ List.mem_cons_self) with hdigit | rfl
    · obtain ⟨x, lexeme, hnumber⟩ := cutNumber_number c cs
      rw [cut_of_isDigit hdigit, hnumber]
      exact .inr ⟨x, rfl⟩
    · exact .inl rfl
  unfold ofWord
  rcases hkind with hkind | ⟨x, hkind⟩ <;> rw [hkind]

theorem Expr.ofWord_name {t : Token} (h : t.Legible) (hk : t.kind = .identifier) :
    ofWord number t.lexeme = .variable ⟨0, t.relabel .bare⟩ := by
  unfold ofWord
  rw [h.kind_eq, hk, h.relabel_bare]

theorem Expr.ofParts_unary {t : Token} (h : t.Legible) (hk : t.kind = .bang ∨ t.kind = .minus)
    (right : Expr) : ofParts t.lexeme [right] = .unary (t.relabel .bare) right := by
  unfold ofParts
  rw [h.kind_eq, h.relabel_bare]
  rcases hk with hk | hk <;> rw [hk]

/-- **An operator between two operands** makes the tree of its level. -/
theorem Expr.ofParts_operator {t : Token} {l : Grammar.Level} (h : t.Legible)
    (hk : t.kind ∈ l.operators) (left right : Expr) :
    ofParts t.lexeme [left, right] = l.node left (t.relabel .bare) right := by
  unfold ofParts
  rw [h.kind_eq, h.relabel_bare]
  generalize t.kind = kind at hk
  cases l <;>
    simp only [Grammar.Level.operators, List.mem_cons, List.not_mem_nil, or_false] at hk
  case logicOr | logicAnd => rw [hk]; rfl
  case equality | term | factor => rcases hk with rfl | rfl <;> rfl
  case comparison => rcases hk with rfl | rfl | rfl | rfl <;> rfl

/-- A way to read numerals that finds every number again. -/
def ReadsNumerals (number : String → Float) : Prop :=
  ∀ x, Decimal.Plain x → number (Literal.numberLayout.render x) = x

variable {number}

theorem Literal.ofWord_outline (hnumber : ReadsNumerals number) {v : Literal}
    (h : v.tokenKind.Legible) : Expr.ofWord number v.outline = .literal v := by
  match v, h with
  | .number x, h =>
    rw [outline, Expr.ofWord_numeral number (isNumeral_render h), hnumber x h]
  | .bool true, _ | .bool false, _ | .nil, _ => rfl

mutual

/-- **An expression is found again.** -/
theorem Expr.expr_nest (hnumber : ReadsNumerals number) : ∀ (e : Expr) {n : Nat}, e.StandsAt n →
    LegibleAll e.flatten → e.nest.expr number = e.relabel .bare
  | .literal v, _, _, hm => Literal.ofWord_outline hnumber ((legibleAll_kind _ []).mp hm).1
  | .unary operator right, _, h, hm => by
    simp only [flatten, legibleAll_token] at hm
    rw [nest, Nest.expr_tagged, List.map_cons, List.map_nil, ofParts_unary hm.1 h.2.1,
      expr_nest hnumber right h.2.2 hm.2, relabel]
  | .binary left operator right, _, h, hm => by
    obtain ⟨l, -, hop, hnode, hl, hr⟩ := h
    simp only [flatten, legibleAll_append, legibleAll_token] at hm
    rw [nest, Nest.expr_tagged, List.map_cons, List.map_cons, List.map_nil,
      ofParts_operator hm.2.1 hop, hnode, expr_nest hnumber left hl hm.1,
      expr_nest hnumber right hr hm.2.2, relabel]
  | .logical left operator right, _, h, hm => by
    obtain ⟨l, -, hop, hnode, hl, hr⟩ := h
    simp only [flatten, legibleAll_append, legibleAll_token] at hm
    rw [nest, Nest.expr_tagged, List.map_cons, List.map_cons, List.map_nil,
      ofParts_operator hm.2.1 hop, hnode, expr_nest hnumber left hl hm.1,
      expr_nest hnumber right hr hm.2.2, relabel]
  | .grouping inner, _, h, hm => by
    simp only [flatten, legibleAll_kind, legibleAll_append] at hm
    rw [nest, Nest.expr_tagged, List.map_cons, List.map_nil, expr_nest hnumber inner h hm.2.1,
      relabel]
    rfl
  | .variable o, _, h, hm => by
    simp only [flatten, legibleAll_token] at hm
    exact ofWord_name number hm.1 h
  | .assign o value, _, h, hm => by
    simp only [flatten, legibleAll_token, legibleAll_kind] at hm
    rw [nest, Nest.expr_tagged, List.map_cons, List.map_cons, List.map_nil, Nest.expr,
      ofWord_name number hm.1 h.2.1, expr_nest hnumber value h.2.2 hm.2.2, relabel]
    rfl
  | .call callee paren arguments, _, h, hm => by
    obtain ⟨-, hcallee, hparen, -, harguments⟩ := h
    simp only [flatten, legibleAll_append, legibleAll_kind, legibleAll_token] at hm
    obtain ⟨hcallee', -, harguments', hparen', -⟩ := hm
    have hlexeme : paren.lexeme = ")" :=
      hparen'.lexeme_eq hparen (by decide) (by decide) nofun
    rw [nest, Nest.expr_tagged, List.map_cons, expr_nest hnumber callee hcallee hcallee',
      map_expr_nest hnumber arguments harguments (legible_of_flattenAll harguments'), relabel,
      hparen'.relabel_bare, hlexeme]
    rfl
  | .get object name, _, h, hm => by
    simp only [flatten, legibleAll_append, legibleAll_kind, legibleAll_token] at hm
    rw [nest, Nest.expr_tagged, List.map_cons, List.map_cons, List.map_nil, Nest.expr,
      ofWord_name number hm.2.2.1 h.2.2, expr_nest hnumber object h.2.1 hm.1, relabel]
    rfl
  | .set object name value, _, h, hm => by
    obtain ⟨-, hobject, hname, hvalue⟩ := h
    simp only [flatten, legibleAll_append, legibleAll_kind, legibleAll_token] at hm
    obtain ⟨hobject', -, hname', -, hvalue'⟩ := hm
    rw [nest, Nest.expr_tagged, List.map_cons, List.map_cons, List.map_nil, Nest.expr_tagged,
      List.map_cons, List.map_cons, List.map_nil, Nest.expr, ofWord_name number hname' hname,
      expr_nest hnumber object hobject hobject', expr_nest hnumber value hvalue hvalue', relabel]
    rfl
  | .super o method, _, h, hm => by
    simp only [flatten, legibleAll_token, legibleAll_kind] at hm
    have hlexeme : o.name.lexeme = "super" := hm.1.lexeme_eq h.1 (by decide) (by decide) nofun
    rw [nest, Nest.expr_tagged, List.map_cons, List.map_nil, Nest.expr,
      ofWord_name number hm.2.2.1 h.2, relabel, Occurrence.relabel, hm.1.relabel_bare, hlexeme]
    rfl
  | .this o, _, h, hm => by
    simp only [flatten, legibleAll_token] at hm
    have hlexeme : o.name.lexeme = "this" := hm.1.lexeme_eq h (by decide) (by decide) nofun
    rw [relabel, Occurrence.relabel, hm.1.relabel_bare, hlexeme]
    rfl

theorem Expr.map_expr_nest (hnumber : ReadsNumerals number) : ∀ es : List Expr, StandAll es →
    (∀ e ∈ es, LegibleAll e.flatten) → (nestAll es).map (Nest.expr number) = relabelAll .bare es
  | [], _, _ => rfl
  | e :: rest, h, hm => by
    obtain ⟨he, hrest⟩ := List.forall_mem_cons.mp hm
    rw [nestAll, List.map_cons, relabelAll, expr_nest hnumber e h.1 he,
      map_expr_nest hnumber rest h.2 hrest]

end

/-! ## §5. Statements. -/

mutual

/-- **A statement is found again.** -/
theorem Stmt.stmt_nest (hnumber : ReadsNumerals number) : ∀ s : Stmt, s.Shaped →
    LegibleAll s.flatten → s.nest.stmt number = s.relabel .bare
  | .expression e, h, hm => by
    simp only [flatten, legibleAll_append] at hm
    rw [nest, Nest.stmt_tagged number (by decide) (by decide), List.map_cons, List.map_nil,
      Expr.expr_nest hnumber e h hm.1, relabel]
    rfl
  | .print e, h, hm => by
    simp only [flatten, legibleAll_append, legibleAll_kind] at hm
    rw [nest, Nest.stmt_tagged number (by decide) (by decide), List.map_cons, List.map_nil,
      Expr.expr_nest hnumber e h hm.2.1, relabel]
    rfl
  | .var name none, h, hm => by
    simp only [flatten, legibleAll_token, legibleAll_kind] at hm
    rw [nest, Nest.stmt_tagged number (by decide) (by decide), List.map_cons, List.map_nil,
      Nest.expr, Expr.ofWord_name number hm.2.1 h.1, relabel]
    rfl
  | .var name (some e), h, hm => by
    simp only [flatten, legibleAll_token, legibleAll_kind, legibleAll_append] at hm
    rw [nest, Nest.stmt_tagged number (by decide) (by decide), List.map_cons, List.map_cons,
      List.map_nil, Nest.expr, Expr.ofWord_name number hm.2.1 h.1,
      Expr.expr_nest hnumber e (h.2 e rfl) hm.2.2.2.1, relabel]
    rfl
  | .block body, h, hm => by
    simp only [flatten, braced, legibleAll_kind, legibleAll_append] at hm
    rw [nest, Nest.stmt_tagged number (by decide) (by decide),
      map_stmt_nest hnumber body h hm.2.1, relabel]
    rfl
  | .ifElse condition thenBranch none, h, hm => by
    simp only [flatten, legibleAll_kind, legibleAll_append] at hm
    obtain ⟨-, -, hc, -, ht⟩ := hm
    rw [nest, Nest.stmt_tagged number (by decide) (by decide)]
    simp only [List.map_cons, List.map_nil, Expr.expr_nest hnumber condition h.1 hc,
      stmt_nest hnumber thenBranch h.2.2 ht]
    rw [relabel]
    rfl
  | .ifElse condition thenBranch (some elseBranch), h, hm => by
    simp only [flatten, legibleAll_kind, legibleAll_append] at hm
    obtain ⟨-, -, hc, -, ht, -, he⟩ := hm
    rw [nest, Nest.stmt_tagged number (by decide) (by decide)]
    simp only [List.map_cons, List.map_nil, Expr.expr_nest hnumber condition h.1 hc,
      stmt_nest hnumber thenBranch h.2.1.2 ht, stmt_nest hnumber elseBranch h.2.2.2 he]
    rw [relabel]
    rfl
  | .while condition body, h, hm => by
    simp only [flatten, legibleAll_kind, legibleAll_append] at hm
    obtain ⟨-, -, hc, -, hb⟩ := hm
    rw [nest, Nest.stmt_tagged number (by decide) (by decide)]
    simp only [List.map_cons, List.map_nil, Expr.expr_nest hnumber condition h.1 hc,
      stmt_nest hnumber body h.2.2 hb]
    rw [relabel]
    rfl
  | .function decl, h, hm => by
    simp only [flatten, legibleAll_kind] at hm
    obtain ⟨parts, hparts, hread⟩ := function_nest hnumber "fun" decl h hm.2
    rw [nest, hparts, relabel, ← hread]
    rfl
  | .return keyword none, h, hm => by
    simp only [flatten, legibleAll_token] at hm
    have hlexeme : keyword.lexeme = "return" :=
      hm.1.lexeme_eq h.1 (by decide) (by decide) nofun
    rw [nest, relabel, hm.1.relabel_bare, hlexeme]
    rfl
  | .return keyword (some e), h, hm => by
    simp only [flatten, flattenValue, legibleAll_token, legibleAll_append] at hm
    have hlexeme : keyword.lexeme = "return" :=
      hm.1.lexeme_eq h.1 (by decide) (by decide) nofun
    rw [nest, Nest.stmt_tagged number (by decide) (by decide), List.map_cons, List.map_nil,
      Expr.expr_nest hnumber e (h.2 e rfl) hm.2.1, relabel, hm.1.relabel_bare, hlexeme]
    rfl
  | .class name superclass methods, h, hm => by
    simp only [flatten, legibleAll_kind, legibleAll_token, legibleAll_append] at hm
    obtain ⟨-, hname, hparent, -, hmethods, -⟩ := hm
    have hread := methods_nest hnumber methods h.2.2 hmethods
    have hnone := Nest.names_nestMethods methods
    rw [relabel, ← hread, hname.relabel_bare]
    -- the words behind the head are one name, or two names with a sign between them
    cases superclass with
    | none =>
      rw [nest, nestParent, List.nil_append]
      show Stmt.ofNames (.spelledBy name.lexeme :: Nest.names (separate (nestMethods methods)))
        (Nest.methods number (separate (nestMethods methods))) = _
      rw [hnone]
      rfl
    | some o =>
      simp only [flattenParent, legibleAll_kind, legibleAll_token] at hparent
      rw [Option.map_some, Occurrence.relabel, hparent.2.1.relabel_bare, nest, nestParent]
      show Stmt.ofNames (.spelledBy name.lexeme :: .spelledBy "<" :: .spelledBy o.name.lexeme
        :: Nest.names (separate (nestMethods methods)))
        (Nest.methods number (separate (nestMethods methods))) = _
      rw [hnone]
      rfl

theorem Stmt.map_stmt_nest (hnumber : ReadsNumerals number) : ∀ ss : List Stmt,
    ShapedAll ss → LegibleAll (flattenAll ss) →
    (nestAll ss).map (Nest.stmt number) = relabelAll .bare ss
  | [], _, _ => rfl
  | s :: rest, h, hm => by
    simp only [flattenAll, legibleAll_append] at hm
    rw [nestAll, List.map_cons, relabelAll, stmt_nest hnumber s h.1 hm.1,
      map_stmt_nest hnumber rest h.2 hm.2]

/-- What is behind the tag of a function. -/
theorem Stmt.function_nest (hnumber : ReadsNumerals number) (tag : String) :
    ∀ decl : FunctionDecl Stmt, ShapedFunction decl → LegibleAll (flattenFunction decl) →
    ∃ parts, nestFunction tag decl = .list (.word tag :: parts)
      ∧ Nest.function number parts = relabelFunction .bare decl
  | ⟨name, params, body⟩, h, hm => by
    simp only [flattenFunction, braced, legibleAll_token, legibleAll_kind, legibleAll_append] at hm
    obtain ⟨hname, ⟨-, hparams, -⟩, -, hbody, -⟩ := hm
    refine ⟨_, rfl, ?_⟩
    have hnames := Nest.names_intersperse (params.map Token.lexeme)
    rw [List.map_map, List.map_map] at hnames
    have hparams' : params.map (Token.spelledBy ∘ Token.lexeme)
        = params.map (Token.relabel .bare) :=
      List.map_congr_left fun p hp =>
        (legible_of_flattenParameters hparams p hp).relabel_bare.symm
    rw [Nest.function, Nest.stmts_separate, map_stmt_nest hnumber body h.2.2.2 hbody,
      relabelFunction, hname.relabel_bare, ← hparams', ← hnames]
    rfl

theorem Stmt.methods_nest (hnumber : ReadsNumerals number) : ∀ ds : List (FunctionDecl Stmt),
    ShapedMethods ds → LegibleAll (flattenMethods ds) →
    Nest.methods number (separate (nestMethods ds)) = relabelMethods .bare ds
  | [], _, _ => rfl
  | d :: rest, h, hm => by
    simp only [flattenMethods, legibleAll_append] at hm
    obtain ⟨parts, hparts, hread⟩ := function_nest hnumber "method" d h.1 hm.1
    rw [relabelMethods, ← hread, ← methods_nest hnumber rest h.2 hm.2, nestMethods, hparts]
    rfl

end

end Reader

end Lox
