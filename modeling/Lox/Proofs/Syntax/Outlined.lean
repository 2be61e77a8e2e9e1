/-
  Lox.Proofs.Syntax.Outlined
  ──────────────────────────
  **OUTLINES ARE TEXTS OF NESTED LISTS.**

  An outline is written in one go, but it is the text of a nested list of
  words: `Expr.nest` and `Stmt.nest`.  The list can be read if the tree is
  legible, since then all its words are: so equal outlines are outlines of
  equal lists.
-/
import Lox.Proofs.Decimal.Numerals
import Lox.Proofs.Grammar.Legible
import Lox.Proofs.Syntax.Nest

namespace Lox

open Nest (tagged separate textAll)

/-! ## §1. Trees as nested lists. -/

mutual

/-- An expression as words and lists. -/
def Expr.nest : Expr → Nest
  | .literal value => .word value.outline
  | .unary operator right => tagged operator.lexeme [right.nest]
  | .binary left operator right => tagged operator.lexeme [left.nest, right.nest]
  | .logical left operator right => tagged operator.lexeme [left.nest, right.nest]
  | .grouping inner => tagged "group" [inner.nest]
  | .variable occurrence => .word occurrence.name.lexeme
  | .assign target value => tagged "=" [.word target.name.lexeme, value.nest]
  | .call callee _ arguments => tagged "call" (callee.nest :: nestAll arguments)
  | .get object name => tagged "." [object.nest, .word name.lexeme]
  | .set object name value => tagged "=" [tagged "." [object.nest, .word name.lexeme], value.nest]
  | .super _ method => tagged "super" [.word method.lexeme]
  | .this _ => .word "this"

/-- Arguments as words and lists. -/
def Expr.nestAll : List Expr → List Nest
  | [] => []
  | e :: rest => e.nest :: nestAll rest

end

/-- The words of a superclass. -/
def nestParent : Option Occurrence → List Nest
  | none => []
  | some occurrence => [.word "<", .word occurrence.name.lexeme]

mutual

/-- A statement as words and lists. -/
def Stmt.nest : Stmt → Nest
  | .expression e => tagged ";" [e.nest]
  | .print e => tagged "print" [e.nest]
  | .var name none => tagged "var" [.word name.lexeme]
  | .var name (some e) => tagged "var" [.word name.lexeme, e.nest]
  | .block body => tagged "block" (nestAll body)
  | .ifElse condition thenBranch none => tagged "if" [condition.nest, thenBranch.nest]
  | .ifElse condition thenBranch (some elseBranch) =>
      tagged "if" [condition.nest, thenBranch.nest, elseBranch.nest]
  | .while condition body => tagged "while" [condition.nest, body.nest]
  | .function decl => nestFunction "fun" decl
  | .return _ none => tagged "return" []
  | .return _ (some e) => tagged "return" [e.nest]
  | .class name superclass methods =>
      tagged "class" (.word name.lexeme :: (nestParent superclass ++ nestMethods methods))

/-- Statements as lists. -/
def Stmt.nestAll : List Stmt → List Nest
  | [] => []
  | s :: rest => s.nest :: nestAll rest

/-- A function under a tag: its name is followed by the list of its parameters
without a blank. -/
def Stmt.nestFunction (tag : String) : FunctionDecl Stmt → Nest
  | ⟨name, params, body⟩ =>
      .list (.word tag :: .blank :: .word name.lexeme
        :: .list ((params.map fun p => .word p.lexeme).intersperse .blank)
        :: separate (nestAll body))

/-- Methods as lists. -/
def Stmt.nestMethods : List (FunctionDecl Stmt) → List Nest
  | [] => []
  | m :: rest => nestFunction "method" m :: nestMethods rest

end

/-! ## §2. Their texts. -/

theorem Nest.textAll_separate_nil : textAll (separate []) = "" :=
  rfl

theorem Nest.textAll_separate_cons (n : Nest) (parts : List Nest) :
    textAll (separate (n :: parts)) = " " ++ n.text ++ textAll (separate parts) := by
  show textAll (.blank :: n :: separate parts) = _
  rw [textAll, textAll, text, String.append_assoc]

theorem Nest.text_tagged (tag : String) (parts : List Nest) :
    (tagged tag parts).text = "(" ++ tag ++ textAll (separate parts) ++ ")" := by
  rw [tagged, text, textAll, text, ← String.append_assoc]

theorem Nest.text_tagged_one (tag : String) (n : Nest) :
    (tagged tag [n]).text = "(" ++ tag ++ " " ++ n.text ++ ")" := by
  rw [text_tagged, textAll_separate_cons, textAll_separate_nil, String.append_empty,
    ← String.append_assoc]

theorem Nest.text_tagged_two (tag : String) (n m : Nest) :
    (tagged tag [n, m]).text = "(" ++ tag ++ " " ++ n.text ++ " " ++ m.text ++ ")" := by
  simp only [text_tagged, textAll_separate_cons, textAll_separate_nil, String.append_empty,
    ← String.append_assoc]

theorem Nest.text_tagged_three (tag : String) (n m o : Nest) :
    (tagged tag [n, m, o]).text
      = "(" ++ tag ++ " " ++ n.text ++ " " ++ m.text ++ " " ++ o.text ++ ")" := by
  simp only [text_tagged, textAll_separate_cons, textAll_separate_nil, String.append_empty,
    ← String.append_assoc]

/-- Words with blanks between them. -/
theorem Nest.textAll_intersperse (ws : List String) :
    textAll ((ws.map .word).intersperse .blank) = " ".intercalate ws := by
  induction ws with
  | nil => rfl
  | cons w ws ih =>
    cases ws with
    | nil => simp [textAll, text]
    | cons w' ws =>
      simp only [List.map_cons, List.intersperse_cons_cons, textAll, text] at ih ⊢
      rw [ih, String.intercalate_cons_cons, String.append_assoc]

mutual

theorem Expr.text_nest : ∀ e : Expr, e.nest.text = e.outline
  | .literal _ => by rw [nest, outline, Nest.text]
  | .unary operator right => by rw [nest, outline, Nest.text_tagged_one, text_nest right]
  | .binary left operator right => by
    rw [nest, outline, Nest.text_tagged_two, text_nest left, text_nest right]
  | .logical left operator right => by
    rw [nest, outline, Nest.text_tagged_two, text_nest left, text_nest right]
  | .grouping inner => by
    rw [nest, outline, Nest.text_tagged_one, text_nest inner]
    simp only [String.reduceAppend]
  | .variable _ => by rw [nest, outline, Nest.text]
  | .assign target value => by
    rw [nest, outline, Nest.text_tagged_two, Nest.text, text_nest value]
    simp only [String.reduceAppend]
  | .call callee _ arguments => by
    rw [nest, outline, Nest.text_tagged, Nest.textAll_separate_cons, text_nest callee,
      textAll_nest arguments]
    simp only [← String.append_assoc, String.reduceAppend]
  | .get object name => by
    rw [nest, outline, Nest.text_tagged_two, Nest.text, text_nest object]
    simp only [String.reduceAppend]
  | .set object name value => by
    have hclose : ∀ s : String, s ++ ")" ++ " " = s ++ ") " := fun s => String.append_assoc
    rw [nest, outline, Nest.text_tagged_two, Nest.text_tagged_two, Nest.text, text_nest object,
      text_nest value]
    simp only [← String.append_assoc, String.reduceAppend, hclose]
  | .super _ method => by
    rw [nest, outline, Nest.text_tagged_one, Nest.text]
    simp only [String.reduceAppend]
  | .this _ => by rw [nest, outline, Nest.text]

theorem Expr.textAll_nest : ∀ es : List Expr, textAll (separate (nestAll es)) = outlineArguments es
  | [] => by rw [nestAll, outlineArguments, Nest.textAll_separate_nil]
  | e :: rest => by
    rw [nestAll, outlineArguments, Nest.textAll_separate_cons, text_nest e, textAll_nest rest]

end

mutual

/-- **An outline is the text of a nested list.** -/
theorem Stmt.text_nest : ∀ s : Stmt, s.nest.text = s.outline
  | .expression e => by
    rw [nest, outline, Nest.text_tagged_one, Expr.text_nest]
    simp only [String.reduceAppend]
  | .print e => by
    rw [nest, outline, Nest.text_tagged_one, Expr.text_nest]
    simp only [String.reduceAppend]
  | .var name none => by
    rw [nest, outline, Nest.text_tagged_one, Nest.text]
    simp only [String.reduceAppend]
  | .var name (some e) => by
    rw [nest, outline, Nest.text_tagged_two, Nest.text, Expr.text_nest]
    simp only [String.reduceAppend]
  | .block body => by
    rw [nest, outline, Nest.text_tagged, textAll_nest body]
    simp only [String.reduceAppend]
  | .ifElse condition thenBranch none => by
    rw [nest, outline, Nest.text_tagged_two, Expr.text_nest, text_nest thenBranch]
    simp only [String.reduceAppend]
  | .ifElse condition thenBranch (some elseBranch) => by
    rw [nest, outline, Nest.text_tagged_three, Expr.text_nest, text_nest thenBranch,
      text_nest elseBranch]
    simp only [String.reduceAppend]
  | .while condition body => by
    rw [nest, outline, Nest.text_tagged_two, Expr.text_nest, text_nest body]
    simp only [String.reduceAppend]
  | .function decl => by rw [nest, outline, text_nestFunction "fun" decl]
  | .return _ none => by
    rw [nest, outline, Nest.text_tagged, Nest.textAll_separate_nil]
    simp only [String.reduceAppend]
  | .return _ (some e) => by
    rw [nest, outline, Nest.text_tagged_one, Expr.text_nest]
    simp only [String.reduceAppend]
  | .class name none methods => by
    rw [nest, outline.eq_def, nestParent, List.nil_append, Nest.text_tagged,
      Nest.textAll_separate_cons, Nest.text, textAll_nestMethods methods]
    simp only [← String.append_assoc, String.reduceAppend, String.append_empty]
  | .class name (some o) methods => by
    rw [nest, outline.eq_def, nestParent, List.cons_append, List.cons_append, List.nil_append,
      Nest.text_tagged]
    simp only [Nest.textAll_separate_cons, Nest.text, textAll_nestMethods methods,
      ← String.append_assoc, String.reduceAppend]

theorem Stmt.textAll_nest : ∀ ss : List Stmt, textAll (separate (nestAll ss)) = outlineBody ss
  | [] => by rw [nestAll, outlineBody, Nest.textAll_separate_nil]
  | s :: rest => by
    rw [nestAll, outlineBody, Nest.textAll_separate_cons, text_nest s, textAll_nest rest]

theorem Stmt.text_nestFunction (tag : String) : ∀ decl : FunctionDecl Stmt,
    (nestFunction tag decl).text = outlineFunction tag decl
  | ⟨name, params, body⟩ => by
    have hparams := Nest.textAll_intersperse (params.map Token.lexeme)
    rw [List.map_map] at hparams
    simp only [nestFunction, outlineFunction, Nest.text, textAll, textAll_nest body]
    rw [← hparams]
    simp only [← String.append_assoc]
    rfl

theorem Stmt.textAll_nestMethods : ∀ ms : List (FunctionDecl Stmt),
    textAll (separate (nestMethods ms)) = outlineMethods ms
  | [] => by rw [nestMethods, outlineMethods, Nest.textAll_separate_nil]
  | m :: rest => by
    rw [nestMethods, outlineMethods, Nest.textAll_separate_cons, text_nestFunction "method" m,
      textAll_nestMethods rest]

end

/-! ## §3. Which of them can be read. -/

/-- A character that a mark is not. -/
theorem isMark_of_ne {p : Char → Bool} (hp : p ' ' = false ∧ p '(' = false ∧ p ')' = false)
    {c : Char} (h : p c = true) : Nest.isMark c = false := by
  rw [Bool.eq_false_iff]
  intro hmark
  simp only [Nest.isMark, Bool.or_eq_true, beq_iff_eq] at hmark
  obtain ⟨hblank, hl, hr⟩ := hp
  rcases hmark with (rfl | rfl) | rfl
  · exact absurd (hblank.symm.trans h) Bool.false_ne_true
  · exact absurd (hl.symm.trans h) Bool.false_ne_true
  · exact absurd (hr.symm.trans h) Bool.false_ne_true

theorem isMark_of_inWord {c : Char} (h : inWord c = true) : Nest.isMark c = false :=
  isMark_of_ne ⟨by decide, by decide, by decide⟩ h

theorem isMark_of_isDigit {c : Char} (h : isDigit c = true) : Nest.isMark c = false :=
  isMark_of_ne ⟨by decide, by decide, by decide⟩ h

theorem IsNumeral.isWord {s : String} (h : IsNumeral s) : Nest.IsWord s := by
  refine ⟨h.1, fun c hc => ?_⟩
  rcases h.2 c hc with hdigit | rfl
  · exact isMark_of_isDigit hdigit
  · decide

/-- A legible token is a word, unless it is a parenthesis. -/
theorem Token.Legible.isWord {t : Token} (h : t.Legible) (hl : t.kind ≠ .leftParen)
    (hr : t.kind ≠ .rightParen) : Nest.IsWord t.lexeme := by
  obtain ⟨hkind, hlexeme⟩ := h
  unfold Nest.IsWord
  generalize t.lexeme.toList = cs at hlexeme
  generalize t.kind = kind at hlexeme hl hr hkind
  cases hlexeme with
  | symbol hmem =>
    have hall : ∀ p ∈ symbols, p.2 ≠ .leftParen → p.2 ≠ .rightParen →
        p.1 ≠ [] ∧ ∀ c ∈ p.1, Nest.isMark c = false := by
      simp [symbols, Nest.isMark]
    exact hall _ hmem hl hr
  | word hc hcs =>
    refine ⟨List.cons_ne_nil _ _, List.forall_mem_cons.mpr ⟨isMark_of_inWord ?_, ?_⟩⟩
    · rw [inWord, hc, Bool.true_or]
    · exact fun x hx => isMark_of_inWord (hcs x hx)
  | string => exact hkind.elim
  | whole hd hdigits =>
    refine ⟨List.cons_ne_nil _ _, List.forall_mem_cons.mpr ⟨isMark_of_isDigit hd, ?_⟩⟩
    exact fun x hx => isMark_of_isDigit (hdigits x hx)
  | fraction hd hdigits he hfraction =>
    refine ⟨List.cons_ne_nil _ _, List.forall_mem_cons.mpr ⟨isMark_of_isDigit hd, ?_⟩⟩
    refine List.forall_mem_append.mpr ⟨fun x hx => isMark_of_isDigit (hdigits x hx), ?_⟩
    refine List.forall_mem_cons.mpr ⟨by decide, List.forall_mem_cons.mpr ⟨isMark_of_isDigit he, ?_⟩⟩
    exact fun x hx => isMark_of_isDigit (hfraction x hx)

theorem Token.Legible.isWord_name {t : Token} (h : t.Legible) (hk : t.kind = .identifier) :
    Nest.IsWord t.lexeme :=
  h.isWord (by simp [hk]) (by simp [hk])

theorem Token.Legible.isWord_operator {t : Token} {l : Grammar.Level} (h : t.Legible)
    (hk : t.kind ∈ l.operators) : Nest.IsWord t.lexeme := by
  have hne : ∀ k ∈ l.operators, k ≠ .leftParen ∧ k ≠ .rightParen := by
    cases l <;> simp [Grammar.Level.operators]
  exact h.isWord (hne _ hk).1 (hne _ hk).2

theorem Expr.legible_of_flattenMore {es : List Expr} (h : LegibleAll (flattenMore es)) :
    ∀ e ∈ es, LegibleAll e.flatten := by
  induction es with
  | nil => exact fun e he => absurd he List.not_mem_nil
  | cons e rest ih =>
    simp only [flattenMore, legibleAll_kind, legibleAll_append] at h
    exact List.forall_mem_cons.mpr ⟨h.2.1, ih h.2.2⟩

theorem Expr.legible_of_flattenAll {es : List Expr} (h : LegibleAll (flattenAll es)) :
    ∀ e ∈ es, LegibleAll e.flatten := by
  cases es with
  | nil => exact fun e he => absurd he List.not_mem_nil
  | cons e rest =>
    rw [flattenAll, legibleAll_append] at h
    exact List.forall_mem_cons.mpr ⟨h.1, legible_of_flattenMore h.2⟩

theorem legible_of_flattenNames {names : List Token} (h : LegibleAll (flattenNames names)) :
    ∀ p ∈ names, p.Legible := by
  induction names with
  | nil => exact fun p hp => absurd hp List.not_mem_nil
  | cons name rest ih =>
    simp only [flattenNames, legibleAll_kind, legibleAll_token] at h
    exact List.forall_mem_cons.mpr ⟨h.2.1, ih h.2.2⟩

theorem legible_of_flattenParameters {params : List Token}
    (h : LegibleAll (flattenParameters params)) : ∀ p ∈ params, p.Legible := by
  cases params with
  | nil => exact fun p hp => absurd hp List.not_mem_nil
  | cons name rest =>
    rw [flattenParameters, legibleAll_token] at h
    exact List.forall_mem_cons.mpr ⟨h.1, legible_of_flattenNames h.2⟩

theorem Nest.readable_one {tag : String} {n : Nest} (htag : IsWord tag) (hn : n.Readable) :
    (tagged tag [n]).Readable :=
  readable_tagged htag (by simpa using hn)

theorem Nest.readable_two {tag : String} {n m : Nest} (htag : IsWord tag) (hn : n.Readable)
    (hm : m.Readable) : (tagged tag [n, m]).Readable :=
  readable_tagged htag (by simpa using ⟨hn, hm⟩)

theorem Literal.isWord_outline {v : Literal} (h : v.tokenKind.Legible) : Nest.IsWord v.outline := by
  match v, h with
  | .number x, h => exact (isNumeral_render h).isWord
  | .bool true, _ | .bool false, _ | .nil, _ =>
    exact by decide

mutual

theorem Expr.readable_nest : ∀ (e : Expr) {n : Nat}, e.StandsAt n → LegibleAll e.flatten →
    e.nest.Readable
  | .literal v, _, _, hm => Literal.isWord_outline ((legibleAll_kind _ []).mp hm).1
  | .unary operator right, _, h, hm => by
    simp only [flatten, legibleAll_token] at hm
    have hop : Nest.IsWord operator.lexeme := by
      rcases h.2.1 with hk | hk <;> exact hm.1.isWord (by simp [hk]) (by simp [hk])
    exact Nest.readable_one hop (readable_nest right h.2.2 hm.2)
  | .binary left operator right, _, h, hm => by
    obtain ⟨l, -, hop, -, hl, hr⟩ := h
    simp only [flatten, legibleAll_append, legibleAll_token] at hm
    exact Nest.readable_two (hm.2.1.isWord_operator hop) (readable_nest left hl hm.1)
      (readable_nest right hr hm.2.2)
  | .logical left operator right, _, h, hm => by
    obtain ⟨l, -, hop, -, hl, hr⟩ := h
    simp only [flatten, legibleAll_append, legibleAll_token] at hm
    exact Nest.readable_two (hm.2.1.isWord_operator hop) (readable_nest left hl hm.1)
      (readable_nest right hr hm.2.2)
  | .grouping inner, _, h, hm => by
    simp only [flatten, legibleAll_kind, legibleAll_append] at hm
    exact Nest.readable_one (by decide)
      (readable_nest inner h hm.2.1)
  | .variable o, _, h, hm => by
    simp only [flatten, legibleAll_token] at hm
    exact hm.1.isWord_name h
  | .assign o value, _, h, hm => by
    simp only [flatten, legibleAll_token, legibleAll_kind] at hm
    exact Nest.readable_two (by decide) (hm.1.isWord_name h.2.1)
      (readable_nest value h.2.2 hm.2.2)
  | .call callee paren arguments, _, h, hm => by
    obtain ⟨-, hcallee, -, -, harguments⟩ := h
    simp only [flatten, legibleAll_append, legibleAll_kind] at hm
    have hall := readable_nestAll arguments harguments (Expr.legible_of_flattenAll hm.2.2.1)
    exact Nest.readable_tagged (by decide)
      (List.forall_mem_cons.mpr ⟨readable_nest callee hcallee hm.1, hall⟩)
  | .get object name, _, h, hm => by
    simp only [flatten, legibleAll_append, legibleAll_kind, legibleAll_token] at hm
    exact Nest.readable_two (by decide)
      (readable_nest object h.2.1 hm.1) (hm.2.2.1.isWord_name h.2.2)
  | .set object name value, _, h, hm => by
    obtain ⟨-, hobject, hname, hvalue⟩ := h
    simp only [flatten, legibleAll_append, legibleAll_kind, legibleAll_token] at hm
    obtain ⟨hobject', -, hname', -, hvalue'⟩ := hm
    have hproperty : (tagged "." [object.nest, .word name.lexeme]).Readable :=
      Nest.readable_two (by decide) (readable_nest object hobject hobject')
        (hname'.isWord_name hname)
    exact Nest.readable_two (by decide) hproperty
      (readable_nest value hvalue hvalue')
  | .super o method, _, h, hm => by
    simp only [flatten, legibleAll_token, legibleAll_kind] at hm
    exact Nest.readable_one (by decide)
      (hm.2.2.1.isWord_name h.2)
  | .this _, _, _, _ => (by decide : Nest.IsWord "this")

theorem Expr.readable_nestAll : ∀ es : List Expr, StandAll es →
    (∀ e ∈ es, LegibleAll e.flatten) → ∀ n ∈ nestAll es, n.Readable
  | [], _, _ => fun n hn => nomatch hn
  | e :: rest, h, hm => by
    obtain ⟨he, hrest⟩ := List.forall_mem_cons.mp hm
    exact List.forall_mem_cons.mpr ⟨readable_nest e h.1 he, readable_nestAll rest h.2 hrest⟩

end

mutual

/-- **The nested list of a legible program can be read.** -/
theorem Stmt.readable_nest : ∀ s : Stmt, s.Shaped → LegibleAll s.flatten → s.nest.Readable
  | .expression e, h, hm => by
    simp only [flatten, legibleAll_append] at hm
    exact Nest.readable_one (by decide)
      (Expr.readable_nest e h hm.1)
  | .print e, h, hm => by
    simp only [flatten, legibleAll_append, legibleAll_kind] at hm
    exact Nest.readable_one (by decide)
      (Expr.readable_nest e h hm.2.1)
  | .var name none, h, hm => by
    simp only [flatten, legibleAll_token, legibleAll_kind] at hm
    exact Nest.readable_one (by decide)
      (hm.2.1.isWord_name h.1)
  | .var name (some e), h, hm => by
    simp only [flatten, legibleAll_token, legibleAll_kind, legibleAll_append] at hm
    exact Nest.readable_two (by decide)
      (hm.2.1.isWord_name h.1) (Expr.readable_nest e (h.2 e rfl) hm.2.2.2.1)
  | .block body, h, hm => by
    simp only [flatten, braced, legibleAll_kind, legibleAll_append] at hm
    exact Nest.readable_tagged (by decide)
      (readable_nestAll body h hm.2.1)
  | .ifElse condition thenBranch none, h, hm => by
    simp only [flatten, legibleAll_kind, legibleAll_append] at hm
    obtain ⟨-, -, hc, -, ht⟩ := hm
    exact Nest.readable_two (by decide)
      (Expr.readable_nest condition h.1 hc) (readable_nest thenBranch h.2.2 ht)
  | .ifElse condition thenBranch (some elseBranch), h, hm => by
    simp only [flatten, legibleAll_kind, legibleAll_append] at hm
    obtain ⟨-, -, hc, -, ht, -, he⟩ := hm
    have hcondition := Expr.readable_nest condition h.1 hc
    have hthen := readable_nest thenBranch h.2.1.2 ht
    have helse := readable_nest elseBranch h.2.2.2 he
    exact Nest.readable_tagged (by decide)
      (by simpa using ⟨hcondition, hthen, helse⟩)
  | .while condition body, h, hm => by
    simp only [flatten, legibleAll_kind, legibleAll_append] at hm
    obtain ⟨-, -, hc, -, hb⟩ := hm
    exact Nest.readable_two (by decide)
      (Expr.readable_nest condition h.1 hc) (readable_nest body h.2.2 hb)
  | .function decl, h, hm => by
    simp only [flatten, legibleAll_kind] at hm
    exact readable_nestFunction decl (by decide) h hm.2
  | .return keyword none, h, hm =>
    Nest.readable_tagged (by decide) fun n hn => nomatch hn
  | .return keyword (some e), h, hm => by
    simp only [flatten, flattenValue, legibleAll_token, legibleAll_append] at hm
    exact Nest.readable_one (by decide)
      (Expr.readable_nest e (h.2 e rfl) hm.2.1)
  | .class name superclass methods, h, hm => by
    simp only [flatten, legibleAll_kind, legibleAll_token, legibleAll_append] at hm
    obtain ⟨-, hname, hparent, -, hmethods, -⟩ := hm
    have hnames : ∀ n ∈ nestParent superclass, n.Readable := by
      cases superclass with
      | none => exact fun n hn => nomatch hn
      | some o =>
        simp only [flattenParent, legibleAll_kind, legibleAll_token] at hparent
        have hless : Nest.IsWord "<" := by decide
        have ho := hparent.2.1.isWord_name (h.2.1 o rfl)
        simpa [nestParent] using ⟨hless, ho⟩
    have hall := readable_nestMethods methods h.2.2 hmethods
    exact Nest.readable_tagged (by decide)
      (List.forall_mem_cons.mpr ⟨hname.isWord_name h.1, List.forall_mem_append.mpr ⟨hnames, hall⟩⟩)

theorem Stmt.readable_nestAll : ∀ ss : List Stmt, ShapedAll ss → LegibleAll (flattenAll ss) →
    ∀ n ∈ nestAll ss, n.Readable
  | [], _, _ => fun n hn => nomatch hn
  | s :: rest, h, hm => by
    simp only [flattenAll, legibleAll_append] at hm
    exact List.forall_mem_cons.mpr ⟨readable_nest s h.1 hm.1, readable_nestAll rest h.2 hm.2⟩

theorem Stmt.readable_nestFunction : ∀ (decl : FunctionDecl Stmt) {tag : String},
    Nest.IsWord tag → ShapedFunction decl → LegibleAll (flattenFunction decl) →
    (nestFunction tag decl).Readable
  | ⟨name, params, body⟩, tag, htag, h, hm => by
    obtain ⟨hname, hkinds, -, hbody⟩ := h
    simp only [flattenFunction, braced, legibleAll_token, legibleAll_kind, legibleAll_append] at hm
    obtain ⟨hname', ⟨-, hparams, -⟩, -, hbody', -⟩ := hm
    have hwords : ∀ w ∈ params.map Token.lexeme, Nest.IsWord w := by
      intro w hw
      obtain ⟨p, hp, rfl⟩ := List.mem_map.mp hw
      exact (legible_of_flattenParameters hparams p hp).isWord_name (hkinds p hp)
    have hlist := Nest.readableAll_intersperse hwords
    rw [List.map_map] at hlist
    have hall := readable_nestAll body hbody hbody'
    refine ⟨htag, fun _ m hm => ?_, trivial, nofun, hname'.isWord_name hname, fun _ m hm => ?_,
      hlist, nofun, Nest.readableAll_separate hall⟩
    · cases hm
      rfl
    · cases hm
      rfl

theorem Stmt.readable_nestMethods : ∀ ds : List (FunctionDecl Stmt), ShapedMethods ds →
    LegibleAll (flattenMethods ds) → ∀ n ∈ nestMethods ds, n.Readable
  | [], _, _ => fun n hn => nomatch hn
  | d :: rest, h, hm => by
    simp only [flattenMethods, legibleAll_append] at hm
    have hfirst : (nestFunction "method" d).Readable :=
      readable_nestFunction d (by decide) h.1 hm.1
    exact List.forall_mem_cons.mpr ⟨hfirst, readable_nestMethods rest h.2 hm.2⟩

end

end Lox
