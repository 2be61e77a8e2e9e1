/-
  Lox.Proofs.Grammar.Legible
  ──────────────────────────
  **PROGRAMS WITHOUT STRINGS.**

  A string literal can be spelled like anything else, and every infinite
  number is spelled alike.  Tokens are legible if they are neither.  What is
  said of a derived program in `Roundtrip` needs that it has no `for`; that its
  tree has the shape of the grammar, and that it keeps only legible tokens, is
  true of every derived program (`Declarations.legible`): a loop with three
  clauses becomes a tree of that shape.
-/
import Lox.Proofs.Decimal.Patterns
import Lox.Proofs.Grammar.Roundtrip
import Lox.Proofs.Token.Partition

namespace Lox

/-! ## §1. Legible tokens. -/

/-- A kind with no text of its own, and no number that is infinite. -/
def TokenKind.Legible : TokenKind → Prop
  | .string _ => False
  | .number x => Decimal.Plain x
  | _ => True

/-- A token of such a kind, spelled as one. -/
def Token.Legible (t : Token) : Prop :=
  t.kind.Legible ∧ Lexeme t.kind t.lexeme.toList

/-- All tokens are legible. -/
def AllLegible (w : List Token) : Prop :=
  ∀ t ∈ w, t.Legible

/-- What a tree says about a token is legible. -/
def Mark.Legible : Mark → Prop
  | .kind k => k.Legible
  | .token t => t.Legible

/-- All that is written is legible. -/
def LegibleAll (ms : List Mark) : Prop :=
  ∀ m ∈ ms, m.Legible

theorem allLegible_append (w w' : List Token) :
    AllLegible (w ++ w') ↔ AllLegible w ∧ AllLegible w' :=
  List.forall_mem_append

theorem allLegible_cons (t : Token) (w : List Token) :
    AllLegible (t :: w) ↔ t.Legible ∧ AllLegible w :=
  List.forall_mem_cons

@[simp]
theorem legibleAll_nil : LegibleAll [] :=
  fun _ h => absurd h List.not_mem_nil

@[simp]
theorem legibleAll_append (ms ms' : List Mark) :
    LegibleAll (ms ++ ms') ↔ LegibleAll ms ∧ LegibleAll ms' :=
  List.forall_mem_append

@[simp]
theorem legibleAll_kind (k : TokenKind) (ms : List Mark) :
    LegibleAll (.kind k :: ms) ↔ k.Legible ∧ LegibleAll ms :=
  List.forall_mem_cons

@[simp]
theorem legibleAll_token (t : Token) (ms : List Mark) :
    LegibleAll (.token t :: ms) ↔ t.Legible ∧ LegibleAll ms :=
  List.forall_mem_cons

/-- What is written as legible tokens is legible. -/
theorem Writes.legible {ms : List Mark} {w : List Token} (h : Writes ms w) (hw : AllLegible w) :
    LegibleAll ms := by
  induction h with
  | nil => exact legibleAll_nil
  | @cons m t ms w hshow _ ih =>
    obtain ⟨ht, hw⟩ := (allLegible_cons t w).mp hw
    cases m with
    | kind k =>
      obtain rfl : t.kind = k := hshow
      exact (legibleAll_kind _ ms).mpr ⟨ht.1, ih hw⟩
    | token t' =>
      obtain rfl : t = t' := hshow
      exact (legibleAll_token t ms).mpr ⟨ht, ih hw⟩

/-- A loop with three clauses has the shape of a statement, and is as legible
as its clauses and its body. -/
theorem Stmt.legible_forLoop {initializer : Option Stmt} {condition increment : Option Expr}
    {body : Stmt} (hi : ∀ s ∈ initializer, s.Shaped ∧ LegibleAll s.flatten)
    (hc : (∀ e ∈ condition, e.StandsAt 0) ∧ LegibleAll (flattenValue condition))
    (hn : (∀ e ∈ increment, e.StandsAt 0) ∧ LegibleAll (flattenValue increment))
    (hb : body.declared? = none ∧ body.Shaped ∧ LegibleAll body.flatten) :
    (Stmt.forLoop initializer condition increment body).declared? = none
      ∧ (Stmt.forLoop initializer condition increment body).Shaped
      ∧ LegibleAll (Stmt.forLoop initializer condition increment body).flatten := by
  obtain ⟨hnone, hshaped, hmarks⟩ := hb
  have hcondition : (condition.getD (.literal (.bool true))).StandsAt 0
      ∧ LegibleAll (condition.getD (.literal (.bool true))).flatten := by
    cases condition with
    | none => exact ⟨trivial, (legibleAll_kind _ []).mpr ⟨trivial, legibleAll_nil⟩⟩
    | some c => exact ⟨hc.1 c rfl, hc.2⟩
  have hincrement : ∀ e ∈ increment, e.StandsAt 0 ∧ LegibleAll e.flatten := by
    rintro e rfl
    exact ⟨hn.1 e rfl, hn.2⟩
  unfold Stmt.forLoop
  generalize condition.getD (.literal (.bool true)) = c at hcondition
  obtain ⟨hshape, hwritten⟩ := hcondition
  cases initializer with
  | none =>
    cases increment with
    | none =>
      refine ⟨rfl, ⟨hshape, hnone, hshaped⟩, ?_⟩
      simpa [Stmt.flatten, TokenKind.Legible] using ⟨hwritten, hmarks⟩
    | some n =>
      obtain ⟨hlast, hmarks'⟩ := hincrement n rfl
      refine ⟨rfl, ⟨hshape, rfl, hshaped, hlast, trivial⟩, ?_⟩
      simpa [Stmt.flatten, Stmt.flattenAll, braced, TokenKind.Legible] using
        ⟨hwritten, hmarks, hmarks'⟩
  | some s =>
    obtain ⟨hfirst, hmarks''⟩ := hi s rfl
    cases increment with
    | none =>
      refine ⟨rfl, ⟨hfirst, ⟨hshape, hnone, hshaped⟩, trivial⟩, ?_⟩
      simpa [Stmt.flatten, Stmt.flattenAll, braced, TokenKind.Legible] using
        ⟨hmarks'', hwritten, hmarks⟩
    | some n =>
      obtain ⟨hlast, hmarks'⟩ := hincrement n rfl
      refine ⟨rfl, ⟨hfirst, ⟨hshape, rfl, hshaped, hlast, trivial⟩, trivial⟩, ?_⟩
      simpa [Stmt.flatten, Stmt.flattenAll, braced, TokenKind.Legible] using
        ⟨hmarks'', hwritten, hmarks, hmarks'⟩

end Lox

namespace Lox.Grammar

/-! ## §2. What is derived from legible tokens. -/

theorem Derives.legible {w : List Token} {e : Expr} (h : Derives .expression w e)
    (hw : AllLegible w) : e.StandsAt 0 ∧ LegibleAll e.flatten := by
  obtain ⟨hshape, hwrites⟩ := derives_iff.mp h
  exact ⟨hshape, hwrites.legible hw⟩

theorem Optional.legible {w : List Token} {value : Option Expr} (h : Optional w value)
    (hw : AllLegible w) :
    (∀ e ∈ value, e.StandsAt 0) ∧ LegibleAll (flattenValue value) :=
  ⟨h.shape.1, h.shape.2.legible hw⟩

theorem VarDecl.legible {w : List Token} {s : Stmt} (h : VarDecl w s) (hw : AllLegible w) :
    s.Shaped ∧ LegibleAll s.flatten :=
  ⟨h.shape.1, h.shape.2.legible hw⟩

theorem ExprStmt.legible {w : List Token} {s : Stmt} (h : ExprStmt w s) (hw : AllLegible w) :
    s.declared? = none ∧ s.Shaped ∧ LegibleAll s.flatten := by
  cases h with
  | mk he _ =>
    obtain ⟨hshape, hmarks⟩ := he.legible ((allLegible_append _ _).mp hw).1
    exact ⟨rfl, hshape, by simpa [Stmt.flatten, TokenKind.Legible] using hmarks⟩

theorem ForInitializer.legible {w : List Token} {s : Option Stmt} (h : ForInitializer w s)
    (hw : AllLegible w) : ∀ s' ∈ s, s'.Shaped ∧ LegibleAll s'.flatten := by
  cases h with
  | var h =>
    rintro _ ⟨⟩
    exact h.legible hw
  | expression h =>
    rintro _ ⟨⟩
    exact (h.legible hw).2
  | none => exact fun _ h => nomatch h

mutual

theorem Declaration.legible : ∀ {w : List Token} {s : Stmt}, Declaration w s → AllLegible w →
    s.Shaped ∧ LegibleAll s.flatten
  | _, _, .classDecl _ hn hs _ hm _, hw => by
    simp only [allLegible_cons, allLegible_append] at hw
    obtain ⟨-, hname, hws, -, hwm, -⟩ := hw
    obtain ⟨hshaped, hmarks⟩ := hm.legible hwm
    refine ⟨⟨hn, hs.shape.1, hshaped⟩, ?_⟩
    simpa [Stmt.flatten, TokenKind.Legible] using ⟨hname, hs.shape.2.legible hws, hmarks⟩
  | _, _, .funDecl _ h, hw => by
    obtain ⟨hshaped, hmarks⟩ := h.legible ((allLegible_cons _ _).mp hw).2
    exact ⟨hshaped, by simpa [Stmt.flatten, TokenKind.Legible] using hmarks⟩
  | _, _, .varDecl h, hw => h.legible hw
  | _, _, .statement h, hw => (h.legible hw).2

/-- **A derived program has the shape of the grammar, and is legible** if its
tokens are. -/
theorem Declarations.legible : ∀ {w : List Token} {ss : List Stmt}, Declarations w ss →
    AllLegible w → Stmt.ShapedAll ss ∧ LegibleAll (Stmt.flattenAll ss)
  | _, _, .nil, _ => ⟨trivial, legibleAll_nil⟩
  | _, _, .snoc h h', hw => by
    obtain ⟨hw, hw'⟩ := (allLegible_append _ _).mp hw
    rw [shapedAll_snoc, flattenAll_snoc, legibleAll_append]
    exact ⟨⟨(h.legible hw).1, (h'.legible hw').1⟩, (h.legible hw).2, (h'.legible hw').2⟩

theorem Block.legible : ∀ {w : List Token} {ss : List Stmt}, Block w ss → AllLegible w →
    Stmt.ShapedAll ss ∧ LegibleAll (braced (Stmt.flattenAll ss))
  | _, _, .mk _ h _, hw => by
    simp only [allLegible_cons, allLegible_append] at hw
    obtain ⟨hshaped, hmarks⟩ := h.legible hw.2.1
    exact ⟨hshaped, by simpa [braced, TokenKind.Legible] using hmarks⟩

theorem Function.legible : ∀ {w : List Token} {d : FunctionDecl Stmt}, Function w d →
    AllLegible w → Stmt.ShapedFunction d ∧ LegibleAll (Stmt.flattenFunction d)
  | _, _, .mk hn hp h, hw => by
    simp only [allLegible_cons, allLegible_append] at hw
    obtain ⟨hname, hwp, hwb⟩ := hw
    obtain ⟨hkinds, hlen, hwrites⟩ := hp.shape
    obtain ⟨hshaped, hmarks⟩ := h.legible hwb
    refine ⟨⟨hn, hkinds, hlen, hshaped⟩, ?_⟩
    rw [Stmt.flattenFunction, legibleAll_token, legibleAll_append]
    exact ⟨hname, hwrites.legible hwp, hmarks⟩

theorem Functions.legible : ∀ {w : List Token} {ds : List (FunctionDecl Stmt)}, Functions w ds →
    AllLegible w → Stmt.ShapedMethods ds ∧ LegibleAll (Stmt.flattenMethods ds)
  | _, _, .nil, _ => ⟨trivial, legibleAll_nil⟩
  | _, _, .snoc h h', hw => by
    obtain ⟨hw, hw'⟩ := (allLegible_append _ _).mp hw
    rw [shapedMethods_snoc, flattenMethods_snoc, legibleAll_append]
    exact ⟨⟨(h.legible hw).1, (h'.legible hw').1⟩, (h.legible hw).2, (h'.legible hw').2⟩

theorem Statement.legible : ∀ {w : List Token} {s : Stmt}, Statement w s → AllLegible w →
    s.declared? = none ∧ s.Shaped ∧ LegibleAll s.flatten
  | _, _, .exprStmt h, hw => h.legible hw
  | _, _, .forStmt _ _ hi hc _ hn _ hb, hw => by
    simp only [allLegible_cons, allLegible_append] at hw
    obtain ⟨-, -, hwi, hwc, -, hwn, -, hwb⟩ := hw
    exact Stmt.legible_forLoop (hi.legible hwi) (hc.legible hwc) (hn.legible hwn) (hb.legible hwb)
  | _, _, .ifStmt _ _ hc _ ht, hw => by
    simp only [allLegible_cons, allLegible_append] at hw
    obtain ⟨-, -, hwc, -, hwt⟩ := hw
    obtain ⟨hcondition, hmarks⟩ := hc.legible hwc
    obtain ⟨hnone, hthen, hmarks'⟩ := ht.legible hwt
    refine ⟨rfl, ⟨hcondition, hnone, hthen⟩, ?_⟩
    simpa [Stmt.flatten, TokenKind.Legible] using ⟨hmarks, hmarks'⟩
  | _, _, .ifElse _ _ hc _ ht _ he, hw => by
    simp only [allLegible_cons, allLegible_append] at hw
    obtain ⟨-, -, hwc, -, hwt, -, hwe⟩ := hw
    obtain ⟨hcondition, hmarks⟩ := hc.legible hwc
    obtain ⟨hnone, hthen, hmarks'⟩ := ht.legible hwt
    obtain ⟨hnone', helse, hmarks''⟩ := he.legible hwe
    refine ⟨rfl, ⟨hcondition, ⟨hnone, hthen⟩, hnone', helse⟩, ?_⟩
    simpa [Stmt.flatten, TokenKind.Legible] using ⟨hmarks, hmarks', hmarks''⟩
  | _, _, .printStmt _ he _, hw => by
    simp only [allLegible_cons, allLegible_append] at hw
    obtain ⟨hshape, hmarks⟩ := he.legible hw.2.1
    exact ⟨rfl, hshape, by simpa [Stmt.flatten, TokenKind.Legible] using hmarks⟩
  | _, _, .returnStmt hk hv _, hw => by
    simp only [allLegible_cons, allLegible_append] at hw
    obtain ⟨hshape, hmarks⟩ := hv.legible hw.2.1
    refine ⟨rfl, ⟨hk, hshape⟩, ?_⟩
    simpa [Stmt.flatten, TokenKind.Legible] using ⟨hw.1, hmarks⟩
  | _, _, .whileStmt _ _ hc _ hb, hw => by
    simp only [allLegible_cons, allLegible_append] at hw
    obtain ⟨-, -, hwc, -, hwb⟩ := hw
    obtain ⟨hcondition, hmarks⟩ := hc.legible hwc
    obtain ⟨hnone, hbody, hmarks'⟩ := hb.legible hwb
    refine ⟨rfl, ⟨hcondition, hnone, hbody⟩, ?_⟩
    simpa [Stmt.flatten, TokenKind.Legible] using ⟨hmarks, hmarks'⟩
  | _, _, .block h, hw => ⟨rfl, h.legible hw⟩

end

end Lox.Grammar
