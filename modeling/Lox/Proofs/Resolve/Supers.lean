/-
  Lox.Proofs.Resolve.Supers
  ─────────────────────────
  **WHERE `super` LEADS.**

  The distance of a use of `super` in bound code counts the scopes opened on
  the way to it, and then leads to the `super` that the whole code sees.  That
  one is not further away than just outside the nearest `this`.  So a use in a
  method of a class with a superclass leads to the scope of that class, and
  without such a class around it there is no use at all.
-/
import Lox.Proofs.Machine.Matched
import Lox.Proofs.Syntax.Parts

namespace Lox.Resolve

open Lockstep (thisScope)

/-! ## §1. Scopes that differ in ordinary names. -/

/-- `this` and `super` are found in the same places. -/
def Scopes.Alike (scopes scopes' : Scopes) : Prop :=
  ∀ name, ¬ Ordinary name → scopes'.find? name = scopes.find? name

theorem Scopes.Alike.refl (scopes : Scopes) : scopes.Alike scopes :=
  fun _ _ => rfl

theorem Scopes.Alike.trans {scopes scopes' scopes'' : Scopes} (h : scopes.Alike scopes')
    (h' : scopes'.Alike scopes'') : scopes.Alike scopes'' :=
  fun name hname => (h' name hname).trans (h name hname)

theorem ne_of_ordinary {name other : String} (h : Ordinary name) (h' : ¬ Ordinary other) :
    name ≠ other := by
  rintro rfl
  exact h' h

theorem Scopes.alike_add (scopes : Scopes) {name : String} (h : Ordinary name) :
    scopes.Alike (scopes.add name) :=
  fun _ hother => find?_add_of_ne scopes (ne_of_ordinary h hother)

theorem Scopes.alike_declare (scopes : Scopes) {name : String} (h : Ordinary name) :
    scopes.Alike (scopes.declare name) :=
  fun _ hother => find?_declare_of_ne scopes (ne_of_ordinary h hother)

theorem BoundStmt.alike_after {T : Chart} {i : Bool} {scopes : Scopes} {s : Stmt}
    (h : BoundStmt T i scopes s) : scopes.Alike (scopes.after s) := by
  unfold Scopes.after
  split
  · next name hname => exact scopes.alike_add (h.declarable hname).1
  · exact .refl scopes

/-! ## §2. Bound pieces of code. -/

section Bound

variable {T : Chart} {scopes : Scopes}

/-- A piece of code that is bound. -/
def Bound (T : Chart) (scopes : Scopes) : Code → Prop
  | .expr e => BoundExpr T scopes e
  | .stmt s => ∃ inside, BoundStmt T inside scopes s

theorem BoundExprs.mem {es : List Expr} (h : BoundExprs T scopes es) {e : Expr} (he : e ∈ es) :
    BoundExpr T scopes e := by
  induction es with
  | nil => cases he
  | cons e' es ih =>
    rcases List.mem_cons.mp he with rfl | he
    · exact h.1
    · exact ih h.2 he

/-- The statements before one only add ordinary names. -/
theorem BoundStmts.mem {i : Bool} {ss : List Stmt} (h : BoundStmts T i scopes ss) {s : Stmt}
    (hs : s ∈ ss) : ∃ scopes', scopes.Alike scopes' ∧ Bound T scopes' (.stmt s) := by
  induction ss generalizing scopes with
  | nil => cases hs
  | cons s' ss ih =>
    rcases List.mem_cons.mp hs with rfl | hs
    · exact ⟨scopes, .refl scopes, i, h.1⟩
    · obtain ⟨scopes', halike, hb⟩ := ih h.2 hs
      exact ⟨scopes', h.1.alike_after.trans halike, hb⟩

/-- **The parts of bound code are bound**, where `this` and `super` mean the
same. -/
theorem Bound.part {whole part : Code} (h : Bound T scopes whole) (hpart : Code.Part whole part) :
    ∃ scopes', scopes.Alike scopes' ∧ Bound T scopes' part := by
  cases hpart with
  | binaryLeft | logicalLeft | callee | assigned | setValue => exact ⟨scopes, .refl scopes, h.1⟩
  | binaryRight | logicalRight | setObject => exact ⟨scopes, .refl scopes, h.2⟩
  | argument he => exact ⟨scopes, .refl scopes, BoundExprs.mem h.2 he⟩
  | unary | grouping | getObject => exact ⟨scopes, .refl scopes, h⟩
  | expression | print =>
    obtain ⟨i, -, h⟩ := h
    exact ⟨scopes, .refl scopes, h⟩
  | initializer =>
    obtain ⟨i, -, h⟩ := h
    exact ⟨_, scopes.alike_declare h.1.1, h.2⟩
  | @ifCondition _ _ el =>
    obtain ⟨i, h⟩ := h
    cases el <;> exact ⟨scopes, .refl scopes, h.2.1⟩
  | @thenBranch _ _ el =>
    obtain ⟨i, h⟩ := h
    cases el with
    | none => exact ⟨scopes, .refl scopes, i, h.2.2.1⟩
    | some el => exact ⟨scopes, .refl scopes, i, h.2.2.1.1⟩
  | elseBranch =>
    obtain ⟨i, -, h⟩ := h
    exact ⟨scopes, .refl scopes, i, h.2.2.1⟩
  | whileCondition =>
    obtain ⟨i, -, h⟩ := h
    exact ⟨scopes, .refl scopes, h.1⟩
  | whileBody =>
    obtain ⟨i, -, h⟩ := h
    exact ⟨scopes, .refl scopes, i, h.2.1⟩
  | returned =>
    obtain ⟨i, -, h⟩ := h
    exact ⟨scopes, .refl scopes, h.2⟩
  | parent =>
    obtain ⟨i, -, h⟩ := h
    exact ⟨_, scopes.alike_add h.1.1, h.2.1 _ rfl⟩

/-! ## §3. The distance of `super`. -/

/-- The distance of an occurrence, `k` scopes further in, leads to the `super`
that is seen here, which is at most just outside the nearest `this`. -/
def Reaches (T : Chart) (scopes : Scopes) (k : Nat) (o : Occurrence) : Prop :=
  ∃ d b, scopes.find? "super" = some (d, b) ∧ T.distance o.id = some (k + d)
    ∧ ∀ e b', scopes.find? "this" = some (e, b') → d ≤ e + 1

variable {k : Nat} {o : Occurrence}

theorem Reaches.alike {scopes' : Scopes} (ha : scopes.Alike scopes') (h : Reaches T scopes' k o) :
    Reaches T scopes k o := by
  unfold Reaches at h ⊢
  rw [← ha "super" not_ordinary_super, ← ha "this" not_ordinary_this]
  exact h

/-- What a scope does not declare is one scope further away. -/
theorem find?_cons_of_get? {scope : Bindings Bool} {name : String} (h : scope.get? name = none) :
    Scopes.find? (scope :: scopes) name = (scopes.find? name).map fun p => (p.1 + 1, p.2) := by
  rw [Scopes.find?, h]

/-- A scope without `this` and `super` is one more on the way. -/
theorem Reaches.outward {scope : Bindings Bool} (hthis : scope.get? "this" = none)
    (hsuper : scope.get? "super" = none) (h : Reaches T (scope :: scopes) k o) :
    Reaches T scopes (k + 1) o := by
  obtain ⟨d, b, hfind, hd, hnear⟩ := h
  rw [find?_cons_of_get? hsuper] at hfind
  obtain ⟨⟨d', b'⟩, hfind', heq⟩ := Option.map_eq_some_iff.mp hfind
  cases heq
  refine ⟨d', b', hfind', ?_, ?_⟩
  · rw [hd]
    congr 1
    omega
  · intro e b'' he
    have hfar := hnear (e + 1) b'' (by rw [find?_cons_of_get? hthis, he]; rfl)
    omega

/-- Just outside `this` there is `super`. -/
theorem Reaches.outward_this (h : Reaches T (thisScope :: scopes) k o) :
    T.distance o.id = some (k + 1) ∧ ∃ b, scopes.find? "super" = some (0, b) := by
  obtain ⟨d, b, hfind, hd, hnear⟩ := h
  have hfar : d ≤ 0 + 1 := hnear 0 true rfl
  rw [find?_cons_of_get? rfl] at hfind
  obtain ⟨⟨d', b'⟩, hfind', heq⟩ := Option.map_eq_some_iff.mp hfind
  cases heq
  obtain rfl : d' = 0 := by omega
  exact ⟨hd, b', hfind'⟩

theorem get?_parameterScope_reserved {params : List Token} (h : ∀ t ∈ params, Ordinary t.lexeme)
    {name : String} (hname : ¬ Ordinary name) : (Walk.parameterScope params).get? name = none := by
  rw [get?_parameterScope, if_neg]
  intro hmem
  obtain ⟨t, ht, rfl⟩ := List.mem_map.mp hmem
  exact hname (h t ht)

/-- A function opens one scope. -/
theorem reaches_function {decl : FunctionDecl Stmt} (hb : BoundFunction T scopes decl) {s : Stmt}
    (hs : s ∈ decl.body)
    (ih : ∀ {scopes' : Scopes}, Bound T scopes' (.stmt s) → Reaches T scopes' k o) :
    Reaches T scopes (k + 1) o := by
  obtain ⟨name, params, body⟩ := decl
  obtain ⟨hparams, -, hbody⟩ := hb
  obtain ⟨scopes', halike, hs'⟩ := hbody.mem hs
  exact ((ih hs').alike halike).outward
    (get?_parameterScope_reserved hparams not_ordinary_this)
    (get?_parameterScope_reserved hparams not_ordinary_super)

/-- **The distance of `super`** counts the scopes on the way, and then leads to
the `super` that the whole code sees. -/
theorem Bound.reaches {code : Code} (h : code.Super k o) :
    Bound T scopes code → Reaches T scopes k o := by
  induction h generalizing scopes with
  | here =>
    intro hb
    obtain ⟨hl, hname, d, hthis, hsuper⟩ := hb
    -- bound code has its `super` just outside `this`
    refine ⟨d + 1, true, hsuper, ?_, ?_⟩
    · rw [hl.2, Scopes.distance?_eq_find?, hname, hsuper, Nat.zero_add]
      rfl
    · intro e b' he
      rw [hthis] at he
      cases he
      exact Nat.le_refl _
  | part hpart _ ih =>
    intro hb
    obtain ⟨scopes', halike, hb'⟩ := hb.part hpart
    exact (ih hb').alike halike
  | block hs _ ih =>
    intro hb
    obtain ⟨i, -, hb⟩ := hb
    obtain ⟨scopes', halike, hb'⟩ := BoundStmts.mem hb hs
    exact ((ih hb').alike halike).outward rfl rfl
  | function hs _ ih =>
    intro hb
    obtain ⟨i, -, hname, hdecl⟩ := hb
    exact (reaches_function hdecl hs ih).alike (scopes.alike_add hname.1)
  | @method name methods m s k o hm hs _ ih =>
    intro hb
    obtain ⟨i, -, hname, -, hmethods⟩ := hb
    obtain ⟨hd, b, hfind⟩ := (reaches_function (BoundMethods.mem hmethods hm) hs ih).outward_this
    -- the scope of `this` lies between the method and the class
    change (scopes.add name.lexeme).find? "super" = some (0, b) at hfind
    rw [scopes.alike_add hname.1 "super" not_ordinary_super] at hfind
    exact ⟨0, b, hfind, hd, fun e b' _ => Nat.zero_le (e + 1)⟩

/-- A method sees the `super` of its class, two scopes out of its body. -/
theorem distance_of_method {m : FunctionDecl Stmt} (hb : BoundFunction T (thisScope :: scopes) m)
    (h : m.Super k o) : T.distance o.id = some (k + 2) := by
  obtain ⟨s, hs, hsuper⟩ := h
  exact (reaches_function hb hs (Bound.reaches hsuper)).outward_this.1

/-- **At the top level there is no `super`** outside classes with a
superclass. -/
theorem not_super_of_top {i : Bool} {ss : List Stmt} (hb : BoundStmts T i [] ss) {s : Stmt}
    (hs : s ∈ ss) : ¬ Code.Super (.stmt s) k o := by
  intro h
  obtain ⟨scopes', halike, hs'⟩ := hb.mem hs
  -- there are no scopes in which it could be found
  obtain ⟨d, b, hfind, -⟩ := (Bound.reaches h hs').alike halike
  cases hfind

end Bound

end Lox.Resolve
