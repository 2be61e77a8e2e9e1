/-
  Lox.Proofs.Session.Orientation
  ──────────────────────────────
  **DISTANCES LEAD TO VARIABLES.**

  The scope analysis and the running program agree on the layout of scopes.
  At every point of the run of an accepted chunk, in its own code and in
  closures and methods of earlier chunks, the recorded distance of a name
  leads to the scope that holds its variable; `this` and `super` always have
  one, and stand for an object and a class.
-/
import Lox.Proofs.Session.Kept

namespace Lox

open Lockstep Resolve

/-! ## §1. Points of a run. -/

/-- **Names are where their distances lead** at a point of a run. -/
structure Config.Oriented (g : Setting) (c : Config) : Prop where
  /-- A variable with a distance is in the scope that many links away. -/
  read : ∀ o d, c.control = .eval (.variable o) → g.distances[o.id]? = some d →
    ∃ a v, c.state.scopes.ancestor? c.state.scope d = some a
      ∧ (c.state.scopes.bindings a).get? o.name.lexeme = some v ∧ c.step g = c.yielding v
  /-- `this` has a distance and stands for an object. -/
  this : ∀ o, c.control = .eval (.this o) →
    ∃ d a id, g.distances[o.id]? = some d ∧ c.state.scopes.ancestor? c.state.scope d = some a
      ∧ (c.state.scopes.bindings a).get? o.name.lexeme = some (.object id)
      ∧ c.step g = c.yielding (.object id)
  /-- `super` has a distance and stands for a class, and there is an object
  that its method is bound to. -/
  super : ∀ o method, c.control = .eval (.super o method) →
    ∃ d a parent id, g.distances[o.id]? = some d
      ∧ c.state.scopes.ancestor? c.state.scope d = some a
      ∧ (c.state.scopes.bindings a).get? o.name.lexeme = some (.class parent)
      ∧ Config.superclassAt c.state d o.name = .ok parent ∧ Config.receiverAt c.state d = .ok id
  /-- An assignment to a variable with a distance finds the scope. -/
  assign : ∀ v o rest d, c.control = .value v → c.frames = .assign o :: rest →
    g.distances[o.id]? = some d → ∃ a, c.state.scopes.ancestor? c.state.scope d = some a
  /-- No failure comes from a distance that leads astray. -/
  raised : ∀ line fault, c.control = .raising (.runtime line fault) → Sound fault

/-- A variable that a distance leads to is what the step yields. -/
theorem Config.lookUp_eq {g : Setting} {s : State} {o : Occurrence} {d : Nat} {a : ScopeId}
    {v : Value} (hd : g.distances[o.id]? = some d) (ha : s.scopes.ancestor? s.scope d = some a)
    (hv : (s.scopes.bindings a).get? o.name.lexeme = some v) : Config.lookUp g s o = .ok v := by
  unfold Config.lookUp
  rw [hd]
  exact Forest.getAt_of_ancestor? ha hv

namespace Lockstep

/-- The scope and the variable of a name that is defined in static scopes. -/
theorem Stocked.found {T : Chart} {F F' : Forest Value} (h : Stocked T F F') {n n' : ScopeId}
    {scopes : Scopes} (hp : Placed F ⟨n, n', scopes⟩) {name : String} {d : Nat}
    (hfind : scopes.find? name = some (d, true)) :
    ∃ a v, F.ancestor? n d = some a ∧ (F.bindings a).get? name = some v
      ∧ (name = "this" → ∃ id, v = .object id) ∧ (name = "super" → ∃ k, v = .class k) := by
  obtain ⟨a, ha, hb⟩ := hp.2.find? hfind
  obtain ⟨v, hv⟩ := (Bindings.binds_iff _ _).mp (hb rfl)
  refine ⟨a, v, ha, hv, ?_, ?_⟩
  · rintro rfl
    exact h.this a v hv
  · rintro rfl
    exact h.super a v hv

variable {T : Chart} {g : Setting} {scopes : Scopes} {o : Occurrence} {s s' : State}

/-- A variable that is bound, and has a distance. -/
theorem oriented_variable (hg : Charted T g) (hstocked : Stocked T s.scopes s'.scopes)
    (hp : Placed s.scopes ⟨s.scope, s'.scope, scopes⟩) (hb : BoundExpr T scopes (.variable o))
    {d : Nat} (hd : g.distances[o.id]? = some d) :
    ∃ a v, s.scopes.ancestor? s.scope d = some a
      ∧ (s.scopes.bindings a).get? o.name.lexeme = some v ∧ Config.lookUp g s o = .ok v := by
  obtain ⟨hl, -, hdefined⟩ := hb
  have hlocated := hg.located hl
  rw [hd] at hlocated
  obtain ⟨⟨d', b⟩, hfind, hd'⟩ := Option.map_eq_some_iff.mp hlocated.symm
  obtain rfl : d' = d := hd'
  cases b with
  | false => exact absurd hfind (hdefined d')
  | true =>
    obtain ⟨a, v, ha, hv, -⟩ := hstocked.found hp hfind
    exact ⟨a, v, ha, hv, Config.lookUp_eq hd ha hv⟩

theorem oriented_this (hg : Charted T g) (hstocked : Stocked T s.scopes s'.scopes)
    (hp : Placed s.scopes ⟨s.scope, s'.scope, scopes⟩) (hb : BoundExpr T scopes (.this o)) :
    ∃ d a id, g.distances[o.id]? = some d ∧ s.scopes.ancestor? s.scope d = some a
      ∧ (s.scopes.bindings a).get? o.name.lexeme = some (.object id)
      ∧ Config.lookUp g s o = .ok (.object id) := by
  obtain ⟨hl, hname, d, hfind⟩ := hb
  rw [← hname] at hfind
  have hd : g.distances[o.id]? = some d := by
    rw [hg.located hl, hfind]
    rfl
  obtain ⟨a, v, ha, hv, hthis, -⟩ := hstocked.found hp hfind
  obtain ⟨id, rfl⟩ := hthis hname
  exact ⟨d, a, id, hd, ha, hv, Config.lookUp_eq hd ha hv⟩

theorem oriented_super (hg : Charted T g) (hstocked : Stocked T s.scopes s'.scopes)
    (hp : Placed s.scopes ⟨s.scope, s'.scope, scopes⟩) {method : Token}
    (hb : BoundExpr T scopes (.super o method)) :
    ∃ d a parent id, g.distances[o.id]? = some d ∧ s.scopes.ancestor? s.scope d = some a
      ∧ (s.scopes.bindings a).get? o.name.lexeme = some (.class parent)
      ∧ Config.superclassAt s d o.name = .ok parent ∧ Config.receiverAt s d = .ok id := by
  obtain ⟨hl, hname, d, hthis, hfind⟩ := hb
  rw [← hname] at hfind
  have hd : g.distances[o.id]? = some (d + 1) := by
    rw [hg.located hl, hfind]
    rfl
  obtain ⟨a, v, ha, hv, -, hclass⟩ := hstocked.found hp hfind
  obtain ⟨parent, rfl⟩ := hclass hname
  have hsuper : Config.superclassAt s (d + 1) o.name = .ok parent := by
    unfold Config.superclassAt
    rw [Forest.getAt_of_ancestor? ha hv]
  obtain ⟨id, hid, -⟩ := receiverAt_match hstocked hp hthis
  exact ⟨d + 1, a, parent, id, hd, ha, hv, hsuper, hid⟩

/-- The scope of a name is there even if the name has no variable yet. -/
theorem oriented_assign (hg : Charted T g) (hp : Placed s.scopes ⟨s.scope, s'.scope, scopes⟩)
    (hl : Located T scopes o) {d : Nat} (hd : g.distances[o.id]? = some d) :
    ∃ a, s.scopes.ancestor? s.scope d = some a := by
  rw [hg.located hl] at hd
  obtain ⟨⟨d', b⟩, hfind, hd'⟩ := Option.map_eq_some_iff.mp hd
  obtain rfl : d' = d := hd'
  obtain ⟨a, ha, -⟩ := hp.2.find? hfind
  exact ⟨a, ha⟩

/-- **A program that goes alongside itself by distances is oriented.** -/
theorem Alongside.oriented (hg : Charted T g) {c : Config} (h : Alongside (byDistance T) c c) :
    c.Oriented g := by
  obtain ⟨control, frames, state⟩ := c
  obtain ⟨w, scopes, a, hdoes, hwaits, hstates⟩ := h
  dsimp only at hdoes hwaits hstates
  have hstocked := hstates.scopes.2.1
  have hplaced := hstates.placed
  refine ⟨?_, ?_, ?_, ?_, ?_⟩
  · rintro o d rfl hd
    cases hdoes with
    | eval hb =>
      obtain ⟨a, v, ha, hv, hlook⟩ := oriented_variable hg hstocked hplaced hb hd
      refine ⟨a, v, ha, hv, ?_⟩
      show Config.settling _ _ (Config.lookUp g state o) = _
      rw [hlook]
      rfl
  · rintro o rfl
    cases hdoes with
    | eval hb =>
      obtain ⟨d, a, id, hd, ha, hv, hlook⟩ := oriented_this hg hstocked hplaced hb
      refine ⟨d, a, id, hd, ha, hv, ?_⟩
      show Config.settling _ _ (Config.lookUp g state o) = _
      rw [hlook]
      rfl
  · rintro o method rfl
    cases hdoes with
    | eval hb => exact oriented_super hg hstocked hplaced hb
  · rintro v o rest d rfl rfl hd
    cases hdoes with
    | value _ =>
      cases hwaits with
      | cons hop _ =>
        cases hop with
        | assign hl => exact oriented_assign hg hplaced hl hd
  · rintro line fault rfl
    cases hdoes with
    | raising hsound => exact hsound line fault rfl

end Lockstep

/-! ## §2. Chunks. -/

/-- **Scope analysis and execution agree.**  Whatever chunks came before, in
the run of an accepted chunk every `this` and `super` has a distance, and at
every point of it names are where their distances lead; so a run never fails
because a chain of scopes is too short, or because `this` or `super` is not
resolved or stands for something else than an object and a class. -/
theorem Session.oriented_run {s : Session} (hs : s.Reachable) {source : String}
    (h : s.Accepts source) (clock : Clock) :
    (∀ o ∈ Stmt.occurrencesAll (s.parsed source).statements,
      o.name.lexeme = "this" ∨ o.name.lexeme = "super" →
        ((s.setting clock source).distances[o.id]?).isSome)
    ∧ (∀ n, (Config.run (s.setting clock source) n (s.start source)).Oriented
        (s.setting clock source))
    ∧ ∀ fuel line fault, (s.run fuel clock source).2 = .failed (.runtime line fault) →
        Sound fault := by
  have hk := kept_of_reachable hs
  have horiented : ∀ n, (Config.run (s.setting clock source) n (s.start source)).Oriented
      (s.setting clock source) := by
    intro n
    exact (hk.run h clock n).oriented (s.charted clock source)
  refine ⟨?_, horiented, ?_⟩
  · intro o ho hname
    refine recorded_stmts _ (h.bound hk) o ho ?_
    rintro ⟨hthis, hsuper⟩
    rcases hname with hname | hname
    · exact hthis hname
    · exact hsuper hname
  · intro fuel line fault hfailed
    rw [run_eq h fuel clock] at hfailed
    dsimp only at hfailed
    generalize hc : Config.run (s.setting clock source) fuel (s.start source) = c at hfailed
    have hraised := (hc ▸ horiented fuel : c.Oriented _).raised
    obtain ⟨control, frames, state⟩ := c
    cases control with
    | raising d =>
      cases frames with
      | nil =>
        cases hfailed
        exact hraised line fault rfl
      | cons => cases hfailed
    | completed => cases frames <;> cases hfailed
    | returning => cases frames <;> cases hfailed
    | _ => cases hfailed

/-- A method of a later chunk calls one of an earlier chunk through `super`. -/
theorem Session.oriented_run_inherited :
    let s := ((Session.new none).run 60 (.still 0) "class A \x7b m() \x7b return this; \x7d \x7d").1
    let source := "class B < A \x7b m() \x7b return super.m(); \x7d \x7d B().m();"
    s.Reachable ∧ s.Accepts source
      ∧ ∀ n, (Config.run (s.setting (.still 0) source) n (s.start source)).Oriented
        (s.setting (.still 0) source) := by
  intro s source
  have hended : ((Session.new none).run 60 (.still 0)
      "class A \x7b m() \x7b return this; \x7d \x7d").2 ≠ .unfinished :=
    Outcome.ne_unfinished (by decide +kernel)
  have hs : s.Reachable := .run (.new none) 60 (.still 0) _ hended
  have h : s.Accepts source := ⟨by decide +kernel, by decide +kernel⟩
  exact ⟨hs, h, (Session.oriented_run hs h (.still 0)).2.1⟩

end Lox
