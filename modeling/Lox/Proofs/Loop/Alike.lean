/-
  Lox.Proofs.Loop.Alike
  ─────────────────────
  **PROGRAMS THAT CANNOT BE TOLD APART.**

  What can be seen of a program at one moment: what it does or yields, what it
  has printed, its objects and its global variables (`Config.Alike`), and the
  local variables that are visible where the program is (`State.Reads`).  Scopes
  themselves are not seen, so functions are alike when one declaration made
  them; what they have captured shows when they are called.

  Programs that go alongside each other are alike (`Alongside.alike`).  A
  statement that both are about to execute stands at a place of the program,
  and all names mean the same there (`Alongside.stands`).  Both come to its end
  at one moment and go on with what waited for it (`Alongside.executes`), and
  all names mean the same again (`Alongside.reads`).
-/
import Lox.Proofs.Loop.Alongside
import Lox.Proofs.Resolve.Standing

namespace Lox

open Resolve

/-! ## §1. What can be seen. -/

/-- Functions that one declaration made. -/
structure Function.Alike (f f' : Function) : Prop where
  identity : f'.identity = f.identity
  decl : f'.decl = f.decl
  isInitializer : f'.isInitializer = f.isInitializer

/-- Classes that answer with the same methods. -/
structure Class.Alike (k k' : Class) : Prop where
  identity : k'.identity = k.identity
  name : k'.name = k.name
  method : ∀ name, Option.Rel Function.Alike (k.method? name) (k'.method? name)

/-- Values that cannot be told apart. -/
inductive Value.Alike : Value → Value → Prop
  | same (v : Value) : Alike v v
  | function {f f' : Function} (h : f.Alike f') : Alike (.function f) (.function f')
  | class {k k' : Class} (h : k.Alike k') : Alike (.class k) (.class k')

/-- Objects of one class with the same fields. -/
structure Object.Alike (o o' : Object) : Prop where
  cls : o.cls.Alike o'.cls
  fields : ∀ name, Option.Rel Value.Alike (o.fields.get? name) (o'.fields.get? name)

/-- What two programs do or yield. -/
inductive Control.Alike : Control → Control → Prop
  | same (control : Control) : Alike control control
  | value {v v' : Value} (h : v.Alike v') : Alike (.value v) (.value v')
  | returning {v v' : Value} (h : v.Alike v') : Alike (.returning v) (.returning v')

/-- **States that cannot be told apart**, but for local variables. -/
structure State.Alike (s s' : State) : Prop where
  sink : s'.sink = s.sink
  depth : s'.depth = s.depth
  nextIdentity : s'.nextIdentity = s.nextIdentity
  size : s'.objects.size = s.objects.size
  object : ∀ id : ObjectId, Option.Rel Object.Alike s.objects[id]? s'.objects[id]?
  globals : ∀ name, Option.Rel Value.Alike (s.globals.get? name) (s'.globals.get? name)
  readings : s'.readings = s.readings

/-- **Names mean the same** at a place of a program.  A local name is the variable at
its nesting distance in one state, and the nearest one in the other; every other
name is global in both. -/
structure State.Reads (k : Enclosure) (s s' : State) : Prop where
  near : ∀ name d, k.Reaches name d → ∃ a v v', s.scopes.getAt s.scope d name = .ok v
    ∧ s'.scopes.holder? name s'.scope = some a ∧ a ≠ globalScope
    ∧ s'.scopes.get s'.scope name = .ok v' ∧ v.Alike v'
  far : ∀ name, (∀ d, ¬ k.Reaches name d) →
    s'.scopes.holder? name s'.scope = s'.scopes.holder? name globalScope

/-- **Programs that cannot be told apart** at a moment, but for local variables. -/
structure Config.Alike (c c' : Config) : Prop where
  control : c.control.Alike c'.control
  state : c.state.Alike c'.state

/-- A statement that is executed by itself, with distances, comes to an end. -/
def Config.Executes (g : Setting) (st : Stmt) (s : State) (outcome : Control) (t : State) : Prop :=
  ∃ n, (Config.mk outcome [] t).halted = true
    ∧ Config.run g n ⟨.exec st, [], s⟩ = ⟨outcome, [], t⟩

theorem Config.Executes.scope {g : Setting} {st : Stmt} {s t : State} {outcome : Control}
    (h : Config.Executes g st s outcome t) : t.scope = s.scope := by
  obtain ⟨n, houtcome, hrun⟩ := h
  have hhalted : (Config.run g n ⟨.exec st, [], s⟩).halted = true := by
    rw [hrun]
    exact houtcome
  have hscope := (Config.run_restores hhalted).1
  rwa [hrun] at hscope

namespace Lockstep

/-! ## §2. What matches is alike. -/

section Matching

variable {S : Sight} {T : Chart} {w : S.World}

theorem FunctionMatch.alike {f f' : Function} (h : FunctionMatch S T w f f') : f.Alike f' := by
  obtain ⟨_, htwins, _⟩ := h
  exact ⟨htwins.identity, htwins.decl, htwins.isInitializer⟩

theorem MethodMatch.alike {f f' : Function} (h : MethodMatch S T w f f') : f.Alike f' := by
  obtain ⟨_, htwins, _⟩ := h
  exact ⟨htwins.identity, htwins.decl, htwins.isInitializer⟩

theorem ClassMatch.alike {k k' : Class} (h : ClassMatch S T w k k') : k.Alike k' :=
  ⟨h.identity, h.name, fun name => optionRel_imp (fun _ _ => MethodMatch.alike) (h.method name)⟩

theorem ValueMatch.alike {v v' : Value} (h : ValueMatch S T w v v') : v.Alike v' := by
  cases h with
  | function h => exact .function h.alike
  | «class» h => exact .class h.alike
  | _ => exact .same _

theorem ObjectMatch.alike {o o' : Object} (h : ObjectMatch S T w o o') : o.Alike o' :=
  ⟨h.cls.alike, fun name => optionRel_imp (fun _ _ => ValueMatch.alike) (h.fields name)⟩

theorem Does.alike {control control' : Control} {scopes : Scopes} {a : Stance}
    (h : Does S T w control control' scopes a) : control.Alike control' := by
  cases h with
  | value h => exact .value h.alike
  | returning h => exact .returning h.alike
  | _ => exact .same _

end Matching

variable {T : Chart} {w₀ w : Cells} {ps : List Place} {s s' σ τ : State} {scopes : Scopes}
  {k : Enclosure} {g g' : Setting} {c c' : Config} {fs fs' : List Frame}

/-- The stores grow from now on. -/
theorem StateMatch.pinned (h : StateMatch (byName T w₀) w ps s s') :
    StateMatch (byName T w) w ps s s' := by
  obtain ⟨hF, hF', hfilled, hstacked, -⟩ := h.scopes
  exact ⟨⟨hF, hF', hfilled, hstacked, .refl w⟩, h.objects, h.nextIdentity, h.sink, h.depth,
    h.readings⟩

theorem StateMatch.alike (h : StateMatch (byName T w₀) w ps s s') : s.Alike s' := by
  obtain ⟨hF, hF', hfilled, -⟩ := h.scopes
  refine ⟨h.sink, h.depth, h.nextIdentity, h.objects.size, ?_, ?_, h.readings⟩
  · exact fun id => optionRel_imp (fun _ _ => ObjectMatch.alike) (h.objects.object id)
  · intro name
    unfold State.globals
    rw [hF, hF']
    exact optionRel_imp (fun _ _ => ValueMatch.alike) (hfilled.globals name)

/-- **Programs that go alongside each other are alike.** -/
theorem Alongside.alike (h : Alongside (byName T w₀) c c') : c.Alike c' := by
  obtain ⟨w, scopes, a, hdoes, -, hstates⟩ := h
  exact ⟨hdoes.alike, hstates.alike⟩

/-- Cells in which names mean the same at a place of a program. -/
def Cells.Sees (w : Cells) (n n' : ScopeId) (k : Enclosure) : Prop :=
  ∃ scopes, w.Shows n n' scopes ∧ AllDefined scopes ∧ Mirrors k.scopes scopes

theorem StateMatch.reads (h : StateMatch (byName T w₀) w ps s s')
    (hsees : w.Sees s.scope s'.scope k) : s.Reads k s' := by
  obtain ⟨scopes, hshows, hdefined, hmirrors⟩ := hsees
  have hreaches : ∀ name d, k.Reaches name d ↔ scopes.distance? name = some d := by
    intro name d
    rw [hmirrors.distance?, Enclosure.findIdx?_iff]
  constructor
  · intro name d hd
    rw [hreaches, Scopes.distance?_eq_find?] at hd
    obtain ⟨⟨_, b⟩, hfind, rfl⟩ := Option.map_eq_some_iff.mp hd
    cases b with
    | false => exact absurd hfind (hdefined.defined name _)
    | true =>
      obtain ⟨n, a, hcell, -, ha⟩ := h.found hshows hfind
      obtain ⟨v, v', hv, hv', hmatch, -⟩ := h.getAt hshows hfind
      exact ⟨a, v, v', hv, ha, (h.filled.cell n name a hcell).2.1, hv', hmatch.alike⟩
  · intro name hfar
    apply h.free hshows
    simp only [hreaches, Scopes.distance?_eq_find?] at hfar
    exact Option.map_eq_none_iff.mp (Option.eq_none_iff_forall_ne_some.mpr hfar)

/-- **Names go on to mean the same** where they once did. -/
theorem Alongside.reads (h : Alongside (byName T w₀) c c')
    (hsees : w₀.Sees c.state.scope c'.state.scope k) : c.state.Reads k c'.state := by
  obtain ⟨w, _, a, -, -, hstates⟩ := h
  obtain ⟨scopes, hshows, hdefined, hmirrors⟩ := hsees
  exact hstates.reads ⟨scopes, hshows.mono hstates.since, hdefined, hmirrors⟩

/-- **A statement stands at a place of a program**, and names mean the same
there. -/
theorem Alongside.stands {programs : List (List Stmt)} {st : Stmt}
    (h : Alongside (byName (T.standing programs) w₀) ⟨.exec st, fs, σ⟩ c') :
    ∃ k w, Standing programs k st ∧ w.Sees σ.scope c'.state.scope k
      ∧ Alongside (byName (T.standing programs) w) ⟨.exec st, fs, σ⟩ c' := by
  obtain ⟨w, scopes, a, hdoes, hwaits, hstates⟩ := h
  have halong : Alongside (byName (T.standing programs) w) ⟨.exec st, fs, σ⟩ c' :=
    ⟨w, scopes, a, hdoes, hwaits, hstates.pinned⟩
  generalize c'.control = control' at hdoes
  cases hdoes with
  | exec hb =>
    obtain ⟨k, hstanding, hmirrors⟩ := hb.home
    have hdefined := AllDefined.of_after hb (hwaits.allDefined rfl)
    exact ⟨k, w, hstanding, ⟨scopes, hstates.shows, hdefined, hmirrors⟩, halong⟩

/-! ## §3. Statements by themselves. -/

theorem Waits.length_eq {S : Sight} {world : S.World} {a : Stance} (h : Waits S T world a fs fs') :
    fs'.length = fs.length := by
  induction h with
  | bottom => rfl
  | cons _ _ ih => exact congrArg (· + 1) ih

/-- A statement begins in both programs. -/
theorem Alongside.exec {S : Sight} {D : Discipline S T} {st : Stmt}
    (h : Alongside D ⟨.exec st, fs, σ⟩ c') : ∃ fs' τ, c' = ⟨.exec st, fs', τ⟩ := by
  obtain ⟨control', frames', τ⟩ := c'
  obtain ⟨w, scopes, a, hdoes, -, -⟩ := h
  dsimp only at hdoes
  cases hdoes
  exact ⟨frames', τ, rfl⟩

theorem Alongside.proper {S : Sight} {D : Discipline S T} {st : Stmt}
    (h : Alongside D ⟨.exec st, fs, σ⟩ c') : st.Proper := by
  obtain ⟨w, scopes, a, hdoes, -, -⟩ := h
  generalize c'.control = control' at hdoes
  cases hdoes with
  | exec hb => exact BoundStmt.proper st hb

/-- No initializer is waited for at the end of a statement. -/
theorem Waits.apart {S : Sight} {world : S.World} {a : Stance} (h : Waits S T world a fs fs')
    (hwant : a.want = .completion) : Direct.Apart fs' := by
  intro name
  cases h with
  | bottom => rfl
  | cons hop =>
    cases hop with
    | loopBody | sequence | leave | call => rfl
    | _ => cases hwant

/-- Programs that go alongside each other inside frames end together. -/
theorem Alongside.halted_onto (h : Alongside (byName T w₀) (c.onto fs) (c'.onto fs'))
    (hlength : fs'.length = fs.length) : c'.halted = c.halted := by
  obtain ⟨control, frames, s⟩ := c
  obtain ⟨control', frames', s'⟩ := c'
  obtain ⟨w, scopes, a, hdoes, hwaits, -⟩ := h
  have hframes : (frames' ++ fs').length = (frames ++ fs).length := hwaits.length_eq
  have hempty : frames'.isEmpty = frames.isEmpty := by
    rw [List.length_append, List.length_append] at hframes
    have hlengths : frames'.length = frames.length := by omega
    cases frames <;> cases frames' <;> first | rfl | cases hlengths
  cases hdoes <;> first | rfl | exact hempty

/-- **What is done inside frames goes on alongside** until it ends. -/
theorem Alongside.run_onto (h : Alongside (byName T w₀) (c.onto fs) (c'.onto fs'))
    (hlength : fs'.length = fs.length) (hapart : Direct.Apart fs') (hg : Charted T g)
    (hclock : g'.clock = g.clock) (hlimit : g'.callLimit = g.callLimit) (n : Nat) :
    Alongside (byName T w₀) ((c.run g n).onto fs) ((Direct.run g' n c').onto fs') := by
  induction n generalizing c c' with
  | zero => exact h
  | succ n ih =>
    rw [Config.run_succ, Direct.run_succ]
    apply ih
    have hhalted := h.halted_onto hlength
    cases hend : c.halted with
    | true =>
      rw [hend] at hhalted
      rw [Config.step_halted hend, Direct.step_halted hhalted]
      exact h
    | false =>
      rw [hend] at hhalted
      rw [← Config.step_onto hend, ← Direct.step_onto hhalted hapart]
      exact h.step_direct hg hclock hlimit

/-- **Both end at one moment**, by themselves and inside their frames. -/
theorem Alongside.ended_onto (h : Alongside (byName T w₀) (c.onto fs) (c'.onto fs'))
    (hlength : fs'.length = fs.length) (hapart : Direct.Apart fs') (hg : Charted T g)
    (hclock : g'.clock = g.clock) (hlimit : g'.callLimit = g.callLimit) {n : Nat}
    (hhalted : (c.run g n).halted = true) :
    ∃ m o σ o' τ, c.run g n = ⟨o, [], σ⟩ ∧ Direct.run g' n c' = ⟨o', [], τ⟩
      ∧ Config.run g m (c.onto fs) = ⟨o, fs, σ⟩ ∧ Direct.run g' m (c'.onto fs') = ⟨o', fs', τ⟩ := by
  have heq : ∀ n, (Direct.run g' n c').halted = (c.run g n).halted := fun n =>
    (h.run_onto hlength hapart hg hclock hlimit n).halted_onto hlength
  have hhalted' : (Direct.run g' n c').halted = true := (heq n).trans hhalted
  -- until the first moment at which both have ended, the frames are not touched
  obtain ⟨m, hm, hlast', hrunning'⟩ := Direct.exists_first_end hhalted'
  have hrunning : ∀ i < m, (c.run g i).halted = false := fun i hi =>
    (heq i).symm.trans (hrunning' i hi)
  have hended : (c.run g m).halted = true := by rw [← heq, hlast', hhalted']
  have hlast : c.run g n = c.run g m := by
    obtain ⟨d, rfl⟩ := Nat.exists_eq_add_of_le hm
    rw [Config.run_add, Config.run_of_halted hended]
  have honto := Config.run_onto hrunning fs
  have honto' := Direct.run_onto hrunning' hapart
  rw [← hlast] at honto
  rw [hlast'] at honto'
  have hframes := Config.frames_of_halted hhalted
  have hframes' := Config.frames_of_halted hhalted'
  generalize c.run g n = c₁ at honto hframes
  generalize Direct.run g' n c' = c₁' at honto' hframes'
  obtain ⟨o, frames, σ⟩ := c₁
  obtain ⟨o', frames', τ⟩ := c₁'
  obtain rfl : frames = [] := hframes
  obtain rfl : frames' = [] := hframes'
  exact ⟨m, o, σ, o', τ, rfl, rfl, honto, honto'⟩

/-- **A statement comes to its end in both programs**, and both go on with what
waited for it. -/
theorem Alongside.executes {st : Stmt}
    (h : Alongside (byName T w₀) ⟨.exec st, fs, σ⟩ ⟨.exec st, fs', τ⟩) (hg : Charted T g)
    (hclock : g'.clock = g.clock) (hlimit : g'.callLimit = g.callLimit) :
    (∀ o σ₁, Config.Executes g st σ o σ₁ →
      ∃ m o' τ₁, Direct.Executes g' st τ o' τ₁
        ∧ Config.run g m ⟨.exec st, fs, σ⟩ = ⟨o, fs, σ₁⟩
        ∧ Direct.run g' m ⟨.exec st, fs', τ⟩ = ⟨o', fs', τ₁⟩)
    ∧ ∀ o' τ₁, Direct.Executes g' st τ o' τ₁ →
      ∃ m o σ₁, Config.Executes g st σ o σ₁
        ∧ Config.run g m ⟨.exec st, fs, σ⟩ = ⟨o, fs, σ₁⟩
        ∧ Direct.run g' m ⟨.exec st, fs', τ⟩ = ⟨o', fs', τ₁⟩ := by
  have hwaits : ∃ (w : Cells) (a : Stance), Waits cells T w a fs fs' ∧ a.want = .completion := by
    obtain ⟨w, scopes, a, hdoes, hwaits, -⟩ := h
    cases hdoes
    exact ⟨w, _, hwaits, rfl⟩
  obtain ⟨w, a, hwaits, hwant⟩ := hwaits
  have hlength := hwaits.length_eq
  have hapart := hwaits.apart hwant
  have halone : Alongside (byName T w₀) (Config.onto ⟨.exec st, [], σ⟩ fs)
      (Config.onto ⟨.exec st, [], τ⟩ fs') := h
  have heq : ∀ n, (Direct.run g' n ⟨.exec st, [], τ⟩).halted
      = (Config.run g n ⟨.exec st, [], σ⟩).halted := fun n =>
    (halone.run_onto hlength hapart hg hclock hlimit n).halted_onto hlength
  constructor
  · rintro o σ₁ ⟨n, ho, hrun⟩
    have hhalted : (Config.run g n ⟨.exec st, [], σ⟩).halted = true := by rw [hrun, ho]
    obtain ⟨m, o₀, σ₀, o', τ₁, hrun₀, hrun', honto, honto'⟩ :=
      halone.ended_onto hlength hapart hg hclock hlimit hhalted
    cases hrun.symm.trans hrun₀
    rw [← heq, hrun'] at hhalted
    exact ⟨m, o', τ₁, ⟨n, hhalted, hrun'⟩, honto, honto'⟩
  · rintro o' τ₁ ⟨n, ho', hrun'⟩
    have hhalted : (Config.run g n ⟨.exec st, [], σ⟩).halted = true := by rw [← heq, hrun', ho']
    obtain ⟨m, o, σ₁, o₀, τ₀, hrun, hrun₀, honto, honto'⟩ :=
      halone.ended_onto hlength hapart hg hclock hlimit hhalted
    cases hrun'.symm.trans hrun₀
    rw [hrun] at hhalted
    exact ⟨m, o, σ₁, ⟨n, hhalted, hrun⟩, honto, honto'⟩

end Lockstep

end Lox
