/-
  Lox.Proofs.Session.Loops
  ────────────────────────
  **LOOPS OF A SESSION.**

  Chunks that a session runs by their distances can be executed by lexical
  scoping as well.  Between two chunks the variables of both match
  (`mirrored_of_mirrors`), so a chunk that is accepted goes on alongside itself.

  So the loops of a chunk run as they are written (`loops_as_written`).  The
  chunk cannot be told apart from the same one without distances, and there a
  loop does what `Direct.Loops` says, round after round.  Every name that can
  be used where the loop stands means the same in both when the loop begins and
  when it ends (`State.Reads`).
-/
import Lox.Proofs.Loop.Alike
import Lox.Proofs.Loop.Rounds

namespace Lox

open Lockstep Resolve

/-! ## §1. Charts that know more. -/

theorem Lockstep.Filled.extend {T T' : Chart} (hT : T.Extends T') {w : Cells} (h : Filled T w) :
    Filled T' w := by
  refine ⟨h.root, h.root', ?_, ?_, h.injective, h.this, h.super⟩
  · exact fun name => optionRel_imp (fun _ _ => .extend hT) (h.globals name)
  · intro a name a' hc
    obtain ⟨ha, ha', v, v', hv, hv', hmatch⟩ := h.cell a name a' hc
    exact ⟨ha, ha', v, v', hv, hv', hmatch.extend hT⟩

theorem Lockstep.StateMatch.extend_byName {T T' : Chart} (hT : T.Extends T') {w₀ w : Cells}
    {ps : List Place} {s s' : State} (h : StateMatch (byName T w₀) w ps s s') :
    StateMatch (byName T' w) w ps s s' := by
  obtain ⟨hF, hF', hfilled, hstacked, -⟩ := h.scopes
  exact ⟨⟨hF, hF', hfilled.extend hT, hstacked, .refl w⟩,
    h.objects.imp (MethodMatch.extend hT) (FunctionMatch.extend hT), h.nextIdentity, h.sink,
    h.depth, h.readings⟩

namespace Session

/-! ## §2. Sessions and programs without distances. -/

/-- A source as a program without distances. -/
def direct (s : Session) (source : String) (t : State) : Config :=
  ⟨.execAll (s.parsed source).statements, [], t⟩

/-- **A session and what the same chunks leave behind without distances**, with
the programs that were accepted. -/
inductive Mirrors : Session → State → List (List Stmt) → Prop
  | new (capacity : Option Nat) : Mirrors (.new capacity) (.initial capacity) []
  | run {s : Session} {t : State} {past : List (List Stmt)} (h : Mirrors s t past) {source : String}
      (ha : s.Accepts source) (fuel : Nat) (clock : Clock)
      (hended : (s.run fuel clock source).2 ≠ .unfinished) :
      Mirrors (s.run fuel clock source).1
        (Direct.run (Lexical.setting clock) fuel (s.direct source t)).state
        ((s.parsed source).statements :: past)
  | rejected {s : Session} {t : State} {past : List (List Stmt)} (h : Mirrors s t past)
      {source : String} (ha : ¬ s.Accepts source) (fuel : Nat) (clock : Clock) :
      Mirrors (s.run fuel clock source).1 t past

/-- Every session that chunks lead to is mirrored. -/
theorem Reachable.exists_mirrors {s : Session} (h : s.Reachable) : ∃ t past, s.Mirrors t past := by
  induction h with
  | new capacity => exact ⟨_, _, .new capacity⟩
  | @run s _ fuel clock source hended ih =>
    obtain ⟨t, past, ht⟩ := ih
    by_cases ha : s.Accepts source
    · exact ⟨_, _, ht.run ha fuel clock hended⟩
    · exact ⟨t, past, ht.rejected ha fuel clock⟩

/-- **What both keep between two chunks**: they are at the top level, their
variables match, and their functions are from the programs that were accepted. -/
structure Mirrored (s : Session) (t : State) (past : List (List Stmt)) : Prop where
  kept : s.Kept
  scope : t.scope = globalScope
  state : ∃ w, StateMatch (byName (s.chart.standing past) w) w [⟨globalScope, globalScope, []⟩]
    s.machine.state t

/-- What is known while an accepted source runs, with the places where statements
stand in it and in the programs before it. -/
def placedChart (s : Session) (source : String) (past : List (List Stmt)) : Chart :=
  (s.chunkChart source).standing ((s.parsed source).statements :: past)

section Mirrored

variable {s : Session} {t : State} {past : List (List Stmt)} {source : String}

theorem Mirrored.start (hm : s.Mirrored t past) (h : s.Accepts source) :
    ∃ w, Alongside (byName (s.placedChart source past) w) (s.start source)
      (s.direct source t) := by
  obtain ⟨w, hstate⟩ := hm.state
  have hbound : BoundStmts (s.placedChart source past) false [] (s.parsed source).statements :=
    (h.bound hm.kept).standing List.mem_cons_self _ .program .nil
  have hdoes : Does cells (s.placedChart source past) w (s.start source).control
      (s.direct source t).control [] ⟨.completion, false, Scopes.afterAll [] _, []⟩ :=
    .execAll hbound
  have hnil : Scopes.afterAll [] (s.parsed source).statements = [] :=
    List.isEmpty_iff.mp (isEmpty_afterAll [] _)
  rw [hnil] at hdoes
  refine ⟨w, w, [], _, hdoes, .bottom, ?_⟩
  show StateMatch _ _ [⟨s.machine.state.scope, t.scope, []⟩] _ _
  rw [hm.kept.scope, hm.scope]
  exact hstate.extend_byName (h.extends.standing (List.subset_cons_self _ _))

/-- Every point of the run of an accepted source. -/
theorem Mirrored.run (hm : s.Mirrored t past) (h : s.Accepts source) (clock : Clock) (n : Nat) :
    ∃ w, Alongside (byName (s.placedChart source past) w)
      (Config.run (s.setting clock source) n (s.start source))
      (Direct.run (Lexical.setting clock) n (s.direct source t)) := by
  obtain ⟨w, hstart⟩ := hm.start h
  have hclock : (Lexical.setting clock).clock = (s.setting clock source).clock := rfl
  exact ⟨w, hstart.run_direct (s.charted clock source) hclock rfl n⟩

/-- A chunk that ends leaves matching variables. -/
theorem Mirrored.run_ended (hm : s.Mirrored t past) (h : s.Accepts source) {fuel : Nat}
    {clock : Clock} (hended : (s.run fuel clock source).2 ≠ .unfinished) :
    Mirrored (s.run fuel clock source).1
      (Direct.run (Lexical.setting clock) fuel (s.direct source t)).state
      ((s.parsed source).statements :: past) := by
  have hkept := hm.kept.run_ended hended
  obtain ⟨w₀, halong⟩ := hm.run h clock fuel
  rw [run_eq h fuel clock] at hended hkept ⊢
  dsimp only at hended hkept ⊢
  generalize hc : Config.run (s.setting clock source) fuel (s.start source) = c
    at hended hkept halong
  generalize Direct.run (Lexical.setting clock) fuel (s.direct source t) = c' at halong
  have hending : c.ending ≠ .unfinished := by
    intro heq
    rw [heq] at hended
    exact hended rfl
  obtain ⟨w, hstate⟩ := halong.ended hending
  have hscope : c.state.scope = globalScope := (hstate.shows.top rfl).1
  have hscope' : c'.state.scope = globalScope := (hstate.shows.top rfl).2
  rw [hscope, hscope'] at hstate
  have hkeeps : (s.chunkChart source).Keeps
      (chart ⟨⟨c.state, (s.setting clock source).distances⟩, (s.parsed source).nextId⟩) :=
    ⟨Nat.le_refl _, fun _ _ => rfl, fun hstrict => hstrict⟩
  exact ⟨hkept, hscope', w, hstate.extend_byName (hkeeps.standing (List.Subset.refl _))⟩

end Mirrored

theorem mirrored_of_mirrors {s : Session} {t : State} {past : List (List Stmt)}
    (h : s.Mirrors t past) : s.Mirrored t past := by
  induction h with
  | new capacity => exact ⟨kept_new capacity, rfl, initialCells capacity, state_initial _ capacity⟩
  | run _ ha fuel clock hended ih => exact ih.run_ended ha hended
  | @rejected s t past _ source ha fuel clock ih =>
    obtain ⟨hsession, -⟩ := run_rejected ha fuel clock
    have hle := s.le_nextId_parsed source
    have hkeeps : s.chart.Keeps (chart ⟨s.machine, (s.parsed source).nextId⟩) :=
      ⟨hle, fun _ _ => rfl, fun hstrict => hstrict⟩
    rw [hsession]
    obtain ⟨w, hstate⟩ := ih.state
    exact ⟨ih.kept.rejected hle, ih.scope, w,
      hstate.extend_byName (hkeeps.standing (List.Subset.refl _))⟩

/-! ## §3. Loops. -/

/-- **Loops run as they are written.**  Whatever chunks came before, at every
moment of an accepted chunk it cannot be told apart from the same chunk without
distances, and both end alike.  A statement that is executed stands at a place
of this chunk or of an earlier one, and there every name means the same in both.

Whenever a loop begins, the loop comes to an end exactly if it does so as it is
written: its initializer once, then round after round the condition, the body and
the increment.  Then the chunk without distances goes on in the state that the
loop as it is written has ended in, and all names mean the same again as where
the loop stands. -/
theorem loops_as_written {s : Session} {t : State} {past : List (List Stmt)} (hs : s.Mirrors t past)
    {source : String} (h : s.Accepts source) (clock : Clock) :
    let programs := (s.parsed source).statements :: past
    let g := s.setting clock source
    let g' := Lexical.setting clock
    let point := fun n => Config.run g n (s.start source)
    let point' := fun n => Direct.run g' n (s.direct source t)
    (∀ n, (point n).Alike (point' n) ∧ (point' n).ending = (point n).ending
      ∧ ∀ st, (point n).control = .exec st →
        ∃ k, Standing programs k st ∧ (point n).state.Reads k (point' n).state)
    ∧ ∀ n initializer condition increment body frames σ,
      let loop := Stmt.forLoop initializer condition increment body
      body.declared? = none → point n = ⟨.exec loop, frames, σ⟩ →
      ∃ k frames' τ, Standing programs k loop ∧ point' n = ⟨.exec loop, frames', τ⟩
        ∧ σ.Reads k τ
        ∧ (∀ o σ₁, Config.Executes g loop σ o σ₁ →
          ∃ m o' τ₁, Direct.Loops g' condition increment body initializer τ o' τ₁
            ∧ point (n + m) = ⟨o, frames, σ₁⟩ ∧ point' (n + m) = ⟨o', frames', τ₁⟩
            ∧ σ₁.Reads k τ₁)
        ∧ ∀ o' τ₁, Direct.Loops g' condition increment body initializer τ o' τ₁ →
          ∃ m o σ₁, Config.Executes g loop σ o σ₁
            ∧ point (n + m) = ⟨o, frames, σ₁⟩ ∧ point' (n + m) = ⟨o', frames', τ₁⟩
            ∧ σ₁.Reads k τ₁ := by
  intro programs g g' point point'
  have hg := s.charted clock source
  have hclock : g'.clock = g.clock := rfl
  have hlimit : g'.callLimit = g.callLimit := rfl
  have hrun := (mirrored_of_mirrors hs).run h clock
  constructor
  · intro n
    obtain ⟨w₀, hn⟩ := hrun n
    refine ⟨hn.alike, hn.ending, ?_⟩
    intro st hst
    change Alongside _ (point n) (point' n) at hn
    generalize point n = c at hn hst
    obtain ⟨control, frames, σ⟩ := c
    obtain rfl : control = .exec st := hst
    obtain ⟨k, w, hstanding, hsees, hpinned⟩ := hn.stands
    exact ⟨k, hstanding, hpinned.reads hsees⟩
  · intro n initializer condition increment body frames σ loop hdeclared hpoint
    obtain ⟨w₀, hn⟩ := hrun n
    rw [show Config.run g n (s.start source) = _ from hpoint] at hn
    obtain ⟨frames', τ, hpoint'⟩ := hn.exec
    rw [hpoint'] at hn
    obtain ⟨k, w, hstanding, hsees, hpinned⟩ := hn.stands
    have hloops : ∀ {o' τ₁}, Direct.Executes g' loop τ o' τ₁
        ↔ Direct.Loops g' condition increment body initializer τ o' τ₁ :=
      Direct.executes_forLoop initializer hn.proper.forLoop_body hdeclared
    -- both go on from the end of the loop in the scopes that it began in
    have hend : ∀ {m o σ₁ o' τ₁}, Config.Executes g loop σ o σ₁ →
        Direct.Executes g' loop τ o' τ₁ →
        Config.run g m ⟨.exec loop, frames, σ⟩ = ⟨o, frames, σ₁⟩ →
        Direct.run g' m ⟨.exec loop, frames', τ⟩ = ⟨o', frames', τ₁⟩ →
        point (n + m) = ⟨o, frames, σ₁⟩ ∧ point' (n + m) = ⟨o', frames', τ₁⟩
          ∧ σ₁.Reads k τ₁ := by
      intro m o σ₁ o' τ₁ hends hends' hm hm'
      have halong := hpinned.run_direct hg hclock hlimit m
      rw [hm, hm'] at halong
      have hscope' := hends'.scope hn.proper (Stmt.declared?_forLoop _ _ _ _)
      rw [← hends.scope, ← hscope'] at hsees
      refine ⟨?_, ?_, halong.reads hsees⟩
      · show Config.run g (n + m) _ = _
        rw [Config.run_add, show Config.run g n _ = _ from hpoint, hm]
      · show Direct.run g' (n + m) _ = _
        rw [Direct.run_add, show Direct.run g' n _ = _ from hpoint', hm']
    obtain ⟨hforth, hback⟩ := hpinned.executes hg hclock hlimit
    refine ⟨k, frames', τ, hstanding, hpoint', hpinned.reads hsees, ?_, ?_⟩
    · intro o σ₁ hends
      obtain ⟨m, o', τ₁, hends', hm, hm'⟩ := hforth o σ₁ hends
      exact ⟨m, o', τ₁, hloops.mp hends', hend hends hends' hm hm'⟩
    · intro o' τ₁ hends'
      obtain ⟨m, o, σ₁, hends, hm, hm'⟩ := hback o' τ₁ (hloops.mpr hends')
      exact ⟨m, o, σ₁, hends, hend hends (hloops.mpr hends') hm hm'⟩

/-- The clauses of a program that is one loop with all of them around a block. -/
def clauses? : List Stmt → Option (Stmt × Expr × Expr × List Stmt)
  | [.block [initializer, .while condition (.block [.block body, .expression increment])]] =>
      some (initializer, condition, increment, body)
  | _ => none

theorem eq_of_clauses? {ss : List Stmt} {p : Stmt × Expr × Expr × List Stmt}
    (h : clauses? ss = some p) :
    ss = [.forLoop (some p.1) (some p.2.1) (some p.2.2.1) (.block p.2.2.2)] := by
  unfold clauses? at h
  split at h
  · cases h
    rfl
  · cases h

/-- A loop whose body prints and then fails: so does the loop as it is written, and the
chunk without distances fails with it. -/
theorem loops_as_written_failing :
    let s : Session := .new none
    let source := "for (var i = true; true; nil) \x7b print \"a\"; -nil; \x7d"
    s.Mirrors (.initial none) [] ∧ s.Accepts source
      ∧ ∃ initializer condition increment body,
        let loop := Stmt.forLoop (some initializer) (some condition) (some increment) body
        body.declared? = none
          ∧ Config.run (s.setting (.still 0) source) 1 (s.start source)
            = ⟨.exec loop, [.sequence []], .initial none⟩
          ∧ ∃ m frames τ o τ₁, Direct.run (Lexical.setting (.still 0)) 1
              (s.direct source (.initial none)) = ⟨.exec loop, frames, τ⟩
            ∧ Direct.Loops (Lexical.setting (.still 0)) (some condition) (some increment) body
              (some initializer) τ o τ₁
            ∧ Direct.run (Lexical.setting (.still 0)) (1 + m) (s.direct source (.initial none))
              = ⟨o, frames, τ₁⟩
            ∧ τ₁.sink.written = "a\n".toUTF8 := by
  intro s source
  have hmirrors : s.Mirrors (.initial none) [] := .new none
  have h : s.Accepts source := ⟨by decide +kernel, by decide +kernel⟩
  have hended : ((s.parsed source).statements.map fun st =>
      let c := Config.run (s.setting (.still 0) source) 40 ⟨.exec st, [], .initial none⟩
      (c.halted, c.state.sink.written)) = [(true, "a\n".toUTF8)] := by decide +kernel
  have hsome : (clauses? (s.parsed source).statements).isSome := by decide +kernel
  obtain ⟨p, hp⟩ := Option.isSome_iff_exists.mp hsome
  have hstatements := eq_of_clauses? hp
  have hstart : s.start source = ⟨.execAll (s.parsed source).statements, [], .initial none⟩ := rfl
  rw [hstatements] at hended hstart
  obtain ⟨hhalted, hprinted⟩ := Prod.mk.inj (List.cons.inj hended).1
  have hpoint : Config.run (s.setting (.still 0) source) 1 (s.start source)
      = ⟨.exec (.forLoop (some p.1) (some p.2.1) (some p.2.2.1) (.block p.2.2.2)), [.sequence []],
        .initial none⟩ := by
    rw [hstart]
    rfl
  obtain ⟨hpoints, hloops⟩ := loops_as_written hmirrors h (.still 0)
  obtain ⟨k, frames, τ, -, hpoint', -, hforth, -⟩ := hloops 1 _ _ _ _ _ _ rfl hpoint
  generalize hafter : Config.run (s.setting (.still 0) source) 40 _ = after at hhalted hprinted
  obtain ⟨o, frames₁, σ₁⟩ := after
  obtain rfl : frames₁ = [] := Config.frames_of_halted hhalted
  obtain ⟨m, o', τ₁, hends, hm, hm', -⟩ := hforth o σ₁ ⟨40, hhalted, hafter⟩
  have hsink : τ₁.sink = σ₁.sink := by
    have hstate := (hpoints (1 + m)).1.state.sink
    rw [hm, hm'] at hstate
    exact hstate
  refine ⟨hmirrors, h, p.1, p.2.1, p.2.2.1, .block p.2.2.2, rfl, hpoint, m, frames, τ, o', τ₁,
    hpoint', hends, hm', ?_⟩
  rw [hsink]
  exact hprinted

end Session

end Lox
