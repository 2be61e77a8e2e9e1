/-
  Lox.Proofs.Loop.Alongside
  ─────────────────────────
  **BLOCKS WITHOUT ENVIRONMENTS.**

  A program with distances opens a scope for every block, and the distances of
  its names count these scopes.  Without distances a block needs none.  So a
  new scope that has no names yet is seen from the environment that the block
  was entered in (`hollow_shows`), and the two programs go on alongside each
  other (`Alongside.step_direct`).

  An assignment to a variable that has no value yet fails in both, as its
  initializer is being evaluated just when the static scopes have declared the
  name and not defined it (`Waits.initializing`).  So nothing is assumed about
  initializers here.
-/
import Lox.Proofs.Loop.Ends

namespace Lox.Lockstep

open Resolve

variable {T : Chart} {w₀ w : Cells} {ps : List Place} {s s' : State} {scopes : Scopes}
  {g g' : Setting} {o : Occurrence} {fs fs' : List Frame} {i : Bool}

/-! ## §1. Scopes without names. -/

/-- Both stores after a new scope here that has no names yet. -/
def Cells.hollow (w : Cells) (n : ScopeId) : Cells where
  here := w.here.child n []
  there := w.there
  cell := w.cell

section Hollow

variable {n n' : ScopeId}

theorem hollow_grows (w : Cells) (n : ScopeId) : w.Grows (w.hollow n) := by
  refine ⟨?_, (grows_child w.here n []).links, .refl w.there, fun _ _ _ h => h⟩
  exact Nat.le_of_lt (Forest.nextId_lt_child w.here n [])

/-- **A scope without names** and the environment around it show the same
names. -/
theorem hollow_shows (hs : w.Shows n n' scopes) (hne : scopes ≠ []) :
    (w.hollow n).Shows w.here.nextId n' ([] :: scopes) := by
  have hs' := hs.mono (hollow_grows w n)
  have hlink : (w.here.child n []).enclosing? w.here.nextId = some n :=
    Forest.enclosing?_child_self w.here n [] hs.lt
  have hinner := And.intro (ne_global_of_enclosing? hlink) (hs.inner hne).2
  refine ⟨?_, hs'.lt', nofun, fun _ => hinner, ?_, ?_, ?_⟩
  · exact Forest.nextId_lt_child w.here n []
  · intro name d hfind
    obtain ⟨⟨d', b⟩, hfind', heq⟩ := Option.map_eq_some_iff.mp hfind
    cases heq
    obtain ⟨a, a', ha, hfinds, hcell⟩ := hs'.found name d' hfind'
    refine ⟨a, a', ?_, hfinds, hcell⟩
    show ((w.here.child n []).enclosing? w.here.nextId).bind _ = some a
    rw [hlink]
    exact ha
  · intro name hfind
    exact hs'.free name (Option.map_eq_none_iff.mp hfind)
  · intro outer houter
    have hnil : [] = thisScope := (List.cons.inj houter).1
    unfold thisScope at hnil
    cases hnil

theorem hollow_filled (h : Filled T w) (n : ScopeId) : Filled T (w.hollow n) := by
  have hg := hollow_grows w n
  have hget : ∀ id name v, ((w.here.child n []).bindings id).get? name = some v →
      (w.here.bindings id).get? name = some v := by
    intro id name v hv
    rw [Forest.bindings_child] at hv
    split at hv
    · cases hv
    · exact hv
  refine ⟨Nat.lt_of_lt_of_le h.root hg.nextId, h.root', ?_, ?_, h.injective, ?_, ?_⟩
  · intro name
    show Option.Rel _ (((w.here.child n []).bindings globalScope).get? name) _
    rw [Forest.bindings_child_of_lt _ _ _ h.root]
    exact optionRel_imp (fun _ _ => ValueMatch.mono hg) (h.globals name)
  · intro a name a' hc
    obtain ⟨ha, ha', v, v', hv, hv', hmatch⟩ := h.cell a name a' hc
    exact ⟨ha, ha', v, v', Forest.get?_child_of_get? _ _ _ hv, hv', ValueMatch.mono hg hmatch⟩
  · exact fun id v hv => h.this id v (hget id "this" v hv)
  · exact fun id v hv => h.super id v (hget id "super" v hv)

theorem hollow_stacked (hs : w.Shows n n' scopes) (hne : scopes ≠ []) (hps : Stacked w ps) :
    Stacked (w.hollow n) (⟨w.here.nextId, n', [] :: scopes⟩ :: ps) := by
  refine ⟨?_, ?_, ?_⟩
  · intro p hp
    rcases List.mem_cons.mp hp with rfl | hp
    · exact hollow_shows hs hne
    · exact (hps.shows p hp).mono (hollow_grows w n)
  · intro p hp scope hscope name hname
    change ((w.here.child n []).bindings p.here).binds name at hname
    rcases List.mem_cons.mp hp with rfl | hp
    · rw [Forest.bindings_child_self] at hname
      cases hname
    · rw [Forest.bindings_child_of_lt _ _ _ (hps.shows p hp).lt] at hname
      exact hps.tight p hp scope hscope name hname
  · rw [List.map_cons, List.pairwise_cons]
    refine ⟨?_, hps.newer⟩
    intro id hid
    obtain ⟨p, hp, rfl⟩ := List.mem_map.mp hid
    exact (hps.shows p hp).lt

end Hollow

/-! ## §2. Blocks. -/

/-- **A block is entered**: with a scope of its own here, and there only at the
top level. -/
theorem alongside_block {body : List Stmt} (hb : BoundStmt T i scopes (.block body))
    (hw : Waits cells T w ⟨.completion, i, scopes, ps⟩ fs fs')
    (hs : StateMatch (byName T w₀) w (⟨s.scope, s'.scope, scopes⟩ :: ps) s s') :
    Alongside (byName T w₀) (Config.exec ⟨.exec (.block body), fs, s⟩ (.block body))
      ⟨.execAll body, .leave s'.scope :: fs', Direct.inward s'⟩ := by
  by_cases htop : s'.scope = globalScope
  · unfold Direct.inward
    rw [if_pos htop]
    exact alongside_exec hb hw hs id
  · obtain ⟨hF, hF', hfilled, hstacked, hsince⟩ := hs.scopes
    have hne : scopes ≠ [] := fun hnil => htop (hs.shows.top hnil).2
    have hg := hollow_grows w s.scope
    have hstacked' := hollow_stacked hs.shows hne hstacked
    have hdefined := BoundStmts.allDefined_afterAll hb.2
    unfold Direct.inward
    rw [if_neg htop]
    refine ⟨w.hollow s.scope, _, _, .execAll hb.2,
      .cons (.leave ⟨s.scope, s'.scope, scopes⟩ hdefined) (hw.mono hg), ?_⟩
    rw [← hF] at hstacked'
    exact ⟨⟨congrArg (·.child s.scope []) hF, hF', hollow_filled hfilled s.scope, hstacked',
      hsince.trans hg⟩, hs.objects.mono hg, hs.nextIdentity, hs.sink, hs.depth, hs.readings⟩

/-! ## §3. Assignments. -/

section Waiting

variable {S : Sight} {world : S.World} {a : Stance}

/-- Both programs evaluate the same initializers. -/
theorem Waits.initializing_eq (h : Waits S T world a fs fs') (name : String) :
    Lox.initializing name fs' = Lox.initializing name fs := by
  induction h with
  | bottom => rfl
  | cons hop _ ih =>
    cases hop with
    | define => rfl
    | _ => exact congrArg (_ && ·) ih

/-- The name of an initializer is declared where names are local. -/
theorem Waits.isSome_find? (h : Waits S T world a fs fs') (hwant : a.want = .value)
    (hne : a.scopes ≠ []) {name : String} (hinit : Lox.initializing name fs = true) :
    (a.scopes.find? name).isSome := by
  -- down the frames of the expression to the declaration that it belongs to
  induction h with
  | bottom => cases hwant
  | cons hop _ ih =>
    cases hop with
    | unary | binaryLeft | binaryRight | logical | assign | callee | argument | get | setObject
      | setValue => exact ih rfl hne hinit
    | @define _ scopes _ t hname =>
      obtain rfl : t.lexeme = name := eq_of_beq hinit
      cases scopes with
      | nil => exact absurd rfl hne
      | cons scope rest =>
        have hnew : scope.binds t.lexeme = false := by
          have hnone : scope.get? t.lexeme = none := hname.2
          rw [Bindings.binds, hnone]
          rfl
        rw [Scopes.declare, hnew, if_neg Bool.false_ne_true, Scopes.find?_insert_false, if_pos rfl]
        rfl
    | _ => cases hinit

end Waiting

/-- A variable that has no value yet cannot be assigned to by its distance. -/
theorem assignmentTarget_of_declared
    (h : StateMatch (byName T w₀) w (⟨s.scope, s'.scope, scopes⟩ :: ps) s s') (hg : Charted T g)
    (hl : Located T scopes o) (hfind : scopes.find? o.name.lexeme = some (0, false)) :
    Config.assignmentTarget g s o = .error (.undefinedVariable o.name.lexeme) := by
  have hd := hg.located hl
  rw [hfind] at hd
  have hunbound : (s.scopes.bindings s.scope).binds o.name.lexeme = false := by
    cases scopes with
    | nil => cases hfind
    | cons scope rest =>
      obtain ⟨hF, -, -, hstacked, -⟩ := h.scopes
      rw [Bool.eq_false_iff]
      intro hbinds
      rw [hF] at hbinds
      have htrue := hstacked.tight _ List.mem_cons_self scope rfl _ hbinds
      rw [Scopes.find?, htrue] at hfind
      cases hfind
  unfold Config.assignmentTarget
  rw [hd]
  dsimp only [Option.map]
  rw [Forest.targetAt_of_ancestor? rfl, hunbound]
  rfl

/-- **An assignment** changes one variable, or fails, in both programs. -/
theorem Ready.assigning_direct (h : Ready (byName T w₀) w ⟨.value, i, scopes, ps⟩ fs fs' s s')
    (hg : Charted T g) (hl : Located T scopes o) (ho : Ordinary o.name.lexeme) {v v' : Value}
    (hv : ValueMatch cells T w v v') (control control' : Control) :
    Alongside (byName T w₀) (Config.assigning g ⟨control, fs, s⟩ o v)
      (Direct.assigning ⟨control', fs', s'⟩ o.name v') := by
  have hinner : s'.scope ≠ globalScope ↔ scopes ≠ [] :=
    ⟨fun hscope hnil => hscope (h.states.shows.top hnil).2, fun hne => (h.states.shows.inner hne).2⟩
  unfold Direct.assigning
  dsimp only
  rw [h.frames.initializing_eq]
  cases hfind : scopes.find? o.name.lexeme with
  | none =>
    -- a name that is being initialized would be declared
    rw [if_neg]
    · exact h.assigning_byName hg hl ho (fun d hd => by rw [hfind] at hd; cases hd) hv _ _
    · rintro ⟨hscope, hinit⟩
      have hsome := h.frames.isSome_find? rfl (hinner.mp hscope) hinit
      rw [hfind] at hsome
      cases hsome
  | some p =>
    obtain ⟨d, b⟩ := p
    obtain ⟨hzero, hb⟩ := h.frames.initializing rfl hfind
    cases b with
    | true =>
      rw [if_neg]
      · exact h.assigning_byName hg hl ho (fun d' hd => by rw [hfind] at hd; cases hd) hv _ _
      · rintro ⟨-, hinit⟩
        rw [hinit] at hb
        cases hb
    | false =>
      obtain rfl := hzero rfl
      have hne : scopes ≠ [] := by
        rintro rfl
        cases hfind
      have hinit : initializing o.name.lexeme fs = true := by
        cases hi : initializing o.name.lexeme fs with
        | true => rfl
        | false =>
          rw [hi] at hb
          cases hb
      rw [if_pos ⟨hinner.mpr hne, hinit⟩]
      unfold Config.assigning
      rw [assignmentTarget_of_declared h.states hg hl hfind]
      exact h.failing (by trivial) _

/-! ## §4. Steps and runs. -/

theorem Alongside.own {S : Sight} {D : Discipline S T} {c c' : Config} (h : Alongside D c c') :
    Direct.Own c' ↔ Direct.Own c := by
  have hblock : (∃ body, c'.control = .exec (.block body))
      ↔ ∃ body, c.control = .exec (.block body) := by
    obtain ⟨w, scopes, a, hdoes, -, -⟩ := h
    generalize c.control = control at hdoes
    generalize c'.control = control' at hdoes
    cases hdoes <;> simp
  exact or_congr h.naming hblock

/-- **Every step with distances is a direct step.** -/
theorem Alongside.step_direct {c c' : Config} (h : Alongside (byName T w₀) c c') (hg : Charted T g)
    (hclock : g'.clock = g.clock) (hlimit : g'.callLimit = g.callLimit) :
    Alongside (byName T w₀) (c.step g) (Direct.step g' c') := by
  by_cases hown : Direct.Own c
  · obtain ⟨control, frames, state⟩ := c
    obtain ⟨control', frames', state'⟩ := c'
    obtain ⟨w, scopes, a, hdoes, hwaits, hstates⟩ := h
    dsimp only at hdoes hwaits hstates
    rcases hown with hn | ⟨body, rfl⟩
    · cases hdoes with
      | @eval _ _ _ e hb =>
        have hstep : Direct.step g' ⟨.eval e, frames', state'⟩
            = Lexical.step g' ⟨.eval e, frames', state'⟩ := rfl
        rw [hstep]
        exact alongside_eval_byName hb ⟨hwaits, hstates⟩ hg hn
      | @exec _ _ _ st hb =>
        have hstep : Direct.step g' ⟨.exec st, frames', state'⟩
            = Lexical.step g' ⟨.exec st, frames', state'⟩ := by
          cases st with
          | block => exact hn.elim
          | _ => rfl
        rw [hstep]
        exact alongside_exec_byName hb hwaits hstates hn
      | value hv =>
        cases hwaits with
        | cons hop hrest =>
          cases hop with
          | assign hl ho => exact Ready.assigning_direct ⟨hrest, hstates⟩ hg hl ho hv _ _
          | define hname => exact alongside_define_byName hname hrest hstates hv
          | _ => exact hn.elim
      | _ => exact hn.elim
    · cases hdoes with
      | exec hb => exact alongside_block hb hwaits hstates
  · rw [Direct.step_eq fun hown' => hown (h.own.mp hown')]
    exact h.step hclock hlimit fun hn => hown (.inl hn)

/-- **Runs with distances and direct runs** stay alongside. -/
theorem Alongside.run_direct {c c' : Config} (h : Alongside (byName T w₀) c c') (hg : Charted T g)
    (hclock : g'.clock = g.clock) (hlimit : g'.callLimit = g.callLimit) (n : Nat) :
    Alongside (byName T w₀) (c.run g n) (Direct.run g' n c') := by
  induction n generalizing c c' with
  | zero => exact h
  | succ n ih =>
    rw [Config.run_succ, Direct.run_succ]
    exact ih (h.step_direct hg hclock hlimit)

end Lox.Lockstep
