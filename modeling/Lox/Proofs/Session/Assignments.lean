/-
  Lox.Proofs.Session.Assignments
  ──────────────────────────────
  **WHAT AN ASSIGNMENT WITH A DISTANCE FINDS.**

  The scope analysis notes the distance to a local variable once its name is
  declared.  The variable itself comes later: it gets its place when its
  initializer has a value.  Reading the variable in between is a static error,
  assigning to it is none.

  So the scope that the distance of an assignment leads to holds the variable,
  unless the assignment belongs to the initializer of that variable; then the
  assignment fails (`Session.assigns_by_distance`).
-/
import Lox.Proofs.Session.Kept

namespace Lox

open Lockstep Resolve

/-! ## §1. Initializers that have no value yet. -/

/-- The frame waits for a part of an expression. -/
def Frame.operand : Frame → Bool
  | .unary _ | .binaryLeft _ _ | .binaryRight _ _ | .logical _ _ | .assign _ | .callee _ _
  | .argument _ _ _ _ | .get _ | .setObject _ _ | .setValue _ _ => true
  | _ => false

/-- The expression that the frames belong to is the initializer of a variable
with this name. -/
def initializing (name : String) : List Frame → Bool
  | [] => false
  | .define t :: _ => t.lexeme == name
  | frame :: rest => frame.operand && initializing name rest

/-- The assignment that the next step carries out: its value, its variable and
the frames around it. -/
def Config.assigned? (c : Config) : Option (Value × Occurrence × List Frame) :=
  match c.control, c.frames with
  | .value v, .assign o :: rest => some (v, o, rest)
  | _, _ => none

theorem Config.assigned?_eq_some {c : Config} {v : Value} {o : Occurrence} {rest : List Frame} :
    c.assigned? = some (v, o, rest) ↔ c.control = .value v ∧ c.frames = .assign o :: rest := by
  obtain ⟨control, frames, state⟩ := c
  unfold assigned?
  dsimp only
  split
  · constructor
    · rintro ⟨⟩
      exact ⟨rfl, rfl⟩
    · rintro ⟨⟨⟩, ⟨⟩⟩
      rfl
  · next hnone =>
    constructor
    · rintro ⟨⟩
    · rintro ⟨rfl, rfl⟩
      exact absurd rfl (hnone v o rest rfl)

namespace Lockstep

section Waiting

variable {S : Sight} {T : Chart} {w : S.World} {a : Stance} {fs fs' : List Frame}

/-- **Statements are complete only where every declared name is defined.** -/
theorem Waits.allDefined (h : Waits S T w a fs fs') (hwant : a.want = .completion) :
    AllDefined a.scopes := by
  -- down the frames to the first one that knows what comes after the statement
  induction h with
  | bottom => exact allDefined_nil
  | cons hop hrest ih =>
    cases hop with
    | loopBody => exact ih rfl
    | sequence hb => exact BoundStmts.allDefined hb
    | leave _ hdefined => exact hdefined
    | call _ _ hdefined _ => exact hdefined
    | _ => cases hwant

/-- A name that is declared without a value is the name of the variable that
is being initialized, and the innermost scope declares it. -/
theorem find?_declare {scopes : Scopes} (hd : AllDefined scopes) {t : Token}
    (ht : Declarable T scopes t) {name : String} {d : Nat} {b : Bool}
    (h : (scopes.declare t.lexeme).find? name = some (d, b)) :
    (b = false → d = 0) ∧ b = !(t.lexeme == name) := by
  by_cases hname : t.lexeme = name
  · subst hname
    cases scopes with
    | nil => cases h
    | cons scope rest =>
      have hnew : scope.binds t.lexeme = false := by
        have hnone : scope.get? t.lexeme = none := ht.2
        rw [Bindings.binds, hnone]
        rfl
      rw [Scopes.declare, hnew, if_neg Bool.false_ne_true, Scopes.find?_insert_false,
        if_pos rfl] at h
      cases h
      simp
  · rw [Scopes.find?_declare_of_ne scopes hname] at h
    cases b with
    | false => exact absurd h (hd.defined name d)
    | true => simp [hname]

/-- **Which declared name has no variable** is told by the frames that wait
for a value. -/
theorem Waits.initializing (h : Waits S T w a fs fs') (hwant : a.want = .value) {name : String}
    {d : Nat} {b : Bool} (hfind : a.scopes.find? name = some (d, b)) :
    (b = false → d = 0) ∧ b = !Lox.initializing name fs := by
  -- down the frames of the expression to the statement that it belongs to
  induction h with
  | bottom => cases hwant
  | cons hop hrest ih =>
    have hdefined := hrest.allDefined
    cases hop with
    | unary | binaryLeft | binaryRight | logical | assign | callee | argument | get | setObject
      | setValue => exact ih rfl hfind
    | define hname => exact find?_declare (.of_add hname (hdefined rfl)) hname hfind
    | discard | print | branch | loopTest | returnValue | superclass =>
      cases b with
      | false => exact absurd hfind ((hdefined rfl).defined name d)
      | true => exact ⟨nofun, rfl⟩
    | _ => cases hwant

end Waiting

/-! ## §2. Points of a run. -/

/-- A name that the innermost static scope has only declared has no variable
in the scope of the program. -/
theorem Layered.binds_eq_false {F : Forest Value} {p : Place} {ps : List Place}
    (h : Layered F (p :: ps)) {name : String} (hfind : p.scopes.find? name = some (0, false)) :
    (F.bindings p.here).binds name = false := by
  have htight := h.tight p List.mem_cons_self
  cases hscopes : p.scopes with
  | nil =>
    rw [hscopes] at hfind
    cases hfind
  | cons scope rest =>
    rw [hscopes, Scopes.find?] at hfind
    rw [Bool.eq_false_iff]
    intro hbinds
    rw [htight scope (by rw [hscopes]; rfl) name hbinds] at hfind
    cases hfind

variable {T : Chart} {g : Setting} {c : Config}

/-- **The variable of an assignment** is where its distance leads, unless its
initializer is being evaluated. -/
theorem Alongside.binds_eq (h : Alongside (byDistance T) c c) (hg : Charted T g) {v : Value}
    {o : Occurrence} {rest : List Frame} (hassigned : c.assigned? = some (v, o, rest)) {d : Nat}
    (hd : g.distances[o.id]? = some d) :
    ∃ a, c.state.scopes.ancestor? c.state.scope d = some a
      ∧ (c.state.scopes.bindings a).binds o.name.lexeme
        = !Lox.initializing o.name.lexeme rest := by
  obtain ⟨hcontrol, hframes⟩ := Config.assigned?_eq_some.mp hassigned
  obtain ⟨control, frames, state⟩ := c
  obtain ⟨w, scopes, a, hdoes, hwaits, hstates⟩ := h
  dsimp only at hcontrol hframes hdoes hwaits hstates
  subst hcontrol hframes
  cases hdoes with
  | value _ =>
    cases hwaits with
    | cons hop hrest =>
      cases hop with
      | assign hl =>
        rw [hg.located hl] at hd
        obtain ⟨⟨d', b⟩, hfind, hd'⟩ := Option.map_eq_some_iff.mp hd
        obtain rfl : d' = d := hd'
        obtain ⟨hzero, hb⟩ := hrest.initializing rfl hfind
        obtain ⟨a, ha, hbinds⟩ := hstates.placed.2.find? hfind
        refine ⟨a, ha, ?_⟩
        rw [← hb]
        cases b with
        | true => exact hbinds rfl
        | false =>
          -- the name is declared in the scope of the program itself
          obtain rfl := hzero rfl
          cases ha
          exact hstates.scopes.2.2.binds_eq_false hfind

end Lockstep

/-- What a step does that assigns by a distance. -/
theorem Config.step_assigned {g : Setting} {c : Config} {v : Value} {o : Occurrence}
    {rest : List Frame} (hassigned : c.assigned? = some (v, o, rest)) {d : Nat}
    (hd : g.distances[o.id]? = some d) {a : ScopeId}
    (ha : c.state.scopes.ancestor? c.state.scope d = some a) :
    c.step g = if (c.state.scopes.bindings a).binds o.name.lexeme
      then ⟨.value v, rest, c.state.define a o.name.lexeme v⟩
      else ⟨.raising (.runtime o.name.line (.undefinedVariable o.name.lexeme)), rest, c.state⟩ := by
  obtain ⟨hcontrol, hframes⟩ := Config.assigned?_eq_some.mp hassigned
  obtain ⟨control, frames, state⟩ := c
  dsimp only at hcontrol hframes ha
  subst hcontrol hframes
  show Config.assigning g ⟨.value v, rest, state⟩ o v = _
  unfold Config.assigning Config.assignmentTarget
  rw [hd]
  dsimp only
  rw [Forest.targetAt_of_ancestor? ha]
  cases (state.scopes.bindings a).binds o.name.lexeme <;> rfl

namespace Session

/-! ## §3. Chunks. -/

/-- **An assignment with a distance misses its variable only in the
initializer of that variable.**  Whatever chunks came before, at every point of
the run of an accepted chunk the scope of the variable is there.  It holds the
variable, and the assignment changes it, exactly if the expression around the
assignment is not the initializer of a variable of that name; else the run
fails, for the variable is undefined. -/
theorem assigns_by_distance {s : Session} (hs : s.Reachable) {source : String}
    (h : s.Accepts source) (clock : Clock) (n : Nat) :
    let g := s.setting clock source
    let c := Config.run g n (s.start source)
    ∀ v o rest d, c.assigned? = some (v, o, rest) → g.distances[o.id]? = some d →
      ∃ a, c.state.scopes.ancestor? c.state.scope d = some a
        ∧ (c.state.scopes.bindings a).binds o.name.lexeme = !initializing o.name.lexeme rest
        ∧ c.step g = if initializing o.name.lexeme rest
            then ⟨.raising (.runtime o.name.line (.undefinedVariable o.name.lexeme)), rest, c.state⟩
            else ⟨.value v, rest, c.state.define a o.name.lexeme v⟩ := by
  intro g c v o rest d hassigned hd
  have halong := (kept_of_reachable hs).run h clock n
  obtain ⟨a, ha, hbinds⟩ := halong.binds_eq (s.charted clock source) hassigned hd
  refine ⟨a, ha, hbinds, ?_⟩
  rw [Config.step_assigned hassigned hd ha, hbinds]
  cases initializing o.name.lexeme rest <;> rfl

/-- The point of a run at which an initializer assigns to its own variable. -/
theorem point_initializing :
    let s : Session := .new none
    let source := "\x7b var a = (a = 1); print a; \x7d"
    s.Accepts source ∧ ∃ v o rest,
      (Config.run (s.setting (.still 0) source) 7 (s.start source)).assigned? = some (v, o, rest)
      ∧ o.name.lexeme = "a" ∧ o.name.line = 1
      ∧ (s.setting (.still 0) source).distances[o.id]? = some 0
      ∧ initializing "a" rest = true := by
  intro s source
  have h : s.Accepts source := ⟨by decide +kernel, by decide +kernel⟩
  have hpoint : (Config.run (s.setting (.still 0) source) 7 (s.start source)).assigned?.map
      (fun p => (p.2.1.name.lexeme, p.2.1.name.line,
        (s.resolution source).distances.lookup p.2.1.id, initializing "a" p.2.2))
        = some ("a", 1, some 0, true) := by
    decide +kernel
  obtain ⟨⟨v, o, rest⟩, hassigned, hp⟩ := Option.map_eq_some_iff.mp hpoint
  simp only [Prod.mk.injEq] at hp
  obtain ⟨hname, hline, hlookup, hinitializing⟩ := hp
  refine ⟨h, v, o, rest, hassigned, hname, hline, ?_, hinitializing⟩
  rw [h.getElem?_distances, hlookup]
  rfl

/-- There the assignment fails. -/
theorem assigns_by_distance_initializing :
    let s : Session := .new none
    let source := "\x7b var a = (a = 1); print a; \x7d"
    let g := s.setting (.still 0) source
    let c := Config.run g 7 (s.start source)
    s.Reachable ∧ s.Accepts source ∧ ∃ v o rest, c.assigned? = some (v, o, rest)
      ∧ g.distances[o.id]? = some 0
      ∧ c.step g = ⟨.raising (.runtime 1 (.undefinedVariable "a")), rest, c.state⟩ := by
  intro s source g c
  obtain ⟨h, v, o, rest, hassigned, hname, hline, hd, hinitializing⟩ := point_initializing
  obtain ⟨a, -, -, hstep⟩ := assigns_by_distance (.new none) h (.still 0) 7 v o rest 0 hassigned hd
  rw [hname, hline, hinitializing] at hstep
  exact ⟨.new none, h, v, o, rest, hassigned, hd, hstep⟩

/-- So the scope that the distance of an assignment leads to does not always hold
the variable. -/
theorem assignment_misses :
    let s : Session := .new none
    let source := "\x7b var a = (a = 1); print a; \x7d"
    let point := fun n => Config.run (s.setting (.still 0) source) n (s.start source)
    s.Reachable ∧ s.Accepts source
      ∧ ¬ ∀ n v o rest d, (point n).assigned? = some (v, o, rest) →
        (s.setting (.still 0) source).distances[o.id]? = some d →
        ∃ a, (point n).state.scopes.ancestor? (point n).state.scope d = some a
          ∧ ((point n).state.scopes.bindings a).binds o.name.lexeme := by
  intro s source point
  obtain ⟨h, v, o, rest, hassigned, hname, -, hd, -⟩ := point_initializing
  refine ⟨.new none, h, fun hall => ?_⟩
  obtain ⟨a, ha, hbinds⟩ := hall 7 v o rest 0 hassigned hd
  cases ha
  have hmissing : ((point 7).state.scopes.bindings (point 7).state.scope).binds "a" = false := by
    decide +kernel
  rw [hname, hmissing] at hbinds
  cases hbinds

end Session

end Lox
