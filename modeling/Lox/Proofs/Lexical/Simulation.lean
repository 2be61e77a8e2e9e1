/-
  Lox.Proofs.Lexical.Simulation
  ─────────────────────────────
  **DISTANCES MEAN LEXICAL SCOPING.**

  An accepted program that runs by its distances and the same program by
  lexical scoping alone go alongside each other step by step, so they print
  the same and end alike, whenever no local variable is assigned to in its
  own initializer (`interpret_eq_lexical`).
-/
import Lox.Proofs.Lexical.Cells
import Lox.Proofs.Lexical.Step
import Lox.Proofs.Session.Kept

namespace Lox.Lockstep

open Resolve

/-! ## §1. Looking up. -/

variable {T : Chart} {w₀ w : Cells} {ps : List Place} {s s' : State} {scopes : Scopes}
  {g g' : Setting} {o : Occurrence} {fs fs' : List Frame} {i : Bool}

theorem StateMatch.filled (h : StateMatch (byName T w₀) w ps s s') : Filled T w :=
  h.scopes.2.2.1

theorem StateMatch.stacked (h : StateMatch (byName T w₀) w ps s s') : Stacked w ps :=
  h.scopes.2.2.2.1

theorem StateMatch.since (h : StateMatch (byName T w₀) w ps s s') : w₀.Grows w :=
  h.scopes.2.2.2.2

theorem StateMatch.shows {p : Place} (h : StateMatch (byName T w₀) w (p :: ps) s s') :
    w.Shows p.here p.there p.scopes :=
  h.stacked.shows p List.mem_cons_self

/-- **A local name means one cell**: by its distance here, as the nearest one
there. -/
theorem StateMatch.found (h : StateMatch (byName T w₀) w ps s s')
    (hs : w.Shows s.scope s'.scope scopes) {name : String} {d : Nat}
    (hfind : scopes.find? name = some (d, true)) :
    ∃ a a', w.cell a name = some a' ∧ s.scopes.ancestor? s.scope d = some a
      ∧ s'.scopes.holder? name s'.scope = some a' := by
  obtain ⟨hF, hF', -, -⟩ := h.scopes
  obtain ⟨a, a', ha, hfinds, hcell⟩ := hs.found name d hfind
  rw [hF, hF']
  exact ⟨a, a', hcell, ha, hfinds.holder?⟩

/-- The values of a local name match. -/
theorem StateMatch.getAt (h : StateMatch (byName T w₀) w ps s s')
    (hs : w.Shows s.scope s'.scope scopes) {name : String} {d : Nat}
    (hfind : scopes.find? name = some (d, true)) :
    ∃ v v', s.scopes.getAt s.scope d name = .ok v ∧ s'.scopes.get s'.scope name = .ok v'
      ∧ ValueMatch cells T w v v' ∧ (name = "this" → ∃ id, v = .object id)
      ∧ (name = "super" → ∃ k, v = .class k) := by
  obtain ⟨a, a', hcell, ha, ha'⟩ := h.found hs hfind
  obtain ⟨-, -, v, v', hv, hv', hmatch⟩ := h.filled.cell a name a' hcell
  have hthis := h.filled.this a v
  have hsuper := h.filled.super a v
  obtain ⟨hF, hF', -, -⟩ := h.scopes
  rw [← hF] at hv hthis hsuper
  rw [← hF'] at hv'
  refine ⟨v, v', Forest.getAt_of_ancestor? ha hv, ?_, hmatch, ?_, ?_⟩
  · unfold Forest.get
    rw [ha']
    dsimp only [Option.bind]
    rw [hv']
  · rintro rfl
    exact hthis hv
  · rintro rfl
    exact hsuper hv

/-- A name that is not local means a global variable on both sides. -/
theorem StateMatch.free (h : StateMatch (byName T w₀) w ps s s')
    (hs : w.Shows s.scope s'.scope scopes) {name : String} (hfind : scopes.find? name = none) :
    s'.scopes.holder? name s'.scope = s'.scopes.holder? name globalScope := by
  obtain ⟨-, hF', -, -⟩ := h.scopes
  rw [hF']
  exact (hs.free name hfind).holder?

theorem StateMatch.getGlobal
    (h : StateMatch (byName T w₀) w (⟨s.scope, s'.scope, scopes⟩ :: ps) s s') {name : String}
    (hfind : scopes.find? name = none) :
    ResultMatch cells T w (s.scopes.get globalScope name) (s'.scopes.get s'.scope name) := by
  have hbinds := h.filled.binds_global name
  have hrel := h.filled.globals name
  obtain ⟨hF, hF', -, -⟩ := id h.scopes
  rw [← hF, ← hF'] at hbinds hrel
  unfold Forest.get
  rw [h.free h.shows hfind, holder?_global, holder?_global, hbinds]
  by_cases hb : (s.scopes.bindings globalScope).binds name
  · rw [if_pos hb]
    obtain ⟨v, hv⟩ := (Bindings.binds_iff _ _).mp hb
    dsimp only [Option.bind]
    rw [hv] at hrel ⊢
    generalize (s'.scopes.bindings globalScope).get? name = y at hrel
    cases hrel with
    | some hmatch => exact .ok hmatch
  · rw [if_neg hb]
    exact .error trivial

/-- **Distances find what names find.** -/
theorem lookUp_byName (h : StateMatch (byName T w₀) w (⟨s.scope, s'.scope, scopes⟩ :: ps) s s')
    (hg : Charted T g) (hl : Located T scopes o) (hdefined : scopes.Defined o.name.lexeme) :
    ResultMatch cells T w (Config.lookUp g s o) (Lexical.lookUp s' o.name) := by
  have hd := hg.located hl
  unfold Config.lookUp Lexical.lookUp
  rw [hd]
  cases hfind : scopes.find? o.name.lexeme with
  | none => exact h.getGlobal hfind
  | some pair =>
    obtain ⟨d, b⟩ := pair
    cases b with
    | false => exact absurd hfind (hdefined d)
    | true =>
      obtain ⟨v, v', hv, hv', hmatch, -⟩ := h.getAt h.shows hfind
      dsimp only [Option.map]
      rw [hv, hv']
      exact .ok hmatch

/-! ## §2. Steps that look up. -/

theorem Ready.superMethod_byName (h : Ready (byName T w₀) w ⟨.value, i, scopes, ps⟩ fs fs' s s')
    (hg : Charted T g) {method : Token} (hb : BoundExpr T scopes (.super o method))
    (control control' : Control) :
    Alongside (byName T w₀) (Config.superMethod g ⟨control, fs, s⟩ o method)
      (Lexical.superMethod ⟨control', fs', s'⟩ o.name method) := by
  obtain ⟨hl, hname, d, hthis, hsuper⟩ := hb
  have hd := hg.located hl
  rw [hname, hsuper] at hd
  obtain ⟨v, v', hv, hv', hmatch, -, hclass⟩ := h.states.getAt h.states.shows hsuper
  obtain ⟨k, rfl⟩ := hclass rfl
  obtain ⟨u, u', hu, hu', humatch, hobject, -⟩ := h.states.getAt h.states.shows hthis
  obtain ⟨id, rfl⟩ := hobject rfl
  unfold Config.superMethod Lexical.superMethod Lexical.lookUp Config.superclassAt Config.receiverAt
  rw [hd, hname]
  dsimp only [Option.map]
  rw [hv, hv', hu, hu']
  cases hmatch with
  | @«class» _ k' hk =>
    cases humatch with
    | object =>
      dsimp only
      have hmethod := hk.method method.lexeme
      generalize k.method? method.lexeme = x at hmethod
      generalize k'.method? method.lexeme = y at hmethod
      cases hmethod with
      | none => exact h.failing (by trivial) _
      | some hf => exact h.yieldingMethod hf id _ _

theorem alongside_eval_byName {e : Expr} (hb : BoundExpr T scopes e)
    (h : Ready (byName T w₀) w ⟨.value, i, scopes, ps⟩ fs fs' s s') (hg : Charted T g)
    (hn : NamingExpr e) :
    Alongside (byName T w₀) (Config.step g ⟨.eval e, fs, s⟩)
      (Lexical.step g' ⟨.eval e, fs', s'⟩) := by
  cases e with
  | «variable» o =>
    obtain ⟨hl, -, hdefined⟩ := hb
    exact h.settling (lookUp_byName h.states hg hl hdefined) _ _ _
  | this o =>
    obtain ⟨hl, hname, d, hthis⟩ := hb
    refine h.settling (lookUp_byName h.states hg hl ?_) _ _ _
    intro d' hd'
    rw [hname, hthis] at hd'
    cases hd'
  | super o method => exact h.superMethod_byName hg hb _ _
  | _ => exact False.elim hn

/-- The scopes that an assignment changes are one cell, or a global variable
is missing in both programs. -/
theorem assignmentTarget_byName
    (h : StateMatch (byName T w₀) w (⟨s.scope, s'.scope, scopes⟩ :: ps) s s') (hg : Charted T g)
    (hl : Located T scopes o) (hdefined : scopes.Defined o.name.lexeme) :
    (∃ a a', Config.assignmentTarget g s o = .ok a
      ∧ s'.scopes.target s'.scope o.name.lexeme = .ok a' ∧ w.Shared a a' o.name.lexeme)
    ∨ (Config.assignmentTarget g s o = .error (.undefinedVariable o.name.lexeme)
      ∧ s'.scopes.target s'.scope o.name.lexeme = .error (.undefinedVariable o.name.lexeme)) := by
  have hd := hg.located hl
  unfold Config.assignmentTarget
  rw [hd]
  cases hfind : scopes.find? o.name.lexeme with
  | none =>
    have hbinds := h.filled.binds_global o.name.lexeme
    obtain ⟨hF, hF', -, -⟩ := id h.scopes
    rw [← hF, ← hF'] at hbinds
    unfold Forest.target
    rw [h.free h.shows hfind]
    dsimp only [Option.map]
    rw [holder?_global, holder?_global, hbinds]
    by_cases hb : (s.scopes.bindings globalScope).binds o.name.lexeme
    · rw [if_pos hb]
      exact .inl ⟨globalScope, globalScope, rfl, rfl, .inr ⟨rfl, rfl⟩⟩
    · rw [if_neg hb]
      exact .inr ⟨rfl, rfl⟩
  | some pair =>
    obtain ⟨d, b⟩ := pair
    cases b with
    | false => exact absurd hfind (hdefined d)
    | true =>
      obtain ⟨a, a', hcell, ha, ha'⟩ := h.found h.shows hfind
      obtain ⟨-, -, v, v', hv, -, -⟩ := h.filled.cell a _ a' hcell
      obtain ⟨hF, -, -, -⟩ := h.scopes
      rw [← hF] at hv
      refine .inl ⟨a, a', ?_, ?_, .inl hcell⟩
      · dsimp only [Option.map]
        rw [Forest.targetAt_of_ancestor? ha, if_pos ((Bindings.binds_iff _ _).mpr ⟨v, hv⟩)]
      · unfold Forest.target
        rw [ha']

theorem Ready.assigning_byName (h : Ready (byName T w₀) w ⟨.value, i, scopes, ps⟩ fs fs' s s')
    (hg : Charted T g) (hl : Located T scopes o) (ho : Ordinary o.name.lexeme)
    (hdefined : scopes.Defined o.name.lexeme) {v v' : Value} (hv : ValueMatch cells T w v v')
    (control control' : Control) :
    Alongside (byName T w₀) (Config.assigning g ⟨control, fs, s⟩ o v)
      (Lexical.assigning ⟨control', fs', s'⟩ o.name v') := by
  unfold Config.assigning Lexical.assigning
  dsimp only
  rcases assignmentTarget_byName h.states hg hl hdefined with
    ⟨a, a', ha, ha', hshared⟩ | ⟨herror, herror'⟩
  · rw [ha, ha']
    have hgrows := renewed_grows h.states.filled hshared v v'
    have hfilled := renewed_filled h.states.filled hshared ho (ValueMatch.mono hgrows hv)
    have hstacked := renewed_stacked h.states.filled hshared h.states.stacked v v'
    obtain ⟨hF, hF', -, -⟩ := h.states.scopes
    have hs := h.states.grow hgrows ⟨congrArg (·.define a o.name.lexeme v) hF,
      congrArg (·.define a' o.name.lexeme v') hF', hfilled, hstacked, h.states.since.trans hgrows⟩
    exact Ready.yielding ⟨h.frames.mono hgrows, hs⟩ (ValueMatch.mono hgrows hv)
  · rw [herror, herror']
    exact h.failing (by trivial) _

/-! ## §3. Steps that declare. -/

theorem scope_declare (s : State) (name : String) (v : Value) :
    (Lexical.declare s name v).scope = Lexical.extended s := by
  unfold Lexical.declare Lexical.extended
  by_cases h : s.scope = globalScope
  · rw [if_pos h, if_pos h]
    exact h
  · rw [if_neg h, if_neg h]
    rfl

/-- The innermost static scope, if there is one, does not define a name yet. -/
def Fresh (scopes : Scopes) (name : String) : Prop :=
  ∀ scope ∈ scopes.head?, scope.get? name ≠ some true

theorem fresh_of_declarable {name : Token} (h : Declarable T scopes name) :
    Fresh scopes name.lexeme := by
  rintro scope hscope hname
  cases scopes with
  | nil => cases hscope
  | cons _ rest =>
    cases hscope
    have hnone : scope.get? name.lexeme = none := h.2
    rw [hnone] at hname
    cases hname

/-- A name has no variable while its initializer is evaluated. -/
theorem Fresh.declare {name : String} (h : Fresh scopes name) :
    Fresh (scopes.declare name) name := by
  cases scopes with
  | nil => exact h
  | cons scope rest =>
    rw [Scopes.declare]
    split
    · exact h
    · rintro _ ⟨⟩ hname
      rw [Bindings.get?_insert, if_pos rfl] at hname
      cases hname

/-- A name that its scope does not define yet has no cell there. -/
theorem Stacked.cell_fresh (hps : Stacked w ps) (hfilled : Filled T w) {p : Place} (hp : p ∈ ps)
    {scope : Bindings Bool} (hscope : scope ∈ p.scopes.head?) {name : String}
    (hname : scope.get? name ≠ some true) : w.cell p.here name = none := by
  cases hcell : w.cell p.here name with
  | none => rfl
  | some a' =>
    obtain ⟨-, -, v, -, hv, -⟩ := hfilled.cell _ _ _ hcell
    exact absurd (hps.tight p hp scope hscope name ((Bindings.binds_iff _ _).mpr ⟨v, hv⟩)) hname

/-- **A declaration makes a new cell**, or a global variable; the value may
already close over it. -/
theorem StateMatch.declare (h : StateMatch (byName T w₀) w (⟨s.scope, s'.scope, scopes⟩ :: ps) s s')
    {name : String} (hname : Ordinary name) (hfresh : Fresh scopes name) (v v' : Value) :
    ∃ w' : Cells, w.Grows w' ∧ w'.Shows s.scope (Lexical.extended s') (scopes.add name)
      ∧ (ValueMatch cells T w' v v' → StateMatch (byName T w₀) w'
        (⟨s.scope, Lexical.extended s', scopes.add name⟩ :: ps) (s.define s.scope name v)
        (Lexical.declare s' name v')) := by
  obtain ⟨hF, hF', hfilled, hstacked, hsince⟩ := h.scopes
  have hshows := h.shows
  unfold Lexical.declare Lexical.extended
  cases scopes with
  | nil =>
    obtain ⟨hn, hn'⟩ := hshows.top rfl
    have hscope : s.scope = globalScope := hn
    have hscope' : s'.scope = globalScope := hn'
    have hshared : w.Shared globalScope globalScope name := .inr ⟨rfl, rfl⟩
    have hg := renewed_grows hfilled hshared v v'
    have hstacked' := renewed_stacked hfilled hshared hstacked v v'
    rw [if_pos hscope', if_pos hscope']
    rw [hscope, hscope'] at hstacked'
    rw [hscope]
    refine ⟨_, hg, hstacked'.shows _ List.mem_cons_self, ?_⟩
    intro hv
    exact h.grow hg ⟨congrArg (·.define globalScope name v) hF,
      congrArg (·.define globalScope name v') hF', renewed_filled hfilled hshared hname hv,
      hstacked', hsince.trans hg⟩
  | cons scope rest =>
    have hscope' : s'.scope ≠ globalScope := (hshows.inner (List.cons_ne_nil _ _)).2
    have hnone := hstacked.cell_fresh hfilled List.mem_cons_self rfl (hfresh scope rfl)
    have hg := declared_grows hnone s'.scope v v'
    have hstacked' : Stacked (w.declared s.scope s'.scope name v v')
        (⟨s.scope, w.there.nextId, Scopes.add (scope :: rest) name⟩ :: ps) :=
      declared_stacked hstacked hnone
    rw [if_neg hscope', if_neg hscope', hF']
    refine ⟨_, hg, hstacked'.shows _ List.mem_cons_self, ?_⟩
    intro hv
    have hs := h.grow hg ⟨congrArg (·.define s.scope name v) hF,
      congrArg (·.child s'.scope [(name, v')]) hF', declared_filled hfilled hshows hnone hname hv,
      hstacked', hsince.trans hg⟩
    exact ⟨hs.scopes, hs.objects, hs.nextIdentity, hs.sink, hs.depth, hs.readings⟩

/-- The programs after a declaration, ready to go on. -/
theorem Ready.declaring {name : Token} {scopes' : Scopes}
    (hw : Waits cells T w ⟨.completion, i, scopes.add name.lexeme, ps⟩ fs fs')
    (hs : StateMatch (byName T w₀) w (⟨s.scope, s'.scope, scopes'⟩ :: ps) s s')
    (hadd : scopes'.add name.lexeme = scopes.add name.lexeme) (hname : Ordinary name.lexeme)
    (hfresh : Fresh scopes' name.lexeme) (v v' : Value) :
    ∃ w' : Cells, w.Grows w'
      ∧ w'.Shows s.scope (Lexical.extended s') (scopes.add name.lexeme)
      ∧ (ValueMatch cells T w' v v' → Ready (byName T w₀) w'
        ⟨.completion, i, scopes.add name.lexeme, ps⟩ fs fs' (s.define s.scope name.lexeme v)
        (Lexical.declare s' name.lexeme v')) := by
  obtain ⟨w', hg, hshows, hdeclared⟩ := hs.declare hname hfresh v v'
  rw [hadd] at hshows hdeclared
  refine ⟨w', hg, hshows, ?_⟩
  intro hv
  refine ⟨hw.mono hg, ?_⟩
  rw [scope_declare]
  exact hdeclared hv

/-- A function closes over the scope of its name here, and over the
environment that declares its name there. -/
theorem alongside_function_byName {decl : FunctionDecl Stmt}
    (hb : BoundStmt T i scopes (.function decl))
    (hw : Waits cells T w ⟨.completion, i, scopes.add decl.name.lexeme, ps⟩ fs fs')
    (hs : StateMatch (byName T w₀) w (⟨s.scope, s'.scope, scopes⟩ :: ps) s s') :
    Alongside (byName T w₀) (Config.exec ⟨.exec (.function decl), fs, s⟩ (.function decl))
      (Lexical.declaringFunction ⟨.exec (.function decl), fs', s'⟩ decl) := by
  obtain ⟨-, hname, hbound⟩ := hb
  have hused : StateMatch (byName T w₀) w
      (⟨(s.useIdentities 1).scope, (s'.useIdentities 1).scope, scopes⟩ :: ps) (s.useIdentities 1)
      (s'.useIdentities 1) := hs.useIdentities 1
  obtain ⟨w', -, hshows, hready⟩ := Ready.declaring hw hused rfl hname.1 (fresh_of_declarable hname)
    (.function ⟨s.nextIdentity, decl, s.scope, false⟩)
    (.function ⟨s'.nextIdentity, decl, Lexical.extended s', false⟩)
  refine (hready (.function ⟨_, ⟨hs.nextIdentity, rfl, rfl, hshows⟩, hbound, nofun⟩)).completed

/-- A class is declared after its name has a cell. -/
theorem alongside_class_byName {name : Token} {superclass : Option Occurrence}
    {methods : List (FunctionDecl Stmt)} (hb : BoundStmt T i scopes (.class name superclass methods))
    (hw : Waits cells T w ⟨.completion, i, scopes.add name.lexeme, ps⟩ fs fs')
    (hs : StateMatch (byName T w₀) w (⟨s.scope, s'.scope, scopes⟩ :: ps) s s') :
    Alongside (byName T w₀)
      (Config.exec ⟨.exec (.class name superclass methods), fs, s⟩ (.class name superclass methods))
      (Lexical.startingClass ⟨.exec (.class name superclass methods), fs', s'⟩ name superclass
        methods) := by
  obtain ⟨-, hname, hparent, hmethods⟩ := hb
  obtain ⟨w', -, -, hready⟩ := Ready.declaring hw hs rfl hname.1 (fresh_of_declarable hname) .nil .nil
  have howns := owns_add scopes name.lexeme
  cases superclass with
  | none => exact (hready .nil).declaringClass hname.1 howns .none hmethods _ _
  | some parent =>
    exact ⟨_, _, _, .eval (hparent parent rfl), .cons (.superclass hname.1 howns hmethods)
      (hready .nil).frames, (hready .nil).states⟩

/-- A statement that declares a name at once. -/
theorem alongside_exec_byName {st : Stmt} (hb : BoundStmt T i scopes st)
    (hw : Waits cells T w ⟨.completion, i, scopes.after st, ps⟩ fs fs')
    (hs : StateMatch (byName T w₀) w (⟨s.scope, s'.scope, scopes⟩ :: ps) s s')
    (hn : NamingStmt st) :
    Alongside (byName T w₀) (Config.step g ⟨.exec st, fs, s⟩)
      (Lexical.step g' ⟨.exec st, fs', s'⟩) := by
  cases st with
  | var name initializer =>
    cases initializer with
    | none =>
      obtain ⟨-, hname, -⟩ := hb
      obtain ⟨w', -, -, hready⟩ := Ready.declaring hw hs rfl hname.1 (fresh_of_declarable hname)
        .nil .nil
      exact (hready .nil).completed
    | some e => exact False.elim hn
  | function decl => exact alongside_function_byName hb hw hs
  | «class» name superclass methods => exact alongside_class_byName hb hw hs
  | _ => exact False.elim hn

/-- A name gets the value of its initializer. -/
theorem alongside_define_byName {name : Token} (hname : Declarable T scopes name)
    (hw : Waits cells T w ⟨.completion, i, scopes.add name.lexeme, ps⟩ fs fs')
    (hs : StateMatch (byName T w₀) w (⟨s.scope, s'.scope, scopes.declare name.lexeme⟩ :: ps) s s')
    {v v' : Value} (hv : ValueMatch cells T w v v') :
    Alongside (byName T w₀) ⟨.completed, fs, s.define s.scope name.lexeme v⟩
      ⟨.completed, fs', Lexical.declare s' name.lexeme v'⟩ := by
  obtain ⟨w', hgrows, -, hready⟩ := Ready.declaring hw hs (Scopes.add_declare scopes name.lexeme)
    hname.1 (fresh_of_declarable hname).declare v v'
  exact (hready (ValueMatch.mono hgrows hv)).completed

/-! ## §4. Steps and runs. -/

/-- Steps that do not look at names are the same with and without distances. -/
theorem lexical_step_eq {c : Config} (h : ¬ Naming c) (g : Setting) :
    Lexical.step g c = c.step g := by
  obtain ⟨control, frames, state⟩ := c
  cases control with
  | eval e => cases e <;> first | rfl | exact absurd trivial h
  | exec st =>
    cases st with
    | var name initializer =>
      cases initializer with
      | none => exact absurd trivial h
      | some e => rfl
    | _ => first | rfl | exact absurd trivial h
  | value v =>
    cases frames with
    | nil => rfl
    | cons frame rest => cases frame <;> first | rfl | exact absurd trivial h
  | _ => rfl

/-- Programs that go alongside look at names together. -/
theorem Alongside.naming {S : Sight} {D : Discipline S T} {c c' : Config} (h : Alongside D c c') :
    Naming c' ↔ Naming c := by
  obtain ⟨control, frames, state⟩ := c
  obtain ⟨control', frames', state'⟩ := c'
  obtain ⟨w, scopes, a, hdoes, hwaits, -⟩ := h
  dsimp only at hdoes hwaits
  cases hdoes with
  | value =>
    cases hwaits with
    | cons hop => cases hop <;> exact Iff.rfl
  | _ => exact Iff.rfl

/-- **Every step with distances is a step by lexical scoping.** -/
theorem Alongside.step_byName {c c' : Config} (h : Alongside (byName T w₀) c c')
    (hstrict : T.strict) (hg : Charted T g) (hclock : g'.clock = g.clock)
    (hlimit : g'.callLimit = g.callLimit) :
    Alongside (byName T w₀) (c.step g) (Lexical.step g' c') := by
  by_cases hn : Naming c
  · obtain ⟨control, frames, state⟩ := c
    obtain ⟨control', frames', state'⟩ := c'
    obtain ⟨w, scopes, a, hdoes, hwaits, hstates⟩ := h
    dsimp only at hdoes hwaits hstates
    cases hdoes with
    | eval hb => exact alongside_eval_byName hb ⟨hwaits, hstates⟩ hg hn
    | exec hb => exact alongside_exec_byName hb hwaits hstates hn
    | value hv =>
      cases hwaits with
      | cons hop hrest =>
        cases hop with
        | assign hl ho hd =>
          exact Ready.assigning_byName ⟨hrest, hstates⟩ hg hl ho (hd hstrict) hv _ _
        | define hname => exact alongside_define_byName hname hrest hstates hv
        | _ => exact False.elim hn
    | _ => exact False.elim hn
  · rw [lexical_step_eq fun hn' => hn (h.naming.mp hn')]
    exact h.step hclock hlimit hn

/-- **Runs with distances and by lexical scoping** stay alongside. -/
theorem Alongside.run_byName {c c' : Config} (h : Alongside (byName T w₀) c c') (hstrict : T.strict)
    (hg : Charted T g) (hclock : g'.clock = g.clock) (hlimit : g'.callLimit = g.callLimit)
    (fuel : Nat) : Alongside (byName T w₀) (Config.run g fuel c) (Lexical.run g' fuel c') := by
  induction fuel generalizing c c' with
  | zero => exact h
  | succ fuel ih =>
    unfold Config.run Lexical.run
    rw [h.halted]
    by_cases hhalted : c.halted
    · rw [if_pos hhalted, if_pos hhalted]
      exact h
    · rw [if_neg hhalted, if_neg hhalted]
      exact ih (h.step_byName hstrict hg hclock hlimit)

/-! ## §5. Programs. -/

/-- Both stores before a program starts: no variable is local. -/
def initialCells (capacity : Option Nat) : Cells where
  here := (State.initial capacity).scopes
  there := (State.initial capacity).scopes
  cell _ _ := none

theorem filled_initial (T : Chart) (capacity : Option Nat) : Filled T (initialCells capacity) := by
  refine ⟨Nat.lt_succ_self 0, Nat.lt_succ_self 0, ?_, nofun, nofun, ?_, ?_⟩
  · intro name
    unfold initialCells
    rw [get?_initial]
    split
    · exact .some (.native .clock)
    · exact .none
  · intro id v hv
    unfold initialCells at hv
    rw [get?_initial, if_neg fun h => absurd h.2 (by decide)] at hv
    cases hv
  · intro id v hv
    unfold initialCells at hv
    rw [get?_initial, if_neg fun h => absurd h.2 (by decide)] at hv
    cases hv

theorem stacked_initial (capacity : Option Nat) :
    Stacked (initialCells capacity) [⟨globalScope, globalScope, []⟩] := by
  refine ⟨?_, ?_, List.pairwise_singleton _ _⟩
  · intro p hp
    obtain rfl := List.mem_singleton.mp hp
    exact ⟨Nat.lt_succ_self 0, Nat.lt_succ_self 0, fun _ => ⟨rfl, rfl⟩, fun h => absurd rfl h,
      nofun, fun _ _ => .root, nofun⟩
  · intro p hp
    obtain rfl := List.mem_singleton.mp hp
    exact nofun

theorem state_initial (T : Chart) (capacity : Option Nat) :
    StateMatch (byName T (initialCells capacity)) (initialCells capacity)
      [⟨globalScope, globalScope, []⟩] (State.initial capacity) (State.initial capacity) :=
  ⟨⟨rfl, rfl, filled_initial T capacity, stacked_initial capacity, .refl _⟩,
    ⟨rfl, fun _ => .none⟩, rfl, rfl, rfl, rfl⟩

/-- What is known while a program runs in which no local variable is assigned
to in its own initializer. -/
def strictChart (capacity : Option Nat) (source : String) : Chart :=
  { (Session.new capacity).chunkChart source with globals := fun _ => True, strict := True }

/-- A program with distances starts alongside itself without them. -/
theorem alongside_start {capacity : Option Nat} {source : String}
    (h : (Session.new capacity).Accepts source)
    (hself : SelfFreeAll false ((Session.new capacity).parsed source).statements) :
    Alongside (byName (strictChart capacity source) (initialCells capacity))
      ((Session.new capacity).start source) ((Session.new capacity).start source) := by
  have hbound := h.bound_of_admits (Session.kept_new capacity) (T := strictChart capacity source)
    (fun _ _ => trivial) rfl (fun _ => rfl) ⟨fun _ => hself, fun _ _ _ _ _ => trivial⟩
  have hdoes : Does cells (strictChart capacity source) (initialCells capacity)
      ((Session.new capacity).start source).control ((Session.new capacity).start source).control []
      ⟨.completion, false, Scopes.afterAll [] _, []⟩ := .execAll hbound
  have hnil : Scopes.afterAll [] ((Session.new capacity).parsed source).statements = [] :=
    List.isEmpty_iff.mp (isEmpty_afterAll [] _)
  rw [hnil] at hdoes
  exact ⟨initialCells capacity, [], _, hdoes, .bottom, state_initial _ capacity⟩

end Lox.Lockstep

namespace Lox

open Lockstep Resolve

/-- **Distances mean lexical scoping.**  An accepted program in which no local
variable is assigned to in its own initializer prints the same and ends alike
with the distances of its names and by lexical scoping alone, however far it
runs. -/
theorem interpret_eq_lexical {capacity : Option Nat} {source : String}
    (h : (Session.new capacity).Accepts source)
    (hself : SelfFreeAll false ((Session.new capacity).parsed source).statements) (fuel : Nat)
    (clock : Clock) :
    let statements := ((Session.new capacity).parsed source).statements
    let distances := ((Session.new capacity).resolution source).distances
    let byDistance := ((Machine.new capacity).learn distances).interpret fuel clock statements
    let byName := Lexical.interpret fuel clock (State.initial capacity) statements
    byDistance.1.state.sink = byName.1.sink ∧ byDistance.2 = byName.2 := by
  have hg : Charted (strictChart capacity source) ((Session.new capacity).setting clock source) :=
    fun _ => rfl
  have hclock : (Lexical.setting clock).clock
      = ((Session.new capacity).setting clock source).clock := rfl
  have hrun := (alongside_start h hself).run_byName trivial hg hclock rfl fuel
  refine ⟨?_, hrun.ending.symm⟩
  obtain ⟨w, scopes, a, -, -, hstates⟩ := hrun
  exact hstates.sink.symm

/-- A function keeps the meaning that a name had at its declaration, also when
its block declares the name again later. -/
theorem interpret_eq_lexical_shadowed :
    let source := "var a = 1; \x7b fun f() \x7b print a; \x7d f(); var a = 2; f(); print a; \x7d"
    let s := Session.new none
    let statements := (s.parsed source).statements
    s.Accepts source ∧ SelfFreeAll false statements
      ∧ (((Machine.new none).learn (s.resolution source).distances).interpret 60 (.still 0)
        statements).1.state.sink
        = (Lexical.interpret 60 (.still 0) (State.initial none) statements).1.sink
      ∧ (((Machine.new none).learn (s.resolution source).distances).interpret 60 (.still 0)
        statements).2 = (Lexical.interpret 60 (.still 0) (State.initial none) statements).2 := by
  intro source s statements
  have h : s.Accepts source := ⟨by decide +kernel, by decide +kernel⟩
  have hself : SelfFreeAll false statements := by decide +kernel
  exact ⟨h, hself, interpret_eq_lexical h hself 60 (.still 0)⟩

end Lox
