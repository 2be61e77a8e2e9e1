/-
  Lox.Proofs.Machine.Steps
  ────────────────────────
  **STEPS THAT DO NOT LOOK AT NAMES.**

  One case for each thing that can be done and each frame that can wait for
  it.  The steps that look up, assign or declare a name are left to whoever
  knows the discipline; all others keep two programs alongside each other
  (`Alongside.step`).
-/
import Lox.Machine.Run
import Lox.Proofs.Machine.Operations

namespace Lox.Lockstep

open Resolve

/-! ## §1. Which steps look at names. -/

/-- An expression that names a variable. -/
def NamingExpr : Expr → Prop
  | .variable _ | .this _ | .super _ _ => True
  | _ => False

/-- A statement that declares a name at once. -/
def NamingStmt : Stmt → Prop
  | .var _ none | .function _ | .class _ _ _ => True
  | _ => False

/-- A frame that gives a name a value. -/
def NamingFrame : Frame → Prop
  | .assign _ | .define _ => True
  | _ => False

/-- The next step looks up or declares a name. -/
def Naming (c : Config) : Prop :=
  match c.control, c.frames with
  | .eval e, _ => NamingExpr e
  | .exec s, _ => NamingStmt s
  | .value _, frame :: _ => NamingFrame frame
  | _, _ => False

variable {S : Sight} {T : Chart} {D : Discipline S T} {w : S.World} {fs fs' : List Frame}
  {s s' : State} {i : Bool} {scopes : Scopes} {ps : List Place} {g g' : Setting}

/-! ## §2. Starting. -/

theorem alongside_eval {e : Expr} (hb : BoundExpr T scopes e)
    (h : Ready D w ⟨.value, i, scopes, ps⟩ fs fs' s s') (hn : ¬ NamingExpr e) :
    Alongside D (Config.eval g ⟨.eval e, fs, s⟩ e) (Config.eval g' ⟨.eval e, fs', s'⟩ e) := by
  cases e with
  | literal l => exact h.yielding (.ofLiteral l)
  | grouping inner => exact ⟨w, _, _, .eval hb, h.frames, h.states⟩
  | unary op right => exact ⟨w, _, _, .eval hb, .cons (.unary op) h.frames, h.states⟩
  | binary left op right =>
    exact ⟨w, _, _, .eval hb.1, .cons (.binaryLeft op hb.2) h.frames, h.states⟩
  | logical left op right =>
    exact ⟨w, _, _, .eval hb.1, .cons (.logical op hb.2) h.frames, h.states⟩
  | assign o value =>
    exact ⟨w, _, _, .eval hb.1, .cons (.assign hb.2.1 hb.2.2.1 hb.2.2.2) h.frames, h.states⟩
  | call callee paren arguments =>
    exact ⟨w, _, _, .eval hb.1, .cons (.callee paren hb.2) h.frames, h.states⟩
  | get object name => exact ⟨w, _, _, .eval hb, .cons (.get name) h.frames, h.states⟩
  | set object name value =>
    exact ⟨w, _, _, .eval hb.2, .cons (.setObject name hb.1) h.frames, h.states⟩
  | «variable» o => exact absurd trivial hn
  | super o method => exact absurd trivial hn
  | this o => exact absurd trivial hn

theorem BoundBranch.of_ifElse {e : Expr} {th : Stmt} {el : Option Stmt}
    (hb : BoundStmt T i scopes (.ifElse e th el)) :
    BoundExpr T scopes e ∧ BoundBranch T i scopes th ∧ ∀ s' ∈ el, BoundBranch T i scopes s' := by
  cases el with
  | none => exact ⟨hb.2.1, hb.2.2, fun _ h => nomatch h⟩
  | some s =>
    refine ⟨hb.2.1, hb.2.2.1, ?_⟩
    rintro _ ⟨⟩
    exact hb.2.2.2

/-- A statement begins; the scopes it leaves behind are the ones its frames
expect. -/
theorem alongside_exec {st : Stmt} (hb : BoundStmt T i scopes st)
    (hw : Waits S T w ⟨.completion, i, scopes.after st, ps⟩ fs fs')
    (hs : StateMatch D w (⟨s.scope, s'.scope, scopes⟩ :: ps) s s') (hn : ¬ NamingStmt st) :
    Alongside D (Config.exec ⟨.exec st, fs, s⟩ st) (Config.exec ⟨.exec st, fs', s'⟩ st) := by
  cases st with
  | expression e => exact ⟨w, _, _, .eval hb.2, .cons .discard hw, hs⟩
  | print e => exact ⟨w, _, _, .eval hb.2, .cons .print hw, hs⟩
  | var name initializer =>
    cases initializer with
    | none => exact absurd trivial hn
    | some e =>
      -- until the initializer has a value, the name has no variable
      obtain ⟨-, hname, hinit⟩ := hb
      exact ⟨w, _, _, .eval hinit, .cons (.define hname) hw, D.declared hs.scopes hname, hs.objects,
        hs.nextIdentity, hs.sink, hs.depth, hs.readings⟩
  | block body =>
    obtain ⟨w', hg, hs'⟩ := hs.child (D.current hs.scopes) furnished_nil
    have hframes : Waits S T w' ⟨.completion, i, scopes, ps⟩ fs fs' := hw.mono hg
    have hdefined := BoundStmts.allDefined_afterAll hb.2
    refine ⟨w', _, _, .execAll hb.2, .cons (.leave ⟨s.scope, s'.scope, scopes⟩ hdefined) hframes,
      ?_⟩
    exact ⟨hs'.scopes, hs'.objects, hs'.nextIdentity, hs'.sink, hs'.depth, hs'.readings⟩
  | ifElse condition thenBranch elseBranch =>
    obtain ⟨hc, ht, he⟩ := BoundBranch.of_ifElse hb
    exact ⟨w, _, _, .eval hc, .cons (.branch ht he) hw, hs⟩
  | «while» condition body => exact ⟨w, _, _, .eval hb.2.1, .cons (.loopTest hb) hw, hs⟩
  | function decl => exact absurd trivial hn
  | «return» keyword value =>
    obtain ⟨-, rfl, hvalue⟩ := hb
    cases value with
    | none => exact ⟨w, scopes, _, .returning .nil, hw, hs⟩
    | some e => exact ⟨w, _, _, .eval hvalue, .cons .returnValue hw, hs⟩
  | «class» name superclass methods => exact absurd trivial hn

theorem alongside_execAll {ss : List Stmt} (hb : BoundStmts T i scopes ss)
    (hw : Waits S T w ⟨.completion, i, scopes.afterAll ss, ps⟩ fs fs')
    (hs : StateMatch D w (⟨s.scope, s'.scope, scopes⟩ :: ps) s s') :
    Alongside D (Config.execAll ⟨.execAll ss, fs, s⟩ ss) (Config.execAll ⟨.execAll ss, fs', s'⟩ ss) := by
  cases ss with
  | nil => exact Ready.completed ⟨hw, hs⟩
  | cons st rest => exact ⟨w, _, _, .exec hb.1, .cons (.sequence hb.2) hw, hs⟩

/-- A branch leaves the scopes as they are. -/
theorem Ready.branch (h : Ready D w ⟨.completion, i, scopes, ps⟩ fs fs' s s') {st : Stmt}
    (hb : BoundBranch T i scopes st) : Alongside D ⟨.exec st, fs, s⟩ ⟨.exec st, fs', s'⟩ := by
  refine ⟨w, scopes, ⟨.completion, i, scopes.after st, ps⟩, .exec hb.1, ?_, h.states⟩
  rw [Scopes.after_of_declared hb.2]
  exact h.frames

/-! ## §3. Going on with a value. -/

theorem Ready.arguing (h : Ready D w ⟨.value, i, scopes, ps⟩ fs fs' s s')
    (hclock : g'.clock = g.clock) (hlimit : g'.callLimit = g.callLimit) {callee callee' : Value}
    (hc : ValueMatch S T w callee callee') {earlier earlier' : Array Value}
    (ha : List.Forall₂ (ValueMatch S T w) earlier.toList earlier'.toList) {rest : List Expr}
    (hr : BoundExprs T scopes rest) (paren : Token) (control control' : Control) :
    Alongside D (Config.arguing g ⟨control, fs, s⟩ callee paren earlier rest)
      (Config.arguing g' ⟨control', fs', s'⟩ callee' paren earlier' rest) := by
  cases rest with
  | nil => exact h.calling hclock hlimit hc ha paren control control'
  | cons e rest => exact ⟨w, _, _, .eval hr.1, .cons (.argument paren hc ha hr.2) h.frames, h.states⟩

theorem Ready.printing (h : Ready D w ⟨.completion, i, scopes, ps⟩ fs fs' s s') {v v' : Value}
    (hv : ValueMatch S T w v v') (control control' : Control) :
    Alongside D (Config.printing ⟨control, fs, s⟩ v) (Config.printing ⟨control', fs', s'⟩ v') := by
  have htext : s'.textOf v' = s.textOf v := hv.text h.states.objects
  have hready : ∀ bytes, Ready D w ⟨.completion, i, scopes, ps⟩ fs fs' (s.write bytes)
      (s'.write bytes) := by
    intro bytes
    exact ⟨h.frames, h.states.scopes, h.states.objects, h.states.nextIdentity,
      congrArg (·.write bytes) h.states.sink, h.states.depth, h.states.readings⟩
  unfold Config.printing
  dsimp only
  rw [htext, h.states.sink]
  by_cases hfits : s.sink.fits (s.textOf v ++ "\n").toUTF8
  · rw [if_pos hfits]
    exact (hready _).completed
  · rw [if_neg hfits]
    exact ⟨w, scopes, _, .raising nofun rfl, h.frames, (hready _).states⟩

theorem Ready.settingField (h : Ready D w ⟨.value, i, scopes, ps⟩ fs fs' s s') {v v' : Value}
    (hv : ValueMatch S T w v v') (id : ObjectId) (name : Token) (control control' : Control) :
    Alongside D (Config.settingField ⟨control, fs, s⟩ id name v)
      (Config.settingField ⟨control', fs', s'⟩ id name v') := by
  have hready : Ready D w ⟨.value, i, scopes, ps⟩ fs fs' (s.setField id name.lexeme v)
      (s'.setField id name.lexeme v') :=
    ⟨h.frames, h.states.scopes, h.states.objects.setField id name.lexeme hv,
      h.states.nextIdentity, h.states.sink, h.states.depth, h.states.readings⟩
  exact hready.yielding hv

/-- **A frame gets its value.** -/
theorem alongside_resume (hclock : g'.clock = g.clock) (hlimit : g'.callLimit = g.callLimit)
    {b : Stance} {f f' : Frame} {v v' : Value} (hv : ValueMatch S T w v v')
    (hop : Hop S T w ⟨.value, i, scopes, ps⟩ f f' b) (hw : Waits S T w b fs fs')
    (hs : StateMatch D w (⟨s.scope, s'.scope, scopes⟩ :: ps) s s') (hn : ¬ NamingFrame f) :
    Alongside D (Config.resume g ⟨.value v, fs, s⟩ v f)
      (Config.resume g' ⟨.value v', fs', s'⟩ v' f') := by
  cases hop with
  | unary op => exact Ready.settling ⟨hw, hs⟩ (hv.unary op.kind) op.line _ _
  | binaryLeft op h => exact ⟨w, _, _, .eval h, .cons (.binaryRight op hv) hw, hs⟩
  | binaryRight op h => exact Ready.settling ⟨hw, hs⟩ (h.binary hv op.kind) op.line _ _
  | logical op h =>
    unfold Config.resume
    dsimp only
    rw [hv.shortCircuits]
    by_cases hshort : v.shortCircuits op.kind
    · rw [if_pos hshort, if_pos hshort]
      exact Ready.yielding ⟨hw, hs⟩ hv
    · rw [if_neg hshort, if_neg hshort]
      exact ⟨w, _, _, .eval h, hw, hs⟩
  | assign => exact absurd trivial hn
  | callee paren h =>
    exact Ready.arguing ⟨hw, hs⟩ hclock hlimit hv (by exact .nil) h paren _ _
  | argument paren hc he hr =>
    refine Ready.arguing ⟨hw, hs⟩ hclock hlimit hc ?_ hr paren _ _
    rw [Array.toList_push, Array.toList_push]
    exact List.rel_append he (.cons hv .nil)
  | get name =>
    cases hv with
    | object id => exact Ready.property ⟨hw, hs⟩ id name _ _
    | _ => exact Ready.failing ⟨hw, hs⟩ (by trivial) name.line
  | setObject name h =>
    cases hv with
    | object id => exact ⟨w, _, _, .eval h, .cons (.setValue id name) hw, hs⟩
    | _ => exact Ready.failing ⟨hw, hs⟩ (by trivial) name.line
  | setValue id name => exact Ready.settingField ⟨hw, hs⟩ hv id name _ _
  | discard => exact Ready.completed ⟨hw, hs⟩
  | print => exact Ready.printing ⟨hw, hs⟩ hv _ _
  | define => exact absurd trivial hn
  | branch hb he =>
    rename_i th el
    unfold Config.resume
    dsimp only
    rw [hv.truthy]
    cases v.truthy with
    | true => exact Ready.branch ⟨hw, hs⟩ hb
    | false =>
      cases el with
      | none => exact Ready.completed ⟨hw, hs⟩
      | some st => exact Ready.branch ⟨hw, hs⟩ (he st rfl)
  | loopTest hb =>
    unfold Config.resume
    dsimp only
    rw [hv.truthy]
    by_cases htrue : v.truthy
    · rw [if_pos htrue, if_pos htrue]
      exact Ready.branch ⟨.cons (.loopBody hb) hw, hs⟩ hb.2.2
    · rw [if_neg htrue, if_neg htrue]
      exact Ready.completed ⟨hw, hs⟩
  | returnValue => exact ⟨w, scopes, _, .returning hv, hw, hs⟩
  | superclass hname howns hm =>
    cases hv with
    | «class» hk => exact Ready.declaringClass ⟨hw, hs⟩ hname howns (.some hk) hm _ _
    | _ => exact Ready.failing ⟨hw, hs⟩ (by trivial) _

/-! ## §4. Going on without a value. -/

/-- **A frame hears that a statement is complete.** -/
theorem alongside_complete {b : Stance} {f f' : Frame}
    (hop : Hop S T w ⟨.completion, i, scopes, ps⟩ f f' b) (hw : Waits S T w b fs fs')
    (hs : StateMatch D w (⟨s.scope, s'.scope, scopes⟩ :: ps) s s') :
    Alongside D (Config.complete ⟨.completed, fs, s⟩ f) (Config.complete ⟨.completed, fs', s'⟩ f') := by
  cases hop with
  | loopBody hb => exact ⟨w, scopes, ⟨.completion, i, scopes, ps⟩, .exec hb, hw, hs⟩
  | sequence h => exact ⟨w, scopes, _, .execAll h, hw, hs⟩
  | leave q _ =>
    exact ⟨w, q.scopes, _, .completed, hw, D.dropped hs.scopes, hs.objects, hs.nextIdentity,
      hs.sink, hs.depth, hs.readings⟩
  | call q made _ hf => exact endingCall_match hw hs hf made .nil _ _

/-- A frame that goes back to another place. -/
def Restores : Frame → Prop
  | .leave _ | .call _ _ _ => True
  | _ => False

/-- All other frames keep the function and the places around them. -/
theorem Hop.keeps {a b : Stance} {f f' : Frame} (h : Hop S T w a f f' b) (hf : ¬ Restores f) :
    b.inside = a.inside ∧ b.outers = a.outers ∧ b.scopes.isEmpty = a.scopes.isEmpty
      ∧ ¬ Restores f' := by
  cases h with
  | define h =>
    refine ⟨rfl, rfl, ?_, hf⟩
    exact (isEmpty_add _ _).trans (isEmpty_declare _ _).symm
  | sequence h => exact ⟨rfl, rfl, isEmpty_afterAll _ _, hf⟩
  | leave | call => exact absurd trivial hf
  | _ => exact ⟨rfl, rfl, rfl, hf⟩

theorem unwindReturn_eq {c : Config} {v : Value} {f : Frame} (h : ¬ Restores f) :
    c.unwindReturn v f = c := by
  cases f with
  | leave | call => exact absurd trivial h
  | _ => rfl

theorem unwindRaise_eq {c : Config} {f : Frame} (h : ¬ Restores f) : c.unwindRaise f = c := by
  cases f with
  | leave | call => exact absurd trivial h
  | _ => rfl

/-- **A `return` leaves a frame.** -/
theorem alongside_unwindReturn {want : Want} {expected : Scopes} {b : Stance} {f f' : Frame}
    {v v' : Value} (hv : ValueMatch S T w v v') (hop : Hop S T w ⟨want, true, expected, ps⟩ f f' b)
    (hw : Waits S T w b fs fs') (hs : StateMatch D w (⟨s.scope, s'.scope, scopes⟩ :: ps) s s') :
    Alongside D (Config.unwindReturn ⟨.returning v, fs, s⟩ v f)
      (Config.unwindReturn ⟨.returning v', fs', s'⟩ v' f') := by
  by_cases hf : Restores f
  · cases hop with
    | leave q _ =>
      exact ⟨w, q.scopes, _, .returning hv, hw, D.dropped hs.scopes, hs.objects, hs.nextIdentity,
        hs.sink, hs.depth, hs.readings⟩
    | call q made _ hmatch => exact endingCall_match hw hs hmatch made hv _ _
    | _ => exact False.elim hf
  · obtain ⟨hinside, houters, -, hf'⟩ := hop.keeps hf
    obtain ⟨want', inside', expected', outers'⟩ := b
    obtain rfl : inside' = true := hinside
    obtain rfl : outers' = ps := houters
    rw [unwindReturn_eq hf, unwindReturn_eq hf']
    exact ⟨w, scopes, _, .returning hv, hw, hs⟩

/-- **A failure leaves a frame.** -/
theorem alongside_unwindRaise {want : Want} {expected : Scopes} {b : Stance} {f f' : Frame}
    {d : Diagnostic} (hd : ∀ line fault, d = .runtime line fault → Sound fault)
    (hempty : scopes.isEmpty = expected.isEmpty) (hop : Hop S T w ⟨want, i, expected, ps⟩ f f' b)
    (hw : Waits S T w b fs fs') (hs : StateMatch D w (⟨s.scope, s'.scope, scopes⟩ :: ps) s s') :
    Alongside D (Config.unwindRaise ⟨.raising d, fs, s⟩ f)
      (Config.unwindRaise ⟨.raising d, fs', s'⟩ f') := by
  by_cases hf : Restores f
  · cases hop with
    | leave q _ =>
      exact ⟨w, q.scopes, _, .raising hd rfl, hw, D.dropped hs.scopes, hs.objects,
        hs.nextIdentity, hs.sink, hs.depth, hs.readings⟩
    | call q made _ _ =>
      exact ⟨w, q.scopes, _, .raising hd rfl, hw, D.dropped hs.scopes, hs.objects,
        hs.nextIdentity, hs.sink, congrArg (· - 1) hs.depth, hs.readings⟩
    | _ => exact False.elim hf
  · obtain ⟨hinside, houters, hempty', hf'⟩ := hop.keeps hf
    obtain ⟨want', inside', expected', outers'⟩ := b
    obtain rfl : outers' = ps := houters
    rw [unwindRaise_eq hf, unwindRaise_eq hf']
    exact ⟨w, scopes, _, .raising hd (hempty.trans hempty'.symm), hw, hs⟩

/-! ## §5. Steps. -/

/-- **A step that does not look at names** keeps two programs alongside each
other. -/
theorem Alongside.step {c c' : Config} (h : Alongside D c c') (hclock : g'.clock = g.clock)
    (hlimit : g'.callLimit = g.callLimit) (hn : ¬ Naming c) :
    Alongside D (c.step g) (c'.step g') := by
  obtain ⟨control, frames, state⟩ := c
  obtain ⟨control', frames', state'⟩ := c'
  obtain ⟨w, scopes, a, hdoes, hwaits, hstates⟩ := id h
  dsimp only at hdoes hwaits hstates
  cases hdoes with
  | eval hb => exact alongside_eval hb ⟨hwaits, hstates⟩ hn
  | exec hb => exact alongside_exec hb hwaits hstates hn
  | execAll hb => exact alongside_execAll hb hwaits hstates
  | value hv =>
    cases hwaits with
    | cons hop hrest => exact alongside_resume hclock hlimit hv hop hrest hstates hn
  | completed =>
    cases hwaits with
    | bottom => exact h
    | cons hop hrest => exact alongside_complete hop hrest hstates
  | returning hv =>
    cases hwaits with
    | cons hop hrest => exact alongside_unwindReturn hv hop hrest hstates
  | raising hd hempty =>
    cases hwaits with
    | bottom => exact h
    | cons hop hrest => exact alongside_unwindRaise hd hempty hop hrest hstates

/-! ## §6. Ends. -/

/-- Programs that go alongside end together. -/
theorem Alongside.halted {c c' : Config} (h : Alongside D c c') : c'.halted = c.halted := by
  obtain ⟨control, frames, state⟩ := c
  obtain ⟨control', frames', state'⟩ := c'
  obtain ⟨w, scopes, a, hdoes, hwaits, -⟩ := h
  have hempty : frames'.isEmpty = frames.isEmpty := by
    cases hwaits <;> rfl
  cases hdoes <;> first | rfl | exact hempty

/-- Programs that go alongside end alike. -/
theorem Alongside.ending {c c' : Config} (h : Alongside D c c') : c'.ending = c.ending := by
  obtain ⟨control, frames, state⟩ := c
  obtain ⟨control', frames', state'⟩ := c'
  obtain ⟨w, scopes, a, hdoes, hwaits, -⟩ := h
  dsimp only at hdoes hwaits
  cases hwaits with
  | cons => cases hdoes <;> rfl
  | bottom =>
    generalize (⟨.completion, false, [], []⟩ : Stance) = a at hdoes
    cases hdoes <;> rfl

/-- **At its end a program is back at the top level.** -/
theorem Alongside.ended {c c' : Config} (h : Alongside D c c') (he : c.ending ≠ .unfinished) :
    ∃ w, StateMatch D w [⟨c.state.scope, c'.state.scope, []⟩] c.state c'.state := by
  obtain ⟨control, frames, state⟩ := c
  obtain ⟨control', frames', state'⟩ := c'
  obtain ⟨w, scopes, a, hdoes, hwaits, hstates⟩ := h
  dsimp only at hdoes hwaits hstates
  cases hwaits with
  | cons => cases hdoes <;> exact absurd rfl he
  | bottom =>
    generalize ha : (⟨.completion, false, [], []⟩ : Stance) = a at hdoes hstates
    cases hdoes with
    | eval | exec | execAll | value => exact absurd rfl he
    | completed =>
      cases ha
      exact ⟨w, hstates⟩
    | returning => cases ha
    | raising _ hempty =>
      cases ha
      obtain rfl := List.isEmpty_iff.mp hempty
      exact ⟨w, hstates⟩

end Lox.Lockstep
