/-
  Lox.Proofs.Machine.Operations
  ─────────────────────────────
  **CALLS, METHODS AND CLASSES SIDE BY SIDE.**

  What a value does when it is called, bound or declared keeps two programs
  alongside each other: each operation opens matching scopes, and what it
  yields matches there.
-/
import Lox.Proofs.Machine.Lockstep

namespace Lox.Lockstep

open Resolve

variable {S : Sight} {T : Chart} {D : Discipline S T} {w : S.World} {fs fs' : List Frame}
  {s s' : State} {i : Bool} {scopes : Scopes} {ps : List Place}

/-! ## §1. Outcomes. -/

/-- Frames of both programs that are about to get an outcome. -/
structure Ready (D : Discipline S T) (w : S.World) (a : Stance) (fs fs' : List Frame)
    (s s' : State) : Prop where
  frames : Waits S T w a fs fs'
  states : StateMatch D w (⟨s.scope, s'.scope, a.scopes⟩ :: a.outers) s s'

theorem Ready.yielding (h : Ready D w ⟨.value, i, scopes, ps⟩ fs fs' s s') {v v' : Value}
    (hv : ValueMatch S T w v v') : Alongside D ⟨.value v, fs, s⟩ ⟨.value v', fs', s'⟩ :=
  ⟨w, scopes, _, .value hv, h.frames, h.states⟩

theorem Ready.completed (h : Ready D w ⟨.completion, i, scopes, ps⟩ fs fs' s s') :
    Alongside D ⟨.completed, fs, s⟩ ⟨.completed, fs', s'⟩ :=
  ⟨w, scopes, _, .completed, h.frames, h.states⟩

theorem Ready.failing {a : Stance} (h : Ready D w a fs fs' s s') {fault : RuntimeFault}
    (hf : Sound fault) (line : Nat) :
    Alongside D ⟨.raising (.runtime line fault), fs, s⟩ ⟨.raising (.runtime line fault), fs', s'⟩ := by
  refine ⟨w, a.scopes, a, .raising ?_ rfl, h.frames, h.states⟩
  intro line' fault' heq
  cases heq
  exact hf

/-- The same result settles both programs alike. -/
theorem Ready.settling (h : Ready D w ⟨.value, i, scopes, ps⟩ fs fs' s s')
    {r r' : Except RuntimeFault Value} (hr : ResultMatch S T w r r') (line : Nat)
    (control control' : Control) :
    Alongside D (Config.settling ⟨control, fs, s⟩ line r)
      (Config.settling ⟨control', fs', s'⟩ line r') := by
  cases hr with
  | ok hv => exact h.yielding hv
  | error hf => exact h.failing hf line

/-! ## §2. Methods. -/

/-- **Binding a method**: the new scope of `this` makes it a function that is
bound there. -/
theorem bind_match {p : Place} {places : List Place} (h : StateMatch D w (p :: places) s s')
    {f f' : Function} (hf : MethodMatch S T w f f') (id : ObjectId) :
    ∃ w', S.grows w w'
      ∧ FunctionMatch S T w' (Config.boundMethod s f) (Config.boundMethod s' f')
      ∧ StateMatch D w' (p :: places) (Config.bind s f id) (Config.bind s' f' id) := by
  obtain ⟨outer, htwins, hbound⟩ := hf
  obtain ⟨w', hg, hs⟩ := h.child htwins.closure (furnished_this id)
  refine ⟨w', hg, ⟨thisScope :: outer, ?_, hbound, fun _ => ⟨outer, rfl⟩⟩, ?_⟩
  · exact ⟨h.nextIdentity, htwins.decl, htwins.isInitializer, D.current hs.scopes⟩
  · exact StateMatch.useIdentities ⟨D.dropped hs.scopes, hs.objects, hs.nextIdentity, hs.sink,
      hs.depth, hs.readings⟩ 1

theorem Ready.yieldingMethod (h : Ready D w ⟨.value, i, scopes, ps⟩ fs fs' s s') {f f' : Function}
    (hf : MethodMatch S T w f f') (id : ObjectId) (control control' : Control) :
    Alongside D (Config.yieldingMethod ⟨control, fs, s⟩ f id)
      (Config.yieldingMethod ⟨control', fs', s'⟩ f' id) := by
  obtain ⟨w', hg, hbound, hs⟩ := bind_match h.states hf id
  exact Ready.yielding ⟨h.frames.mono hg, hs⟩ (.function hbound)

/-- A property of an object is found in the same place. -/
theorem Ready.property (h : Ready D w ⟨.value, i, scopes, ps⟩ fs fs' s s') (id : ObjectId)
    (name : Token) (control control' : Control) :
    Alongside D (Config.property ⟨control, fs, s⟩ id name)
      (Config.property ⟨control', fs', s'⟩ id name) := by
  have hobject := h.states.objects.object id
  unfold Config.property
  dsimp only
  generalize s.objects[id]? = x at hobject
  generalize s'.objects[id]? = y at hobject
  cases hobject with
  | none => exact h.failing (by trivial) _
  | @some o o' ho =>
    have hfield := ho.fields name.lexeme
    have hmethod := ho.cls.method name.lexeme
    dsimp only
    generalize o.fields.get? name.lexeme = x at hfield
    generalize o'.fields.get? name.lexeme = y at hfield
    cases hfield with
    | some hv => exact h.yielding hv
    | none =>
      dsimp only
      generalize o.cls.method? name.lexeme = x at hmethod
      generalize o'.cls.method? name.lexeme = y at hmethod
      cases hmethod with
      | none => exact h.failing (by trivial) _
      | some hf => exact h.yieldingMethod hf id _ _

/-! ## §3. Calls. -/

theorem StateMatch.beginCall {places : List Place} (h : StateMatch D w places s s')
    (n n' : ScopeId) : StateMatch D w places (s.beginCall n) (s'.beginCall n') :=
  ⟨h.scopes, h.objects, h.nextIdentity, h.sink, congrArg (· + 1) h.depth, h.readings⟩

theorem StateMatch.addObject {places : List Place} (h : StateMatch D w places s s') {k k' : Class}
    (hk : ClassMatch S T w k k') :
    StateMatch D w places (s.addObject k) (s'.addObject k') :=
  ⟨h.scopes, h.objects.push ⟨hk, fun _ => .none⟩, h.nextIdentity, h.sink, h.depth, h.readings⟩

/-- **Entering a function**: its body is bound in the scope of its
parameters. -/
theorem Ready.entering (h : Ready D w ⟨.value, i, scopes, ps⟩ fs fs' s s') {f f' : Function}
    (hf : FunctionMatch S T w f f') {arguments arguments' : Array Value}
    (ha : List.Forall₂ (ValueMatch S T w) arguments.toList arguments'.toList)
    (hlength : arguments.size = f.arity) (made : Option ObjectId) (control control' : Control) :
    Alongside D (Config.entering ⟨control, fs, s⟩ f arguments made)
      (Config.entering ⟨control', fs', s'⟩ f' arguments' made) := by
  obtain ⟨outer, htwins, hbound, -⟩ := id hf
  obtain ⟨identity, decl, closure, isInitializer⟩ := f
  obtain ⟨identity', decl', closure', isInitializer'⟩ := f'
  obtain rfl : decl' = decl := htwins.decl
  obtain ⟨name, params, body⟩ := decl'
  obtain ⟨hparams, -, hbody⟩ := hbound
  have hfurnished := furnished_parameters hparams ha hlength
  obtain ⟨w', hg, hs⟩ := h.states.child htwins.closure hfurnished
  have hdefined := BoundStmts.allDefined_afterAll hbody
  exact ⟨w', _, _, .execAll hbody, .cons (.call ⟨s.scope, s'.scope, scopes⟩ made hdefined
    (hf.mono hg)) (h.frames.mono hg), hs.beginCall _ _⟩

/-- Making an object: both programs give it the same number. -/
theorem Ready.making (h : Ready D w ⟨.value, i, scopes, ps⟩ fs fs' s s') {k k' : Class}
    (hk : ClassMatch S T w k k') {arguments arguments' : Array Value}
    (ha : List.Forall₂ (ValueMatch S T w) arguments.toList arguments'.toList)
    (hlength : arguments.size = k.arity) (control control' : Control) :
    Alongside D (Config.making ⟨control, fs, s⟩ k arguments)
      (Config.making ⟨control', fs', s'⟩ k' arguments') := by
  have hmade : Ready D w ⟨.value, i, scopes, ps⟩ fs fs' (s.addObject k) (s'.addObject k') :=
    ⟨h.frames, h.states.addObject hk⟩
  have hinit : Option.Rel (MethodMatch S T w) k.initializer? k'.initializer? :=
    hk.method initializerName
  unfold Class.arity at hlength
  unfold Config.making
  rw [h.states.objects.size]
  dsimp only
  generalize k.initializer? = x at hinit hlength
  generalize k'.initializer? = y at hinit
  cases hinit with
  | none => exact hmade.yielding (.object _)
  | @some f f' hf =>
    obtain ⟨w', hg, hbound, hs⟩ := bind_match hmade.states hf s.objects.size
    have hready : Ready D w' ⟨.value, i, scopes, ps⟩ fs fs'
        (Config.bind (s.addObject k) f s.objects.size)
        (Config.bind (s'.addObject k') f' s.objects.size) := ⟨h.frames.mono hg, hs⟩
    have ha' := ha.imp fun _ _ hv => ValueMatch.mono hg hv
    exact hready.entering hbound ha' hlength (some s.objects.size) _ _

/-- The checks before a call fail alike. -/
theorem Ready.checking (h : Ready D w ⟨.value, i, scopes, ps⟩ fs fs' s s') {size : Nat}
    (arity : Nat) {full : Bool} {c c' : Config} (hc : size = arity → Alongside D c c') (line : Nat)
    (control control' : Control) :
    Alongside D
      (if size ≠ arity then Config.failing ⟨control, fs, s⟩ line (.wrongArity arity size)
        else if full then Config.failing ⟨control, fs, s⟩ line .stackOverflow else c)
      (if size ≠ arity then Config.failing ⟨control', fs', s'⟩ line (.wrongArity arity size)
        else if full then Config.failing ⟨control', fs', s'⟩ line .stackOverflow else c') := by
  by_cases harity : size = arity
  · rw [if_neg (not_not.mpr harity), if_neg (not_not.mpr harity)]
    cases full with
    | true => exact h.failing (by trivial) line
    | false => exact hc harity
  · rw [if_pos harity, if_pos harity]
    exact h.failing (by trivial) line

/-- **A call** of matching values with matching arguments. -/
theorem Ready.calling (h : Ready D w ⟨.value, i, scopes, ps⟩ fs fs' s s') {g g' : Setting}
    (hclock : g'.clock = g.clock) (hlimit : g'.callLimit = g.callLimit) {callee callee' : Value}
    (hc : ValueMatch S T w callee callee') {arguments arguments' : Array Value}
    (ha : List.Forall₂ (ValueMatch S T w) arguments.toList arguments'.toList) (paren : Token)
    (control control' : Control) :
    Alongside D (Config.calling g ⟨control, fs, s⟩ callee paren arguments)
      (Config.calling g' ⟨control', fs', s'⟩ callee' paren arguments') := by
  have hsize : arguments'.size = arguments.size := ha.length_eq.symm
  have hexhausted : g'.exhausted s'.depth = g.exhausted s.depth := by
    unfold Setting.exhausted
    rw [hlimit, h.states.depth]
  unfold Config.calling
  dsimp only
  rw [hexhausted, hsize]
  cases hc with
  | nil | bool | number | string | object => exact h.failing (by trivial) _
  | native n =>
    refine h.checking n.arity ?_ paren.line control control'
    intro _
    cases n
    have hshown : g'.clock.reading s'.readings = g.clock.reading s.readings := by
      rw [hclock, h.states.readings]
    show Alongside D ⟨.value (.number (g.clock.reading s.readings)), fs, s.readClock⟩
      ⟨.value (.number (g'.clock.reading s'.readings)), fs', s'.readClock⟩
    rw [hshown]
    have hready : Ready D w ⟨.value, i, scopes, ps⟩ fs fs' s.readClock s'.readClock :=
      ⟨h.frames, h.states.readClock⟩
    exact hready.yielding (.number _)
  | @function f f' hf =>
    have harity : Config.Callable.arity (.function f') = f.arity := hf.arity
    dsimp only [Config.Callable.ofValue?]
    rw [harity]
    exact h.checking _ (fun hlength => h.entering hf ha hlength none _ _) _ _ _
  | @«class» k k' hk =>
    have harity : Config.Callable.arity (.class k') = k.arity := hk.arity
    dsimp only [Config.Callable.ofValue?]
    rw [harity]
    exact h.checking _ (fun hlength => h.making hk ha hlength _ _) _ _ _

/-- The end of a call that has a result. -/
theorem endingCall_eq {scope : ScopeId} {f : Function} {v r : Value}
    (h : Config.callResult (s.endCall scope) f v = .ok r) (made : Option ObjectId)
    (control : Control) :
    Config.endingCall ⟨control, fs, s⟩ scope f made v
      = ⟨.value ((made.map Value.object).getD r), fs, s.endCall scope⟩ := by
  unfold Config.endingCall Config.mapState
  dsimp only
  rw [h]
  cases made <;> rfl

/-- The results of a call match: initializers yield the object they are bound
to in both programs. -/
theorem callResult_match {places : List Place} (hs : StateMatch D w places s s') {f f' : Function}
    (hf : FunctionMatch S T w f f') {v v' : Value} (hv : ValueMatch S T w v v')
    (caller caller' : ScopeId) :
    ∃ r r', Config.callResult (s.endCall caller) f v = .ok r
      ∧ Config.callResult (s'.endCall caller') f' v' = .ok r' ∧ ValueMatch S T w r r' := by
  obtain ⟨outer, htwins, -, hinit⟩ := hf
  unfold Config.callResult
  rw [htwins.isInitializer]
  cases hi : f.isInitializer with
  | false => exact ⟨v, v', rfl, rfl, hv⟩
  | true =>
    obtain ⟨outer', rfl⟩ := hinit hi
    obtain ⟨id, hthis, hthis'⟩ := D.receiver hs.scopes htwins.closure
    exact ⟨.object id, .object id, hthis, hthis', .object id⟩

/-- A call ends in both programs. -/
theorem endingCall_match {q : Place} {p : Place} (hw : Waits S T w ⟨.value, i, q.scopes, ps⟩ fs fs')
    (hs : StateMatch D w (p :: q :: ps) s s') {f f' : Function} (hf : FunctionMatch S T w f f')
    (made : Option ObjectId) {v v' : Value} (hv : ValueMatch S T w v v')
    (control control' : Control) :
    Alongside D (Config.endingCall ⟨control, fs, s⟩ q.here f made v)
      (Config.endingCall ⟨control', fs', s'⟩ q.there f' made v') := by
  have hready : Ready D w ⟨.value, i, q.scopes, ps⟩ fs fs' (s.endCall q.here) (s'.endCall q.there) :=
    ⟨hw, D.dropped hs.scopes, hs.objects, hs.nextIdentity, hs.sink,
      congrArg (· - 1) hs.depth, hs.readings⟩
  obtain ⟨r, r', hr, hr', hmatch⟩ := callResult_match hs hf hv q.here q.there
  rw [endingCall_eq hr, endingCall_eq hr']
  cases made with
  | none => exact hready.yielding hmatch
  | some id => exact hready.yielding (.object id)

/-! ## §4. Classes. -/

/-- The scope that methods close over shows the names around the class, and
`super` if there is a superclass. -/
theorem openMethodScope_match {p : Place} {places : List Place}
    (hs : StateMatch D w (p :: places) s s') (hhere : p.here = s.scope) (hthere : p.there = s'.scope)
    {parent parent' : Option Class} (hp : Option.Rel (ClassMatch S T w) parent parent') :
    ∃ w' scopes, S.grows w w'
      ∧ Walk.classScopes p.scopes parent.isSome = thisScope :: scopes
      ∧ S.sees w' (Config.methodScope s parent) (Config.methodScope s' parent') scopes
      ∧ StateMatch D w' (p :: places) (Config.openMethodScope s parent)
        (Config.openMethodScope s' parent') := by
  have hcurrent := D.current hs.scopes
  rw [hhere, hthere] at hcurrent
  cases hp with
  | none => exact ⟨w, p.scopes, S.refl w, rfl, hcurrent, hs⟩
  | some hk =>
    obtain ⟨w', hg, hs'⟩ := hs.child hcurrent (furnished_super hk)
    exact ⟨w', superScope :: p.scopes, hg, rfl, D.current hs'.scopes, D.dropped hs'.scopes,
      hs'.objects, hs'.nextIdentity, hs'.sink, hs'.depth, hs'.readings⟩

section DeclaringClass

variable {name : Token} {parent : Option Class} {methods : List (FunctionDecl Stmt)}
  {control : Control}

/-- The state in which the name of a class gets its class. -/
def declaringState (s : State) (parent : Option Class) (methods : List (FunctionDecl Stmt)) : State :=
  (Config.openMethodScope s parent).useIdentities (1 + methods.length)

theorem declaringState_scope (s : State) (parent : Option Class)
    (methods : List (FunctionDecl Stmt)) : (declaringState s parent methods).scope = s.scope := by
  cases parent <;> rfl

theorem declaringClass_eq {a : ScopeId}
    (h : (declaringState s parent methods).scopes.target (declaringState s parent methods).scope
      name.lexeme = .ok a) :
    Config.declaringClass ⟨control, fs, s⟩ name parent methods
      = ⟨.completed, fs, (declaringState s parent methods).define a name.lexeme
        (.class (Config.declaredClass s name parent methods))⟩ := by
  unfold declaringState at h
  unfold Config.declaringClass Config.mapState
  dsimp only
  rw [h]
  rfl

theorem declaringClass_error {fault : RuntimeFault}
    (h : (declaringState s parent methods).scopes.target (declaringState s parent methods).scope
      name.lexeme = .error fault) :
    Config.declaringClass ⟨control, fs, s⟩ name parent methods
      = ⟨.raising (.runtime name.line fault), fs, declaringState s parent methods⟩ := by
  unfold declaringState at h
  unfold Config.declaringClass Config.mapState
  dsimp only
  rw [h]
  rfl

end DeclaringClass

/-- **A class is declared**: the classes of both programs match, and so do the
variables that get them. -/
theorem Ready.declaringClass (h : Ready D w ⟨.completion, i, scopes, ps⟩ fs fs' s s') {name : Token}
    (hn : Ordinary name.lexeme) (ho : Owns scopes name.lexeme) {parent parent' : Option Class}
    (hp : Option.Rel (ClassMatch S T w) parent parent') {methods : List (FunctionDecl Stmt)}
    (hm : BoundMethods T (Walk.classScopes scopes parent.isSome) methods)
    (control control' : Control) :
    Alongside D (Config.declaringClass ⟨control, fs, s⟩ name parent methods)
      (Config.declaringClass ⟨control', fs', s'⟩ name parent' methods) := by
  obtain ⟨w', outer, hg, houter, hsees, hs⟩ := openMethodScope_match h.states rfl rfl hp
  dsimp only at houter
  rw [houter] at hm
  have hclass : ClassMatch S T w' (Config.declaredClass s name parent methods)
      (Config.declaredClass s' name parent' methods) := by
    refine .declared h.states.nextIdentity rfl (optionRel_imp (fun _ _ => .mono hg) hp) ?_
    intro method
    unfold Config.declaredClass
    rw [h.states.nextIdentity]
    exact methodTable_match hsees _ hm method
  have hs' : StateMatch D w' (⟨(declaringState s parent methods).scope,
      (declaringState s' parent' methods).scope, scopes⟩ :: ps) (declaringState s parent methods)
      (declaringState s' parent' methods) := by
    rw [declaringState_scope, declaringState_scope]
    exact hs.useIdentities (1 + methods.length)
  have hframes := h.frames.mono hg
  rcases D.renewed hs'.scopes ho hn (.class hclass) with
    ⟨a, a', w'', ha, ha', hg', hF⟩ | ⟨herror, herror'⟩
  · rw [declaringClass_eq ha, declaringClass_eq ha']
    exact Ready.completed ⟨hframes.mono hg', hs'.grow hg' hF⟩
  · rw [declaringClass_error herror, declaringClass_error herror']
    exact Ready.failing ⟨hframes, hs'⟩ (by trivial) name.line

end Lox.Lockstep
