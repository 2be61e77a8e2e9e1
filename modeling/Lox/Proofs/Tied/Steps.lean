/-
  Lox.Proofs.Tied.Steps
  ─────────────────────
  **TIED PROGRAMS STEP BY STEP.**

  Two running programs are tied when what they do, the frames that wait and
  their states are tied in one world, and the current scope sees the sides
  that the code in hand is tied in.  No frame has to be in its proper place
  for this: whatever a frame is given, both programs do the same with it.

  A step keeps programs tied (`ConfigTied.step`), so a run does
  (`ConfigTied.run`), and both end alike up to the spelling of one variable
  in a message.  This variable is the one of the occurrence at which both
  programs fail, at the same step (`Config.Misses`).
-/
import Lox.Proofs.Machine.Sequence
import Lox.Proofs.Tied.State

namespace Lox

open Lockstep (optionRel_imp optionRel_map holder?_global target_of_binds target_global_of_not
  declaringState declaringState_scope declaringClass_eq)

/-! ## §1. Tied programs. -/

/-- States with tied stores. -/
structure StateTied (T : Tie) (W : World) (s s' : State) : Prop where
  forest : W.forest = s.scopes
  store : StoreTied T W s'.scopes
  objects : ObjectsTied T W s.objects s'.objects
  scope : s'.scope = s.scope
  depth : s'.depth = s.depth
  nextIdentity : s'.nextIdentity = s.nextIdentity
  sink : s'.sink = s.sink
  readings : s'.readings = s.readings

/-- Failures that differ at most in how a variable is spelled. -/
inductive DiagnosticTied (T : Tie) : Diagnostic → Diagnostic → Prop
  | runtime {line : Nat} {fault fault' : RuntimeFault} (h : FaultTied T line fault fault') :
      DiagnosticTied T (.runtime line fault) (.runtime line fault')
  | outputFull : DiagnosticTied T .outputFull .outputFull

section Relations

variable (T : Tie) (W : World)

/-- What both programs do in scopes on these sides. -/
inductive ControlTied (sides : List Bool) : Control → Control → Prop
  | eval {e e' : Expr} (h : TiedExpr T sides e e') : ControlTied sides (.eval e) (.eval e')
  | exec {s s' : Stmt} (h : TiedStmt T sides s s') : ControlTied sides (.exec s) (.exec s')
  | execAll {ss ss' : List Stmt} (h : TiedStmts T sides ss ss') :
      ControlTied sides (.execAll ss) (.execAll ss')
  | value {v v' : Value} (h : ValueTied T W v v') : ControlTied sides (.value v) (.value v')
  | completed : ControlTied sides .completed .completed
  | returning {v v' : Value} (h : ValueTied T W v v') :
      ControlTied sides (.returning v) (.returning v')
  | raising {d d' : Diagnostic} (h : DiagnosticTied T d d') :
      ControlTied sides (.raising d) (.raising d')

/-- Frames that wait in scope `n`, which sees these sides, and stay there. -/
inductive FrameTied (n : ScopeId) (sides : List Bool) : Frame → Frame → Prop
  | unary (op : Token) : FrameTied n sides (.unary op) (.unary op)
  | binaryLeft (op : Token) {e e' : Expr} (h : TiedExpr T sides e e') :
      FrameTied n sides (.binaryLeft op e) (.binaryLeft op e')
  | binaryRight (op : Token) {v v' : Value} (h : ValueTied T W v v') :
      FrameTied n sides (.binaryRight v op) (.binaryRight v' op)
  | logical (op : Token) {e e' : Expr} (h : TiedExpr T sides e e') :
      FrameTied n sides (.logical op e) (.logical op e')
  | assign {o o' : Occurrence} (h : T.Occurrences sides o o') :
      FrameTied n sides (.assign o) (.assign o')
  | callee (paren : Token) {es es' : List Expr} (h : TiedExprs T sides es es') :
      FrameTied n sides (.callee paren es) (.callee paren es')
  | argument (paren : Token) {v v' : Value} {vs vs' : Array Value} {es es' : List Expr}
      (hv : ValueTied T W v v') (hvs : List.Forall₂ (ValueTied T W) vs.toList vs'.toList)
      (hes : TiedExprs T sides es es') :
      FrameTied n sides (.argument v paren vs es) (.argument v' paren vs' es')
  | get (name : Token) : FrameTied n sides (.get name) (.get name)
  | setObject (name : Token) {e e' : Expr} (h : TiedExpr T sides e e') :
      FrameTied n sides (.setObject name e) (.setObject name e')
  | setValue (id : ObjectId) (name : Token) :
      FrameTied n sides (.setValue id name) (.setValue id name)
  | discard : FrameTied n sides .discard .discard
  | print : FrameTied n sides .print .print
  | define {name name' : Token} (h : T.Declares sides name name') :
      FrameTied n sides (.define name) (.define name')
  | branch {s s' : Stmt} {e e' : Option Stmt} (hs : TiedStmt T sides s s')
      (he : Option.Rel (TiedStmt T sides) e e') : FrameTied n sides (.branch s e) (.branch s' e')
  | loopTest {e e' : Expr} {s s' : Stmt} (he : TiedExpr T sides e e')
      (hs : TiedStmt T sides s s') : FrameTied n sides (.loopTest e s) (.loopTest e' s')
  | loopBody {e e' : Expr} {s s' : Stmt} (he : TiedExpr T sides e e')
      (hs : TiedStmt T sides s s') : FrameTied n sides (.loopBody e s) (.loopBody e' s')
  | returnValue : FrameTied n sides .returnValue .returnValue
  /-- The name of the class has a variable in the scope already. -/
  | superclass {name : Token} {o o' : Occurrence} {ms ms' : List (FunctionDecl Stmt)}
      (hname : T.Fixes (sides.headD false) name.lexeme)
      (hbinds : (W.forest.bindings n).binds name.lexeme) (hline : o'.name.line = o.name.line)
      (hms : TiedMethods T (false :: methodSides sides true) ms ms') :
      FrameTied n sides (.superclass name o ms) (.superclass name o' ms')
  | sequence {ss ss' : List Stmt} (h : TiedStmts T sides ss ss') :
      FrameTied n sides (.sequence ss) (.sequence ss')

/-- **Frames of both programs**, the innermost in scope `n` that sees these
sides. -/
inductive FramesTied : ScopeId → List Bool → List Frame → List Frame → Prop
  | nil (n : ScopeId) (sides : List Bool) : FramesTied n sides [] []
  | cons {n : ScopeId} {sides : List Bool} {f f' : Frame} {fs fs' : List Frame}
      (h : FrameTied T W n sides f f') (hfs : FramesTied n sides fs fs') :
      FramesTied n sides (f :: fs) (f' :: fs')
  | leave {n m : ScopeId} {sides outer : List Bool} {fs fs' : List Frame} (hm : W.Sees T m outer)
      (hfs : FramesTied m outer fs fs') : FramesTied n sides (.leave m :: fs) (.leave m :: fs')
  | call {n m : ScopeId} {sides outer : List Bool} {f f' : Function} (made : Option ObjectId)
      {fs fs' : List Frame} (hm : W.Sees T m outer) (hf : FunctionTied T W f f')
      (hfs : FramesTied m outer fs fs') :
      FramesTied n sides (.call m f made :: fs) (.call m f' made :: fs')

/-- All of two programs but what they do. -/
structure Poised (sides : List Bool) (fs fs' : List Frame) (s s' : State) : Prop where
  sees : W.Sees T s.scope sides
  frames : FramesTied T W s.scope sides fs fs'
  state : StateTied T W s s'

end Relations

/-- **Programs that do the same** up to numbers and the spelling of names. -/
def ConfigTied (T : Tie) (c c' : Config) : Prop :=
  ∃ W sides, ControlTied T W sides c.control c'.control
    ∧ Poised T W sides c.frames c'.frames c.state c'.state

/-! ## §2. While the stores grow. -/

section Growing

variable {T : Tie} {W W' : World} {n : ScopeId} {sides : List Bool} {fs fs' : List Frame}
  {s s' : State}

theorem FrameTied.mono (hW : W.Extends W') {f f' : Frame} (h : FrameTied T W n sides f f') :
    FrameTied T W' n sides f f' := by
  cases h with
  | unary op => exact .unary op
  | binaryLeft op h => exact .binaryLeft op h
  | binaryRight op h => exact .binaryRight op (h.mono hW)
  | logical op h => exact .logical op h
  | assign h => exact .assign h
  | callee paren h => exact .callee paren h
  | argument paren hv hvs hes =>
    exact .argument paren (hv.mono hW) (hvs.imp fun _ _ => .mono hW) hes
  | get name => exact .get name
  | setObject name h => exact .setObject name h
  | setValue id name => exact .setValue id name
  | discard => exact .discard
  | print => exact .print
  | define h => exact .define h
  | branch hs he => exact .branch hs he
  | loopTest he hs => exact .loopTest he hs
  | loopBody he hs => exact .loopBody he hs
  | returnValue => exact .returnValue
  | superclass hname hbinds hline hms =>
    exact .superclass hname (hW.grows.binds n _ hbinds) hline hms
  | sequence h => exact .sequence h

theorem FramesTied.mono (hW : W.Extends W') (h : FramesTied T W n sides fs fs') :
    FramesTied T W' n sides fs fs' := by
  induction h with
  | nil n sides => exact .nil n sides
  | cons h _ ih => exact .cons (h.mono hW) ih
  | leave hm _ ih => exact .leave (hm.mono hW) ih
  | call made hm hf _ ih => exact .call made (hm.mono hW) (hf.mono hW) ih

/-- The states after a new scope was added. -/
theorem StateTied.child (h : StateTied T W s s') (parent : ScopeId) {side : Bool}
    {b b' : Bindings Value} (hb : BindingsTied T W side b b') :
    StateTied T (W.child parent b side) (s.child parent b) (s'.child parent b') := by
  have hW := W.extends_child parent b side
  have hforest : (W.child parent b side).forest = (s.child parent b).scopes := by
    show W.forest.child parent b = s.scopes.child parent b
    rw [h.forest]
  exact ⟨hforest, h.store.child parent hb, h.objects.mono hW, h.scope, h.depth, h.nextIdentity,
    h.sink, h.readings⟩

/-- The states after a variable got a value. -/
theorem StateTied.define (h : StateTied T W s s') (hn : n < W.forest.nextId) (name : String)
    {v v' : Value} (hv : ValueTied T W v v') :
    StateTied T (W.define n name v) (s.define n name v)
      (s'.define n (T.spell (W.side n) name) v') := by
  have hW := W.extends_define n name v
  have hforest : (W.define n name v).forest = (s.define n name v).scopes := by
    show W.forest.define n name v = s.scopes.define n name v
    rw [h.forest]
  exact ⟨hforest, h.store.define hn name hv, h.objects.mono hW, h.scope, h.depth, h.nextIdentity,
    h.sink, h.readings⟩

theorem StateTied.useIdentities (h : StateTied T W s s') (count : Nat) :
    StateTied T W (s.useIdentities count) (s'.useIdentities count) :=
  ⟨h.forest, h.store, h.objects, h.scope, h.depth, congrArg (· + count) h.nextIdentity, h.sink,
    h.readings⟩

theorem StateTied.readClock (h : StateTied T W s s') : StateTied T W s.readClock s'.readClock :=
  ⟨h.forest, h.store, h.objects, h.scope, h.depth, h.nextIdentity, h.sink,
    congrArg (· + 1) h.readings⟩

theorem StateTied.inScope (h : StateTied T W s s') (n : ScopeId) :
    StateTied T W (s.inScope n) (s'.inScope n) :=
  ⟨h.forest, h.store, h.objects, rfl, h.depth, h.nextIdentity, h.sink, h.readings⟩

theorem StateTied.extend {T' : Tie} (hT : T.Extends T') (h : StateTied T W s s') :
    StateTied T' W s s' :=
  ⟨h.forest, h.store.extend hT, h.objects.extend hT, h.scope, h.depth, h.nextIdentity, h.sink,
    h.readings⟩

theorem StateTied.nextId (h : StateTied T W s s') : s'.scopes.nextId = s.scopes.nextId := by
  rw [h.store.nextId, h.forest]

/-- A scope that both programs were in goes on with a state of a larger world. -/
theorem Poised.grow (h : Poised T W sides fs fs' s s') (hW : W.Extends W') {u u' : State}
    (hu : StateTied T W' u u') (hscope : u.scope = s.scope) : Poised T W' sides fs fs' u u' := by
  refine ⟨?_, ?_, hu⟩
  · rw [hscope]
    exact h.sees.mono hW
  · rw [hscope]
    exact h.frames.mono hW

end Growing

/-! ## §3. Outcomes. -/

section Outcomes

variable {T : Tie} {W : World} {sides : List Bool} {fs fs' : List Frame} {s s' : State}

theorem Poised.yielding (h : Poised T W sides fs fs' s s') {v v' : Value}
    (hv : ValueTied T W v v') : ConfigTied T ⟨.value v, fs, s⟩ ⟨.value v', fs', s'⟩ :=
  ⟨W, sides, .value hv, h⟩

theorem Poised.completed (h : Poised T W sides fs fs' s s') :
    ConfigTied T ⟨.completed, fs, s⟩ ⟨.completed, fs', s'⟩ :=
  ⟨W, sides, .completed, h⟩

theorem Poised.failing (h : Poised T W sides fs fs' s s') (line : Nat) {fault : RuntimeFault}
    (hfault : fault.Nameless) :
    ConfigTied T ⟨.raising (.runtime line fault), fs, s⟩
      ⟨.raising (.runtime line fault), fs', s'⟩ :=
  ⟨W, sides, .raising (.runtime (.same hfault)), h⟩

/-- Tied results settle both programs. -/
theorem Poised.settling (h : Poised T W sides fs fs' s s') {r r' : Except RuntimeFault Value}
    {line : Nat} (hr : ResultTied T W line r r') (control control' : Control) :
    ConfigTied T (Config.settling ⟨control, fs, s⟩ line r)
      (Config.settling ⟨control', fs', s'⟩ line r') := by
  cases hr with
  | ok hv => exact h.yielding hv
  | error hf => exact ⟨W, sides, .raising (.runtime hf), h⟩

/-- Both programs go on with tied code inside tied frames. -/
theorem Poised.within (h : Poised T W sides fs fs' s s') {f f' : Frame}
    (hf : FrameTied T W s.scope sides f f') {control control' : Control}
    (hc : ControlTied T W sides control control') :
    ConfigTied T ⟨control, f :: fs, s⟩ ⟨control', f' :: fs', s'⟩ :=
  ⟨W, sides, hc, h.sees, .cons hf h.frames, h.state⟩

/-! ## §4. Variables. -/

/-- The occurrence that a step reads, or assigns to. -/
def Config.named? : Config → Option Occurrence
  | ⟨.eval (.variable o), _, _⟩ => some o
  | ⟨.value _, .assign o :: _, _⟩ => some o
  | _ => none

/-- **A program fails at an occurrence**: the step that reads it or assigns to
it finds its variable undefined. -/
structure Config.Misses (g : Setting) (c : Config) (o : Occurrence) : Prop where
  named : c.named? = some o
  raises : (c.step g).control = .raising (.runtime o.name.line (.undefinedVariable o.name.lexeme))

theorem Config.misses_variable {g : Setting} {o : Occurrence}
    (h : Config.lookUp g s o = .error (.undefinedVariable o.name.lexeme)) :
    Config.Misses g ⟨.eval (.variable o), fs, s⟩ o := by
  refine ⟨rfl, ?_⟩
  show (Config.settling _ o.name.line (Config.lookUp g s o)).control = _
  rw [h]
  rfl

theorem Config.misses_assign {g : Setting} {v : Value} {o : Occurrence}
    (h : Config.assignmentTarget g s o = .error (.undefinedVariable o.name.lexeme)) :
    Config.Misses g ⟨.value v, .assign o :: fs, s⟩ o := by
  refine ⟨rfl, ?_⟩
  show (Config.assigning g ⟨.value v, fs, s⟩ o v).control = _
  unfold Config.assigning
  dsimp only
  rw [h]
  rfl

/-- The occurrences at which both programs fail are to blame. -/
def Tie.Accounts (T : Tie) (g g' : Setting) (c c' : Config) : Prop :=
  ∀ o o', T.pairs o o' → c.Misses g o → c'.Misses g' o' → T.blames o o'

/-- A setting of each program has the distances of a tie. -/
structure Tie.Charts (T : Tie) (g g' : Setting) : Prop where
  here : ∀ id, g.distances[id]? = T.here id
  there : ∀ id, g'.distances[id]? = T.there id
  clock : g'.clock = g.clock
  callLimit : g'.callLimit = g.callLimit

/-- **A variable at a distance** is found, or missing, in both stores. -/
theorem Poised.getAt (h : Poised T W sides fs fs' s s') {n : ScopeId} {d : Nat} {a : ScopeId}
    (ha : W.forest.ancestor? n d = some a) (name : String) :
    FoundTied T W name (T.spell (W.side a) name) (s.scopes.getAt n d name)
      (s'.scopes.getAt n d (T.spell (W.side a) name)) := by
  have ha' : s'.scopes.ancestor? n d = some a := (h.state.store.ancestor? n d).trans ha
  have hrel := (h.state.store.values a).get? name
  rw [h.state.forest] at ha hrel
  unfold Forest.getAt
  rw [ha, ha']
  dsimp only
  generalize (s.scopes.bindings a).get? name = x at hrel
  generalize (s'.scopes.bindings a).get? (T.spell (W.side a) name) = y at hrel
  cases hrel with
  | none => exact .missing
  | some hv => exact .found hv

/-- A global variable is found, or missing, in both stores. -/
theorem Poised.getGlobal (h : Poised T W sides fs fs' s s') (name : String) :
    FoundTied T W name name (s.scopes.get globalScope name) (s'.scopes.get globalScope name) := by
  have hrel := h.state.store.values globalScope
  rw [h.state.store.global, h.state.forest] at hrel
  have hbinds : (s'.scopes.bindings globalScope).binds name
      = (s.scopes.bindings globalScope).binds name := hrel.binds name
  have hvalue : Option.Rel (ValueTied T W) ((s.scopes.bindings globalScope).get? name)
      ((s'.scopes.bindings globalScope).get? name) := hrel.get? name
  unfold Forest.get
  rw [holder?_global, holder?_global, hbinds]
  by_cases hb : (s.scopes.bindings globalScope).binds name
  · rw [if_pos hb]
    dsimp only [Option.bind]
    generalize (s.scopes.bindings globalScope).get? name = x at hvalue
    generalize (s'.scopes.bindings globalScope).get? name = y at hvalue
    cases hvalue with
    | none => exact .missing
    | some hv => exact .found hv
  · rw [if_neg hb]
    exact .missing

/-- **Tied occurrences have tied values.** -/
theorem Poised.lookUp (h : Poised T W sides fs fs' s s') {g g' : Setting} (hg : T.Charts g g')
    {o o' : Occurrence} (ho : T.Occurrences sides o o') :
    FoundTied T W o.name.lexeme o'.name.lexeme (Config.lookUp g s o) (Config.lookUp g' s' o') := by
  unfold Config.lookUp
  rw [hg.here, hg.there, ho.distance]
  cases hd : T.here o.id with
  | none =>
    dsimp only
    rw [ho.global hd]
    exact h.getGlobal o.name.lexeme
  | some d =>
    obtain ⟨side, hside, hname⟩ := ho.bound d hd
    obtain ⟨a, ha, hasides⟩ := h.sees.ancestor? hside
    dsimp only
    rw [hname, h.state.scope, ← hasides]
    exact h.getAt ha o.name.lexeme

/-- Where an assignment goes: to the same scope in both programs, under the
name that the scope has for it, unless both have no variable for it. -/
inductive TargetTied (T : Tie) (W : World) (name name' : String) :
    Except RuntimeFault ScopeId → Except RuntimeFault ScopeId → Prop
  | ok {a : ScopeId} (ha : a < W.forest.nextId) (hname : name' = T.spell (W.side a) name) :
      TargetTied T W name name' (.ok a) (.ok a)
  | missing : TargetTied T W name name' (.error (.undefinedVariable name))
      (.error (.undefinedVariable name'))

theorem Poised.assignmentTarget (h : Poised T W sides fs fs' s s') {g g' : Setting}
    (hg : T.Charts g g') {o o' : Occurrence} (ho : T.Occurrences sides o o') :
    TargetTied T W o.name.lexeme o'.name.lexeme (Config.assignmentTarget g s o)
      (Config.assignmentTarget g' s' o') := by
  have hforest := h.state.forest
  unfold Config.assignmentTarget
  rw [hg.here, hg.there, ho.distance]
  cases hd : T.here o.id with
  | none =>
    have hrel := h.state.store.values globalScope
    rw [h.state.store.global, hforest] at hrel
    have hbinds : (s'.scopes.bindings globalScope).binds o.name.lexeme
        = (s.scopes.bindings globalScope).binds o.name.lexeme := hrel.binds o.name.lexeme
    dsimp only
    rw [ho.global hd]
    by_cases hb : (s.scopes.bindings globalScope).binds o.name.lexeme
    · rw [target_of_binds hb, target_of_binds (hbinds.trans hb)]
      refine .ok h.state.store.root ?_
      rw [h.state.store.global]
      rfl
    · rw [target_global_of_not hb, target_global_of_not (by rw [hbinds]; exact hb)]
      exact .missing
  | some d =>
    obtain ⟨side, hside, hname⟩ := ho.bound d hd
    obtain ⟨a, ha, hasides⟩ := h.sees.ancestor? hside
    have ha' : s'.scopes.ancestor? s.scope d = some a :=
      (h.state.store.ancestor? s.scope d).trans ha
    have hbinds := (h.state.store.values a).binds o.name.lexeme
    rw [hasides, ← hname] at hbinds
    have hlt : a < W.forest.nextId := Nat.lt_of_le_of_lt (Forest.ancestor?_le ha) h.sees.lt_nextId
    rw [hforest] at ha hbinds
    dsimp only
    rw [h.state.scope, Forest.targetAt_of_ancestor? ha, Forest.targetAt_of_ancestor? ha', hbinds]
    by_cases hb : (s.scopes.bindings a).binds o.name.lexeme
    · rw [if_pos hb, if_pos hb]
      exact .ok hlt (by rw [hasides]; exact hname)
    · rw [if_neg hb, if_neg hb]
      exact .missing

/-- **An assignment** changes tied variables. -/
theorem Poised.assigning (h : Poised T W sides fs fs' s s') {g g' : Setting} (hg : T.Charts g g')
    {o o' : Occurrence} (ho : T.Occurrences sides o o') {v v' : Value} (hv : ValueTied T W v v')
    (hblames : T.Accounts g g' ⟨.value v, .assign o :: fs, s⟩ ⟨.value v', .assign o' :: fs', s'⟩) :
    ConfigTied T (Config.assigning g ⟨.value v, fs, s⟩ o v)
      (Config.assigning g' ⟨.value v', fs', s'⟩ o' v') := by
  have htarget := h.assignmentTarget hg ho
  unfold Config.assigning
  dsimp only
  generalize hx : Config.assignmentTarget g s o = x at htarget
  generalize hy : Config.assignmentTarget g' s' o' = y at htarget
  cases htarget with
  | missing =>
    have hblame := hblames o o' ho.paired (Config.misses_assign hx) (Config.misses_assign hy)
    dsimp only
    rw [ho.line]
    exact ⟨W, sides, .raising (.runtime (.undefined hblame rfl)), h⟩
  | @ok a ha hname =>
    have hW := W.extends_define a o.name.lexeme v
    have hstate := h.state.define ha o.name.lexeme hv
    rw [← hname] at hstate
    exact (h.grow hW hstate rfl).yielding (hv.mono hW)

/-- **A name is declared** in the current scope of both programs. -/
theorem Poised.defining (h : Poised T W sides fs fs' s s') {name name' : Token}
    (hname : T.Declares sides name name') {v v' : Value} (hv : ValueTied T W v v') :
    Poised T (W.define s.scope name.lexeme v) sides fs fs' (s.define s.scope name.lexeme v)
      (s'.define s'.scope name'.lexeme v') := by
  have hW := W.extends_define s.scope name.lexeme v
  have hstate := h.state.define h.sees.lt_nextId name.lexeme hv
  rw [h.sees.spell, ← hname] at hstate
  rw [h.state.scope]
  exact h.grow hW hstate rfl

/-! ## §5. Methods. -/

/-- What `this` stands for at a distance: the same failure, or tied values. -/
theorem Poised.getThis (h : Poised T W sides fs fs' s s') (n : ScopeId) (d : Nat) :
    (∃ fault : RuntimeFault, fault.Nameless ∧ s.scopes.getAt n d "this" = .error fault
        ∧ s'.scopes.getAt n d "this" = .error fault)
      ∨ ∃ v v', s.scopes.getAt n d "this" = .ok v ∧ s'.scopes.getAt n d "this" = .ok v'
        ∧ ValueTied T W v v' := by
  have hancestor := h.state.store.ancestor? n d
  rw [h.state.forest] at hancestor
  unfold Forest.getAt
  rw [hancestor]
  cases s.scopes.ancestor? n d with
  | none => exact .inl ⟨.chainTooShort "this", nofun, rfl, rfl⟩
  | some a =>
    have hrel := (h.state.store.values a).get? "this"
    rw [T.spell_this, h.state.forest] at hrel
    dsimp only
    generalize (s.scopes.bindings a).get? "this" = x at hrel
    generalize (s'.scopes.bindings a).get? "this" = y at hrel
    cases hrel with
    | none => exact .inl ⟨_, RuntimeFault.nameless_undefined not_ordinary_this, rfl, rfl⟩
    | some hv => exact .inr ⟨_, _, rfl, rfl, hv⟩

/-- **Binding a method** opens a scope that holds `this` in both programs. -/
theorem Poised.bind (h : Poised T W sides fs fs' s s') {f f' : Function} (hf : MethodTied T W f f')
    (id : ObjectId) :
    ∃ W', W.Extends W'
      ∧ FunctionTied T W' (Config.boundMethod s f) (Config.boundMethod s' f')
      ∧ Poised T W' sides fs fs' (Config.bind s f id) (Config.bind s' f' id) := by
  obtain ⟨hclosure, outer, hsees, hdecl⟩ := hf
  have hW := W.extends_child f.closure [("this", .object id)] false
  have hnew := hsees.child [("this", .object id)] false
  have hstate := (h.state.child f.closure (bindingsTied_this id)).useIdentities 1
  refine ⟨_, hW, ⟨⟨?_, ?_, hclosure.isInitializer⟩, false :: outer, ?_, hdecl⟩, ?_⟩
  · exact h.state.nextIdentity
  · exact h.state.nextId
  · show World.Sees _ T s.scopes.nextId (false :: outer)
    rw [← h.state.forest]
    exact hnew
  · show Poised T _ sides fs fs' _ ((s'.child f'.closure [("this", .object id)]).useIdentities 1)
    rw [hclosure.closure]
    exact h.grow hW hstate rfl

theorem Poised.yieldingMethod (h : Poised T W sides fs fs' s s') {f f' : Function}
    (hf : MethodTied T W f f') (id : ObjectId) (control control' : Control) :
    ConfigTied T (Config.yieldingMethod ⟨control, fs, s⟩ f id)
      (Config.yieldingMethod ⟨control', fs', s'⟩ f' id) := by
  obtain ⟨W', -, hbound, hpoised⟩ := h.bind hf id
  exact hpoised.yielding (.function hbound)

/-- A property is found in the same place. -/
theorem Poised.property (h : Poised T W sides fs fs' s s') (id : ObjectId) (name : Token)
    (control control' : Control) :
    ConfigTied T (Config.property ⟨control, fs, s⟩ id name)
      (Config.property ⟨control', fs', s'⟩ id name) := by
  have hobject := h.state.objects.object id
  unfold Config.property
  dsimp only
  generalize s.objects[id]? = x at hobject
  generalize s'.objects[id]? = y at hobject
  cases hobject with
  | none => exact h.failing _ nofun
  | @some o o' ho =>
    have hfield := ho.fields name.lexeme
    have hmethod := ho.cls.method name.lexeme
    dsimp only
    generalize o.fields.get? name.lexeme = x at hfield
    generalize o'.fields.get? name.lexeme = y at hfield
    cases hfield with
    | some hv => exact h.yielding hv
    | none =>
      dsimp only
      generalize o.cls.method? name.lexeme = x at hmethod
      generalize o'.cls.method? name.lexeme = y at hmethod
      cases hmethod with
      | none => exact h.failing _ nofun
      | some hf => exact h.yieldingMethod hf id _ _

theorem Poised.settingField (h : Poised T W sides fs fs' s s') {v v' : Value}
    (hv : ValueTied T W v v') (id : ObjectId) (name : Token) (control control' : Control) :
    ConfigTied T (Config.settingField ⟨control, fs, s⟩ id name v)
      (Config.settingField ⟨control', fs', s'⟩ id name v') := by
  have hstate : StateTied T W (s.setField id name.lexeme v) (s'.setField id name.lexeme v') :=
    ⟨h.state.forest, h.state.store, h.state.objects.setField id name.lexeme hv, h.state.scope,
      h.state.depth, h.state.nextIdentity, h.state.sink, h.state.readings⟩
  have hpoised : Poised T W sides fs fs' (s.setField id name.lexeme v)
      (s'.setField id name.lexeme v') := ⟨h.sees, h.frames, hstate⟩
  exact hpoised.yielding hv

/-- The object that a method of the superclass is bound to. -/
theorem Poised.receiverAt (h : Poised T W sides fs fs' s s') (d : Nat) :
    Config.receiverAt s' d = Config.receiverAt s d
      ∧ ∀ fault, Config.receiverAt s d = .error fault → fault.Nameless := by
  cases d with
  | zero =>
    refine ⟨rfl, ?_⟩
    rintro fault ⟨⟩
    exact nofun
  | succ d =>
    rw [Config.receiverAt, Config.receiverAt, h.state.scope]
    rcases h.getThis s.scope d with ⟨fault, hfault, hs, hs'⟩ | ⟨v, v', hs, hs', hv⟩
    · rw [hs, hs']
      refine ⟨rfl, ?_⟩
      rintro _ ⟨⟩
      exact hfault
    · rw [hs, hs']
      cases hv with
      | object => exact ⟨rfl, nofun⟩
      | _ =>
        refine ⟨rfl, ?_⟩
        rintro _ ⟨⟩
        exact nofun

/-- **A method of the superclass** is found in tied classes. -/
theorem Poised.superMethod (h : Poised T W sides fs fs' s s') {g g' : Setting} (hg : T.Charts g g')
    {o o' : Occurrence} (ho : T.Occurrences sides o o') (hordinary : ¬ Ordinary o.name.lexeme)
    (name : Token) (control control' : Control) :
    ConfigTied T (Config.superMethod g ⟨control, fs, s⟩ o name)
      (Config.superMethod g' ⟨control', fs', s'⟩ o' name) := by
  unfold Config.superMethod
  rw [hg.here, hg.there, ho.distance, ho.line]
  cases hd : T.here o.id with
  | none => exact h.failing _ nofun
  | some d =>
    obtain ⟨side, hside, hname⟩ := ho.bound d hd
    obtain ⟨a, ha, hasides⟩ := h.sees.ancestor? hside
    have hfound := h.getAt ha o.name.lexeme
    rw [hasides, ← hname, ho.special hordinary] at hfound
    obtain ⟨hreceiver, hnameless⟩ := h.receiverAt d
    dsimp only
    unfold Config.superclassAt
    rw [h.state.scope, hreceiver, ho.special hordinary]
    generalize s.scopes.getAt s.scope d o.name.lexeme = x at hfound
    generalize s'.scopes.getAt s.scope d o.name.lexeme = y at hfound
    cases hfound with
    | missing => exact h.failing _ (RuntimeFault.nameless_undefined hordinary)
    | found hv =>
      cases hv with
      | @«class» k k' hk =>
        dsimp only
        cases hr : Config.receiverAt s d with
        | error fault => exact h.failing _ (hnameless fault hr)
        | ok id =>
          have hmethod := hk.method name.lexeme
          dsimp only
          generalize k.method? name.lexeme = x at hmethod
          generalize k'.method? name.lexeme = y at hmethod
          cases hmethod with
          | none => exact h.failing _ nofun
          | some hf => exact h.yieldingMethod hf id _ _
      | _ => exact h.failing _ nofun

/-! ## §6. Calls. -/

/-- **Entering a function**: its body is tied in the scope of its parameters. -/
theorem Poised.entering (h : Poised T W sides fs fs' s s') {f f' : Function}
    (hf : FunctionTied T W f f') {vs vs' : Array Value}
    (hvs : List.Forall₂ (ValueTied T W) vs.toList vs'.toList) (made : Option ObjectId)
    (control control' : Control) :
    ConfigTied T (Config.entering ⟨control, fs, s⟩ f vs made)
      (Config.entering ⟨control', fs', s'⟩ f' vs' made) := by
  obtain ⟨hclosure, outer, hsees, hdecl⟩ := id hf
  obtain ⟨identity, ⟨name, params, body⟩, closure, isInitializer⟩ := f
  obtain ⟨identity', decl', closure', isInitializer'⟩ := f'
  obtain ⟨side, params', body', rfl, hparams, hbody⟩ := hdecl
  obtain rfl : closure' = closure := hclosure.closure
  have hb := bindingsTied_parameters hparams hvs
  have hW := W.extends_child closure' (Config.parameters params vs.toList) side
  have hnew := hsees.child (Config.parameters params vs.toList) side
  have hstate := h.state.child closure' hb
  rw [h.state.forest] at hnew
  refine ⟨_, side :: outer, .execAll hbody, hnew, ?_, ?_⟩
  · show FramesTied T _ s.scopes.nextId (side :: outer) (.call s.scope _ made :: fs)
      (.call s'.scope _ made :: fs')
    rw [h.state.scope]
    exact .call made (h.sees.mono hW) (hf.mono hW) (h.frames.mono hW)
  · exact ⟨hstate.forest, hstate.store, hstate.objects, h.state.nextId,
      congrArg (· + 1) hstate.depth, hstate.nextIdentity, hstate.sink, hstate.readings⟩

/-- Making an object: both programs give it the same number. -/
theorem Poised.making (h : Poised T W sides fs fs' s s') {k k' : Class} (hk : ClassTied T W k k')
    {vs vs' : Array Value} (hvs : List.Forall₂ (ValueTied T W) vs.toList vs'.toList)
    (control control' : Control) :
    ConfigTied T (Config.making ⟨control, fs, s⟩ k vs)
      (Config.making ⟨control', fs', s'⟩ k' vs') := by
  have hstate : StateTied T W (s.addObject k) (s'.addObject k') :=
    ⟨h.state.forest, h.state.store, h.state.objects.push ⟨hk, fun _ => .none⟩, h.state.scope,
      h.state.depth, h.state.nextIdentity, h.state.sink, h.state.readings⟩
  have hmade : Poised T W sides fs fs' (s.addObject k) (s'.addObject k') :=
    ⟨h.sees, h.frames, hstate⟩
  have hinit : Option.Rel (MethodTied T W) k.initializer? k'.initializer? :=
    hk.method initializerName
  unfold Config.making
  dsimp only
  rw [h.state.objects.size]
  generalize k.initializer? = x at hinit
  generalize k'.initializer? = y at hinit
  cases hinit with
  | none => exact hmade.yielding (.object _)
  | @some f f' hf =>
    obtain ⟨W', hW, hbound, hpoised⟩ := hmade.bind hf s.objects.size
    exact hpoised.entering hbound (hvs.imp fun _ _ => .mono hW) (some s.objects.size) _ _

/-- The checks before a call fail alike. -/
theorem Poised.checking (h : Poised T W sides fs fs' s s') (size arity : Nat) (full : Bool)
    {c c' : Config} (hc : ConfigTied T c c') (line : Nat) (control control' : Control) :
    ConfigTied T
      (if size ≠ arity then Config.failing ⟨control, fs, s⟩ line (.wrongArity arity size)
        else if full then Config.failing ⟨control, fs, s⟩ line .stackOverflow else c)
      (if size ≠ arity then Config.failing ⟨control', fs', s'⟩ line (.wrongArity arity size)
        else if full then Config.failing ⟨control', fs', s'⟩ line .stackOverflow else c') := by
  by_cases harity : size ≠ arity
  · rw [if_pos harity, if_pos harity]
    exact h.failing line nofun
  · rw [if_neg harity, if_neg harity]
    cases full with
    | true => exact h.failing line nofun
    | false => exact hc

/-- **A call** of tied values with tied arguments. -/
theorem Poised.calling (h : Poised T W sides fs fs' s s') {g g' : Setting} (hg : T.Charts g g')
    {v v' : Value} (hv : ValueTied T W v v') {vs vs' : Array Value}
    (hvs : List.Forall₂ (ValueTied T W) vs.toList vs'.toList) (paren : Token)
    (control control' : Control) :
    ConfigTied T (Config.calling g ⟨control, fs, s⟩ v paren vs)
      (Config.calling g' ⟨control', fs', s'⟩ v' paren vs') := by
  have hsize : vs'.size = vs.size := hvs.length_eq.symm
  have hexhausted : g'.exhausted s'.depth = g.exhausted s.depth := by
    unfold Setting.exhausted
    rw [hg.callLimit, h.state.depth]
  unfold Config.calling
  dsimp only
  rw [hexhausted, hsize]
  cases hv with
  | nil | bool | number | string | object => exact h.failing _ nofun
  | native n =>
    refine h.checking _ n.arity _ ?_ _ control control'
    cases n
    have hshown : g'.clock.reading s'.readings = g.clock.reading s.readings := by
      rw [hg.clock, h.state.readings]
    show ConfigTied T ⟨.value (.number (g.clock.reading s.readings)), fs, s.readClock⟩
      ⟨.value (.number (g'.clock.reading s'.readings)), fs', s'.readClock⟩
    rw [hshown]
    have hpoised : Poised T W sides fs fs' s.readClock s'.readClock :=
      ⟨h.sees, h.frames, h.state.readClock⟩
    exact hpoised.yielding (.number _)
  | @function f f' hf =>
    have harity : Config.Callable.arity (.function f') = f.arity := hf.arity
    dsimp only [Config.Callable.ofValue?]
    rw [harity]
    exact h.checking _ _ _ (h.entering hf hvs none _ _) _ _ _
  | @«class» k k' hk =>
    have harity : Config.Callable.arity (.class k') = k.arity := hk.arity
    dsimp only [Config.Callable.ofValue?]
    rw [harity]
    exact h.checking _ _ _ (h.making hk hvs _ _) _ _ _

/-- A call ends: both programs go back to the scope of the caller. -/
theorem StateTied.endingCall (hs : StateTied T W s s') {m : ScopeId} {outer : List Bool}
    (hm : W.Sees T m outer) (hfs : FramesTied T W m outer fs fs') {f f' : Function}
    (hf : FunctionTied T W f f') (made : Option ObjectId) {v v' : Value} (hv : ValueTied T W v v')
    (control control' : Control) :
    ConfigTied T (Config.endingCall ⟨control, fs, s⟩ m f made v)
      (Config.endingCall ⟨control', fs', s'⟩ m f' made v') := by
  have hpoised : Poised T W outer fs fs' (s.endCall m) (s'.endCall m) :=
    ⟨hm, hfs, hs.forest, hs.store, hs.objects, rfl, congrArg (· - 1) hs.depth, hs.nextIdentity,
      hs.sink, hs.readings⟩
  obtain ⟨hclosure, sides, -, hdecl⟩ := hf
  -- an initializer yields what `this` stands for, any other function what was returned
  have hresult : (∃ fault : RuntimeFault, fault.Nameless
        ∧ Config.callResult (s.endCall m) f v = .error fault
        ∧ Config.callResult (s'.endCall m) f' v' = .error fault)
      ∨ ∃ r r', Config.callResult (s.endCall m) f v = .ok r
        ∧ Config.callResult (s'.endCall m) f' v' = .ok r' ∧ ValueTied T W r r' := by
    unfold Config.callResult
    rw [hclosure.isInitializer, hclosure.closure]
    cases f.isInitializer with
    | false => exact .inr ⟨v, v', rfl, rfl, hv⟩
    | true => exact hpoised.getThis f.closure 0
  unfold Config.endingCall Config.mapState
  dsimp only
  rcases hresult with ⟨fault, hfault, hr, hr'⟩ | ⟨r, r', hr, hr', htied⟩
  · rw [hr, hr', hdecl.name_eq]
    exact hpoised.failing _ hfault
  · rw [hr, hr']
    cases made with
    | none => exact hpoised.yielding htied
    | some id => exact hpoised.yielding (.object id)

/-! ## §7. Classes. -/

theorem TiedMethods.length_eq {sides : List Bool} {ms ms' : List (FunctionDecl Stmt)}
    (h : TiedMethods T sides ms ms') : ms'.length = ms.length := by
  induction ms generalizing ms' with
  | nil =>
    cases h
    rfl
  | cons m ms ih =>
    obtain ⟨m', rest', rfl, -, hrest⟩ := h
    exact congrArg (· + 1) (ih hrest)

/-- The methods of a declaration, tied where their class is declared. -/
theorem methodTable_tied {closure : ScopeId} {outer : List Bool} (hsees : W.Sees T closure outer)
    (first : Identity) {ms ms' : List (FunctionDecl Stmt)}
    (hms : TiedMethods T (false :: outer) ms ms') (name : String) :
    Option.Rel (MethodTied T W) ((Config.methodTable closure first ms).get? name)
      ((Config.methodTable closure first ms').get? name) := by
  unfold Config.methodTable
  -- both tables are filled alike from any tables that are tied so far
  have hfold : ∀ (start : Nat) (table table' : Bindings Function),
      (∀ name, Option.Rel (MethodTied T W) (table.get? name) (table'.get? name)) →
      Option.Rel (MethodTied T W)
        (((ms.zipIdx start).foldl (fun table p => table.insert p.1.name.lexeme
          ⟨first + p.2, p.1, closure, p.1.isInitializer⟩) table).get? name)
        (((ms'.zipIdx start).foldl (fun table p => table.insert p.1.name.lexeme
          ⟨first + p.2, p.1, closure, p.1.isInitializer⟩) table').get? name) := by
    induction ms generalizing ms' with
    | nil =>
      cases hms
      exact fun _ _ _ htable => htable name
    | cons m ms ih =>
      obtain ⟨m', rest', rfl, hm, hrest⟩ := hms
      intro start table table' htable
      rw [List.zipIdx_cons, List.zipIdx_cons, List.foldl_cons, List.foldl_cons]
      refine ih hrest (start + 1) _ _ ?_
      intro other
      have hinit : m'.isInitializer = m.isInitializer := by
        unfold FunctionDecl.isInitializer
        rw [hm.name_eq]
      dsimp only
      rw [Bindings.get?_insert, Bindings.get?_insert, hm.name_eq, hinit]
      by_cases hname : m.name.lexeme = other
      · rw [if_pos hname, if_pos hname]
        exact .some ⟨⟨rfl, rfl, rfl⟩, outer, hsees, hm⟩
      · rw [if_neg hname, if_neg hname]
        exact htable other
  exact hfold 0 [] [] fun _ => .none

theorem ClassTied.declared {k k' : Class} (hid : k'.identity = k.identity)
    (hname : k'.name = k.name) (hparent : Option.Rel (ClassTied T W) k.superclass k'.superclass)
    (hmethods : ∀ name, Option.Rel (MethodTied T W) (k.methods.get? name) (k'.methods.get? name)) :
    ClassTied T W k k' := by
  refine ⟨hid, hname, ?_⟩
  intro name
  rw [Lockstep.method?_eq, Lockstep.method?_eq]
  have hown := hmethods name
  generalize k.methods.get? name = x at hown
  generalize k'.methods.get? name = y at hown
  cases hown with
  | some h => exact .some h
  | none =>
    generalize k.superclass = p at hparent
    generalize k'.superclass = p' at hparent
    cases hparent with
    | none => exact .none
    | some h => exact h.method name

/-- The scope that methods close over, with `super` if there is a superclass. -/
theorem Poised.openMethodScope (h : Poised T W sides fs fs' s s') {parent parent' : Option Class}
    (hp : Option.Rel (ClassTied T W) parent parent') :
    ∃ W', W.Extends W' ∧ Config.methodScope s' parent' = Config.methodScope s parent
      ∧ W'.Sees T (Config.methodScope s parent) (methodSides sides parent.isSome)
      ∧ Poised T W' sides fs fs' (Config.openMethodScope s parent)
        (Config.openMethodScope s' parent') := by
  cases hp with
  | none => exact ⟨W, ⟨⟨fun _ _ h => h, fun _ _ h => h⟩, Nat.le_refl _, fun _ _ => rfl⟩,
      h.state.scope, h.sees, h⟩
  | @some k k' hk =>
    have hW := W.extends_child s.scope [("super", .class k)] false
    have hnew := h.sees.child [("super", .class k)] false
    have hstate := h.state.child s.scope (bindingsTied_super hk)
    rw [h.state.forest] at hnew
    refine ⟨_, hW, h.state.nextId, hnew, ?_⟩
    show Poised T _ sides fs fs' _ (s'.child s'.scope [("super", .class k')])
    rw [h.state.scope]
    exact h.grow hW hstate rfl

/-- **A class is declared**: its name, which has a variable already, gets it. -/
theorem Poised.declaringClass (h : Poised T W sides fs fs' s s') {name : Token}
    (hname : T.Fixes (sides.headD false) name.lexeme)
    (hbinds : (W.forest.bindings s.scope).binds name.lexeme) {parent parent' : Option Class}
    (hp : Option.Rel (ClassTied T W) parent parent') {ms ms' : List (FunctionDecl Stmt)}
    (hms : TiedMethods T (false :: methodSides sides parent.isSome) ms ms')
    (control control' : Control) :
    ConfigTied T (Config.declaringClass ⟨control, fs, s⟩ name parent ms)
      (Config.declaringClass ⟨control', fs', s'⟩ name parent' ms') := by
  obtain ⟨W', hW, hscope, hmethods, hopened⟩ := h.openMethodScope hp
  have hstate : StateTied T W' (declaringState s parent ms) (declaringState s' parent' ms') := by
    unfold declaringState
    rw [hms.length_eq]
    exact hopened.state.useIdentities _
  have hpoised : Poised T W' sides fs fs' (declaringState s parent ms)
      (declaringState s' parent' ms') :=
    h.grow hW hstate (declaringState_scope s parent ms)
  have hclass : ClassTied T W' (Config.declaredClass s name parent ms)
      (Config.declaredClass s' name parent' ms') := by
    refine ClassTied.declared h.state.nextIdentity rfl ?_ ?_
    · exact optionRel_imp (fun _ _ => .mono hW) hp
    · intro other
      unfold Config.declaredClass
      dsimp only
      rw [hscope, h.state.nextIdentity]
      exact methodTable_tied hmethods _ hms other
  -- the class is named where it is declared: in the current scope, on its side
  have hscopeHere : (declaringState s parent ms).scope = s.scope := declaringState_scope s parent ms
  have hbindsHere : ((declaringState s parent ms).scopes.bindings s.scope).binds name.lexeme := by
    rw [← hstate.forest]
    exact hW.grows.binds _ _ hbinds
  have hspell : T.spell (W'.side s.scope) name.lexeme = name.lexeme := by
    have hsees := hpoised.sees
    rw [hscopeHere] at hsees
    exact (hsees.spell name.lexeme).trans hname
  have hbindsThere : ((declaringState s' parent' ms').scopes.bindings s.scope).binds name.lexeme := by
    have hsame := (hstate.store.values s.scope).binds name.lexeme
    rw [hspell, hstate.forest] at hsame
    exact hsame.trans hbindsHere
  have hscopeThere : (declaringState s' parent' ms').scope = s.scope :=
    hstate.scope.trans hscopeHere
  rw [declaringClass_eq (a := s.scope) (by rw [hscopeHere]; exact target_of_binds hbindsHere),
    declaringClass_eq (a := s.scope) (by rw [hscopeThere]; exact target_of_binds hbindsThere)]
  have hlt : s.scope < W'.forest.nextId := (h.sees.mono hW).lt_nextId
  have hdefined := hstate.define hlt name.lexeme (.class hclass)
  rw [hspell] at hdefined
  exact (hpoised.grow (W'.extends_define _ _ _) hdefined rfl).completed

/-! ## §8. Starting. -/

variable {g g' : Setting}

theorem Poised.eval (h : Poised T W sides fs fs' s s') (hg : T.Charts g g') {e e' : Expr}
    (he : TiedExpr T sides e e')
    (hblames : T.Accounts g g' ⟨.eval e, fs, s⟩ ⟨.eval e', fs', s'⟩) :
    ConfigTied T (Config.eval g ⟨.eval e, fs, s⟩ e) (Config.eval g' ⟨.eval e', fs', s'⟩ e') := by
  cases e with
  | literal v =>
    cases he
    exact h.yielding (.ofLiteral v)
  | grouping inner =>
    obtain ⟨inner', rfl, hi⟩ := he
    exact ⟨W, sides, .eval hi, h⟩
  | unary operator right =>
    obtain ⟨right', rfl, hr⟩ := he
    exact h.within (.unary operator) (.eval hr)
  | binary left operator right =>
    obtain ⟨left', right', rfl, hl, hr⟩ := he
    exact h.within (.binaryLeft operator hr) (.eval hl)
  | logical left operator right =>
    obtain ⟨left', right', rfl, hl, hr⟩ := he
    exact h.within (.logical operator hr) (.eval hl)
  | «variable» o =>
    obtain ⟨o', rfl, ho⟩ := he
    show ConfigTied T (Config.settling _ o.name.line _) (Config.settling _ o'.name.line _)
    rw [ho.line]
    refine h.settling ((h.lookUp hg ho).result fun hmissing hmissing' => ?_) _ _
    have hmisses : Config.Misses g ⟨.eval (.variable o), fs, s⟩ o := Config.misses_variable hmissing
    exact .undefined (hblames o o' ho.paired hmisses (Config.misses_variable hmissing')) rfl
  | assign o value =>
    obtain ⟨o', value', rfl, ho, hv⟩ := he
    exact h.within (.assign ho) (.eval hv)
  | call callee paren arguments =>
    obtain ⟨callee', arguments', rfl, hc, ha⟩ := he
    exact h.within (.callee paren ha) (.eval hc)
  | get object name =>
    obtain ⟨object', rfl, ho⟩ := he
    exact h.within (.get name) (.eval ho)
  | set object name value =>
    obtain ⟨object', value', rfl, ho, hv⟩ := he
    exact h.within (.setObject name hv) (.eval ho)
  | super o method =>
    obtain ⟨o', rfl, ho, hordinary⟩ := he
    exact h.superMethod hg ho hordinary method _ _
  | this o =>
    obtain ⟨o', rfl, ho, hordinary⟩ := he
    show ConfigTied T (Config.settling _ o.name.line _) (Config.settling _ o'.name.line _)
    rw [ho.line]
    refine h.settling ((h.lookUp hg ho).result fun _ _ => ?_) _ _
    rw [ho.special hordinary]
    exact .same (RuntimeFault.nameless_undefined hordinary)

/-- A block opens a scope on the side of its code. -/
theorem Poised.block (h : Poised T W sides fs fs' s s') {side : Bool} {body body' : List Stmt}
    (hb : TiedStmts T (side :: sides) body body') (control control' : Control) :
    ConfigTied T (Config.exec ⟨control, fs, s⟩ (.block body))
      (Config.exec ⟨control', fs', s'⟩ (.block body')) := by
  have hW := W.extends_child s.scope [] side
  have hnew := h.sees.child [] side
  have hstate := h.state.child s.scope (bindingsTied_nil side)
  rw [h.state.forest] at hnew
  refine ⟨_, side :: sides, .execAll hb, hnew, ?_, ?_⟩
  · show FramesTied T _ _ _ (.leave s.scope :: fs) (.leave s'.scope :: fs')
    rw [h.state.scope]
    exact .leave (h.sees.mono hW) (h.frames.mono hW)
  · show StateTied T _ _ ((s'.child s'.scope []).inScope s'.scopes.nextId)
    rw [h.state.scope, h.state.nextId]
    exact hstate.inScope s.scopes.nextId

theorem Poised.function (h : Poised T W sides fs fs' s s') {d d' : FunctionDecl Stmt}
    (hname : T.Fixes (sides.headD false) d.name.lexeme) (hd : TiedFunction T sides d d')
    (control control' : Control) :
    ConfigTied T (Config.exec ⟨control, fs, s⟩ (.function d))
      (Config.exec ⟨control', fs', s'⟩ (.function d')) := by
  have hf : FunctionTied T W ⟨s.nextIdentity, d, s.scope, false⟩
      ⟨s'.nextIdentity, d', s'.scope, false⟩ :=
    ⟨⟨h.state.nextIdentity, h.state.scope, rfl⟩, sides, h.sees, hd⟩
  have hused : Poised T W sides fs fs' (s.useIdentities 1) (s'.useIdentities 1) :=
    ⟨h.sees, h.frames, h.state.useIdentities 1⟩
  have hdeclares : T.Declares sides d.name d'.name := by
    unfold Tie.Declares
    rw [hd.name_eq]
    exact hname.symm
  exact (hused.defining hdeclares (.function hf)).completed

/-- The name of a class is declared before its superclass is looked up. -/
theorem Poised.class (h : Poised T W sides fs fs' s s') {name : Token}
    (hname : T.Fixes (sides.headD false) name.lexeme) {parent parent' : Option Occurrence}
    (hp : Option.Rel (T.Occurrences sides) parent parent') {ms ms' : List (FunctionDecl Stmt)}
    (hms : TiedMethods T (false :: methodSides sides parent.isSome) ms ms')
    (control control' : Control) :
    ConfigTied T (Config.exec ⟨control, fs, s⟩ (.class name parent ms))
      (Config.exec ⟨control', fs', s'⟩ (.class name parent' ms')) := by
  have hdeclares : T.Declares sides name name := hname.symm
  have hdefined := h.defining hdeclares .nil
  have hbinds : ((W.forest.define s.scope name.lexeme .nil).bindings s.scope).binds name.lexeme := by
    rw [Forest.bindings_define_self W.forest s.scope name.lexeme .nil h.sees.lt_nextId,
      Bindings.binds_insert]
    simp
  cases hp with
  | none => exact hdefined.declaringClass hname hbinds .none hms _ _
  | some ho =>
    exact hdefined.within (.superclass hname hbinds ho.line hms) (.eval ⟨_, rfl, ho⟩)

theorem Poised.exec (h : Poised T W sides fs fs' s s') {st st' : Stmt}
    (hst : TiedStmt T sides st st') :
    ConfigTied T (Config.exec ⟨.exec st, fs, s⟩ st) (Config.exec ⟨.exec st', fs', s'⟩ st') := by
  cases st with
  | expression e =>
    obtain ⟨e', rfl, he⟩ := hst
    exact h.within .discard (.eval he)
  | print e =>
    obtain ⟨e', rfl, he⟩ := hst
    exact h.within .print (.eval he)
  | var name initializer =>
    obtain ⟨name', initializer', rfl, hname, hi⟩ := hst
    cases hi with
    | none => exact (h.defining hname .nil).completed
    | some he => exact h.within (.define hname) (.eval he)
  | block body =>
    obtain ⟨side, body', rfl, hb⟩ := hst
    exact h.block hb _ _
  | ifElse condition thenBranch elseBranch =>
    cases elseBranch with
    | none =>
      obtain ⟨condition', thenBranch', rfl, hc, ht⟩ := hst
      exact h.within (.branch ht .none) (.eval hc)
    | some elseBranch =>
      obtain ⟨condition', thenBranch', elseBranch', rfl, hc, ht, he⟩ := hst
      exact h.within (.branch ht (.some he)) (.eval hc)
  | «while» condition body =>
    obtain ⟨condition', body', rfl, hc, hb⟩ := hst
    exact h.within (.loopTest hc hb) (.eval hc)
  | function decl =>
    obtain ⟨decl', rfl, hname, hd⟩ := hst
    exact h.function hname hd _ _
  | «return» keyword value =>
    obtain ⟨value', rfl, hv⟩ := hst
    cases hv with
    | none => exact ⟨W, sides, .returning .nil, h⟩
    | some he => exact h.within .returnValue (.eval he)
  | «class» name parent methods =>
    obtain ⟨parent', methods', rfl, hname, hp, hms⟩ := hst
    exact h.class hname hp hms _ _

theorem Poised.execAll (h : Poised T W sides fs fs' s s') {ss ss' : List Stmt}
    (hss : TiedStmts T sides ss ss') :
    ConfigTied T (Config.execAll ⟨.execAll ss, fs, s⟩ ss)
      (Config.execAll ⟨.execAll ss', fs', s'⟩ ss') := by
  cases ss with
  | nil =>
    cases hss
    exact h.completed
  | cons st rest =>
    obtain ⟨st', rest', rfl, hst, hrest⟩ := hss
    exact h.within (.sequence hrest) (.exec hst)

/-! ## §9. Going on. -/

theorem Poised.printing (h : Poised T W sides fs fs' s s') {v v' : Value} (hv : ValueTied T W v v')
    (control control' : Control) :
    ConfigTied T (Config.printing ⟨control, fs, s⟩ v) (Config.printing ⟨control', fs', s'⟩ v') := by
  have htext : s'.textOf v' = s.textOf v := hv.text h.state.objects
  have hwritten : ∀ bytes, Poised T W sides fs fs' (s.write bytes) (s'.write bytes) := by
    intro bytes
    exact ⟨h.sees, h.frames, h.state.forest, h.state.store, h.state.objects, h.state.scope,
      h.state.depth, h.state.nextIdentity, congrArg (·.write bytes) h.state.sink, h.state.readings⟩
  unfold Config.printing
  dsimp only
  rw [htext, h.state.sink]
  by_cases hfits : s.sink.fits (s.textOf v ++ "\n").toUTF8
  · rw [if_pos hfits]
    exact (hwritten _).completed
  · rw [if_neg hfits]
    exact ⟨W, sides, .raising .outputFull, hwritten _⟩

theorem Poised.arguing (h : Poised T W sides fs fs' s s') (hg : T.Charts g g') {v v' : Value}
    (hv : ValueTied T W v v') {vs vs' : Array Value}
    (hvs : List.Forall₂ (ValueTied T W) vs.toList vs'.toList) {es es' : List Expr}
    (hes : TiedExprs T sides es es') (paren : Token) (control control' : Control) :
    ConfigTied T (Config.arguing g ⟨control, fs, s⟩ v paren vs es)
      (Config.arguing g' ⟨control', fs', s'⟩ v' paren vs' es') := by
  cases es with
  | nil =>
    cases hes
    exact h.calling hg hv hvs paren control control'
  | cons e rest =>
    obtain ⟨e', rest', rfl, he, hrest⟩ := hes
    exact h.within (.argument paren hv hvs hrest) (.eval he)

/-- **A frame that stays in its scope gets a value.** -/
theorem Poised.resume (h : Poised T W sides fs fs' s s') (hg : T.Charts g g') {v v' : Value}
    (hv : ValueTied T W v v') {f f' : Frame} (hf : FrameTied T W s.scope sides f f')
    (hblames : T.Accounts g g' ⟨.value v, f :: fs, s⟩ ⟨.value v', f' :: fs', s'⟩) :
    ConfigTied T (Config.resume g ⟨.value v, fs, s⟩ v f)
      (Config.resume g' ⟨.value v', fs', s'⟩ v' f') := by
  cases hf with
  | unary op => exact h.settling (hv.unary op.kind) _ _
  | binaryLeft op he => exact h.within (.binaryRight op hv) (.eval he)
  | binaryRight op hleft => exact h.settling (hleft.binary hv op.kind) _ _
  | logical op he =>
    unfold Config.resume
    dsimp only
    rw [hv.shortCircuits]
    by_cases hshort : v.shortCircuits op.kind
    · rw [if_pos hshort, if_pos hshort]
      exact h.yielding hv
    · rw [if_neg hshort, if_neg hshort]
      exact ⟨W, sides, .eval he, h⟩
  | assign ho => exact h.assigning hg ho hv hblames
  | callee paren hes => exact h.arguing hg hv (by exact .nil) hes paren _ _
  | argument paren hcallee hvs hes =>
    refine h.arguing hg hcallee ?_ hes paren _ _
    rw [Array.toList_push, Array.toList_push]
    exact List.rel_append hvs (.cons hv .nil)
  | get name =>
    cases hv with
    | object id => exact h.property id name _ _
    | _ => exact h.failing _ nofun
  | setObject name he =>
    cases hv with
    | object id => exact h.within (.setValue id name) (.eval he)
    | _ => exact h.failing _ nofun
  | setValue id name => exact h.settingField hv id name _ _
  | discard => exact h.completed
  | print => exact h.printing hv _ _
  | define hname => exact (h.defining hname hv).completed
  | branch hst he =>
    unfold Config.resume
    dsimp only
    rw [hv.truthy]
    cases v.truthy with
    | true => exact ⟨W, sides, .exec hst, h⟩
    | false =>
      cases he with
      | none => exact h.completed
      | some hst' => exact ⟨W, sides, .exec hst', h⟩
  | loopTest he hst =>
    unfold Config.resume
    dsimp only
    rw [hv.truthy]
    by_cases htrue : v.truthy
    · rw [if_pos htrue, if_pos htrue]
      exact h.within (.loopBody he hst) (.exec hst)
    · rw [if_neg htrue, if_neg htrue]
      exact h.completed
  | loopBody he hst => exact ⟨W, sides, .exec ⟨_, _, rfl, he, hst⟩, h⟩
  | returnValue => exact ⟨W, sides, .returning hv, h⟩
  | @superclass _ o o' _ _ hname hbinds hline hms =>
    cases hv with
    | «class» hk => exact h.declaringClass hname hbinds (.some hk) hms _ _
    | _ =>
      show ConfigTied T (Config.failing _ o.name.line _) (Config.failing _ o'.name.line _)
      rw [hline]
      exact h.failing _ nofun
  | sequence hss => exact ⟨W, sides, .execAll hss, h⟩

/-- **A frame that stays in its scope hears that a statement is complete.** -/
theorem Poised.complete (h : Poised T W sides fs fs' s s') {f f' : Frame}
    (hf : FrameTied T W s.scope sides f f') :
    ConfigTied T (Config.complete ⟨.completed, fs, s⟩ f)
      (Config.complete ⟨.completed, fs', s'⟩ f') := by
  cases hf with
  | loopBody he hst => exact ⟨W, sides, .exec ⟨_, _, rfl, he, hst⟩, h⟩
  | sequence hss => exact ⟨W, sides, .execAll hss, h⟩
  | _ => exact h.completed

theorem FrameTied.not_restores {n : ScopeId} {f f' : Frame} (h : FrameTied T W n sides f f') :
    ¬ Lockstep.Restores f ∧ ¬ Lockstep.Restores f' := by
  cases h <;> exact ⟨id, id⟩

/-- **A step keeps programs tied.** -/
theorem ConfigTied.step {c c' : Config} (h : ConfigTied T c c') (hg : T.Charts g g')
    (hblames : T.Accounts g g' c c') : ConfigTied T (c.step g) (c'.step g') := by
  obtain ⟨control, frames, state⟩ := c
  obtain ⟨control', frames', state'⟩ := c'
  obtain ⟨W, sides, hcontrol, hsees, hframes, hstate⟩ := id h
  dsimp only at hcontrol hsees hframes hstate
  have back : ∀ {m : ScopeId} {outer : List Bool} {fs fs' : List Frame}, W.Sees T m outer →
      FramesTied T W m outer fs fs' →
      Poised T W outer fs fs' (state.inScope m) (state'.inScope m) :=
    fun hm hfs => ⟨hm, hfs, hstate.inScope _⟩
  cases hcontrol with
  | eval he => exact Poised.eval ⟨hsees, hframes, hstate⟩ hg he hblames
  | exec hst => exact Poised.exec ⟨hsees, hframes, hstate⟩ hst
  | execAll hss => exact Poised.execAll ⟨hsees, hframes, hstate⟩ hss
  | value hv =>
    cases hframes with
    | nil => exact h
    | cons hf hfs => exact Poised.resume ⟨hsees, hfs, hstate⟩ hg hv hf hblames
    | leave hm hfs => exact (back hm hfs).completed
    | call made hm hf hfs => exact hstate.endingCall hm hfs hf made .nil _ _
  | completed =>
    cases hframes with
    | nil => exact h
    | cons hf hfs => exact Poised.complete ⟨hsees, hfs, hstate⟩ hf
    | leave hm hfs => exact (back hm hfs).completed
    | call made hm hf hfs => exact hstate.endingCall hm hfs hf made .nil _ _
  | returning hv =>
    cases hframes with
    | nil => exact h
    | cons hf hfs =>
      show ConfigTied T (Config.unwindReturn _ _ _) (Config.unwindReturn _ _ _)
      rw [Lockstep.unwindReturn_eq hf.not_restores.1, Lockstep.unwindReturn_eq hf.not_restores.2]
      exact ⟨W, sides, .returning hv, hsees, hfs, hstate⟩
    | leave hm hfs => exact ⟨W, _, .returning hv, back hm hfs⟩
    | call made hm hf hfs => exact hstate.endingCall hm hfs hf made hv _ _
  | raising hd =>
    cases hframes with
    | nil => exact h
    | cons hf hfs =>
      show ConfigTied T (Config.unwindRaise _ _) (Config.unwindRaise _ _)
      rw [Lockstep.unwindRaise_eq hf.not_restores.1, Lockstep.unwindRaise_eq hf.not_restores.2]
      exact ⟨W, sides, .raising hd, hsees, hfs, hstate⟩
    | leave hm hfs => exact ⟨W, _, .raising hd, back hm hfs⟩
    | call made hm hf hfs =>
      exact ⟨W, _, .raising hd, hm, hfs, hstate.forest, hstate.store, hstate.objects, rfl,
        congrArg (· - 1) hstate.depth, hstate.nextIdentity, hstate.sink, hstate.readings⟩

/-! ## §10. Runs. -/

/-- **A run keeps programs tied.** -/
theorem ConfigTied.run (hg : T.Charts g g') {c c' : Config} (h : ConfigTied T c c') (fuel : Nat)
    (hblames : ∀ m < fuel, T.Accounts g g' (c.run g m) (c'.run g' m)) :
    ConfigTied T (c.run g fuel) (c'.run g' fuel) := by
  induction fuel with
  | zero => exact h
  | succ fuel ih =>
    rw [Config.run_last, Config.run_last]
    have hrun := ih fun m hm => hblames m (Nat.lt_succ_of_lt hm)
    exact hrun.step hg (hblames fuel (Nat.lt_succ_self fuel))

/-- Endings that differ at most in how a variable is spelled. -/
inductive EndingTied (T : Tie) : Ending → Ending → Prop
  | completed : EndingTied T .completed .completed
  | failed {d d' : Diagnostic} (h : DiagnosticTied T d d') : EndingTied T (.failed d) (.failed d')
  | unfinished : EndingTied T .unfinished .unfinished

theorem ConfigTied.ending {c c' : Config} (h : ConfigTied T c c') :
    EndingTied T c.ending c'.ending := by
  obtain ⟨control, frames, state⟩ := c
  obtain ⟨control', frames', state'⟩ := c'
  obtain ⟨W, sides, hcontrol, -, hframes, -⟩ := h
  dsimp only at hcontrol hframes
  cases hframes with
  | nil =>
    cases hcontrol with
    | eval | exec | execAll | value => exact .unfinished
    | completed | returning => exact .completed
    | raising hd => exact .failed hd
  | cons | leave | call => cases hcontrol <;> exact .unfinished

end Outcomes

end Lox
