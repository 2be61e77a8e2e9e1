/-
  Lox.Proofs.Machine.Lockstep
  ───────────────────────────
  **TWO PROGRAMS STEP BY STEP.**

  Two running programs go alongside when they do the same thing inside frames
  that wait for the same, in scopes that show the same names, and when what
  they do is bound there.  A `Discipline` says what the stores of both have
  to keep, and which few changes of scopes keep it.

  Every step that does not look up or declare a name keeps the programs
  alongside each other, whatever the discipline is (`Alongside.step`).
-/
import Lox.Proofs.Machine.Matched
import Mathlib.Data.List.Forall2

namespace Lox.Lockstep

open Resolve

/-! ## §1. Disciplines. -/

/-- A scope of each program, and the static scopes that both show. -/
structure Place where
  here : ScopeId
  there : ScopeId
  scopes : Scopes

/-- Matching variables for the names of a static scope; `this` is an object
and `super` a class. -/
structure Furnished (S : Sight) (T : Chart) (w : S.World) (scope : Bindings Bool)
    (b b' : Bindings Value) : Prop where
  names : ∀ name, scope.get? name = (b.get? name).map fun _ => true
  values : ∀ name, Option.Rel (ValueMatch S T w) (b.get? name) (b'.get? name)
  this : ∀ v, b.get? "this" = some v → ∃ id, v = .object id
  super : ∀ v, b.get? "super" = some v → ∃ k, v = .class k

/-- The innermost static scope, if there is one, defines a name. -/
def Owns (scopes : Scopes) (name : String) : Prop :=
  ∀ scope ∈ scopes.head?, scope.get? name = some true

theorem owns_add (scopes : Scopes) (name : String) : Owns (scopes.add name) name := by
  cases scopes with
  | nil => exact nofun
  | cons scope rest =>
    rintro _ ⟨⟩
    rw [Bindings.get?_insert, if_pos rfl]

/-- What the stores of two programs keep while their places are the innermost
one and the ones that wait for it. -/
structure Discipline (S : Sight) (T : Chart) where
  holds : S.World → List Place → Forest Value → Forest Value → Prop
  current : ∀ {w p ps F F'}, holds w (p :: ps) F F' → S.sees w p.here p.there p.scopes
  dropped : ∀ {w p ps F F'}, holds w (p :: ps) F F' → holds w ps F F'
  /-- New scopes with matching variables. -/
  opened : ∀ {w ps F F' n n' scopes scope b b'}, holds w ps F F' → S.sees w n n' scopes →
    Furnished S T w scope b b' →
    ∃ w', S.grows w w' ∧
      holds w' (⟨F.nextId, F'.nextId, scope :: scopes⟩ :: ps) (F.child n b) (F'.child n' b')
  /-- A name is declared, and has no variable yet. -/
  declared : ∀ {w n n' scopes ps F F' name}, holds w (⟨n, n', scopes⟩ :: ps) F F' →
    Declarable T scopes name → holds w (⟨n, n', scopes.declare name.lexeme⟩ :: ps) F F'
  /-- The object that an initializer is bound to. -/
  receiver : ∀ {w ps F F' n n' scopes}, holds w ps F F' → S.sees w n n' (thisScope :: scopes) →
    ∃ id, F.getAt n 0 "this" = .ok (.object id) ∧ F'.getAt n' 0 "this" = .ok (.object id)
  /-- A name that was declared here gets matching values. -/
  renewed : ∀ {w p ps F F' name v v'}, holds w (p :: ps) F F' → Owns p.scopes name →
    Ordinary name → ValueMatch S T w v v' →
    (∃ a a' w', F.target p.here name = .ok a ∧ F'.target p.there name = .ok a' ∧ S.grows w w'
      ∧ holds w' (p :: ps) (F.define a name v) (F'.define a' name v'))
    ∨ (F.target p.here name = .error (.undefinedVariable name)
      ∧ F'.target p.there name = .error (.undefinedVariable name))

/-! ## §2. Frames. -/

/-- What a frame waits for. -/
inductive Want where
  | value
  | completion

/-- Where the programs are when a frame gets its outcome: what it waits for,
whether a function body is around it, the static scopes there, and the places
to go back to. -/
structure Stance where
  want : Want
  inside : Bool
  scopes : Scopes
  outers : List Place

/-- A statement that is no declaration. -/
def BoundBranch (T : Chart) (inside : Bool) (scopes : Scopes) (s : Stmt) : Prop :=
  BoundStmt T inside scopes s ∧ s.declared? = none

section Relations

variable (S : Sight) (T : Chart) (w : S.World)

/-- A frame of each program that leads from one stance to another. -/
inductive Hop : Stance → Frame → Frame → Stance → Prop
  | unary {i scopes ps} (op : Token) :
      Hop ⟨.value, i, scopes, ps⟩ (.unary op) (.unary op) ⟨.value, i, scopes, ps⟩
  | binaryLeft {i scopes ps right} (op : Token) (h : BoundExpr T scopes right) :
      Hop ⟨.value, i, scopes, ps⟩ (.binaryLeft op right) (.binaryLeft op right)
        ⟨.value, i, scopes, ps⟩
  | binaryRight {i scopes ps left left'} (op : Token) (h : ValueMatch S T w left left') :
      Hop ⟨.value, i, scopes, ps⟩ (.binaryRight left op) (.binaryRight left' op)
        ⟨.value, i, scopes, ps⟩
  | logical {i scopes ps right} (op : Token) (h : BoundExpr T scopes right) :
      Hop ⟨.value, i, scopes, ps⟩ (.logical op right) (.logical op right) ⟨.value, i, scopes, ps⟩
  | assign {i scopes ps o} (hl : Located T scopes o) (ho : Ordinary o.name.lexeme)
      (hd : T.strict → scopes.Defined o.name.lexeme) :
      Hop ⟨.value, i, scopes, ps⟩ (.assign o) (.assign o) ⟨.value, i, scopes, ps⟩
  | callee {i scopes ps arguments} (paren : Token) (h : BoundExprs T scopes arguments) :
      Hop ⟨.value, i, scopes, ps⟩ (.callee paren arguments) (.callee paren arguments)
        ⟨.value, i, scopes, ps⟩
  | argument {i scopes ps callee callee' earlier earlier' rest} (paren : Token)
      (hc : ValueMatch S T w callee callee')
      (he : List.Forall₂ (ValueMatch S T w) earlier.toList earlier'.toList)
      (hr : BoundExprs T scopes rest) :
      Hop ⟨.value, i, scopes, ps⟩ (.argument callee paren earlier rest)
        (.argument callee' paren earlier' rest) ⟨.value, i, scopes, ps⟩
  | get {i scopes ps} (name : Token) :
      Hop ⟨.value, i, scopes, ps⟩ (.get name) (.get name) ⟨.value, i, scopes, ps⟩
  | setObject {i scopes ps e} (name : Token) (h : BoundExpr T scopes e) :
      Hop ⟨.value, i, scopes, ps⟩ (.setObject name e) (.setObject name e) ⟨.value, i, scopes, ps⟩
  | setValue {i scopes ps} (id : ObjectId) (name : Token) :
      Hop ⟨.value, i, scopes, ps⟩ (.setValue id name) (.setValue id name) ⟨.value, i, scopes, ps⟩
  | discard {i scopes ps} :
      Hop ⟨.value, i, scopes, ps⟩ .discard .discard ⟨.completion, i, scopes, ps⟩
  | print {i scopes ps} :
      Hop ⟨.value, i, scopes, ps⟩ .print .print ⟨.completion, i, scopes, ps⟩
  | define {i scopes ps name} (h : Declarable T scopes name) :
      Hop ⟨.value, i, scopes.declare name.lexeme, ps⟩ (.define name) (.define name)
        ⟨.completion, i, scopes.add name.lexeme, ps⟩
  | branch {i scopes ps s e} (hs : BoundBranch T i scopes s)
      (he : ∀ s' ∈ e, BoundBranch T i scopes s') :
      Hop ⟨.value, i, scopes, ps⟩ (.branch s e) (.branch s e) ⟨.completion, i, scopes, ps⟩
  | loopTest {i scopes ps e s} (h : BoundStmt T i scopes (.while e s)) :
      Hop ⟨.value, i, scopes, ps⟩ (.loopTest e s) (.loopTest e s) ⟨.completion, i, scopes, ps⟩
  | loopBody {i scopes ps e s} (h : BoundStmt T i scopes (.while e s)) :
      Hop ⟨.completion, i, scopes, ps⟩ (.loopBody e s) (.loopBody e s)
        ⟨.completion, i, scopes, ps⟩
  | returnValue {scopes ps} :
      Hop ⟨.value, true, scopes, ps⟩ .returnValue .returnValue ⟨.completion, true, scopes, ps⟩
  | superclass {i scopes ps name parent methods} (hn : Ordinary name.lexeme)
      (ho : Owns scopes name.lexeme) (hm : BoundMethods T (Walk.classScopes scopes true) methods) :
      Hop ⟨.value, i, scopes, ps⟩ (.superclass name parent methods)
        (.superclass name parent methods) ⟨.completion, i, scopes, ps⟩
  | sequence {i scopes ps rest} (h : BoundStmts T i scopes rest) :
      Hop ⟨.completion, i, scopes, ps⟩ (.sequence rest) (.sequence rest)
        ⟨.completion, i, scopes.afterAll rest, ps⟩
  | leave {i scopes ps} (q : Place) (hd : AllDefined scopes) :
      Hop ⟨.completion, i, scopes, q :: ps⟩ (.leave q.here) (.leave q.there)
        ⟨.completion, i, q.scopes, ps⟩
  | call {i scopes ps f f'} (q : Place) (made : Option ObjectId) (hd : AllDefined scopes)
      (hf : FunctionMatch S T w f f') :
      Hop ⟨.completion, true, scopes, q :: ps⟩ (.call q.here f made) (.call q.there f' made)
        ⟨.value, i, q.scopes, ps⟩

/-- Frames of both programs, down to the top level. -/
inductive Waits : Stance → List Frame → List Frame → Prop
  | bottom : Waits ⟨.completion, false, [], []⟩ [] []
  | cons {a b f f' fs fs'} (h : Hop S T w a f f' b) (hs : Waits b fs fs') :
      Waits a (f :: fs) (f' :: fs')

/-- What both programs do in some static scopes, and the stance their frames
have to take for it.  Where a statement is left before its end, the static
scopes are no longer those that the frames expect. -/
inductive Does : Control → Control → Scopes → Stance → Prop
  | eval {i scopes ps e} (h : BoundExpr T scopes e) :
      Does (.eval e) (.eval e) scopes ⟨.value, i, scopes, ps⟩
  | exec {i scopes ps s} (h : BoundStmt T i scopes s) :
      Does (.exec s) (.exec s) scopes ⟨.completion, i, scopes.after s, ps⟩
  | execAll {i scopes ps ss} (h : BoundStmts T i scopes ss) :
      Does (.execAll ss) (.execAll ss) scopes ⟨.completion, i, scopes.afterAll ss, ps⟩
  | value {i scopes ps v v'} (h : ValueMatch S T w v v') :
      Does (.value v) (.value v') scopes ⟨.value, i, scopes, ps⟩
  | completed {i scopes ps} : Does .completed .completed scopes ⟨.completion, i, scopes, ps⟩
  | returning {want scopes expected ps v v'} (h : ValueMatch S T w v v') :
      Does (.returning v) (.returning v') scopes ⟨want, true, expected, ps⟩
  | raising {want i scopes expected ps d} (h : ∀ line fault, d = .runtime line fault → Sound fault)
      (hs : scopes.isEmpty = expected.isEmpty) :
      Does (.raising d) (.raising d) scopes ⟨want, i, expected, ps⟩

end Relations

/-- The states of both programs. -/
structure StateMatch {S : Sight} {T : Chart} (D : Discipline S T) (w : S.World)
    (places : List Place) (s s' : State) : Prop where
  scopes : D.holds w places s.scopes s'.scopes
  objects : ObjectsMatch S T w s.objects s'.objects
  nextIdentity : s'.nextIdentity = s.nextIdentity
  sink : s'.sink = s.sink
  depth : s'.depth = s.depth
  readings : s'.readings = s.readings

/-- **Two programs that go alongside.** -/
def Alongside {S : Sight} {T : Chart} (D : Discipline S T) (c c' : Config) : Prop :=
  ∃ w scopes a, Does S T w c.control c'.control scopes a ∧ Waits S T w a c.frames c'.frames
    ∧ StateMatch D w (⟨c.state.scope, c'.state.scope, scopes⟩ :: a.outers) c.state c'.state

/-! ## §3. While the stores grow. -/

section Keeping

variable {S : Sight} {T : Chart} {D : Discipline S T} {w w' : S.World}

theorem Hop.mono (hg : S.grows w w') {a b : Stance} {f f' : Frame} (h : Hop S T w a f f' b) :
    Hop S T w' a f f' b := by
  cases h with
  | unary op => exact .unary op
  | binaryLeft op h => exact .binaryLeft op h
  | binaryRight op h => exact .binaryRight op (h.mono hg)
  | logical op h => exact .logical op h
  | assign hl ho hd => exact .assign hl ho hd
  | callee paren h => exact .callee paren h
  | argument paren hc he hr => exact .argument paren (hc.mono hg) (he.imp fun _ _ => .mono hg) hr
  | get name => exact .get name
  | setObject name h => exact .setObject name h
  | setValue id name => exact .setValue id name
  | discard => exact .discard
  | print => exact .print
  | define h => exact .define h
  | branch hs he => exact .branch hs he
  | loopTest h => exact .loopTest h
  | loopBody h => exact .loopBody h
  | returnValue => exact .returnValue
  | superclass hn ho hm => exact .superclass hn ho hm
  | sequence h => exact .sequence h
  | leave q hd => exact .leave q hd
  | call q made hd hf => exact .call q made hd (hf.mono hg)

theorem Waits.mono (hg : S.grows w w') {a : Stance} {fs fs' : List Frame}
    (h : Waits S T w a fs fs') : Waits S T w' a fs fs' := by
  induction h with
  | bottom => exact .bottom
  | cons h _ ih => exact .cons (h.mono hg) ih

/-- The states after a change of scopes. -/
theorem StateMatch.grow {places places' : List Place} {s s' : State}
    (h : StateMatch D w places s s') (hg : S.grows w w') {F F' : Forest Value}
    (hF : D.holds w' places' F F') :
    StateMatch D w' places' { s with scopes := F } { s' with scopes := F' } :=
  ⟨hF, h.objects.mono hg, h.nextIdentity, h.sink, h.depth, h.readings⟩

theorem StateMatch.useIdentities {places : List Place} {s s' : State}
    (h : StateMatch D w places s s') (count : Nat) :
    StateMatch D w places (s.useIdentities count) (s'.useIdentities count) :=
  ⟨h.scopes, h.objects, congrArg (· + count) h.nextIdentity, h.sink, h.depth, h.readings⟩

theorem StateMatch.readClock {places : List Place} {s s' : State}
    (h : StateMatch D w places s s') : StateMatch D w places s.readClock s'.readClock :=
  ⟨h.scopes, h.objects, h.nextIdentity, h.sink, h.depth, congrArg (· + 1) h.readings⟩

/-- The states after a new scope of each was added. -/
theorem StateMatch.child {places : List Place} {s s' : State} (h : StateMatch D w places s s')
    {n n' : ScopeId} {scopes : Scopes} (hs : S.sees w n n' scopes) {scope : Bindings Bool}
    {b b' : Bindings Value} (hb : Furnished S T w scope b b') :
    ∃ w', S.grows w w' ∧ StateMatch D w'
      (⟨s.scopes.nextId, s'.scopes.nextId, scope :: scopes⟩ :: places) (s.child n b)
      (s'.child n' b') := by
  obtain ⟨w', hg, hF⟩ := D.opened h.scopes hs hb
  exact ⟨w', hg, h.grow hg hF⟩

end Keeping

/-! ## §4. New scopes. -/

section Furnishing

variable {S : Sight} {T : Chart} {w : S.World}

theorem furnished_nil : Furnished S T w [] [] [] :=
  ⟨fun _ => rfl, fun _ => .none, nofun, nofun⟩

/-- A scope that holds one name. -/
theorem get?_single {α : Type} (key name : String) (v : α) :
    Bindings.get? [(key, v)] name = if key = name then some v else none := rfl

theorem furnished_this (id : ObjectId) :
    Furnished S T w thisScope [("this", .object id)] [("this", .object id)] := by
  refine ⟨?_, ?_, ?_, ?_⟩
  · intro name
    unfold thisScope
    rw [get?_single, get?_single]
    split <;> rfl
  · intro name
    rw [get?_single]
    split
    · exact .some (.object id)
    · exact .none
  · rintro _ ⟨⟩
    exact ⟨id, rfl⟩
  · exact fun _ h => nomatch h

theorem furnished_super {k k' : Class} (h : ClassMatch S T w k k') :
    Furnished S T w superScope [("super", .class k)] [("super", .class k')] := by
  refine ⟨?_, ?_, ?_, ?_⟩
  · intro name
    unfold superScope
    rw [get?_single, get?_single]
    split <;> rfl
  · intro name
    rw [get?_single, get?_single]
    split
    · exact .some (.class h)
    · exact .none
  · exact fun _ h => nomatch h
  · rintro _ ⟨⟩
    exact ⟨k, rfl⟩

/-- A name that is no parameter has no variable among the parameters. -/
theorem get?_parameters_of_notMem {params : List Token} {name : String}
    (h : ∀ t ∈ params, t.lexeme ≠ name) (vs : List Value) :
    (Config.parameters params vs).get? name = none := by
  unfold Config.parameters
  refine List.foldlRecOn (motive := fun b : Bindings Value => b.get? name = none) _ _ rfl ?_
  rintro b hb ⟨t, v⟩ hmem
  rw [Bindings.get?_insert, if_neg (h t (List.of_mem_zip hmem).1)]
  exact hb

/-- **The scope of a call**: each parameter has the argument at its place. -/
theorem furnished_parameters {params : List Token} (hp : ∀ t ∈ params, Ordinary t.lexeme)
    {vs vs' : List Value} (hv : List.Forall₂ (ValueMatch S T w) vs vs')
    (hlength : vs.length = params.length) :
    Furnished S T w (Walk.parameterScope params) (Config.parameters params vs)
      (Config.parameters params vs') := by
  -- the static scope and both sets of variables are filled one parameter at a time
  have hfold : ∀ (scope : Bindings Bool) (b b' : Bindings Value),
      (∀ name, scope.get? name = (b.get? name).map fun _ => true) →
      (∀ name, Option.Rel (ValueMatch S T w) (b.get? name) (b'.get? name)) →
      (∀ name, (params.foldl (fun scope t => scope.insert t.lexeme true) scope).get? name
        = (((params.zip vs).foldl (fun b p => b.insert p.1.lexeme p.2) b).get? name).map
          fun _ => true)
      ∧ ∀ name, Option.Rel (ValueMatch S T w)
        (((params.zip vs).foldl (fun b p => b.insert p.1.lexeme p.2) b).get? name)
        (((params.zip vs').foldl (fun b p => b.insert p.1.lexeme p.2) b').get? name) := by
    clear hp
    induction hv generalizing params with
    | nil =>
      intro scope b b' hnames hvalues
      obtain rfl := List.eq_nil_of_length_eq_zero hlength.symm
      exact ⟨hnames, hvalues⟩
    | @cons v v' vs vs' h _ ih =>
      intro scope b b' hnames hvalues
      obtain ⟨t, params, rfl⟩ := List.exists_cons_of_length_eq_add_one hlength.symm
      simp only [List.zip_cons_cons, List.foldl_cons]
      apply ih (Nat.succ.inj hlength)
      · intro name
        rw [Bindings.get?_insert, Bindings.get?_insert]
        by_cases hname : t.lexeme = name
        · rw [if_pos hname, if_pos hname]
          rfl
        · rw [if_neg hname, if_neg hname]
          exact hnames name
      · intro name
        rw [Bindings.get?_insert, Bindings.get?_insert]
        by_cases hname : t.lexeme = name
        · rw [if_pos hname, if_pos hname]
          exact .some h
        · rw [if_neg hname, if_neg hname]
          exact hvalues name
  obtain ⟨hnames, hvalues⟩ := hfold [] [] [] (fun _ => rfl) fun _ => .none
  refine ⟨hnames, hvalues, ?_, ?_⟩
  · intro v hv
    rw [get?_parameters_of_notMem fun t ht => (hp t ht).1] at hv
    cases hv
  · intro v hv
    rw [get?_parameters_of_notMem fun t ht => (hp t ht).2] at hv
    cases hv

end Furnishing

end Lox.Lockstep
