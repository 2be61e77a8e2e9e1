/-
  Lox.Proofs.Machine.Values
  ─────────────────────────
  **VALUES ONLY TRAVEL.**

  A value is held by a running program if it is in a variable or a field, is
  the class of an object, is the outcome of what was just done, or waits in a
  frame.  A step holds nothing but what was held before it, or what it has just
  made: a function, a bound method, a class, or a value that holds no code
  (`holds_step`).  So an invariant of functions and classes has only to be
  checked where these are made, and classes are followed whole, with all
  methods of all their superclasses, also those that no call can reach.
-/
import Lox.Proofs.Machine.Operations
import Lox.Proofs.Machine.Sequence

namespace Lox

open Lockstep

/-! ## §1. The values in store. -/

/-- The store holds a value: in a variable, in a field, or as the class of an
object. -/
inductive State.Holds (s : State) : Value → Prop
  | variable {id name v} (h : (s.scopes.bindings id).get? name = some v) : Holds s v
  | field {id : ObjectId} {o name v} (ho : s.objects[id]? = some o)
      (h : o.fields.get? name = some v) : Holds s v
  | cls {id : ObjectId} {o} (ho : s.objects[id]? = some o) : Holds s (.class o.cls)

namespace State

variable {s s' : State} {u v : Value}

theorem Holds.get {id : ScopeId} {name : String} (h : s.scopes.get id name = .ok v) :
    s.Holds v := by
  unfold Forest.get at h
  split at h
  · next hfound =>
    cases h
    obtain ⟨holder, -, hget⟩ := Option.bind_eq_some_iff.mp hfound
    exact .variable hget
  · cases h

theorem Holds.getAt {id : ScopeId} {distance : Nat} {name : String}
    (h : s.scopes.getAt id distance name = .ok v) : s.Holds v := by
  unfold Forest.getAt at h
  split at h
  · cases h
  · split at h
    · next hget =>
      cases h
      exact .variable hget
    · cases h

theorem Holds.lookUp {g : Setting} {o : Occurrence} (h : Config.lookUp g s o = .ok v) :
    s.Holds v := by
  unfold Config.lookUp at h
  split at h
  · exact .getAt h
  · exact .get h

/-- A superclass comes out of the store. -/
theorem Holds.superclassAt {distance : Nat} {keyword : Token} {parent : Class}
    (h : Config.superclassAt s distance keyword = .ok parent) : s.Holds (.class parent) := by
  unfold Config.superclassAt at h
  split at h
  · cases h
  · next hget =>
    cases h
    exact .getAt hget
  · cases h

/-- Only variables and objects hold values. -/
theorem Holds.congr (h : s'.Holds v) (hscopes : s'.scopes = s.scopes)
    (hobjects : s'.objects = s.objects) : s.Holds v := by
  cases h with
  | «variable» h => exact .variable (hscopes ▸ h)
  | field ho h => exact .field (hobjects ▸ ho) h
  | cls ho => exact .cls (hobjects ▸ ho)

/-- A variable gets a value. -/
theorem holds_define {id : ScopeId} {name : String} (h : (s.define id name v).Holds u) :
    u = v ∨ s.Holds u := by
  cases h with
  | @«variable» other name' _ hget =>
    change ((s.scopes.define id name v).bindings other).get? name' = some u at hget
    by_cases hid : id < s.scopes.nextId
    · rw [Forest.get?_define _ _ _ _ hid] at hget
      split at hget
      · exact .inl (Option.some.inj hget).symm
      · exact .inr (.variable hget)
    · -- there is no such scope, so nothing changes
      have hlt := Forest.lt_nextId_of_get? hget
      rw [Forest.nextId_define] at hlt
      have hne : other ≠ id := fun heq => hid (heq ▸ hlt)
      rw [Forest.bindings_define_of_ne _ _ _ _ hne] at hget
      exact .inr (.variable hget)
  | field ho h => exact .inr (.field ho h)
  | cls ho => exact .inr (.cls ho)

/-- A new scope with some variables. -/
theorem holds_child {parent : ScopeId} {b : Bindings Value} (h : (s.child parent b).Holds u) :
    (∃ name, b.get? name = some u) ∨ s.Holds u := by
  cases h with
  | @«variable» other name _ hget =>
    change ((s.scopes.child parent b).bindings other).get? name = some u at hget
    rw [Forest.bindings_child] at hget
    split at hget
    · exact .inl ⟨name, hget⟩
    · exact .inr (.variable hget)
  | field ho h => exact .inr (.field ho h)
  | cls ho => exact .inr (.cls ho)

/-- A new scope with one variable. -/
theorem holds_child_single {parent : ScopeId} {name : String}
    (h : (s.child parent [(name, v)]).Holds u) : u = v ∨ s.Holds u := by
  rcases holds_child h with ⟨other, hget⟩ | hold
  · rw [get?_single] at hget
    split at hget <;> cases hget
    exact .inl rfl
  · exact .inr hold

theorem holds_bind {f : Function} {id : ObjectId} (h : (Config.bind s f id).Holds u) :
    u = .object id ∨ s.Holds u :=
  holds_child_single (Holds.congr h rfl rfl)

theorem holds_addObject {k : Class} (h : (s.addObject k).Holds u) :
    u = .class k ∨ s.Holds u := by
  have hobject : ∀ (id : ObjectId) o, (s.addObject k).objects[id]? = some o →
      o = ⟨k, []⟩ ∨ s.objects[id]? = some o := by
    intro id o ho
    change (s.objects.push ⟨k, []⟩)[id]? = some o at ho
    rw [Array.getElem?_push] at ho
    split at ho
    · exact .inl (Option.some.inj ho).symm
    · exact .inr ho
  cases h with
  | «variable» h => exact .inr (.variable h)
  | field ho h =>
    rcases hobject _ _ ho with rfl | ho
    · cases h
    · exact .inr (.field ho h)
  | cls ho =>
    rcases hobject _ _ ho with rfl | ho
    · exact .inl rfl
    · exact .inr (.cls ho)

theorem holds_setField {id : ObjectId} {name : String} (h : (s.setField id name v).Holds u) :
    u = v ∨ s.Holds u := by
  have hobject : ∀ (other : ObjectId) o, (s.setField id name v).objects[other]? = some o →
      ∃ o', s.objects[other]? = some o' ∧ o.cls = o'.cls
        ∧ (o.fields = o'.fields ∨ o.fields = o'.fields.insert name v) := by
    intro other o ho
    change (s.objects.modify id fun o => { o with fields := o.fields.insert name v })[other]?
      = some o at ho
    rw [Array.getElem?_modify] at ho
    split at ho
    · obtain ⟨o', ho', rfl⟩ := Option.map_eq_some_iff.mp ho
      exact ⟨o', ho', rfl, .inr rfl⟩
    · exact ⟨o, ho, rfl, .inl rfl⟩
  cases h with
  | «variable» h => exact .inr (.variable h)
  | field ho h =>
    obtain ⟨o', ho', -, hfields | hfields⟩ := hobject _ _ ho
    · exact .inr (.field ho' (hfields ▸ h))
    · rw [hfields, Bindings.get?_insert] at h
      split at h
      · exact .inl (Option.some.inj h).symm
      · exact .inr (.field ho' h)
  | cls ho =>
    obtain ⟨o', ho', hcls, -⟩ := hobject _ _ ho
    rw [hcls]
    exact .inr (.cls ho')

/-- Before anything has run there are only native functions in store. -/
theorem holds_initial {capacity : Option Nat} (h : (State.initial capacity).Holds v) :
    v = .native .clock := by
  cases h with
  | «variable» h =>
    rw [get?_initial] at h
    split at h <;> cases h
    rfl
  | field ho | cls ho => cases ho

end State

/-- The values of parameters are arguments. -/
theorem Config.mem_of_get?_parameters (params : List Token) (vs : List Value) {name : String}
    {v : Value} : (Config.parameters params vs).get? name = some v → v ∈ vs := by
  unfold Config.parameters
  refine List.foldlRecOn (motive := fun b : Bindings Value => b.get? name = some v → v ∈ vs)
    _ _ nofun ?_
  rintro b hb ⟨t, u⟩ hmem hget
  rw [Bindings.get?_insert] at hget
  split at hget
  · cases hget
    exact (List.of_mem_zip hmem).2
  · exact hb hget

/-! ## §2. Values without code. -/

/-- A value that is neither a function nor a class. -/
def Value.Plain : Value → Prop
  | .function _ | .class _ => False
  | _ => True

namespace Value

theorem plain_ofLiteral (l : Literal) : (ofLiteral l).Plain := by
  cases l <;> trivial

theorem plain_unary {op : TokenKind} {v r : Value} (h : v.unary op = .ok r) : r.Plain := by
  unfold Value.unary at h
  split at h <;> cases h <;> trivial

theorem plain_add {a b r : Value} (h : a.add b = .ok r) : r.Plain := by
  unfold Value.add at h
  split at h <;> cases h <;> trivial

theorem plain_onNumbers {f : Float → Float → Value} {a b r : Value}
    (h : Value.onNumbers f a b = .ok r) (hf : ∀ x y, (f x y).Plain) : r.Plain := by
  unfold Value.onNumbers at h
  split at h
  · cases h
    exact hf _ _
  · cases h

theorem plain_binary {op : TokenKind} {a b r : Value} (h : a.binary op b = .ok r) : r.Plain := by
  unfold Value.binary at h
  cases op with
  | plus => exact plain_add h
  | minus | star | slash => exact plain_onNumbers h fun _ _ => trivial
  | greater | greaterEqual | less | lessEqual => exact plain_onNumbers h fun _ _ => trivial
  | equalEqual | bangEqual =>
    cases h
    trivial
  | _ => cases h

end Value

/-! ## §3. Classes with all that they inherit from. -/

/-- A class and its superclasses, the nearest first. -/
def Class.lineage (k : Class) : List Class :=
  match k with
  | ⟨_, _, none, _⟩ => [k]
  | ⟨_, _, some parent, _⟩ => k :: parent.lineage

namespace Class

theorem lineage_eq (k : Class) : k.lineage = k :: (k.superclass.map lineage).getD [] := by
  obtain ⟨identity, name, superclass, methods⟩ := k
  rw [lineage.eq_def]
  cases superclass <;> rfl

/-- A class inherits from what its superclass inherits from. -/
theorem mem_lineage {j k : Class} : j ∈ k.lineage ↔ j = k ∨ ∃ p ∈ k.superclass, j ∈ p.lineage := by
  rw [lineage_eq, List.mem_cons]
  cases k.superclass <;> simp

/-- **The method of a class** is that of the nearest class that has one. -/
theorem method?_eq_findSome? (k : Class) (name : String) :
    k.method? name = k.lineage.findSome? fun j => j.methods.get? name := by
  rw [method?_eq, lineage_eq, List.findSome?_cons]
  cases hown : k.methods.get? name with
  | some f => rfl
  | none =>
    rw [Option.none_or]
    cases hparent : k.superclass with
    | none => rfl
    | some parent => exact method?_eq_findSome? parent name
termination_by sizeOf k
decreasing_by
  obtain ⟨identity, own, superclass, methods⟩ := k
  cases hparent
  simp +arith

end Class

/-! ## §4. The values of a running program. -/

/-- The value that an outcome has. -/
def Control.values : Control → List Value
  | .value v | .returning v => [v]
  | _ => []

/-- The values that wait in a frame; a call in progress has its function. -/
def Frame.values : Frame → List Value
  | .binaryRight left _ => [left]
  | .argument v _ earlier _ => v :: earlier.toList
  | .call _ f _ => [.function f]
  | _ => []

namespace Config

/-- A running program holds a value. -/
inductive Holds (c : Config) : Value → Prop
  | control {v} (h : v ∈ c.control.values) : Holds c v
  | frame {f v} (hf : f ∈ c.frames) (h : v ∈ f.values) : Holds c v
  | state {v} (h : c.state.Holds v) : Holds c v

/-- The class that the next step makes, with the declarations of its own
methods. -/
inductive Declares : Config → Class → List (FunctionDecl Stmt) → Prop
  | plain {name methods rest s} :
      Declares ⟨.exec (.class name none methods), rest, s⟩ (declaredClass s name none methods)
        methods
  | derived {k name o methods rest s} :
      Declares ⟨.value (.class k), .superclass name o methods :: rest, s⟩
        (declaredClass s name (some k) methods) methods

/-- The values that a step can make: a function that it declares, a method that
it binds in a new scope, a class that it declares, and values without code. -/
inductive Makes (c c' : Config) : Value → Prop
  | function {decl} (h : c.control = .exec (.function decl)) :
      Makes c c' (.function ⟨c.state.nextIdentity, decl, c.state.scope, false⟩)
  | bound {k name f} (hk : c.Holds (.class k)) (hf : k.method? name = some f)
      (hnew : c.state.scopes.nextId < c'.state.scopes.nextId) :
      Makes c c' (.function (boundMethod c.state f))
  | declared {k methods} (h : c.Declares k methods) : Makes c c' (.class k)
  | plain {v} (h : v.Plain) : Makes c c' v

/-- What a running program holds, or makes in a step. -/
def Knows (c c' : Config) (v : Value) : Prop :=
  c.Holds v ∨ c.Makes c' v

theorem Knows.plain {c c' : Config} {v : Value} (h : v.Plain) : c.Knows c' v :=
  .inr (.plain h)

/-- All values that a running program holds have a property. -/
structure All (Q : Value → Prop) (c : Config) : Prop where
  control : ∀ v ∈ c.control.values, Q v
  frames : ∀ f ∈ c.frames, ∀ v ∈ f.values, Q v
  state : ∀ v, c.state.Holds v → Q v

section All

variable {Q Q' : Value → Prop} {c : Config} {v : Value} {control : Control} {frame : Frame}
  {frames : List Frame} {s : State}

theorem All.holds (h : c.All Q) (hv : c.Holds v) : Q v := by
  cases hv with
  | control hv => exact h.control v hv
  | frame hf hv => exact h.frames _ hf v hv
  | state hv => exact h.state v hv

theorem all_holds (h : ∀ v, c.Holds v → Q v) : c.All Q :=
  ⟨fun v hv => h v (.control hv), fun _ hf v hv => h v (.frame hf hv), fun v hv => h v (.state hv)⟩

theorem All.imp (h : c.All Q) (hQ : ∀ v, Q v → Q' v) : c.All Q' :=
  all_holds fun v hv => hQ v (h.holds hv)

/-- The innermost frame is removed. -/
theorem All.pop (h : All Q ⟨control, frame :: frames, s⟩) : All Q ⟨control, frames, s⟩ :=
  ⟨h.control, fun f hf => h.frames f (List.mem_cons_of_mem frame hf), h.state⟩

theorem All.withControl (h : c.All Q) (hcontrol : ∀ v ∈ control.values, Q v) :
    (c.withControl control).All Q :=
  ⟨hcontrol, h.frames, h.state⟩

theorem All.yielding (h : c.All Q) (hv : Q v) : (c.yielding v).All Q :=
  h.withControl (List.forall_mem_singleton.mpr hv)

theorem All.failing (h : c.All Q) (line : Nat) (fault : RuntimeFault) :
    (c.failing line fault).All Q :=
  h.withControl (List.forall_mem_nil _)

theorem All.within (h : c.All Q) (hframe : ∀ v ∈ frame.values, Q v)
    (hcontrol : ∀ v ∈ control.values, Q v) : (c.within frame control).All Q :=
  ⟨hcontrol, List.forall_mem_cons.mpr ⟨hframe, h.frames⟩, h.state⟩

/-- Something is evaluated or executed inside a frame without values. -/
theorem All.into (h : c.All Q) (hframe : frame.values = []) (hcontrol : control.values = []) :
    (c.within frame control).All Q := by
  refine h.within ?_ ?_
  · rw [hframe]
    exact List.forall_mem_nil _
  · rw [hcontrol]
    exact List.forall_mem_nil _

theorem All.mapState (h : c.All Q) (change : State → State)
    (hstate : ∀ v, (change c.state).Holds v → Q v) : (c.mapState change).All Q :=
  ⟨h.control, h.frames, hstate⟩

theorem All.settling (h : c.All Q) (line : Nat) {result : Except RuntimeFault Value}
    (hresult : ∀ v, result = .ok v → Q v) : (c.settling line result).All Q := by
  cases result with
  | ok v => exact h.yielding (hresult v rfl)
  | error fault => exact h.failing line fault

theorem All.defining (h : c.All Q) (name : String) (hv : Q v) : (c.defining name v).All Q := by
  refine h.mapState _ ?_
  intro u hu
  rcases State.holds_define hu with rfl | hold
  · exact hv
  · exact h.state u hold

theorem All.assigning (h : c.All Q) (g : Setting) (o : Occurrence) (hv : Q v) :
    (assigning g c o v).All Q := by
  unfold Config.assigning
  split
  · refine (h.mapState _ ?_).yielding hv
    intro u hu
    rcases State.holds_define hu with rfl | hold
    · exact hv
    · exact h.state u hold
  · exact h.failing _ _

theorem All.settingField (h : c.All Q) (id : ObjectId) (name : Token) (hv : Q v) :
    (c.settingField id name v).All Q := by
  refine (h.mapState _ ?_).yielding hv
  intro u hu
  rcases State.holds_setField hu with rfl | hold
  · exact hv
  · exact h.state u hold

theorem All.printing (h : c.All Q) (v : Value) : (c.printing v).All Q := by
  refine (h.mapState _ fun u hu => h.state u (hu.congr rfl rfl)).withControl ?_
  split <;> exact List.forall_mem_nil _

/-- A function is entered with its arguments. -/
theorem All.entering (h : c.All Q) {f : Function} (hf : Q (.function f)) {arguments : Array Value}
    (harguments : ∀ v ∈ arguments.toList, Q v) (made : Option ObjectId) :
    (c.entering f arguments made).All Q := by
  refine (h.mapState _ ?_).within (List.forall_mem_singleton.mpr hf) (List.forall_mem_nil _)
  intro u hu
  rcases State.holds_child (State.Holds.congr hu rfl rfl) with ⟨name, hget⟩ | hold
  · exact harguments u (mem_of_get?_parameters _ _ hget)
  · exact h.state u hold

theorem All.bind (h : c.All Q) (hplain : ∀ v : Value, v.Plain → Q v) (f : Function)
    (id : ObjectId) : (c.mapState (Config.bind · f id)).All Q := by
  refine h.mapState _ ?_
  intro u hu
  rcases State.holds_bind hu with rfl | hold
  · exact hplain _ trivial
  · exact h.state u hold

/-- A call ends: initializers read their object from their closure. -/
theorem All.endingCall (h : c.All Q) (hplain : ∀ v : Value, v.Plain → Q v) (n : ScopeId)
    (f : Function) (made : Option ObjectId) (hv : Q v) : (c.endingCall n f made v).All Q := by
  have hended : (c.mapState (·.endCall n)).All Q :=
    h.mapState _ fun u hu => h.state u (hu.congr rfl rfl)
  unfold Config.endingCall
  dsimp only
  split
  · exact hended.failing _ _
  · exact hended.yielding (hplain _ trivial)
  · next hresult =>
    refine hended.yielding ?_
    unfold callResult at hresult
    split at hresult
    · exact hended.state _ (.getAt hresult)
    · cases hresult
      exact hv

/-- A class is declared. -/
theorem All.declaringClass (h : c.All Q) (name : Token) {parent : Option Class}
    {methods : List (FunctionDecl Stmt)} (hparent : ∀ k ∈ parent, Q (.class k))
    (hclass : Q (.class (declaredClass c.state name parent methods))) :
    (c.declaringClass name parent methods).All Q := by
  obtain ⟨control, frames, s⟩ := c
  -- the scope of `super` holds the superclass
  have hopen : ∀ u, (declaringState s parent methods).Holds u → Q u := by
    intro u hu
    cases parent with
    | none => exact h.state u (hu.congr rfl rfl)
    | some k =>
      rcases State.holds_child_single (State.Holds.congr hu rfl rfl) with rfl | hold
      · exact hparent k rfl
      · exact h.state u hold
  cases htarget : (declaringState s parent methods).scopes.target
      (declaringState s parent methods).scope name.lexeme with
  | ok a =>
    rw [declaringClass_eq htarget]
    refine ⟨List.forall_mem_nil _, h.frames, ?_⟩
    intro u (hu : ((declaringState s parent methods).define a name.lexeme _).Holds u)
    rcases State.holds_define hu with rfl | hold
    · exact hclass
    · exact hopen u hold
  | error fault =>
    rw [declaringClass_error htarget]
    exact ⟨List.forall_mem_nil _, h.frames, hopen⟩

end All

/-! ## §5. Every step. -/

section Known

variable {c c₀ c' : Config} {k : Class} {v : Value} {arguments : Array Value}

theorem All.known (h : c.All c₀.Holds) : c.All (c₀.Knows c') :=
  h.imp fun _ => .inl

/-- A method of a class that is held is bound. -/
theorem All.yieldingMethod (h : c.All c₀.Holds) (hs : c.state = c₀.state)
    (hk : c₀.Holds (.class k)) {name : String} {f : Function} (hf : k.method? name = some f)
    (id : ObjectId) : (c.yieldingMethod f id).All (c₀.Knows (c.yieldingMethod f id)) := by
  have hnew : c₀.state.scopes.nextId < (c.yieldingMethod f id).state.scopes.nextId := by
    show _ < (c.state.scopes.child f.closure _).nextId
    rw [Forest.nextId_child, hs]
    exact Nat.lt_succ_self _
  refine (h.known.bind (fun _ => .plain) f id).yielding ?_
  rw [hs]
  exact .inr (.bound hk hf hnew)

theorem All.property (h : c.All c₀.Holds) (hs : c.state = c₀.state) (id : ObjectId)
    (name : Token) : (c.property id name).All (c₀.Knows (c.property id name)) := by
  unfold Config.property
  cases ho : c.state.objects[id]? with
  | none => exact h.known.failing _ _
  | some o =>
    dsimp only
    cases hfield : o.fields.get? name.lexeme with
    | some v => exact h.known.yielding (.inl (h.state v (.field ho hfield)))
    | none =>
      dsimp only
      cases hmethod : o.cls.method? name.lexeme with
      | some f => exact h.yieldingMethod hs (h.state _ (.cls ho)) hmethod id
      | none => exact h.known.failing _ _

theorem All.superMethod (h : c.All c₀.Holds) (hs : c.state = c₀.state) (g : Setting)
    (o : Occurrence) (name : Token) :
    (superMethod g c o name).All (c₀.Knows (superMethod g c o name)) := by
  unfold Config.superMethod
  cases g.distances[o.id]? with
  | none => exact h.known.failing _ _
  | some distance =>
    dsimp only
    cases hparent : superclassAt c.state distance o.name with
    | error fault => exact h.known.failing _ _
    | ok parent =>
      dsimp only
      cases receiverAt c.state distance with
      | error fault => exact h.known.failing _ _
      | ok id =>
        dsimp only
        cases hmethod : parent.method? name.lexeme with
        | some f => exact h.yieldingMethod hs (h.state _ (.superclassAt hparent)) hmethod id
        | none => exact h.known.failing _ _

/-- An object of a class that is held is made. -/
theorem All.making (h : c.All c₀.Holds) (hs : c.state = c₀.state) (hk : c₀.Holds (.class k))
    (harguments : ∀ v ∈ arguments.toList, c₀.Holds v) :
    (c.making k arguments).All (c₀.Knows (c.making k arguments)) := by
  have hobject : (c.mapState (·.addObject k)).All c₀.Holds := by
    refine h.mapState _ ?_
    intro u hu
    rcases State.holds_addObject hu with rfl | hold
    · exact hk
    · exact h.state u hold
  unfold Config.making
  cases hinit : k.initializer? with
  | none => exact hobject.known.yielding (.plain trivial)
  | some f =>
    refine (hobject.known.bind (fun _ => .plain) f _).entering ?_
      (fun v hv => .inl (harguments v hv)) _
    -- a new object changes neither the scopes nor the identities
    have hbound : boundMethod (c.state.addObject k) f = boundMethod c₀.state f := by
      rw [← hs]
      rfl
    show c₀.Knows _ (.function (boundMethod (c.state.addObject k) f))
    rw [hbound]
    refine .inr (.bound hk hinit ?_)
    show _ < ((c.state.scopes.child f.closure _).child _ _).nextId
    rw [Forest.nextId_child, Forest.nextId_child, hs]
    exact Nat.lt_succ_of_lt (Nat.lt_succ_self _)

theorem All.calling (h : c.All c₀.Holds) (hs : c.state = c₀.state) (g : Setting)
    (hv : c₀.Holds v) (harguments : ∀ v ∈ arguments.toList, c₀.Holds v) (paren : Token) :
    (calling g c v paren arguments).All (c₀.Knows (calling g c v paren arguments)) := by
  unfold Config.calling
  cases hcallable : Callable.ofValue? v with
  | none => exact h.known.failing _ _
  | some callable =>
    dsimp only
    -- a wrong number of arguments, too many calls in progress, or a call
    split
    · exact h.known.failing _ _
    · split
      · exact h.known.failing _ _
      · cases v with
        | native n =>
          cases hcallable
          cases n
          have hread := h.mapState (·.readClock) fun u hu => h.state u (hu.congr rfl rfl)
          exact hread.known.yielding (.plain trivial)
        | function f =>
          cases hcallable
          exact h.known.entering (.inl hv) (fun v hv => .inl (harguments v hv)) none
        | «class» k =>
          cases hcallable
          exact h.making hs hv harguments
        | _ => cases hcallable

theorem All.arguing (h : c.All c₀.Holds) (hs : c.state = c₀.state) (g : Setting)
    (hv : c₀.Holds v) (harguments : ∀ v ∈ arguments.toList, c₀.Holds v) (paren : Token)
    (rest : List Expr) :
    (arguing g c v paren arguments rest).All (c₀.Knows (arguing g c v paren arguments rest)) := by
  cases rest with
  | nil => exact h.calling hs g hv harguments paren
  | cons e rest =>
    refine All.known (h.within ?_ (List.forall_mem_nil _))
    exact List.forall_mem_cons.mpr ⟨hv, harguments⟩

theorem All.eval (h : c.All c₀.Holds) (hs : c.state = c₀.state) (g : Setting) (e : Expr) :
    (eval g c e).All (c₀.Knows (eval g c e)) := by
  cases e with
  | literal value => exact h.known.yielding (.plain (Value.plain_ofLiteral value))
  | grouping inner => exact h.known.withControl (List.forall_mem_nil _)
  | «variable» o | this o =>
    exact h.known.settling _ fun v hv => .inl (h.state v (.lookUp hv))
  | super o method => exact h.superMethod hs g o method
  | unary | binary | logical | assign | call | get | set => exact h.known.into rfl rfl

theorem All.exec {rest : List Frame} {s : State} (st : Stmt) :
    (Config.exec ⟨.exec st, rest, s⟩ st).All
      (Knows ⟨.exec st, rest, s⟩ (Config.exec ⟨.exec st, rest, s⟩ st)) := by
  have h : All (Holds ⟨.exec st, rest, s⟩) ⟨.exec st, rest, s⟩ := all_holds fun _ => id
  cases st with
  | expression | print | ifElse | «while» => exact h.known.into rfl rfl
  | var name initializer =>
    cases initializer with
    | none =>
      refine (h.known.defining name.lexeme ?_).withControl (List.forall_mem_nil _)
      exact .plain trivial
    | some e => exact h.known.into rfl rfl
  | block body =>
    refine (h.known.mapState _ ?_).into rfl rfl
    intro u hu
    rcases State.holds_child (State.Holds.congr hu rfl rfl) with ⟨name, hget⟩ | hold
    · cases hget
    · exact .inl (h.state u hold)
  | function decl =>
    have hused := h.mapState (·.useIdentities 1) fun u hu => h.state u (hu.congr rfl rfl)
    exact (hused.known.defining _ (.inr (.function rfl))).withControl (List.forall_mem_nil _)
  | «return» keyword value =>
    cases value with
    | none => exact h.known.withControl (List.forall_mem_singleton.mpr (.plain trivial))
    | some e => exact h.known.into rfl rfl
  | «class» name superclass methods =>
    have hnamed (c' : Config) := h.known.defining name.lexeme (.plain trivial : Knows _ c' .nil)
    cases superclass with
    | none => exact (hnamed _).declaringClass name nofun (.inr (.declared .plain))
    | some parent => exact (hnamed _).into rfl rfl

theorem All.complete (h : c.All c₀.Holds) (frame : Frame) :
    (c.complete frame).All (c₀.Knows c') := by
  cases frame with
  | leave n =>
    have hleft := h.mapState (·.inScope n) fun u hu => h.state u (hu.congr rfl rfl)
    exact hleft.known.withControl (List.forall_mem_nil _)
  | call n f made => exact h.known.endingCall (fun _ => .plain) n f made (.plain trivial)
  | _ => exact h.known.withControl (List.forall_mem_nil _)

theorem All.resume (g : Setting) (v : Value) (frame : Frame) (rest : List Frame) (s : State) :
    (Config.resume g ⟨.value v, rest, s⟩ v frame).All (Knows ⟨.value v, frame :: rest, s⟩
      (Config.resume g ⟨.value v, rest, s⟩ v frame)) := by
  have hall : All (Holds ⟨.value v, frame :: rest, s⟩) ⟨.value v, frame :: rest, s⟩ :=
    all_holds fun _ => id
  have h := hall.pop
  have hv : Holds ⟨.value v, frame :: rest, s⟩ v := .control List.mem_cons_self
  cases frame with
  | unary op => exact h.known.settling _ fun r hr => .plain (Value.plain_unary hr)
  | binaryRight left op => exact h.known.settling _ fun r hr => .plain (Value.plain_binary hr)
  | binaryLeft op right =>
    refine All.known (h.within ?_ (List.forall_mem_nil _))
    exact List.forall_mem_singleton.mpr hv
  | logical op right =>
    unfold Config.resume
    dsimp only
    split
    · exact h.known.yielding (.inl hv)
    · exact h.known.withControl (List.forall_mem_nil _)
  | assign target => exact (h.assigning g target hv).known
  | callee paren arguments => exact h.arguing rfl g hv (List.forall_mem_nil _) paren arguments
  | argument callee paren earlier arguments =>
    have hframe := List.forall_mem_cons.mp (hall.frames _ List.mem_cons_self)
    refine h.arguing rfl g hframe.1 ?_ paren arguments
    intro u hu
    rw [Array.toList_push, List.mem_append, List.mem_singleton] at hu
    rcases hu with hu | rfl
    · exact hframe.2 u hu
    · exact hv
  | get name =>
    cases v with
    | object id => exact h.property rfl id name
    | _ => exact h.known.failing _ _
  | setObject name e =>
    cases v with
    | object id => exact h.known.into rfl rfl
    | _ => exact h.known.failing _ _
  | setValue id name => exact (h.settingField id name hv).known
  | discard => exact h.known.withControl (List.forall_mem_nil _)
  | print => exact (h.printing v).known
  | define name => exact (h.known.defining _ (.inl hv)).withControl (List.forall_mem_nil _)
  | branch th el =>
    unfold Config.resume
    dsimp only
    split <;> exact h.known.withControl (List.forall_mem_nil _)
  | loopTest condition body =>
    unfold Config.resume
    dsimp only
    split
    · exact h.known.into rfl rfl
    · exact h.known.withControl (List.forall_mem_nil _)
  | returnValue => exact h.known.withControl (List.forall_mem_singleton.mpr (.inl hv))
  | superclass name parent methods =>
    cases v with
    | «class» k =>
      refine h.known.declaringClass name ?_ (.inr (.declared .derived))
      rintro _ ⟨⟩
      exact .inl hv
    | _ => exact h.known.failing _ _
  -- these frames wait for a statement to end, whatever its value
  | loopBody condition body => exact h.complete (.loopBody condition body)
  | sequence body => exact h.complete (.sequence body)
  | leave n => exact h.complete (.leave n)
  | call n f made => exact h.complete (.call n f made)

/-- **A step holds what was held before it and what it makes.** -/
theorem all_step (g : Setting) (c : Config) : (c.step g).All (c.Knows (c.step g)) := by
  have h : c.All c.Holds := all_holds fun _ => id
  obtain ⟨control, frames, s⟩ := c
  cases control with
  | eval e => exact h.eval rfl g e
  | exec st => exact All.exec st
  | execAll body =>
    cases body with
    | nil => exact h.known.withControl (List.forall_mem_nil _)
    | cons st rest => exact h.known.into rfl rfl
  | value v =>
    cases frames with
    | nil => exact h.known
    | cons frame rest => exact All.resume g v frame rest s
  | completed =>
    cases frames with
    | nil => exact h.known
    | cons frame rest => exact h.pop.complete frame
  | returning v =>
    cases frames with
    | nil => exact h.known
    | cons frame rest =>
      cases frame with
      | leave n =>
        have hleft := h.pop.mapState (·.inScope n) fun u hu => h.state u (hu.congr rfl rfl)
        exact hleft.known
      | call n f made =>
        have hv := h.control v List.mem_cons_self
        exact h.pop.known.endingCall (fun _ => .plain) n f made (.inl hv)
      | _ => exact h.pop.known
  | raising d =>
    cases frames with
    | nil => exact h.known
    | cons frame rest =>
      cases frame with
      | leave n =>
        have hleft := h.pop.mapState (·.inScope n) fun u hu => h.state u (hu.congr rfl rfl)
        exact hleft.known
      | call n f made =>
        have hended := h.pop.mapState (·.endCall n) fun u hu => h.state u (hu.congr rfl rfl)
        exact hended.known
      | _ => exact h.pop.known

/-- **Values only travel**: what is held after a step was held before it or is
made by it. -/
theorem holds_step {g : Setting} (h : (c.step g).Holds v) : c.Holds v ∨ c.Makes (c.step g) v :=
  (all_step g c).holds h

/-- A property of values that is true of what a step makes. -/
theorem All.step {Q : Value → Prop} (h : c.All Q) (g : Setting)
    (hmakes : ∀ v, c.Makes (c.step g) v → Q v) : (c.step g).All Q := by
  refine all_holds fun v hv => ?_
  rcases holds_step hv with hold | hmade
  · exact h.holds hold
  · exact hmakes v hmade

end Known

end Config

end Lox
