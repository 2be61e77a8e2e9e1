/-
  Lox.Proofs.Machine.Matched
  ──────────────────────────
  **VALUES OF TWO PROGRAMS THAT MEAN THE SAME.**

  Two programs run side by side on stores of their own.  What relates their
  scopes is left open here: a `Sight` says when a scope of one and a scope of
  the other show the names of some static scopes alike, and that this stays
  so while the stores grow.  Functions match when one declaration made both
  and their closures show the names that its body is bound to; classes match
  by the methods they answer with; the other values match when they are equal.
-/
import Lox.Machine.Step
import Lox.Proofs.Forest
import Lox.Proofs.Resolve.Chart

namespace Lox.Lockstep

open Resolve

/-! ## §1. Matching. -/

/-- What two stores are known to have in common, and how scopes show names. -/
structure Sight where
  World : Type
  /-- Nothing that was seen is lost. -/
  grows : World → World → Prop
  /-- A scope of each store shows the names of static scopes alike. -/
  sees : World → ScopeId → ScopeId → Scopes → Prop
  refl : ∀ w, grows w w
  trans : ∀ {u v w}, grows u v → grows v w → grows u w
  mono : ∀ {w w' n n' scopes}, grows w w' → sees w n n' scopes → sees w' n n' scopes

/-- The static scope around the methods of an object. -/
def thisScope : Bindings Bool :=
  [("this", true)]

/-- The static scope around the methods of a class with a superclass. -/
def superScope : Bindings Bool :=
  [("super", true)]

section Matching

variable (S : Sight) (T : Chart) (w : S.World)

/-- Two functions that one declaration made in the same static scopes. -/
structure Twins (scopes : Scopes) (f f' : Function) : Prop where
  identity : f'.identity = f.identity
  decl : f'.decl = f.decl
  isInitializer : f'.isInitializer = f.isInitializer
  closure : S.sees w f.closure f'.closure scopes

/-- Functions whose body is bound in their closures.  An initializer is bound
to an object. -/
def FunctionMatch (f f' : Function) : Prop :=
  ∃ scopes, Twins S w scopes f f' ∧ BoundFunction T scopes f.decl
    ∧ (f.isInitializer = true → ∃ outer, scopes = thisScope :: outer)

/-- Methods whose body is bound once an object is. -/
def MethodMatch (f f' : Function) : Prop :=
  ∃ scopes, Twins S w scopes f f' ∧ BoundFunction T (thisScope :: scopes) f.decl

/-- Classes that answer with matching methods. -/
structure ClassMatch (k k' : Class) : Prop where
  identity : k'.identity = k.identity
  name : k'.name = k.name
  method : ∀ name, Option.Rel (MethodMatch S T w) (k.method? name) (k'.method? name)

/-- Values that mean the same. -/
inductive ValueMatch : Value → Value → Prop
  | nil : ValueMatch .nil .nil
  | bool (b : Bool) : ValueMatch (.bool b) (.bool b)
  | number (x : Float) : ValueMatch (.number x) (.number x)
  | string (s : String) : ValueMatch (.string s) (.string s)
  | native (n : Native) : ValueMatch (.native n) (.native n)
  | function {f f' : Function} (h : FunctionMatch S T w f f') :
      ValueMatch (.function f) (.function f')
  | class {k k' : Class} (h : ClassMatch S T w k k') : ValueMatch (.class k) (.class k')
  | object (id : ObjectId) : ValueMatch (.object id) (.object id)

/-- Objects of matching classes with matching fields. -/
structure ObjectMatch (o o' : Object) : Prop where
  cls : ClassMatch S T w o.cls o'.cls
  fields : ∀ name, Option.Rel (ValueMatch S T w) (o.fields.get? name) (o'.fields.get? name)

/-- Stores of objects that match at every place. -/
structure ObjectsMatch (os os' : Array Object) : Prop where
  size : os'.size = os.size
  object : ∀ id : ObjectId, Option.Rel (ObjectMatch S T w) os[id]? os'[id]?

end Matching

/-! ## §2. Matching is kept. -/

theorem optionRel_imp {α β : Type} {r r' : α → β → Prop} (h : ∀ a b, r a b → r' a b)
    {x : Option α} {y : Option β} (hxy : Option.Rel r x y) : Option.Rel r' x y := by
  cases hxy with
  | none => exact .none
  | some hab => exact .some (h _ _ hab)

theorem optionRel_map {α β γ : Type} {r : α → β → Prop} {f : α → γ} {g : β → γ} {x : Option α}
    {y : Option β} (hxy : Option.Rel r x y) (h : ∀ a b, r a b → f a = g b) : x.map f = y.map g := by
  cases hxy with
  | none => rfl
  | some hab => exact congrArg some (h _ _ hab)

section Keeping

variable {S : Sight} {T T' : Chart} {w w' : S.World}

/-- What functions and methods keep, all values keep. -/
theorem ClassMatch.imp (hm : ∀ f f', MethodMatch S T w f f' → MethodMatch S T' w' f f')
    {k k' : Class} (h : ClassMatch S T w k k') : ClassMatch S T' w' k k' :=
  ⟨h.identity, h.name, fun name => optionRel_imp hm (h.method name)⟩

theorem ValueMatch.imp (hm : ∀ f f', MethodMatch S T w f f' → MethodMatch S T' w' f f')
    (hf : ∀ f f', FunctionMatch S T w f f' → FunctionMatch S T' w' f f') {v v' : Value}
    (h : ValueMatch S T w v v') : ValueMatch S T' w' v v' := by
  cases h with
  | nil => exact .nil
  | bool b => exact .bool b
  | number x => exact .number x
  | string s => exact .string s
  | native n => exact .native n
  | function h => exact .function (hf _ _ h)
  | «class» h => exact .class (h.imp hm)
  | object id => exact .object id

theorem ObjectsMatch.imp (hm : ∀ f f', MethodMatch S T w f f' → MethodMatch S T' w' f f')
    (hf : ∀ f f', FunctionMatch S T w f f' → FunctionMatch S T' w' f f') {os os' : Array Object}
    (h : ObjectsMatch S T w os os') : ObjectsMatch S T' w' os os' := by
  refine ⟨h.size, fun id => optionRel_imp ?_ (h.object id)⟩
  intro o o' ho
  exact ⟨ho.cls.imp hm, fun name => optionRel_imp (fun _ _ => .imp hm hf) (ho.fields name)⟩

theorem Twins.mono (hg : S.grows w w') {scopes : Scopes} {f f' : Function}
    (h : Twins S w scopes f f') : Twins S w' scopes f f' :=
  ⟨h.identity, h.decl, h.isInitializer, S.mono hg h.closure⟩

theorem FunctionMatch.mono (hg : S.grows w w') (f f' : Function) (h : FunctionMatch S T w f f') :
    FunctionMatch S T w' f f' := by
  obtain ⟨scopes, htwins, hbound, hinit⟩ := h
  exact ⟨scopes, htwins.mono hg, hbound, hinit⟩

theorem MethodMatch.mono (hg : S.grows w w') (f f' : Function) (h : MethodMatch S T w f f') :
    MethodMatch S T w' f f' := by
  obtain ⟨scopes, htwins, hbound⟩ := h
  exact ⟨scopes, htwins.mono hg, hbound⟩

theorem ClassMatch.mono (hg : S.grows w w') {k k' : Class} (h : ClassMatch S T w k k') :
    ClassMatch S T w' k k' :=
  h.imp (MethodMatch.mono hg)

/-- **Values that match go on matching** while the stores grow. -/
theorem ValueMatch.mono (hg : S.grows w w') {v v' : Value} (h : ValueMatch S T w v v') :
    ValueMatch S T w' v v' :=
  h.imp (MethodMatch.mono hg) (FunctionMatch.mono hg)

theorem FunctionMatch.extend (hT : T.Extends T') (f f' : Function)
    (h : FunctionMatch S T w f f') : FunctionMatch S T' w f f' := by
  obtain ⟨scopes, htwins, hbound, hinit⟩ := h
  exact ⟨scopes, htwins, BoundFunction.extend hT f.decl hbound, hinit⟩

theorem MethodMatch.extend (hT : T.Extends T') (f f' : Function) (h : MethodMatch S T w f f') :
    MethodMatch S T' w f f' := by
  obtain ⟨scopes, htwins, hbound⟩ := h
  exact ⟨scopes, htwins, BoundFunction.extend hT f.decl hbound⟩

/-- Values that match go on matching when the chart learns more. -/
theorem ValueMatch.extend (hT : T.Extends T') {v v' : Value} (h : ValueMatch S T w v v') :
    ValueMatch S T' w v v' :=
  h.imp (MethodMatch.extend hT) (FunctionMatch.extend hT)

theorem ObjectsMatch.mono (hg : S.grows w w') {os os' : Array Object}
    (h : ObjectsMatch S T w os os') : ObjectsMatch S T w' os os' :=
  h.imp (MethodMatch.mono hg) (FunctionMatch.mono hg)

end Keeping

/-! ## §3. Operators do not tell matching values apart. -/

section Operators

variable {S : Sight} {T : Chart} {w : S.World}

theorem ValueMatch.truthy {v v' : Value} (h : ValueMatch S T w v v') : v'.truthy = v.truthy := by
  cases h <;> rfl

theorem ValueMatch.shortCircuits {v v' : Value} (h : ValueMatch S T w v v') (op : TokenKind) :
    v'.shortCircuits op = v.shortCircuits op := by
  unfold Value.shortCircuits
  rw [h.truthy]

theorem ValueMatch.same {a a' b b' : Value} (h : ValueMatch S T w a a')
    (hb : ValueMatch S T w b b') : a'.same b' = a.same b := by
  cases h with
  | function hf =>
    obtain ⟨_, htwins, _⟩ := hf
    cases hb with
    | function hf' =>
      obtain ⟨_, htwins', _⟩ := hf'
      show (_ == _) = (_ == _)
      rw [htwins.identity, htwins'.identity]
    | _ => rfl
  | «class» hk =>
    cases hb with
    | «class» hk' =>
      show (_ == _) = (_ == _)
      rw [hk.identity, hk'.identity]
    | _ => rfl
  | _ => cases hb <;> rfl

/-- A failure that the program itself is to blame for, and not the distances
of its occurrences. -/
def Sound : RuntimeFault → Prop
  | .chainTooShort _ | .superUnresolved | .superNotClass | .thisUnresolved | .thisNotObject => False
  | _ => True

/-- Results that are the same sound failure, or values that match. -/
inductive ResultMatch (S : Sight) (T : Chart) (w : S.World) :
    Except RuntimeFault Value → Except RuntimeFault Value → Prop
  | ok {v v' : Value} (h : ValueMatch S T w v v') : ResultMatch S T w (.ok v) (.ok v')
  | error {fault : RuntimeFault} (h : Sound fault) : ResultMatch S T w (.error fault) (.error fault)

theorem ValueMatch.unary {v v' : Value} (h : ValueMatch S T w v v') (op : TokenKind) :
    ResultMatch S T w (v.unary op) (v'.unary op) := by
  cases op with
  | minus =>
    cases h with
    | number x => exact .ok (.number _)
    | _ => exact .error trivial
  | bang =>
    show ResultMatch S T w (.ok (.bool (!v.truthy))) (.ok (.bool (!v'.truthy)))
    rw [h.truthy]
    exact .ok (.bool _)
  | _ => exact .error trivial

theorem ValueMatch.add {a a' b b' : Value} (h : ValueMatch S T w a a')
    (hb : ValueMatch S T w b b') : ResultMatch S T w (a.add b) (a'.add b') := by
  cases h with
  | number x =>
    cases hb with
    | number y => exact .ok (.number _)
    | _ => exact .error trivial
  | string s =>
    cases hb with
    | string t => exact .ok (.string _)
    | _ => exact .error trivial
  | _ => exact .error trivial

theorem ValueMatch.onNumbers {f : Float → Float → Value} (hf : ∀ x y, ValueMatch S T w (f x y) (f x y))
    {a a' b b' : Value} (h : ValueMatch S T w a a') (hb : ValueMatch S T w b b') :
    ResultMatch S T w (Value.onNumbers f a b) (Value.onNumbers f a' b') := by
  cases h with
  | number x =>
    cases hb with
    | number y => exact .ok (hf x y)
    | _ => exact .error trivial
  | _ => exact .error trivial

theorem ValueMatch.binary {a a' b b' : Value} (h : ValueMatch S T w a a')
    (hb : ValueMatch S T w b b') (op : TokenKind) :
    ResultMatch S T w (a.binary op b) (a'.binary op b') := by
  unfold Value.binary
  rw [h.same hb]
  cases op with
  | plus => exact h.add hb
  | minus | star | slash => exact h.onNumbers (fun _ _ => .number _) hb
  | greater | greaterEqual | less | lessEqual => exact h.onNumbers (fun _ _ => .bool _) hb
  | equalEqual | bangEqual => exact .ok (.bool _)
  | _ => exact .error trivial

theorem ValueMatch.ofLiteral (l : Literal) : ValueMatch S T w (.ofLiteral l) (.ofLiteral l) := by
  cases l with
  | number x => exact .number x
  | string s => exact .string s
  | bool b => exact .bool b
  | nil => exact .nil

/-- Matching values are printed alike. -/
theorem ValueMatch.text {os os' : Array Object} (ho : ObjectsMatch S T w os os') {v v' : Value}
    (h : ValueMatch S T w v v') : v'.text os' = v.text os := by
  cases h with
  | function hf =>
    obtain ⟨_, htwins, _⟩ := hf
    show "<fn " ++ _ ++ ">" = "<fn " ++ _ ++ ">"
    unfold Function.name
    rw [htwins.decl]
  | «class» hk => exact hk.name
  | object id =>
    have hname : os'[id]?.map (·.cls.name) = os[id]?.map (·.cls.name) :=
      (optionRel_map (ho.object id) fun _ _ h => h.cls.name.symm).symm
    show (os'[id]?.map (·.cls.name)).getD "" ++ _ = _
    rw [hname]
    rfl
  | bool b => cases b <;> rfl
  | _ => rfl

end Operators

/-! ## §4. Objects and classes. -/

section Objects

variable {S : Sight} {T : Chart} {w : S.World}

theorem FunctionMatch.arity {f f' : Function} (h : FunctionMatch S T w f f') :
    f'.arity = f.arity := by
  obtain ⟨_, htwins, _⟩ := h
  unfold Function.arity
  rw [htwins.decl]

theorem ClassMatch.arity {k k' : Class} (h : ClassMatch S T w k k') : k'.arity = k.arity := by
  have hinit : k'.initializer?.map Function.arity = k.initializer?.map Function.arity := by
    refine (optionRel_map (h.method initializerName) ?_).symm
    rintro f f' ⟨_, htwins, _⟩
    unfold Function.arity
    rw [htwins.decl]
  unfold Class.arity
  rw [hinit]

theorem ObjectsMatch.push {os os' : Array Object} (h : ObjectsMatch S T w os os') {o o' : Object}
    (ho : ObjectMatch S T w o o') : ObjectsMatch S T w (os.push o) (os'.push o') := by
  refine ⟨by rw [Array.size_push, Array.size_push, h.size], ?_⟩
  intro id
  rw [Array.getElem?_push, Array.getElem?_push, h.size]
  by_cases hid : id = os.size
  · rw [if_pos hid, if_pos hid]
    exact .some ho
  · rw [if_neg hid, if_neg hid]
    exact h.object id

/-- Matching fields stay so when one of them gets matching values. -/
theorem ObjectMatch.setField {o o' : Object} (h : ObjectMatch S T w o o') (name : String)
    {v v' : Value} (hv : ValueMatch S T w v v') :
    ObjectMatch S T w { o with fields := o.fields.insert name v }
      { o' with fields := o'.fields.insert name v' } := by
  refine ⟨h.cls, ?_⟩
  intro other
  rw [Bindings.get?_insert, Bindings.get?_insert]
  by_cases hname : name = other
  · rw [if_pos hname, if_pos hname]
    exact .some hv
  · rw [if_neg hname, if_neg hname]
    exact h.fields other

theorem ObjectsMatch.setField {os os' : Array Object} (h : ObjectsMatch S T w os os')
    (id : ObjectId) (name : String) {v v' : Value} (hv : ValueMatch S T w v v') :
    ObjectsMatch S T w (os.modify id fun o => { o with fields := o.fields.insert name v })
      (os'.modify id fun o => { o with fields := o.fields.insert name v' }) := by
  refine ⟨by rw [Array.size_modify, Array.size_modify, h.size], ?_⟩
  intro i
  have hi := h.object i
  rw [Array.getElem?_modify, Array.getElem?_modify]
  by_cases hid : id = i
  · rw [if_pos hid, if_pos hid]
    generalize os[i]? = x at hi
    generalize os'[i]? = y at hi
    cases hi with
    | none => exact .none
    | some ho => exact .some (ho.setField name hv)
  · rw [if_neg hid, if_neg hid]
    exact hi

/-- The methods of a declaration match if their closures do. -/
theorem methodTable_match {closure closure' : ScopeId} {scopes : Scopes}
    (hs : S.sees w closure closure' scopes) (first : Identity) {methods : List (FunctionDecl Stmt)}
    (hb : BoundMethods T (thisScope :: scopes) methods) (name : String) :
    Option.Rel (MethodMatch S T w) ((Config.methodTable closure first methods).get? name)
      ((Config.methodTable closure' first methods).get? name) := by
  unfold Config.methodTable
  -- both tables are filled alike, one method at a time
  refine List.foldl_rel (r := fun table table' : Bindings Function => ∀ name,
    Option.Rel (MethodMatch S T w) (table.get? name) (table'.get? name)) (fun _ => .none) ?_ name
  rintro ⟨m, i⟩ hmem table table' htable other
  rw [Bindings.get?_insert, Bindings.get?_insert]
  by_cases hname : m.name.lexeme = other
  · rw [if_pos hname, if_pos hname]
    exact .some ⟨scopes, ⟨rfl, rfl, rfl, hs⟩, hb.mem (List.fst_mem_of_mem_zipIdx hmem)⟩
  · rw [if_neg hname, if_neg hname]
    exact htable other

/-- What a class answers with: its own method, else the one of its
superclass. -/
theorem method?_eq (k : Class) (name : String) :
    k.method? name
      = (k.methods.get? name).or (k.superclass.bind fun parent => parent.method? name) := by
  obtain ⟨identity, own, superclass, methods⟩ := k
  rw [Class.method?.eq_def]
  cases superclass with
  | none => exact (Option.or_none).symm
  | some parent => rfl

theorem ClassMatch.declared {k k' : Class} (hid : k'.identity = k.identity)
    (hname : k'.name = k.name)
    (hparent : Option.Rel (ClassMatch S T w) k.superclass k'.superclass)
    (hmethods : ∀ name, Option.Rel (MethodMatch S T w) (k.methods.get? name) (k'.methods.get? name)) :
    ClassMatch S T w k k' := by
  refine ⟨hid, hname, ?_⟩
  intro name
  rw [method?_eq, method?_eq]
  have hown := hmethods name
  generalize k.methods.get? name = x at hown
  generalize k'.methods.get? name = y at hown
  cases hown with
  | some h => exact .some h
  | none =>
    generalize k.superclass = p at hparent
    generalize k'.superclass = p' at hparent
    cases hparent with
    | none => exact .none
    | some h => exact h.method name

end Objects

/-! ## §5. The first state. -/

/-- Before a program runs, the native function is its only variable. -/
theorem get?_initial (capacity : Option Nat) (id : ScopeId) (name : String) :
    ((State.initial capacity).scopes.bindings id).get? name
      = if id = globalScope ∧ Native.clock.name = name then some (.native .clock) else none := by
  have hroot : ((Forest.root : Forest Value).bindings id).get? name = none := by
    cases id <;> rfl
  unfold State.initial
  rw [Forest.get?_define _ _ _ _ (Nat.lt_succ_self 0), hroot]

end Lox.Lockstep
