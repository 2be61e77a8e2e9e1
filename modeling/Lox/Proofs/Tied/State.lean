/-
  Lox.Proofs.Tied.State
  ─────────────────────
  **STORES OF TWO PROGRAMS THAT DIFFER IN NAMES.**

  Both programs make the same scopes and objects under the same numbers; what
  differs is how the variables of a scope are spelled.  A `World` is the store
  of the first program together with the side of each of its scopes.  A scope
  sees some static sides when its chain has a scope on each of them.

  Functions are tied when their bodies do the same in what their closures see;
  what a program can tell of a value — its text, its truth, whether it is the
  same as another — is equal for tied values.
-/
import Lox.Proofs.Tied.Code

namespace Lox

open Lockstep (Grows optionRel_imp optionRel_map)

/-! ## §1. Worlds. -/

/-- The scopes of the first program, and the side that each is on. -/
structure World where
  forest : Forest Value
  side : ScopeId → Bool

namespace World

variable {T T' : Tie}

/-- The chain of a scope goes through scopes on these sides.  At the top level
names are the same in both programs. -/
def Sees (W : World) (T : Tie) : ScopeId → List Bool → Prop
  | n, [] => n < W.forest.nextId ∧ ∀ name, T.Fixes (W.side n) name
  | n, side :: rest => W.side n = side ∧ ∃ p, W.forest.enclosing? n = some p ∧ Sees W T p rest

/-- Nothing is lost, and no scope changes its side. -/
structure Extends (W W' : World) : Prop where
  grows : Grows W.forest W'.forest
  nextId : W.forest.nextId ≤ W'.forest.nextId
  side : ∀ n < W.forest.nextId, W'.side n = W.side n

theorem Sees.lt_nextId {W : World} {n : ScopeId} {sides : List Bool} (h : W.Sees T n sides) :
    n < W.forest.nextId := by
  cases sides with
  | nil => exact h.1
  | cons side rest =>
    obtain ⟨-, p, hp, -⟩ := h
    exact Forest.lt_nextId_of_enclosing? hp

/-- Names in a scope are spelled as on the innermost side. -/
theorem Sees.spell {W : World} {n : ScopeId} {sides : List Bool} (h : W.Sees T n sides)
    (name : String) : T.spell (W.side n) name = T.spell (sides.headD false) name := by
  cases sides with
  | nil => exact h.2 name
  | cons side rest => rw [h.1, List.headD_cons]

theorem Sees.mono {W W' : World} (hW : W.Extends W') {n : ScopeId} {sides : List Bool}
    (h : W.Sees T n sides) : W'.Sees T n sides := by
  induction sides generalizing n with
  | nil =>
    refine ⟨Nat.lt_of_lt_of_le h.1 hW.nextId, ?_⟩
    rw [hW.side n h.1]
    exact h.2
  | cons side rest ih =>
    have hlt := h.lt_nextId
    obtain ⟨hside, p, hp, hrest⟩ := h
    exact ⟨(hW.side n hlt).trans hside, p, hW.grows.links n p hp, ih hrest⟩

theorem Sees.extend (hT : T.Extends T') {W : World} {n : ScopeId} {sides : List Bool}
    (h : W.Sees T n sides) : W.Sees T' n sides := by
  induction sides generalizing n with
  | nil => exact ⟨h.1, fun name => (h.2 name).extend hT⟩
  | cons side rest ih =>
    obtain ⟨hside, p, hp, hrest⟩ := h
    exact ⟨hside, p, hp, ih hrest⟩

/-- **A distance that stays within the sides leads to a scope on the side
there.** -/
theorem Sees.ancestor? {W : World} {n : ScopeId} {sides : List Bool} (h : W.Sees T n sides) {d : Nat}
    {side : Bool} (hd : sides[d]? = some side) :
    ∃ a, W.forest.ancestor? n d = some a ∧ W.side a = side := by
  induction sides generalizing n d with
  | nil => simp at hd
  | cons first rest ih =>
    obtain ⟨hside, p, hp, hrest⟩ := h
    cases d with
    | zero =>
      cases hd
      exact ⟨n, rfl, hside⟩
    | succ d =>
      obtain ⟨a, ha, haside⟩ := ih hrest hd
      refine ⟨a, ?_, haside⟩
      show (W.forest.enclosing? n).bind _ = some a
      rw [hp]
      exact ha

theorem Extends.trans {W W' W'' : World} (h : W.Extends W') (h' : W'.Extends W'') :
    W.Extends W'' := by
  refine ⟨?_, Nat.le_trans h.nextId h'.nextId, ?_⟩
  · exact ⟨fun id p hp => h'.grows.links id p (h.grows.links id p hp),
      fun id name hb => h'.grows.binds id name (h.grows.binds id name hb)⟩
  · intro n hn
    rw [h'.side n (Nat.lt_of_lt_of_le hn h.nextId), h.side n hn]

/-- The world after a new scope on a side. -/
def child (W : World) (parent : ScopeId) (b : Bindings Value) (side : Bool) : World where
  forest := W.forest.child parent b
  side n := if n = W.forest.nextId then side else W.side n

theorem child_side_of_lt (W : World) (parent : ScopeId) (b : Bindings Value) (side : Bool)
    {n : ScopeId} (h : n < W.forest.nextId) : (W.child parent b side).side n = W.side n :=
  if_neg (Nat.ne_of_lt h)

theorem extends_child (W : World) (parent : ScopeId) (b : Bindings Value) (side : Bool) :
    W.Extends (W.child parent b side) := by
  refine ⟨Lockstep.grows_child W.forest parent b, ?_, ?_⟩
  · exact Nat.le_of_lt (Forest.nextId_lt_child W.forest parent b)
  · exact fun n hn => W.child_side_of_lt parent b side hn

/-- The new scope sees its side and what its parent sees. -/
theorem Sees.child {W : World} {parent : ScopeId} {sides : List Bool} (h : W.Sees T parent sides)
    (b : Bindings Value) (side : Bool) :
    (W.child parent b side).Sees T W.forest.nextId (side :: sides) := by
  refine ⟨if_pos rfl, parent, ?_, h.mono (W.extends_child parent b side)⟩
  exact Forest.enclosing?_child_self W.forest parent b h.lt_nextId

/-- The world after a variable got a value. -/
def define (W : World) (n : ScopeId) (name : String) (v : Value) : World where
  forest := W.forest.define n name v
  side := W.side

theorem extends_define (W : World) (n : ScopeId) (name : String) (v : Value) :
    W.Extends (W.define n name v) := by
  refine ⟨Lockstep.grows_define W.forest n name v, ?_, fun _ _ => rfl⟩
  exact Nat.le_of_eq (Forest.nextId_define W.forest n name v).symm

end World

/-! ## §2. Values. -/

section Values

variable (T : Tie) (W : World)

/-- Functions that the same declaration made, up to names, in the same scope. -/
structure TiedClosure (f f' : Function) : Prop where
  identity : f'.identity = f.identity
  closure : f'.closure = f.closure
  isInitializer : f'.isInitializer = f.isInitializer

/-- Functions whose bodies do the same in what their closure sees. -/
def FunctionTied (f f' : Function) : Prop :=
  TiedClosure f f' ∧ ∃ sides, W.Sees T f.closure sides ∧ TiedFunction T sides f.decl f'.decl

/-- Methods whose bodies do the same once an object is bound. -/
def MethodTied (f f' : Function) : Prop :=
  TiedClosure f f' ∧ ∃ sides, W.Sees T f.closure sides ∧ TiedFunction T (false :: sides) f.decl f'.decl

/-- Classes that answer with tied methods. -/
structure ClassTied (k k' : Class) : Prop where
  identity : k'.identity = k.identity
  name : k'.name = k.name
  method : ∀ name, Option.Rel (MethodTied T W) (k.method? name) (k'.method? name)

/-- Values that both programs treat alike. -/
inductive ValueTied : Value → Value → Prop
  | nil : ValueTied .nil .nil
  | bool (b : Bool) : ValueTied (.bool b) (.bool b)
  | number (x : Float) : ValueTied (.number x) (.number x)
  | string (s : String) : ValueTied (.string s) (.string s)
  | native (n : Native) : ValueTied (.native n) (.native n)
  | function {f f' : Function} (h : FunctionTied T W f f') : ValueTied (.function f) (.function f')
  | class {k k' : Class} (h : ClassTied T W k k') : ValueTied (.class k) (.class k')
  | object (id : ObjectId) : ValueTied (.object id) (.object id)

/-- Objects of tied classes with tied fields. -/
structure ObjectTied (o o' : Object) : Prop where
  cls : ClassTied T W o.cls o'.cls
  fields : ∀ name, Option.Rel (ValueTied T W) (o.fields.get? name) (o'.fields.get? name)

/-- Objects that are tied at every place. -/
structure ObjectsTied (os os' : Array Object) : Prop where
  size : os'.size = os.size
  object : ∀ id : ObjectId, Option.Rel (ObjectTied T W) os[id]? os'[id]?

end Values

section Keeping

variable {T T' : Tie} {W W' : World}

/-- What functions and methods keep, all classes keep. -/
theorem ClassTied.imp (hm : ∀ f f', MethodTied T W f f' → MethodTied T' W' f f') {k k' : Class}
    (h : ClassTied T W k k') : ClassTied T' W' k k' :=
  ⟨h.identity, h.name, fun name => optionRel_imp hm (h.method name)⟩

theorem ValueTied.imp (hm : ∀ f f', MethodTied T W f f' → MethodTied T' W' f f')
    (hf : ∀ f f', FunctionTied T W f f' → FunctionTied T' W' f f') {v v' : Value}
    (h : ValueTied T W v v') : ValueTied T' W' v v' := by
  cases h with
  | nil => exact .nil
  | bool b => exact .bool b
  | number x => exact .number x
  | string s => exact .string s
  | native n => exact .native n
  | function h => exact .function (hf _ _ h)
  | «class» h => exact .class (h.imp hm)
  | object id => exact .object id

theorem ObjectsTied.imp (hm : ∀ f f', MethodTied T W f f' → MethodTied T' W' f f')
    (hf : ∀ f f', FunctionTied T W f f' → FunctionTied T' W' f f') {os os' : Array Object}
    (h : ObjectsTied T W os os') : ObjectsTied T' W' os os' := by
  refine ⟨h.size, fun id => optionRel_imp ?_ (h.object id)⟩
  intro o o' ho
  exact ⟨ho.cls.imp hm, fun name => optionRel_imp (fun _ _ => .imp hm hf) (ho.fields name)⟩

theorem FunctionTied.mono (hW : W.Extends W') (f f' : Function) (h : FunctionTied T W f f') :
    FunctionTied T W' f f' := by
  obtain ⟨hclosure, sides, hsees, hdecl⟩ := h
  exact ⟨hclosure, sides, hsees.mono hW, hdecl⟩

theorem MethodTied.mono (hW : W.Extends W') (f f' : Function) (h : MethodTied T W f f') :
    MethodTied T W' f f' := by
  obtain ⟨hclosure, sides, hsees, hdecl⟩ := h
  exact ⟨hclosure, sides, hsees.mono hW, hdecl⟩

theorem ClassTied.mono (hW : W.Extends W') {k k' : Class} (h : ClassTied T W k k') :
    ClassTied T W' k k' :=
  h.imp (MethodTied.mono hW)

/-- **Tied values stay tied** while the stores grow. -/
theorem ValueTied.mono (hW : W.Extends W') {v v' : Value} (h : ValueTied T W v v') :
    ValueTied T W' v v' :=
  h.imp (MethodTied.mono hW) (FunctionTied.mono hW)

theorem ObjectsTied.mono (hW : W.Extends W') {os os' : Array Object} (h : ObjectsTied T W os os') :
    ObjectsTied T W' os os' :=
  h.imp (MethodTied.mono hW) (FunctionTied.mono hW)

theorem FunctionTied.extend (hT : T.Extends T') (f f' : Function) (h : FunctionTied T W f f') :
    FunctionTied T' W f f' := by
  obtain ⟨hclosure, sides, hsees, hdecl⟩ := h
  exact ⟨hclosure, sides, hsees.extend hT, hdecl.extend hT⟩

theorem MethodTied.extend (hT : T.Extends T') (f f' : Function) (h : MethodTied T W f f') :
    MethodTied T' W f f' := by
  obtain ⟨hclosure, sides, hsees, hdecl⟩ := h
  exact ⟨hclosure, sides, hsees.extend hT, hdecl.extend hT⟩

theorem ValueTied.extend (hT : T.Extends T') {v v' : Value} (h : ValueTied T W v v') :
    ValueTied T' W v v' :=
  h.imp (MethodTied.extend hT) (FunctionTied.extend hT)

theorem ObjectsTied.extend (hT : T.Extends T') {os os' : Array Object}
    (h : ObjectsTied T W os os') : ObjectsTied T' W os os' :=
  h.imp (MethodTied.extend hT) (FunctionTied.extend hT)

end Keeping

/-! ## §3. What a program can tell of a value. -/

section Telling

variable {T : Tie} {W : World}

theorem TiedFunction.name_eq {sides : List Bool} {d d' : FunctionDecl Stmt}
    (h : TiedFunction T sides d d') : d'.name = d.name := by
  obtain ⟨name, params, body⟩ := d
  obtain ⟨side, params', body', rfl, -, -⟩ := h
  rfl

theorem TiedFunction.length_params {sides : List Bool} {d d' : FunctionDecl Stmt}
    (h : TiedFunction T sides d d') : d'.params.length = d.params.length := by
  obtain ⟨name, params, body⟩ := d
  obtain ⟨side, params', body', rfl, hparams, -⟩ := h
  exact hparams.length_eq.symm

theorem FunctionTied.arity {f f' : Function} (h : FunctionTied T W f f') : f'.arity = f.arity := by
  obtain ⟨-, sides, -, hdecl⟩ := h
  exact hdecl.length_params

theorem ClassTied.arity {k k' : Class} (h : ClassTied T W k k') : k'.arity = k.arity := by
  have hinit : k'.initializer?.map Function.arity = k.initializer?.map Function.arity := by
    refine (optionRel_map (h.method initializerName) ?_).symm
    rintro f f' ⟨-, sides, -, hdecl⟩
    exact hdecl.length_params.symm
  unfold Class.arity
  rw [hinit]

theorem ValueTied.truthy {v v' : Value} (h : ValueTied T W v v') : v'.truthy = v.truthy := by
  cases h <;> rfl

theorem ValueTied.shortCircuits {v v' : Value} (h : ValueTied T W v v') (op : TokenKind) :
    v'.shortCircuits op = v.shortCircuits op := by
  unfold Value.shortCircuits
  rw [h.truthy]

theorem ValueTied.same {a a' b b' : Value} (h : ValueTied T W a a') (hb : ValueTied T W b b') :
    a'.same b' = a.same b := by
  cases h with
  | function hf =>
    cases hb with
    | function hf' =>
      show (_ == _) = (_ == _)
      rw [hf.1.identity, hf'.1.identity]
    | _ => rfl
  | «class» hk =>
    cases hb with
    | «class» hk' =>
      show (_ == _) = (_ == _)
      rw [hk.identity, hk'.identity]
    | _ => rfl
  | _ => cases hb <;> rfl

/-- Tied values are printed alike. -/
theorem ValueTied.text {os os' : Array Object} (ho : ObjectsTied T W os os') {v v' : Value}
    (h : ValueTied T W v v') : v'.text os' = v.text os := by
  cases h with
  | function hf =>
    obtain ⟨-, sides, -, hdecl⟩ := hf
    show "<fn " ++ _ ++ ">" = "<fn " ++ _ ++ ">"
    unfold Function.name
    rw [hdecl.name_eq]
  | «class» hk => exact hk.name
  | object id =>
    have hname : os'[id]?.map (·.cls.name) = os[id]?.map (·.cls.name) :=
      (optionRel_map (ho.object id) fun _ _ h => h.cls.name.symm).symm
    show (os'[id]?.map (·.cls.name)).getD "" ++ _ = _
    rw [hname]
    rfl
  | bool b => cases b <;> rfl
  | _ => rfl

/-- A failure that is not about an undefined variable. -/
def RuntimeFault.Nameless (fault : RuntimeFault) : Prop :=
  ∀ name, Ordinary name → fault ≠ .undefinedVariable name

/-- `this` and `super` are no variables that can be declared. -/
theorem RuntimeFault.nameless_undefined {name : String} (h : ¬ Ordinary name) :
    (RuntimeFault.undefinedVariable name).Nameless := by
  rintro other hordinary ⟨⟩
  exact h hordinary

/-- **Failures on a line that differ at most in how a variable is spelled.**  A
variable that is undefined is spelled as in the occurrence that is to blame. -/
inductive FaultTied (T : Tie) (line : Nat) : RuntimeFault → RuntimeFault → Prop
  | same {fault : RuntimeFault} (h : fault.Nameless) : FaultTied T line fault fault
  | undefined {o o' : Occurrence} (h : T.blames o o') (hline : o.name.line = line) :
      FaultTied T line (.undefinedVariable o.name.lexeme) (.undefinedVariable o'.name.lexeme)

/-- Results that are tied values or tied failures. -/
inductive ResultTied (T : Tie) (W : World) (line : Nat) :
    Except RuntimeFault Value → Except RuntimeFault Value → Prop
  | ok {v v' : Value} (h : ValueTied T W v v') : ResultTied T W line (.ok v) (.ok v')
  | error {fault fault' : RuntimeFault} (h : FaultTied T line fault fault') :
      ResultTied T W line (.error fault) (.error fault')

/-- What a variable is found to be under its two names: tied values, or missing
in both programs. -/
inductive FoundTied (T : Tie) (W : World) (name name' : String) :
    Except RuntimeFault Value → Except RuntimeFault Value → Prop
  | found {v v' : Value} (h : ValueTied T W v v') : FoundTied T W name name' (.ok v) (.ok v')
  | missing : FoundTied T W name name' (.error (.undefinedVariable name))
      (.error (.undefinedVariable name'))

variable {line : Nat}

/-- A variable that is missing is a failure. -/
theorem FoundTied.result {name name' : String} {r r' : Except RuntimeFault Value}
    (h : FoundTied T W name name' r r')
    (hmissing : r = .error (.undefinedVariable name) → r' = .error (.undefinedVariable name') →
      FaultTied T line (.undefinedVariable name) (.undefinedVariable name')) :
    ResultTied T W line r r' := by
  cases h with
  | found hv => exact .ok hv
  | missing => exact .error (hmissing rfl rfl)

theorem ResultTied.fails {fault : RuntimeFault} (h : fault.Nameless) :
    ResultTied T W line (.error fault) (.error fault) :=
  .error (.same h)

theorem ValueTied.unary {v v' : Value} (h : ValueTied T W v v') (op : TokenKind) :
    ResultTied T W line (v.unary op) (v'.unary op) := by
  cases op with
  | minus =>
    cases h with
    | number x => exact .ok (.number _)
    | _ => exact .fails nofun
  | bang =>
    show ResultTied T W line (.ok (.bool (!v.truthy))) (.ok (.bool (!v'.truthy)))
    rw [h.truthy]
    exact .ok (.bool _)
  | _ => exact .fails nofun

theorem ValueTied.add {a a' b b' : Value} (h : ValueTied T W a a') (hb : ValueTied T W b b') :
    ResultTied T W line (a.add b) (a'.add b') := by
  cases h with
  | number x =>
    cases hb with
    | number y => exact .ok (.number _)
    | _ => exact .fails nofun
  | string s =>
    cases hb with
    | string t => exact .ok (.string _)
    | _ => exact .fails nofun
  | _ => exact .fails nofun

theorem ValueTied.onNumbers {f : Float → Float → Value} (hf : ∀ x y, ValueTied T W (f x y) (f x y))
    {a a' b b' : Value} (h : ValueTied T W a a') (hb : ValueTied T W b b') :
    ResultTied T W line (Value.onNumbers f a b) (Value.onNumbers f a' b') := by
  cases h with
  | number x =>
    cases hb with
    | number y => exact .ok (hf x y)
    | _ => exact .fails nofun
  | _ => exact .fails nofun

theorem ValueTied.binary {a a' b b' : Value} (h : ValueTied T W a a') (hb : ValueTied T W b b')
    (op : TokenKind) : ResultTied T W line (a.binary op b) (a'.binary op b') := by
  unfold Value.binary
  rw [h.same hb]
  cases op with
  | plus => exact h.add hb
  | minus | star | slash => exact h.onNumbers (fun _ _ => .number _) hb
  | greater | greaterEqual | less | lessEqual => exact h.onNumbers (fun _ _ => .bool _) hb
  | equalEqual | bangEqual => exact .ok (.bool _)
  | _ => exact .fails nofun

theorem ValueTied.ofLiteral (l : Literal) : ValueTied T W (.ofLiteral l) (.ofLiteral l) := by
  cases l with
  | number x => exact .number x
  | string s => exact .string s
  | bool b => exact .bool b
  | nil => exact .nil

end Telling

/-! ## §4. Objects. -/

section Objects

variable {T : Tie} {W : World} {os os' : Array Object}

theorem ObjectsTied.push (h : ObjectsTied T W os os') {o o' : Object} (ho : ObjectTied T W o o') :
    ObjectsTied T W (os.push o) (os'.push o') := by
  refine ⟨by rw [Array.size_push, Array.size_push, h.size], ?_⟩
  intro id
  rw [Array.getElem?_push, Array.getElem?_push, h.size]
  by_cases hid : id = os.size
  · rw [if_pos hid, if_pos hid]
    exact .some ho
  · rw [if_neg hid, if_neg hid]
    exact h.object id

theorem ObjectTied.setField {o o' : Object} (h : ObjectTied T W o o') (name : String)
    {v v' : Value} (hv : ValueTied T W v v') :
    ObjectTied T W { o with fields := o.fields.insert name v }
      { o' with fields := o'.fields.insert name v' } := by
  refine ⟨h.cls, ?_⟩
  intro other
  rw [Bindings.get?_insert, Bindings.get?_insert]
  by_cases hname : name = other
  · rw [if_pos hname, if_pos hname]
    exact .some hv
  · rw [if_neg hname, if_neg hname]
    exact h.fields other

theorem ObjectsTied.setField (h : ObjectsTied T W os os') (id : ObjectId) (name : String)
    {v v' : Value} (hv : ValueTied T W v v') :
    ObjectsTied T W (os.modify id fun o => { o with fields := o.fields.insert name v })
      (os'.modify id fun o => { o with fields := o.fields.insert name v' }) := by
  refine ⟨by rw [Array.size_modify, Array.size_modify, h.size], ?_⟩
  intro i
  have hi := h.object i
  rw [Array.getElem?_modify, Array.getElem?_modify]
  by_cases hid : id = i
  · rw [if_pos hid, if_pos hid]
    generalize os[i]? = x at hi
    generalize os'[i]? = y at hi
    cases hi with
    | none => exact .none
    | some ho => exact .some (ho.setField name hv)
  · rw [if_neg hid, if_neg hid]
    exact hi

end Objects

/-! ## §5. Variables. -/

/-- Variables of a scope on a side, and their counterparts in the same order. -/
def BindingsTied (T : Tie) (W : World) (side : Bool) (b b' : Bindings Value) : Prop :=
  List.Forall₂ (fun p p' => p'.1 = T.spell side p.1 ∧ ValueTied T W p.2 p'.2) b b'

/-- **Stores of one shape whose variables are tied**, each scope spelled as its
side says. -/
structure StoreTied (T : Tie) (W : World) (F' : Forest Value) : Prop where
  root : globalScope < W.forest.nextId
  global : W.side globalScope = false
  nextId : F'.nextId = W.forest.nextId
  links : ∀ id, F'.enclosing? id = W.forest.enclosing? id
  values : ∀ id, BindingsTied T W (W.side id) (W.forest.bindings id) (F'.bindings id)

section Variables

variable {T : Tie} {W : World} {F' : Forest Value}

theorem BindingsTied.mono {W' : World} (hW : W.Extends W') {side : Bool} {b b' : Bindings Value}
    (h : BindingsTied T W side b b') : BindingsTied T W' side b b' :=
  List.Forall₂.imp (fun _ _ hp => ⟨hp.1, hp.2.mono hW⟩) h

theorem BindingsTied.extend {T' : Tie} (hT : T.Extends T') {side : Bool} {b b' : Bindings Value}
    (h : BindingsTied T W side b b') : BindingsTied T' W side b b' :=
  List.Forall₂.imp (fun _ _ hp => ⟨hp.1.trans (hT.spell side _).symm, hp.2.extend hT⟩) h

/-- **A variable has a value in both, or in none.** -/
theorem BindingsTied.get? {side : Bool} {b b' : Bindings Value} (h : BindingsTied T W side b b')
    (name : String) : Option.Rel (ValueTied T W) (b.get? name) (b'.get? (T.spell side name)) := by
  induction h with
  | nil => exact .none
  | @cons p p' _ _ hp _ ih =>
    obtain ⟨key, v⟩ := p
    obtain ⟨key', v'⟩ := p'
    obtain ⟨rfl, hv⟩ := hp
    rw [Bindings.get?, Bindings.get?]
    by_cases hkey : key = name
    · rw [if_pos hkey, if_pos (congrArg (T.spell side) hkey)]
      exact .some hv
    · rw [if_neg hkey, if_neg (mt T.spell_injective hkey)]
      exact ih

theorem BindingsTied.binds {side : Bool} {b b' : Bindings Value} (h : BindingsTied T W side b b')
    (name : String) : b'.binds (T.spell side name) = b.binds name := by
  have hrel := h.get? name
  unfold Bindings.binds
  generalize b.get? name = x at hrel
  generalize b'.get? (T.spell side name) = y at hrel
  cases hrel <;> rfl

theorem BindingsTied.names {side : Bool} {b b' : Bindings Value} (h : BindingsTied T W side b b') :
    b'.names = b.names.map (T.spell side) := by
  induction h with
  | nil => rfl
  | cons hp _ ih =>
    show _ :: _ = _ :: _
    rw [hp.1]
    exact congrArg _ ih

theorem BindingsTied.insert {side : Bool} {b b' : Bindings Value} (h : BindingsTied T W side b b')
    (name : String) {v v' : Value} (hv : ValueTied T W v v') :
    BindingsTied T W side (b.insert name v) (b'.insert (T.spell side name) v') := by
  induction h with
  | nil => exact .cons ⟨rfl, hv⟩ .nil
  | @cons p p' _ _ hp hrest ih =>
    obtain ⟨key, old⟩ := p
    obtain ⟨key', old'⟩ := p'
    obtain ⟨rfl, hold⟩ := hp
    rw [Bindings.insert, Bindings.insert]
    by_cases hkey : key = name
    · rw [if_pos hkey, if_pos (congrArg (T.spell side) hkey)]
      exact .cons ⟨rfl, hv⟩ hrest
    · rw [if_neg hkey, if_neg (mt T.spell_injective hkey)]
      exact .cons ⟨rfl, hold⟩ ih

theorem bindingsTied_nil (side : Bool) : BindingsTied T W side [] [] :=
  .nil

theorem bindingsTied_this (id : ObjectId) :
    BindingsTied T W false [("this", .object id)] [("this", .object id)] :=
  (bindingsTied_nil false).insert "this" (.object id)

theorem bindingsTied_super {k k' : Class} (h : ClassTied T W k k') :
    BindingsTied T W false [("super", .class k)] [("super", .class k')] :=
  (bindingsTied_nil false).insert "super" (.class h)

/-- **The scope of a call**: parameters are spelled as its side says. -/
theorem bindingsTied_parameters {side : Bool} {sides : List Bool} {params params' : List Token}
    (hp : List.Forall₂ (T.Declares (side :: sides)) params params') {vs vs' : List Value}
    (hv : List.Forall₂ (ValueTied T W) vs vs') :
    BindingsTied T W side (Config.parameters params vs) (Config.parameters params' vs') := by
  -- both sets of variables are filled one parameter at a time
  have hfold : ∀ (b b' : Bindings Value), BindingsTied T W side b b' →
      BindingsTied T W side ((params.zip vs).foldl (fun b p => b.insert p.1.lexeme p.2) b)
        ((params'.zip vs').foldl (fun b p => b.insert p.1.lexeme p.2) b') := by
    induction hp generalizing vs vs' with
    | nil => exact fun b b' hb => hb
    | @cons t t' params params' ht _ ih =>
      intro b b' hb
      cases hv with
      | nil => exact hb
      | @cons v v' vs vs' h hrest =>
        rw [List.zip_cons_cons, List.zip_cons_cons, List.foldl_cons, List.foldl_cons]
        refine ih hrest _ _ ?_
        have hname : t'.lexeme = T.spell side t.lexeme := ht
        dsimp only
        rw [hname]
        exact hb.insert t.lexeme h
  exact hfold [] [] (bindingsTied_nil side)

theorem StoreTied.ancestor? (h : StoreTied T W F') (n : ScopeId) (d : Nat) :
    F'.ancestor? n d = W.forest.ancestor? n d := by
  induction d generalizing n with
  | zero => rfl
  | succ d ih =>
    show (F'.enclosing? n).bind _ = (W.forest.enclosing? n).bind _
    rw [h.links n]
    cases W.forest.enclosing? n with
    | none => rfl
    | some p => exact ih p

theorem StoreTied.extend {T' : Tie} (hT : T.Extends T') (h : StoreTied T W F') :
    StoreTied T' W F' :=
  ⟨h.root, h.global, h.nextId, h.links, fun id => (h.values id).extend hT⟩

/-- A new scope on a side. -/
theorem StoreTied.child (h : StoreTied T W F') (parent : ScopeId) {side : Bool}
    {b b' : Bindings Value} (hb : BindingsTied T W side b b') :
    StoreTied T (W.child parent b side) (F'.child parent b') := by
  have hW := W.extends_child parent b side
  refine ⟨?_, ?_, ?_, ?_, ?_⟩
  · exact Nat.lt_of_lt_of_le h.root hW.nextId
  · exact (hW.side globalScope h.root).trans h.global
  · show _ = (W.forest.child parent b).nextId
    rw [Forest.nextId_child, Forest.nextId_child, h.nextId]
  · intro id
    show _ = (W.forest.child parent b).enclosing? id
    rw [Forest.enclosing?_child, Forest.enclosing?_child, h.nextId, h.links id]
  · intro id
    show BindingsTied T _ ((W.child parent b side).side id) ((W.forest.child parent b).bindings id) _
    rw [Forest.bindings_child, Forest.bindings_child, h.nextId]
    by_cases hid : id = W.forest.nextId
    · have hside : (W.child parent b side).side id = side := if_pos hid
      rw [if_pos hid, if_pos hid, hside]
      exact hb.mono hW
    · have hside : (W.child parent b side).side id = W.side id := if_neg hid
      rw [if_neg hid, if_neg hid, hside]
      exact (h.values id).mono hW

/-- A variable gets tied values. -/
theorem StoreTied.define (h : StoreTied T W F') {n : ScopeId} (hn : n < W.forest.nextId)
    (name : String) {v v' : Value} (hv : ValueTied T W v v') :
    StoreTied T (W.define n name v) (F'.define n (T.spell (W.side n) name) v') := by
  have hW := W.extends_define n name v
  have hn' : n < F'.nextId := by
    rw [h.nextId]
    exact hn
  refine ⟨?_, h.global, ?_, ?_, ?_⟩
  · exact Nat.lt_of_lt_of_le h.root hW.nextId
  · show _ = (W.forest.define n name v).nextId
    rw [Forest.nextId_define, Forest.nextId_define, h.nextId]
  · intro id
    show _ = (W.forest.define n name v).enclosing? id
    rw [Forest.enclosing?_define, Forest.enclosing?_define, h.links id]
  · intro id
    show BindingsTied T _ (W.side id) ((W.forest.define n name v).bindings id) _
    by_cases hid : id = n
    · subst hid
      rw [Forest.bindings_define_self W.forest id name v hn,
        Forest.bindings_define_self F' id _ v' hn']
      exact ((h.values id).mono hW).insert name (hv.mono hW)
    · rw [Forest.bindings_define_of_ne W.forest n name v hid,
        Forest.bindings_define_of_ne F' n _ v' hid]
      exact (h.values id).mono hW

end Variables

end Lox
