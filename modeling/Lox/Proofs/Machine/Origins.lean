/-
  Lox.Proofs.Machine.Origins
  ──────────────────────────
  **WHERE THE SCOPE OF `super` COMES FROM.**

  Scopes are made and never taken away, and once made, neither the links of a
  scope nor its `this` and `super` change (`Forest.Lasts`).  So a use of
  `super` can be followed from its place in the program text to the
  declaration that made its scope: at every point of a run, all code that is
  about to be executed, that waits in frames or that functions and methods
  hold has each use of `super` at a known distance from a scope that the
  declaration of its class made, and the nearest `this` is just inside that
  scope (`Config.Sourced`).

  Main results:
    * `Sourced.step`: every step keeps the uses of `super` where they belong.
    * `Sourced.superMethod`: what a use of `super` yields.
-/
import Lox.Proofs.Machine.Layout
import Lox.Proofs.Machine.Moves
import Lox.Proofs.Resolve.Supers

namespace Lox

open Lockstep Resolve

/-! ## §1. What lasts. -/

/-- Scopes stay, and so do their links and what `this` and `super` are. -/
structure Forest.Lasts (F F' : Forest Value) : Prop where
  nextId : F.nextId ≤ F'.nextId
  links : ∀ n < F.nextId, F'.enclosing? n = F.enclosing? n
  reserved : ∀ n < F.nextId, ∀ name, ¬ Ordinary name →
    (F'.bindings n).get? name = (F.bindings n).get? name

namespace Forest

variable {F F' F'' : Forest Value}

theorem Lasts.refl (F : Forest Value) : F.Lasts F :=
  ⟨Nat.le_refl _, fun _ _ => rfl, fun _ _ _ _ => rfl⟩

theorem Lasts.trans (h : F.Lasts F') (h' : F'.Lasts F'') : F.Lasts F'' := by
  have hlt : ∀ n < F.nextId, n < F'.nextId := fun n hn => Nat.lt_of_lt_of_le hn h.nextId
  refine ⟨Nat.le_trans h.nextId h'.nextId, ?_, ?_⟩
  · exact fun n hn => (h'.links n (hlt n hn)).trans (h.links n hn)
  · exact fun n hn name hname =>
      (h'.reserved n (hlt n hn) name hname).trans (h.reserved n hn name hname)

theorem lasts_child (F : Forest Value) (n : ScopeId) (b : Bindings Value) :
    F.Lasts (F.child n b) := by
  refine ⟨?_, fun m hm => enclosing?_child_of_lt F n b hm, ?_⟩
  · exact Nat.le_of_lt (nextId_lt_child F n b)
  · intro m hm name _
    rw [bindings_child_of_lt F n b hm]

/-- Only ordinary names get new values. -/
theorem lasts_define (F : Forest Value) (n : ScopeId) {name : String} (hname : Ordinary name)
    (v : Value) : F.Lasts (F.define n name v) := by
  refine ⟨Nat.le_of_eq (nextId_define F n name v).symm,
    fun m _ => enclosing?_define F n name v m, ?_⟩
  intro m hm other hother
  by_cases hmn : m = n
  · subst hmn
    rw [bindings_define_self F m name v hm, Bindings.get?_insert,
      if_neg (ne_of_ordinary hname hother)]
  · rw [bindings_define_of_ne F n name v hmn]

theorem Lasts.ancestor? (h : F.Lasts F') {n : ScopeId} (hn : n < F.nextId) (d : Nat) :
    F'.ancestor? n d = F.ancestor? n d := by
  induction d generalizing n with
  | zero => rfl
  | succ d ih =>
    rw [Forest.ancestor?, Forest.ancestor?, h.links n hn]
    cases hp : F.enclosing? n with
    | none => rfl
    | some p => exact ih (Nat.lt_trans (enclosing?_lt hp) hn)

/-- The nearest `this` and the nearest `super` stay where they are. -/
theorem Lasts.holder? (h : F.Lasts F') {name : String} (hname : ¬ Ordinary name) {n : ScopeId}
    (hn : n < F.nextId) : F'.holder? name n = F.holder? name n := by
  induction n using Nat.strongRecOn with
  | ind n ih =>
    rw [holder?_eq, holder?_eq, h.links n hn]
    unfold Bindings.binds
    rw [h.reserved n hn name hname]
    cases hp : F.enclosing? n with
    | none => rfl
    | some p =>
      have hlt : p < n := enclosing?_lt hp
      rw [Option.bind_some, Option.bind_some, ih p hlt (Nat.lt_trans hlt hn)]

theorem lt_nextId_of_holder? {name : String} {n a : ScopeId} (h : F.holder? name n = some a) :
    n < F.nextId := by
  rw [holder?_eq] at h
  split at h
  · next hbinds =>
    obtain ⟨v, hv⟩ := (Bindings.binds_iff _ _).mp hbinds
    exact lt_nextId_of_get? hv
  · obtain ⟨p, hp, -⟩ := Option.bind_eq_some_iff.mp h
    exact lt_nextId_of_enclosing? hp

end Forest

/-- A class that is declared only gives its name a value. -/
theorem lasts_declaringClass (control : Control) (rest : List Frame) (s : State) {name : Token}
    (hname : Ordinary name.lexeme) (parent : Option Class) (methods : List (FunctionDecl Stmt)) :
    (declaringState s parent methods).scopes.Lasts
      (Config.declaringClass ⟨control, rest, s⟩ name parent methods).state.scopes := by
  cases htarget : (declaringState s parent methods).scopes.target
      (declaringState s parent methods).scope name.lexeme with
  | ok a =>
    rw [declaringClass_eq htarget]
    exact Forest.lasts_define _ _ hname _
  | error fault =>
    rw [declaringClass_error htarget]
    exact .refl _

/-- **No step undoes a scope**, a link, a `this` or a `super`. -/
theorem Config.Moves.lasts {K : Trait} (hK : ∀ name, K.Names name → Ordinary name) {c c' : Config}
    (h : Moves K c c') : c.state.scopes.Lasts c'.state.scopes := by
  have hdeclares {st : Stmt} {t : Token} (hcode : K.code (.stmt st)) (ht : st.declared? = some t) :
      Ordinary t.lexeme := hK _ (.inl ⟨st, t, hcode, ht, rfl⟩)
  cases h with
  | on _ _ _ _ hscopes =>
    rcases hscopes with hsame | ⟨a, name, v, hchanged, hname⟩
    · dsimp only
      rw [hsame]
      exact .refl _
    · dsimp only
      rw [hchanged]
      exact Forest.lasts_define _ _ (hK name hname) _
  | function hcode => exact Forest.lasts_define _ _ (hdeclares hcode rfl) _
  | bind => exact Forest.lasts_child _ _ _
  | call => exact Forest.lasts_child _ _ _
  | make => exact (Forest.lasts_child _ _ _).trans (Forest.lasts_child _ _ _)
  | @plain name methods rest s hcode =>
    have hname : Ordinary name.lexeme := hdeclares hcode rfl
    exact (Forest.lasts_define _ _ hname _).trans
      (lasts_declaringClass _ rest (s.define s.scope name.lexeme .nil) hname none methods)
  | parent hcode => exact Forest.lasts_define _ _ (hdeclares hcode rfl) _
  | @derived k name o methods rest s _ hcode =>
    -- the scope that holds the superclass is made first
    have hopen : s.scopes.Lasts (declaringState s (some k) methods).scopes :=
      Forest.lasts_child _ _ _
    exact hopen.trans (lasts_declaringClass _ rest s (hdeclares hcode rfl) (some k) methods)
  | block => exact Forest.lasts_child _ _ _
  | leave => exact .refl _
  | ended => exact .refl _

/-! ## §2. What has happened so far. -/

/-- A class declaration with these methods looks up the name of its
superclass, which stands for a class. -/
def Config.Inherits (g : Setting) (p : Config) (methods : List (FunctionDecl Stmt)) (S : Class) :
    Prop :=
  ∃ name parent rest, p.control = .eval (.variable parent)
    ∧ p.frames = .superclass name parent methods :: rest
    ∧ lookUp g p.state parent = .ok (.class S)

/-- Two steps later the class is declared with this superclass. -/
theorem Config.Inherits.declares {g : Setting} {p : Config} {methods : List (FunctionDecl Stmt)}
    {S : Class} (h : p.Inherits g methods S) :
    ∃ name rest, (p.step g).step g
      = declaringClass ⟨.value (.class S), rest, p.state⟩ name (some S) methods := by
  obtain ⟨control, frames, s⟩ := p
  obtain ⟨name, parent, rest, rfl, rfl, hlook⟩ := h
  refine ⟨name, rest, ?_⟩
  have hfound : Config.step g ⟨.eval (.variable parent), .superclass name parent methods :: rest, s⟩
      = ⟨.value (.class S), .superclass name parent methods :: rest, s⟩ := by
    show settling _ _ (lookUp g s parent) = _
    rw [hlook]
    rfl
  rw [hfound]
  rfl

/-- The points that runs have passed, the distances that are known, and the
scopes. -/
structure Story where
  past : Setting → Config → Prop
  distances : Distances
  scopes : Forest Value

namespace Story

/-- A story goes on. -/
structure Continues (W W' : Story) : Prop where
  past : ∀ g p, W.past g p → W'.past g p
  distances : ∀ (id d : Nat), W.distances[id]? = some d → W'.distances[id]? = some d
  scopes : W.scopes.Lasts W'.scopes

/-- A scope was made by the declaration of a class that a use of `super`
belongs to, and holds the superclass that its name stood for. -/
def Origin (W : Story) (a : ScopeId) (o : Occurrence) : Prop :=
  ∃ g p methods S m k, W.past g p ∧ p.Inherits g methods S
    ∧ Config.methodScope p.state (some S) = a ∧ m ∈ methods ∧ m.Super k o
    ∧ (W.scopes.bindings a).get? "super" = some (.class S)

/-- A use of `super`, `k` scopes further in than scope `n`: its distance leads
just outside the nearest `this`, to the scope it has its origin in. -/
def Sits (W : Story) (n : ScopeId) (k : Nat) (o : Occurrence) : Prop :=
  ∃ e t a, W.distances[o.id]? = some (k + e + 1) ∧ W.scopes.ancestor? n e = some t
    ∧ W.scopes.holder? "this" n = some t ∧ W.scopes.enclosing? t = some a ∧ W.Origin a o

variable {W W' : Story} {n a : ScopeId} {k : Nat} {o : Occurrence}

theorem Origin.lt_nextId (h : W.Origin a o) : a < W.scopes.nextId := by
  obtain ⟨_, _, _, _, _, _, _, _, _, _, _, hv⟩ := h
  exact Forest.lt_nextId_of_get? hv

theorem Sits.lt_nextId (h : W.Sits n k o) : n < W.scopes.nextId := by
  obtain ⟨_, _, _, _, _, hholder, _⟩ := h
  exact Forest.lt_nextId_of_holder? hholder

theorem Origin.mono (hW : W.Continues W') (h : W.Origin a o) : W'.Origin a o := by
  have hlt := h.lt_nextId
  obtain ⟨g, p, methods, S, m, k, hpast, hinherits, ha, hm, hsuper, hv⟩ := h
  refine ⟨g, p, methods, S, m, k, hW.past g p hpast, hinherits, ha, hm, hsuper, ?_⟩
  rw [hW.scopes.reserved a hlt "super" not_ordinary_super]
  exact hv

theorem Sits.mono (hW : W.Continues W') (h : W.Sits n k o) : W'.Sits n k o := by
  have hlt := h.lt_nextId
  obtain ⟨e, t, a, hd, ht, hholder, ha, horigin⟩ := h
  refine ⟨e, t, a, hW.distances _ _ hd, ?_, ?_, ?_, horigin.mono hW⟩
  · rw [hW.scopes.ancestor? hlt]
    exact ht
  · rw [hW.scopes.holder? not_ordinary_this hlt]
    exact hholder
  · rw [hW.scopes.links t (Forest.lt_nextId_of_enclosing? ha)]
    exact ha

/-- A story with a new scope. -/
def child (W : Story) (n : ScopeId) (b : Bindings Value) : Story :=
  { W with scopes := W.scopes.child n b }

@[simp]
theorem child_scopes (W : Story) (n : ScopeId) (b : Bindings Value) :
    (W.child n b).scopes = W.scopes.child n b := rfl

theorem continues_child (W : Story) (n : ScopeId) (b : Bindings Value) :
    W.Continues (W.child n b) :=
  ⟨fun _ _ h => h, fun _ _ h => h, Forest.lasts_child W.scopes n b⟩

/-- In a new scope without a `this` of its own, a use of `super` is one scope
nearer. -/
theorem Sits.child (h : W.Sits n (k + 1) o) {b : Bindings Value} (hb : b.get? "this" = none) :
    (W.child n b).Sits W.scopes.nextId k o := by
  have hlt := h.lt_nextId
  have hsits := h.mono (continues_child W n b)
  have hlink := Forest.enclosing?_child_self W.scopes n b hlt
  obtain ⟨e, t, a, hd, ht, hholder, ha, horigin⟩ := hsits
  refine ⟨e + 1, t, a, ?_, ?_, ?_, ha, horigin⟩
  · rw [hd]
    congr 1
    omega
  · rw [child_scopes, Forest.ancestor?, hlink]
    exact ht
  · rw [child_scopes, Forest.holder?_of_enclosing? ?_ hlink]
    · exact hholder
    · rw [Forest.bindings_child_self]
      unfold Bindings.binds
      rw [hb]
      exact Bool.false_ne_true

/-- In the scope of `this` for a method, its uses of `super` are where they
belong. -/
theorem Origin.sits (h : W.Origin a o) (hd : W.distances[o.id]? = some (k + 2)) (id : ObjectId) :
    (W.child a [("this", .object id)]).Sits W.scopes.nextId (k + 1) o := by
  refine ⟨0, W.scopes.nextId, a, hd, rfl, ?_, ?_, h.mono (continues_child W a _)⟩
  · apply Forest.holder?_of_binds
    rw [child_scopes, Forest.bindings_child_self]
    rfl
  · exact Forest.enclosing?_child_self W.scopes a _ h.lt_nextId

end Story

/-! ## §3. Code, functions and methods. -/

theorem Stmt.ProperFunction.parts {decl : FunctionDecl Stmt} (h : Stmt.ProperFunction decl) :
    (∀ t ∈ decl.params, Ordinary t.lexeme) ∧ Stmt.ProperAll decl.body := by
  cases decl
  exact h

namespace Trait

/-- Code that runs in scope `n`, functions and methods whose uses of `super` are
all where they belong.  A method closes over the scope of its `super`; the one
of `this` comes in between when it is bound. -/
def origins (W : Story) (n : ScopeId) : Trait where
  code c := c.Proper ∧ ∀ k o, c.Super k o → W.Sits n k o
  function f := Stmt.ProperFunction f.decl ∧ ∀ k o, f.decl.Super k o → W.Sits f.closure (k + 1) o
  method _ f := Stmt.ProperFunction f.decl ∧ ∀ k o, f.decl.Super k o →
    W.distances[o.id]? = some (k + 2) ∧ W.Origin f.closure o

variable {W W' : Story} {n m : ScopeId}

theorem origins_hereditary : (origins W n).Hereditary := by
  rintro whole part hpart ⟨hproper, hsuper⟩
  exact ⟨hpart.proper hproper, fun k o ho => hsuper k o (.part hpart ho)⟩

theorem origins_names {name : String} (h : (origins W n).Names name) : Ordinary name := by
  rcases h with ⟨st, t, hcode, ht, rfl⟩ | ⟨o, e, hcode, rfl⟩
  · exact ordinary_of_declared hcode.1 ht
  · exact hcode.1.1

theorem origins_imp (hW : W.Continues W') : (origins W n).Implies (origins W' n) := by
  refine ⟨?_, ?_, ?_⟩
  · rintro c ⟨hproper, hsuper⟩
    exact ⟨hproper, fun k o ho => (hsuper k o ho).mono hW⟩
  · rintro f ⟨hproper, hsuper⟩
    exact ⟨hproper, fun k o ho => (hsuper k o ho).mono hW⟩
  · rintro name f ⟨hproper, hsuper⟩
    refine ⟨hproper, fun k o ho => ?_⟩
    obtain ⟨hd, horigin⟩ := hsuper k o ho
    exact ⟨hW.distances _ _ hd, horigin.mono hW⟩

/-- Values do not depend on the current scope. -/
theorem origins_ofState {s : State} (h : (origins W n).OfState s) : (origins W m).OfState s :=
  ⟨h.scopes, h.objects⟩

/-- What is executed in a new scope inside `n`. -/
theorem origins_child {st : Stmt} (hproper : st.Proper)
    (hsuper : ∀ k o, Code.Super (.stmt st) k o → W.Sits n (k + 1) o) {b : Bindings Value}
    (hb : b.get? "this" = none) :
    (origins (W.child n b) W.scopes.nextId).code (.stmt st) :=
  ⟨hproper, fun k o ho => (hsuper k o ho).child hb⟩

/-- **A method becomes a function** in the scope of `this`. -/
theorem origins_bound {f bound : Function} {name : String}
    (h : (origins W n).method name f) (id : ObjectId)
    (hdecl : bound.decl = f.decl) (hclosure : bound.closure = W.scopes.nextId) :
    (origins (W.child f.closure [("this", .object id)]) m).function bound := by
  obtain ⟨hproper, hsuper⟩ := h
  refine ⟨hdecl ▸ hproper, ?_⟩
  intro k o ho
  rw [hdecl] at ho
  obtain ⟨hd, horigin⟩ := hsuper k o ho
  rw [hclosure]
  exact horigin.sits hd id

/-- **The body of a function** is executed in the scope of its parameters. -/
theorem origins_entered {f : Function} (h : (origins W n).function f) (arguments : List Value) :
    ∀ st ∈ f.decl.body, (origins (W.child f.closure
      (Config.parameters f.decl.params arguments)) W.scopes.nextId).code (.stmt st) := by
  intro st hst
  obtain ⟨hparams, hbody⟩ := h.1.parts
  refine origins_child (hbody.mem hst) (fun k o ho => h.2 k o ⟨st, hst, ho⟩) ?_
  exact get?_parameters_of_notMem (fun t ht => (hparams t ht).1) arguments

/-! ## §4. Declared classes. -/

end Trait

/-- A function is the method of a name in the table of some declarations: it
has one of them, under the name of this one, and is an initializer if that is
the name of one. -/
structure Function.Tabled (f : Function) (closure : ScopeId) (methods : List (FunctionDecl Stmt))
    (name : String) : Prop where
  closure : f.closure = closure
  decl : f.decl ∈ methods
  name : f.decl.name.lexeme = name
  isInitializer : f.isInitializer = f.decl.isInitializer

namespace Trait

variable {K : Trait}

/-- The functions of a method table come from the declarations and share their
closure. -/
theorem get?_methodTable {closure : ScopeId} {first : Identity}
    {methods : List (FunctionDecl Stmt)} {name : String} {f : Function}
    (h : (Config.methodTable closure first methods).get? name = some f) :
    f.Tabled closure methods name := by
  revert h
  unfold Config.methodTable
  refine List.foldlRecOn (motive := fun table : Bindings Function =>
    table.get? name = some f → f.Tabled closure methods name) _ _ nofun ?_
  rintro table htable ⟨m, i⟩ hmem hget
  rw [Bindings.get?_insert] at hget
  split at hget
  · next hname =>
    cases hget
    exact ⟨rfl, List.fst_mem_of_mem_zipIdx hmem, hname, rfl⟩
  · exact htable hget

/-- A class has a trait if its own methods and its superclass have it. -/
theorem ofClass_declared {s : State} {name : Token} {parent : Option Class}
    {methods : List (FunctionDecl Stmt)}
    (hown : ∀ method f, Function.Tabled f (Config.methodScope s parent) methods method →
      K.method method f)
    (hparent : ∀ k ∈ parent, K.OfClass k) :
    K.OfClass (Config.declaredClass s name parent methods) := by
  intro method f hf
  rw [method?_eq, Option.or_eq_some_iff] at hf
  rcases hf with hf | ⟨-, hf⟩
  · exact hown method f (get?_methodTable hf)
  · obtain ⟨k, hk, hf⟩ := Option.bind_eq_some_iff.mp hf
    exact hparent k hk method f hf

/-- A class that has a trait is stored. -/
theorem OfState.declaringClass {s : State} (hs : K.OfState s) (control : Control)
    (rest : List Frame) (name : Token) {parent : Option Class} {methods : List (FunctionDecl Stmt)}
    (hparent : ∀ k ∈ parent, K.OfClass k)
    (hclass : K.OfClass (Config.declaredClass s name parent methods)) :
    K.OfState (Config.declaringClass ⟨control, rest, s⟩ name parent methods).state := by
  have hopen : K.OfState (declaringState s parent methods) := by
    cases parent with
    | none => exact ⟨hs.scopes, hs.objects⟩
    | some k =>
      have hsuper : ∀ other v, Bindings.get? [("super", Value.class k)] other = some v →
          K.OfValue v := by
        intro other v hget
        rw [get?_single] at hget
        split at hget <;> cases hget
        exact hparent k rfl
      exact ⟨(hs.child s.scope hsuper).scopes, hs.objects⟩
  cases htarget : (declaringState s parent methods).scopes.target
      (declaringState s parent methods).scope name.lexeme with
  | ok a =>
    rw [declaringClass_eq htarget]
    exact hopen.define a name.lexeme hclass
  | error fault =>
    rw [declaringClass_error htarget]
    exact hopen

end Trait

/-! ## §5. Asking for a superclass. -/

/-- Whether a frame waits for the superclass of a class. -/
def Frame.asks : Frame → Bool
  | .superclass _ _ _ => true
  | _ => false

theorem Frame.Local.asks {f : Frame} (h : f.Local) : f.asks = false := by
  cases f with
  | superclass => exact h.elim
  | _ => rfl

namespace Config

/-- While a class waits for its superclass, nothing is done but looking up the
name; if it stands for a class, that was so at a point that has passed. -/
inductive Asking (past : Setting → Config → Prop) : Config → Prop
  | idle {c} (h : ∀ f ∈ c.frames, f.asks = false) : Asking past c
  | name {o name methods rest s} (h : ∀ f ∈ rest, f.asks = false) :
      Asking past ⟨.eval (.variable o), .superclass name o methods :: rest, s⟩
  | value {v o name methods rest s} (h : ∀ f ∈ rest, f.asks = false)
      (hknown : ∀ S, v = .class S → ∃ g p, past g p ∧ p.Inherits g methods S
        ∧ methodScope p.state (some S) = methodScope s (some S)) :
      Asking past ⟨.value v, .superclass name o methods :: rest, s⟩
  | failed {d o name methods rest s} (h : ∀ f ∈ rest, f.asks = false) :
      Asking past ⟨.raising d, .superclass name o methods :: rest, s⟩

variable {past past' : Setting → Config → Prop} {g : Setting}

/-- **Superclasses are what their names stood for.** -/
theorem Asking.step {c : Config} (h : c.Asking past) (hc : past' g c) :
    (c.step g).Asking past' := by
  cases h with
  | idle h =>
    have hmove := moves_any g c
    generalize c.step g = c' at hmove
    -- only a class declaration with a superclass adds a frame that asks
    cases hmove with
    | on _ hadded =>
      refine .idle ?_
      intro f hf
      rcases List.mem_append.mp hf with hf | hf
      · exact (hadded f hf).asks
      · exact h f (List.mem_append_right _ hf)
    | function => exact .idle h
    | bind => exact .idle fun f hf => h f (List.mem_append_right _ hf)
    | call | make =>
      refine .idle ?_
      intro f hf
      rcases List.mem_cons.mp hf with rfl | hf
      · rfl
      · exact h f (List.mem_append_right _ hf)
    | @plain name methods rest s =>
      obtain ⟨control', s', heq, -⟩ := declaringClass_outcome (.exec (.class name none methods))
        rest (s.define s.scope name.lexeme .nil) name none methods
      rw [heq]
      exact .idle h
    | parent => exact .name h
    | derived =>
      have hasks := h _ List.mem_cons_self
      cases hasks
    | block =>
      refine .idle ?_
      intro f hf
      rcases List.mem_cons.mp hf with rfl | hf
      · rfl
      · exact h f hf
    | leave | ended => exact .idle fun f hf => h f (List.mem_cons_of_mem _ hf)
  | @name o name methods rest s h =>
    -- the name is looked up in this very step, which makes the point a passed one
    show Asking past' (settling ⟨.eval (.variable o), .superclass name o methods :: rest, s⟩
      o.name.line (lookUp g s o))
    cases hlook : lookUp g s o with
    | error fault => exact .failed h
    | ok v =>
      refine .value h ?_
      rintro S rfl
      exact ⟨g, _, hc, ⟨name, o, rest, rfl, rfl, hlook⟩, rfl⟩
  | @value v o name methods rest s h hknown =>
    cases v with
    | «class» k =>
      obtain ⟨control', s', heq, -⟩ := declaringClass_outcome (.value (.class k)) rest s name
        (some k) methods
      show Asking past' (declaringClass ⟨.value (.class k), rest, s⟩ name (some k) methods)
      rw [heq]
      exact .idle h
    | _ => exact .idle h
  | failed h => exact .idle h

/-! ## §6. Frames. -/

/-- Frames, from the scope of what is done inside them: the code of each is
sourced in the scope it goes on in. -/
inductive Stands (W : Story) : ScopeId → List Frame → Prop
  | bottom {n} : Stands W n []
  | frame {n frame rest} (hlocal : ¬ Restores frame)
      (hframe : (Trait.origins W n).OfFrame frame) (hrest : Stands W n rest) :
      Stands W n (frame :: rest)
  | leave {n m rest} (hrest : Stands W m rest) : Stands W n (.leave m :: rest)
  | call {n m f made rest} (hrest : Stands W m rest) : Stands W n (.call m f made :: rest)

variable {W W' : Story} {n : ScopeId} {rest : List Frame}

theorem Stands.mono (hW : W.Continues W') {frames : List Frame} (h : Stands W n frames) :
    Stands W' n frames := by
  induction h with
  | bottom => exact .bottom
  | frame hlocal hframe _ ih =>
    exact .frame hlocal (Trait.OfFrame.imp (Trait.origins_imp hW) hframe) ih
  | leave _ ih => exact .leave ih
  | call _ ih => exact .call ih

theorem Stands.drop {popped : List Frame} (hpopped : ∀ f ∈ popped, ¬ Restores f)
    (h : Stands W n (popped ++ rest)) : Stands W n rest := by
  induction popped with
  | nil => exact h
  | cons frame popped ih =>
    have hlater : ∀ f ∈ popped, ¬ Restores f :=
      fun f hf => hpopped f (List.mem_cons_of_mem frame hf)
    have hframe := hpopped frame List.mem_cons_self
    cases h with
    | frame _ _ hrest => exact ih hlater hrest
    | leave | call => exact absurd trivial hframe

theorem Stands.add {added : List Frame} (hlocal : ∀ f ∈ added, f.Local)
    (hframes : ∀ f ∈ added, (Trait.origins W n).OfFrame f) (h : Stands W n rest) :
    Stands W n (added ++ rest) := by
  induction added with
  | nil => exact h
  | cons frame added ih =>
    refine .frame (hlocal frame List.mem_cons_self).not_restores
      (hframes frame List.mem_cons_self) (ih ?_ ?_)
    · exact fun f hf => hlocal f (List.mem_cons_of_mem frame hf)
    · exact fun f hf => hframes f (List.mem_cons_of_mem frame hf)

theorem Stands.head {frames : List Frame} (h : Stands W n frames) :
    ∀ f ∈ frames.head?, (Trait.origins W n).OfFrame f := by
  intro f hf
  cases h with
  | bottom => cases hf
  | frame _ hframe =>
    cases hf
    exact hframe
  | leave | call =>
    cases hf
    trivial

/-! ## §7. Steps. -/

/-- What has happened so far, at a point of a run. -/
def story (past : Setting → Config → Prop) (g : Setting) (c : Config) : Story :=
  ⟨past, g.distances, c.state.scopes⟩

/-- **All uses of `super` are where they belong**: in what is done, in the
frames, and in the functions and classes in store. -/
structure Sourced (past : Setting → Config → Prop) (g : Setting) (c : Config) : Prop where
  control : (Trait.origins (c.story past g) c.state.scope).OfControl c.control
  frames : Stands (c.story past g) c.state.scope c.frames
  state : (Trait.origins (c.story past g) c.state.scope).OfState c.state

/-- A method in bound code has its `super` two scopes out of its body. -/
theorem distance_of_methods {T : Chart} (hg : Charted T g) {scopes : Scopes}
    {methods : List (FunctionDecl Stmt)} (hb : BoundMethods T (thisScope :: scopes) methods)
    {m : FunctionDecl Stmt} (hm : m ∈ methods) {k : Nat} {o : Occurrence} (ho : m.Super k o) :
    g.distances[o.id]? = some (k + 2) := by
  rw [← hg o.id]
  exact distance_of_method (hb.mem hm) ho

/-- The methods of a class without a superclass have no use for `super`. -/
theorem method_of_plain {T : Chart} (hg : Charted T g) {c : Config}
    (halong : Alongside (byDistance T) c c) {name : Token} {methods : List (FunctionDecl Stmt)}
    (hcontrol : c.control = .exec (.class name none methods))
    (hcode : (Trait.origins (c.story past g) n).code (.stmt (.class name none methods)))
    {own : String} {f : Function} (hf : f.decl ∈ methods) :
    (Trait.origins (c.story past g) n).method own f := by
  obtain ⟨hproper, hsuper⟩ := hcode
  refine ⟨hproper.2.2.mem hf, ?_⟩
  rintro k o ⟨st, hst, ho⟩
  obtain ⟨w, scopes, a, hdoes, -, -⟩ := halong
  rw [hcontrol] at hdoes
  cases hdoes with
  | exec hb =>
    have hnear := distance_of_methods hg hb.2.2.2 hf ⟨st, hst, ho⟩
    obtain ⟨e, t, a, hfar, -⟩ := hsuper (k + 2) o (.method hf hst ho)
    -- outside its own `this`, the class would need a `super` around itself
    change g.distances[o.id]? = some (k + 2 + e + 1) at hfar
    rw [hnear, Option.some_inj] at hfar
    omega

/-- The methods of a class with a superclass get their `super` now. -/
theorem method_of_derived {T : Chart} (hg : Charted T g) {k : Class} {name : Token}
    {parent : Occurrence} {methods : List (FunctionDecl Stmt)} {c : Config}
    (hcontrol : c.control = .value (.class k))
    (hframes : c.frames = .superclass name parent methods :: rest)
    (halong : Alongside (byDistance T) c c) (hasking : Asking past c)
    (hproper : Stmt.ProperMethods methods)
    (hW : W.past = past ∧ W.distances = g.distances
      ∧ (W.scopes.bindings (methodScope c.state (some k))).get? "super" = some (.class k))
    {own : String} {f : Function} (hf : f.Tabled (methodScope c.state (some k)) methods own) :
    (Trait.origins W n).method own f := by
  obtain ⟨control, frames, s⟩ := c
  dsimp only at hcontrol hframes
  subst hcontrol hframes
  obtain ⟨rfl, hdistances, hvalue⟩ := hW
  refine ⟨hproper.mem hf.decl, ?_⟩
  intro depth o ho
  obtain ⟨w, scopes, a, hdoes, hwaits, -⟩ := halong
  cases hdoes with
  | value =>
    cases hwaits with
    | cons hop _ =>
      cases hop with
      | superclass _ _ hmethods =>
        refine ⟨hdistances ▸ distance_of_methods hg hmethods hf.decl ho, ?_⟩
        cases hasking with
        | idle hidle =>
          have hasks := hidle _ List.mem_cons_self
          cases hasks
        | value _ hknown =>
          obtain ⟨g', p, hpast, hinherits, hscope⟩ := hknown k rfl
          rw [hf.closure]
          exact ⟨g', p, methods, k, f.decl, depth, hpast, hinherits, hscope, hf.decl, ho, hvalue⟩

/-- The scope that a class is declared with holds its superclass. -/
theorem get?_super_declaringClass (control : Control) (rest : List Frame) (s : State) (k : Class)
    {name : Token} (hname : Ordinary name.lexeme) (methods : List (FunctionDecl Stmt)) :
    ((declaringClass ⟨control, rest, s⟩ name (some k) methods).state.scopes.bindings
      (methodScope s (some k))).get? "super" = some (.class k) := by
  have hopen : ((declaringState s (some k) methods).scopes.bindings s.scopes.nextId).get? "super"
      = some (.class k) := by
    show ((s.scopes.child s.scope [("super", .class k)]).bindings _).get? "super" = _
    rw [Forest.bindings_child_self]
    rfl
  have hlasts := lasts_declaringClass control rest s hname (some k) methods
  exact (hlasts.reserved _ (Forest.lt_nextId_of_get? hopen) _ not_ordinary_super).trans hopen

/-- A class is declared whose methods have their uses of `super` where they
belong. -/
theorem sourced_declaringClass {control : Control} {s : State} {name : Token}
    {parent : Option Class} {methods : List (FunctionDecl Stmt)}
    (hframes : Stands ((declaringClass ⟨control, rest, s⟩ name parent methods).story past g)
      s.scope rest)
    (hstate : (Trait.origins ((declaringClass ⟨control, rest, s⟩ name parent methods).story past g)
      n).OfState s)
    (hparent : ∀ k ∈ parent, (Trait.origins
      ((declaringClass ⟨control, rest, s⟩ name parent methods).story past g) n).OfClass k)
    (hown : ∀ method f, Function.Tabled f (methodScope s parent) methods method → (Trait.origins
      ((declaringClass ⟨control, rest, s⟩ name parent methods).story past g) n).method method f) :
    (declaringClass ⟨control, rest, s⟩ name parent methods).Sourced past g := by
  have hafter := hstate.declaringClass control rest name hparent
    (Trait.ofClass_declared hown hparent)
  obtain ⟨control', s', heq, houtcome, hscope, -⟩ := declaringClass_outcome control rest s name
    parent methods
  rw [heq] at hframes hafter ⊢
  rw [← hscope] at hframes
  refine ⟨?_, hframes, Trait.origins_ofState hafter⟩
  rcases houtcome with rfl | ⟨d, rfl⟩ <;> trivial

/-- **Every step keeps the uses of `super` where they belong.** -/
theorem Sourced.step {T : Chart} (hg : Charted T g) {c : Config} (h : c.Sourced past g)
    (halong : Alongside (byDistance T) c c) (hasking : c.Asking past) :
    (c.step g).Sourced past g := by
  obtain ⟨hcontrol, hframes, hstate⟩ := h
  have hmove := moves_step Trait.origins_hereditary g hcontrol hframes.head hstate
  have hlasts := hmove.lasts fun name => Trait.origins_names
  generalize c.step g = c' at hmove hlasts
  have hW : (c.story past g).Continues (c'.story past g) :=
    ⟨fun _ _ hp => hp, fun _ _ hd => hd, hlasts⟩
  have himp (n : ScopeId) := Trait.origins_imp (n := n) hW
  have hstate' : (Trait.origins (c'.story past g) c'.state.scope).OfState c.state :=
    Trait.origins_ofState (Trait.OfState.imp (himp _) hstate)
  have hframes' := hframes.mono hW
  cases hmove with
  | @on control control' popped added rest s s' hpopped hadded hscope _ _ hcontrol' hadded' hs' =>
    -- frames come and go in one and the same scope
    have hadded'' : ∀ f ∈ added, (Trait.origins _ s.scope).OfFrame f :=
      fun f hf => Trait.OfFrame.imp (himp _) (hadded' f hf)
    have hrest := (hframes'.drop hpopped).add hadded hadded''
    have hcontrol'' := Trait.OfControl.imp (himp _) hcontrol'
    dsimp only at hrest hcontrol''
    rw [← hscope] at hrest hcontrol''
    exact ⟨hcontrol'', hrest, Trait.origins_ofState (Trait.OfState.imp (himp _) hs')⟩
  | @function decl rest s hcode =>
    obtain ⟨hproper, hsuper⟩ := hcode
    -- the body is one scope further in than its declaration
    have hused : (Trait.origins _ s.scope).OfState (s.useIdentities 1) :=
      ⟨hstate'.scopes, hstate'.objects⟩
    refine ⟨trivial, hframes', hused.define _ _ ?_⟩
    refine (himp s.scope).function ⟨s.nextIdentity, decl, s.scope, false⟩ ⟨hproper.2, ?_⟩
    rintro k o ⟨st, hst, ho⟩
    exact hsuper (k + 1) o (.function hst ho)
  | @bind control popped rest s own f id hpopped hf =>
    exact ⟨Trait.origins_bound hf id rfl rfl, hframes'.drop hpopped, hstate'.bind f id⟩
  | @call control popped rest s f arguments hpopped hf harguments =>
    have hvalues := fun v hv => Trait.OfValue.imp (himp s.scope) (harguments v hv)
    exact ⟨Trait.origins_entered hf arguments.toList, .call (hframes'.drop hpopped),
      Trait.origins_ofState (Trait.OfState.entering hstate' control rest f hvalues none)⟩
  | @make control popped rest s k f arguments hpopped hk hf harguments =>
    -- the initializer is bound to the new object before it is entered
    have hbound : (Trait.origins _ s.scope).function (boundMethod (s.addObject k) f) :=
      Trait.origins_bound hf s.objects.size rfl rfl
    have hobject := (hstate'.addObject (Trait.OfClass.imp (himp s.scope) hk)).bind f s.objects.size
    have hvalues := fun v hv => Trait.OfValue.imp (himp s.scope) (harguments v hv)
    exact ⟨Trait.origins_entered hbound arguments.toList, .call (hframes'.drop hpopped),
      Trait.origins_ofState (Trait.OfState.entering hobject control rest _ hvalues _)⟩
  | @plain name methods rest s hcode =>
    refine sourced_declaringClass hframes' (hstate'.define _ _ trivial) ?_ ?_
    · intro k hk
      cases hk
    · intro method f hf
      exact (himp s.scope).method method f (method_of_plain hg halong rfl hcode hf.decl)
  | @parent name o methods rest s hcode =>
    exact ⟨(himp s.scope).code _ (Trait.origins_hereditary .parent hcode),
      .frame id ((himp s.scope).code _ hcode) hframes', hstate'.define _ _ trivial⟩
  | @derived k name o methods rest s hk hcode =>
    -- the methods get the scope that has just been made for the superclass
    cases hframes' with
    | frame _ _ hrest =>
      have hproper := hcode.1
      refine sourced_declaringClass hrest hstate' ?_ ?_
      · rintro _ ⟨⟩
        exact Trait.OfClass.imp (himp s.scope) hk
      · intro method f hf
        have hsuper := get?_super_declaringClass (.value (.class k)) rest s k hproper.1 methods
        refine method_of_derived hg rfl rfl halong hasking hproper.2.2 ?_ hf
        exact ⟨rfl, rfl, hsuper⟩
  | @block body rest s hcode =>
    obtain ⟨hproper, hsuper⟩ := hcode
    refine ⟨?_, .leave hframes', ?_⟩
    · intro st hst
      exact Trait.origins_child (Stmt.ProperAll.mem hproper hst)
        (fun k o ho => hsuper (k + 1) o (.block hst ho)) rfl
    · have hopened := hstate'.child s.scope (b := []) (by intro name v hv; cases hv)
      exact ⟨hopened.scopes, hopened.objects⟩
  | @leave control control' m rest s hleaves =>
    cases hframes' with
    | frame hlocal => exact absurd trivial hlocal
    | leave hrest =>
      refine ⟨?_, hrest, ⟨hstate'.scopes, hstate'.objects⟩⟩
      cases hleaves with
      | returning => exact Trait.OfControl.imp (himp s.scope) hcontrol
      | _ => trivial
  | @ended control control' m f made rest s houtcome =>
    cases hframes' with
    | frame hlocal => exact absurd trivial hlocal
    | call hrest =>
      refine ⟨?_, hrest, ⟨hstate'.scopes, hstate'.objects⟩⟩
      rcases houtcome with ⟨v, rfl, hv⟩ | ⟨d, rfl⟩
      · exact Trait.OfValue.imp (himp s.scope) hv
      · trivial

end Config

end Lox
