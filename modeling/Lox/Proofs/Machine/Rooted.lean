/-
  Lox.Proofs.Machine.Rooted
  ─────────────────────────
  **EVERY CHAIN OF SCOPES ENDS AT THE GLOBALS.**

  The store may be cyclic: a function can be in a variable of the scope that it
  closes over.  The links between scopes are not.  A new scope is always made
  inside one that exists already (`Moves.extends`), and what a program goes back
  to or closes over are scopes that exist (`Rooted.step`).  So the links lead
  from all of them to the globals.
-/
import Lox.Proofs.Machine.Carried

namespace Lox

open Lockstep

/-! ## §1. Links. -/

namespace Forest

variable {F F' F'' : Forest Value} {n : ScopeId}

/-- The links from a scope lead to the globals. -/
def Reaches (F : Forest Value) (n : ScopeId) : Prop :=
  ∃ d, F.ancestor? n d = some globalScope

/-- Every scope but that of the globals is inside another one. -/
structure Rooted (F : Forest Value) : Prop where
  root : globalScope < F.nextId
  linked : ∀ n < F.nextId, n ≠ globalScope → ∃ p, F.enclosing? n = some p

/-- Links lead to older scopes, so following them comes to an end. -/
theorem Rooted.reaches (h : F.Rooted) (hn : n < F.nextId) : F.Reaches n := by
  induction n using Nat.strongRecOn with
  | ind n ih =>
    by_cases hroot : n = globalScope
    · exact ⟨0, congrArg some hroot⟩
    · obtain ⟨p, hp⟩ := h.linked n hn hroot
      have hlt : p < n := enclosing?_lt hp
      obtain ⟨d, hd⟩ := ih p hlt (Nat.lt_trans hlt hn)
      refine ⟨d + 1, ?_⟩
      rw [ancestor?, hp]
      exact hd

/-- Scopes are only added, each inside one that is there. -/
structure Extends (F F' : Forest Value) : Prop where
  nextId : F.nextId ≤ F'.nextId
  links : ∀ n < F.nextId, F'.enclosing? n = F.enclosing? n
  added : ∀ n < F'.nextId, F.nextId ≤ n → ∃ p, F'.enclosing? n = some p

theorem Extends.refl (F : Forest Value) : F.Extends F :=
  ⟨Nat.le_refl _, fun _ _ => rfl, fun _ hlt hle => absurd hlt (Nat.not_lt_of_le hle)⟩

theorem Extends.trans (h : F.Extends F') (h' : F'.Extends F'') : F.Extends F'' := by
  refine ⟨Nat.le_trans h.nextId h'.nextId, ?_, ?_⟩
  · intro n hn
    exact (h'.links n (Nat.lt_of_lt_of_le hn h.nextId)).trans (h.links n hn)
  · intro n hn hle
    by_cases hold : n < F'.nextId
    · rw [h'.links n hold]
      exact h.added n hold hle
    · exact h'.added n hn (Nat.le_of_not_lt hold)

theorem extends_child (hn : n < F.nextId) (b : Bindings Value) : F.Extends (F.child n b) := by
  refine ⟨?_, fun m hm => enclosing?_child_of_lt F n b hm, ?_⟩
  · exact Nat.le_of_lt (nextId_lt_child F n b)
  · intro m hm hle
    rw [nextId_child] at hm
    obtain rfl : m = F.nextId := Nat.le_antisymm (Nat.le_of_lt_succ hm) hle
    exact ⟨n, enclosing?_child_self F n b hn⟩

theorem extends_define (F : Forest Value) (n : ScopeId) (name : String) (v : Value) :
    F.Extends (F.define n name v) := by
  refine ⟨Nat.le_of_eq (nextId_define F n name v).symm,
    fun m _ => enclosing?_define F n name v m, ?_⟩
  intro m hm hle
  rw [nextId_define] at hm
  exact absurd hm (Nat.not_lt_of_le hle)

theorem Rooted.extend (h : F.Rooted) (hext : F.Extends F') : F'.Rooted := by
  refine ⟨Nat.lt_of_lt_of_le h.root hext.nextId, ?_⟩
  intro n hn hroot
  by_cases hold : n < F.nextId
  · rw [hext.links n hold]
    exact h.linked n hold hroot
  · exact hext.added n hn (Nat.le_of_not_lt hold)

end Forest

/-! ## §2. Closures. -/

/-- What a function or the methods of a class close over, inherited ones
included, are scopes before `n`. -/
def Value.ClosedBelow (n : ScopeId) : Value → Prop
  | .function f => f.closure < n
  | .class k => ∀ j ∈ k.lineage, ∀ name f, j.methods.get? name = some f → f.closure < n
  | _ => True

theorem Value.ClosedBelow.mono {n m : ScopeId} (hle : n ≤ m) {v : Value} (h : v.ClosedBelow n) :
    v.ClosedBelow m := by
  cases v with
  | function f => exact Nat.lt_of_lt_of_le h hle
  | «class» k => exact fun j hj name f hf => Nat.lt_of_lt_of_le (h j hj name f hf) hle
  | _ => trivial

theorem Value.Plain.closedBelow {n : ScopeId} {v : Value} (h : v.Plain) : v.ClosedBelow n := by
  cases v with
  | function | «class» => exact h.elim
  | _ => trivial

/-- The methods of a new class close over the scope of its declaration. -/
theorem closedBelow_declaredClass {n : ScopeId} {s : State} {parent : Option Class}
    (hscope : Config.methodScope s parent < n)
    (hparent : ∀ p ∈ parent, (Value.class p).ClosedBelow n) (name : Token)
    (methods : List (FunctionDecl Stmt)) :
    (Value.class (Config.declaredClass s name parent methods)).ClosedBelow n := by
  intro j hj own f hf
  rcases Class.mem_lineage.mp hj with rfl | ⟨p, hp, hj⟩
  · rw [(Trait.get?_methodTable hf).closure]
    exact hscope
  · exact hparent p hp j hj own f hf

/-- Functions, and the methods that classes answer with, close over scopes
before `n`. -/
def Trait.closedBelow (n : ScopeId) : Trait :=
  ⟨fun _ => True, fun f => f.closure < n, fun _ f => f.closure < n⟩

theorem Trait.ofValue_closedBelow {n : ScopeId} {v : Value} (h : v.ClosedBelow n) :
    (Trait.closedBelow n).OfValue v := by
  cases v with
  | function f => exact h
  | «class» k =>
    intro name f hf
    rw [Class.method?_eq_findSome?] at hf
    obtain ⟨j, hj, hget⟩ := List.exists_of_findSome?_eq_some hf
    exact h j hj name f hget
  | _ => trivial

/-! ## §3. Running programs. -/

/-- The scope that a block or a call goes back to. -/
def Frame.scope? : Frame → Option ScopeId
  | .leave n | .call n _ _ => some n
  | _ => none

theorem Frame.Local.scope?_eq_none {f : Frame} (h : f.Local) : f.scope? = none := by
  cases f with
  | leave | call => exact h.elim
  | _ => rfl

namespace Config

/-- The current scope, and those that blocks and calls go back to. -/
def positions (c : Config) : List ScopeId :=
  c.state.scope :: c.frames.filterMap Frame.scope?

/-- **A function is stored somewhere**: as a value, or as a method of a class
that is a value or the class of an object, or of one of its superclasses. -/
inductive Stores (c : Config) : Function → Prop
  | value {f} (h : c.Holds (.function f)) : Stores c f
  | method {k j name f} (h : c.Holds (.class k)) (hj : j ∈ k.lineage)
      (hf : j.methods.get? name = some f) : Stores c f

/-- **All chains end at the globals**: from the current scope and from those
that blocks and calls go back to, and from the closures of all functions. -/
structure Anchored (c : Config) : Prop where
  positions : ∀ n ∈ c.positions, c.state.scopes.Reaches n
  closures : ∀ f, c.Stores f → c.state.scopes.Reaches f.closure
  globals : globalScope < c.state.scopes.nextId ∧ c.state.scopes.enclosing? globalScope = none

/-- **The scopes of a running program hang together**: those that it is in and
those that its functions and classes close over exist, and each is inside one
that exists. -/
structure Rooted (c : Config) : Prop where
  forest : c.state.scopes.Rooted
  positions : ∀ n ∈ c.positions, n < c.state.scopes.nextId
  values : c.All (Value.ClosedBelow c.state.scopes.nextId)

theorem Rooted.anchored {c : Config} (h : c.Rooted) : c.Anchored := by
  refine ⟨fun n hn => h.forest.reaches (h.positions n hn), ?_, h.forest.root,
    enclosing?_global _⟩
  intro f hf
  apply h.forest.reaches
  cases hf with
  | value hold => exact h.values.holds hold
  | method hold hj hget => exact h.values.holds hold _ hj _ f hget

/-- A program that has nothing to do, in a state. -/
def idle (s : State) : Config :=
  ⟨.completed, [], s⟩

/-- When a program is done, its state stays as it is. -/
theorem Rooted.idle {c : Config} (h : c.Rooted) : (idle c.state).Rooted := by
  refine ⟨h.forest, ?_, List.forall_mem_nil _, List.forall_mem_nil _, h.values.state⟩
  intro n hn
  rw [List.mem_singleton.mp hn]
  exact h.positions _ List.mem_cons_self

section Moves

variable {K : Trait} {c c' : Config} {control : Control} {rest popped added : List Frame}
  {s : State} {n : ScopeId}

theorem extends_declaringClass (control : Control) (rest : List Frame)
    (hscope : s.scope < s.scopes.nextId) (name : Token) (parent : Option Class)
    (methods : List (FunctionDecl Stmt)) :
    s.scopes.Extends (declaringClass ⟨control, rest, s⟩ name parent methods).state.scopes := by
  have hopen : s.scopes.Extends (declaringState s parent methods).scopes := by
    cases parent with
    | none => exact .refl _
    | some k => exact Forest.extends_child hscope _
  cases htarget : (declaringState s parent methods).scopes.target
      (declaringState s parent methods).scope name.lexeme with
  | ok a =>
    rw [declaringClass_eq htarget]
    exact hopen.trans (Forest.extends_define _ a _ _)
  | error fault =>
    rw [declaringClass_error htarget]
    exact hopen

/-- **A step makes new scopes only inside scopes that exist.** -/
theorem Moves.extends (h : Moves (.closedBelow c.state.scopes.nextId) c c')
    (hscope : c.state.scope < c.state.scopes.nextId) : c.state.scopes.Extends c'.state.scopes := by
  cases h with
  | on _ _ _ _ hscopes =>
    rcases hscopes with heq | ⟨a, name, v, heq, -⟩
    · rw [heq]
      exact .refl _
    · rw [heq]
      exact Forest.extends_define _ a name v
  | function | parent => exact Forest.extends_define _ _ _ _
  | bind _ hf | call _ hf => exact Forest.extends_child hf _
  | @make control popped rest s k f arguments _ _ hf =>
    -- the body is entered inside the scope of `this`, which is made first
    have hthis := Forest.extends_child hf [("this", Value.object s.objects.size)]
    exact hthis.trans (Forest.extends_child (Forest.nextId_lt_child _ _ _) _)
  | @plain name methods rest s =>
    refine (Forest.extends_define _ s.scope name.lexeme .nil).trans ?_
    have hnamed : (s.define s.scope name.lexeme .nil).scope
        < (s.define s.scope name.lexeme .nil).scopes.nextId := by
      show s.scope < (s.scopes.define s.scope name.lexeme .nil).nextId
      rw [Forest.nextId_define]
      exact hscope
    exact extends_declaringClass _ _ hnamed name none methods
  | derived => exact extends_declaringClass _ _ hscope _ _ _
  | block => exact Forest.extends_child hscope _
  | leave | ended => exact .refl _

theorem filterMap_append_of_local (hadded : ∀ f ∈ added, f.Local) :
    (added ++ rest).filterMap Frame.scope? = rest.filterMap Frame.scope? := by
  have hnone : added.filterMap Frame.scope? = [] :=
    List.filterMap_eq_nil_iff.mpr fun f hf => (hadded f hf).scope?_eq_none
  rw [List.filterMap_append, hnone, List.nil_append]

theorem mem_filterMap_of_rest (h : n ∈ rest.filterMap Frame.scope?) :
    n ∈ (popped ++ rest).filterMap Frame.scope? := by
  rw [List.filterMap_append]
  exact List.mem_append_right _ h

/-- A program goes on where it is, goes back to where it was, or goes to a new
scope. -/
theorem Moves.positions (h : Moves K c c') (hn : n ∈ c'.positions) :
    n ∈ c.positions ∨ c.state.scopes.nextId ≤ n ∧ n < c'.state.scopes.nextId := by
  cases h with
  | on _ hadded hscope =>
    unfold Config.positions at hn
    rw [filterMap_append_of_local hadded, hscope] at hn
    rcases List.mem_cons.mp hn with rfl | hn
    · exact .inl List.mem_cons_self
    · exact .inl (List.mem_cons_of_mem _ (mem_filterMap_of_rest hn))
  | function | parent => exact .inl hn
  | bind =>
    rcases List.mem_cons.mp hn with rfl | hn
    · exact .inl List.mem_cons_self
    · exact .inl (List.mem_cons_of_mem _ (mem_filterMap_of_rest hn))
  | @call control popped rest s f arguments =>
    rcases List.mem_cons.mp hn with rfl | hn
    · exact .inr ⟨Nat.le_refl _, Forest.nextId_lt_child s.scopes f.closure _⟩
    · rcases List.mem_cons.mp hn with rfl | hn
      · exact .inl List.mem_cons_self
      · exact .inl (List.mem_cons_of_mem _ (mem_filterMap_of_rest hn))
  | @make control popped rest s k f arguments =>
    rcases List.mem_cons.mp hn with rfl | hn
    · -- the object is bound in one new scope, and the body runs in another inside it
      have hbound : s.scopes.nextId < (Config.bind (s.addObject k) f s.objects.size).scopes.nextId :=
        Forest.nextId_lt_child s.scopes f.closure _
      exact .inr ⟨Nat.le_of_lt hbound, Forest.nextId_lt_child _ s.scopes.nextId _⟩
    · rcases List.mem_cons.mp hn with rfl | hn
      · exact .inl List.mem_cons_self
      · exact .inl (List.mem_cons_of_mem _ (mem_filterMap_of_rest hn))
  | @plain name methods rest s =>
    obtain ⟨control', s', heq, -, hscope, -⟩ := declaringClass_outcome (.exec (.class name none
      methods)) rest (s.define s.scope name.lexeme .nil) name none methods
    rw [heq] at hn
    unfold Config.positions at hn
    rw [hscope] at hn
    exact .inl hn
  | @derived k name o methods rest s =>
    obtain ⟨control', s', heq, -, hscope, -⟩ := declaringClass_outcome (.value (.class k)) rest s
      name (some k) methods
    rw [heq] at hn
    unfold Config.positions at hn
    rw [hscope] at hn
    exact .inl hn
  | @block body rest s =>
    rcases List.mem_cons.mp hn with rfl | hn
    · exact .inr ⟨Nat.le_refl _, Forest.nextId_lt_child s.scopes s.scope []⟩
    · exact .inl hn
  | leave | ended => exact .inl (List.mem_cons_of_mem _ hn)

end Moves

variable {c : Config}

/-- The scope that methods close over exists once their class is declared. -/
theorem methodScope_lt (control : Control) (rest : List Frame) {s : State}
    (hscope : s.scope < s.scopes.nextId) (name : Token) (parent : Option Class)
    (methods : List (FunctionDecl Stmt)) :
    methodScope s parent
      < (declaringClass ⟨control, rest, s⟩ name parent methods).state.scopes.nextId := by
  have hopen : methodScope s parent < (declaringState s parent methods).scopes.nextId := by
    cases parent with
    | none => exact hscope
    | some k =>
      exact Forest.nextId_lt_child s.scopes s.scope _
  cases htarget : (declaringState s parent methods).scopes.target
      (declaringState s parent methods).scope name.lexeme with
  | ok a =>
    rw [declaringClass_eq htarget]
    refine Nat.lt_of_lt_of_eq hopen (Eq.symm ?_)
    exact Forest.nextId_define _ a _ _
  | error fault =>
    rw [declaringClass_error htarget]
    exact hopen

/-- Functions and classes that a step makes close over scopes that exist after
it. -/
theorem Rooted.makes (h : c.Rooted) {g : Setting}
    (hext : c.state.scopes.Extends (c.step g).state.scopes) {v : Value}
    (hv : c.Makes (c.step g) v) : v.ClosedBelow (c.step g).state.scopes.nextId := by
  have hscope := h.positions _ List.mem_cons_self
  cases hv with
  | function => exact Nat.lt_of_lt_of_le hscope hext.nextId
  | bound _ _ hnew => exact hnew
  | plain hplain => exact hplain.closedBelow
  | declared hclass =>
    have hparents := h.values.imp fun _ => Value.ClosedBelow.mono hext.nextId
    cases hclass with
    | plain =>
      refine closedBelow_declaredClass ?_ ?_ _ _
      · exact Nat.lt_of_lt_of_le hscope hext.nextId
      · intro p hp
        cases hp
    | @derived k name o methods rest s =>
      refine closedBelow_declaredClass ?_ ?_ _ _
      · exact methodScope_lt (.value (.class k)) rest hscope name (some k) _
      · rintro _ ⟨⟩
        exact hparents.control _ List.mem_cons_self

/-- **Every step keeps the scopes together.** -/
theorem Rooted.step (h : c.Rooted) (g : Setting) :
    (c.step g).Rooted ∧ c.state.scopes.Extends (c.step g).state.scopes := by
  have hcarries := (h.values.imp fun _ => Trait.ofValue_closedBelow).carries fun _ => trivial
  have hmove := moves_step (fun _ _ => trivial) g hcarries.control
    (fun f hf => hcarries.frames f (List.mem_of_mem_head? hf)) hcarries.state
  have hext := hmove.extends (h.positions _ List.mem_cons_self)
  refine ⟨⟨h.forest.extend hext, ?_, ?_⟩, hext⟩
  · intro n hn
    rcases hmove.positions hn with hold | ⟨-, hnew⟩
    · exact Nat.lt_of_lt_of_le (h.positions n hold) hext.nextId
    · exact hnew
  · exact (h.values.imp fun _ => .mono hext.nextId).step g fun _ => h.makes hext

/-- **A run keeps the scopes together**, and all links stay. -/
theorem Rooted.run (h : c.Rooted) (g : Setting) (n : Nat) :
    (Config.run g n c).Rooted ∧ c.state.scopes.Extends (Config.run g n c).state.scopes := by
  induction n with
  | zero => exact ⟨h, .refl _⟩
  | succ n ih =>
    obtain ⟨hrooted, hext⟩ := ih
    rw [Config.run_last]
    obtain ⟨hrooted', hext'⟩ := hrooted.step g
    exact ⟨hrooted', hext.trans hext'⟩

end Config

end Lox
