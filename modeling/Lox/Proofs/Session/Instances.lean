/-
  Lox.Proofs.Session.Instances
  ────────────────────────────
  **INITIALIZERS YIELD THEIR INSTANCE.**

  Binding a method makes a scope in which `this` is the object.  No program can
  declare or assign `this`, so it stays what it was (`Forest.Lasts`), however
  long the bound method is kept and whatever is done in between; and the call
  of an initializer reads its result from there.  A method is an initializer
  exactly if it is kept under the name of one, also where it is inherited
  (`Trait.flagged`).

  Main result: `Session.initializer_yields_instance`.
-/
import Lox.Proofs.Machine.Calls
import Lox.Proofs.Machine.Carried
import Lox.Proofs.Machine.Footprint
import Lox.Proofs.Session.Supers

namespace Lox

open Lockstep Resolve

/-! ## §1. Initializers under their name. -/

/-- Code of proper shape, and methods that are initializers exactly if their
name is the one of an initializer. -/
def Trait.flagged : Trait where
  code c := c.Proper
  function f := Stmt.ProperFunction f.decl
  method name f := Stmt.ProperFunction f.decl ∧ f.isInitializer = (name == initializerName)

namespace Trait

/-- **Inherited methods are initializers as well**: a class hands on what its
declaration has made. -/
theorem closed_flagged : flagged.Closed where
  part hpart hwhole := hpart.proper hwhole
  block hbody := fun st hst => Stmt.ProperAll.mem hbody hst
  declared hdecl := fun _ _ => hdecl.2
  method := by
    intro name parent methods hclass own f closure hf
    refine ⟨hclass.2.2.mem hf.decl, ?_⟩
    rw [hf.isInitializer, ← hf.name]
    rfl
  functionBody hf := fun st hst => Stmt.ProperAll.mem hf.parts.2 hst
  methodBody hf := fun st hst => Stmt.ProperAll.mem hf.1.parts.2 hst

theorem flagged_names {name : String} (h : flagged.Names name) : Ordinary name := by
  rcases h with ⟨st, t, hcode, ht, rfl⟩ | ⟨o, e, hcode, rfl⟩
  · exact ordinary_of_declared hcode ht
  · exact hcode.1

end Trait

namespace Config

variable {g : Setting} {c : Config}

/-- A program keeps its shape, and its methods are initializers by name. -/
theorem Carries.flagged (h : Carries .flagged c) (g : Setting) (n : Nat) :
    Carries .flagged (Config.run g n c) :=
  Carries.run Trait.closed_flagged (fun _ _ _ hf => hf.1) h g n

/-- No run undoes a scope, a link, a `this` or a `super`. -/
theorem Carries.lasts (h : Carries .flagged c) (g : Setting) {i k : Nat} (hik : i ≤ k) :
    (Config.run g i c).state.scopes.Lasts (Config.run g k c).state.scopes := by
  induction k, hik using Nat.le_induction with
  | base => exact .refl _
  | succ k hik ih =>
    have hk := h.flagged g k
    have hmove := moves_step Trait.closed_flagged.part g hk.control
      (fun f hf => hk.frames f (List.mem_of_mem_head? hf)) hk.state
    rw [← run_last] at hmove
    exact ih.trans (hmove.lasts fun name => Trait.flagged_names)

/-! ## §2. Bound methods. -/

/-- A function is a method that is bound to an object: `this` is the object in
the scope that it closes over. -/
def BoundTo (F : Forest Value) (f : Function) (id : ObjectId) : Prop :=
  (F.bindings f.closure).get? "this" = some (.object id)

/-- **It stays bound to the object.** -/
theorem BoundTo.lasts {F F' : Forest Value} (hlasts : F.Lasts F') {f : Function} {id : ObjectId}
    (h : BoundTo F f id) : BoundTo F' f id := by
  have hlt : f.closure < F.nextId := Forest.lt_nextId_of_get? h
  unfold BoundTo
  rw [hlasts.reserved f.closure hlt "this" not_ordinary_this]
  exact h

theorem boundTo_bind (s : State) (f : Function) (id : ObjectId) :
    BoundTo (bind s f id).scopes (boundMethod s f) id := by
  show ((s.scopes.child f.closure [("this", .object id)]).bindings s.scopes.nextId).get? "this" = _
  rw [Forest.bindings_child_self]
  rfl

/-- The call of a bound method has a result: the object, if it is an
initializer. -/
theorem BoundTo.callResult {s : State} {f : Function} {id : ObjectId} (h : BoundTo s.scopes f id)
    (v : Value) : ∃ r, callResult s f v = .ok r ∧ (f.isInitializer = true → r = .object id) := by
  unfold Config.callResult
  cases hinit : f.isInitializer with
  | false => exact ⟨v, rfl, fun hfalse => absurd hfalse Bool.false_ne_true⟩
  | true =>
    refine ⟨.object id, ?_, fun _ => rfl⟩
    unfold Forest.getAt Forest.ancestor?
    dsimp only
    rw [if_pos rfl, h]

/-- **The method `init` of an object is taken**, for this object: the next step
yields the function.  It is taken from the class of the object, or from the
superclass that `super` stands for. -/
inductive TakesInit (g : Setting) : Config → Function → ObjectId → Prop
  | get {name rest s id o f} (hname : name.lexeme = initializerName)
      (ho : s.objects[id]? = some o) (hfield : o.fields.get? name.lexeme = none)
      (hf : o.cls.method? name.lexeme = some f) :
      TakesInit g ⟨.value (.object id), .get name :: rest, s⟩ (boundMethod s f) id
  | super {o method rest s d parent id f} (hname : method.lexeme = initializerName)
      (hd : g.distances[o.id]? = some d) (hparent : superclassAt s d o.name = .ok parent)
      (hid : receiverAt s d = .ok id) (hf : parent.method? method.lexeme = some f) :
      TakesInit g ⟨.eval (.super o method), rest, s⟩ (boundMethod s f) id

/-- A property that is no field is a method, which is bound. -/
theorem property_method {id : ObjectId} {name : Token} {o : Object} {f : Function}
    (ho : c.state.objects[id]? = some o) (hfield : o.fields.get? name.lexeme = none)
    (hf : o.cls.method? name.lexeme = some f) : c.property id name = c.yieldingMethod f id := by
  unfold property
  simp only [ho, hfield, hf]

/-- **What is taken** is an initializer, and it is bound to the object. -/
theorem TakesInit.step (hcarries : Carries .flagged c) {f : Function} {id : ObjectId}
    (h : TakesInit g c f id) :
    (c.step g).control = .value (.function f) ∧ f.isInitializer = true
      ∧ BoundTo (c.step g).state.scopes f id := by
  cases h with
  | @get name rest s id o f hname ho hfield hf =>
    have hstep : step g ⟨.value (.object id), .get name :: rest, s⟩
        = yieldingMethod ⟨.value (.object id), rest, s⟩ f id := property_method ho hfield hf
    have hmethod := (hcarries.state.objects id o ho).1 name.lexeme f hf
    rw [hstep]
    refine ⟨rfl, ?_, boundTo_bind s f id⟩
    show f.isInitializer = true
    rw [hmethod.2, hname]
    rfl
  | @super o method rest s d parent id f hname hd hparent hid hf =>
    have hstep : step g ⟨.eval (.super o method), rest, s⟩
        = yieldingMethod ⟨.eval (.super o method), rest, s⟩ f id :=
      (superMethod_eq method hd hparent hid).1 f hf
    have hclass : Trait.flagged.OfClass parent := hcarries.state.holds (.superclassAt hparent)
    have hmethod := hclass method.lexeme f hf
    rw [hstep]
    refine ⟨rfl, ?_, boundTo_bind s f id⟩
    show f.isInitializer = true
    rw [hmethod.2, hname]
    rfl

/-! ## §3. Calls. -/

variable {n m : Nat} {paren : Token} {arguments : Array Value}

/-- Callee and arguments of the next call have a trait. -/
theorem Carries.callee {K : Trait} (h : Carries K c) {callee : Value}
    (hpending : c.pending? = some (callee, paren, arguments)) : K.OfValue callee := by
  unfold pending? at hpending
  split at hpending
  · cases hpending
    exact h.control
  · cases hpending
    exact (h.frames _ List.mem_cons_self).1
  · cases hpending

/-- **The call of a bound method**, an initializer or one that sets up a new
object, yields the object unless it fails. -/
theorem Over.bound (h : Over g c n m) (hcarries : Carries .flagged c) {caller : ScopeId}
    {f : Function} {made : Option ObjectId} {id : ObjectId}
    (hmade : (run g (n + 1) c).frames = .call caller f made :: (run g n c).frames.tail)
    (hbound : BoundTo (run g (n + 1) c).state.scopes f id)
    (hresult : made = some id ∨ made = none ∧ f.isInitializer = true) (paren : Token) :
    CallFails g c n paren m ∨ (run g m c).control = .value (.object id) := by
  obtain ⟨k, rfl, hk, ⟨d, hbody, hfailed⟩ | ⟨v, hended⟩⟩ := h.last hmade
  · exact .inl (.body hk hbody hfailed)
  · -- `this` is what it was when the call began
    have hnow : BoundTo ((run g k c).state.endCall caller).scopes f id :=
      hbound.lasts (hcarries.lasts g hk)
    obtain ⟨r, hr, hobject⟩ := hnow.callResult v
    refine .inr ?_
    rw [hended, endingCall_eq hr]
    rcases hresult with rfl | ⟨rfl, hinit⟩
    · rfl
    · exact congrArg Control.value (hobject hinit)

/-- **The call of a bound initializer** yields its object, unless it fails. -/
theorem Over.initializer (h : Over g c n m) (hcarries : Carries .flagged c) {f : Function}
    {id : ObjectId} (hcalls : (run g n c).Calls (.function f) paren arguments)
    (hinit : f.isInitializer = true) (hbound : BoundTo (run g n c).state.scopes f id) :
    CallFails g c n paren m ∨ (run g m c).control = .value (.object id) := by
  rcases h.begun hcalls with hfails | hbegun
  · exact .inl hfails
  · refine h.bound hcarries (congrArg Config.frames hbegun) ?_ (.inr ⟨rfl, hinit⟩) paren
    rw [hbegun]
    exact hbound.lasts (Forest.lasts_child _ _ _)

/-- **The call of a class** yields a new object of it, unless it fails. -/
theorem Over.instance (h : Over g c n m) (hcarries : Carries .flagged c) {k : Class}
    (hcalls : (run g n c).Calls (.class k) paren arguments) :
    CallFails g c n paren m ∨ ∃ id o, (run g m c).control = .value (.object id)
      ∧ (run g n c).state.objects[id]? = none ∧ (run g m c).state.objects[id]? = some o
      ∧ o.cls = k := by
  rcases h.begun hcalls with hfails | hbegun
  · exact .inl hfails
  · let s := (run g n c).state
    have hnew : s.objects[s.objects.size]? = none := Array.getElem?_size
    -- the object is there after the first step, and keeps its class
    have hmade : (run g (n + 1) c).state.objects[s.objects.size]? = some ⟨k, []⟩
        ∧ ((run g (n + 1) c).control = .value (.object s.objects.size)
            ∧ (run g (n + 1) c).frames = (run g n c).frames.tail
          ∨ ∃ f, (run g (n + 1) c).frames
              = .call s.scope f (some s.objects.size) :: (run g n c).frames.tail
            ∧ BoundTo (run g (n + 1) c).state.scopes f s.objects.size) := by
      rw [hbegun]
      show (making _ k arguments).state.objects[s.objects.size]? = _ ∧ _
      unfold beginning making
      dsimp only
      cases hinit : k.initializer? with
      | none => exact ⟨Array.getElem?_push_size, .inl ⟨rfl, rfl⟩⟩
      | some f =>
        refine ⟨Array.getElem?_push_size, .inr ⟨_, rfl, ?_⟩⟩
        exact (boundTo_bind (s.addObject k) f s.objects.size).lasts (Forest.lasts_child _ _ _)
    obtain ⟨hobject, hwhere⟩ := hmade
    have hlast : CallFails g c n paren m
        ∨ (run g m c).control = .value (.object s.objects.size) := by
      rcases hwhere with ⟨hvalue, hframes⟩ | ⟨f, hframes, hbound⟩
      · obtain rfl := h.at_once hframes
        exact .inr hvalue
      · exact h.bound hcarries hframes hbound (.inl rfl) paren
    rcases hlast with hfails | hvalue
    · exact .inl hfails
    · have hwidens := widens_run g (m - (n + 1)) (run g (n + 1) c)
      rw [← run_add, Nat.add_sub_cancel' h.later] at hwidens
      obtain ⟨o, ho, hcls⟩ := hwidens.objects _ _ hobject
      exact .inr ⟨s.objects.size, o, hvalue, hnew, ho, hcls⟩

end Config

/-! ## §4. Calls without arguments. -/

/-- Whether a program is failing. -/
def Control.isRaising : Control → Bool
  | .raising _ => true
  | _ => false

namespace Config

/-- The class that is called next, without arguments. -/
def calledClass? : Config → Option (Class × Token)
  | ⟨.value (.class k), .callee paren [] :: _, _⟩ => if k.arity = 0 then some (k, paren) else none
  | _ => none

theorem calls_of_calledClass? {c : Config} {k : Class} {paren : Token}
    (h : c.calledClass? = some (k, paren)) : c.Calls (.class k) paren #[] := by
  unfold calledClass? at h
  split at h
  · split at h
    · next harity =>
      cases h
      exact ⟨⟨.class k, rfl, rfl⟩, harity.symm⟩
    · cases h
  · cases h

/-- The initializer that is taken from an object and then called, without
arguments. -/
def calledInit? : Config → Option (Function × ObjectId × Token)
  | ⟨.value (.object id), .get name :: .callee paren [] :: _, s⟩ =>
      match s.objects[id]? with
      | some o =>
          match o.fields.get? name.lexeme, o.cls.method? name.lexeme with
          | none, some f =>
              if name.lexeme = initializerName ∧ f.arity = 0 then
                some (boundMethod s f, id, paren)
              else none
          | _, _ => none
      | none => none
  | _ => none

theorem takesInit_of_calledInit? {c : Config} {f : Function} {id : ObjectId} {paren : Token}
    (g : Setting) (h : c.calledInit? = some (f, id, paren)) :
    c.TakesInit g f id ∧ (c.step g).Calls (.function f) paren #[] := by
  unfold calledInit? at h
  split at h
  · next id' name paren' rest s =>
    split at h
    · next o ho =>
      split at h
      · next f' hfield hmethod =>
        split at h
        · next hboth =>
          obtain ⟨hname, harity⟩ := hboth
          cases h
          refine ⟨.get hname ho hfield hmethod, ?_⟩
          have hstep : step g ⟨.value (.object id), .get name :: .callee paren [] :: rest, s⟩
              = yieldingMethod ⟨.value (.object id), .callee paren [] :: rest, s⟩ f' id :=
            property_method ho hfield hmethod
          rw [hstep]
          exact ⟨⟨.function _, rfl, rfl⟩, harity.symm⟩
        · cases h
      · cases h
    · cases h
  · cases h

end Config

/-! ## §5. Sessions. -/

namespace Session

open Config

variable {s : Session} {past : Setting → Config → Prop} {source : String}

/-- What has been taken as the initializer of an object is bound to it. -/
def Bound (past : Setting → Config → Prop) (F : Forest Value) : Prop :=
  ∀ g p f id, past g p → p.TakesInit g f id → f.isInitializer = true ∧ BoundTo F f id

theorem Bound.lasts {F F' : Forest Value} (hlasts : F.Lasts F') (h : Bound past F) :
    Bound past F' := by
  intro g p f id hp htakes
  obtain ⟨hinit, hbound⟩ := h g p f id hp htakes
  exact ⟨hinit, hbound.lasts hlasts⟩

/-- An accepted source starts with all traits of its shape. -/
theorem carries_flagged (hs : Trait.flagged.OfState s.machine.state) (h : s.Accepts source) :
    Carries .flagged (s.start source) := by
  refine ⟨fun st hst => h.proper.mem hst, ?_, hs⟩
  intro f hf
  cases hf

/-- **At every point of a run** all that has been taken as the initializer of an
object is bound to it. -/
theorem Bound.run (hs : Trait.flagged.OfState s.machine.state)
    (hbound : Bound past s.machine.state.scopes) (h : s.Accepts source) (clock : Clock) (n : Nat) :
    Bound (s.passing past n clock source)
      (Config.run (s.setting clock source) n (s.start source)).state.scopes := by
  have hcarries := carries_flagged hs h
  induction n with
  | zero =>
    rintro g p f id (hp | ⟨-, -, m, hm, -⟩) htakes
    · exact hbound g p f id hp htakes
    · exact absurd hm (Nat.not_lt_zero m)
  | succ n ih =>
    have hstep := ih.lasts (hcarries.lasts (s.setting clock source) (Nat.le_succ n))
    rintro g p f id (hp | ⟨-, rfl, m, hm, rfl⟩) htakes
    · exact hstep g p f id (.inl hp) htakes
    · by_cases hlast : m < n
      · exact hstep _ _ f id (.inr ⟨h, rfl, m, hlast, rfl⟩) htakes
      · obtain rfl : m = n := by omega
        rw [run_last]
        exact (htakes.step (hcarries.flagged _ m)).2

/-- **Every session that chunks lead to** keeps initializers bound to their
objects. -/
theorem Lived.bound (h : Lived past s) :
    Trait.flagged.OfState s.machine.state ∧ Bound past s.machine.state.scopes := by
  induction h with
  | new capacity =>
    refine ⟨Trait.ofState_initial _ capacity, ?_⟩
    intro g p f id hp
    exact hp.elim
  | @run past s hs fuel clock source hended ih =>
    obtain ⟨hstate, hbound⟩ := ih
    by_cases haccepts : s.Accepts source
    · rw [run_eq haccepts fuel clock]
      have hcarries := carries_flagged hstate haccepts
      exact ⟨(hcarries.flagged _ fuel).state, hbound.run hstate haccepts clock fuel⟩
    · rw [(run_rejected haccepts fuel clock).1]
      refine ⟨hstate, ?_⟩
      rintro g p f id (hp | ⟨haccepted, -⟩) htakes
      · exact hbound g p f id hp htakes
      · exact absurd haccepted haccepts

/-- **Initializers always yield their instance.**  Take any chunks and an
accepted source after them.  A call that is made at some point of its run is in
progress at all later points, or it is over at one of them.  The call of a class
that is over has failed, since the limit on calls refused it or its body failed,
or it has yielded an object of exactly this class that did not exist when the
call was made.  And whatever was taken at an earlier point, of this chunk or of
one before, as the method `init` of an object, from its class or by `super`: a
call of this function that is over has failed in the same way, or it has yielded
this object, however its body came to its end and whatever was done since. -/
theorem initializer_yields_instance {past : Setting → Config → Prop} {s : Session}
    (hs : Lived past s) {source : String} (h : s.Accepts source) (clock : Clock) :
    let g := s.setting clock source
    let start := s.start source
    let point (n : Nat) := Config.run g n start
    (∀ n callable paren arguments, (point n).Calls callable paren arguments →
      ∀ k, n < k → InProgress g start n k ∨ ∃ m ≤ k, Over g start n m)
    ∧ (∀ n m k paren arguments, (point n).Calls (.class k) paren arguments → Over g start n m →
      CallFails g start n paren m ∨ ∃ id o, (point m).control = .value (.object id)
        ∧ (point n).state.objects[id]? = none ∧ (point m).state.objects[id]? = some o ∧ o.cls = k)
    ∧ ∀ n m f id paren arguments,
      (∃ g' p, s.passing past n clock source g' p ∧ p.TakesInit g' f id) →
      (point n).Calls (.function f) paren arguments → Over g start n m →
      CallFails g start n paren m ∨ (point m).control = .value (.object id) := by
  intro g start point
  obtain ⟨hstate, hbound⟩ := hs.bound
  have hcarries : Carries .flagged start := carries_flagged hstate h
  refine ⟨fun n callable paren arguments hcalls k hk => inProgress_or_over hcalls hk,
    fun n m k paren arguments hcalls hover => hover.instance hcarries hcalls, ?_⟩
  rintro n m f id paren arguments ⟨g', p, hp, htakes⟩ hcalls hover
  obtain ⟨hinit, hnow⟩ := hbound.run hstate h clock n g' p f id hp htakes
  exact hover.initializer hcarries hcalls hinit hnow

/-- An initializer that returns early is called with its class, and once more as
a method of the object. -/
theorem initializer_yields_instance_returning :
    let s := Session.new none
    let source := "class A \x7b init() \x7b return; \x7d \x7d A().init();"
    let g := s.setting (.still 0) source
    let start := s.start source
    let point (n : Nat) := Config.run g n start
    ∃ past, Lived past s ∧ s.Accepts source
      ∧ (∃ m k paren id o, (point 9).Calls (.class k) paren #[] ∧ Over g start 9 m
        ∧ (point m).control = .value (.object id) ∧ (point 9).state.objects[id]? = none
        ∧ (point m).state.objects[id]? = some o ∧ o.cls = k)
      ∧ ∃ m f id paren, (point 14).TakesInit g f id ∧ (point 15).Calls (.function f) paren #[]
        ∧ Over g start 15 m ∧ (point m).control = .value (.object id) := by
  intro s source g start point
  have hs : Lived _ s := .new none
  have h : s.Accepts source := ⟨by decide +kernel, by decide +kernel⟩
  -- nothing fails up to the end of both calls
  have hfails : ∀ n paren m, m ≤ 20 → ¬ CallFails g start n paren m := by
    have hnone : ∀ m < 21, (point m).control.isRaising = false := by decide +kernel
    intro n paren m hm hfails
    have hquiet := hnone m (Nat.lt_succ_of_le hm)
    cases hfails with
    | refused hraising | body _ _ hraising =>
      change (Config.run g _ start).control.isRaising = false at hquiet
      rw [hraising] at hquiet
      cases hquiet
  obtain ⟨k, paren, hclass⟩ : ∃ k paren, (point 9).calledClass? = some (k, paren) := by
    have hsome : (point 9).calledClass?.isSome = true := by decide +kernel
    obtain ⟨⟨k, paren⟩, hk⟩ := Option.isSome_iff_exists.mp hsome
    exact ⟨k, paren, hk⟩
  obtain ⟨f, id, paren', htaken⟩ : ∃ f id paren, (point 14).calledInit? = some (f, id, paren) := by
    have hsome : (point 14).calledInit?.isSome = true := by decide +kernel
    obtain ⟨⟨f, id, paren⟩, hf⟩ := Option.isSome_iff_exists.mp hsome
    exact ⟨f, id, paren, hf⟩
  have hcalls := calls_of_calledClass? hclass
  obtain ⟨htakes, hcalls'⟩ := takesInit_of_calledInit? g htaken
  rw [← Config.run_last] at hcalls'
  obtain ⟨m, hm, hover⟩ := exists_over (k := 14) hcalls (by decide) (by decide +kernel)
  obtain ⟨m', hm', hover'⟩ := exists_over (k := 20) hcalls' (by decide) (by decide +kernel)
  obtain ⟨-, hinstance, hinit⟩ := initializer_yields_instance hs h (.still 0)
  have hpassed : s.passing (fun _ _ => False) 15 (.still 0) source g (point 14) :=
    .inr ⟨h, rfl, 14, by decide, rfl⟩
  refine ⟨_, hs, h, ?_, m', f, id, paren', htakes, hcalls', hover', ?_⟩
  · rcases hinstance 9 m k paren #[] hcalls hover with hfailed | ⟨id, o, hvalue, hnew, ho, hcls⟩
    · exact absurd hfailed (hfails 9 paren m (Nat.le_trans hm (by decide)))
    · exact ⟨m, k, paren, id, o, hcalls, hover, hvalue, hnew, ho, hcls⟩
  · rcases hinit 15 m' f id paren' #[] ⟨g, _, hpassed, htakes⟩ hcalls' hover' with hfailed | hvalue
    · exact absurd hfailed (hfails 15 paren' m' hm')
    · exact hvalue

end Session

end Lox
