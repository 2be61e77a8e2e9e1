/-
  Lox.Proofs.Session.Supers
  ─────────────────────────
  **`super` BELONGS TO THE DECLARATION, `this` TO THE CALL.**

  A class keeps the superclass that its name stood for when it was declared:
  the declaration puts it into a scope that nothing changes afterwards.  A use
  of `super` in a method, wherever the method is called and whatever object it
  is bound to, finds its way back to that scope, in the chunk of the class or
  in a later one; the method it yields is bound to the object that `this`
  stands for.

  A session is followed here together with all points that its programs have
  passed, so that the declaration can be named.
-/
import Lox.Proofs.Machine.Origins
import Lox.Proofs.Session.Orientation

namespace Lox

open Lockstep Resolve

/-! ## §1. What `super` yields. -/

/-- The scope at a distance, followed from the far end. -/
theorem Forest.ancestor?_succ {α : Type} (F : Forest α) (n : ScopeId) (d : Nat) :
    F.ancestor? n (d + 1) = (F.ancestor? n d).bind F.enclosing? := by
  induction d generalizing n with
  | zero =>
    show (F.enclosing? n).bind some = F.enclosing? n
    exact Option.bind_fun_some _
  | succ d ih =>
    rw [Forest.ancestor?, Forest.ancestor?]
    cases F.enclosing? n with
    | none => rfl
    | some p => exact ih p

/-- The variable that is being evaluated. -/
def Control.reading? : Control → Option Occurrence
  | .eval (.variable o) => some o
  | _ => none

theorem Control.eq_of_reading? {control : Control} {o : Occurrence}
    (h : control.reading? = some o) : control = .eval (.variable o) := by
  cases control with
  | eval e =>
    cases e with
    | «variable» o' =>
      cases h
      rfl
    | _ => cases h
  | _ => cases h

/-- The use of `super` that is being evaluated. -/
def Control.super? : Control → Option (Occurrence × Token)
  | .eval (.super o method) => some (o, method)
  | _ => none

theorem Control.eq_of_super? {control : Control} {o : Occurrence} {method : Token}
    (h : control.super? = some (o, method)) : control = .eval (.super o method) := by
  cases control with
  | eval e =>
    cases e with
    | super o' method' =>
      cases h
      rfl
    | _ => cases h
  | _ => cases h

namespace Config

variable {past past' : Setting → Config → Prop} {g : Setting} {c : Config} {o : Occurrence}
  {method : Token}

/-- The object that `super` binds its method to is in the scope just inside the
one of the superclass. -/
theorem getAt_of_receiverAt {s : State} {e : Nat} {id : ObjectId}
    (h : receiverAt s (e + 1) = .ok id) : s.scopes.getAt s.scope e "this" = .ok (.object id) := by
  unfold receiverAt at h
  dsimp only at h
  split at h
  · cases h
  · next hget =>
    cases h
    exact hget
  · cases h

theorem get?_of_getAt {F : Forest Value} {n t : ScopeId} {e : Nat} {name : String} {v : Value}
    (ht : F.ancestor? n e = some t) (h : F.getAt n e name = .ok v) :
    (F.bindings t).get? name = some v := by
  unfold Forest.getAt at h
  rw [ht] at h
  dsimp only at h
  split at h
  · next hget =>
    cases h
    exact hget
  · cases h

/-- What a use of `super` does once its class and its object are known. -/
theorem superMethod_eq {d : Nat} {parent : Class} {id : ObjectId} (method : Token)
    (hd : g.distances[o.id]? = some d) (hparent : superclassAt c.state d o.name = .ok parent)
    (hid : receiverAt c.state d = .ok id) :
    (∀ f, parent.method? method.lexeme = some f →
        superMethod g c o method = c.yieldingMethod f id)
      ∧ (parent.method? method.lexeme = none →
        superMethod g c o method = c.failing method.line (.undefinedProperty method.lexeme)) := by
  unfold superMethod
  rw [hd]
  dsimp only
  rw [hparent]
  dsimp only
  rw [hid]
  dsimp only
  refine ⟨?_, ?_⟩
  · intro f hf
    rw [hf]
  · intro hnone
    rw [hnone]

/-- **A use of `super`** takes a method of the superclass that its class was
declared with, for the object that `this` stands for. -/
theorem Sourced.super (h : c.Sourced past g) (horiented : c.Oriented g)
    (hcontrol : c.control = .eval (.super o method)) :
    ∃ g' p methods S t id, past g' p ∧ p.Inherits g' methods S
      ∧ (∃ m ∈ methods, ∃ k, m.Super k o)
      ∧ c.state.scopes.holder? "this" c.state.scope = some t
      ∧ c.state.scopes.enclosing? t = some (methodScope p.state (some S))
      ∧ c.state.scopes.get c.state.scope "this" = .ok (.object id)
      ∧ (∀ f, S.method? method.lexeme = some f → c.step g = c.yieldingMethod f id)
      ∧ (S.method? method.lexeme = none →
        c.step g = c.failing method.line (.undefinedProperty method.lexeme)) := by
  have hcode := h.control
  rw [hcontrol] at hcode
  obtain ⟨hname, hsuper⟩ := hcode
  change o.name.lexeme = "super" at hname
  -- by its place in the code, and by what its distance leads to
  obtain ⟨e, t, a, hd, ht, hholder, ha, g', p, methods, S, m, k, hpast, hinherits, hscope, hm, ho,
    hS⟩ := hsuper 0 o .here
  obtain ⟨d, a', parent, id, hd', ha', hparent, hclass, hid⟩ := horiented.super o method hcontrol
  change g.distances[o.id]? = some (0 + e + 1) at hd
  change c.state.scopes.ancestor? c.state.scope e = some t at ht
  rw [hd, Option.some_inj, Nat.zero_add] at hd'
  subst hd'
  -- both accounts of the scope of `super` agree
  rw [Forest.ancestor?_succ, ht, Option.bind_some] at ha'
  obtain rfl : a = a' := Option.some.inj (ha.symm.trans ha')
  rw [hname] at hparent
  obtain rfl : S = parent := by
    rw [show c.state.scopes = (c.story past g).scopes from rfl, hS] at hparent
    cases hparent
    rfl
  have hthis := get?_of_getAt ht (getAt_of_receiverAt hid)
  have hget : c.state.scopes.get c.state.scope "this" = .ok (.object id) := by
    unfold Forest.get
    rw [show c.state.scopes.holder? "this" c.state.scope = some t from hholder, Option.bind_some,
      hthis]
  have hstep : c.step g = superMethod g c o method := by
    unfold Config.step
    rw [hcontrol]
    rfl
  rw [Nat.zero_add] at hd
  obtain ⟨hfound, hmissing⟩ := superMethod_eq method hd hclass hid
  rw [hstep]
  exact ⟨g', p, methods, S, t, id, hpast, hinherits, ⟨m, hm, k, ho⟩, hholder, hscope ▸ ha, hget,
    hfound, hmissing⟩

/-- A variable without a distance is a global one. -/
theorem step_global (hcontrol : c.control.reading? = some o)
    (hd : g.distances[o.id]? = none) :
    c.step g = c.settling o.name.line (c.state.scopes.get globalScope o.name.lexeme) := by
  obtain ⟨control, frames, s⟩ := c
  obtain rfl := Control.eq_of_reading? hcontrol
  show settling _ _ (lookUp g s o) = _
  unfold lookUp
  rw [hd]

/-- More points of the past do no harm. -/
theorem Sourced.past_mono (hpast : ∀ g' p, past g' p → past' g' p) (h : c.Sourced past g) :
    c.Sourced past' g := by
  have hW : (c.story past g).Continues (c.story past' g) :=
    ⟨hpast, fun _ _ hd => hd, .refl c.state.scopes⟩
  have himp := Trait.origins_imp (n := c.state.scope) hW
  exact ⟨Trait.OfControl.imp himp h.control, h.frames.mono hW, Trait.OfState.imp himp h.state⟩

end Config

/-! ## §2. Sessions and their past. -/

namespace Session

/-- The points that are passed in `n` steps of a source, after some others. -/
def passing (s : Session) (past : Setting → Config → Prop) (n : Nat) (clock : Clock)
    (source : String) (g : Setting) (p : Config) : Prop :=
  past g p ∨ s.Accepts source ∧ g = s.setting clock source
    ∧ ∃ m < n, p = Config.run (s.setting clock source) m (s.start source)

/-- A session that some chunks lead to, each of which came to an end, with all
points that their programs have passed. -/
inductive Lived : (Setting → Config → Prop) → Session → Prop
  | new (capacity : Option Nat) : Lived (fun _ _ => False) (.new capacity)
  | run {past s} (h : Lived past s) (fuel : Nat) (clock : Clock) (source : String)
      (hended : (s.run fuel clock source).2 ≠ .unfinished) :
      Lived (s.passing past fuel clock source) (s.run fuel clock source).1

variable {s : Session} {past : Setting → Config → Prop}

theorem Lived.reachable (h : Lived past s) : s.Reachable := by
  induction h with
  | new capacity => exact .new capacity
  | run _ fuel clock source hended ih => exact .run ih fuel clock source hended

/-- Every reachable session has a past. -/
theorem Reachable.lived (h : s.Reachable) : ∃ past, Lived past s := by
  induction h with
  | new capacity => exact ⟨_, .new capacity⟩
  | run _ fuel clock source hended ih =>
    obtain ⟨past, h⟩ := ih
    exact ⟨_, .run h fuel clock source hended⟩

/-- What has happened so far, between two chunks. -/
def story (s : Session) (past : Setting → Config → Prop) : Story :=
  ⟨past, s.machine.distances, s.machine.state.scopes⟩

/-- All functions and classes in store have their uses of `super` where they
belong. -/
def Stored (past : Setting → Config → Prop) (s : Session) : Prop :=
  (Trait.origins (s.story past) globalScope).OfState s.machine.state

theorem stored_new (capacity : Option Nat) :
    Stored (fun _ _ => False) (.new capacity) := by
  refine ⟨?_, ?_⟩
  · intro id name v hv
    change ((State.initial capacity).scopes.bindings id).get? name = some v at hv
    rw [get?_initial] at hv
    split at hv <;> cases hv
    trivial
  · intro id o ho
    cases ho

/-- **At every point of a run** the uses of `super` are where they belong. -/
theorem Stored.run (hs : Stored past s) (hk : s.Kept) {source : String} (h : s.Accepts source)
    (clock : Clock) (n : Nat) :
    let c := Config.run (s.setting clock source) n (s.start source)
    c.Sourced (s.passing past n clock source) (s.setting clock source)
      ∧ c.Asking (s.passing past n clock source) := by
  induction n with
  | zero =>
    have hW : (s.story past).Continues
        ((s.start source).story (s.passing past 0 clock source) (s.setting clock source)) :=
      ⟨fun g p hp => .inl hp, h.distances_mono hk.fresh clock, .refl s.machine.state.scopes⟩
    refine ⟨⟨?_, .bottom, ?_⟩, .idle ?_⟩
    · -- a new program has no `super` outside its classes
      intro st hst
      exact ⟨h.proper.mem hst, fun k o ho => absurd ho (not_super_of_top (h.bound hk) hst)⟩
    · exact Trait.origins_ofState (Trait.OfState.imp (Trait.origins_imp hW) hs)
    · intro f hf
      cases hf
  | succ n ih =>
    obtain ⟨hsourced, hasking⟩ := ih
    dsimp only
    rw [Config.run_last]
    -- the point that is left belongs to the past from now on
    have hpassed : s.passing past (n + 1) clock source (s.setting clock source)
        (Config.run (s.setting clock source) n (s.start source)) :=
      .inr ⟨h, rfl, n, Nat.lt_succ_self n, rfl⟩
    refine ⟨(hsourced.step (s.charted clock source) (hk.run h clock n) hasking).past_mono ?_,
      hasking.step hpassed⟩
    rintro g p (hp | ⟨-, hg, m, hm, hp⟩)
    · exact .inl hp
    · exact .inr ⟨h, hg, m, Nat.lt_succ_of_lt hm, hp⟩

/-- **Every session that chunks lead to stores them so.** -/
theorem Lived.stored (h : Lived past s) : Stored past s := by
  induction h with
  | new capacity => exact stored_new capacity
  | @run past s hs fuel clock source hended ih =>
    by_cases haccepts : s.Accepts source
    · have hsourced := (ih.run (kept_of_reachable hs.reachable) haccepts clock fuel).1
      rw [run_eq haccepts fuel clock]
      exact Trait.origins_ofState hsourced.state
    · rw [(run_rejected haccepts fuel clock).1]
      have hW : (s.story past).Continues (s.story (s.passing past fuel clock source)) :=
        ⟨fun g p hp => .inl hp, fun _ _ hd => hd, .refl s.machine.state.scopes⟩
      exact Trait.OfState.imp (Trait.origins_imp hW) ih

/-- **`super` is static in the class and dynamic in the receiver.**  Take any
chunks and an accepted source after them.  Wherever its run, in code of this
source or of earlier ones, evaluates a use of `super`, there is a point that was
passed before at which a class declaration looked up the name of its superclass
and found a class `S`, with which it then declared its class; and the use stands
in a method of that declaration, directly or in functions and blocks.  The
nearest `this` around is in a scope just inside the one that the methods of this
very class close over, and stands for an object.  The method that is taken is
the one `S` answers with, whatever the class of the object is and whatever the
names of both classes stand for by now; it is bound to that object.  If `S` has
no such method, the property is undefined. -/
theorem super_of_declaration {past : Setting → Config → Prop} {s : Session} (hs : Lived past s)
    {source : String} (h : s.Accepts source) (clock : Clock) :
    let g := s.setting clock source
    let point (n : Nat) := Config.run g n (s.start source)
    ∀ n o method, (point n).control = .eval (.super o method) →
      ∃ g' p methods S t id, s.passing past n clock source g' p ∧ p.Inherits g' methods S
        ∧ (∃ name rest, (p.step g').step g'
          = Config.declaringClass ⟨.value (.class S), rest, p.state⟩ name (some S) methods)
        ∧ (∃ m ∈ methods, ∃ k, m.Super k o)
        ∧ (point n).state.scopes.holder? "this" (point n).state.scope = some t
        ∧ (point n).state.scopes.enclosing? t = some (Config.methodScope p.state (some S))
        ∧ (point n).state.scopes.get (point n).state.scope "this" = .ok (.object id)
        ∧ (∀ f, S.method? method.lexeme = some f →
          (point n).step g = (point n).yieldingMethod f id)
        ∧ (S.method? method.lexeme = none →
          (point n).step g = (point n).failing method.line (.undefinedProperty method.lexeme)) := by
  intro g point n o method hcontrol
  have hk := kept_of_reachable hs.reachable
  obtain ⟨hsourced, -⟩ := hs.stored.run hk h clock n
  have horiented := (hk.run h clock n).oriented (s.charted clock source)
  obtain ⟨g', p, methods, S, t, id, hpast, hinherits, hrest⟩ := hsourced.super horiented hcontrol
  exact ⟨g', p, methods, S, t, id, hpast, hinherits, hinherits.declares, hrest⟩

/-- A method of a later chunk takes the one of an earlier chunk. -/
theorem super_of_declaration_later :
    let s := ((Session.new none).run 60 (.still 0) "class A \x7b m() \x7b\x7d \x7d").1
    let source := "class B < A \x7b m() \x7b super.m(); \x7d \x7d B().m();"
    let g := s.setting (.still 0) source
    let point (n : Nat) := Config.run g n (s.start source)
    ∃ past o method g' p methods S t id, Lived past s ∧ s.Accepts source
      ∧ (point 17).control = .eval (.super o method)
      ∧ s.passing past 17 (.still 0) source g' p ∧ p.Inherits g' methods S
      ∧ (point 17).state.scopes.enclosing? t = some (Config.methodScope p.state (some S))
      ∧ (point 17).state.scopes.get (point 17).state.scope "this" = .ok (.object id) := by
  intro s source g point
  have hs : Lived _ s :=
    .run (.new none) 60 (.still 0) _ (Outcome.ne_unfinished (by decide +kernel))
  have h : s.Accepts source := ⟨by decide +kernel, by decide +kernel⟩
  -- the use of `super` is the only occurrence with a distance
  have hglobal : ∀ id, id ≠ 1 → g.distances[id]? = none := by
    intro id hid
    have hlearned : (s.resolution source).distances = [(1, 2)] := by decide +kernel
    have hnext : s.nextId = 0 := by decide +kernel
    have hfresh := (kept_of_reachable hs.reachable).fresh id (hnext ▸ Nat.zero_le id)
    rw [h.getElem?_distances, hlearned, hfresh, Option.or_none, List.lookup_cons]
    have hbeq : (id == 1) = false := by simpa using hid
    rw [hbeq]
    rfl
  let named (c : Config) (name : String) : Config :=
    c.settling 1 (c.state.scopes.get globalScope name)
  have hA : point 3 = named (point 2) "A" := by
    have hcontrol : (point 2).control.reading? = some ⟨0, ⟨.identifier, "A", 1⟩⟩ := by
      decide +kernel
    exact (Config.run_last g 2 _).trans (Config.step_global hcontrol (hglobal 0 (by decide)))
  have hB : point 11 = named (Config.run g 7 (named (point 2) "A")) "B" := by
    have hcontrol : (Config.run g 7 (named (point 2) "A")).control.reading?
        = some ⟨2, ⟨.identifier, "B", 1⟩⟩ := by decide +kernel
    rw [← hA] at hcontrol ⊢
    have hten : point 10 = Config.run g 7 (point 3) := Config.run_add g 3 7 _
    rw [← hten] at hcontrol ⊢
    exact (Config.run_last g 10 _).trans (Config.step_global hcontrol (hglobal 2 (by decide)))
  have hsuper : (point 17).control
      = .eval (.super ⟨1, ⟨.kwSuper, "super", 1⟩⟩ ⟨.identifier, "m", 1⟩) := by
    have hlater : point 17 = Config.run g 6 (point 11) := Config.run_add g 11 6 _
    rw [hlater, hB]
    exact Control.eq_of_super? (by decide +kernel)
  obtain ⟨g', p, methods, S, t, id, hpast, hinherits, -, -, -, ht, hthis, -⟩ :=
    super_of_declaration hs h (.still 0) 17 _ _ hsuper
  exact ⟨_, _, _, g', p, methods, S, t, id, hs, h, hsuper, hpast, hinherits, ht, hthis⟩

end Session

end Lox
