/-
  Lox.Proofs.Machine.Carried
  ──────────────────────────
  **CODE COMES FROM CODE.**

  A running program makes no code of its own: what it evaluates and executes,
  what waits in its frames and what its functions and methods hold are pieces
  of the code it was started with, or of the code that its store held then.  So
  a trait that whole pieces of code pass on to everything inside them
  (`Trait.Closed`) is carried through a run by the configuration as a whole
  (`Config.Carries`).

  Main results:
    * `Carries.step`, `Carries.run`: what has a closed trait keeps it.
    * `Trait.closed_numbered`: the numbers of occurrences are passed on, so a
      program meets no number that neither its code nor its store had.
-/
import Lox.Proofs.Machine.Origins
import Lox.Proofs.Syntax.Occurrences

namespace Lox

open Lockstep

/-! ## §1. Closed traits. -/

/-- **A trait that is passed on to all code inside**: from blocks, functions and
classes to their bodies, and from functions and methods in store to theirs.
That a bound method is a function with the trait is left open, since the trait
may depend on when it was bound. -/
structure Trait.Closed (K : Trait) : Prop where
  part : K.Hereditary
  block : ∀ {body}, K.code (.stmt (.block body)) → ∀ st ∈ body, K.code (.stmt st)
  declared : ∀ {decl}, K.code (.stmt (.function decl)) →
    ∀ identity closure, K.function ⟨identity, decl, closure, false⟩
  method : ∀ {name parent methods}, K.code (.stmt (.class name parent methods)) →
    ∀ own f closure, Function.Tabled f closure methods own → K.method own f
  functionBody : ∀ {f : Function}, K.function f → ∀ st ∈ f.decl.body, K.code (.stmt st)
  methodBody : ∀ {own f}, K.method own f → ∀ st ∈ f.decl.body, K.code (.stmt st)

/-- Before anything has run there is no code in store. -/
theorem Trait.ofState_initial (K : Trait) (capacity : Option Nat) :
    K.OfState (.initial capacity) := by
  refine Trait.ofState_iff.mpr fun v hv => ?_
  rw [State.holds_initial hv]
  trivial

/-! ## §2. Configurations. -/

namespace Config

/-- What is done, all frames and the store have a trait. -/
structure Carries (K : Trait) (c : Config) : Prop where
  control : K.OfControl c.control
  frames : ∀ f ∈ c.frames, K.OfFrame f
  state : K.OfState c.state

variable {K : Trait} {c : Config} {rest popped added : List Frame}

theorem Carries.drop (h : ∀ f ∈ popped ++ rest, K.OfFrame f) : ∀ f ∈ rest, K.OfFrame f :=
  fun f hf => h f (List.mem_append_right popped hf)

theorem Carries.push {frame : Frame} (hframe : K.OfFrame frame) (h : ∀ f ∈ rest, K.OfFrame f) :
    ∀ f ∈ frame :: rest, K.OfFrame f :=
  List.forall_mem_cons.mpr ⟨hframe, h⟩

/-- A trait that all code has is carried if all values have it. -/
theorem All.carries (hcode : ∀ code, K.code code) (h : c.All K.OfValue) : Carries K c := by
  refine ⟨?_, ?_, Trait.ofState_iff.mpr h.state⟩
  · have hcontrol := h.control
    generalize c.control = control at hcontrol
    cases control with
    | eval | exec => exact hcode _
    | execAll => exact fun _ _ => hcode _
    | value v | returning v => exact hcontrol v List.mem_cons_self
    | _ => trivial
  · intro frame hframe
    have hvalues := h.frames frame hframe
    cases frame with
    | binaryLeft | logical | setObject | loopTest | loopBody | superclass => exact hcode _
    | binaryRight left op => exact hvalues left List.mem_cons_self
    | assign target => exact ⟨.this target, hcode _⟩
    | callee | sequence => exact fun _ _ => hcode _
    | argument callee paren earlier rest =>
      obtain ⟨hcallee, hearlier⟩ := List.forall_mem_cons.mp hvalues
      exact ⟨hcallee, hearlier, fun _ _ => hcode _⟩
    | define name => exact ⟨none, hcode _⟩
    | branch th el => exact ⟨hcode _, fun _ _ => hcode _⟩
    | _ => trivial

/-- A class is declared whose methods have the trait. -/
theorem carries_declaringClass {control : Control} {s : State} {name : Token}
    {parent : Option Class} {methods : List (FunctionDecl Stmt)}
    (hframes : ∀ f ∈ rest, K.OfFrame f) (hstate : K.OfState s)
    (hparent : ∀ k ∈ parent, K.OfClass k)
    (hown : ∀ own f closure, Function.Tabled f closure methods own → K.method own f) :
    Carries K (declaringClass ⟨control, rest, s⟩ name parent methods) := by
  have hafter := hstate.declaringClass control rest name hparent
    (Trait.ofClass_declared (fun own f => hown own f _) hparent)
  obtain ⟨control', s', heq, houtcome, -⟩ := declaringClass_outcome control rest s name parent
    methods
  rw [heq] at hafter ⊢
  refine ⟨?_, hframes, hafter⟩
  rcases houtcome with rfl | ⟨d, rfl⟩ <;> trivial

/-- **A step carries a closed trait on**, if a method that the step binds has
it as a function. -/
theorem Carries.step (hK : K.Closed) (g : Setting) (h : Carries K c)
    (hbind : ∀ own f id rest, K.method own f → c.step g = yieldingMethod ⟨c.control, rest, c.state⟩ f id →
      K.function (boundMethod c.state f)) :
    Carries K (c.step g) := by
  obtain ⟨hcontrol, hframes, hstate⟩ := h
  have hhead : ∀ f ∈ c.frames.head?, K.OfFrame f :=
    fun f hf => hframes f (List.mem_of_mem_head? hf)
  have hmove := moves_step hK.part g hcontrol hhead hstate
  generalize c.step g = c' at hmove hbind
  -- that the trait is closed settles every kind of step but the one that binds a method
  cases hmove with
  | on hpopped _ _ _ _ hcontrol' hadded hstate' =>
    refine ⟨hcontrol', ?_, hstate'⟩
    intro f hf
    rcases List.mem_append.mp hf with hnew | hold
    · exact hadded f hnew
    · exact hframes f (List.mem_append_right _ hold)
  | @function decl rest s hcode =>
    have hused : K.OfState (s.useIdentities 1) := ⟨hstate.scopes, hstate.objects⟩
    exact ⟨trivial, hframes, hused.define _ _ (hK.declared hcode s.nextIdentity s.scope)⟩
  | @bind control popped rest s own f id hpopped hf =>
    have hbound : K.function (boundMethod s f) := hbind own f id rest hf rfl
    exact ⟨hbound, drop hframes, hstate.bind f id⟩
  | @call control popped rest s f arguments hpopped hf harguments =>
    exact ⟨hK.functionBody hf, push trivial (drop hframes),
      hstate.entering control rest f harguments none⟩
  | @make control popped rest s k f arguments hpopped hk hf harguments =>
    have hobject := (hstate.addObject hk).bind f s.objects.size
    have hbody : ∀ st ∈ f.decl.body, K.code (.stmt st) := hK.methodBody hf
    exact ⟨hbody, push trivial (drop hframes),
      hobject.entering control rest _ harguments _⟩
  | @plain name methods rest s hcode =>
    refine carries_declaringClass hframes (hstate.define _ _ trivial) ?_ (hK.method hcode)
    intro k hk
    cases hk
  | @parent name o methods rest s hcode =>
    exact ⟨hK.part .parent hcode, push hcode hframes, hstate.define _ _ trivial⟩
  | @derived k name o methods rest s hk hcode =>
    refine carries_declaringClass (List.forall_mem_cons.mp hframes).2 hstate ?_ (hK.method hcode)
    rintro _ ⟨⟩
    exact hk
  | @block body rest s hcode =>
    have hopened := hstate.child s.scope (b := []) (by intro name v hv; cases hv)
    exact ⟨hK.block hcode, push trivial hframes, ⟨hopened.scopes, hopened.objects⟩⟩
  | leave hleaves =>
    refine ⟨?_, (List.forall_mem_cons.mp hframes).2, ⟨hstate.scopes, hstate.objects⟩⟩
    cases hleaves with
    | returning => exact hcontrol
    | _ => trivial
  | ended houtcome =>
    refine ⟨?_, (List.forall_mem_cons.mp hframes).2, ⟨hstate.scopes, hstate.objects⟩⟩
    rcases houtcome with ⟨v, rfl, hv⟩ | ⟨d, rfl⟩
    · exact hv
    · trivial

/-- **A run carries a closed trait on**, if bound methods have it as functions. -/
theorem Carries.run (hK : K.Closed) (hbind : ∀ s own f, K.method own f → K.function (boundMethod s f))
    (h : Carries K c) (g : Setting) (n : Nat) : Carries K (run g n c) :=
  run_keeps (fun c hc => hc.step hK g fun own f _ _ hf _ => hbind c.state own f hf) h n

end Config

/-! ## §3. The numbers of occurrences. -/

/-- All occurrences in a piece of code. -/
def Code.occurrences : Code → List Occurrence
  | .expr e => e.occurrences
  | .stmt st => st.occurrences

theorem Expr.occurrences_subset_of_mem {es : List Expr} {e : Expr} (h : e ∈ es) :
    e.occurrences ⊆ occurrencesAll es := by
  induction es with
  | nil => cases h
  | cons e' es ih =>
    rcases List.mem_cons.mp h with rfl | h
    · exact List.subset_append_left _ _
    · exact List.subset_append_of_subset_right _ (ih h)

theorem Stmt.occurrences_subset_of_mem {ss : List Stmt} {st : Stmt} (h : st ∈ ss) :
    st.occurrences ⊆ occurrencesAll ss := by
  induction ss with
  | nil => cases h
  | cons st' ss ih =>
    rcases List.mem_cons.mp h with rfl | h
    · exact List.subset_append_left _ _
    · exact List.subset_append_of_subset_right _ (ih h)

/-- The body of a method belongs to the methods of its class. -/
theorem Stmt.occurrencesAll_subset_of_method {methods : List (FunctionDecl Stmt)}
    {m : FunctionDecl Stmt} (h : m ∈ methods) :
    occurrencesAll m.body ⊆ occurrencesMethods methods := by
  induction methods with
  | nil => cases h
  | cons m' methods ih =>
    rcases List.mem_cons.mp h with rfl | h
    · cases m
      exact List.subset_append_left _ _
    · exact List.subset_append_of_subset_right _ (ih h)

/-- The occurrences of a part are occurrences of the whole. -/
theorem Code.Part.occurrences_subset {whole part : Code} (h : Code.Part whole part) :
    part.occurrences ⊆ whole.occurrences := by
  cases h with
  | unary | grouping | getObject | expression | print | initializer | returned =>
    exact List.Subset.refl _
  | binaryLeft | logicalLeft | assigned | callee | setValue | whileCondition =>
    exact List.subset_append_left _ _
  | binaryRight | logicalRight | setObject | whileBody => exact List.subset_append_right _ _
  | argument he =>
    exact List.subset_append_of_subset_right _ (Expr.occurrences_subset_of_mem he)
  | @ifCondition _ _ el => cases el <;> exact List.subset_append_left _ _
  | @thenBranch _ _ el =>
    cases el with
    | none => exact List.subset_append_right _ _
    | some el => exact List.subset_append_of_subset_right _ (List.subset_append_left _ _)
  | elseBranch => exact List.subset_append_of_subset_right _ (List.subset_append_right _ _)
  | parent => exact List.subset_append_left _ _

namespace Trait

/-- All occurrences have numbers of a certain kind. -/
def numbered (P : Nat → Prop) : Trait where
  code c := ∀ o ∈ c.occurrences, P o.id
  function f := ∀ o ∈ Stmt.occurrencesAll f.decl.body, P o.id
  method _ f := ∀ o ∈ Stmt.occurrencesAll f.decl.body, P o.id

variable {P Q : Nat → Prop}

/-- **Numbers are passed on.** -/
theorem closed_numbered : (numbered P).Closed where
  part hpart hwhole := fun o ho => hwhole o (hpart.occurrences_subset ho)
  block hbody := fun st hst o ho => hbody o (Stmt.occurrences_subset_of_mem hst ho)
  declared := by
    rintro ⟨name, params, body⟩ hdecl identity closure
    exact hdecl
  method := by
    intro name parent methods hclass own f closure hf o ho
    exact hclass o (List.mem_append_right _ (Stmt.occurrencesAll_subset_of_method hf.decl ho))
  functionBody hf := fun st hst o ho => hf o (Stmt.occurrences_subset_of_mem hst ho)
  methodBody hf := fun st hst o ho => hf o (Stmt.occurrences_subset_of_mem hst ho)

theorem numbered_imp (h : ∀ i, P i → Q i) : (numbered P).Implies (numbered Q) :=
  ⟨fun _ hc o ho => h o.id (hc o ho), fun _ hf o ho => h o.id (hf o ho),
    fun _ _ hf o ho => h o.id (hf o ho)⟩

/-- Statements have the numbers that all their occurrences have. -/
theorem numbered_all {ss : List Stmt} (h : ∀ o ∈ Stmt.occurrencesAll ss, P o.id) :
    ∀ st ∈ ss, (numbered P).code (.stmt st) :=
  fun _ hst o ho => h o (Stmt.occurrences_subset_of_mem hst ho)

end Trait

/-- A program meets no number that neither its code nor its store had. -/
theorem Config.Carries.numbered {P : Nat → Prop} {c : Config} (h : Carries (.numbered P) c)
    (g : Setting) (n : Nat) : Carries (.numbered P) (Config.run g n c) :=
  Carries.run Trait.closed_numbered (fun _ _ _ hf => hf) h g n

end Lox
