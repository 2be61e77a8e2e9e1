/-
  Lox.Proofs.Session.Parameters
  ─────────────────────────────
  **CALLS BIND ALL PARAMETERS, IN ANY SESSION.**

  Every class that a session holds, and every class that it inherits from, was
  declared by a step of an accepted chunk (`Lived.documented`).  So the
  initializer that a call runs can be told from the text of the declarations,
  and the call binds what that text names.

  Main result: `call_binds_parameters`.
-/
import Lox.Proofs.Machine.Parameters
import Lox.Proofs.Session.Rooted

namespace Lox

open Config

namespace Session

variable {past : Setting → Config → Prop} {s : Session}

/-- **At every point of a run** all classes were declared in a step before. -/
theorem documented_run (h : (idle s.machine.state).All (Value.Documented past)) {source : String}
    (haccepts : s.Accepts source) (clock : Clock) (n : Nat) :
    (Config.run (s.setting clock source) n (s.start source)).All
      (Value.Documented (s.passing past n clock source)) := by
  induction n with
  | zero =>
    have hstart : (s.start source).All (Value.Documented past) :=
      ⟨List.forall_mem_nil _, List.forall_mem_nil _, h.state⟩
    exact hstart.imp fun _ => .mono fun g p hp => .inl hp
  | succ n ih =>
    rw [Config.run_last]
    -- the point that is left belongs to the past from now on
    have hpassed : s.passing past (n + 1) clock source (s.setting clock source)
        (Config.run (s.setting clock source) n (s.start source)) :=
      .inr ⟨haccepts, rfl, n, Nat.lt_succ_self n, rfl⟩
    refine (ih.imp fun _ => .mono ?_).documented hpassed
    rintro g p (hp | ⟨-, hg, m, hm, hp⟩)
    · exact .inl hp
    · exact .inr ⟨haccepts, hg, m, Nat.lt_succ_of_lt hm, hp⟩

/-- **Every session that chunks lead to** holds declared classes only. -/
theorem Lived.documented (h : Lived past s) :
    (idle s.machine.state).All (Value.Documented past) := by
  induction h with
  | new capacity =>
    refine ⟨List.forall_mem_nil _, List.forall_mem_nil _, ?_⟩
    intro v hv
    rw [State.holds_initial hv]
    trivial
  | @run past s hs fuel clock source hended ih =>
    by_cases haccepts : s.Accepts source
    · have hrun := documented_run ih haccepts clock fuel
      rw [run_eq haccepts fuel clock]
      exact ⟨List.forall_mem_nil _, List.forall_mem_nil _, hrun.state⟩
    · rw [(run_rejected haccepts fuel clock).1]
      exact ih.imp fun _ => .mono fun g p hp => .inl hp

/-- **Every call that passes the check of its arguments binds all parameters.**
Take any chunks and an accepted source after them.  Wherever its run is about to
call a value with as many arguments as the value takes, and the limit on calls
leaves room, the next step starts the body that belongs to the value: in a new
scope whose variables are the parameters and nothing else, all different, each
with the argument at its place, as many as there are arguments.  The body of a
class is the last initializer in the declaration of the nearest class, among it
and its superclasses, that declares any; those before it were declared without
one.  A class none of whose superclasses was declared with an initializer takes
no arguments, and no other number. -/
theorem call_binds_parameters (hs : Lived past s) {source : String} (h : s.Accepts source)
    (clock : Clock) :
    let g := s.setting clock source
    let point (n : Nat) := Config.run g n (s.start source)
    (∀ n callable paren arguments, (point n).Calls callable paren arguments →
      if g.exhausted (point n).state.depth
      then (point n).step g = ⟨.raising (.runtime paren.line .stackOverflow),
        (point n).frames.tail, (point n).state⟩
      else Starts (s.passing past n clock source) (point n) ((point n).step g) arguments callable)
    ∧ ∀ n k paren arguments, (point n).pending? = some (.class k, paren, arguments) →
      (∀ j ∈ k.lineage, j.Uninitialized (s.passing past n clock source)) →
      ((point n).Calls (.class k) paren arguments ↔ arguments.size = 0)
        ∧ (arguments.size ≠ 0 → (point n).step g = ⟨.raising (.runtime paren.line
          (.wrongArity 0 arguments.size)), (point n).frames.tail, (point n).state⟩) := by
  intro g point
  have halong := (kept_of_reachable hs.reachable).run h clock
  have hrooted := fun n => (hs.linked.run clock source n).1
  have hdocumented := documented_run hs.documented h clock
  refine ⟨?_, fun n k paren arguments hpending => step_uninitialized (hdocumented n) hpending⟩
  intro n callable paren arguments hcalls
  split
  · next hfull =>
    rw [step_calls hcalls g, if_pos hfull]
  · next hroom =>
    rw [Bool.not_eq_true] at hroom
    exact starts_of_calls (halong n) (hrooted n) (hdocumented n) hcalls hroom

/-- How many arguments a call of a class wants, and how many it has. -/
def classArity? : Value × Token × Array Value → Option (Nat × Nat)
  | (.class k, _, arguments) => some (k.arity, arguments.size)
  | _ => none

/-- A class of one chunk inherits the last of the two initializers that a class of
an earlier chunk declares. -/
theorem call_binds_parameters_inherited :
    let s := ((Session.new none).run 60 (.still 0)
      "class A \x7b init(x) \x7b\x7d init(a, b) \x7b\x7d \x7d").1
    let source := "class B < A \x7b\x7d B(1, 2);"
    let g := s.setting (.still 0) source
    let point (n : Nat) := Config.run g n (s.start source)
    ∃ past k paren arguments before owner after earlier decl later f, Lived past s
      ∧ s.Accepts source ∧ (point 13).Calls (.class k) paren arguments
      ∧ k.lineage = before ++ owner :: after
      ∧ owner.Declared (s.passing past 13 (.still 0) source) (earlier ++ decl :: later)
      ∧ decl.isInitializer = true ∧ (∀ m ∈ later, m.isInitializer = false) ∧ f.decl = decl
      ∧ (point 13).Enters ((point 13).step g) f arguments := by
  intro s source g point
  have hs : Lived _ s :=
    .run (.new none) 60 (.still 0) _ (Outcome.ne_unfinished (by decide +kernel))
  have h : s.Accepts source := ⟨by decide +kernel, by decide +kernel⟩
  have hglobal : ∀ id : Nat, g.distances[id]? = none := by
    intro id
    have hlearned : (s.resolution source).distances = [] := by decide +kernel
    have hnext : s.nextId = 0 := by decide +kernel
    have hfresh := (kept_of_reachable hs.reachable).fresh id (hnext ▸ Nat.zero_le id)
    rw [h.getElem?_distances, hlearned, hfresh]
    rfl
  -- both names are looked up among the globals
  let named (c : Config) (name : String) : Config :=
    c.settling 1 (c.state.scopes.get globalScope name)
  have hA : point 3 = named (point 2) "A" := by
    have hcontrol : (point 2).control.reading? = some ⟨0, ⟨.identifier, "A", 1⟩⟩ := by
      decide +kernel
    exact (Config.run_last g 2 _).trans (Config.step_global hcontrol (hglobal 0))
  have hB : point 9 = named (Config.run g 5 (named (point 2) "A")) "B" := by
    have hcontrol : (Config.run g 5 (named (point 2) "A")).control.reading?
        = some ⟨1, ⟨.identifier, "B", 1⟩⟩ := by decide +kernel
    rw [← hA] at hcontrol ⊢
    have height : point 8 = Config.run g 5 (point 3) := Config.run_add g 3 5 _
    rw [← height] at hcontrol ⊢
    exact (Config.run_last g 8 _).trans (Config.step_global hcontrol (hglobal 1))
  have hpending : (point 13).pending?.bind classArity? = some (2, 2) := by
    have hlater : point 13 = Config.run g 4 (point 9) := Config.run_add g 9 4 _
    rw [hlater, hB]
    decide +kernel
  obtain ⟨⟨callee, paren, arguments⟩, hcallee, hsize⟩ := Option.bind_eq_some_iff.mp hpending
  cases callee with
  | «class» k =>
    obtain ⟨harity, hcount⟩ := Prod.mk.inj (Option.some.inj hsize)
    have hcalls : (point 13).Calls (.class k) paren arguments :=
      ⟨⟨_, hcallee, rfl⟩, hcount.trans harity.symm⟩
    have hroom : g.exhausted (point 13).state.depth = false := by
      have hlater : point 13 = Config.run g 4 (point 9) := Config.run_add g 9 4 _
      rw [hlater, hB]
      decide +kernel
    have hstarts := (call_binds_parameters hs h (.still 0)).1 13 (.class k) paren arguments hcalls
    rw [if_neg (Bool.not_eq_true _ ▸ hroom)] at hstarts
    cases hstarts with
    | plain _ hnone =>
      rw [hnone] at hcount
      cases hcount
    | initializer hlineage _ howner hdecl hlater hf henters _ =>
      exact ⟨_, k, paren, arguments, _, _, _, _, _, _, _, hs, h, hcalls, hlineage, howner, hdecl,
        hlater, hf, henters⟩
  | _ => cases hsize

end Session

end Lox
