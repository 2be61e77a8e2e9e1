/-
  Lox.Proofs.Machine.Weight
  ─────────────────────────
  **EXPRESSIONS THAT CAN CALL NO CODE.**

  Where there is no function and no class, a call either fails or asks a
  native function.  So whatever an expression does there is done inside the
  expression itself: it prints nothing, and each step leaves less to do than
  there was before (`Bare.step`).  The weight of an expression counts what
  there is to do, and bounds the steps up to its end (`Bare.run`).
-/
import Lox.Proofs.Machine.Output
import Lox.Proofs.Machine.Phases
import Lox.Proofs.Machine.Values

namespace Lox

/-! ## §1. Weights. -/

mutual

/-- The most steps that an expression takes, up to its value, if it calls no
code. -/
def Expr.weight : Expr → Nat
  | .literal _ | .variable _ | .this _ | .super _ _ => 1
  | .grouping inner => inner.weight + 1
  | .unary _ right => right.weight + 2
  | .binary left _ right => left.weight + right.weight + 3
  | .logical left _ right => left.weight + right.weight + 2
  | .assign _ value => value.weight + 2
  | .call callee _ arguments => callee.weight + weightAll arguments + 2
  | .get object _ => object.weight + 2
  | .set object _ value => object.weight + value.weight + 3

/-- The most steps that arguments take, each with the step that stores its
value. -/
def Expr.weightAll : List Expr → Nat
  | [] => 0
  | e :: rest => e.weight + weightAll rest + 1

end

/-- The most steps that a frame takes once it has its value. -/
def Frame.weight : Frame → Nat
  | .binaryLeft _ right => right.weight + 2
  | .logical _ right => right.weight + 1
  | .callee _ arguments => Expr.weightAll arguments + 1
  | .argument _ _ _ rest => Expr.weightAll rest + 1
  | .setObject _ value => value.weight + 2
  | _ => 1

/-- The most steps that frames take. -/
def Frame.weightAll : List Frame → Nat
  | [] => 0
  | f :: rest => f.weight + weightAll rest

theorem Frame.weightAll_cons (f : Frame) (frames : List Frame) :
    weightAll (f :: frames) = f.weight + weightAll frames :=
  rfl

/-- The most steps up to the next outcome. -/
def Control.weight : Control → Nat
  | .eval e => e.weight
  | _ => 0

/-- The most steps up to the end of an expression. -/
def Config.weight (c : Config) : Nat :=
  c.control.weight + Frame.weightAll c.frames

/-! ## §2. What is done in an expression. -/

/-- A frame that waits for the value of a part of an expression, and yields the
value of the whole. -/
def Frame.InExpression (f : Frame) : Prop :=
  f.want = .value ∧ f.yield = .value

/-- An expression, or how it ended. -/
def Control.InExpression : Control → Prop
  | .eval _ | .value _ | .raising _ => True
  | _ => False

namespace Config

/-- **No code in sight**: an expression is evaluated, and no value is a function
or a class. -/
structure Bare (c : Config) : Prop where
  plain : c.All Value.Plain
  control : c.control.InExpression
  frames : ∀ f ∈ c.frames, f.InExpression

/-- What is done is part of an expression, with fewer than `n` steps to do. -/
structure Lighter (n : Nat) (c : Config) : Prop where
  control : c.control.InExpression
  frames : ∀ f ∈ c.frames, f.InExpression
  weight : c.weight < n

section Lighter

variable {n : Nat} {rest : List Frame} {s : State} {g : Setting} {control : Control}

theorem lighter_yielding (hrest : ∀ f ∈ rest, f.InExpression) (hn : Frame.weightAll rest < n)
    (v : Value) : Lighter n ⟨.value v, rest, s⟩ :=
  ⟨trivial, hrest, by simpa only [weight, Control.weight, Nat.zero_add] using hn⟩

theorem lighter_failing (hrest : ∀ f ∈ rest, f.InExpression) (hn : Frame.weightAll rest < n)
    (d : Diagnostic) : Lighter n ⟨.raising d, rest, s⟩ :=
  ⟨trivial, hrest, by simpa only [weight, Control.weight, Nat.zero_add] using hn⟩

theorem lighter_settling (hrest : ∀ f ∈ rest, f.InExpression) (hn : Frame.weightAll rest < n)
    (line : Nat) (result : Except RuntimeFault Value) :
    Lighter n (settling ⟨control, rest, s⟩ line result) := by
  cases result with
  | ok v => exact lighter_yielding hrest hn v
  | error fault => exact lighter_failing hrest hn _

theorem lighter_eval (hrest : ∀ f ∈ rest, f.InExpression) {e : Expr}
    (hn : e.weight + Frame.weightAll rest < n) : Lighter n ⟨.eval e, rest, s⟩ :=
  ⟨trivial, hrest, hn⟩

theorem lighter_within (hrest : ∀ f ∈ rest, f.InExpression) {f : Frame} (hf : f.InExpression)
    {e : Expr} (hn : e.weight + f.weight + Frame.weightAll rest < n) :
    Lighter n (within ⟨control, rest, s⟩ f (.eval e)) := by
  refine ⟨trivial, List.forall_mem_cons.mpr ⟨hf, hrest⟩, ?_⟩
  show e.weight + Frame.weightAll (f :: rest) < n
  rw [Frame.weightAll_cons, ← Nat.add_assoc]
  exact hn

/-- Without functions and classes, nothing is called but native functions. -/
theorem lighter_calling (hrest : ∀ f ∈ rest, f.InExpression) (hn : Frame.weightAll rest < n)
    {callee : Value} (hplain : callee.Plain) (paren : Token) (arguments : Array Value) :
    Lighter n (calling g ⟨control, rest, s⟩ callee paren arguments) := by
  unfold calling
  cases callee with
  | function | «class» => exact hplain.elim
  | native f =>
    dsimp only [Callable.ofValue?]
    split
    · exact lighter_failing hrest hn _
    · split
      · exact lighter_failing hrest hn _
      · exact lighter_yielding hrest hn _
  | nil | bool | number | string | object => exact lighter_failing hrest hn _

theorem lighter_arguing (hrest : ∀ f ∈ rest, f.InExpression) {callee : Value}
    (hplain : callee.Plain) (paren : Token) (earlier : Array Value) {arguments : List Expr}
    (hn : Expr.weightAll arguments + Frame.weightAll rest < n) :
    Lighter n (arguing g ⟨control, rest, s⟩ callee paren earlier arguments) := by
  cases arguments with
  | nil => exact lighter_calling hrest (by rwa [Expr.weightAll, Nat.zero_add] at hn) hplain _ _
  | cons e arguments =>
    refine lighter_within hrest ⟨rfl, rfl⟩ ?_
    rw [Expr.weightAll] at hn
    rw [Frame.weight]
    omega

/-- An object would have a class. -/
theorem lighter_property (hrest : ∀ f ∈ rest, f.InExpression) (hn : Frame.weightAll rest < n)
    (hplain : ∀ v, s.Holds v → v.Plain) (id : ObjectId) (name : Token) :
    Lighter n (property ⟨control, rest, s⟩ id name) := by
  unfold property
  cases hobject : s.objects[id]? with
  | none => exact lighter_failing hrest hn _
  | some o => exact (hplain _ (.cls hobject)).elim

theorem lighter_superMethod (hrest : ∀ f ∈ rest, f.InExpression) (hn : Frame.weightAll rest < n)
    (hplain : ∀ v, s.Holds v → v.Plain) (o : Occurrence) (name : Token) :
    Lighter n (superMethod g ⟨control, rest, s⟩ o name) := by
  unfold superMethod
  dsimp only
  split
  · exact lighter_failing hrest hn _
  · split
    · exact lighter_failing hrest hn _
    · next hparent => exact (hplain _ (.superclassAt hparent)).elim

theorem lighter_assigning (hrest : ∀ f ∈ rest, f.InExpression) (hn : Frame.weightAll rest < n)
    (o : Occurrence) (v : Value) : Lighter n (assigning g ⟨control, rest, s⟩ o v) := by
  unfold assigning
  dsimp only
  split
  · exact lighter_yielding hrest hn v
  · exact lighter_failing hrest hn _

end Lighter

/-! ## §3. Steps and runs. -/

variable {c : Config} {rest : List Frame} {s : State}

/-- What starts to be evaluated is heavier than what it starts with. -/
theorem Bare.eval {e : Expr} (h : Bare ⟨.eval e, rest, s⟩) (g : Setting) :
    Lighter (weight ⟨.eval e, rest, s⟩) (eval g ⟨.eval e, rest, s⟩ e) := by
  have hrest := h.frames
  have hweight : weight ⟨.eval e, rest, s⟩ = e.weight + Frame.weightAll rest := rfl
  rw [hweight]
  cases e with
  | literal l => exact lighter_yielding hrest (by simp only [Expr.weight]; omega) _
  | grouping inner => exact lighter_eval hrest (by simp only [Expr.weight]; omega)
  | «variable» o | this o => exact lighter_settling hrest (by simp only [Expr.weight]; omega) _ _
  | super o method =>
    exact lighter_superMethod hrest (by simp only [Expr.weight]; omega) h.plain.state o method
  | _ => exact lighter_within hrest ⟨rfl, rfl⟩ (by simp only [Expr.weight, Frame.weight]; omega)

/-- A frame that has its value is heavier than what it goes on with. -/
theorem Bare.resume {v : Value} {f : Frame} (h : Bare ⟨.value v, f :: rest, s⟩) (g : Setting) :
    Lighter (weight ⟨.value v, f :: rest, s⟩) (resume g ⟨.value v, rest, s⟩ v f) := by
  obtain ⟨hf, hrest⟩ := List.forall_mem_cons.mp h.frames
  have hv : v.Plain := h.plain.control v List.mem_cons_self
  have hweight : weight ⟨.value v, f :: rest, s⟩ = f.weight + Frame.weightAll rest :=
    (Nat.zero_add _).trans (Frame.weightAll_cons f rest)
  rw [hweight]
  cases f with
  | unary | binaryRight => exact lighter_settling hrest (by simp only [Frame.weight]; omega) _ _
  | binaryLeft op right =>
    exact lighter_within hrest ⟨rfl, rfl⟩ (by simp only [Frame.weight]; omega)
  | logical op right =>
    unfold Config.resume
    dsimp only
    split
    · exact lighter_yielding hrest (by simp only [Frame.weight]; omega) v
    · exact lighter_eval hrest (by simp only [Frame.weight]; omega)
  | assign target => exact lighter_assigning hrest (by simp only [Frame.weight]; omega) target v
  | callee paren arguments =>
    exact lighter_arguing hrest hv paren #[] (by simp only [Frame.weight]; omega)
  | argument callee paren earlier arguments =>
    have hcallee : callee.Plain := h.plain.frames _ List.mem_cons_self callee List.mem_cons_self
    exact lighter_arguing hrest hcallee paren _ (by simp only [Frame.weight]; omega)
  | get name =>
    have hn : Frame.weightAll rest < Frame.weight (.get name) + Frame.weightAll rest := by
      simp only [Frame.weight]
      omega
    cases v with
    | object id => exact lighter_property hrest hn h.plain.state id name
    | _ => exact lighter_failing hrest hn _
  | setObject name value =>
    cases v with
    | object id => exact lighter_within hrest ⟨rfl, rfl⟩ (by simp only [Frame.weight]; omega)
    | _ => exact lighter_failing hrest (by simp only [Frame.weight]; omega) _
  | setValue id name => exact lighter_yielding hrest (by simp only [Frame.weight]; omega) v
  | superclass => cases hf.2
  | discard | print | define | branch | loopTest | returnValue | loopBody | sequence | leave =>
    cases hf.2
  | call => cases hf.1

/-- A failure leaves one frame after the other. -/
theorem Bare.unwind {d : Diagnostic} {f : Frame} (h : Bare ⟨.raising d, f :: rest, s⟩) :
    Lighter (weight ⟨.raising d, f :: rest, s⟩) (unwindRaise ⟨.raising d, rest, s⟩ f) := by
  obtain ⟨hf, hrest⟩ := List.forall_mem_cons.mp h.frames
  have hweight : weight ⟨.raising d, f :: rest, s⟩ = f.weight + Frame.weightAll rest :=
    (Nat.zero_add _).trans (Frame.weightAll_cons f rest)
  have hpos : 1 ≤ f.weight := by
    cases f <;> simp only [Frame.weight] <;> omega
  have hn : Frame.weightAll rest < weight ⟨.raising d, f :: rest, s⟩ := by omega
  cases f with
  | leave => cases hf.1
  | call => cases hf.1
  | _ => exact lighter_failing hrest hn d

theorem Bare.lighter (h : Bare c) (hrunning : c.halted = false) (g : Setting) :
    Lighter c.weight (c.step g) := by
  obtain ⟨control, frames, s⟩ := c
  cases control with
  | eval e => exact h.eval g
  | value v =>
    cases frames with
    | nil => cases hrunning
    | cons f rest => exact h.resume g
  | raising d =>
    cases frames with
    | nil => cases hrunning
    | cons f rest => exact h.unwind
  | exec | execAll | completed | returning => exact h.control.elim

/-- What an expression without code makes is no code. -/
theorem Bare.makes (h : Bare c) {c' : Config} {v : Value} (hv : c.Makes c' v) : v.Plain := by
  cases hv with
  | function hcontrol =>
    have hexec := h.control
    rw [hcontrol] at hexec
    exact hexec.elim
  | bound hk => exact (h.plain.holds hk).elim
  | declared hdeclares =>
    cases hdeclares with
    | plain => exact h.control.elim
    | derived => exact (h.plain.control _ List.mem_cons_self).elim
  | plain hplain => exact hplain

/-- **A step of an expression that can call no code** leaves less to do. -/
theorem Bare.step (h : Bare c) (hrunning : c.halted = false) (g : Setting) :
    (c.step g).Bare ∧ (c.step g).weight < c.weight := by
  have hlighter := h.lighter hrunning g
  exact ⟨⟨h.plain.step g fun _ hv => h.makes hv, hlighter.control, hlighter.frames⟩,
    hlighter.weight⟩

/-- Nothing is printed. -/
theorem Bare.printed? (h : Bare c) : c.printed? = none := by
  obtain ⟨control, frames, s⟩ := c
  unfold Config.printed?
  split
  · next heq =>
    cases heq
    cases (h.frames .print List.mem_cons_self).2
  · rfl

/-- **An expression that can call no code ends**, after no more steps than it
weighs, and prints nothing. -/
theorem Bare.run (h : Bare c) (g : Setting) {n : Nat} (hn : c.weight ≤ n) :
    (run g n c).Bare ∧ (run g n c).halted ∧ (run g n c).state.sink = c.state.sink := by
  induction n generalizing c with
  | zero =>
    cases hhalted : c.halted with
    | true => exact ⟨h, hhalted, rfl⟩
    | false =>
      have hweight := (h.step hhalted g).2
      omega
  | succ n ih =>
    cases hhalted : c.halted with
    | true =>
      rw [run_of_halted hhalted]
      exact ⟨h, hhalted, rfl⟩
    | false =>
      obtain ⟨hstep, hweight⟩ := h.step hhalted g
      obtain ⟨hbare, hend, hsink⟩ := ih hstep (by omega)
      rw [run_succ]
      exact ⟨hbare, hend, hsink.trans (sink_step g h.printed?)⟩

/-- An expression in a state without functions, classes and objects. -/
theorem bare_of_state (hs : ∀ v, s.Holds v → v.Plain) (e : Expr) : Bare ⟨.eval e, [], s⟩ :=
  ⟨⟨List.forall_mem_nil _, List.forall_mem_nil _, hs⟩, trivial, List.forall_mem_nil _⟩

end Config

end Lox
