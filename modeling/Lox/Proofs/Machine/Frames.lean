/-
  Lox.Proofs.Machine.Frames
  ─────────────────────────
  **WHAT A STEP DOES TO THE FRAMES.**

  A step drops the innermost frame or leaves all of them, and puts at most one
  new frame inside.  The new one ends a call in a single case: callee and
  arguments have values, they pass both checks, and the limit on calls leaves
  room (`step_frames`).  This is also the only place where the limit is looked
  at (`step_unlimited`).  A failure only drops frames, one in each step
  (`run_raising`).
-/
import Lox.Proofs.Session.Restored

namespace Lox

/-! ## §1. Calls that are about to be made. -/

/-- The same setting without a limit on calls. -/
def Setting.unlimited (g : Setting) : Setting :=
  { g with callLimit := none }

namespace Config

/-- The call that comes next, if callee and arguments have values: the callee,
the token after the arguments, and the arguments. -/
def pending? : Config → Option (Value × Token × Array Value)
  | ⟨.value v, .callee paren [] :: _, _⟩ => some (v, paren, #[])
  | ⟨.value v, .argument callee paren earlier [] :: _, _⟩ => some (callee, paren, earlier.push v)
  | _ => none

/-- **A call that passes its checks comes next**: the callee can be called, and
it takes as many arguments as there are. -/
structure Calls (c : Config) (callable : Callable) (paren : Token) (arguments : Array Value) :
    Prop where
  pending : ∃ callee, c.pending? = some (callee, paren, arguments)
    ∧ Callable.ofValue? callee = some callable
  arity : arguments.size = callable.arity

/-- Begin a call that has passed all checks. -/
def beginning (g : Setting) (c : Config) (arguments : Array Value) : Callable → Config
  | .native .clock => c.readingClock g.clock
  | .function f => c.entering f arguments none
  | .class k => c.making k arguments

variable {g : Setting} {c : Config} {callable : Callable} {paren : Token}
  {arguments : Array Value}

theorem step_pending {callee : Value} (h : c.pending? = some (callee, paren, arguments))
    (g : Setting) :
    c.step g = calling g ⟨c.control, c.frames.tail, c.state⟩ callee paren arguments := by
  unfold pending? at h
  split at h
  · cases h
    rfl
  · cases h
    rfl
  · cases h

/-- The frame of a callee or of an argument is not the one of a call. -/
theorem frames_pending (h : c.pending? ≠ none) :
    ∃ frame rest, c.frames = frame :: rest ∧ frame.isCall = false := by
  unfold pending? at h
  split at h
  · exact ⟨_, _, rfl, rfl⟩
  · exact ⟨_, _, rfl, rfl⟩
  · exact absurd rfl h

theorem Calls.ne_none (h : c.Calls callable paren arguments) : c.pending? ≠ none := by
  obtain ⟨callee, hpending, -⟩ := h.pending
  rw [hpending]
  exact Option.some_ne_none _

/-- **A call that passes its checks** begins, unless the limit is reached. -/
theorem step_calls (h : c.Calls callable paren arguments) (g : Setting) :
    c.step g = if g.exhausted c.state.depth
      then ⟨.raising (.runtime paren.line .stackOverflow), c.frames.tail, c.state⟩
      else beginning g ⟨c.control, c.frames.tail, c.state⟩ arguments callable := by
  obtain ⟨callee, hpending, hcallable⟩ := h.pending
  rw [step_pending hpending]
  unfold calling
  rw [hcallable]
  dsimp only
  rw [if_neg (not_not_intro h.arity)]
  split
  · rfl
  · cases callable with
    | native n =>
      cases n
      rfl
    | function f => rfl
    | «class» k => rfl

/-- A call that does not pass its checks fails. -/
theorem step_refused {callee : Value} (hpending : c.pending? = some (callee, paren, arguments))
    (h : ¬ ∃ callable, c.Calls callable paren arguments) :
    ∃ fault, ∀ g, c.step g = ⟨.raising (.runtime paren.line fault), c.frames.tail, c.state⟩ := by
  cases hcallable : Callable.ofValue? callee with
  | none =>
    refine ⟨.notCallable, fun g => ?_⟩
    rw [step_pending hpending]
    unfold calling
    rw [hcallable]
    rfl
  | some callable =>
    refine ⟨.wrongArity callable.arity arguments.size, fun g => ?_⟩
    have harity : arguments.size ≠ callable.arity :=
      fun heq => h ⟨callable, ⟨callee, hpending, hcallable⟩, heq⟩
    rw [step_pending hpending]
    unfold calling
    rw [hcallable]
    exact if_pos harity

/-! ## §2. The limit on calls. -/

/-- A step that makes no call looks at the distances only. -/
theorem step_not_pending {g' : Setting} (h : c.pending? = none)
    (hdistances : g.distances = g'.distances) : c.step g = c.step g' := by
  obtain ⟨distances, clock, callLimit⟩ := g
  obtain ⟨distances', clock', callLimit'⟩ := g'
  cases hdistances
  obtain ⟨control, frames, s⟩ := c
  cases control with
  | eval e => cases e <;> rfl
  | exec | execAll | completed | returning | raising => cases frames <;> rfl
  | value v =>
    cases frames with
    | nil => rfl
    | cons frame rest =>
      cases frame with
      | callee paren arguments =>
        cases arguments with
        | nil => cases h
        | cons e arguments => rfl
      | argument callee paren earlier arguments =>
        cases arguments with
        | nil => cases h
        | cons e arguments => rfl
      | _ => rfl

/-- **The limit is looked at by calls that pass their checks**, and only where
it is reached does it make a difference. -/
theorem step_unlimited (h : ∀ callable paren arguments, c.Calls callable paren arguments →
    g.exhausted c.state.depth = false) : c.step g = c.step g.unlimited := by
  cases hpending : c.pending? with
  | none => exact step_not_pending hpending rfl
  | some call =>
    obtain ⟨callee, paren, arguments⟩ := call
    by_cases hcalls : ∃ callable, c.Calls callable paren arguments
    · obtain ⟨callable, hcalls⟩ := hcalls
      have hroom := h callable paren arguments hcalls
      rw [step_calls hcalls, step_calls hcalls, if_neg (Bool.eq_false_iff.mp hroom)]
      rfl
    · obtain ⟨fault, hfault⟩ := step_refused hpending hcalls
      rw [hfault g, hfault g.unlimited]

/-! ## §3. New frames. -/

/-- Something else comes up in the same frames, or inside one more that ends no
call. -/
def Around (frames : List Frame) (c : Config) : Prop :=
  ∃ added, (∀ f ∈ added, f.isCall = false) ∧ c.frames = added ++ frames

theorem Around.same {frames : List Frame} (h : c.frames = frames) : Around frames c := by
  refine ⟨[], ?_, h⟩
  intro f hf
  cases hf

theorem Around.inside {frames : List Frame} {frame : Frame} (hcall : frame.isCall = false)
    (h : c.frames = frame :: frames) : Around frames c := by
  refine ⟨[frame], ?_, h⟩
  intro f hf
  rw [List.mem_singleton.mp hf]
  exact hcall

theorem frames_settling (c : Config) (line : Nat) (result : Except RuntimeFault Value) :
    (c.settling line result).frames = c.frames := by
  cases result <;> rfl

theorem frames_property (c : Config) (id : ObjectId) (name : Token) :
    (c.property id name).frames = c.frames := by
  unfold property
  repeat' split
  all_goals rfl

theorem frames_superMethod (g : Setting) (c : Config) (o : Occurrence) (name : Token) :
    (superMethod g c o name).frames = c.frames := by
  unfold superMethod
  repeat' split
  all_goals rfl

theorem frames_assigning (g : Setting) (c : Config) (o : Occurrence) (v : Value) :
    (assigning g c o v).frames = c.frames := by
  unfold assigning
  split <;> rfl

theorem frames_endingCall (c : Config) (scope : ScopeId) (f : Function) (made : Option ObjectId)
    (v : Value) : (c.endingCall scope f made v).frames = c.frames := by
  unfold endingCall
  dsimp only
  split <;> rfl

theorem frames_declaringClass (c : Config) (name : Token) (parent : Option Class)
    (methods : List (FunctionDecl Stmt)) :
    (c.declaringClass name parent methods).frames = c.frames := by
  unfold declaringClass
  dsimp only
  split <;> rfl

theorem around_eval (g : Setting) (c : Config) (e : Expr) : Around c.frames (eval g c e) := by
  cases e with
  | literal | grouping => exact .same rfl
  | «variable» o | this o => exact .same (frames_settling c _ _)
  | super o method => exact .same (frames_superMethod g c o method)
  | _ => exact .inside rfl rfl

theorem around_exec (c : Config) (st : Stmt) : Around c.frames (c.exec st) := by
  cases st with
  | var name initializer =>
    cases initializer with
    | none => exact .same rfl
    | some e => exact .inside rfl rfl
  | function decl => exact .same rfl
  | «return» keyword value =>
    cases value with
    | none => exact .same rfl
    | some e => exact .inside rfl rfl
  | «class» name superclass methods =>
    cases superclass with
    | none => exact .same (frames_declaringClass _ name none methods)
    | some parent => exact .inside rfl rfl
  | _ => exact .inside rfl rfl

theorem around_execAll (c : Config) (body : List Stmt) : Around c.frames (c.execAll body) := by
  cases body with
  | nil => exact .same rfl
  | cons st rest => exact .inside rfl rfl

theorem around_complete (c : Config) (frame : Frame) : Around c.frames (c.complete frame) := by
  cases frame with
  | call scope f made => exact .same (frames_endingCall c scope f made .nil)
  | _ => exact .same rfl

theorem around_resume (g : Setting) (c : Config) (v : Value) {frame : Frame} {state : State}
    (h : pending? ⟨.value v, frame :: c.frames, state⟩ = none) :
    Around c.frames (resume g c v frame) := by
  cases frame with
  | unary | binaryRight => exact .same (frames_settling c _ _)
  | logical operator right =>
    unfold resume
    dsimp only
    split
    · exact .same rfl
    · exact .same rfl
  | assign target => exact .same (frames_assigning g c target v)
  | callee paren arguments =>
    cases arguments with
    | nil => cases h
    | cons e rest => exact .inside rfl rfl
  | argument callee paren earlier arguments =>
    cases arguments with
    | nil => cases h
    | cons e rest => exact .inside rfl rfl
  | get name =>
    cases v with
    | object id => exact .same (frames_property c id name)
    | _ => exact .same rfl
  | setObject name value =>
    cases v with
    | object id => exact .inside rfl rfl
    | _ => exact .same rfl
  | branch thenBranch elseBranch =>
    unfold resume
    dsimp only
    split <;> exact .same rfl
  | loopTest condition body =>
    unfold resume
    dsimp only
    split
    · exact .inside rfl rfl
    · exact .same rfl
  | superclass name parent methods =>
    cases v with
    | «class» k => exact .same (frames_declaringClass c name (some k) methods)
    | _ => exact .same rfl
  | call scope f made => exact .same (frames_endingCall c scope f made .nil)
  | binaryLeft => exact .inside rfl rfl
  | _ => exact .same rfl

theorem around_settleFrame (g : Setting) (c : Config) (frame : Frame)
    (h : pending? ⟨c.control, frame :: c.frames, c.state⟩ = none) :
    Around c.frames (settleFrame g c frame) := by
  obtain ⟨control, frames, s⟩ := c
  cases control with
  | value v => exact around_resume g _ v h
  | completed => exact around_complete _ frame
  | returning v =>
    cases frame with
    | call scope f made => exact .same (frames_endingCall _ scope f made v)
    | _ => exact .same rfl
  | raising d => cases frame <;> exact .same rfl
  | eval | exec | execAll => exact .same rfl

/-- A call that begins yields a value at once, or its body runs inside a new
frame. -/
theorem frames_beginning (g : Setting) (c : Config) (arguments : Array Value)
    (callable : Callable) :
    (beginning g c arguments callable).frames = c.frames
      ∨ ∃ n f made, (beginning g c arguments callable).frames = .call n f made :: c.frames := by
  cases callable with
  | native n =>
    cases n
    exact .inl rfl
  | function f => exact .inr ⟨_, _, _, rfl⟩
  | «class» k =>
    show (making c k arguments).frames = _ ∨ ∃ n f made, (making c k arguments).frames = _
    unfold making
    dsimp only
    cases k.initializer? with
    | none => exact .inl rfl
    | some f => exact .inr ⟨_, _, _, rfl⟩

/-- **The frames after a step.**  The innermost frame may be gone, and there may
be a new one.  This one ends a call only where a call that passes its checks was
made and the limit was not reached. -/
theorem step_frames (g : Setting) (c : Config) :
    (∃ frames, (frames = c.frames ∨ frames = c.frames.tail) ∧ Around frames (c.step g))
      ∨ ∃ callable paren arguments, c.Calls callable paren arguments
        ∧ g.exhausted c.state.depth = false
        ∧ ∃ n f made, (c.step g).frames = .call n f made :: c.frames.tail := by
  cases hpending : c.pending? with
  | none =>
    refine .inl ?_
    obtain ⟨control, frames, s⟩ := c
    -- an outcome goes to the innermost frame, all else is done inside of them
    cases houtcome : (Config.mk control [] s).halted with
    | true =>
      refine ⟨frames.tail, .inr rfl, ?_⟩
      cases frames with
      | nil =>
        rw [step_halted houtcome]
        exact .same rfl
      | cons frame rest =>
        rw [step_outcome houtcome]
        exact around_settleFrame g _ frame hpending
    | false =>
      refine ⟨frames, .inl rfl, ?_⟩
      cases control with
      | eval e => exact around_eval g _ e
      | exec st => exact around_exec _ st
      | execAll body => exact around_execAll _ body
      | value | completed | returning | raising => cases houtcome
  | some call =>
    obtain ⟨callee, paren, arguments⟩ := call
    by_cases hcalls : ∃ callable, c.Calls callable paren arguments
    · obtain ⟨callable, hcalls⟩ := hcalls
      rw [step_calls hcalls]
      cases hfull : g.exhausted c.state.depth with
      | true => exact .inl ⟨_, .inr rfl, .same rfl⟩
      | false =>
        rw [if_neg Bool.false_ne_true]
        rcases frames_beginning g ⟨c.control, c.frames.tail, c.state⟩ arguments callable
          with hframes | hframes
        · exact .inl ⟨_, .inr rfl, .same hframes⟩
        · exact .inr ⟨callable, paren, arguments, hcalls, rfl, hframes⟩
    · obtain ⟨fault, hfault⟩ := step_refused hpending hcalls
      rw [hfault g]
      exact .inl ⟨_, .inr rfl, .same rfl⟩

/-- A step drops one frame at most. -/
theorem tail_suffix_step (g : Setting) (c : Config) : c.frames.tail <:+ (c.step g).frames := by
  rcases step_frames g c with ⟨frames, hframes, added, -, heq⟩ | ⟨_, _, _, -, -, _, _, _, heq⟩
  · rw [heq]
    rcases hframes with rfl | rfl
    · exact (List.tail_suffix _).trans (List.suffix_append _ _)
    · exact List.suffix_append _ _
  · rw [heq]
    exact List.suffix_cons _ _

/-- A program that has ended after some steps had no more frames than these. -/
theorem length_frames_le_of_halted {g : Setting} {n : Nat} {c : Config}
    (h : (run g n c).halted = true) : c.frames.length ≤ n := by
  induction n generalizing c with
  | zero => exact Nat.le_of_eq (congrArg List.length (frames_of_halted h))
  | succ n ih =>
    rw [run_succ] at h
    have hlater := ih h
    have htail := (tail_suffix_step g c).length_le
    rw [List.length_tail] at htail
    omega

/-! ## §4. The way out of a failure. -/

/-- **A failure drops the frames one by one.**  Nothing else happens: scopes,
objects and output are left as they were. -/
theorem run_raising (g : Setting) (d : Diagnostic) (frames : List Frame) (s : State) (k : Nat) :
    ∃ scope depth, run g k ⟨.raising d, frames, s⟩
      = ⟨.raising d, frames.drop k, { s with scope, depth }⟩ := by
  induction k generalizing frames s with
  | zero => exact ⟨s.scope, s.depth, rfl⟩
  | succ k ih =>
    cases frames with
    | nil => exact ⟨s.scope, s.depth, run_of_halted rfl g _⟩
    | cons frame rest =>
      rw [run_succ]
      cases frame with
      | leave n => exact ih rest (s.inScope n)
      | call n f made =>
        obtain ⟨scope, depth, hrun⟩ := ih rest (s.endCall n)
        exact ⟨scope, depth, hrun⟩
      | _ => exact ih rest s

/-- Once all frames are dropped, the run has ended with the failure. -/
theorem run_raising_ended (g : Setting) (d : Diagnostic) {frames : List Frame} (s : State) {k : Nat}
    (hk : frames.length ≤ k) :
    let c := run g k ⟨.raising d, frames, s⟩
    c.ending = .failed d ∧ c.state.sink = s.sink := by
  obtain ⟨scope, depth, hrun⟩ := run_raising g d frames s k
  rw [List.drop_eq_nil_of_le hk] at hrun
  dsimp only
  rw [hrun]
  exact ⟨rfl, rfl⟩

end Config

end Lox
