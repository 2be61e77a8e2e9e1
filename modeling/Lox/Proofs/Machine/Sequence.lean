/-
  Lox.Proofs.Machine.Sequence
  ───────────────────────────
  **ONE PROGRAM AFTER ANOTHER.**

  A step looks at the innermost frame alone, so a program does inside other
  frames what it does by itself, until it has ended (`Config.run_onto`).
  Statements that are completed one by one are therefore completed as well
  when more statements follow, and these start where the first ones left off
  (`Config.run_execAll_append`).  Along the way nothing printed is lost.
-/
import Lox.Machine.Run
import Mathlib.Data.Nat.Find

namespace Lox

/-! ## §1. What a step does. -/

/-- Everything that a sink holds is held by another one, before anything
else. -/
def Sink.Extends (k k' : Sink) : Prop :=
  ∃ bytes, k'.written = k.written ++ bytes

theorem Sink.Extends.refl (k : Sink) : k.Extends k :=
  ⟨ByteArray.empty, ByteArray.append_empty.symm⟩

theorem Sink.Extends.trans {k k' k'' : Sink} (h : k.Extends k') (h' : k'.Extends k'') :
    k.Extends k'' := by
  obtain ⟨bytes, hbytes⟩ := h
  obtain ⟨bytes', hbytes'⟩ := h'
  exact ⟨bytes ++ bytes', by rw [hbytes', hbytes, ByteArray.append_assoc]⟩

theorem Sink.extends_write (k : Sink) (bytes : ByteArray) : k.Extends (k.write bytes) :=
  ⟨k.fitting bytes, rfl⟩

namespace Config

/-- What is done in a state, whatever frames wait around it: something else
comes up, maybe inside a new frame, in a state that has printed no less. -/
def Acts (s : State) (F : List Frame → Config) : Prop :=
  ∃ control added s', (∀ fs, F fs = ⟨control, added ++ fs, s'⟩) ∧ s.sink.Extends s'.sink

variable {s : State} {g : Setting} {control : Control}

/-- Something else comes up in the same frames. -/
theorem acts_stay {F : List Frame → Config} (control : Control) (s' : State)
    (hF : ∀ fs, F fs = ⟨control, fs, s'⟩) (hs : s'.sink = s.sink) : Acts s F := by
  refine ⟨control, [], s', hF, ?_⟩
  rw [hs]
  exact .refl _

/-- Something else comes up inside a new frame. -/
theorem acts_within {F : List Frame → Config} (control : Control) (frame : Frame) (s' : State)
    (hF : ∀ fs, F fs = ⟨control, frame :: fs, s'⟩) (hs : s'.sink = s.sink) : Acts s F := by
  refine ⟨control, [frame], s', hF, ?_⟩
  rw [hs]
  exact .refl _

theorem Acts.congr {F F' : List Frame → Config} (h : Acts s F') (hF : ∀ fs, F fs = F' fs) :
    Acts s F := by
  obtain ⟨control, added, s', hF', hs⟩ := h
  exact ⟨control, added, s', fun fs => (hF fs).trans (hF' fs), hs⟩

theorem acts_settling (line : Nat) (result : Except RuntimeFault Value) :
    Acts s fun fs => settling ⟨control, fs, s⟩ line result := by
  cases result with
  | ok v => exact acts_stay _ s (fun _ => rfl) rfl
  | error fault => exact acts_stay _ s (fun _ => rfl) rfl

theorem acts_yieldingMethod (f : Function) (id : ObjectId) :
    Acts s fun fs => yieldingMethod ⟨control, fs, s⟩ f id :=
  acts_stay (.value (.function (boundMethod s f))) (bind s f id) (fun _ => rfl) rfl

theorem acts_property (id : ObjectId) (name : Token) :
    Acts s fun fs => property ⟨control, fs, s⟩ id name := by
  unfold property
  dsimp only
  cases s.objects[id]? with
  | none => exact acts_stay _ s (fun _ => rfl) rfl
  | some o =>
    dsimp only
    cases o.fields.get? name.lexeme with
    | some v => exact acts_stay _ s (fun _ => rfl) rfl
    | none =>
      dsimp only
      cases o.cls.method? name.lexeme with
      | some f => exact acts_yieldingMethod f id
      | none => exact acts_stay _ s (fun _ => rfl) rfl

theorem acts_superMethod (o : Occurrence) (name : Token) :
    Acts s fun fs => superMethod g ⟨control, fs, s⟩ o name := by
  unfold superMethod
  dsimp only
  cases g.distances[o.id]? with
  | none => exact acts_stay _ s (fun _ => rfl) rfl
  | some distance =>
    dsimp only
    cases superclassAt s distance o.name with
    | error fault => exact acts_stay _ s (fun _ => rfl) rfl
    | ok parent =>
      dsimp only
      cases receiverAt s distance with
      | error fault => exact acts_stay _ s (fun _ => rfl) rfl
      | ok id =>
        dsimp only
        cases parent.method? name.lexeme with
        | some f => exact acts_yieldingMethod f id
        | none => exact acts_stay _ s (fun _ => rfl) rfl

theorem acts_assigning (o : Occurrence) (v : Value) :
    Acts s fun fs => assigning g ⟨control, fs, s⟩ o v := by
  unfold assigning
  dsimp only
  cases assignmentTarget g s o with
  | ok scope => exact acts_stay _ (s.define scope o.name.lexeme v) (fun _ => rfl) rfl
  | error fault => exact acts_stay _ s (fun _ => rfl) rfl

theorem acts_entering {s₀ : State} (hs₀ : s₀.sink = s.sink) (f : Function)
    (arguments : Array Value) (made : Option ObjectId) :
    Acts s fun fs => entering ⟨control, fs, s₀⟩ f arguments made :=
  acts_within (.execAll f.decl.body) (.call s₀.scope f made)
    ((s₀.child f.closure (parameters f.decl.params arguments.toList)).beginCall s₀.scopes.nextId)
    (fun _ => rfl) hs₀

theorem acts_making (k : Class) (arguments : Array Value) :
    Acts s fun fs => making ⟨control, fs, s⟩ k arguments := by
  unfold making
  dsimp only
  cases k.initializer? with
  | none => exact acts_stay _ (s.addObject k) (fun _ => rfl) rfl
  | some f =>
    have hs : (bind (s.addObject k) f s.objects.size).sink = s.sink := rfl
    exact acts_entering hs (boundMethod (s.addObject k) f) arguments (some s.objects.size)

theorem acts_calling (callee : Value) (paren : Token) (arguments : Array Value) :
    Acts s fun fs => calling g ⟨control, fs, s⟩ callee paren arguments := by
  unfold calling
  cases Callable.ofValue? callee with
  | none => exact acts_stay _ s (fun _ => rfl) rfl
  | some callable =>
    dsimp only
    by_cases hsize : arguments.size ≠ callable.arity
    · exact acts_stay _ s (fun _ => if_pos hsize) rfl
    · by_cases hfull : g.exhausted s.depth
      · exact acts_stay _ s (fun _ => (if_neg hsize).trans (if_pos hfull)) rfl
      · refine Acts.congr ?_ fun _ => (if_neg hsize).trans (if_neg hfull)
        cases callable with
        | native n =>
          cases n
          exact acts_stay (.value (.number (g.clock.reading s.readings))) s.readClock
            (fun _ => rfl) rfl
        | function f => exact acts_entering rfl f arguments none
        | «class» k => exact acts_making k arguments

theorem acts_endingCall (scope : ScopeId) (f : Function) (made : Option ObjectId) (v : Value) :
    Acts s fun fs => endingCall ⟨control, fs, s⟩ scope f made v := by
  unfold endingCall mapState
  dsimp only
  cases callResult (s.endCall scope) f v with
  | error fault => exact acts_stay _ (s.endCall scope) (fun _ => rfl) rfl
  | ok v' =>
    cases made with
    | none => exact acts_stay _ (s.endCall scope) (fun _ => rfl) rfl
    | some id => exact acts_stay _ (s.endCall scope) (fun _ => rfl) rfl

theorem acts_declaringClass (s₀ : State) (name : Token) (parent : Option Class)
    (methods : List (FunctionDecl Stmt)) (hs₀ : s₀.sink = s.sink) :
    Acts s fun fs => declaringClass ⟨control, fs, s₀⟩ name parent methods := by
  have hsink : ((openMethodScope s₀ parent).useIdentities (1 + methods.length)).sink = s.sink := by
    rw [← hs₀]
    cases parent <;> rfl
  unfold declaringClass mapState
  dsimp only
  generalize (openMethodScope s₀ parent).useIdentities (1 + methods.length) = s₁ at hsink
  cases s₁.scopes.target s₁.scope name.lexeme with
  | ok scope => exact acts_stay _ (s₁.define scope name.lexeme _) (fun _ => rfl) hsink
  | error fault => exact acts_stay _ s₁ (fun _ => rfl) hsink

theorem acts_eval (e : Expr) : Acts s fun fs => eval g ⟨control, fs, s⟩ e := by
  cases e with
  | literal | grouping => exact acts_stay _ s (fun _ => rfl) rfl
  | «variable» o | this o => exact acts_settling o.name.line (lookUp g s o)
  | super o method => exact acts_superMethod o method
  | _ => exact acts_within _ _ s (fun _ => rfl) rfl

theorem acts_exec (st : Stmt) : Acts s fun fs => exec ⟨control, fs, s⟩ st := by
  cases st with
  | var name initializer =>
    cases initializer with
    | none => exact acts_stay _ (s.define s.scope name.lexeme .nil) (fun _ => rfl) rfl
    | some e => exact acts_within _ _ s (fun _ => rfl) rfl
  | block body =>
    exact acts_within (.execAll body) (.leave s.scope)
      ((s.child s.scope []).inScope s.scopes.nextId) (fun _ => rfl) rfl
  | function decl =>
    exact acts_stay .completed ((s.useIdentities 1).define s.scope decl.name.lexeme
      (.function ⟨s.nextIdentity, decl, s.scope, false⟩)) (fun _ => rfl) rfl
  | «return» keyword value =>
    cases value with
    | none => exact acts_stay _ s (fun _ => rfl) rfl
    | some e => exact acts_within _ _ s (fun _ => rfl) rfl
  | «class» name superclass methods =>
    cases superclass with
    | none => exact acts_declaringClass (s.define s.scope name.lexeme .nil) name none methods rfl
    | some parent =>
      exact acts_within (.eval (.variable parent)) (.superclass name parent methods)
        (s.define s.scope name.lexeme .nil) (fun _ => rfl) rfl
  | _ => exact acts_within _ _ s (fun _ => rfl) rfl

/-- Printing adds to what was printed. -/
theorem acts_printing (v : Value) : Acts s fun fs => printing ⟨control, fs, s⟩ v :=
  ⟨if s.sink.fits (s.textOf v ++ "\n").toUTF8 then .completed else .raising .outputFull, [],
    s.write (s.textOf v ++ "\n").toUTF8, fun _ => rfl, s.sink.extends_write _⟩

theorem acts_arguing (callee : Value) (paren : Token) (earlier : Array Value) (rest : List Expr) :
    Acts s fun fs => arguing g ⟨control, fs, s⟩ callee paren earlier rest := by
  cases rest with
  | nil => exact acts_calling callee paren earlier
  | cons e rest => exact acts_within _ _ s (fun _ => rfl) rfl

theorem acts_complete (frame : Frame) : Acts s fun fs => complete ⟨control, fs, s⟩ frame := by
  cases frame with
  | leave scope => exact acts_stay _ (s.inScope scope) (fun _ => rfl) rfl
  | call scope f made => exact acts_endingCall scope f made .nil
  | _ => exact acts_stay _ s (fun _ => rfl) rfl

theorem acts_resume (v : Value) (frame : Frame) :
    Acts s fun fs => resume g ⟨control, fs, s⟩ v frame := by
  cases frame with
  | unary operator => exact acts_settling _ _
  | binaryLeft operator right => exact acts_within _ _ s (fun _ => rfl) rfl
  | binaryRight left operator => exact acts_settling _ _
  | logical operator right =>
    unfold resume
    dsimp only
    split
    · exact acts_stay _ s (fun _ => rfl) rfl
    · exact acts_stay _ s (fun _ => rfl) rfl
  | assign target => exact acts_assigning target v
  | callee paren arguments => exact acts_arguing v paren #[] arguments
  | argument callee paren earlier rest => exact acts_arguing callee paren (earlier.push v) rest
  | get name =>
    cases v with
    | object id => exact acts_property id name
    | _ => exact acts_stay _ s (fun _ => rfl) rfl
  | setObject name value =>
    cases v with
    | object id => exact acts_within _ _ s (fun _ => rfl) rfl
    | _ => exact acts_stay _ s (fun _ => rfl) rfl
  | setValue object name => exact acts_stay _ (s.setField object name.lexeme v) (fun _ => rfl) rfl
  | print => exact acts_printing v
  | define name => exact acts_stay _ (s.define s.scope name.lexeme v) (fun _ => rfl) rfl
  | branch thenBranch elseBranch =>
    unfold resume
    dsimp only
    cases v.truthy with
    | true => exact acts_stay _ s (fun _ => rfl) rfl
    | false =>
      cases elseBranch with
      | none => exact acts_stay _ s (fun _ => rfl) rfl
      | some st => exact acts_stay _ s (fun _ => rfl) rfl
  | loopTest condition body =>
    unfold resume
    dsimp only
    split
    · exact acts_within _ _ s (fun _ => rfl) rfl
    · exact acts_stay _ s (fun _ => rfl) rfl
  | superclass name parent methods =>
    cases v with
    | «class» k => exact acts_declaringClass s name (some k) methods rfl
    | _ => exact acts_stay _ s (fun _ => rfl) rfl
  | discard | returnValue => exact acts_stay _ s (fun _ => rfl) rfl
  | loopBody condition body => exact acts_complete (.loopBody condition body)
  | sequence rest => exact acts_complete (.sequence rest)
  | leave scope => exact acts_complete (.leave scope)
  | call scope f made => exact acts_complete (.call scope f made)

theorem acts_settleFrame (control : Control) (frame : Frame) :
    Acts s fun fs => settleFrame g ⟨control, fs, s⟩ frame := by
  cases control with
  | value v => exact acts_resume v frame
  | completed => exact acts_complete frame
  | returning v =>
    cases frame with
    | leave scope => exact acts_stay _ (s.inScope scope) (fun _ => rfl) rfl
    | call scope f made => exact acts_endingCall scope f made v
    | _ => exact acts_stay _ s (fun _ => rfl) rfl
  | raising d =>
    cases frame with
    | leave scope => exact acts_stay _ (s.inScope scope) (fun _ => rfl) rfl
    | call scope f made => exact acts_stay _ (s.endCall scope) (fun _ => rfl) rfl
    | _ => exact acts_stay _ s (fun _ => rfl) rfl
  | eval | exec | execAll => exact acts_stay _ s (fun _ => rfl) rfl

/-! ## §2. Frames below. -/

/-- A program with more frames below its own. -/
def onto (c : Config) (below : List Frame) : Config :=
  { c with frames := c.frames ++ below }

/-- An outcome goes to the innermost frame. -/
theorem step_outcome (h : (Config.mk control [] s).halted = true) (g : Setting) (frame : Frame)
    (rest : List Frame) :
    step g ⟨control, frame :: rest, s⟩ = settleFrame g ⟨control, rest, s⟩ frame := by
  cases control with
  | eval | exec | execAll => cases h
  | value | completed | returning | raising => rfl

/-- **A step before the end** does not look at the frames below. -/
theorem step_acts {c : Config} (h : c.halted = false) (g : Setting) :
    ∃ c' : Config, (∀ below, (c.onto below).step g = c'.onto below)
      ∧ c.state.sink.Extends c'.state.sink := by
  obtain ⟨control, frames, s⟩ := c
  have hacts : ∃ F : List Frame → Config, ∃ fs, Acts s F
      ∧ ∀ below, (onto ⟨control, frames, s⟩ below).step g = F (fs ++ below) := by
    cases houtcome : (Config.mk control [] s).halted with
    | true =>
      cases frames with
      | nil =>
        rw [h] at houtcome
        cases houtcome
      | cons frame rest =>
        exact ⟨_, rest, acts_settleFrame control frame, fun _ => step_outcome houtcome g frame _⟩
    | false =>
      -- what starts keeps all frames
      cases control with
      | eval e => exact ⟨fun fs => eval g ⟨.eval e, fs, s⟩ e, frames, acts_eval e, fun _ => rfl⟩
      | exec st => exact ⟨fun fs => exec ⟨.exec st, fs, s⟩ st, frames, acts_exec st, fun _ => rfl⟩
      | execAll body =>
        refine ⟨fun fs => execAll ⟨.execAll body, fs, s⟩ body, frames, ?_, fun _ => rfl⟩
        cases body with
        | nil => exact acts_stay _ s (fun _ => rfl) rfl
        | cons st rest => exact acts_within _ _ s (fun _ => rfl) rfl
      | value | completed | returning | raising => cases houtcome
  obtain ⟨F, fs, ⟨control', added, s', hF, hs⟩, hstep⟩ := hacts
  refine ⟨⟨control', added ++ fs, s'⟩, ?_, hs⟩
  intro below
  rw [hstep, hF, ← List.append_assoc]
  rfl

theorem onto_nil (c : Config) : c.onto [] = c := by
  unfold onto
  rw [List.append_nil]

theorem step_onto {c : Config} (h : c.halted = false) (g : Setting) (below : List Frame) :
    (c.onto below).step g = (c.step g).onto below := by
  obtain ⟨c', hc', -⟩ := step_acts h g
  have hnil := hc' []
  rw [onto_nil, onto_nil] at hnil
  rw [hc', hnil]

theorem step_halted {c : Config} (h : c.halted = true) (g : Setting) : c.step g = c := by
  obtain ⟨control, frames, s⟩ := c
  cases control with
  | eval | exec | execAll => cases h
  | value | completed | returning | raising =>
    cases frames with
    | nil => rfl
    | cons => cases h

/-- Nothing printed is lost by a step. -/
theorem step_extends (g : Setting) (c : Config) : c.state.sink.Extends (c.step g).state.sink := by
  cases h : c.halted with
  | true =>
    rw [step_halted h]
    exact .refl _
  | false =>
    obtain ⟨c', hc', hsink⟩ := step_acts h g
    have hnil := hc' []
    rw [onto_nil, onto_nil] at hnil
    rw [hnil]
    exact hsink

/-! ## §3. Runs. -/

theorem run_of_halted {c : Config} (h : c.halted = true) (g : Setting) (n : Nat) :
    Config.run g n c = c := by
  cases n with
  | zero => rfl
  | succ n => rw [Config.run, if_pos h]

theorem run_succ (g : Setting) (n : Nat) (c : Config) :
    Config.run g (n + 1) c = Config.run g n (c.step g) := by
  rw [Config.run]
  split
  · next h => rw [step_halted h, run_of_halted h]
  · rfl

theorem run_add (g : Setting) (m n : Nat) (c : Config) :
    Config.run g (m + n) c = Config.run g n (Config.run g m c) := by
  induction m generalizing c with
  | zero =>
    rw [Nat.zero_add]
    rfl
  | succ m ih => rw [Nat.succ_add, run_succ, ih, run_succ]

/-- The last step of a run. -/
theorem run_last (g : Setting) (n : Nat) (c : Config) :
    Config.run g (n + 1) c = (Config.run g n c).step g := by
  rw [run_add, run_succ]
  rfl

/-- What every step keeps is kept by a run. -/
theorem run_keeps {P : Config → Prop} {g : Setting} (hstep : ∀ c, P c → P (c.step g)) {c : Config}
    (h : P c) (n : Nat) : P (Config.run g n c) := by
  induction n generalizing c with
  | zero => exact h
  | succ n ih =>
    rw [run_succ]
    exact ih (hstep c h)

/-- **Nothing printed is lost by a run.** -/
theorem run_extends (g : Setting) (n : Nat) (c : Config) :
    c.state.sink.Extends (Config.run g n c).state.sink := by
  induction n generalizing c with
  | zero => exact .refl _
  | succ n ih =>
    rw [run_succ]
    exact (step_extends g c).trans (ih _)

/-- A program does inside other frames what it does alone, until it ends. -/
theorem run_onto {g : Setting} {n : Nat} {c : Config}
    (h : ∀ m < n, (Config.run g m c).halted = false) (below : List Frame) :
    Config.run g n (c.onto below) = (Config.run g n c).onto below := by
  induction n generalizing c with
  | zero => rfl
  | succ n ih =>
    have hfirst : c.halted = false := h 0 (Nat.succ_pos n)
    rw [run_succ, run_succ, step_onto hfirst]
    apply ih
    intro m hm
    rw [← run_succ]
    exact h (m + 1) (Nat.succ_lt_succ hm)

/-- What has ended has left all its frames. -/
theorem frames_of_halted {c : Config} (h : c.halted = true) : c.frames = [] := by
  obtain ⟨control, frames, s⟩ := c
  cases control with
  | eval | exec | execAll => cases h
  | value | completed | returning | raising => exact List.isEmpty_iff.mp h

/-- A program that ends comes to its end inside other frames too: up to the
first moment at which it has ended it does the same there. -/
theorem run_onto_of_halted {g : Setting} {n : Nat} {c : Config}
    (h : (Config.run g n c).halted = true) :
    ∃ k ≤ n, Config.run g k c = Config.run g n c
      ∧ ∀ below, Config.run g k (c.onto below) = (Config.run g k c).onto below := by
  have hsome : ∃ k, (Config.run g k c).halted = true := ⟨n, h⟩
  have hle : Nat.find hsome ≤ n := Nat.find_min' hsome h
  refine ⟨Nat.find hsome, hle, ?_, ?_⟩
  · obtain ⟨d, hd⟩ := Nat.exists_eq_add_of_le hle
    rw [hd, run_add, run_of_halted (Nat.find_spec hsome)]
  · intro below
    apply run_onto
    intro m hm
    exact Bool.eq_false_iff.mpr (Nat.find_min hsome hm)

/-- A program that gets through the frames below it has ended by itself before. -/
theorem ended_of_onto {g : Setting} {n : Nat} {c : Config} {frame : Frame} {below : List Frame}
    (h : (Config.run g n (c.onto (frame :: below))).frames = []) :
    ∃ k ≤ n, (Config.run g k c).halted = true
      ∧ ∀ below', Config.run g k (c.onto below') = (Config.run g k c).onto below' := by
  have hsome : ∃ m ≤ n, (Config.run g m c).halted = true := by
    by_contra hnone
    have hrunning : ∀ m < n, (Config.run g m c).halted = false := by
      intro m hm
      by_contra hhalted
      exact hnone ⟨m, Nat.le_of_lt hm, Bool.not_eq_false _ ▸ hhalted⟩
    rw [run_onto hrunning] at h
    exact List.append_ne_nil_of_right_ne_nil _ (List.cons_ne_nil frame below) h
  obtain ⟨m, hm, hhalted⟩ := hsome
  obtain ⟨k, hk, heq, honto⟩ := run_onto_of_halted hhalted
  exact ⟨k, Nat.le_trans hk hm, heq ▸ hhalted, honto⟩

/-! ## §4. Statements after statements. -/

/-- What has ended by itself, inside the frame of the statements to come: they
start, or the whole program has ended in another way. -/
theorem run_sequence {g : Setting} {c : Config} (h : c.halted = true) (rest : List Stmt) {n : Nat}
    {s' : State} (hrun : Config.run g n (c.onto [.sequence rest]) = ⟨.completed, [], s'⟩) :
    (∀ rest', (c.onto [.sequence rest']).step g = ⟨.execAll rest', [], c.state⟩)
      ∧ ∃ m < n, Config.run g m ⟨.execAll rest, [], c.state⟩ = ⟨.completed, [], s'⟩ := by
  obtain ⟨control, frames, s⟩ := c
  cases n with
  | zero =>
    have hframes := congrArg Config.frames hrun
    exact absurd hframes (List.append_ne_nil_of_right_ne_nil _ (List.cons_ne_nil _ _))
  | succ n =>
    rw [run_succ] at hrun
    cases control with
    | eval | exec | execAll => cases h
    | value | completed =>
      obtain rfl := List.isEmpty_iff.mp h
      exact ⟨fun _ => rfl, n, Nat.lt_succ_self n, hrun⟩
    | returning | raising =>
      -- a `return` or a failure does not let the statements start
      obtain rfl := List.isEmpty_iff.mp h
      rw [run_of_halted rfl] at hrun
      cases hrun

/-- **More statements start where the first ones left off.** -/
theorem run_execAll_append {g : Setting} (ss rest : List Stmt) {n : Nat} {s s' : State}
    (h : Config.run g n ⟨.execAll ss, [], s⟩ = ⟨.completed, [], s'⟩) :
    ∃ m, Config.run g m ⟨.execAll (ss ++ rest), [], s⟩ = ⟨.execAll rest, [], s'⟩ := by
  induction ss generalizing n s with
  | nil =>
    cases n with
    | zero => cases h
    | succ n =>
      rw [run_succ, run_of_halted rfl] at h
      cases h
      exact ⟨0, rfl⟩
  | cons st ss ih =>
    cases n with
    | zero => cases h
    | succ n =>
      -- the first statement by itself, then the frame of the others
      have hframes : (Config.run g n (onto ⟨.exec st, [], s⟩ [.sequence ss])).frames = [] := by
        rw [run_succ] at h
        exact congrArg Config.frames h
      obtain ⟨k, hk, hhalted, honto⟩ := ended_of_onto hframes
      obtain ⟨d, rfl⟩ := Nat.exists_eq_add_of_le hk
      have hrun : Config.run g d ((Config.run g k ⟨.exec st, [], s⟩).onto [.sequence ss])
          = ⟨.completed, [], s'⟩ := by
        rw [run_succ] at h
        rw [← honto, ← run_add]
        exact h
      obtain ⟨hstep, n', -, hrest⟩ := run_sequence hhalted ss hrun
      obtain ⟨m, hm⟩ := ih hrest
      refine ⟨k + (m + 1) + 1, ?_⟩
      rw [run_succ, run_add]
      show Config.run g (m + 1) (Config.run g k (onto ⟨.exec st, [], s⟩ [.sequence (ss ++ rest)])) = _
      rw [honto, run_succ, hstep]
      exact hm

end Config

end Lox
