/-
  Lox.Proofs.Machine.Output
  ─────────────────────────
  **ONLY PRINTING LOOKS AT THE SINK.**

  Every other step does the same whatever the sink is, and leaves it alone
  (`step_withSink`).  So a program whose sink takes a limited number of octets
  runs as it would with an unlimited one as long as everything fits
  (`run_capped`), and the first print that does not fit fails
  (`step_overflows`).
-/
import Lox.Proofs.Machine.Frames

namespace Lox

/-! ## §1. Steps that print nothing. -/

theorem Sink.Extends.size_le {k k' : Sink} (h : k.Extends k') :
    k.written.size ≤ k'.written.size := by
  obtain ⟨bytes, hbytes⟩ := h
  rw [hbytes, ByteArray.size_append]
  exact Nat.le_add_right _ _

/-- What octets with room behind them keep. -/
theorem extract_append_of_size_le {a b : ByteArray} {n : Nat} (h : a.size ≤ n) :
    (a ++ b).extract 0 n = a ++ b.extract 0 (n - a.size) := by
  have hleft : a.extract 0 n = a := by
    rw [← Nat.max_eq_left h]
    exact ByteArray.extract_zero_max_size
  rw [ByteArray.extract_append, hleft, Nat.zero_sub]

/-- The same state with another sink. -/
def State.withSink (s : State) (k : Sink) : State :=
  { s with sink := k }

/-- What printing a value writes. -/
def State.lineOf (s : State) (v : Value) : ByteArray :=
  (s.textOf v ++ "\n").toUTF8

namespace Config

/-- The same program with another sink. -/
def withSink (c : Config) (k : Sink) : Config :=
  ⟨c.control, c.frames, c.state.withSink k⟩

variable (g : Setting) (c : Config) (s : State) (k : Sink)

theorem superclassAt_withSink (distance : Nat) (keyword : Token) :
    superclassAt (s.withSink k) distance keyword = superclassAt s distance keyword :=
  rfl

theorem receiverAt_withSink (distance : Nat) :
    receiverAt (s.withSink k) distance = receiverAt s distance := by
  cases distance <;> rfl

theorem openMethodScope_withSink (parent : Option Class) :
    openMethodScope (s.withSink k) parent = (openMethodScope s parent).withSink k := by
  cases parent <;> rfl

theorem declaredClass_withSink (name : Token) (parent : Option Class)
    (methods : List (FunctionDecl Stmt)) :
    declaredClass (s.withSink k) name parent methods = declaredClass s name parent methods := by
  cases parent <;> rfl

theorem settling_withSink (line : Nat) (result : Except RuntimeFault Value) :
    (c.withSink k).settling line result = (c.settling line result).withSink k := by
  cases result <;> rfl

theorem property_withSink (id : ObjectId) (name : Token) :
    (c.withSink k).property id name = (c.property id name).withSink k := by
  unfold property
  dsimp only [withSink, State.withSink]
  cases c.state.objects[id]? with
  | none => rfl
  | some o =>
    dsimp only
    cases o.fields.get? name.lexeme with
    | some v => rfl
    | none =>
      dsimp only
      cases o.cls.method? name.lexeme <;> rfl

theorem superMethod_withSink (o : Occurrence) (name : Token) :
    superMethod g (c.withSink k) o name = (superMethod g c o name).withSink k := by
  unfold superMethod
  simp only [withSink, superclassAt_withSink, receiverAt_withSink]
  cases g.distances[o.id]? with
  | none => rfl
  | some distance =>
    dsimp only
    cases superclassAt c.state distance o.name with
    | error fault => rfl
    | ok parent =>
      dsimp only
      cases receiverAt c.state distance with
      | error fault => rfl
      | ok id =>
        dsimp only
        cases parent.method? name.lexeme <;> rfl

theorem assigning_withSink (o : Occurrence) (v : Value) :
    assigning g (c.withSink k) o v = (assigning g c o v).withSink k := by
  have htarget : assignmentTarget g (c.withSink k).state o = assignmentTarget g c.state o := rfl
  unfold assigning
  rw [htarget]
  cases assignmentTarget g c.state o <;> rfl

theorem beginning_withSink (arguments : Array Value) (callable : Callable) :
    beginning g (c.withSink k) arguments callable
      = (beginning g c arguments callable).withSink k := by
  cases callable with
  | native n =>
    cases n
    rfl
  | function f => rfl
  | «class» cls =>
    show making (c.withSink k) cls arguments = (making c cls arguments).withSink k
    unfold making
    dsimp only
    cases cls.initializer? <;> rfl

theorem endingCall_withSink (scope : ScopeId) (f : Function) (made : Option ObjectId) (v : Value) :
    (c.withSink k).endingCall scope f made v = (c.endingCall scope f made v).withSink k := by
  have hresult : callResult ((c.withSink k).mapState (·.endCall scope)).state f v
      = callResult (c.mapState (·.endCall scope)).state f v := rfl
  unfold endingCall
  dsimp only
  rw [hresult]
  cases callResult (c.mapState (·.endCall scope)).state f v with
  | error fault => rfl
  | ok r => cases made <;> rfl

theorem declaringClass_withSink (name : Token) (parent : Option Class)
    (methods : List (FunctionDecl Stmt)) :
    (c.withSink k).declaringClass name parent methods
      = (c.declaringClass name parent methods).withSink k := by
  obtain ⟨control, frames, s⟩ := c
  unfold declaringClass mapState
  simp only [withSink, openMethodScope_withSink, declaredClass_withSink]
  generalize openMethodScope s parent = s'
  dsimp only [State.withSink, State.useIdentities]
  cases s'.scopes.target s'.scope name.lexeme <;> rfl

theorem eval_withSink (e : Expr) : eval g (c.withSink k) e = (eval g c e).withSink k := by
  cases e with
  | «variable» o | this o => exact settling_withSink c k o.name.line (lookUp g c.state o)
  | super o method => exact superMethod_withSink g c k o method
  | _ => rfl

theorem exec_withSink (st : Stmt) : (c.withSink k).exec st = (c.exec st).withSink k := by
  cases st with
  | var name initializer => cases initializer <;> rfl
  | «return» keyword value => cases value <;> rfl
  | «class» name superclass methods =>
    cases superclass with
    | none => exact declaringClass_withSink (c.defining name.lexeme .nil) k name none methods
    | some parent => rfl
  | _ => rfl

theorem execAll_withSink (body : List Stmt) :
    (c.withSink k).execAll body = (c.execAll body).withSink k := by
  cases body <;> rfl

theorem complete_withSink (frame : Frame) :
    (c.withSink k).complete frame = (c.complete frame).withSink k := by
  cases frame with
  | call scope f made => exact endingCall_withSink c k scope f made .nil
  | _ => rfl

theorem calling_withSink (callee : Value) (paren : Token) (arguments : Array Value) :
    calling g (c.withSink k) callee paren arguments
      = (calling g c callee paren arguments).withSink k := by
  have hdepth : (c.withSink k).state.depth = c.state.depth := rfl
  unfold calling
  rw [hdepth]
  cases Callable.ofValue? callee with
  | none => rfl
  | some callable =>
    dsimp only
    split
    · rfl
    · split
      · rfl
      · exact beginning_withSink g c k arguments callable

theorem arguing_withSink (callee : Value) (paren : Token) (earlier : Array Value)
    (rest : List Expr) :
    arguing g (c.withSink k) callee paren earlier rest
      = (arguing g c callee paren earlier rest).withSink k := by
  cases rest with
  | nil => exact calling_withSink g c k callee paren earlier
  | cons e rest => rfl

theorem resume_withSink (v : Value) {frame : Frame} (h : frame ≠ .print) :
    resume g (c.withSink k) v frame = (resume g c v frame).withSink k := by
  cases frame with
  | print => exact absurd rfl h
  | unary | binaryRight => exact settling_withSink c k _ _
  | logical operator right =>
    unfold resume
    dsimp only
    split <;> rfl
  | assign target => exact assigning_withSink g c k target v
  | callee paren arguments => exact arguing_withSink g c k v paren #[] arguments
  | argument callee paren earlier rest =>
    exact arguing_withSink g c k callee paren (earlier.push v) rest
  | get name =>
    cases v with
    | object id => exact property_withSink c k id name
    | _ => rfl
  | setObject name value => cases v <;> rfl
  | branch thenBranch elseBranch =>
    unfold resume
    dsimp only
    cases v.truthy with
    | true => rfl
    | false => cases elseBranch <;> rfl
  | loopTest condition body =>
    unfold resume
    dsimp only
    split <;> rfl
  | superclass name parent methods =>
    cases v with
    | «class» cls => exact declaringClass_withSink c k name (some cls) methods
    | _ => rfl
  | call scope f made => exact endingCall_withSink c k scope f made .nil
  | _ => rfl

/-- The value that is printed next. -/
def printed? : Config → Option Value
  | ⟨.value v, .print :: _, _⟩ => some v
  | _ => none

/-- **Only printing looks at the sink.** -/
theorem step_withSink {c : Config} (h : c.printed? = none) :
    (c.withSink k).step g = (c.step g).withSink k := by
  obtain ⟨control, frames, s⟩ := c
  cases control with
  | eval e => exact eval_withSink g ⟨.eval e, frames, s⟩ k e
  | exec st => exact exec_withSink ⟨.exec st, frames, s⟩ k st
  | execAll body => exact execAll_withSink ⟨.execAll body, frames, s⟩ k body
  | value v =>
    cases frames with
    | nil => rfl
    | cons frame rest =>
      refine resume_withSink g ⟨.value v, rest, s⟩ k v ?_
      rintro rfl
      cases h
  | completed =>
    cases frames with
    | nil => rfl
    | cons frame rest => exact complete_withSink ⟨.completed, rest, s⟩ k frame
  | returning v =>
    cases frames with
    | nil => rfl
    | cons frame rest =>
      cases frame with
      | call scope f made => exact endingCall_withSink ⟨.returning v, rest, s⟩ k scope f made v
      | _ => rfl
  | raising d =>
    cases frames with
    | nil => rfl
    | cons frame rest => cases frame <;> rfl

/-- What prints nothing leaves the sink alone. -/
theorem sink_step {c : Config} (h : c.printed? = none) : (c.step g).state.sink = c.state.sink := by
  have hself := step_withSink g c.state.sink h
  exact congrArg (fun c => c.state.sink) hself

/-! ## §2. Steps that print. -/

/-- The same program with a sink that takes `n` octets in all. -/
def capped (c : Config) (n : Nat) : Config :=
  c.withSink ⟨c.state.sink.written, some n⟩

variable {g c} {n : Nat}

theorem eq_of_printed? {v : Value} (h : c.printed? = some v) :
    ∃ rest s, c = ⟨.value v, .print :: rest, s⟩ := by
  unfold printed? at h
  split at h
  · cases h
    exact ⟨_, _, rfl⟩
  · cases h

/-- **Printing** writes a line and is complete, or it fails. -/
theorem step_printed {v : Value} (h : c.printed? = some v) (g : Setting) :
    c.step g = ⟨if c.state.sink.fits (c.state.lineOf v) then .completed else .raising .outputFull,
      c.frames.tail, c.state.withSink (c.state.sink.write (c.state.lineOf v))⟩ := by
  obtain ⟨rest, s, rfl⟩ := eq_of_printed? h
  rfl

theorem capacity_step (g : Setting) (c : Config) :
    (c.step g).state.sink.capacity = c.state.sink.capacity := by
  cases hprinted : c.printed? with
  | none => rw [sink_step g hprinted]
  | some v =>
    rw [step_printed hprinted]
    rfl

/-- An unlimited sink takes the whole line. -/
theorem step_unlimited_sink {v : Value} (hc : c.state.sink.capacity = none)
    (h : c.printed? = some v) :
    c.step g = ⟨.completed, c.frames.tail,
      c.state.withSink ⟨c.state.sink.written ++ c.state.lineOf v, none⟩⟩ := by
  rw [step_printed h]
  unfold Sink.fits Sink.write Sink.fitting
  dsimp only
  rw [hc]
  rfl

/-- A limited sink takes as much of the line as there is room for. -/
theorem step_capped_printed {v : Value} (h : c.printed? = some v) :
    (c.capped n).step g
      = ⟨if decide ((c.state.lineOf v).size ≤ n - c.state.sink.written.size) then .completed
          else .raising .outputFull,
        c.frames.tail,
        c.state.withSink ⟨c.state.sink.written
          ++ (c.state.lineOf v).extract 0 (n - c.state.sink.written.size), some n⟩⟩ := by
  obtain ⟨rest, s, rfl⟩ := eq_of_printed? h
  rfl

/-- **A step whose output fits** is the same with a limited sink. -/
theorem step_capped (hc : c.state.sink.capacity = none)
    (hfits : (c.step g).state.sink.written.size ≤ n) :
    (c.capped n).step g = (c.step g).capped n := by
  cases hprinted : c.printed? with
  | none =>
    unfold capped
    rw [step_withSink g _ hprinted, sink_step g hprinted]
  | some v =>
    rw [step_unlimited_sink hc hprinted] at hfits ⊢
    rw [step_capped_printed hprinted]
    change (c.state.sink.written ++ c.state.lineOf v).size ≤ n at hfits
    rw [ByteArray.size_append] at hfits
    have hroom : (c.state.lineOf v).size ≤ n - c.state.sink.written.size := by omega
    have hwhole : (c.state.lineOf v).extract 0 (n - c.state.sink.written.size)
        = c.state.lineOf v := by
      rw [← Nat.max_eq_left hroom]
      exact ByteArray.extract_zero_max_size
    rw [if_pos (decide_eq_true hroom), hwhole]
    rfl

/-- **The first print that does not fit** keeps what fits and fails. -/
theorem step_overflows (hc : c.state.sink.capacity = none)
    (hbefore : c.state.sink.written.size ≤ n)
    (hover : n < (c.step g).state.sink.written.size) :
    (∃ v, c.printed? = some v) ∧ (c.step g).frames = c.frames.tail
      ∧ (c.capped n).step g = ⟨.raising .outputFull, c.frames.tail,
        c.state.withSink ⟨(c.step g).state.sink.written.extract 0 n, some n⟩⟩ := by
  cases hprinted : c.printed? with
  | none =>
    rw [sink_step g hprinted] at hover
    omega
  | some v =>
    rw [step_unlimited_sink hc hprinted] at hover ⊢
    refine ⟨⟨v, rfl⟩, rfl, ?_⟩
    change n < (c.state.sink.written ++ c.state.lineOf v).size at hover
    rw [ByteArray.size_append] at hover
    have hover' : ¬ (c.state.lineOf v).size ≤ n - c.state.sink.written.size := by omega
    rw [step_capped_printed hprinted, if_neg (Bool.eq_false_iff.mp (decide_eq_false hover'))]
    show _ = (⟨_, _, c.state.withSink
      ⟨(c.state.sink.written ++ c.state.lineOf v).extract 0 n, some n⟩⟩ : Config)
    rw [extract_append_of_size_le hbefore]

/-! ## §3. Runs. -/

theorem capacity_run (hc : c.state.sink.capacity = none) (m : Nat) :
    (run g m c).state.sink.capacity = none :=
  run_keeps (P := fun c => c.state.sink.capacity = none)
    (fun c h => (capacity_step g c).trans h) hc m

/-- Output grows along a run. -/
theorem run_extends_le {m m' : Nat} (h : m ≤ m') :
    (run g m c).state.sink.Extends (run g m' c).state.sink := by
  obtain ⟨d, rfl⟩ := Nat.exists_eq_add_of_le h
  rw [run_add]
  exact run_extends g d _

/-- **A run whose output fits** is the same with a limited sink. -/
theorem run_capped (hc : c.state.sink.capacity = none) {m : Nat}
    (hfits : (run g m c).state.sink.written.size ≤ n) :
    run g m (c.capped n) = (run g m c).capped n := by
  induction m with
  | zero => rfl
  | succ m ih =>
    have hgrows := (run_extends_le (g := g) (c := c) (Nat.le_succ m)).size_le
    rw [run_last, run_last, ih (Nat.le_trans hgrows hfits)]
    rw [run_last] at hfits
    exact step_capped (capacity_run hc m) hfits

/-- **A run whose output does not fit** is the same with a limited sink up to one
print.  This one keeps what fits and fails, and then the frames are dropped. -/
theorem run_overflows (hc : c.state.sink.capacity = none)
    (hbefore : c.state.sink.written.size ≤ n) {fuel : Nat}
    (hover : n < (run g fuel c).state.sink.written.size) :
    ∃ last < fuel, (∃ v, (run g last c).printed? = some v)
      ∧ (∀ k ≤ last, run g k (c.capped n) = (run g k c).capped n)
      ∧ (run g (last + 1) c).frames = (run g last c).frames.tail
      ∧ ∀ k, ∃ scope depth, run g (last + 1 + k) (c.capped n)
        = ⟨.raising .outputFull, (run g last c).frames.tail.drop k,
          { (run g last c).state with
            scope, depth
            sink := ⟨(run g fuel c).state.sink.written.extract 0 n, some n⟩ }⟩ := by
  -- the last point whose output fits
  have hsome : ∃ m, n < (run g m c).state.sink.written.size := ⟨fuel, hover⟩
  obtain ⟨last, hlast⟩ : ∃ last, Nat.find hsome = last + 1 := by
    refine Nat.exists_eq_add_one_of_ne_zero fun hzero => ?_
    have hspec := Nat.find_spec hsome
    rw [hzero] at hspec
    exact absurd hspec (Nat.not_lt_of_le hbefore)
  have hlt : last < Nat.find hsome := by omega
  have hfirst : n < (run g (last + 1) c).state.sink.written.size := hlast ▸ Nat.find_spec hsome
  have hle : last + 1 ≤ fuel := hlast ▸ Nat.find_min' hsome hover
  have hfits : ∀ k ≤ last, (run g k c).state.sink.written.size ≤ n := fun k hk =>
    Nat.le_of_not_lt (Nat.find_min hsome (Nat.lt_of_le_of_lt hk hlt))
  -- later output does not change what the sink has room for
  have hcut : (run g fuel c).state.sink.written.extract 0 n
      = (run g (last + 1) c).state.sink.written.extract 0 n := by
    obtain ⟨bytes, hbytes⟩ := run_extends_le (g := g) (c := c) hle
    rw [hbytes, ByteArray.extract_append, Nat.zero_sub,
      Nat.sub_eq_zero_of_le (Nat.le_of_lt hfirst), ByteArray.extract_same, ByteArray.append_empty]
  rw [run_last] at hfirst
  obtain ⟨hprinted, hframes, hstep⟩ :=
    step_overflows (capacity_run hc last) (hfits last (Nat.le_refl last)) hfirst
  have hfull : run g (last + 1) (c.capped n) = ⟨.raising .outputFull, (run g last c).frames.tail,
      (run g last c).state.withSink
        ⟨(run g fuel c).state.sink.written.extract 0 n, some n⟩⟩ := by
    rw [run_last, run_capped hc (hfits last (Nat.le_refl last)), hstep, hcut, run_last]
  refine ⟨last, hle, hprinted, fun k hk => run_capped hc (hfits k hk), ?_, ?_⟩
  · rw [run_last]
    exact hframes
  · intro k
    obtain ⟨scope, depth, hrun⟩ := run_raising g .outputFull (run g last c).frames.tail
      ((run g last c).state.withSink
        ⟨(run g fuel c).state.sink.written.extract 0 n, some n⟩) k
    refine ⟨scope, depth, ?_⟩
    rw [run_add, hfull, hrun]
    rfl

end Config

end Lox
