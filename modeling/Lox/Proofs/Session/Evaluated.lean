/-
  Lox.Proofs.Session.Evaluated
  ────────────────────────────
  **EVALUATING AND PRINTING AGREE.**

  A text that is one expression can be evaluated by itself, without any scope
  analysis, or be printed by a program.  Both read the same tree; the analysis
  of the program finds nothing; and before anything else has run there is no
  code that the expression could call.  So both ways do the same steps, the
  program does them inside two frames, and some fuel suffices for both.

  Main result:
    * `evaluated_is_printed`: evaluation yields the value whose text a program
      prints, or fails as the program fails.
-/
import Lox.Command
import Lox.Proofs.Machine.Weight
import Lox.Proofs.Parse.Alone
import Lox.Proofs.Session.Kept

namespace Lox

/-! ## §1. Texts and octets. -/

/-- The octets of a text are read as the text. -/
theorem Text.Utf8.decodeLossy_toUTF8 (text : String) : decodeLossy text.toUTF8 = text := by
  have hread : String.fromUTF8? text.toUTF8 = some text := dif_pos text.isValidUTF8
  unfold decodeLossy
  rw [hread]

namespace Config

/-! ## §2. Inside a `print` statement. -/

variable {s t : State} {e : Expr} {v : Value} {d : Diagnostic}

/-- What a `print` statement evaluates, it evaluates inside two frames. -/
theorem run_print (g : Setting) (n : Nat) :
    Config.run g (n + 2) ⟨.execAll [.print e], [], s⟩
      = Config.run g n (onto ⟨.eval e, [], s⟩ [.print, .sequence []]) := by
  rw [run_succ, run_succ]
  rfl

/-- A value is printed, and the program is complete. -/
theorem run_printed (hcapacity : t.sink.capacity = none) (g : Setting) (n : Nat) :
    Config.run g (n + 3) (onto ⟨.value v, [], t⟩ [.print, .sequence []])
      = ⟨.completed, [], t.write (t.lineOf v)⟩ := by
  have hfits : t.sink.fits (t.textOf v ++ "\n").toUTF8 = true := by
    unfold Sink.fits
    rw [hcapacity]
  have hprinted : (onto ⟨.value v, [], t⟩ [.print, .sequence []]).step g
      = ⟨.completed, [.sequence []], t.write (t.lineOf v)⟩ := by
    show printing ⟨.value v, [.sequence []], t⟩ v = _
    unfold printing
    dsimp only
    rw [if_pos hfits]
    rfl
  rw [run_succ, hprinted, run_succ, run_succ]
  exact run_of_halted rfl g n

/-- A failure leaves the two frames. -/
theorem run_raised (g : Setting) (n : Nat) :
    Config.run g (n + 2) (onto ⟨.raising d, [], t⟩ [.print, .sequence []])
      = ⟨.raising d, [], t⟩ := by
  rw [run_succ, run_succ]
  exact run_of_halted rfl g n

/-- How evaluating an expression ends, beside the program that prints it. -/
inductive Prints (s : State) : Config → Config → Prop
  | value {v : Value} {t : State} (h : t.sink = s.sink) :
      Prints s ⟨.value v, [], t⟩ ⟨.completed, [], t.write (t.lineOf v)⟩
  | failure {d : Diagnostic} {t : State} (h : t.sink = s.sink) :
      Prints s ⟨.raising d, [], t⟩ ⟨.raising d, [], t⟩

/-- **Some fuel suffices** for an expression that can call no code, and for the
program that prints it. -/
theorem exists_prints (hs : ∀ v, s.Holds v → v.Plain) (hcapacity : s.sink.capacity = none)
    (e : Expr) (g : Setting) :
    ∃ enough, ∀ fuel, enough ≤ fuel →
      Prints s (Config.run g fuel ⟨.eval e, [], s⟩)
        (Config.run g fuel ⟨.execAll [.print e], [], s⟩) := by
  obtain ⟨hbare, hhalted, hsink⟩ := (bare_of_state hs e).run g (Nat.le_refl _)
  obtain ⟨k, -, hend, honto⟩ := run_onto_of_halted hhalted
  rw [← hend] at hbare hhalted hsink
  refine ⟨k + 5, fun fuel hfuel => ?_⟩
  obtain ⟨n, rfl⟩ := Nat.exists_eq_add_of_le hfuel
  have halone : Config.run g (k + 5 + n) ⟨.eval e, [], s⟩ = Config.run g k ⟨.eval e, [], s⟩ := by
    rw [Nat.add_assoc, run_add, run_of_halted hhalted]
  have hinside : Config.run g (k + 5 + n) ⟨.execAll [.print e], [], s⟩
      = Config.run g (n + 3) ((Config.run g k ⟨.eval e, [], s⟩).onto [.print, .sequence []]) := by
    have hsplit : k + 5 + n = k + (n + 3) + 2 := by omega
    rw [hsplit, run_print, run_add, honto]
  rw [halone, hinside]
  generalize Config.run g k ⟨.eval e, [], s⟩ = c at hbare hhalted hsink
  obtain ⟨control, frames, t⟩ := c
  obtain rfl : frames = [] := frames_of_halted hhalted
  cases control with
  | value v =>
    rw [run_printed (hsink ▸ hcapacity)]
    exact .value hsink
  | raising d =>
    rw [run_raised g (n + 1)]
    exact .failure hsink
  | eval => cases hhalted
  | exec | execAll | completed | returning => exact hbare.control.elim

end Config

/-! ## §3. Commands. -/

namespace Session

variable {source : String} {e : Expr}

/-- A new session accepts a printed expression. -/
theorem accepts_printing (h : Source.IsExpression source e)
    (hself : Grammar.Selfless (Scanned.ofSource source).tokens) :
    (new none).Accepts (Source.printing source)
      ∧ ((new none).resolution (Source.printing source)).distances = [] := by
  obtain ⟨hstatements, hfailures⟩ := Source.program_print h
  obtain ⟨ts, eof, htokens, hderives⟩ := h.derives
  rw [htokens] at hself
  have hresolution : (new none).resolution (Source.printing source) = ⟨[], []⟩ := by
    unfold resolution
    have hparsed : ((new none).parsed (Source.printing source)).statements = [.print e] :=
      hstatements
    rw [hparsed]
    exact Grammar.resolve_print hderives (Grammar.selfless_append.mp hself).1 _
  exact ⟨⟨hfailures, congrArg Resolve.Resolution.failures hresolution⟩,
    congrArg Resolve.Resolution.distances hresolution⟩

/-- The run of a printed expression is the run of one statement, without
distances. -/
theorem run_printing (h : Source.IsExpression source e)
    (hself : Grammar.Selfless (Scanned.ofSource source).tokens) (fuel : Nat) (clock : Clock) :
    let c := Config.run { distances := ∅, clock } fuel ⟨.execAll [.print e], [], .initial none⟩
    ∃ nextId, (new none).run fuel clock (Source.printing source)
      = (⟨⟨c.state, ∅⟩, nextId⟩, .ofEnding c.ending) := by
  obtain ⟨haccepts, hdistances⟩ := accepts_printing h hself
  have hsetting : (new none).setting clock (Source.printing source)
      = { distances := ∅, clock } := by
    unfold setting
    rw [hdistances]
    rfl
  have hstart : (new none).start (Source.printing source)
      = ⟨.execAll [.print e], [], .initial none⟩ := by
    have hstatements : ((new none).parsed (Source.printing source)).statements = [.print e] :=
      (Source.program_print h).1
    unfold start
    rw [hstatements]
    rfl
  have hrun := run_eq haccepts fuel clock
  rw [hsetting, hstart] at hrun
  exact ⟨_, hrun⟩

/-- A new program has no function and no class. -/
theorem holds_plain_initial {capacity : Option Nat} :
    ∀ v, (State.initial capacity).Holds v → v.Plain := by
  intro v hv
  rw [State.holds_initial hv]
  trivial

/-- A first run shows all that is in the sink after it. -/
theorem runShowing_new {fuel : Nat} {clock : Clock} {chunk text : String} {s : Session}
    {outcome : Outcome} (h : (new none).run fuel clock chunk = (s, outcome))
    (hwritten : s.machine.state.sink.written = text.toUTF8) :
    (new none).runShowing fuel clock chunk = (s, text, outcome) := by
  have houtput : s.outputFrom 0 = text := by
    unfold outputFrom printed
    rw [ByteArray.extract_zero_size, hwritten, Text.Utf8.decodeLossy_toUTF8]
  rw [runShowing_eq, h]
  exact congrArg (fun output => (s, output, outcome)) houtput

/-- **Evaluating an expression agrees with printing it.**  If a text is one
expression without `this` and `super`, then, given enough fuel, evaluating it
either yields a value, and a new session prints the text of that value and a
line end for the program `print`, the text, a line end and `;`; or it fails,
and that program fails with the same message on the same line and prints
nothing.  What the two commands show is the same. -/
theorem evaluated_is_printed (clock : Clock)
    (htree : (Source.expression source).expression = some e)
    (hfailures : (Source.expression source).failures = [])
    (hself : ∀ t ∈ (Scanned.ofSource source).tokens, t.kind ≠ .kwThis ∧ t.kind ≠ .kwSuper) :
    ∃ enough, ∀ fuel, enough ≤ fuel →
      ((∃ m v s, (Machine.new none).evaluate fuel clock e = (m, some (.ok v))
          ∧ (Session.new none).run fuel clock ("print " ++ source ++ "\n;") = (s, .succeeded)
          ∧ s.machine.state.sink.written = (m.state.textOf v ++ "\n").toUTF8)
        ∨ (∃ m d s, (Machine.new none).evaluate fuel clock e = (m, some (.error d))
          ∧ (Session.new none).run fuel clock ("print " ++ source ++ "\n;") = (s, .failed d)
          ∧ s.machine.state.sink.written = ByteArray.empty))
      ∧ Command.evaluateText fuel clock source
        = Command.runText fuel clock ("print " ++ source ++ "\n;") := by
  obtain ⟨enough, hprints⟩ :=
    Config.exists_prints holds_plain_initial rfl e { distances := ∅, clock }
  refine ⟨enough, fun fuel hfuel => ?_⟩
  have hboth := hprints fuel hfuel
  obtain ⟨nextId, hrun⟩ := run_printing ⟨htree, hfailures⟩ hself fuel clock
  change (new none).run fuel clock ("print " ++ source ++ "\n;") = _ at hrun
  have hevaluated : (Machine.new none).evaluate fuel clock e
      = (⟨(Config.run { distances := ∅, clock } fuel ⟨.eval e, [], .initial none⟩).state, ∅⟩,
        _) := rfl
  generalize Config.run { distances := ∅, clock } fuel ⟨.eval e, [], .initial none⟩ = c
    at hboth hevaluated
  generalize Config.run { distances := ∅, clock } fuel ⟨.execAll [.print e], [], .initial none⟩ = c'
    at hboth hrun
  unfold Command.evaluateText Command.evaluation Command.runText Command.execution
  rw [hevaluated]
  dsimp only
  rw [htree, hfailures]
  dsimp only
  rw [Job.perform_map, Job.perform_map,
    show ((Machine.new none).evaluation e).perform fuel clock = _ from hevaluated]
  cases hboth with
  | @value v t hsink =>
    have hwritten : (t.write (t.lineOf v)).sink.written = (t.textOf v ++ "\n").toUTF8 := by
      show (t.sink.write (t.lineOf v)).written = _
      rw [hsink]
      exact ByteArray.empty_append
    refine ⟨.inl ⟨_, v, _, rfl, hrun, hwritten⟩, ?_⟩
    rw [show ((new none).chunkShowing _).perform fuel clock = _ from runShowing_new hrun hwritten]
    rfl
  | @failure d t hsink =>
    have hwritten : t.sink.written = "".toUTF8 := by
      rw [hsink]
      rfl
    refine ⟨.inr ⟨_, d, _, rfl, hrun, hwritten⟩, ?_⟩
    rw [show ((new none).chunkShowing _).perform fuel clock = _ from runShowing_new hrun hwritten]
    rfl

/-- A comment at the end of an expression does not hide the semicolon. -/
theorem evaluated_is_printed_comment :
    let source := "\"a\" + \"b\" // c;"
    ∃ e, (Source.expression source).expression = some e ∧ (Source.expression source).failures = []
      ∧ (∀ t ∈ (Scanned.ofSource source).tokens, t.kind ≠ .kwThis ∧ t.kind ≠ .kwSuper)
      ∧ ∃ enough, ∀ fuel, enough ≤ fuel →
        Command.evaluateText fuel (.still 0) source
          = Command.runText fuel (.still 0) ("print " ++ source ++ "\n;") := by
  intro source
  have hsome : (Source.expression source).expression.isSome := by decide +kernel
  obtain ⟨e, he⟩ := Option.isSome_iff_exists.mp hsome
  have hfailures : (Source.expression source).failures = [] := by decide +kernel
  have hself : ∀ t ∈ (Scanned.ofSource source).tokens, t.kind ≠ .kwThis ∧ t.kind ≠ .kwSuper := by
    decide +kernel
  obtain ⟨enough, hagree⟩ := evaluated_is_printed (.still 0) he hfailures hself
  exact ⟨e, he, hfailures, hself, enough, fun fuel hfuel => (hagree fuel hfuel).2⟩

end Session

end Lox
