/-
  Lox.Proofs.Session.Batch
  ────────────────────────
  **CHUNK BY CHUNK OR ALL AT ONCE.**

  Two sources that a session runs one after the other can be run as one: the
  joint source is accepted, prints what the two print one after the other,
  and ends like the second one (`Session.run_append`).

  Each stage goes on where it stopped.  Scanning and reading yield the
  statements of both, those of the second source on later lines; the analysis
  of names notes the distances of both.  The first source does not meet any
  distance of the second, so it runs as before, and the second one starts
  where the first has left off.
-/
import Lox.Proofs.Machine.Lines
import Lox.Proofs.Machine.Sequence
import Lox.Proofs.Parse.Lines
import Lox.Proofs.Resolve.Sequel
import Lox.Proofs.Session.Kept

namespace Lox

open Lockstep Resolve

/-! ## §1. Reading. -/

/-- **Sources are read one after the other**: the second one on later lines. -/
theorem Source.program_newline (n : Nat) (first second : String)
    (h : (Source.program n first).failures = [])
    (h' : (Source.program (Source.program n first).nextId second).failures = []) :
    ∃ f : Nat → Nat, Source.program n (first ++ "\n" ++ second)
      = ⟨(Source.program n first).statements
          ++ (Source.program (Source.program n first).nextId second).statements.map (Stmt.reline f),
        [], (Source.program (Source.program n first).nextId second).nextId⟩ := by
  obtain ⟨hscan, hread⟩ := List.append_eq_nil_iff.mp h
  obtain ⟨hscan', hread'⟩ := List.append_eq_nil_iff.mp h'
  obtain ⟨ts, eof, k, htokens, heof, hts, hjoint, hfailures⟩ :=
    ofSource_newline first second hscan hscan'
  obtain ⟨us, eof', htokens', heof', hus, -⟩ := tokens_of_source second
  change (Parse.program (Parse.program n (Scanned.ofSource first).tokens).nextId
    (Scanned.ofSource second).tokens).failures = [] at hread'
  rw [htokens] at hread hread'
  rw [htokens'] at hread' hjoint
  have hprogram := Parse.program_append (· + k) n heof hts heof' hus hread hread'
  refine ⟨(· + k), ?_⟩
  unfold Source.program
  dsimp only
  rw [htokens, htokens', hjoint, hprogram, hfailures]
  rfl

/-! ## §2. Running the first source. -/

/-- **Distances of other code do not matter**: a program whose occurrences have
numbers below a limit takes the same steps when other distances are known
from the limit on. -/
theorem Lockstep.Alongside.step_congr {T : Chart} {g : Setting} {D : Distances} {c c' : Config}
    (h : Alongside (byDistance T) c c') (hD : ∀ id < T.limit, D[id]? = g.distances[id]?) :
    c.step { g with distances := D } = c.step g := by
  obtain ⟨control, frames, s⟩ := c
  obtain ⟨control', frames', s'⟩ := c'
  obtain ⟨w, scopes, a, hdoes, hwaits, -⟩ := h
  dsimp only at hdoes hwaits
  cases hdoes with
  | @eval _ _ _ e hb =>
    cases e with
    | «variable» o =>
      show Config.settling _ _ (Config.lookUp { g with distances := D } s o) = _
      unfold Config.lookUp
      rw [hD o.id hb.1.1]
      rfl
    | this o =>
      show Config.settling _ _ (Config.lookUp { g with distances := D } s o) = _
      unfold Config.lookUp
      rw [hD o.id hb.1.1]
      rfl
    | super o method =>
      show Config.superMethod { g with distances := D } _ o method = _
      unfold Config.superMethod
      rw [hD o.id hb.1.1]
      rfl
    | _ => rfl
  | value =>
    cases hwaits with
    | cons hop _ =>
      cases hop with
      | @assign _ _ _ o hl =>
        show Config.assigning { g with distances := D } _ o _ = _
        unfold Config.assigning Config.assignmentTarget
        rw [hD o.id hl.1]
        rfl
      | _ => rfl
  | exec | execAll => rfl
  | completed | returning | raising => cases frames <;> rfl

/-- A run of code below the limit does not depend on other distances. -/
theorem run_congr {T : Chart} {g : Setting} {D : Distances} {c : Config}
    (hD : ∀ id < T.limit, D[id]? = g.distances[id]?) (n : Nat)
    (h : ∀ m, Alongside (byDistance T) (Config.run g m c) (Config.run g m c)) :
    Config.run { g with distances := D } n c = Config.run g n c := by
  induction n generalizing c with
  | zero => rfl
  | succ n ih =>
    have hstep : c.step { g with distances := D } = c.step g := (h 0).step_congr hD
    rw [Config.run_succ, Config.run_succ, hstep]
    apply ih
    intro m
    rw [← Config.run_succ]
    exact h (m + 1)

/-- No `return` ends a program at the top level. -/
theorem Lockstep.Alongside.completed {S : Sight} {T : Chart} {D : Discipline S T} {c c' : Config}
    (h : Alongside D c c') (hending : c.ending = .completed) :
    c = ⟨.completed, [], c.state⟩ := by
  obtain ⟨control, frames, s⟩ := c
  obtain ⟨control', frames', s'⟩ := c'
  obtain ⟨w, scopes, a, hdoes, hwaits, -⟩ := h
  dsimp only at hdoes hwaits
  cases hwaits with
  | cons => cases hdoes <;> cases hending
  | bottom =>
    generalize ha : (⟨.completion, false, [], []⟩ : Stance) = a at hdoes
    cases hdoes with
    | completed => rfl
    | returning => cases ha
    | _ => cases hending

/-! ## §3. Outcomes. -/

/-- Outcomes of a run that differ at most in the line of a failure. -/
def Outcome.Alike : Outcome → Outcome → Prop
  | .succeeded, .succeeded => True
  | .failed failure, .failed failure' => failure.message = failure'.message
  | .unfinished, .unfinished => True
  | _, _ => False

/-- What is the same program but for lines has the same outcome. -/
theorem alike_of_reline {f : Nat → Nat} {c c' : Config} (h : c.reline f = c'.reline f) :
    (Outcome.ofEnding c.ending).Alike (Outcome.ofEnding c'.ending) := by
  obtain ⟨control, frames, s⟩ := c
  obtain ⟨control', frames', s'⟩ := c'
  have hcontrol : control.reline f = control'.reline f := congrArg Config.control h
  have hframes : frames.length = frames'.length := by
    have hlength := congrArg (List.length ∘ Config.frames) h
    simpa [Config.reline] using hlength
  cases frames with
  | cons frame rest =>
    obtain ⟨frame', rest', rfl⟩ := List.exists_cons_of_length_eq_add_one hframes.symm
    cases control <;> cases control' <;> trivial
  | nil =>
    obtain rfl := List.eq_nil_of_length_eq_zero hframes.symm
    cases control <;> cases control' <;> first | trivial | cases hcontrol | skip
    next d d' =>
      have hd : d.reline f = d'.reline f := Control.raising.inj hcontrol
      show d.message = d'.message
      rw [← d.message_reline f, hd, d'.message_reline f]

/-! ## §4. Sessions. -/

namespace Session

/-- A session after a source that has succeeded: the source was accepted, and
all its statements were completed. -/
structure Follows (s : Session) (clock : Clock) (source : String) (fuel : Nat) (s' : Session) :
    Prop where
  accepts : s.Accepts source
  run : Config.run (s.setting clock source) fuel (s.start source)
    = ⟨.completed, [], s'.machine.state⟩
  distances : s'.machine.distances = (s.setting clock source).distances
  nextId : s'.nextId = (s.parsed source).nextId
  /-- The globals are old ones, or ones that the source declares. -/
  globals : ∀ name, s'.machine.state.globals.binds name → (s.chunkChart source).globals name

theorem Kept.follows {s : Session} (hk : s.Kept) {fuel : Nat} {clock : Clock} {source : String}
    (h : (s.run fuel clock source).2 = .succeeded) :
    s.Follows clock source fuel (s.run fuel clock source).1 := by
  have haccepts : s.Accepts source := by
    by_contra hrejected
    obtain ⟨-, failures, heq⟩ := run_rejected hrejected fuel clock
    rw [h] at heq
    cases heq
  have halong := hk.run haccepts clock fuel
  rw [run_eq haccepts fuel clock] at h ⊢
  dsimp only at halong h ⊢
  generalize hc : Config.run (s.setting clock source) fuel (s.start source) = c at halong h ⊢
  have hending : c.ending = .completed := by
    cases heq : c.ending with
    | completed => rfl
    | failed d =>
      rw [heq] at h
      cases h
    | unfinished =>
      rw [heq] at h
      cases h
  have hended : c.ending ≠ .unfinished := by
    rw [hending]
    exact nofun
  obtain ⟨w, hstate⟩ := halong.ended hended
  exact ⟨haccepts, hc.trans (halong.completed hending), rfl, rfl, hstate.scopes.2.1.globals⟩

section Newline

variable {s s' : Session} {first second : String} {fuel : Nat} {clock : Clock}

/-- The joint source is read as both sources. -/
theorem Follows.parsed (h : s.Follows clock first fuel s') (h' : s'.Accepts second) :
    ∃ f : Nat → Nat, s.parsed (first ++ "\n" ++ second)
      = ⟨(s.parsed first).statements ++ (s'.parsed second).statements.map (Stmt.reline f), [],
        (s'.parsed second).nextId⟩ := by
  have hparsed : (Source.program (Source.program s.nextId first).nextId second).failures = [] := by
    have hsecond := h'.parsed
    unfold Session.parsed at hsecond
    rw [h.nextId] at hsecond
    exact hsecond
  obtain ⟨f, hf⟩ := Source.program_newline s.nextId first second h.accepts.parsed hparsed
  refine ⟨f, ?_⟩
  unfold Session.parsed
  rw [h.nextId]
  exact hf

/-- The analysis of the joint source notes the distances of both sources. -/
theorem Follows.resolution (h : s.Follows clock first fuel s') (h' : s'.Accepts second) :
    s.resolution (first ++ "\n" ++ second)
      = ⟨(s.resolution first).distances ++ (s'.resolution second).distances, []⟩ := by
  obtain ⟨f, hf⟩ := h.parsed h'
  have hglobals : ∀ name ∈ s'.machine.globalNames, name ∈ s.machine.globalNames
      ∨ ∃ st ∈ (s.parsed first).statements, ∃ t, st.declared? = some t ∧ t.lexeme = name := by
    intro name hname
    have hbinds := h.globals name ((Bindings.mem_names _ name).mp hname)
    exact hbinds.imp_left (Bindings.mem_names _ name).mpr
  unfold Session.resolution
  rw [hf]
  exact Resolve.program_append f h.accepts.proper h.accepts.resolved h'.resolved hglobals

/-- **The joint source is accepted.** -/
theorem Follows.accepts_newline (h : s.Follows clock first fuel s') (h' : s'.Accepts second) :
    s.Accepts (first ++ "\n" ++ second) := by
  obtain ⟨f, hf⟩ := h.parsed h'
  refine ⟨?_, ?_⟩
  · rw [hf]
  · rw [h.resolution h']

/-- The joint source runs with the distances that the second source runs with. -/
theorem Follows.setting (h : s.Follows clock first fuel s') (h' : s'.Accepts second) :
    s.setting clock (first ++ "\n" ++ second) = s'.setting clock second := by
  have hdistances : s'.machine.distances
      = (s.machine.learn (s.resolution first).distances).distances := h.distances
  unfold Session.setting Machine.learn
  dsimp only
  rw [h.resolution h', hdistances]
  unfold Machine.learn
  dsimp only
  rw [List.foldl_append]

/-- **The joint source gets to the second source** in the state that the first
one left behind. -/
theorem Follows.run_newline (hk : s.Kept) (h : s.Follows clock first fuel s')
    (h' : s'.Accepts second) :
    ∃ (f : Nat → Nat) (k : Nat), Config.run (s'.setting clock second) k
        (s.start (first ++ "\n" ++ second))
      = ⟨.execAll ((s'.parsed second).statements.map (Stmt.reline f)), [], s'.machine.state⟩ := by
  obtain ⟨f, hf⟩ := h.parsed h'
  -- no occurrence of the first source has a number of the second one
  have hD : ∀ id < (s.chunkChart first).limit,
      (s'.setting clock second).distances[id]? = (s.setting clock first).distances[id]? := by
    intro id hid
    have hlt : id < s'.chart.limit := by
      show id < s'.nextId
      rw [h.nextId]
      exact hid
    have hextends := h'.extends.distance id hlt
    rw [← h.distances]
    exact hextends
  have hrun : Config.run (s'.setting clock second) fuel (s.start first)
      = ⟨.completed, [], s'.machine.state⟩ :=
    (run_congr hD fuel fun m => hk.run h.accepts clock m).trans h.run
  obtain ⟨k, hjoint⟩ := Config.run_execAll_append (s.parsed first).statements
    ((s'.parsed second).statements.map (Stmt.reline f)) hrun
  refine ⟨f, k, ?_⟩
  unfold Session.start
  rw [hf]
  exact hjoint

end Newline

/-- What was printed on the way from one session to another. -/
def Printed (s s' : Session) (bytes : ByteArray) : Prop :=
  s'.machine.state.sink.written = s.machine.state.sink.written ++ bytes

/-- An accepted source prints after all that was printed before. -/
theorem Accepts.printed {s : Session} {source : String} (h : s.Accepts source) (fuel : Nat)
    (clock : Clock) : ∃ bytes, s.Printed (s.run fuel clock source).1 bytes := by
  rw [run_eq h fuel clock]
  exact Config.run_extends (s.setting clock source) fuel (s.start source)

/-- **Running two sources as one.**  If a source succeeds in a session, and a
second one is accepted after it, then both with a new line between them are
accepted as one source.  It prints what the first and then the second one
print, succeeds if and only if the second one does, and fails with the same
message; it gets to the second source in `k` steps. -/
theorem run_append {s : Session} (hs : s.Reachable) {first second : String} {fuel : Nat}
    {clock : Clock} (hfirst : (s.run fuel clock first).2 = .succeeded)
    (hsecond : (s.run fuel clock first).1.Accepts second) :
    s.Accepts (first ++ "\n" ++ second) ∧ ∃ k, ∀ more, ∃ bytes bytes',
      s.Printed (s.run fuel clock first).1 bytes
      ∧ (s.run fuel clock first).1.Printed ((s.run fuel clock first).1.run more clock second).1 bytes'
      ∧ s.Printed (s.run (k + more) clock (first ++ "\n" ++ second)).1 (bytes ++ bytes')
      ∧ (s.run (k + more) clock (first ++ "\n" ++ second)).2.Alike
        ((s.run fuel clock first).1.run more clock second).2 := by
  have hk := kept_of_reachable hs
  have h := hk.follows hfirst
  obtain ⟨bytes, hbytes⟩ := h.accepts.printed fuel clock
  generalize (s.run fuel clock first).1 = s' at h hsecond hbytes ⊢
  have hjoint := h.accepts_newline hsecond
  obtain ⟨f, k, hrun⟩ := h.run_newline hk hsecond
  refine ⟨hjoint, k, ?_⟩
  intro more
  obtain ⟨bytes', hbytes'⟩ := hsecond.printed more clock
  -- without lines, what is left of the joint source is the second source
  have hstart : Config.reline (fun _ => 0)
        ⟨.execAll ((s'.parsed second).statements.map (Stmt.reline f)), [], s'.machine.state⟩
      = Config.reline (fun _ => 0) (s'.start second) := by
    have hmap : ((s'.parsed second).statements.map (Stmt.reline f)).map (Stmt.reline fun _ => 0)
        = (s'.parsed second).statements.map (Stmt.reline fun _ => 0) := by
      rw [List.map_map]
      exact List.map_congr_left fun st _ => Stmt.reline_reline f _ st
    unfold Config.reline Session.start Control.reline
    dsimp only
    rw [hmap]
  have hreline : (Config.run (s.setting clock (first ++ "\n" ++ second)) (k + more)
        (s.start (first ++ "\n" ++ second))).reline (fun _ => 0)
      = (Config.run (s'.setting clock second) more (s'.start second)).reline (fun _ => 0) := by
    rw [h.setting hsecond, Config.run_add, hrun, ← Config.run_reline, hstart, Config.run_reline]
  have hsink : (s.run (k + more) clock (first ++ "\n" ++ second)).1.machine.state.sink
      = (s'.run more clock second).1.machine.state.sink := by
    rw [run_eq hjoint, run_eq hsecond]
    exact congrArg (fun c => c.state.sink) hreline
  refine ⟨bytes, bytes', hbytes, hbytes', ?_, ?_⟩
  · unfold Printed at hbytes hbytes' ⊢
    rw [hsink, hbytes', hbytes, ByteArray.append_assoc]
  · rw [run_eq hjoint, run_eq hsecond]
    exact alike_of_reline hreline

/-- A function of the first source is called again by the second one, which
fails in the end. -/
theorem run_append_called :
    let s := Session.new none
    let first := "fun f() \x7b print true; \x7d f();"
    let second := "f(); print g;"
    (s.run 100 (.still 0) first).2 = .succeeded ∧ (s.run 100 (.still 0) first).1.Accepts second
      ∧ s.Accepts (first ++ "\n" ++ second) ∧ ∃ k, ∀ more, ∃ bytes bytes',
        s.Printed (s.run 100 (.still 0) first).1 bytes
        ∧ (s.run 100 (.still 0) first).1.Printed
          ((s.run 100 (.still 0) first).1.run more (.still 0) second).1 bytes'
        ∧ s.Printed (s.run (k + more) (.still 0) (first ++ "\n" ++ second)).1 (bytes ++ bytes')
        ∧ (s.run (k + more) (.still 0) (first ++ "\n" ++ second)).2.Alike
          ((s.run 100 (.still 0) first).1.run more (.still 0) second).2 := by
  intro s first second
  have hs : s.Reachable := .new none
  have hfirst : (s.run 100 (.still 0) first).2 = .succeeded := by
    have htrue : (match (s.run 100 (.still 0) first).2 with
        | .succeeded => true
        | _ => false) = true := by decide +kernel
    generalize (s.run 100 (.still 0) first).2 = outcome at htrue ⊢
    cases outcome with
    | succeeded => rfl
    | _ => cases htrue
  have hsecond : (s.run 100 (.still 0) first).1.Accepts second :=
    ⟨by decide +kernel, by decide +kernel⟩
  exact ⟨hfirst, hsecond, run_append hs hfirst hsecond⟩

end Session

end Lox
