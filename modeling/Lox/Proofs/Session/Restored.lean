/-
  Lox.Proofs.Session.Restored
  ───────────────────────────
  **EVALUATION RESTORES ITS CONTEXT.**

  Every frame that must undo something on the way out carries what it puts
  back, so the frames of a program alone tell which scope it will be in once
  all of them are left, and how many calls are in progress.  No step changes
  either of these (`Moves.within`), whatever the program, the distances and
  the state are.  So a program that has come to an end, with a value, a
  `return` or a failure, is back where it started.

  Main results:
    * `run_within`: the scope to come back to and the balance of calls are
      invariants of every run.
    * `context_restored`: executing or evaluating restores scope and depth,
      and a session starts each chunk at the top level.
-/
import Lox.Proofs.Machine.Moves
import Lox.Proofs.Session.Kept

namespace Lox

open Lockstep

/-! ## §1. What frames restore. -/

/-- Whether a frame ends a call. -/
def Frame.isCall : Frame → Bool
  | .call _ _ _ => true
  | _ => false

/-- The scope that a program in scope `n` is in once it has left all frames. -/
def home : List Frame → ScopeId → ScopeId
  | [], n => n
  | .leave m :: rest, _ => home rest m
  | .call m _ _ :: rest, _ => home rest m
  | _ :: rest, n => home rest n

/-- The number of calls in progress. -/
def calls (frames : List Frame) : Nat :=
  frames.countP Frame.isCall

theorem home_cons {frame : Frame} (h : ¬ Restores frame) (rest : List Frame) (n : ScopeId) :
    home (frame :: rest) n = home rest n := by
  cases frame with
  | leave | call => exact absurd trivial h
  | _ => rfl

theorem calls_cons {frame : Frame} (h : ¬ Restores frame) (rest : List Frame) :
    calls (frame :: rest) = calls rest := by
  unfold calls
  cases frame with
  | leave | call => exact absurd trivial h
  | _ => rfl

/-- Frames that restore nothing do not count. -/
theorem home_append {popped : List Frame} (h : ∀ f ∈ popped, ¬ Restores f) (rest : List Frame)
    (n : ScopeId) : home (popped ++ rest) n = home rest n := by
  induction popped with
  | nil => rfl
  | cons frame popped ih =>
    rw [List.cons_append, home_cons (h frame List.mem_cons_self)]
    exact ih fun f hf => h f (List.mem_cons_of_mem frame hf)

theorem calls_append {popped : List Frame} (h : ∀ f ∈ popped, ¬ Restores f) (rest : List Frame) :
    calls (popped ++ rest) = calls rest := by
  induction popped with
  | nil => rfl
  | cons frame popped ih =>
    rw [List.cons_append, calls_cons (h frame List.mem_cons_self)]
    exact ih fun f hf => h f (List.mem_cons_of_mem frame hf)

theorem calls_call (n : ScopeId) (f : Function) (made : Option ObjectId) (rest : List Frame) :
    calls (.call n f made :: rest) = calls rest + 1 := by
  unfold calls
  rw [List.countP_cons]
  rfl

/-! ## §2. No step changes the way back. -/

namespace Config

/-- A program comes back to scope `n`, and calls in progress are counted from
`d` on. -/
structure Within (n : ScopeId) (d : Nat) (c : Config) : Prop where
  home : home c.frames c.state.scope = n
  depth : c.state.depth = d + calls c.frames

variable {n : ScopeId} {d : Nat} {c c' : Config}

/-- What is not in a new scope or a new call comes back as before. -/
theorem Within.same (h : Within n d c) (hhome : Lox.home c'.frames c'.state.scope
      = Lox.home c.frames c.state.scope) (hcalls : calls c'.frames = calls c.frames)
    (hdepth : c'.state.depth = c.state.depth) : Within n d c' := by
  refine ⟨hhome.trans h.home, ?_⟩
  rw [hdepth, hcalls]
  exact h.depth

/-- **A move keeps the way back.** -/
theorem Moves.within {K : Trait} (hmove : Moves K c c') (h : Within n d c) : Within n d c' := by
  cases hmove with
  | on hpopped hadded hscope hdepth =>
    have hadded' : ∀ f ∈ _, ¬ Restores f := fun f hf => (hadded f hf).not_restores
    refine h.same ?_ ?_ hdepth
    · rw [home_append hadded', home_append hpopped, hscope]
    · rw [calls_append hadded', calls_append hpopped]
  | function => exact h.same rfl rfl rfl
  | bind hpopped =>
    exact h.same (home_append hpopped _ _).symm (calls_append hpopped _).symm rfl
  | @call control popped rest s f arguments hpopped =>
    -- the frame of the call keeps the scope of the caller
    refine ⟨?_, ?_⟩
    · have hhome := h.home
      rw [home_append hpopped] at hhome
      exact hhome
    · have hdepth := h.depth
      rw [calls_append hpopped] at hdepth
      show s.depth + 1 = d + calls (.call s.scope f none :: rest)
      rw [calls_call]
      change s.depth = _ at hdepth
      omega
  | @make control popped rest s k f arguments hpopped =>
    refine ⟨?_, ?_⟩
    · have hhome := h.home
      rw [home_append hpopped] at hhome
      exact hhome
    · have hdepth := h.depth
      rw [calls_append hpopped] at hdepth
      show s.depth + 1 = d + calls (.call s.scope _ _ :: rest)
      rw [calls_call]
      change s.depth = _ at hdepth
      omega
  | @plain name methods rest s =>
    obtain ⟨control', s', heq, -, hscope, hdepth⟩ := declaringClass_outcome
      (.exec (.class name none methods)) rest (s.define s.scope name.lexeme .nil) name none methods
    rw [heq]
    exact h.same (congrArg (home rest) hscope) rfl hdepth
  | parent => exact h.same rfl rfl rfl
  | @derived k name o methods rest s =>
    obtain ⟨control', s', heq, -, hscope, hdepth⟩ := declaringClass_outcome
      (.value (.class k)) rest s name (some k) methods
    rw [heq]
    exact h.same (congrArg (home rest) hscope) rfl hdepth
  | block => exact h.same rfl rfl rfl
  | leave => exact h.same rfl rfl rfl
  | @ended control control' m f made rest s =>
    -- the depth is positive here, since it counts this call
    refine ⟨h.home, ?_⟩
    have hdepth := h.depth
    rw [calls_call] at hdepth
    show s.depth - 1 = d + calls rest
    change s.depth = _ at hdepth
    omega

/-- **A run keeps the way back.** -/
theorem run_within (h : Within n d c) (g : Setting) (k : Nat) :
    Within n d (run g k c) :=
  run_keeps (fun c hc => (moves_any g c).within hc) h k

/-- At its end a program is in the scope it came from, and all calls have
ended. -/
theorem Within.halted (h : Within n d c) (hhalted : c.halted = true) :
    c.state.scope = n ∧ c.state.depth = d := by
  obtain ⟨control, frames, s⟩ := c
  obtain rfl : frames = [] := frames_of_halted hhalted
  exact ⟨h.home, h.depth⟩

theorem halted_of_ending {c : Config} (h : c.ending ≠ .unfinished) : c.halted = true := by
  obtain ⟨control, frames, s⟩ := c
  cases frames with
  | nil => cases control <;> first | rfl | exact absurd rfl h
  | cons => cases control <;> exact absurd rfl h

/-- What was started without frames is back where it started when it ends. -/
theorem run_restores {g : Setting} {control : Control} {s : State} {k : Nat}
    (h : (run g k ⟨control, [], s⟩).halted = true) :
    (run g k ⟨control, [], s⟩).state.scope = s.scope
      ∧ (run g k ⟨control, [], s⟩).state.depth = s.depth :=
  (run_within ⟨rfl, rfl⟩ g k).halted h

/-- Inside other frames a program comes to the same end as alone, and these
frames are still there. -/
theorem run_inside {g : Setting} {control : Control} {s : State} {k : Nat}
    (h : (run g k ⟨control, [], s⟩).halted = true) (below : List Frame) :
    ∃ m ≤ k, run g m ⟨control, below, s⟩
      = ⟨(run g k ⟨control, [], s⟩).control, below, (run g k ⟨control, [], s⟩).state⟩ := by
  obtain ⟨m, hm, hlast, honto⟩ := run_onto_of_halted h
  refine ⟨m, hm, (honto below).trans ?_⟩
  rw [hlast, onto, frames_of_halted h]
  rfl

end Config

/-! ## §3. Machines and sessions. -/

theorem Machine.interpret_restores {fuel : Nat} {clock : Clock} {m : Machine}
    {statements : List Stmt} (h : (m.interpret fuel clock statements).2 ≠ .unfinished) :
    (m.interpret fuel clock statements).1.state.scope = m.state.scope
      ∧ (m.interpret fuel clock statements).1.state.depth = m.state.depth
      ∧ (m.interpret fuel clock statements).1.distances = m.distances := by
  obtain ⟨hscope, hdepth⟩ := Config.run_restores (Config.halted_of_ending h)
  exact ⟨hscope, hdepth, rfl⟩

theorem Machine.evaluate_restores {fuel : Nat} {clock : Clock} {m : Machine} {e : Expr}
    (h : (m.evaluate fuel clock e).2 ≠ none) :
    (m.evaluate fuel clock e).1.state.scope = m.state.scope
      ∧ (m.evaluate fuel clock e).1.state.depth = m.state.depth
      ∧ (m.evaluate fuel clock e).1.distances = m.distances := by
  have hhalted : (Config.run ⟨m.distances, clock, some maxCallDepth⟩ fuel
      ⟨.eval e, [], m.state⟩).halted = true := by
    unfold Machine.evaluate Machine.evaluation at h
    dsimp only [Job.perform] at h
    generalize Config.run _ fuel _ = c at h
    obtain ⟨control, frames, s⟩ := c
    cases frames with
    | nil => cases control <;> first | rfl | exact absurd rfl h
    | cons => cases control <;> exact absurd rfl h
  obtain ⟨hscope, hdepth⟩ := Config.run_restores hhalted
  exact ⟨hscope, hdepth, rfl⟩

/-- Between two chunks a session is at the top level. -/
theorem Session.Reachable.context {s : Session} (h : s.Reachable) :
    s.machine.state.scope = globalScope ∧ s.machine.state.depth = 0 := by
  induction h with
  | new capacity => exact ⟨rfl, rfl⟩
  | @run s hs fuel clock source hended ih =>
    by_cases haccepts : s.Accepts source
    · rw [run_eq haccepts] at hended ⊢
      have hending : (Config.run (s.setting clock source) fuel (s.start source)).ending
          ≠ .unfinished := by
        intro heq
        dsimp only at hended
        rw [heq] at hended
        exact hended rfl
      obtain ⟨hscope, hdepth⟩ := Config.run_restores (Config.halted_of_ending hending)
      exact ⟨hscope.trans ih.1, hdepth.trans ih.2⟩
    · rw [(run_rejected haccepts fuel clock).1]
      exact ih

/-- **Evaluation restores its context on every path.**  Take any code, any
distances and any state.  Where execution or evaluation ends, with a value, a
`return` or a failure from any depth of blocks, calls and class declarations,
the scope and the number of calls in progress are what they were at the start;
and if it took place inside other frames, it comes to the same end with these
frames untouched.  So the interpreter's two entry points restore both and keep
the table of distances, and every chunk of a session starts in the global
scope, which is one and the same throughout, with no call in progress. -/
theorem context_restored :
    (∀ (g : Setting) (control : Control) (s : State) (k : Nat),
      let c := Config.run g k ⟨control, [], s⟩
      c.halted = true → c.state.scope = s.scope ∧ c.state.depth = s.depth
        ∧ ∀ below : List Frame, ∃ m ≤ k,
          Config.run g m ⟨control, below, s⟩ = ⟨c.control, below, c.state⟩)
    ∧ (∀ (fuel : Nat) (clock : Clock) (m : Machine) (statements : List Stmt),
      let after := m.interpret fuel clock statements
      after.2 ≠ .unfinished → after.1.state.scope = m.state.scope
        ∧ after.1.state.depth = m.state.depth ∧ after.1.distances = m.distances)
    ∧ (∀ (fuel : Nat) (clock : Clock) (m : Machine) (e : Expr),
      let after := m.evaluate fuel clock e
      after.2 ≠ none → after.1.state.scope = m.state.scope
        ∧ after.1.state.depth = m.state.depth ∧ after.1.distances = m.distances)
    ∧ ∀ s : Session, s.Reachable →
      s.machine.state.scope = globalScope ∧ s.machine.state.depth = 0 := by
  refine ⟨?_, ?_, ?_, ?_⟩
  · intro g control s k c hhalted
    obtain ⟨hscope, hdepth⟩ := Config.run_restores hhalted
    exact ⟨hscope, hdepth, Config.run_inside hhalted⟩
  · intro fuel clock m statements after hended
    exact Machine.interpret_restores hended
  · intro fuel clock m e after hended
    exact Machine.evaluate_restores hended
  · intro s hs
    exact hs.context

/-- A failure in a block of a function body leaves a block and a call. -/
theorem context_restored_failing :
    let chunk := "fun f() \x7b \x7b return -nil; \x7d \x7d \x7b f(); \x7d"
    let s := ((Session.new none).run 60 (.still 0) chunk).1
    let call : Stmt := .return ⟨.kwReturn, "return", 1⟩ none
    let c := Config.run ⟨∅, .still 0, none⟩ 5 ⟨.exec (.block [call]), [], State.initial none⟩
    s.Reachable ∧ c.halted = true ∧ c.state.scope = globalScope
      ∧ s.machine.state.scope = globalScope ∧ s.machine.state.depth = 0 := by
  intro chunk s call c
  have hs : s.Reachable :=
    .run (.new none) 60 (.still 0) _ (Outcome.ne_unfinished (by decide +kernel))
  have hhalted : c.halted = true := by decide +kernel
  obtain ⟨hrun, -, -, hsession⟩ := context_restored
  obtain ⟨hscope, -, -⟩ := hrun _ _ _ 5 hhalted
  obtain ⟨hglobal, hdepth⟩ := hsession s hs
  exact ⟨hs, hhalted, hscope, hglobal, hdepth⟩

end Lox
