/-
  Lox.Proofs.Machine.Calls
  ────────────────────────
  **HOW A CALL IS OVER.**

  A call that passes its checks is refused, yields a value at once, or leaves a
  frame on top of those that wait for its value.  That frame stays where it is
  as long as the call is in progress (`InProgress.suffix`), and the call is over
  with the step that removes it: its body has failed, or the frame ends the
  call with what the body came to (`Over.last`).

  Main results:
    * `inProgress_or_over`: a call is in progress or is over.
    * `exists_over`: it is over once fewer frames are left.
    * `Over.last`: how a call with a body is over.
-/
import Lox.Proofs.Session.Depth

namespace Lox

namespace Config

/-! ## §1. The end of a call. -/

/-- **The call made at point `n` is over at point `m`**: what waited for its
value goes on, and the call was in progress up to there. -/
structure Over (g : Setting) (c : Config) (n m : Nat) : Prop where
  later : n < m
  frames : (run g m c).frames = (run g n c).frames.tail
  since : ∀ i, n < i → i < m → InProgress g c n i

/-- A call fails: the limit on calls refuses it, or its body fails. -/
inductive CallFails (g : Setting) (c : Config) (n : Nat) (paren : Token) : Nat → Prop
  | refused (h : (run g (n + 1) c).control = .raising (.runtime paren.line .stackOverflow)) :
      CallFails g c n paren (n + 1)
  | body {m d} (hlater : n < m) (hbody : (run g m c).control = .raising d)
      (h : (run g (m + 1) c).control = .raising d) : CallFails g c n paren (m + 1)

variable {g : Setting} {c : Config} {caller : ScopeId} {f : Function} {made : Option ObjectId}
  {rest : List Frame}

theorem Around.suffix {frames : List Frame} (h : Around frames c) : frames <:+ c.frames := by
  obtain ⟨added, -, heq⟩ := h
  rw [heq]
  exact List.suffix_append added frames

/-- **A frame that ends a call** stays while there is something to do inside;
then a failure passes it, or it ends the call. -/
theorem step_call (h : c.frames = .call caller f made :: rest) (g : Setting) :
    .call caller f made :: rest <:+ (c.step g).frames
      ∨ (c.step g).frames = rest
        ∧ ((∃ d, c.control = .raising d ∧ (c.step g).control = .raising d)
          ∨ ∃ v, c.step g = endingCall ⟨c.control, rest, c.state⟩ caller f made v) := by
  obtain ⟨control, frames, s⟩ := c
  dsimp only at h
  subst h
  have hended (v : Value) : (endingCall ⟨control, rest, s⟩ caller f made v).frames = rest :=
    frames_endingCall _ caller f made v
  cases control with
  | eval e => exact .inl (around_eval g ⟨.eval e, _, s⟩ e).suffix
  | exec st => exact .inl (around_exec ⟨.exec st, _, s⟩ st).suffix
  | execAll body => exact .inl (around_execAll ⟨.execAll body, _, s⟩ body).suffix
  | value | completed => exact .inr ⟨hended .nil, .inr ⟨.nil, rfl⟩⟩
  | returning v => exact .inr ⟨hended v, .inr ⟨v, rfl⟩⟩
  | raising d => exact .inr ⟨rfl, .inl ⟨d, rfl, rfl⟩⟩

theorem not_suffix_tail (frame : Frame) (frames : List Frame) : ¬ frame :: frames <:+ frames := by
  intro h
  have hlength := h.length_le
  rw [List.length_cons] at hlength
  omega

/-- What lies on some frames lies on them still after a step, unless it is what
the step takes. -/
theorem suffix_step_or {call : Frame} {below : List Frame} (h : call :: below <:+ c.frames)
    (g : Setting) : call :: below <:+ (c.step g).frames ∨ c.frames = call :: below := by
  generalize hframes : c.frames = frames at h
  cases frames with
  | nil => exact absurd (List.suffix_nil.mp h) (List.cons_ne_nil _ _)
  | cons frame frames =>
    rcases List.suffix_cons_iff.mp h with heq | hdeeper
    · exact .inr heq.symm
    · have htail := tail_suffix_step g c
      rw [hframes] at htail
      exact .inl (hdeeper.trans htail)

/-! ## §2. In progress, or over. -/

theorem InProgress.mono {n i m : Nat} (h : InProgress g c n m) (hn : n < i) (hi : i ≤ m) :
    InProgress g c n i :=
  ⟨hn, h.made, fun j hnj hj => h.since j hnj (Nat.le_trans hj hi)⟩

theorem InProgress.succ {n m : Nat} (h : InProgress g c n m) {call : Frame}
    (hcall : call.isCall = true)
    (hsuffix : call :: (run g n c).frames.tail <:+ (run g (m + 1) c).frames) :
    InProgress g c n (m + 1) := by
  refine ⟨Nat.lt_succ_of_lt h.earlier, h.made, fun i hni hi => ?_⟩
  by_cases him : i ≤ m
  · exact h.since i hni him
  · obtain rfl : i = m + 1 := by omega
    exact ⟨call, hcall, hsuffix⟩

/-- **A call is in progress or is over**, at all points after it was made. -/
theorem inProgress_or_over {n : Nat} {callable : Callable} {paren : Token}
    {arguments : Array Value} (hcalls : (run g n c).Calls callable paren arguments) {k : Nat}
    (hk : n < k) : InProgress g c n k ∨ ∃ m ≤ k, Over g c n m := by
  -- by the number of steps since the call was made
  induction k, hk using Nat.le_induction with
  | base =>
    have hover (hframes : (run g (n + 1) c).frames = (run g n c).frames.tail) :
        ∃ m ≤ n + 1, Over g c n m := by
      refine ⟨n + 1, Nat.le_refl _, Nat.lt_succ_self n, hframes, fun i hni hi => ?_⟩
      omega
    have hstep := step_calls hcalls g
    rw [← run_last] at hstep
    split at hstep
    · exact .inr (hover (congrArg Config.frames hstep))
    · rcases frames_beginning g ⟨(run g n c).control, (run g n c).frames.tail, (run g n c).state⟩
        arguments callable with hframes | ⟨caller, f, made, hframes⟩
      · exact .inr (hover ((congrArg Config.frames hstep).trans hframes))
      · refine .inl ⟨Nat.lt_succ_self n, ⟨callable, paren, arguments, hcalls⟩, fun i hni hi => ?_⟩
        obtain rfl : i = n + 1 := by omega
        refine ⟨.call caller f made, rfl, ?_⟩
        rw [hstep, hframes]
  | succ k hk ih =>
    rcases ih with hprogress | ⟨m, hm, hover⟩
    · obtain ⟨call, hcall, hsuffix⟩ := hprogress.since k hk (Nat.le_refl k)
      have hnext := suffix_step_or hsuffix g
      rw [← run_last] at hnext
      rcases hnext with hstays | hinnermost
      · exact .inl (hprogress.succ hcall hstays)
      · -- only the frame of the call itself is left
        cases call with
        | call caller f made =>
          have hstep := step_call hinnermost g
          rw [← run_last] at hstep
          rcases hstep with hstays | ⟨hgone, -⟩
          · exact .inl (hprogress.succ hcall hstays)
          · exact .inr ⟨k + 1, Nat.le_refl _, Nat.lt_succ_of_lt hk, hgone,
              fun i hni hi => hprogress.mono hni (Nat.le_of_lt_succ hi)⟩
        | _ => cases hcall
    · exact .inr ⟨m, Nat.le_succ_of_le hm, hover⟩

/-- A call is over once fewer frames are left than waited for it. -/
theorem exists_over {n : Nat} {callable : Callable} {paren : Token} {arguments : Array Value}
    (hcalls : (run g n c).Calls callable paren arguments) {k : Nat} (hk : n < k)
    (hlength : (run g k c).frames.length < (run g n c).frames.length) :
    ∃ m ≤ k, Over g c n m := by
  rcases inProgress_or_over hcalls hk with hprogress | hover
  · obtain ⟨call, -, hsuffix⟩ := hprogress.since k hk (Nat.le_refl k)
    have hle := hsuffix.length_le
    rw [List.length_cons, List.length_tail] at hle
    omega
  · exact hover

/-! ## §3. The way out. -/

/-- **While a call is in progress** it is the same frame that will end it. -/
theorem InProgress.suffix {n m : Nat} (h : InProgress g c n m)
    (hmade : (run g (n + 1) c).frames = .call caller f made :: (run g n c).frames.tail) :
    .call caller f made :: (run g n c).frames.tail <:+ (run g m c).frames := by
  have hnm : n < m := h.earlier
  induction m, hnm using Nat.le_induction with
  | base =>
    rw [hmade]
  | succ k hk ih =>
    have hbefore := ih (h.mono hk (Nat.le_succ k))
    have hnext := suffix_step_or hbefore g
    rw [← run_last] at hnext
    rcases hnext with hstays | hinnermost
    · exact hstays
    · have hstep := step_call hinnermost g
      rw [← run_last] at hstep
      rcases hstep with hstays | ⟨hgone, -⟩
      · exact hstays
      · -- a call in progress has some frame on top of those that wait for it
        obtain ⟨call, -, hsuffix⟩ := h.since (k + 1) (Nat.lt_succ_of_lt hk) (Nat.le_refl _)
        rw [hgone] at hsuffix
        exact absurd hsuffix (not_suffix_tail _ _)

/-- A call that leaves no frame is over at once. -/
theorem Over.at_once {n m : Nat} (h : Over g c n m)
    (hframes : (run g (n + 1) c).frames = (run g n c).frames.tail) : m = n + 1 := by
  by_contra hne
  have hlater := h.later
  obtain ⟨call, -, hsuffix⟩ :=
    (h.since (n + 1) (Nat.lt_succ_self n) (by omega)).since (n + 1) (Nat.lt_succ_self n)
      (Nat.le_refl _)
  rw [hframes] at hsuffix
  exact not_suffix_tail _ _ hsuffix

/-- A call that is over was refused, or it has begun. -/
theorem Over.begun {n m : Nat} (h : Over g c n m) {callable : Callable} {paren : Token}
    {arguments : Array Value} (hcalls : (run g n c).Calls callable paren arguments) :
    CallFails g c n paren m ∨ run g (n + 1) c = beginning g
      ⟨(run g n c).control, (run g n c).frames.tail, (run g n c).state⟩ arguments callable := by
  have hstep := step_calls hcalls g
  rw [← run_last] at hstep
  split at hstep
  · obtain rfl := h.at_once (congrArg Config.frames hstep)
    exact .inl (.refused (congrArg Config.control hstep))
  · exact .inr hstep

/-- **The last step of a call with a body.**  The frame that it left is the
innermost one; its body has failed, or the call ends with what the body came
to. -/
theorem Over.last {n m : Nat} (h : Over g c n m)
    (hmade : (run g (n + 1) c).frames = .call caller f made :: (run g n c).frames.tail) :
    ∃ k, m = k + 1 ∧ n < k
      ∧ ((∃ d, (run g k c).control = .raising d ∧ (run g (k + 1) c).control = .raising d)
        ∨ ∃ v, run g (k + 1) c = endingCall ⟨(run g k c).control, (run g n c).frames.tail,
          (run g k c).state⟩ caller f made v) := by
  have hlater := h.later
  have hgone := h.frames
  have hne : m ≠ n + 1 := by
    rintro rfl
    rw [hmade] at hgone
    exact List.cons_ne_self _ _ hgone
  obtain ⟨k, rfl⟩ : ∃ k, m = k + 1 := ⟨m - 1, by omega⟩
  have hk : n < k := by omega
  refine ⟨k, rfl, hk, ?_⟩
  have hsuffix := (h.since k hk (Nat.lt_succ_self k)).suffix hmade
  -- it is the last step, so nothing lies on top of the frame
  have hinnermost : (run g k c).frames = .call caller f made :: (run g n c).frames.tail := by
    have hnext := suffix_step_or hsuffix g
    rw [← run_last, hgone] at hnext
    rcases hnext with hstays | hinnermost
    · exact absurd hstays (not_suffix_tail _ _)
    · exact hinnermost
  have hstep := step_call hinnermost g
  rw [← run_last, hgone] at hstep
  rcases hstep with hstays | ⟨-, hended⟩
  · exact absurd hstays (not_suffix_tail _ _)
  · exact hended

end Config

end Lox
