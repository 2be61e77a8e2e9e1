/-
  Lox.Proofs.Session.Depth
  ────────────────────────
  **THE LIMIT ON CALLS.**

  The depth of a program counts the calls in progress: each of them was made
  at a step of its own, and has kept a frame on top of those that wait for its
  value (`calls_eq_inProgress`).  The limit is looked at in one place, so a
  program runs as it would without a limit until a call comes next that passes
  its checks and finds the limit reached (`run_unlimited`).  That call fails
  before anything of it has begun, and a failure only drops frames.

  Main result: `Session.depth_limit`.
-/
import Lox.Proofs.Machine.Frames
import Lox.Proofs.Session.Returns
import Mathlib.Data.Set.Card

namespace Lox

open Lockstep

/-! ## §1. Calls in progress. -/

namespace Config

/-- **The call made at point `m` of a run is in progress at point `n`**: since
then there has been a frame that ends it on top of the frames that wait for its
value. -/
structure InProgress (g : Setting) (c : Config) (m n : Nat) : Prop where
  earlier : m < n
  made : ∃ callable paren arguments, (run g m c).Calls callable paren arguments
  since : ∀ i, m < i → i ≤ n →
    ∃ call, call.isCall = true ∧ call :: (run g m c).frames.tail <:+ (run g i c).frames

/-- What waits for the value of a call, for each call in some frames. -/
def waiting (frames : List Frame) : Set (List Frame) :=
  { below | ∃ call, call.isCall = true ∧ call :: below <:+ frames }

theorem waiting_nil : waiting [] = ∅ := by
  refine Set.eq_empty_of_forall_notMem ?_
  rintro below ⟨call, -, hsuffix⟩
  exact List.cons_ne_nil _ _ (List.suffix_nil.mp hsuffix)

theorem waiting_cons {frame : Frame} (h : frame.isCall = false) (frames : List Frame) :
    waiting (frame :: frames) = waiting frames := by
  ext below
  refine ⟨?_, fun ⟨call, hcall, hsuffix⟩ => ⟨call, hcall, hsuffix.trans (List.suffix_cons _ _)⟩⟩
  rintro ⟨call, hcall, hsuffix⟩
  rcases List.suffix_cons_iff.mp hsuffix with heq | hsuffix
  · cases heq
    rw [h] at hcall
    cases hcall
  · exact ⟨call, hcall, hsuffix⟩

theorem waiting_call {frame : Frame} (h : frame.isCall = true) (frames : List Frame) :
    waiting (frame :: frames) = insert frames (waiting frames) := by
  ext below
  constructor
  · rintro ⟨call, hcall, hsuffix⟩
    rcases List.suffix_cons_iff.mp hsuffix with heq | hsuffix
    · cases heq
      exact .inl rfl
    · exact .inr ⟨call, hcall, hsuffix⟩
  · rintro (rfl | ⟨call, hcall, hsuffix⟩)
    · exact ⟨frame, h, List.suffix_rfl⟩
    · exact ⟨call, hcall, hsuffix.trans (List.suffix_cons _ _)⟩

theorem notMem_waiting_self (frames : List Frame) : frames ∉ waiting frames := by
  rintro ⟨call, -, hsuffix⟩
  have hlength := hsuffix.length_le
  rw [List.length_cons] at hlength
  omega

/-- Different calls have different frames that wait for them. -/
theorem calls_eq_encard (frames : List Frame) :
    (waiting frames).encard = calls frames := by
  induction frames with
  | nil =>
    rw [waiting_nil, Set.encard_empty]
    rfl
  | cons frame frames ih =>
    unfold calls at ih ⊢
    rw [List.countP_cons]
    cases hcall : frame.isCall with
    | false =>
      rw [waiting_cons hcall, ih]
      rfl
    | true =>
      rw [waiting_call hcall, Set.encard_insert_of_notMem (notMem_waiting_self frames), ih]
      rfl

variable {g : Setting} {c : Config}

/-- A call in progress was in progress before a step, or the step made it. -/
theorem call_or_made {call : Frame} {below : List Frame} (hcall : call.isCall = true)
    (h : call :: below <:+ (c.step g).frames) :
    call :: below <:+ c.frames
      ∨ (∃ callable paren arguments, c.Calls callable paren arguments) ∧ c.frames.tail = below := by
  rcases step_frames g c with ⟨frames, hframes, added, hadded, heq⟩
    | ⟨callable, paren, arguments, hcalls, -, n, f, made, heq⟩
  · rw [heq] at h
    have hsuffix := suffix_of_suffix_append added hcall hadded h
    rcases hframes with rfl | rfl
    · exact .inl hsuffix
    · exact .inl (hsuffix.trans (List.tail_suffix _))
  · rw [heq] at h
    rcases List.suffix_cons_iff.mp h with hnew | hold
    · cases hnew
      exact .inr ⟨⟨callable, paren, arguments, hcalls⟩, rfl⟩
    · exact .inl (hold.trans (List.tail_suffix _))

/-- **Every call in progress was made at some point.** -/
theorem exists_inProgress (hc : c.frames = []) {n : Nat} {call : Frame} {below : List Frame}
    (hcall : call.isCall = true) (h : call :: below <:+ (run g n c).frames) :
    ∃ m, InProgress g c m n ∧ (run g m c).frames.tail = below := by
  induction n with
  | zero =>
    change _ <:+ c.frames at h
    rw [hc] at h
    exact absurd (List.suffix_nil.mp h) (List.cons_ne_nil _ _)
  | succ n ih =>
    -- at the last point it is in progress by assumption
    have hlast : ∀ m i, m < i → i ≤ n + 1 → ¬ i ≤ n →
        ∃ call, call.isCall = true ∧ call :: below <:+ (run g i c).frames := by
      intro m i _ hi hlate
      obtain rfl : i = n + 1 := by omega
      exact ⟨call, hcall, h⟩
    rw [run_last] at h
    rcases call_or_made hcall h with hbefore | ⟨hmade, rfl⟩
    · obtain ⟨m, hm, rfl⟩ := ih hbefore
      refine ⟨m, ⟨Nat.lt_succ_of_lt hm.earlier, hm.made, ?_⟩, rfl⟩
      intro i hmi hi
      by_cases hin : i ≤ n
      · exact hm.since i hmi hin
      · exact hlast m i hmi hi hin
    · refine ⟨n, ⟨Nat.lt_succ_self n, hmade, ?_⟩, rfl⟩
      intro i hni hi
      exact hlast n i hni hi (Nat.not_le_of_lt hni)

/-- No two calls in progress leave the same frames waiting: what a call has on
top of them when the next call is made is not the callee or an argument of
that one. -/
theorem InProgress.not_lt {m m' n : Nat} (h : InProgress g c m n) (h' : InProgress g c m' n)
    (htail : (run g m c).frames.tail = (run g m' c).frames.tail) : ¬ m < m' := by
  intro hlt
  obtain ⟨call, hcall, hsuffix⟩ := h.since m' hlt (Nat.le_of_lt h'.earlier)
  obtain ⟨callable, paren, arguments, hcalls⟩ := h'.made
  obtain ⟨frame, rest, hframes, hframe⟩ := frames_pending hcalls.ne_none
  rw [htail, hframes] at hsuffix
  have heq := hsuffix.eq_of_length rfl
  cases heq
  rw [hframe] at hcall
  cases hcall

/-- **The frames of calls stand for the calls in progress.** -/
theorem calls_eq_inProgress (hc : c.frames = []) (n : Nat) :
    calls (run g n c).frames = { m | InProgress g c m n }.ncard := by
  -- a call is known by the frames that wait for its value
  have hbij : { m | InProgress g c m n }.ncard = (waiting (run g n c).frames).ncard := by
    refine Set.ncard_congr (fun m _ => (run g m c).frames.tail) ?_ ?_ ?_
    · intro m hm
      exact hm.since n hm.earlier (Nat.le_refl n)
    · intro m m' hm hm' htail
      have hle := InProgress.not_lt hm hm' htail
      have hge := InProgress.not_lt hm' hm htail.symm
      omega
    · rintro below ⟨call, hcall, hsuffix⟩
      obtain ⟨m, hm, htail⟩ := exists_inProgress hc hcall hsuffix
      exact ⟨m, hm, htail⟩
  rw [hbij, Set.ncard, calls_eq_encard]
  rfl

/-- **The depth of a program that starts at depth 0 is the number of calls in
progress.** -/
theorem depth_eq_inProgress (hc : c.frames = []) (hdepth : c.state.depth = 0) (n : Nat) :
    (run g n c).state.depth = { m | InProgress g c m n }.ncard := by
  have hstart : Within c.state.scope 0 c := by
    refine ⟨?_, ?_⟩
    · rw [hc]
      rfl
    · rw [hc, hdepth]
      rfl
  rw [(run_within hstart g n).depth, Nat.zero_add, calls_eq_inProgress hc]

/-! ## §2. The limit. -/

theorem calls_around {frames : List Frame} (h : Around frames c) : calls c.frames = calls frames := by
  obtain ⟨added, hadded, heq⟩ := h
  unfold calls
  rw [heq, List.countP_append, List.countP_eq_zero.mpr, Nat.zero_add]
  intro f hf
  rw [hadded f hf]
  exact Bool.false_ne_true

/-- **No step goes deeper than the limit.** -/
theorem calls_le_limit {limit : Nat} (hlimit : g.callLimit = some limit) {d : ScopeId}
    (h : Within d 0 c ∧ calls c.frames ≤ limit) :
    Within d 0 (c.step g) ∧ calls (c.step g).frames ≤ limit := by
  obtain ⟨hwithin, hcalls⟩ := h
  refine ⟨(moves_any g c).within hwithin, ?_⟩
  have htail : calls c.frames.tail ≤ calls c.frames := (List.tail_sublist _).countP_le
  rcases step_frames g c with ⟨frames, hframes, haround⟩
    | ⟨callable, paren, arguments, -, hroom, n, f, made, heq⟩
  · rw [calls_around haround]
    rcases hframes with rfl | rfl
    · exact hcalls
    · exact Nat.le_trans htail hcalls
  · -- the call was made below the limit
    have hlt : c.state.depth < limit := by
      unfold Setting.exhausted at hroom
      rw [hlimit] at hroom
      exact Nat.lt_of_not_le (of_decide_eq_false hroom)
    rw [hwithin.depth] at hlt
    rw [heq, calls_call]
    omega

/-- **Up to the first call that finds the limit reached** a program runs as it
would without a limit. -/
theorem run_unlimited {n : Nat} (h : ∀ k < n, ∀ callable paren arguments,
      (run g.unlimited k c).Calls callable paren arguments →
        g.exhausted (run g.unlimited k c).state.depth = false) :
    run g n c = run g.unlimited n c := by
  induction n with
  | zero => rfl
  | succ n ih =>
    rw [run_last, run_last, ih fun k hk => h k (Nat.lt_succ_of_lt hk)]
    exact step_unlimited (h n (Nat.lt_succ_self n))

/-- **The first call that finds the limit reached** fails before anything of it
has begun. -/
theorem run_refused {n : Nat} {callable : Callable} {paren : Token} {arguments : Array Value}
    (hcalls : (run g.unlimited n c).Calls callable paren arguments)
    (hfull : g.exhausted (run g.unlimited n c).state.depth = true) :
    ∃ first ≤ n, (∀ k < first, ∀ callable paren arguments,
        (run g.unlimited k c).Calls callable paren arguments →
          g.exhausted (run g.unlimited k c).state.depth = false)
      ∧ (∀ k ≤ first, run g k c = run g.unlimited k c)
      ∧ ∃ callable paren arguments, (run g first c).Calls callable paren arguments
        ∧ g.exhausted (run g first c).state.depth = true
        ∧ run g (first + 1) c = ⟨.raising (.runtime paren.line .stackOverflow),
          (run g first c).frames.tail, (run g first c).state⟩ := by
  have hsome : ∃ k callable paren arguments, (run g.unlimited k c).Calls callable paren arguments
      ∧ g.exhausted (run g.unlimited k c).state.depth = true :=
    ⟨n, callable, paren, arguments, hcalls, hfull⟩
  classical
  obtain ⟨callable, paren, arguments, hfirst, hreached⟩ := Nat.find_spec hsome
  have hbefore : ∀ k < Nat.find hsome, ∀ callable paren arguments,
      (run g.unlimited k c).Calls callable paren arguments →
        g.exhausted (run g.unlimited k c).state.depth = false := by
    intro k hk callable paren arguments hcalls
    rw [Bool.eq_false_iff]
    exact fun hfull => Nat.find_min hsome hk ⟨callable, paren, arguments, hcalls, hfull⟩
  have hsame : ∀ k ≤ Nat.find hsome, run g k c = run g.unlimited k c := fun k hk =>
    run_unlimited fun i hi => hbefore i (Nat.lt_of_lt_of_le hi hk)
  have hle : Nat.find hsome ≤ n := Nat.find_min' hsome ⟨_, _, _, hcalls, hfull⟩
  rw [← hsame _ (Nat.le_refl _)] at hfirst hreached
  refine ⟨Nat.find hsome, hle, hbefore, hsame, callable, paren, arguments, hfirst, hreached, ?_⟩
  rw [run_last, step_calls hfirst, if_pos hreached]

/-! ## §3. Programs that reach it. -/

/-- The name that some statements call, if they do nothing but call a variable
without arguments. -/
def onlyCall? : List Stmt → Option String
  | [.expression (.call (.variable o) _ [])] => some o.name.lexeme
  | _ => none

/-- Whether a program is about to do nothing but call a function without
parameters, whose body does nothing but call the same one. -/
def runsAway (c : Config) : Bool :=
  match c.control with
  | .execAll body =>
    match onlyCall? body with
    | none => false
    | some name =>
      match c.state.globals.get? name with
      | some (.function f) => f.decl.params.isEmpty && onlyCall? f.decl.body == some name
      | _ => false
  | _ => false

theorem onlyCall?_eq_some {body : List Stmt} {name : String} (h : onlyCall? body = some name) :
    ∃ o paren, body = [.expression (.call (.variable o) paren [])] ∧ o.name.lexeme = name := by
  unfold onlyCall? at h
  split at h
  · next o paren => exact ⟨o, paren, rfl, Option.some.inj h⟩
  · cases h

theorem runsAway_inv (h : runsAway c = true) :
    ∃ body name f, c.control = .execAll body ∧ onlyCall? body = some name
      ∧ c.state.globals.get? name = some (.function f) ∧ f.decl.params = []
      ∧ onlyCall? f.decl.body = some name := by
  unfold runsAway at h
  split at h
  · next body hcontrol =>
    split at h
    · cases h
    · next name hname =>
      split at h
      · next f hf =>
        obtain ⟨hparams, hbody⟩ := Bool.and_eq_true_iff.mp h
        exact ⟨body, name, f, hcontrol, hname, hf, List.isEmpty_iff.mp hparams, eq_of_beq hbody⟩
      · cases h
  · cases h

theorem runsAway_intro {body : List Stmt} {frames : List Frame} {s : State} {name : String}
    {f : Function} (hname : onlyCall? body = some name)
    (hf : s.globals.get? name = some (.function f)) (hparams : f.decl.params = [])
    (hbody : onlyCall? f.decl.body = some name) :
    runsAway ⟨.execAll body, frames, s⟩ = true := by
  unfold runsAway
  simp only [hname, hf, hparams, hbody, List.isEmpty_nil, beq_self_eq_true, Bool.and_self]

/-- The value of a global variable that nothing hides. -/
theorem lookUp_global {s : State} {o : Occurrence} {v : Value} (ho : g.distances[o.id]? = none)
    (hv : s.globals.get? o.name.lexeme = some v) : lookUp g s o = .ok v := by
  have hbinds : (s.scopes.bindings globalScope).binds o.name.lexeme := by
    unfold Bindings.binds
    rw [show (s.scopes.bindings globalScope).get? o.name.lexeme = some v from hv]
    rfl
  unfold lookUp Forest.get
  rw [ho]
  dsimp only
  rw [Forest.holder?_of_binds hbinds]
  unfold State.globals at hv
  rw [Option.bind_some, hv]

/-- Where all variables are global, such a program makes a call, and is again such
a program one call deeper. -/
theorem runsAway_deeper (hg : ∀ id : Nat, g.distances[id]? = none) (h : runsAway c = true) :
    (∃ callable paren arguments, (run g.unlimited 4 c).Calls callable paren arguments)
      ∧ (run g.unlimited 4 c).state.depth = c.state.depth
      ∧ runsAway (run g.unlimited 5 c) = true
      ∧ (run g.unlimited 5 c).state.depth = c.state.depth + 1 := by
  obtain ⟨body, name, f, hcontrol, hname, hf, hparams, hbody⟩ := runsAway_inv h
  obtain ⟨o, paren, rfl, rfl⟩ := onlyCall?_eq_some hname
  obtain ⟨control, frames, s⟩ := c
  dsimp only at hcontrol hf
  subst hcontrol
  have hcallee : run g.unlimited 4 ⟨.execAll [.expression (.call (.variable o) paren [])], frames, s⟩
      = ⟨.value (.function f), .callee paren [] :: .discard :: .sequence [] :: frames, s⟩ := by
    rw [run_last]
    show settling ⟨_, .callee paren [] :: .discard :: .sequence [] :: frames, s⟩ o.name.line
      (lookUp g.unlimited s o) = _
    rw [lookUp_global (g := g.unlimited) (hg o.id) hf]
    rfl
  have hcalls : (run g.unlimited 4 ⟨.execAll [.expression (.call (.variable o) paren [])], frames,
      s⟩).Calls (.function f) paren #[] := by
    rw [hcallee]
    refine ⟨⟨.function f, rfl, rfl⟩, ?_⟩
    show 0 = f.decl.params.length
    rw [hparams]
    rfl
  refine ⟨⟨_, _, _, hcalls⟩, congrArg (fun c => c.state.depth) hcallee, ?_⟩
  rw [run_last, step_calls hcalls, hcallee]
  refine ⟨?_, rfl⟩
  exact runsAway_intro hbody (Forest.get?_child_of_get? _ _ _ hf) hparams hbody

/-- **Without a limit it reaches every depth.** -/
theorem runsAway_reaches (hg : ∀ id : Nat, g.distances[id]? = none) {d : Nat}
    (h : runsAway c = true) (hd : c.state.depth ≤ d) :
    ∃ n callable paren arguments, (run g.unlimited n c).Calls callable paren arguments
      ∧ (run g.unlimited n c).state.depth = d := by
  obtain ⟨k, rfl⟩ := Nat.exists_eq_add_of_le hd
  clear hd
  induction k generalizing c with
  | zero =>
    obtain ⟨⟨callable, paren, arguments, hcalls⟩, hdepth, -⟩ := runsAway_deeper hg h
    exact ⟨4, callable, paren, arguments, hcalls, hdepth⟩
  | succ k ih =>
    obtain ⟨-, -, hlater, hdepth⟩ := runsAway_deeper hg h
    obtain ⟨n, callable, paren, arguments, hcalls, hdepth'⟩ := ih hlater
    rw [← run_add] at hcalls hdepth'
    refine ⟨5 + n, callable, paren, arguments, hcalls, hdepth'.trans ?_⟩
    omega

end Config

/-! ## §4. Accepted chunks. -/

namespace Session

/-- **The limit on calls is exact, and nothing else shows it.**  Take any
accepted chunk in any session.  At every point of its run the depth is the
number of calls in progress, and it is never above the limit.  Compare with the
run without a limit.  If no call that passes its checks comes up at the limit
there, both runs are the same at every point.  Otherwise they are the same up to
the first such call.  It comes at depth 16384, and it fails: from then on the
run drops frames and does nothing else, so nothing of the callee is executed,
and the chunk ends with that failure and with what was printed before. -/
theorem depth_limit {s : Session} (hs : s.Reachable) {source : String} (h : s.Accepts source)
    (clock : Clock) :
    let g := s.setting clock source
    let point (n : Nat) := Config.run g n (s.start source)
    let free (n : Nat) := Config.run g.unlimited n (s.start source)
    (∀ n, (point n).state.depth = { m | Config.InProgress g (s.start source) m n }.ncard
      ∧ (point n).state.depth ≤ 16384)
    ∧ (∀ n, (free n).state.depth
      = { m | Config.InProgress g.unlimited (s.start source) m n }.ncard)
    ∧ ((∀ n callable paren arguments, (free n).Calls callable paren arguments →
        (free n).state.depth < 16384) →
      ∀ n, point n = free n)
    ∧ ∀ n callable paren arguments, (free n).Calls callable paren arguments →
      16384 ≤ (free n).state.depth →
      ∃ first ≤ n, (∀ k < first, ∀ callable paren arguments,
          (free k).Calls callable paren arguments → (free k).state.depth < 16384)
        ∧ (∀ k ≤ first, point k = free k)
        ∧ ∃ callable paren arguments, (point first).Calls callable paren arguments
          ∧ (point first).state.depth = 16384
          ∧ ∃ failure : Diagnostic, failure.message = "Stack overflow."
            ∧ failure.line? = some paren.line
            ∧ (∀ k, ∃ scope depth, point (first + 1 + k)
              = ⟨.raising failure, (point first).frames.tail.drop k,
                { (point first).state with scope, depth }⟩)
            ∧ ∀ fuel, first + (point first).frames.length ≤ fuel →
              (s.run fuel clock source).2 = .failed failure
                ∧ (s.run fuel clock source).1.machine.state.sink = (point first).state.sink := by
  intro g point free
  have hdepth : (s.start source).state.depth = 0 := hs.context.2
  have hroom {depth : Nat} (hexhausted : g.exhausted depth = false) : depth < 16384 :=
    Nat.lt_of_not_le (of_decide_eq_false hexhausted)
  have hlimit (n : Nat) : (point n).state.depth ≤ 16384 := by
    have hstart : Config.Within (s.start source).state.scope 0 (s.start source)
        ∧ calls (s.start source).frames ≤ maxCallDepth := ⟨⟨rfl, hdepth⟩, Nat.zero_le _⟩
    obtain ⟨hwithin, hcalls⟩ := Config.run_keeps
      (P := fun c => Config.Within (s.start source).state.scope 0 c ∧ calls c.frames ≤ maxCallDepth)
      (g := g) (fun _ hc => Config.calls_le_limit rfl hc) hstart n
    show (Config.run g n (s.start source)).state.depth ≤ maxCallDepth
    rw [hwithin.depth, Nat.zero_add]
    exact hcalls
  refine ⟨fun n => ⟨Config.depth_eq_inProgress rfl hdepth n, hlimit n⟩,
    fun n => Config.depth_eq_inProgress rfl hdepth n, ?_, ?_⟩
  · intro hshallow n
    refine Config.run_unlimited fun k _ callable paren arguments hcalls => ?_
    exact decide_eq_false (Nat.not_le_of_lt (hshallow k callable paren arguments hcalls))
  · intro n callable paren arguments hcalls hdeep
    obtain ⟨first, hle, hbefore, hsame, callable, paren, arguments, hfirst, hfull, hnext⟩ :=
      Config.run_refused (g := g) hcalls (decide_eq_true hdeep)
    have hreached : 16384 ≤ (point first).state.depth := of_decide_eq_true hfull
    have hlater (k : Nat) : point (first + 1 + k) = Config.run g k (point (first + 1)) :=
      Config.run_add _ _ k _
    refine ⟨first, hle, fun k hk _ _ _ hcalls => hroom (hbefore k hk _ _ _ hcalls), hsame, callable,
      paren, arguments, hfirst, Nat.le_antisymm (hlimit first) hreached,
      .runtime paren.line .stackOverflow, rfl, rfl, ?_, ?_⟩
    · intro k
      rw [hlater, show point (first + 1) = _ from hnext]
      exact Config.run_raising g _ _ _ k
    · intro fuel hfuel
      -- one step fails, and each of the others drops a frame
      obtain ⟨frame, rest, hframes, -⟩ := Config.frames_pending hfirst.ne_none
      rw [hframes, List.length_cons] at hfuel
      obtain ⟨k, rfl⟩ := Nat.exists_eq_add_of_le (show first + 1 ≤ fuel by omega)
      have hk : (point first).frames.tail.length ≤ k := by
        rw [hframes]
        show rest.length ≤ k
        omega
      obtain ⟨hending, hsink⟩ := Config.run_raising_ended g
        (.runtime paren.line .stackOverflow) (point first).state hk
      rw [← show point (first + 1) = _ from hnext, ← hlater] at hending hsink
      rw [run_eq h]
      exact ⟨congrArg Outcome.ofEnding hending, hsink⟩

/-- A function that calls itself and does nothing else. -/
theorem depth_limit_runaway :
    let s := Session.new none
    let source := "fun f() \x7b f(); \x7d f();"
    ∃ (failure : Diagnostic) (fuel : Nat), failure.message = "Stack overflow."
      ∧ (s.run fuel (.still 0) source).2 = .failed failure := by
  intro s source
  have h : s.Accepts source := ⟨by decide +kernel, by decide +kernel⟩
  -- after the declaration
  let c := Config.run (s.setting (.still 0) source).unlimited 3 (s.start source)
  have haway : Config.runsAway c = true := by decide +kernel
  have hstart : c.state.depth ≤ 16384 := by decide +kernel
  have hglobal (id : Nat) : (s.setting (.still 0) source).distances[id]? = none := by
    have hnone : (s.resolution source).distances = [] := by decide +kernel
    rw [h.getElem?_distances, hnone]
    exact Std.HashMap.getElem?_empty
  obtain ⟨n, callable, paren, arguments, hcalls, hdepth⟩ :=
    Config.runsAway_reaches hglobal haway hstart
  rw [← Config.run_add] at hcalls hdepth
  obtain ⟨-, -, -, hlimit⟩ := depth_limit (.new none) h (.still 0)
  obtain ⟨first, -, -, -, _, _, _, -, -, failure, hmessage, -, -, hended⟩ :=
    hlimit (3 + n) callable paren arguments hcalls (Nat.le_of_eq hdepth.symm)
  exact ⟨failure, _, hmessage, (hended _ (Nat.le_refl _)).1⟩

end Session

end Lox
