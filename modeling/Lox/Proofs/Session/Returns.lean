/-
  Lox.Proofs.Session.Returns
  ──────────────────────────
  **A RETURN ENDS THE NEAREST CALL.**

  The scope analysis lets a `return` stand only inside a function body, and
  every such body runs inside the frame of its call.  So a program that is
  returning always has a call to end: it drops the frames inside that call one
  after the other, runs nothing on the way, and goes on with the frames that
  waited when the call began.

  Main results:
    * `Alongside.call_of_returning`: what returns is inside a call.
    * `run_unwinds`: the frames up to the call are dropped one by one.
    * `Bodies.run`: what is executed stands in the body of the function of the
      nearest call, in blocks, branches and loops only.
    * `return_ends_nearest_call`: all of this for accepted chunks.
-/
import Lox.Proofs.Session.Restored
import Mathlib.Logic.Relation

namespace Lox

open Lockstep

/-! ## §1. The text of a body. -/

/-- A statement that another one runs in the same call, as it is. -/
inductive Stmt.Inner : Stmt → Stmt → Prop
  | block {body s} (h : s ∈ body) : Inner (.block body) s
  | thenBranch {condition th el} : Inner (.ifElse condition th el) th
  | elseBranch {condition th el} : Inner (.ifElse condition th (some el)) el
  | loop {condition body} : Inner (.while condition body) body

/-- A statement stands among some others, in any depth of blocks, branches and
loops, and not in a function of its own. -/
def Stmt.Within (body : List Stmt) (s : Stmt) : Prop :=
  ∃ outer ∈ body, Relation.ReflTransGen Stmt.Inner outer s

theorem Stmt.within_of_mem {body : List Stmt} {s : Stmt} (h : s ∈ body) : Stmt.Within body s :=
  ⟨s, h, .refl⟩

theorem Stmt.Within.inner {body : List Stmt} {s s' : Stmt} (h : Stmt.Within body s)
    (hs : Stmt.Inner s s') : Stmt.Within body s' := by
  obtain ⟨outer, houter, hpath⟩ := h
  exact ⟨outer, houter, hpath.tail hs⟩

/-- Statements that stand in a body. -/
def Trait.inBody (body : List Stmt) : Trait where
  code
    | .expr _ => True
    | .stmt s => Stmt.Within body s
  function _ := True
  method _ _ := True

theorem Trait.inBody_hereditary (body : List Stmt) : (Trait.inBody body).Hereditary := by
  intro whole part hpart hwhole
  cases hpart with
  | thenBranch => exact Stmt.Within.inner hwhole .thenBranch
  | elseBranch => exact Stmt.Within.inner hwhole .elseBranch
  | whileBody => exact Stmt.Within.inner hwhole .loop
  | _ => trivial

theorem Trait.inBody_ofValue (body : List Stmt) (v : Value) : (Trait.inBody body).OfValue v := by
  cases v with
  | function f => trivial
  | «class» k => exact fun _ _ _ => trivial
  | _ => trivial

theorem Trait.inBody_ofState (body : List Stmt) (s : State) : (Trait.inBody body).OfState s :=
  ⟨fun _ _ v _ => inBody_ofValue body v,
    fun _ _ _ => ⟨fun _ _ _ => trivial, fun _ v _ => inBody_ofValue body v⟩⟩

namespace Config

/-- The frames of a program, from the body whose code runs inside them: up to
a call they come from that body, and a call runs the body of its function. -/
inductive Bodies (program : List Stmt) : List Stmt → List Frame → Prop
  | bottom : Bodies program program []
  | frame {body frame rest} (hcall : frame.isCall = false)
      (hframe : (Trait.inBody body).OfFrame frame) (hrest : Bodies program body rest) :
      Bodies program body (frame :: rest)
  | call {n f made body rest} (hrest : Bodies program body rest) :
      Bodies program f.decl.body (.call n f made :: rest)

/-- What is done stands in the body of the nearest call. -/
def InBody (program : List Stmt) (c : Config) : Prop :=
  ∃ body, (Trait.inBody body).OfControl c.control ∧ Bodies program body c.frames

variable {program body : List Stmt} {rest : List Frame}

theorem isCall_of_not_restores {frame : Frame} (h : ¬ Restores frame) : frame.isCall = false := by
  cases frame with
  | call => exact absurd trivial h
  | _ => rfl

theorem Bodies.drop {popped : List Frame} (hpopped : ∀ f ∈ popped, ¬ Restores f)
    (h : Bodies program body (popped ++ rest)) : Bodies program body rest := by
  induction popped with
  | nil => exact h
  | cons frame popped ih =>
    have hframe := isCall_of_not_restores (hpopped frame List.mem_cons_self)
    cases h with
    | frame _ _ hrest => exact ih (fun f hf => hpopped f (List.mem_cons_of_mem frame hf)) hrest
    | call => cases hframe

theorem Bodies.add {added : List Frame} (hlocal : ∀ f ∈ added, f.Local)
    (hframes : ∀ f ∈ added, (Trait.inBody body).OfFrame f) (h : Bodies program body rest) :
    Bodies program body (added ++ rest) := by
  induction added with
  | nil => exact h
  | cons frame added ih =>
    refine .frame ?_ (hframes frame List.mem_cons_self) (ih ?_ ?_)
    · exact isCall_of_not_restores (hlocal frame List.mem_cons_self).not_restores
    · exact fun f hf => hlocal f (List.mem_cons_of_mem frame hf)
    · exact fun f hf => hframes f (List.mem_cons_of_mem frame hf)

/-- Frames of one call come from the body of its function. -/
theorem Bodies.eq_body {inner : List Frame} (hinner : ∀ fr ∈ inner, fr.isCall = false)
    {n : ScopeId} {f : Function} {made : Option ObjectId}
    (h : Bodies program body (inner ++ .call n f made :: rest)) : body = f.decl.body := by
  induction inner with
  | nil =>
    cases h with
    | frame hcall => cases hcall
    | call => rfl
  | cons frame inner ih =>
    have hframe := hinner frame List.mem_cons_self
    cases h with
    | frame _ _ hrest => exact ih (fun fr hfr => hinner fr (List.mem_cons_of_mem frame hfr)) hrest
    | call => cases hframe

/-- The innermost frame comes from the body that runs. -/
theorem Bodies.head {frames : List Frame} (h : Bodies program body frames) :
    ∀ f ∈ frames.head?, (Trait.inBody body).OfFrame f := by
  intro f hf
  cases h with
  | bottom => cases hf
  | frame _ hframe =>
    cases hf
    exact hframe
  | call =>
    cases hf
    trivial

/-- **A move stays in the bodies of the calls.** -/
theorem InBody.step {c : Config} (h : InBody program c) (g : Setting) :
    InBody program (c.step g) := by
  obtain ⟨body, hcontrol, hbodies⟩ := h
  have hmove := moves_step (Trait.inBody_hereditary body) g hcontrol hbodies.head
    (Trait.inBody_ofState body c.state)
  generalize c.step g = c' at hmove
  cases hmove with
  | on hpopped hadded _ _ _ hcontrol' hframes =>
    exact ⟨body, hcontrol', (hbodies.drop hpopped).add hadded hframes⟩
  | function => exact ⟨body, trivial, hbodies⟩
  | bind hpopped => exact ⟨body, trivial, hbodies.drop hpopped⟩
  | @call control popped rest s f arguments hpopped =>
    exact ⟨f.decl.body, fun st hst => Stmt.within_of_mem hst, .call (hbodies.drop hpopped)⟩
  | @make control popped rest s k f arguments hpopped =>
    exact ⟨f.decl.body, fun st hst => Stmt.within_of_mem hst,
      .call (f := boundMethod (s.addObject k) f) (hbodies.drop hpopped)⟩
  | @plain name methods rest s =>
    obtain ⟨control', s', heq, houtcome, -⟩ := declaringClass_outcome
      (.exec (.class name none methods)) rest (s.define s.scope name.lexeme .nil) name none methods
    rw [heq]
    refine ⟨body, ?_, hbodies⟩
    rcases houtcome with rfl | ⟨d, rfl⟩ <;> trivial
  | parent => exact ⟨body, trivial, .frame rfl hcontrol hbodies⟩
  | @derived k name o methods rest s =>
    obtain ⟨control', s', heq, houtcome, -⟩ := declaringClass_outcome
      (.value (.class k)) rest s name (some k) methods
    rw [heq]
    refine ⟨body, ?_, Bodies.drop (not_restores_singleton id) hbodies⟩
    rcases houtcome with rfl | ⟨d, rfl⟩ <;> trivial
  | block =>
    exact ⟨body, fun st hst => Stmt.Within.inner hcontrol (.block hst), .frame rfl trivial hbodies⟩
  | leave hleaves =>
    cases hbodies with
    | frame _ _ hrest =>
      refine ⟨body, ?_, hrest⟩
      cases hleaves with
      | returning => exact Trait.inBody_ofValue body _
      | _ => trivial
  | ended houtcome =>
    cases hbodies with
    | frame hcall => cases hcall
    | @call n f made body' rest hrest =>
      refine ⟨body', ?_, hrest⟩
      rcases houtcome with ⟨v, rfl, -⟩ | ⟨d, rfl⟩
      · exact Trait.inBody_ofValue body' v
      · trivial

/-- **A run stays in the bodies of its calls.** -/
theorem InBody.run {c : Config} (h : InBody program c) (g : Setting) (n : Nat) :
    InBody program (run g n c) :=
  run_keeps (fun _ hc => hc.step g) h n

/-! ## §2. Where a call began. -/

/-- A call among frames that are no calls is among the frames below them. -/
theorem suffix_of_suffix_append {call : Frame} {below : List Frame} (added : List Frame)
    (hcall : call.isCall = true) (hadded : ∀ f ∈ added, f.isCall = false)
    (h : call :: below <:+ added ++ rest) : call :: below <:+ rest := by
  induction added with
  | nil => exact h
  | cons frame added ih =>
    rw [List.cons_append, List.suffix_cons_iff] at h
    rcases h with heq | h
    · have hframe := hadded frame List.mem_cons_self
      cases heq
      rw [hcall] at hframe
      cases hframe
    · exact ih (fun f hf => hadded f (List.mem_cons_of_mem frame hf)) h

/-- A call in progress was in progress before a step, or the step begins it. -/
theorem Moves.call_or {K : Trait} {c c' : Config} (hmove : Moves K c c') {n : ScopeId}
    {f : Function} {made : Option ObjectId} {below : List Frame}
    (h : .call n f made :: below <:+ c'.frames) :
    .call n f made :: below <:+ c.frames
      ∨ c'.control = .execAll f.decl.body ∧ c'.frames = .call n f made :: below := by
  cases hmove with
  | on hpopped hadded =>
    refine .inl ((suffix_of_suffix_append _ rfl ?_ h).trans (List.suffix_append _ _))
    exact fun f hf => isCall_of_not_restores (hadded f hf).not_restores
  | function => exact .inl h
  | bind => exact .inl (h.trans (List.suffix_append _ _))
  | call =>
    rcases List.suffix_cons_iff.mp h with heq | h
    · cases heq
      exact .inr ⟨rfl, rfl⟩
    · exact .inl (h.trans (List.suffix_append _ _))
  | make =>
    rcases List.suffix_cons_iff.mp h with heq | h
    · cases heq
      exact .inr ⟨rfl, rfl⟩
    · exact .inl (h.trans (List.suffix_append _ _))
  | @plain name methods rest s =>
    obtain ⟨control', s', heq, -⟩ := declaringClass_outcome
      (.exec (.class name none methods)) rest (s.define s.scope name.lexeme .nil) name none methods
    rw [heq] at h
    exact .inl h
  | parent => exact .inl (suffix_of_suffix_append [_] rfl (by simp [Frame.isCall]) h)
  | @derived k name o methods rest s =>
    obtain ⟨control', s', heq, -⟩ := declaringClass_outcome
      (.value (.class k)) rest s name (some k) methods
    rw [heq] at h
    exact .inl (h.trans (List.suffix_cons _ _))
  | block => exact .inl (suffix_of_suffix_append [_] rfl (by simp [Frame.isCall]) h)
  | leave => exact .inl (h.trans (List.suffix_cons _ _))
  | ended => exact .inl (h.trans (List.suffix_cons _ _))

/-- **A call in progress began at some step**, and has been in progress since
then. -/
theorem exists_call_begin {g : Setting} {c : Config} (hc : c.frames = []) {n : Nat}
    {caller : ScopeId} {f : Function} {made : Option ObjectId} {below : List Frame}
    (h : .call caller f made :: below <:+ (run g n c).frames) :
    ∃ m ≤ n, (run g m c).control = .execAll f.decl.body
      ∧ (run g m c).frames = .call caller f made :: below
      ∧ ∀ i, m ≤ i → i ≤ n → .call caller f made :: below <:+ (run g i c).frames := by
  induction n with
  | zero =>
    change _ <:+ c.frames at h
    rw [hc] at h
    exact absurd (List.suffix_nil.mp h) (List.cons_ne_nil _ _)
  | succ n ih =>
    have hmove := moves_any g (run g n c)
    rw [← run_last] at hmove
    rcases hmove.call_or h with hbefore | ⟨hcontrol, hframes⟩
    · obtain ⟨m, hm, hcontrol, hframes, hsince⟩ := ih hbefore
      refine ⟨m, Nat.le_succ_of_le hm, hcontrol, hframes, ?_⟩
      intro i hmi hi
      rcases Nat.lt_or_ge n i with hlt | hle
      · obtain rfl : i = n + 1 := by omega
        exact h
      · exact hsince i hmi hle
    · refine ⟨n + 1, Nat.le_refl _, hcontrol, hframes, ?_⟩
      intro i hmi hi
      obtain rfl : i = n + 1 := by omega
      exact h

/-! ## §3. The way out. -/

/-- **Frames that are no calls are dropped one by one.** -/
theorem run_unwinds (g : Setting) (v : Value) {inner : List Frame}
    (hinner : ∀ fr ∈ inner, fr.isCall = false) (rest : List Frame) (s : State) {k : Nat}
    (hk : k ≤ inner.length) :
    ∃ scope, run g k ⟨.returning v, inner ++ rest, s⟩
      = ⟨.returning v, inner.drop k ++ rest, s.inScope scope⟩ := by
  induction k generalizing inner s with
  | zero => exact ⟨s.scope, rfl⟩
  | succ k ih =>
    cases inner with
    | nil => cases hk
    | cons frame inner =>
      have hlater : ∀ fr ∈ inner, fr.isCall = false :=
        fun fr hfr => hinner fr (List.mem_cons_of_mem frame hfr)
      have hframe := hinner frame List.mem_cons_self
      rw [run_succ]
      have hle : k ≤ inner.length := Nat.le_of_succ_le_succ hk
      cases frame with
      | leave n =>
        obtain ⟨scope, hrun⟩ := ih hlater (s.inScope n) hle
        exact ⟨scope, hrun⟩
      | call => cases hframe
      | _ => exact ih hlater s hle

end Config

/-- What is inside a function body waits inside a call. -/
theorem Lockstep.Waits.exists_call {S : Sight} {T : Resolve.Chart} {w : S.World} {a : Stance}
    {fs fs' : List Frame} (h : Waits S T w a fs fs') (hinside : a.inside = true) :
    ∃ inner caller f made rest, fs = inner ++ .call caller f made :: rest
      ∧ ∀ fr ∈ inner, fr.isCall = false := by
  induction h with
  | bottom => cases hinside
  | @cons a b frame frame' fs fs' hop hs ih =>
    -- frames inside the call, then the call itself
    have hlater (hb : b.inside = true) (hframe : frame.isCall = false) :
        ∃ inner caller f made rest, frame :: fs = inner ++ .call caller f made :: rest
          ∧ ∀ fr ∈ inner, fr.isCall = false := by
      obtain ⟨inner, caller, f, made, rest, rfl, hinner⟩ := ih hb
      refine ⟨frame :: inner, caller, f, made, rest, rfl, ?_⟩
      intro fr hfr
      rcases List.mem_cons.mp hfr with rfl | hfr
      · exact hframe
      · exact hinner fr hfr
    cases hop with
    | call q made hf =>
      refine ⟨[], q.here, _, made, fs, rfl, ?_⟩
      intro fr hfr
      cases hfr
    | _ => exact hlater hinside rfl

/-- **What returns is inside a call.** -/
theorem Lockstep.Alongside.call_of_returning {S : Sight} {T : Resolve.Chart} {D : Discipline S T}
    {c c' : Config} (h : Alongside D c c') {v : Value} (hcontrol : c.control = .returning v) :
    ∃ inner caller f made rest, c.frames = inner ++ .call caller f made :: rest
      ∧ ∀ fr ∈ inner, fr.isCall = false := by
  obtain ⟨w, scopes, a, hdoes, hwaits, -⟩ := h
  rw [hcontrol] at hdoes
  generalize c'.control = control' at hdoes
  cases hdoes
  exact hwaits.exists_call rfl

/-- A `return` statement stands inside a call. -/
theorem Lockstep.Alongside.call_of_return {S : Sight} {T : Resolve.Chart} {D : Discipline S T}
    {c c' : Config} (h : Alongside D c c') {keyword : Token} {e : Option Expr}
    (hcontrol : c.control = .exec (.return keyword e)) :
    ∃ inner caller f made rest, c.frames = inner ++ .call caller f made :: rest
      ∧ ∀ fr ∈ inner, fr.isCall = false := by
  obtain ⟨w, scopes, a, hdoes, hwaits, -⟩ := h
  rw [hcontrol] at hdoes
  generalize c'.control = control' at hdoes
  cases hdoes with
  | exec hbound => exact hwaits.exists_call hbound.2.1

/-- A call that is returned from has a result. -/
theorem Lockstep.Alongside.callResult {S : Sight} {T : Resolve.Chart} {D : Discipline S T}
    {c c' : Config} (h : Alongside D c c') {v : Value} (hcontrol : c.control = .returning v)
    {caller : ScopeId} {f : Function} {made : Option ObjectId} {rest : List Frame}
    (hframes : c.frames = .call caller f made :: rest) :
    ∃ r, Config.callResult (c.state.endCall caller) f v = .ok r := by
  obtain ⟨control, frames, s⟩ := c
  obtain ⟨control', frames', s'⟩ := c'
  obtain ⟨w, scopes, a, hdoes, hwaits, hstates⟩ := h
  dsimp only at hcontrol hframes hdoes hwaits hstates
  subst hcontrol hframes
  cases hdoes with
  | returning hv =>
    cases hwaits with
    | cons hop _ =>
      cases hop with
      | call q made _ hf =>
        obtain ⟨r, -, hr, -⟩ := callResult_match hstates hf hv q.here q.there
        exact ⟨r, hr⟩

/-- **The way out of a call.**  What returns leaves the frames inside the
nearest call one after the other, and then the caller goes on. -/
theorem Lockstep.Alongside.run_returning {S : Sight} {T : Resolve.Chart} {D : Discipline S T}
    {g : Setting} {c : Config} (h : ∀ k, Alongside D (Config.run g k c) (Config.run g k c))
    {v : Value} (hcontrol : c.control = .returning v) :
    ∃ inner caller f made rest r, c.frames = inner ++ .call caller f made :: rest
      ∧ (∀ fr ∈ inner, fr.isCall = false)
      ∧ (∀ k ≤ inner.length, (Config.run g k c).control = .returning v
        ∧ (Config.run g k c).frames = inner.drop k ++ .call caller f made :: rest)
      ∧ Config.run g (inner.length + 1) c = ⟨.value r, rest, c.state.endCall caller⟩ := by
  obtain ⟨inner, caller, f, made, rest, hframes, hinner⟩ := (h 0).call_of_returning hcontrol
  obtain ⟨control, frames, s⟩ := c
  dsimp only [Config.run] at hcontrol hframes
  subst hcontrol hframes
  have hunwound (k : Nat) (hk : k ≤ inner.length) :=
    Config.run_unwinds g v hinner (.call caller f made :: rest) s hk
  -- once the frames inside are gone, only the call is left
  obtain ⟨scope, hlast⟩ := hunwound inner.length (Nat.le_refl _)
  rw [List.drop_length, List.nil_append] at hlast
  obtain ⟨r, hr⟩ := (h inner.length).callResult (congrArg Config.control hlast)
    (congrArg Config.frames hlast)
  rw [hlast] at hr
  refine ⟨inner, caller, f, made, rest, (made.map Value.object).getD r, rfl, hinner, ?_, ?_⟩
  · intro k hk
    obtain ⟨scope', heq⟩ := hunwound k hk
    rw [heq]
    exact ⟨rfl, rfl⟩
  · rw [Config.run_last, hlast]
    exact endingCall_eq hr made (.returning v)

/-- What succeeds and does not return has completed its last statement. -/
theorem Config.control_of_succeeded {c : Config} (h : Outcome.ofEnding c.ending = .succeeded)
    (hreturning : ∀ v, c.control = .returning v → c.frames ≠ []) : c.control = .completed := by
  obtain ⟨control, frames, state⟩ := c
  cases frames with
  | cons => cases control <;> cases h
  | nil =>
    cases control with
    | completed => rfl
    | returning v => exact absurd rfl (hreturning v rfl)
    | _ => cases h

/-! ## §4. Accepted chunks. -/

/-- Whether a program is on its way out of a call. -/
def Control.isReturning : Control → Bool
  | .returning _ => true
  | _ => false

namespace Session

/-- **A return ends the nearest call, and never escapes it.**  At every point
of the run of an accepted chunk that is returning, there is a call in
progress, and inside the nearest one there are only frames of its own body.
That call began at an earlier step with the first statement of its function,
around the frames that its caller left waiting, and it has been in progress
since then.  From here on the frames inside it are dropped one after the
other, and nothing else happens, until the caller goes on with the value of
the call.  Every `return` that is executed stands in the body of the function
of the nearest call, in any depth of blocks, branches and loops.  So no
`return` ends the chunk itself: where a chunk succeeds, all its statements
were executed. -/
theorem return_ends_nearest_call {s : Session} (hs : s.Reachable) {source : String}
    (h : s.Accepts source) (clock : Clock) :
    let point (n : Nat) := Config.run (s.setting clock source) n (s.start source)
    (∀ n v, (point n).control = .returning v →
      ∃ inner caller f made rest r,
        (point n).frames = inner ++ .call caller f made :: rest
        ∧ (∀ fr ∈ inner, fr.isCall = false)
        ∧ (∃ m ≤ n, (point m).control = .execAll f.decl.body
          ∧ (point m).frames = .call caller f made :: rest
          ∧ ∀ i, m ≤ i → i ≤ n → .call caller f made :: rest <:+ (point i).frames)
        ∧ (∀ k ≤ inner.length, (point (n + k)).control = .returning v
          ∧ (point (n + k)).frames = inner.drop k ++ .call caller f made :: rest)
        ∧ point (n + inner.length + 1) = ⟨.value r, rest, (point n).state.endCall caller⟩)
    ∧ (∀ n keyword e, (point n).control = .exec (.return keyword e) →
      ∃ inner caller f made rest,
        (point n).frames = inner ++ .call caller f made :: rest
        ∧ (∀ fr ∈ inner, fr.isCall = false)
        ∧ Stmt.Within f.decl.body (.return keyword e))
    ∧ ∀ fuel, (s.run fuel clock source).2 = .succeeded → (point fuel).control = .completed := by
  intro point
  have halong (n : Nat) : Alongside (byDistance (s.chunkChart source)) (point n) (point n) :=
    (kept_of_reachable hs).run h clock n
  have hlater (n k : Nat) : point (n + k) = Config.run (s.setting clock source) k (point n) :=
    Config.run_add _ n k _
  refine ⟨?_, ?_, ?_⟩
  · intro n v hcontrol
    have hsince (k : Nat) := hlater n k ▸ halong (n + k)
    obtain ⟨inner, caller, f, made, rest, r, hframes, hinner, hunwound, hended⟩ :=
      Alongside.run_returning hsince hcontrol
    refine ⟨inner, caller, f, made, rest, r, hframes, hinner, ?_, ?_, ?_⟩
    · apply Config.exists_call_begin rfl
      show _ <:+ (point n).frames
      rw [hframes]
      exact List.suffix_append _ _
    · intro k hk
      rw [hlater]
      exact hunwound k hk
    · rw [Nat.add_assoc, hlater]
      exact hended
  · intro n keyword e hcontrol
    obtain ⟨inner, caller, f, made, rest, hframes, hinner⟩ := (halong n).call_of_return hcontrol
    have hstart : Config.InBody (s.parsed source).statements (s.start source) :=
      ⟨_, fun st hst => Stmt.within_of_mem hst, .bottom⟩
    obtain ⟨body, hbody, hbodies⟩ := hstart.run (s.setting clock source) n
    change (Trait.inBody body).OfControl (point n).control at hbody
    change Config.Bodies _ body (point n).frames at hbodies
    -- the body that the statement stands in is the one of the nearest call
    rw [hframes] at hbodies
    rw [hcontrol, hbodies.eq_body hinner] at hbody
    exact ⟨inner, caller, f, made, rest, hframes, hinner, hbody⟩
  · intro fuel hsucceeded
    rw [run_eq h] at hsucceeded
    refine Config.control_of_succeeded hsucceeded ?_
    -- a `return` at the end of the chunk would be inside a call
    intro v hcontrol hframes
    obtain ⟨inner, caller, f, made, rest, heq, -⟩ := (halong fuel).call_of_returning hcontrol
    change (point fuel).frames = [] at hframes
    rw [hframes] at heq
    exact absurd heq.symm (List.append_ne_nil_of_right_ne_nil _ (List.cons_ne_nil _ _))

/-- A `return` in a loop in a block ends the call around both. -/
theorem return_ends_nearest_call_looping :
    let s := Session.new none
    let source := "fun f() \x7b \x7b while (true) \x7b return; \x7d \x7d \x7d f();"
    let point (n : Nat) := Config.run (s.setting (.still 0) source) n (s.start source)
    ∃ v inner caller f made rest r,
      (point 18).control = .returning v
      ∧ (point 18).frames = inner ++ .call caller f made :: rest
      ∧ point (18 + inner.length + 1) = ⟨.value r, rest, (point 18).state.endCall caller⟩ := by
  intro s source point
  have h : s.Accepts source := ⟨by decide +kernel, by decide +kernel⟩
  have hreturning : (point 18).control.isReturning = true := by decide +kernel
  obtain ⟨v, hv⟩ : ∃ v, (point 18).control = .returning v := by
    generalize (point 18).control = control at hreturning
    cases control with
    | returning v => exact ⟨v, rfl⟩
    | _ => cases hreturning
  obtain ⟨hreturns, -⟩ := return_ends_nearest_call (.new none) h (.still 0)
  obtain ⟨inner, caller, f, made, rest, r, hframes, -, -, -, hended⟩ := hreturns 18 v hv
  exact ⟨v, inner, caller, f, made, rest, r, hv, hframes, hended⟩

end Session

end Lox
