/-
  Lox.Proofs.Loop.Quiet
  ─────────────────────
  **STATEMENTS THAT LEAVE THE ENVIRONMENT AS IT WAS.**

  A declaration goes to a new environment, and the end of a block or of a call
  goes back to an old one.  A statement that declares nothing itself may do so
  in blocks and calls inside of it, and comes back from all of them
  (`Stays.run`).  So it ends in the environment that it was executed in, and so
  does every expression (`Executes.scope`, `Evaluates.scope`).
-/
import Lox.Proofs.Loop.Ends

namespace Lox.Direct

open Lockstep Config

/-! ## §1. Frames that declare nothing. -/

/-- Code that declares nothing outside of blocks and calls. -/
def quiet : Trait where
  code
    | .expr _ => True
    | .stmt st => st.Proper ∧ st.declared? = none
  function _ := True
  method _ _ := True

theorem quiet_hereditary : quiet.Hereditary := by
  intro whole part hpart h
  cases hpart with
  | @thenBranch condition th el =>
    cases el with
    | none => exact h.1.2
    | some st => exact h.1.2.1
  | elseBranch => exact h.1.2.2
  | whileBody => exact h.1.2
  | _ => trivial

theorem quiet_ofValue (v : Value) : quiet.OfValue v := by
  cases v with
  | «class» k => exact fun _ _ _ => trivial
  | _ => trivial

theorem quiet_ofState (s : State) : quiet.OfState s :=
  ⟨fun _ _ v _ => quiet_ofValue v,
    fun _ _ _ => ⟨fun _ _ _ => trivial, fun _ v _ => quiet_ofValue v⟩⟩

/-- A frame to go back from. -/
def Firm (frames : List Frame) : Prop :=
  ∃ f ∈ frames, Restores f

/-- Whatever declares something is inside of a block or of a call. -/
def Quiet : List Frame → Prop
  | [] => True
  | frame :: rest => (Firm rest ∨ Restores frame ∨ quiet.OfFrame frame) ∧ Quiet rest

/-- **A program comes back** to an environment, from a number of calls. -/
structure Stays (n : ScopeId) (d : Nat) (c : Config) : Prop where
  within : Within n d c
  frames : Quiet c.frames
  control : Firm c.frames ∨ quiet.OfControl c.control

variable {g : Setting} {c c' : Config} {o : Control} {s t : State}
  {frames popped added rest : List Frame} {n : ScopeId} {d : Nat}

theorem Firm.append (h : Firm rest) (added : List Frame) : Firm (added ++ rest) := by
  obtain ⟨f, hf, hrestores⟩ := h
  exact ⟨f, List.mem_append_right added hf, hrestores⟩

theorem Firm.of_append (h : Firm (popped ++ rest)) (hpopped : ∀ f ∈ popped, ¬ Restores f) :
    Firm rest := by
  obtain ⟨f, hf, hrestores⟩ := h
  rcases List.mem_append.mp hf with hf | hf
  · exact absurd hrestores (hpopped f hf)
  · exact ⟨f, hf, hrestores⟩

/-- With a frame to go back from, it does not matter where the others go. -/
theorem home_of_firm (h : Firm frames) (n m : ScopeId) : home frames n = home frames m := by
  induction frames with
  | nil =>
    obtain ⟨f, hf, -⟩ := h
    cases hf
  | cons frame rest ih =>
    cases frame with
    | leave | call => rfl
    | _ => exact ih (Firm.of_append h (not_restores_singleton id))

theorem Quiet.of_append (h : Quiet (popped ++ rest)) : Quiet rest := by
  induction popped with
  | nil => exact h
  | cons frame popped ih => exact ih h.2

theorem Quiet.append (h : Quiet rest) (hadded : Firm rest ∨ ∀ f ∈ added, quiet.OfFrame f) :
    Quiet (added ++ rest) := by
  induction added with
  | nil => exact h
  | cons frame added ih =>
    refine ⟨?_, ih (hadded.imp_right fun hf f hmem => hf f (List.mem_cons_of_mem frame hmem))⟩
    rcases hadded with hfirm | hquiet
    · exact .inl (hfirm.append added)
    · exact .inr (.inr (hquiet frame List.mem_cons_self))

/-- Without a frame to go back from, no frame declares anything. -/
theorem Quiet.ofFrame (h : Quiet frames) (hfirm : ¬ Firm frames) :
    ∀ f ∈ frames, quiet.OfFrame f := by
  intro f hf
  induction frames with
  | nil => cases hf
  | cons frame rest ih =>
    have hrest : ¬ Firm rest := fun hrest => hfirm (hrest.append [frame])
    rcases List.mem_cons.mp hf with rfl | hf
    · rcases h.1 with hfirm' | hrestores | hquiet
      · exact absurd hfirm' hrest
      · exact absurd ⟨f, List.mem_cons_self, hrestores⟩ hfirm
      · exact hquiet
    · exact ih h.2 hrest hf

/-! ## §2. Steps. -/

/-- The innermost frame is gone, if it was one to go back from; an outcome is
all that is left. -/
theorem Stays.outcome (h : Stays n d c) (popped : List Frame) (hwithin : Within n d c')
    (hframes : c.frames = popped ++ c'.frames) (hcontrol : quiet.OfControl c'.control) :
    Stays n d c' :=
  ⟨hwithin, (hframes ▸ h.frames).of_append, .inr hcontrol⟩

/-- **A move of a program with distances** comes back to the same environment. -/
theorem Stays.moves {K : Trait} (hK : Firm c.frames ∨ K.Implies quiet) (hmove : Moves K c c')
    (h : Stays n d c) : Stays n d c' := by
  have hwithin := hmove.within h.within
  -- a declaration is inside of a block or of a call
  have hnaming : ∀ {st}, K.code (.stmt st) → st.declared? ≠ none → Firm c.frames := by
    intro st hst hdeclared
    rcases hK with hfirm | himplies
    · exact hfirm
    · exact absurd (himplies.code _ hst).2 hdeclared
  cases hmove with
  | @on control control' popped added rest s s' hpopped hadded hscope hdepth hscopes hcontrol
      hframes =>
    have hrest : Quiet rest := h.frames.of_append
    have hfirm : Firm rest ∨ K.Implies quiet := hK.imp_left fun hf => hf.of_append hpopped
    refine ⟨hwithin, hrest.append ?_, ?_⟩
    · exact hfirm.imp_right fun himplies f hf => (hframes f hf).imp himplies
    · rcases hfirm with hfirm | himplies
      · exact .inl (hfirm.append added)
      · exact .inr (hcontrol.imp himplies)
  | function => exact h.outcome [] hwithin rfl trivial
  | bind => exact h.outcome _ hwithin rfl trivial
  | call | make =>
    have hrest := h.frames.of_append
    exact ⟨hwithin, ⟨.inr (.inl trivial), hrest⟩, .inl ⟨_, List.mem_cons_self, trivial⟩⟩
  | @plain name methods rest s =>
    obtain ⟨control', s', heq, houtcome, -⟩ := declaringClass_outcome
      (.exec (.class name none methods)) rest (s.define s.scope name.lexeme .nil) name none methods
    rw [heq] at hwithin ⊢
    refine h.outcome [] hwithin rfl ?_
    rcases houtcome with rfl | ⟨d, rfl⟩ <;> trivial
  | parent hcode =>
    have hfirm := hnaming hcode (Option.some_ne_none _)
    exact ⟨hwithin, ⟨.inl hfirm, h.frames⟩, .inl (hfirm.append [_])⟩
  | @derived k name o methods rest s =>
    obtain ⟨control', s', heq, houtcome, -⟩ := declaringClass_outcome (.value (.class k)) rest s
      name (some k) methods
    rw [heq] at hwithin ⊢
    refine h.outcome [.superclass name o methods] hwithin rfl ?_
    rcases houtcome with rfl | ⟨d, rfl⟩ <;> trivial
  | block => exact ⟨hwithin, ⟨.inr (.inl trivial), h.frames⟩, .inl ⟨_, List.mem_cons_self, trivial⟩⟩
  | @leave control control' m rest s hcontrol =>
    refine h.outcome [.leave m] hwithin rfl ?_
    cases hcontrol with
    | returning => exact quiet_ofValue _
    | _ => trivial
  | @ended control control' m f made rest s hcontrol =>
    refine h.outcome [.call m f made] hwithin rfl ?_
    rcases hcontrol with ⟨v, rfl, -⟩ | ⟨d, rfl⟩
    · exact quiet_ofValue v
    · trivial

theorem declared_of_naming {st : Stmt} (h : NamingStmt st) : st.declared? ≠ none := by
  cases st with
  | var | function | «class» => exact Option.some_ne_none _
  | _ => exact h.elim

/-- A declaration that is not quiet is inside of a block or of a call. -/
theorem firm_of_declared {st : Stmt} (h : Firm frames ∨ quiet.code (.stmt st))
    (hdeclared : st.declared? ≠ none) : Firm frames :=
  h.resolve_right fun hquiet => hdeclared hquiet.2

/-- **A step that looks at a name or enters a block** comes back to the same
environment. -/
theorem Stays.looks (hlooks : Looks c c') (h : Stays n d c) : Stays n d c' := by
  have hwithin := h.within
  cases hlooks with
  | @finds e frames s o s' ho hscope hdepth =>
    refine h.outcome [] (hwithin.same (congrArg (home frames) hscope) rfl hdepth) rfl ?_
    rcases ho with ⟨v, rfl⟩ | ⟨failure, rfl⟩
    · exact quiet_ofValue v
    · trivial
  | @assigns v target frames s o s' ho hscope hdepth =>
    have hcalls : calls (.assign target :: frames) = calls frames := calls_cons id frames
    refine h.outcome [.assign target]
      (hwithin.same (congrArg (home frames) hscope) hcalls.symm hdepth) rfl ?_
    rcases ho with ⟨v', rfl⟩ | ⟨failure, rfl⟩
    · exact quiet_ofValue v'
    · trivial
  | @defines v name frames s s' hdepth =>
    have hfirm : Firm frames := by
      rcases h.frames.1 with hfirm | hrestores | ⟨e, hquiet⟩
      · exact hfirm
      · exact hrestores.elim
      · exact absurd hquiet.2 (Option.some_ne_none _)
    have hcalls : calls (.define name :: frames) = calls frames := calls_cons id frames
    have hhome : home frames s'.scope = home frames s.scope := home_of_firm hfirm _ _
    exact h.outcome [.define name] (hwithin.same hhome hcalls.symm hdepth) rfl trivial
  | @declares st frames s o s' hst ho hdepth =>
    have hfirm := firm_of_declared h.control (declared_of_naming hst)
    refine h.outcome [] (hwithin.same (home_of_firm hfirm _ _) rfl hdepth) rfl ?_
    rcases ho with rfl | ⟨failure, rfl⟩ <;> trivial
  | @parent name o methods frames s s' hdepth =>
    have hfirm := firm_of_declared h.control (Option.some_ne_none _)
    have hcalls : calls (.superclass name o methods :: frames) = calls frames :=
      calls_cons id frames
    refine ⟨hwithin.same (home_of_firm hfirm _ _) hcalls hdepth, ⟨.inl hfirm, h.frames⟩, ?_⟩
    exact .inl (hfirm.append [_])
  | @block body frames s s' hdepth =>
    have hcalls : calls (.leave s.scope :: frames) = calls frames := rfl
    refine ⟨hwithin.same rfl hcalls hdepth, ⟨.inr (.inl trivial), h.frames⟩, ?_⟩
    exact .inl ⟨_, List.mem_cons_self, trivial⟩

/-- **A step comes back** to the same environment. -/
theorem Stays.step (h : Stays n d c) (g : Setting) : Stays n d (step g c) := by
  rcases looks_or_step g c with hlooks | heq
  · exact h.looks hlooks
  · rw [heq]
    by_cases hfirm : Firm c.frames
    · exact h.moves (.inl hfirm) (moves_any g c)
    · have hcontrol := h.control.resolve_left hfirm
      have hframes : ∀ f ∈ c.frames.head?, quiet.OfFrame f :=
        fun f hf => h.frames.ofFrame hfirm f (List.mem_of_head? hf)
      have hmove := moves_step quiet_hereditary g hcontrol hframes (quiet_ofState c.state)
      exact h.moves (.inr ⟨fun _ h => h, fun _ h => h, fun _ _ h => h⟩) hmove

/-- **A run comes back** to the same environment. -/
theorem Stays.run (h : Stays n d c) (g : Setting) (k : Nat) : Stays n d (run g k c) :=
  run_keeps (P := Stays n d) (fun _ hc => hc.step g) h k

/-! ## §3. Ends. -/

/-- What declares nothing ends in the environment that it began in. -/
theorem scope_of_ends (control : Control) (hcontrol : quiet.OfControl control)
    (h : Ends g ⟨control, [], s⟩ o t) : t.scope = s.scope := by
  obtain ⟨k, ho, hrun⟩ := h
  have hstart : Stays s.scope s.depth ⟨control, [], s⟩ := ⟨⟨rfl, rfl⟩, trivial, .inr hcontrol⟩
  have hend := hstart.run g k
  rw [hrun] at hend
  exact (hend.within.halted ho).1

/-- A statement that declares nothing leaves the environment as it was, however
it ends. -/
theorem Executes.scope {st : Stmt} (hst : st.Proper) (hdeclared : st.declared? = none)
    (h : Executes g st s o t) : t.scope = s.scope :=
  scope_of_ends (.exec st) ⟨hst, hdeclared⟩ h

/-- An expression leaves the environment as it was. -/
theorem Evaluates.scope {e : Expr} (h : Evaluates g e s o t) : t.scope = s.scope :=
  scope_of_ends (.eval e) trivial h

end Lox.Direct
