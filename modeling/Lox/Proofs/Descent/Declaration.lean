/-
  Lox.Proofs.Descent.Declaration
  ──────────────────────────────
  **DECLARATIONS: DESCENT AND TOKEN BY TOKEN.**

  A rule for a list of declarations knows the earlier ones, and so does the reader, in
  the innermost open statement (`Frame`).  A declaration never fails: what fails is an
  attempt at one.  The failure is then reported, and both sides skip the same tokens
  before the next declaration can begin (`YieldsSkip`).

  Main results:
    * `YieldsDeclaration`, `YieldsBlock`, `YieldsFunction`, …: what it means for these rules
      to go well.
    * `yields_…`: each rule goes well, if the rules it calls do.
-/
import Lox.Proofs.Descent.Statement

namespace Lox.Descent

open Parse Grammar Descent.Parser

variable {ts : List Token} {X : Program} {x y : Expect} {cs cs' : List Context}
  {prog : Array Stmt} {i j : Nat} {s : State} {t : Token} {w : List Token}
  {run : {α : Type} → Production α → Parser α}

/-! ## §1. Declarations with others in them. -/

/-- What a list of declarations in braces belongs to. -/
inductive Frame where
  | block
  | body (owner : Owner) (name : Token) (params : Array Token)

/-- The open list. -/
def Frame.context : Frame → Array Stmt → Context
  | .block, earlier => .block earlier
  | .body owner name params, earlier => .body owner name params earlier

/-- What follows a function. -/
def declared : Owner → FunctionDecl Stmt → Expect
  | .function, decl => .finished (.function decl)
  | .method head earlier, decl => .member head (earlier.push decl)

/-- What follows the list. -/
def Frame.closed : Frame → List Stmt → Expect
  | .block, stmts => .finished (.block stmts)
  | .body owner name params, stmts => declared owner ⟨name, params.toList, stmts⟩

/-- Keep a declaration, if it did not fail. -/
def keep (r : Reader) : Option Stmt → Reader
  | some stmt => r.place r.contexts stmt
  | none => r

theorem keep_frame (frame : Frame) (earlier : Array Stmt) (cs : List Context) (prog : Array Stmt)
    (l : Ledger) (stmt : Option Stmt) :
    keep ⟨.declaration, frame.context earlier :: cs, prog, l⟩ stmt
      = ⟨.declaration, frame.context (kept earlier stmt) :: cs, prog, l⟩ := by
  cases stmt <;> cases frame <;> rfl

theorem keep_top (prog : Array Stmt) (l : Ledger) (stmt : Option Stmt) :
    keep ⟨.declaration, [], prog, l⟩ stmt = ⟨.declaration, [], kept prog stmt, l⟩ := by
  cases stmt <;> rfl

/-- **A declaration goes well**, whether it fails or not, if one can begin here: it takes at
least a token, and the next declaration can begin. -/
def YieldsDeclaration (ts : List Token) (s : State) (o : Outcome (Option Stmt)) : Prop :=
  ∀ cs prog X t w, Onward ts X .declaration cs prog s.current s → declarable cs →
    s.rest ts = t :: w → t.kind ≠ .eof → (t.kind = .rightBrace → cs = []) →
    o.Meets (fun stmt s' => Reached ts (s.current + 1) s'
        ∧ X = read (keep ⟨.declaration, cs, prog, s'.ledger⟩ stmt) (s'.rest ts))
      (fun _ _ _ => False)

/-- **A list of declarations goes well**, behind some earlier ones. -/
def YieldsBlock (ts : List Token) (earlier : Array Stmt) (s : State) (o : Outcome (List Stmt)) :
    Prop :=
  ∀ (frame : Frame) cs prog X,
    Onward ts X .declaration (frame.context earlier :: cs) prog s.current s →
    o.Meets (fun stmts s' => Onward ts X (frame.closed stmts) cs prog (s.current + 1) s')
      (Broken ts X cs prog s.current)

/-- At the end of the input an open list of declarations is a failure. -/
theorem read_unclosed (frame : Frame) (earlier : Array Stmt) (cs : List Context)
    (prog : Array Stmt) (l : Ledger) (ht : t.kind = .eof) :
    read ⟨.declaration, frame.context earlier :: cs, prog, l⟩ (t :: w)
      = failing ⟨.declaration, cs, prog, l⟩ t .blockClose w := by
  have hblock : (frame.context earlier).isBlock = true := by cases frame <;> rfl
  have hfilter : (cs.dropWhile (!·.isBlock)).filter Context.isBlock
      = cs.filter Context.isBlock := by
    induction cs with
    | nil => rfl
    | cons c cs ih =>
      rw [List.dropWhile_cons]
      cases hc : c.isBlock with
      | true => rfl
      | false =>
        rw [if_pos (by simp), ih, List.filter_cons_of_neg (by simp [hc])]
  rw [read_eof ht, failing, if_pos ht]
  unfold Reader.finish output
  simp only [Reader.offerEof, Reader.fail, Reader.report, hfilter,
    List.filter_cons_of_pos hblock, List.foldl_cons]

/-- A closing brace ends the innermost list of declarations. -/
theorem offer_rightBrace (frame : Frame) (earlier : Array Stmt) (cs : List Context)
    (prog : Array Stmt) (l : Ledger) (ht : t.kind = .rightBrace) :
    Reader.offer ⟨.declaration, frame.context earlier :: cs, prog, l⟩ t
      = ⟨frame.closed earlier.toList, cs, prog, l⟩ := by
  show Reader.offerDeclaration _ t = _
  unfold Reader.offerDeclaration
  rw [ht]
  cases frame with
  | block => rfl
  | body owner => cases owner <;> rfl

theorem yields_block {earlier : Array Stmt}
    (hdeclaration : YieldsDeclaration ts s (run .declaration ts s))
    (hself : ∀ earlier' s', Reached ts (s.current + 1) s' →
      YieldsBlock ts earlier' s' (run (.block earlier') ts s')) :
    YieldsBlock ts earlier s (step run (.block earlier) ts s) := by
  intro frame cs prog X h
  obtain ⟨t, w, hrest⟩ := h.head
  refine meets_untilBrace hrest ?_ ?_
  · intro hend
    refine meets_consume (by decide) hrest ?_ ?_
    · intro ht
      exact h.next hrest (by simp [ht]) (offer_rightBrace frame earlier cs prog s.ledger ht)
    · intro hbrace
      have ht := hend.resolve_left hbrace
      refine ⟨h.1, w, hrest, ?_⟩
      rw [h.2, hrest]
      exact read_unclosed frame earlier cs prog s.ledger ht
  · -- the frame takes the declaration in, on both sides
    intro hbrace heof
    have hdeclarable : declarable (frame.context earlier :: cs) := by cases frame <;> rfl
    refine meets_bind ((hdeclaration _ prog X t w h hdeclarable hrest heof
      (fun ht => absurd ht hbrace)).imp (fun _ _ => id) (fun _ _ _ => False.elim)) ?_
    rintro stmt s₁ ⟨hreached, hX⟩
    rw [keep_frame] at hX
    have hle := hreached.le
    refine (hself _ s₁ hreached frame cs prog X ⟨hreached.ended.reached, hX⟩).imp ?_ ?_
    · intro stmts s₂ hclosed
      exact hclosed.mono (by omega)
    · intro t' fault s₂ hbroken
      exact hbroken.mono (by omega)

/-- **A list of parameters goes well**, behind some earlier ones: no comma follows. -/
def YieldsParameters (ts : List Token) (earlier : Array Token) (s : State)
    (o : Outcome (Array Token)) : Prop :=
  ∀ owner name cs prog X, Onward ts X (.nextParameter owner name earlier) cs prog s.current s →
    o.Meets (fun params s' =>
        Onward ts X (.afterParameter owner name params) cs prog (s.current + 1) s'
          ∧ Before ts (· ≠ .comma) s')
      (Broken ts X cs prog s.current)

section Parameters

variable {owner : Owner} {name : Token} {earlier : Array Token} {l : Ledger}

/-- The reader checks the size of a list of parameters at the same token. -/
theorem offer_parameter (ht : t.kind = .identifier) :
    Reader.offer ⟨.nextParameter owner name earlier, cs, prog, l⟩ t
      = ⟨.afterParameter owner name (earlier.push t), cs, prog,
          limited earlier.size t .tooManyParameters l⟩ := by
  show Reader.offerParameter _ owner name earlier t = _
  unfold Reader.offerParameter limited
  rw [ht]
  split <;> rfl

theorem refuse_parameter (ht : t.kind ≠ .identifier) :
    Reader.offer ⟨.nextParameter owner name earlier, cs, prog, l⟩ t
      = Reader.fail ⟨.declaration, cs, prog, limited earlier.size t .tooManyParameters l⟩ t
          .parameterName := by
  show Reader.offerParameter _ owner name earlier t = _
  unfold Reader.offerParameter limited
  dsimp only
  split
  · next hk => exact absurd hk ht
  · split <;> rfl

end Parameters

theorem yields_parameters {earlier : Array Token}
    (hself : ∀ earlier' s', Reached ts (s.current + 1) s' →
      YieldsParameters ts earlier' s' (run (.parameters earlier') ts s')) :
    YieldsParameters ts earlier s (step run (.parameters earlier) ts s) := by
  intro owner name cs prog X h
  obtain ⟨param, w, hrest⟩ := h.head
  -- both sides check the size of the list at the next parameter
  let s₀ : State := { s with ledger := limited earlier.size param .tooManyParameters s.ledger }
  show ((limit earlier.size .tooManyParameters >>= _) ts s).Meets _ _
  rw [bind_of_done (limit_eq hrest)]
  have hrest₀ : s₀.rest ts = param :: w := hrest
  have hended₀ : Ended ts s₀ := h.1.ended.congr rfl
  have hX := h.2
  rw [hrest] at hX
  refine meets_consume (by decide) hrest₀ ?_ ?_
  · intro ht
    have hne : param.kind ≠ .eof := by simp [ht]
    have hafter : Onward ts X (.afterParameter owner name (earlier.push param)) cs prog
        (s.current + 1) s₀.next := by
      refine ⟨⟨Nat.le_refl _, hended₀.next hrest₀ hne⟩, ?_⟩
      rw [hX, read_next hne, offer_parameter ht, rest_next hrest₀]
      rfl
    obtain ⟨t₁, w₁, hrest₁⟩ := hafter.head
    refine meets_accept (by decide) hrest₁ ?_ ?_
    · intro ht₁
      have hnext : Onward ts X (.nextParameter owner name (earlier.push param)) cs prog
          (s₀.next.current + 1) s₀.next.next := by
        refine hafter.next hrest₁ (by simp [ht₁]) ?_
        simp [Reader.offer, Reader.expecting, ht₁]
      have hle : s.current + 2 ≤ s₀.next.next.current := hnext.1.le
      refine (hself _ s₀.next.next (hnext.1.mono (Nat.le_succ _)) owner name cs prog X
        ⟨hnext.1.ended.reached, hnext.2⟩).imp ?_ ?_
      · intro params s₂ hend
        exact ⟨hend.1.mono (by omega), hend.2⟩
      · intro t' fault s₂ hbroken
        exact hbroken.mono (by omega)
    · intro ht₁
      exact ⟨hafter, before_of_rest hrest₁ ht₁⟩
  · intro ht
    exact ⟨⟨Nat.le_refl _, hended₀⟩, w, hrest₀,
      hX.trans (read_failing trivial (refuse_parameter ht))⟩

/-- A rule for functions goes well. -/
def YieldsFunction (ts : List Token) (kind : FunctionKind) (s : State)
    (o : Outcome (FunctionDecl Stmt)) : Prop :=
  ∀ owner : Owner, owner.kind = kind → Yields ts (.functionName owner) (declared owner) s o

/-- A function behind its parameters, whether it has some or not. -/
theorem meets_functionBody {owner : Owner} {name : Token} {params : Array Token}
    (hbody : ∀ s', Reached ts (i + 1) s' → YieldsBlock ts #[] s' (run (.block #[]) ts s'))
    (h : Onward ts X (.functionBodyOpen owner name params) cs prog (i + 1) s) :
    ((do
      let _ ← consume .leftBrace (.functionBodyOpen owner.kind)
      let body ← run (.block #[])
      return ⟨name, params.toList, body⟩ : Parser (FunctionDecl Stmt)) ts s).Meets
        (fun decl s' => Onward ts X (declared owner decl) cs prog (i + 1) s')
        (Broken ts X cs prog i) := by
  obtain ⟨t, w, hrest⟩ := h.head
  have hle := h.1.le
  refine meets_token .declaration (.body owner name params #[] :: cs) h hrest (by decide) trivial
    (Nat.le_succ _) ?_ ?_ ?_
  · intro ht
    simp [Reader.offer]
    rfl
  · intro ht
    simp [Reader.offer, Reader.opening, ht]
  intro _ hopen
  have hle' := hopen.1.le
  refine meets_bind ((hbody s.next (hopen.1.mono (by omega)) (.body owner name params) cs prog X
    ⟨hopen.1.ended.reached, hopen.2⟩).imp (fun _ _ => id) ?_) ?_
  · intro t' fault s' hbroken
    exact hbroken.mono (by omega)
  · intro body s' hclosed
    exact hclosed.mono (by omega)

theorem yields_function {kind : FunctionKind}
    (hparameters : ∀ s', Reached ts (s.current + 1) s' →
      YieldsParameters ts #[] s' (run (.parameters #[]) ts s'))
    (hbody : ∀ s', Reached ts (s.current + 1) s' → YieldsBlock ts #[] s' (run (.block #[]) ts s')) :
    YieldsFunction ts kind s (step run (.function kind) ts s) := by
  rintro owner rfl cs prog X h
  obtain ⟨name, w, hrest⟩ := h.head
  refine meets_token (.parametersOpen owner name) cs h hrest (by decide) trivial
    (Nat.le_refl _) ?_ ?_ ?_
  · intro ht
    simp [Reader.offer, Reader.offerFunctionName]
    rfl
  · intro ht
    simp [Reader.offer, Reader.offerFunctionName, Reader.expecting, ht]
  intro _ hname
  obtain ⟨t₁, w₁, hrest₁⟩ := hname.head
  refine meets_token (.firstParameter owner name) cs hname hrest₁ (by decide) trivial
    (Nat.le_succ _) ?_ ?_ ?_
  · intro ht
    simp [Reader.offer]
    rfl
  · intro ht
    simp [Reader.offer, Reader.expecting, ht]
  intro _ hopen
  have hone : s.next.current = s.current + 1 := rfl
  have htwo : s.next.next.current = s.current + 2 := rfl
  obtain ⟨t₂, w₂, hrest₂⟩ := hopen.head
  refine meets_listBefore (by decide) hrest₂ ?_ ?_
  · intro ht
    refine meets_token (.functionBodyOpen owner name #[]) cs hopen hrest₂ (by decide) trivial
      (by omega) (fun hne => absurd ht hne) ?_ ?_
    · intro ht
      simp [Reader.offer, Reader.expecting, ht]
    · intro _ hthere
      exact meets_functionBody hbody (hthere.mono (by omega))
  · intro ht
    -- a first parameter is one behind none
    have hfirst : Onward ts X (.nextParameter owner name #[]) cs prog (s.next.current + 1)
        s.next.next := by
      refine hopen.stay hrest₂ trivial trivial ?_
      simp [Reader.offer, Reader.offerParameter, maxArity]
      rfl
    refine meets_bind ((hparameters _ (hopen.1.mono (by omega)) owner name cs prog X
      ⟨hopen.1.ended.reached, hfirst.2⟩).imp (fun _ _ => id) ?_) ?_
    · intro t' fault s' hbroken
      exact hbroken.mono (by omega)
    · rintro params s₃ ⟨hafter, hcomma⟩
      obtain ⟨t₃, w₃, hrest₃⟩ := hafter.head
      have hne : t₃.kind ≠ .comma := hcomma.head hrest₃
      have hle₃ := hafter.1.le
      refine meets_token (.functionBodyOpen owner name params) cs hafter hrest₃ (by decide) trivial
        (by omega) ?_ ?_ ?_
      · intro ht₃
        simp [Reader.offer]
        rfl
      · intro ht₃
        simp [Reader.offer, Reader.expecting, ht₃]
      · intro _ hthere
        exact meets_functionBody hbody (hthere.mono (by omega))

/-- **The methods of a class go well**, behind some earlier ones: its end follows, or the end
of the input. -/
def YieldsMethods (ts : List Token) (earlier : Array (FunctionDecl Stmt)) (s : State)
    (o : Outcome (Array (FunctionDecl Stmt))) : Prop :=
  ∀ head cs prog X, Onward ts X (.member head earlier) cs prog s.current s →
    o.Meets (fun methods s' => Onward ts X (.member head methods) cs prog s.current s'
        ∧ Before ts (fun k => k = .rightBrace ∨ k = .eof) s')
      (Broken ts X cs prog s.current)

theorem yields_methods {earlier : Array (FunctionDecl Stmt)}
    (hfunction : YieldsFunction ts .method s (run (.function .method) ts s))
    (hself : ∀ earlier' s', Reached ts (s.current + 1) s' →
      YieldsMethods ts earlier' s' (run (.methods earlier') ts s')) :
    YieldsMethods ts earlier s (step run (.methods earlier) ts s) := by
  intro head cs prog X h
  obtain ⟨t, w, hrest⟩ := h.head
  refine meets_untilBrace hrest ?_ ?_
  · intro hend
    exact ⟨h, before_of_rest hrest hend⟩
  · -- a reader that expects a method expects the name of one
    intro hbrace heof
    have hname : Onward ts X (.functionName (.method head earlier)) cs prog s.current s := by
      refine h.stay hrest trivial trivial ?_
      simp [Reader.offer]
      rfl
    refine meets_bind (meets_yields (hfunction (.method head earlier) rfl) hname) ?_
    intro method s₁ hmethod
    have hle := hmethod.1.le
    refine (hself (earlier.push method) s₁ hmethod.1 head cs prog X
      ⟨hmethod.1.ended.reached, hmethod.2⟩).imp ?_ ?_
    · intro methods s₂ hend
      exact ⟨hend.1.mono (by omega), hend.2⟩
    · intro t' fault s₂ hbroken
      exact hbroken.mono (by omega)

/-- A class behind its head, whether it has a superclass or not. -/
theorem meets_classBody (head : ClassHead)
    (hmethods : ∀ s', Reached ts (i + 1) s' → YieldsMethods ts #[] s' (run (.methods #[]) ts s'))
    (h : Onward ts X (.classBodyOpen head) cs prog (i + 1) s) :
    ((do
      let _ ← consume .leftBrace .classBodyOpen
      let methods ← run (.methods #[])
      let _ ← consume .rightBrace .classBodyClose
      return .class head.name head.superclass methods.toList : Parser Stmt) ts s).Meets
        (fun stmt s' => Onward ts X (.finished stmt) cs prog (i + 1) s')
        (Broken ts X cs prog i) := by
  obtain ⟨t, w, hrest⟩ := h.head
  have hle := h.1.le
  refine meets_token (.member head #[]) cs h hrest (by decide) trivial (Nat.le_succ _) ?_ ?_ ?_
  · intro ht
    simp [Reader.offer]
    rfl
  · intro ht
    simp [Reader.offer, Reader.expecting, ht]
  intro _ hopen
  have hle' := hopen.1.le
  refine meets_bind ((hmethods s.next (hopen.1.mono (by omega)) head cs prog X
    ⟨hopen.1.ended.reached, hopen.2⟩).imp (fun _ _ => id) ?_) ?_
  · intro t' fault s' hbroken
    exact hbroken.mono (by omega)
  rintro methods s₁ ⟨hmember, hbefore⟩
  obtain ⟨t₁, w₁, hrest₁⟩ := hmember.head
  have hle₁ := hmember.1.le
  have hend : t₁.kind = .rightBrace ∨ t₁.kind = .eof := hbefore.head hrest₁
  refine meets_token (.finished (.class head.name head.superclass methods.toList)) cs hmember hrest₁
    (by decide) trivial (by omega) ?_ ?_ ?_
  · intro hbrace
    simp [Reader.offer, hend.resolve_left hbrace]
    rfl
  · intro hbrace
    simp [Reader.offer, Reader.expecting, hbrace]
  · intro _ hfinished
    exact hfinished.mono (by omega)

theorem yields_class
    (hmethods : ∀ s', Reached ts (s.current + 1) s' →
      YieldsMethods ts #[] s' (run (.methods #[]) ts s')) :
    Yields ts .className .finished s (step run .classDeclaration ts s) := by
  intro cs prog X h
  obtain ⟨name, w, hrest⟩ := h.head
  refine meets_token (.superclass name) cs h hrest (by decide) trivial (Nat.le_refl _) ?_ ?_ ?_
  · intro ht
    simp [Reader.offer]
    rfl
  · intro ht
    simp [Reader.offer, Reader.expecting, ht]
  intro _ hname
  obtain ⟨t₁, w₁, hrest₁⟩ := hname.head
  refine meets_optionalAfter (by decide) hrest₁ ?_ ?_
  · intro ht₁
    have hless : Onward ts X (.superclassName name) cs prog (s.next.current + 1) s.next.next := by
      refine hname.next hrest₁ (by simp [ht₁]) ?_
      simp [Reader.offer, Reader.expecting, ht₁]
    obtain ⟨parent, w₂, hrest₂⟩ := hless.head
    have hX := hless.2
    rw [hrest₂] at hX
    have hnumbered : ((consume .identifier .superclassName >>= number) ts s.next.next).Meets
        (fun occurrence s' =>
          Onward ts X (.classBodyOpen ⟨name, some occurrence⟩) cs prog (s.current + 1) s')
        (Broken ts X cs prog s.current) := by
      refine meets_consume (by decide) hrest₂ ?_ ?_
      · intro ht₂
        have hne : parent.kind ≠ .eof := by simp [ht₂]
        refine ⟨⟨?_, (hless.1.ended.next hrest₂ hne).congr rfl⟩, ?_⟩
        · show s.current + 1 ≤ s.current + 1 + 1 + 1
          omega
        · rw [hX, read_next hne, ← rest_next hrest₂]
          congr 1
          simp [Reader.offer, ht₂]
          exact ⟨rfl, rfl⟩
      · intro ht₂
        refine hless.broken hrest₂ trivial ?_ ?_
        · show s.current ≤ s.current + 1 + 1
          omega
        · simp [Reader.offer]
          rfl
    exact meets_bind hnumbered fun occurrence s₂ hthere =>
      meets_classBody ⟨name, some occurrence⟩ hmethods hthere
  · -- a name that no superclass follows is a head already
    intro ht₁
    have hhead : Onward ts X (.classBodyOpen ⟨name, none⟩) cs prog (s.current + 1) s.next := by
      refine hname.stay hrest₁ trivial trivial ?_
      by_cases hbrace : t₁.kind = .leftBrace
      · simp [Reader.offer, Reader.expecting, hbrace]
      · simp [Reader.offer]
        rfl
    exact meets_classBody ⟨name, none⟩ hmethods hhead

/-! ## §2. Statements and declarations. -/

theorem yields_statement
    (hfor : YieldsFrom ts run (s.current + 1) .forOpen .finished .forStatement)
    (hif : YieldsFrom ts run (s.current + 1) .ifOpen .finished .ifStatement)
    (hwhile : YieldsFrom ts run (s.current + 1) .whileOpen .finished .whileStatement)
    (hreturn : ∀ s' keyword, Reached ts (s.current + 1) s' →
      ts[s'.current - 1]? = some keyword →
      Yields ts (.returnValue keyword) .finished s' (run .returnStatement ts s'))
    (hblock : ∀ s', Reached ts (s.current + 1) s' → YieldsBlock ts #[] s' (run (.block #[]) ts s'))
    (hprint : YieldsFrom ts run (s.current + 1) (.expression .print .empty) .finished
      .printStatement)
    (hexpression : Yields ts (.expression .statement .empty) .finished s
      (run .expressionStatement ts s)) :
    Yields ts .statement .finished s (step run .statement ts s) := by
  intro cs prog X h
  obtain ⟨t, w, hrest⟩ := h.head
  -- the keywords one after the other; behind its own a statement is read by its rule
  refine meets_accept (by decide) hrest ?_ ?_
  · intro ht
    exact meets_behind h hrest hfor (by simp [ht])
      (by simp [Reader.offer, Reader.offerStatement, Reader.expecting, ht])
  intro hneFor
  refine meets_accept (by decide) hrest ?_ ?_
  · intro ht
    exact meets_behind h hrest hif (by simp [ht])
      (by simp [Reader.offer, Reader.offerStatement, Reader.expecting, ht])
  intro hneIf
  refine meets_accept (by decide) hrest ?_ ?_
  · intro ht
    exact meets_behind h hrest hwhile (by simp [ht])
      (by simp [Reader.offer, Reader.offerStatement, Reader.expecting, ht])
  intro hneWhile
  refine meets_accept (by decide) hrest ?_ ?_
  · intro ht
    have hnext : Onward ts X (.returnValue t) cs prog (s.current + 1) s.next := by
      refine h.next hrest (by simp [ht]) ?_
      simp [Reader.offer, Reader.offerStatement, Reader.expecting, ht]
    have hrule := hreturn s.next t hnext.1 (getElem?_before_next hrest)
    refine (meets_yields hrule (hnext.mono (Nat.le_succ _))).imp ?_ (fun _ _ _ => id)
    intro stmt s' hend
    exact hend.mono (Nat.le_succ _)
  intro hneReturn
  refine meets_accept (by decide) hrest ?_ ?_
  · intro ht
    have hopen : Onward ts X .declaration (.block #[] :: cs) prog (s.current + 1) s.next := by
      refine h.next hrest (by simp [ht]) ?_
      simp [Reader.offer, Reader.offerStatement, Reader.opening, ht]
    refine meets_bind ((hblock s.next hopen.1 .block cs prog X
      ⟨hopen.1.ended.reached, hopen.2⟩).imp (fun _ _ => id) ?_) ?_
    · intro t' fault s' hbroken
      exact hbroken.mono (Nat.le_succ _)
    · intro stmts s' hclosed
      exact hclosed.mono (Nat.le_succ _)
  intro hneBrace
  refine meets_accept (by decide) hrest ?_ ?_
  · intro ht
    exact meets_behind h hrest hprint (by simp [ht])
      (by simp [Reader.offer, Reader.offerStatement, Reader.expecting, ht])
  intro hnePrint
  -- without a keyword the token is the first one of an expression
  have hclause : Onward ts X (.expression .statement .empty) cs prog s.current s := by
    refine h.stay hrest trivial trivial ?_
    simp [Reader.offer, Reader.offerStatement]
    rfl
  exact meets_yields hexpression hclause

/-- What is expected where a token begins a declaration. -/
def opener : TokenKind → Expect
  | .kwClass | .kwFun | .kwVar => .declaration
  | _ => .statement

/-- **A declaration that may fail goes well.** -/
def YieldsAttempt (ts : List Token) (s : State) (o : Outcome Stmt) : Prop :=
  ∀ t w, s.rest ts = t :: w → Yields ts (opener t.kind) .finished s o

theorem yields_attempt
    (hclass : YieldsFrom ts run (s.current + 1) .className .finished .classDeclaration)
    (hfunction : ∀ s', Reached ts (s.current + 1) s' →
      YieldsFunction ts .function s' (run (.function .function) ts s'))
    (hvar : YieldsFrom ts run (s.current + 1) (.variableName .declaration) .finished
      .varDeclaration)
    (hstatement : Yields ts .statement .finished s (run .statement ts s)) :
    YieldsAttempt ts s (step run .attempt ts s) := by
  intro t w hrest cs prog X h
  have hoffer : ∀ {y : Expect}, opener t.kind = .declaration →
      (∀ r : Reader, r.offerDeclaration t = r.expecting y) →
      Reader.offer ⟨opener t.kind, cs, prog, s.ledger⟩ t = ⟨y, cs, prog, s.ledger⟩ := by
    intro y hopener hdeclaration
    rw [hopener]
    exact hdeclaration _
  refine meets_accept (by decide) hrest ?_ ?_
  · intro ht
    refine meets_behind h hrest hclass (by simp [ht]) (hoffer (by rw [ht]; rfl) fun r => ?_)
    rw [Reader.offerDeclaration_of_ne (by simp [ht]), ht]
  intro hneClass
  refine meets_accept (by decide) hrest ?_ ?_
  · intro ht
    refine meets_bind (meets_behind h hrest (fun s' h => hfunction s' h .function rfl)
      (by simp [ht]) (hoffer (by rw [ht]; rfl) fun r => ?_)) (fun _ _ => id)
    rw [Reader.offerDeclaration_of_ne (by simp [ht]), ht]
  intro hneFun
  refine meets_accept (by decide) hrest ?_ ?_
  · intro ht
    refine meets_behind h hrest hvar (by simp [ht]) (hoffer (by rw [ht]; rfl) fun r => ?_)
    rw [Reader.offerDeclaration_of_ne (by simp [ht]), ht]
  intro hneVar
  -- what starts with none of the three keywords is a statement
  have hopener : opener t.kind = .statement := by
    unfold opener
    split
    · next hk => exact absurd hk hneClass
    · next hk => exact absurd hk hneFun
    · next hk => exact absurd hk hneVar
    · rfl
  rw [hopener] at h
  exact meets_yields hstatement h

/-! ## §3. Starting again. -/

section Recovery

variable {b : Bool} {l : Ledger} {fault : SyntaxFault}

/-- At the end of the input nothing is skipped. -/
theorem read_recovery_eof (ht : t.kind = .eof) :
    read ⟨.recovery b, cs, prog, l⟩ (t :: w) = read ⟨.declaration, cs, prog, l⟩ (t :: w) := by
  rw [read_eof ht, read_eof ht]
  rfl

/-- Behind a semicolon, and in front of a token that starts a declaration, nothing is
skipped either. -/
theorem read_recovery (h : b ∨ Reader.startsDeclaration t.kind) :
    read ⟨.recovery b, cs, prog, l⟩ (t :: w) = read ⟨.declaration, cs, prog, l⟩ (t :: w) := by
  by_cases ht : t.kind = .eof
  · exact read_recovery_eof ht
  · rw [read_next ht, read_next ht]
    congr 1
    show (if b || Reader.startsDeclaration t.kind then _ else _) = _
    rw [if_pos (by simpa using h)]
    rfl

theorem read_skip (ht : t.kind ≠ .eof) (hb : b = false)
    (hstarts : Reader.startsDeclaration t.kind = false) :
    read ⟨.recovery b, cs, prog, l⟩ (t :: w)
      = read ⟨.recovery (t.kind = .semicolon), cs, prog, l⟩ w := by
  rw [read_next ht]
  congr 1
  show (if b || Reader.startsDeclaration t.kind then _ else _) = _
  rw [if_neg (by simp [hb, hstarts])]
  rfl

/-- Where a declaration can begin, no statement is dropped by a failure. -/
theorem fail_declarable (hcs : declarable cs) :
    Reader.fail ⟨.declaration, cs, prog, l⟩ t fault
      = ⟨.recovery (t.kind = .semicolon), cs, prog, l.report t fault⟩ := by
  have hdrop : cs.dropWhile (!·.isBlock) = cs := by
    cases cs with
    | nil => rfl
    | cons c cs =>
      have hc : c.isBlock = true := hcs
      rw [List.dropWhile_cons_of_neg (by simp [hc])]
  unfold Reader.fail Reader.report
  rw [hdrop]

theorem failing_eof (hcs : declarable cs) (ht : t.kind = .eof) :
    failing ⟨.declaration, cs, prog, l⟩ t fault w
      = read ⟨.recovery b, cs, prog, l.report t fault⟩ (t :: w) := by
  rw [failing, if_pos ht, fail_declarable hcs, read_eof ht]
  rfl

theorem failing_next (hcs : declarable cs) (ht : t.kind ≠ .eof) :
    failing ⟨.declaration, cs, prog, l⟩ t fault w
      = read ⟨.recovery (t.kind = .semicolon), cs, prog, l.report t fault⟩ w := by
  rw [failing, if_neg ht, fail_declarable hcs]

end Recovery

/-- **Skipping goes well**: it ends where a declaration can begin. -/
def YieldsSkip (ts : List Token) (s : State) (o : Outcome Unit) : Prop :=
  ∀ before cs prog X, ts[s.current - 1]? = some before →
    Onward ts X (.recovery (before.kind = .semicolon)) cs prog s.current s →
    o.Meets (fun _ s' => Onward ts X .declaration cs prog s.current s') (fun _ _ _ => False)

theorem yields_skip
    (hself : ∀ s', Reached ts (s.current + 1) s' → YieldsSkip ts s' (run .skip ts s')) :
    YieldsSkip ts s (step run .skip ts s) := by
  intro before cs prog X hbefore h
  obtain ⟨t, w, hrest⟩ := h.head
  have hX := h.2
  rw [hrest] at hX
  refine meets_isAtEnd hrest ?_ ?_
  · intro ht
    refine ⟨h.1, ?_⟩
    rw [hX, hrest]
    exact read_recovery_eof ht
  intro ht
  rw [bind_of_done (previous_eq hbefore)]
  by_cases hsemicolon : before.kind = .semicolon
  · rw [if_pos hsemicolon]
    refine ⟨h.1, ?_⟩
    rw [hX, hrest]
    exact read_recovery (.inl (decide_eq_true hsemicolon))
  rw [if_neg hsemicolon, bind_of_done (peek_eq hrest)]
  by_cases hstarts : Reader.startsDeclaration t.kind
  · rw [if_pos hstarts]
    refine ⟨h.1, ?_⟩
    rw [hX, hrest]
    exact read_recovery (.inr hstarts)
  rw [if_neg hstarts, bind_of_done (advance_eq hrest ht)]
  have hnext : Onward ts X (.recovery (t.kind = .semicolon)) cs prog (s.current + 1) s.next := by
    refine ⟨⟨Nat.le_refl _, h.1.ended.next hrest ht⟩, ?_⟩
    rw [hX, read_skip ht (by simpa using hsemicolon) (by simpa using hstarts), rest_next hrest]
    rfl
  refine (hself s.next hnext.1 t cs prog X (getElem?_before_next hrest) hnext).imp ?_
    (fun _ _ _ => id)
  intro _ s' hend
  exact hend.mono (Nat.le_succ _)

theorem meets_rescue {α : Type} {p : Parser α} {handler : Token → SyntaxFault → Parser α}
    {good : α → State → Prop} {mid bad : Token → SyntaxFault → State → Prop}
    (h : (p ts s).Meets good mid)
    (hhandler : ∀ t fault s', mid t fault s' → (handler t fault ts s').Meets good bad) :
    (rescue p handler ts s).Meets good bad := by
  unfold rescue
  cases hp : p ts s with
  | done a s' =>
    rw [hp] at h
    exact h
  | failed t fault s' =>
    rw [hp] at h
    exact hhandler t fault s' h
  | outOfBounds =>
    rw [hp] at h
    exact h
  | outOfFuel =>
    rw [hp] at h
    exact h

/-- A token with which no block ends begins a declaration, or a statement. -/
theorem read_opener {l : Ledger} (ht : t.kind ≠ .eof) (hcs : t.kind = .rightBrace → cs = []) :
    read ⟨.declaration, cs, prog, l⟩ (t :: w) = read ⟨opener t.kind, cs, prog, l⟩ (t :: w) := by
  by_cases hopener : opener t.kind = .declaration
  · rw [hopener]
  have hstatement : opener t.kind = .statement ∧ t.kind ≠ .kwClass ∧ t.kind ≠ .kwFun
      ∧ t.kind ≠ .kwVar := by
    unfold opener at hopener ⊢
    split at hopener
    · exact absurd rfl hopener
    · exact absurd rfl hopener
    · exact absurd rfl hopener
    · next hclass hfun hvar => exact ⟨rfl, hclass, hfun, hvar⟩
  obtain ⟨hx, hclass, hfun, hvar⟩ := hstatement
  rw [hx, read_next ht, read_next ht]
  congr 1
  show Reader.offerDeclaration _ t = Reader.offerStatement _ t
  by_cases hbrace : t.kind = .rightBrace
  · -- at the top no block can end
    obtain rfl := hcs hbrace
    unfold Reader.offerDeclaration
    rw [hbrace]
    rfl
  · rw [Reader.offerDeclaration_of_ne hbrace]
    split
    · next hk => exact absurd hk hclass
    · next hk => exact absurd hk hfun
    · next hk => exact absurd hk hvar
    · rfl

theorem yields_declaration (hattempt : YieldsAttempt ts s (run .attempt ts s))
    (hskip : ∀ s', Reached ts s.current s' → YieldsSkip ts s' (run .skip ts s')) :
    YieldsDeclaration ts s (step run .declaration ts s) := by
  intro cs prog X t w h hcs hrest ht hbrace
  have hopener : Onward ts X (opener t.kind) cs prog s.current s := by
    refine ⟨h.1, ?_⟩
    rw [h.2, hrest]
    exact read_opener ht hbrace
  have hsome : ((do return some (← run .attempt) : Parser (Option Stmt)) ts s).Meets
      (fun stmt s' => Reached ts (s.current + 1) s'
        ∧ X = read (keep ⟨.declaration, cs, prog, s'.ledger⟩ stmt) (s'.rest ts))
      (Broken ts X cs prog s.current) := by
    refine meets_bind (meets_yields (hattempt t w hrest) hopener) ?_
    intro stmt s' hend
    obtain ⟨t', w', hrest'⟩ := hend.head
    refine ⟨hend.1, ?_⟩
    have hawaits : Reader.awaitsElse cs = false := by
      cases hawaits : Reader.awaitsElse cs with
      | false => rfl
      | true => rw [not_declarable_of_awaitsElse hawaits] at hcs; cases hcs
    -- no `if` is open in the innermost block, so no `else` can claim the statement
    rw [hend.2, hrest', read_place (s := stmt) rfl fun _ => hawaits]
    congr 1
    exact place_congr (by rfl) (by rfl) stmt
  refine meets_rescue hsome ?_
  rintro t₁ fault s₁ ⟨hreached, w₁, hrest₁, hX⟩
  -- the failure is reported, its token is passed, and others are skipped
  let s₂ : State := { s₁ with ledger := s₁.ledger.report t₁ fault }
  have hrest₂ : s₂.rest ts = t₁ :: w₁ := hrest₁
  have hended₂ : Ended ts s₂ := hreached.ended.congr rfl
  have hskipped : ∀ {s₃ : State} {before : Token}, Reached ts (s.current + 1) s₃ →
      ts[s₃.current - 1]? = some before →
      X = read ⟨.recovery (before.kind = .semicolon), cs, prog, s₃.ledger⟩ (s₃.rest ts) →
      ((run .skip >>= fun _ => pure none) ts s₃).Meets
        (fun stmt s' => Reached ts (s.current + 1) s'
          ∧ X = read (keep ⟨.declaration, cs, prog, s'.ledger⟩ stmt) (s'.rest ts))
        (fun _ _ _ => False) := by
    intro s₃ before hreached₃ hbefore hX₃
    have hle := hreached₃.le
    refine meets_bind (hskip s₃ (hreached₃.mono (Nat.le_succ _)) before cs prog X hbefore
      ⟨hreached₃.ended.reached, hX₃⟩) ?_
    intro _ s₄ hend
    exact ⟨hend.1.mono hle, hend.2⟩
  show ((advance >>= _) ts s₂).Meets _ _
  by_cases ht₁ : t₁.kind = .eof
  · obtain ⟨before, hadvance⟩ := advance_eof hrest₂ ht₁
    rw [bind_of_done hadvance]
    -- the cursor was not at the end of the input when the declaration began
    have hlt : s.current < s₁.current := by
      refine Nat.lt_of_le_of_ne hreached.le fun heq => ht ?_
      have hsame : s₁.rest ts = s.rest ts := by
        unfold State.rest
        rw [heq]
      rw [hrest₁, hrest] at hsame
      rw [← (List.cons.inj hsame).1, ht₁]
    obtain ⟨before', hbefore⟩ := hended₂.exists_before
    refine hskipped ⟨hlt, hended₂⟩ hbefore ?_
    rw [hX, hrest₂]
    exact failing_eof hcs ht₁
  · rw [bind_of_done (advance_eq hrest₂ ht₁)]
    refine hskipped ⟨Nat.succ_le_succ hreached.le, hended₂.next hrest₂ ht₁⟩
      (getElem?_before_next hrest₂) ?_
    rw [hX, rest_next hrest₂]
    exact failing_next hcs ht₁

/-! ## §4. The whole input. -/

/-- **The declarations up to the end of the input go well**, behind some earlier ones. -/
def YieldsProgram (ts : List Token) (earlier : Array Stmt) (s : State)
    (o : Outcome (Array Stmt)) : Prop :=
  ∀ X, Onward ts X .declaration [] earlier s.current s →
    o.Meets (fun stmts s' => Reached ts s.current s' ∧ Before ts (· = .eof) s'
        ∧ X = output ⟨.declaration, [], stmts, s'.ledger⟩)
      (fun _ _ _ => False)

theorem yields_program {earlier : Array Stmt}
    (hdeclaration : YieldsDeclaration ts s (run .declaration ts s))
    (hself : ∀ earlier' s', Reached ts (s.current + 1) s' →
      YieldsProgram ts earlier' s' (run (.program earlier') ts s')) :
    YieldsProgram ts earlier s (step run (.program earlier) ts s) := by
  intro X h
  obtain ⟨t, w, hrest⟩ := h.head
  refine meets_isAtEnd hrest ?_ ?_
  · intro ht
    refine ⟨h.1, before_of_rest hrest ht, ?_⟩
    rw [h.2, hrest, read_eof ht]
    rfl
  · intro ht
    refine meets_bind (hdeclaration [] earlier X t w h rfl hrest ht (fun _ => rfl)) ?_
    rintro stmt s₁ ⟨hreached, hX⟩
    rw [keep_top] at hX
    have hle := hreached.le
    refine (hself _ s₁ hreached X ⟨hreached.ended.reached, hX⟩).imp ?_ (fun _ _ _ => id)
    rintro stmts s₂ ⟨hreached₂, hend⟩
    exact ⟨hreached₂.mono (by omega), hend⟩

/-- **An expression that is all of the input goes well.** -/
def YieldsLone (ts : List Token) (s : State) (o : Outcome Expr) : Prop :=
  o.Meets
    (fun e s' => Reached ts s.current s' ∧ Before ts (· = .eof) s'
      ∧ loneExpressionFrom .empty s.ledger (s.rest ts)
        = ⟨some e, s'.ledger.failures.toList, s'.ledger.nextId⟩)
    (fun t fault s' => Reached ts s.current s' ∧ ts[s'.current]? = some t
      ∧ loneExpressionFrom .empty s.ledger (s.rest ts) = .failed s'.ledger t fault)

theorem yields_lone (hexpression : Reads ts .operand 0 1 s (run .expression ts s)) :
    YieldsLone ts s (step run .wholeExpression ts s) := by
  refine meets_bind ((hexpression.whole (Nat.le_refl _)).imp (fun _ _ => id) ?_) ?_
  · rintro t fault s' ⟨hreached, w, hrest, hfeed⟩
    exact ⟨hreached, getElem?_of_rest hrest, lone_refused hfeed⟩
  · rintro e s₁ ⟨hreached, hfollowed, hfeed⟩
    obtain ⟨t, w, hrest⟩ := hreached.ended.head
    rw [hrest] at hfollowed hfeed
    rw [feed_whole hfollowed] at hfeed
    have hlone := lone_whole hfeed
    have hfrom : Reached ts s.current s₁ := hreached.mono (Nat.le_succ _)
    refine meets_isAtEnd hrest ?_ ?_
    · intro ht
      rw [if_pos ht] at hlone
      exact ⟨hfrom, before_of_rest hrest ht, hlone⟩
    · intro ht
      rw [if_neg ht] at hlone
      rw [bind_of_done (peek_eq hrest)]
      exact ⟨hfrom, getElem?_of_rest hrest, hlone⟩

end Lox.Descent
