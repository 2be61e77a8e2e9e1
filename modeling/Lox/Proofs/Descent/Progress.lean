/-
  Lox.Proofs.Descent.Progress
  ───────────────────────────
  **THE CURSOR STAYS INSIDE OF THE INPUT, AND NEVER GOES BACK.**

  This holds of each rule with any number of calls, and from any place with an end of
  input ahead, also from places where the rule is never called.  It is a property that is
  kept when one parser follows another (`gains_bind`, `gains_first`), so a rule has
  it because its parts have it.

  Main results:
    * `descend_gains`: no rule asks for a token that is not there, or moves the cursor back;
      all but a few take at least a token when they succeed.
    * `declaration_gains`: a declaration takes a token even if it fails.
    * `program_round`, `block_round`, `methods_round`: each round of a loop takes at
      least a token, or leaves the loop.
-/
import Lox.Proofs.Descent.Cursor

namespace Lox.Descent

open Grammar (Level)
open Descent.Parser

/-! ## §1. Safe outcomes. -/

/-- **A safe outcome** of a parser that began at the place `i`: if it is done, the cursor is at
least `k` tokens further; if it failed, the cursor is at the token that is to blame and
not before `i`; and no token was asked for outside of the list. -/
def Outcome.Safe {α : Type} (ts : List Token) (k i : Nat) (o : Outcome α) : Prop :=
  match o with
  | .done _ s => Reached ts (i + k) s
  | .failed t _ s => Reached ts i s ∧ ts[s.current]? = some t
  | .outOfBounds => False
  | .outOfFuel => True

/-- A parser with safe outcomes only, that takes at least `k` tokens if it succeeds. -/
def Gains {α : Type} (ts : List Token) (k : Nat) (p : Parser α) : Prop :=
  ∀ s, Ended ts s → (p ts s).Safe ts k s.current

section Gains

variable {α β : Type} {ts : List Token} {k m : Nat} {s : State}

theorem Outcome.Safe.mono {i j : Nat} {o : Outcome α} (h : o.Safe ts k j) (hij : i ≤ j)
    (hkm : i + m ≤ j + k) : o.Safe ts m i := by
  cases o with
  | done a s => exact Reached.mono h hkm
  | failed t fault s => exact ⟨h.1.mono hij, h.2⟩
  | outOfBounds => exact h
  | outOfFuel => exact h

theorem Gains.loosen {p : Parser α} (h : Gains ts k p) : Gains ts 0 p :=
  fun s hs => (h s hs).mono (Nat.le_refl _) (Nat.le_add_right _ _)

/-- One parser after another. -/
theorem safe_bind {p : Parser α} {f : α → Parser β} (h : (p ts s).Safe ts k s.current)
    (hf : ∀ a, Gains ts m (f a)) : ((p >>= f) ts s).Safe ts (k + m) s.current := by
  show ((p ts s).bind fun a s' => f a ts s').Safe ts (k + m) s.current
  cases hp : p ts s with
  | done a s' =>
    rw [hp] at h
    have hle : s.current + k ≤ s'.current := h.le
    exact (hf a s' h.ended).mono (by omega) (by omega)
  | failed t fault s' =>
    rw [hp] at h
    exact h
  | outOfBounds =>
    rw [hp] at h
    exact h
  | outOfFuel => exact trivial

/-- What comes second takes the tokens. -/
theorem gains_bind {p : Parser α} {f : α → Parser β} (h : Gains ts 0 p)
    (hf : ∀ a, Gains ts k (f a)) : Gains ts k (p >>= f) := by
  intro s hs
  have hsafe := safe_bind (h s hs) hf
  rwa [Nat.zero_add] at hsafe

/-- What comes first takes the tokens. -/
theorem gains_first {p : Parser α} {f : α → Parser β} (h : Gains ts k p)
    (hf : ∀ a, Gains ts 0 (f a)) : Gains ts k (p >>= f) :=
  fun s hs => safe_bind (h s hs) hf

theorem gains_pure (a : α) : Gains ts 0 (pure a : Parser α) :=
  fun _ hs => hs.reached

theorem gains_ite {c : Prop} [Decidable c] {p q : Parser α} (hp : Gains ts k p)
    (hq : Gains ts k q) : Gains ts k (if c then p else q) := by
  split
  · exact hp
  · exact hq

/-! ## §2. Looking at a token. -/

theorem gains_report (t : Token) (fault : SyntaxFault) : Gains ts 0 (report t fault) :=
  fun _ hs => ⟨Nat.le_refl _, hs.congr rfl⟩

theorem gains_number (name : Token) : Gains ts 0 (number name) :=
  fun _ hs => ⟨Nat.le_refl _, hs.congr rfl⟩

theorem gains_peek : Gains ts 0 peek := by
  intro s hs
  obtain ⟨t, w, hrest⟩ := hs.head
  rw [peek_eq hrest]
  exact hs.reached

theorem gains_previous : Gains ts 0 previous := by
  intro s hs
  obtain ⟨before, hbefore⟩ := hs.exists_before
  rw [previous_eq hbefore]
  exact hs.reached

theorem gains_isAtEnd : Gains ts 0 isAtEnd :=
  gains_bind gains_peek fun _ => gains_pure _

theorem gains_check (kind : TokenKind) : Gains ts 0 (check kind) :=
  gains_bind gains_isAtEnd fun _ =>
    gains_ite (gains_pure _) (gains_bind gains_peek fun _ => gains_pure _)

/-- Taking a token does not pass the end of the input. -/
theorem gains_advance : Gains ts 0 advance := by
  intro s hs
  obtain ⟨t, w, hrest⟩ := hs.head
  by_cases ht : t.kind = .eof
  · obtain ⟨t', hadvance⟩ := advance_eof hrest ht
    rw [hadvance]
    exact hs.reached
  · rw [advance_eq hrest ht]
    exact ⟨Nat.le_succ _, hs.next hrest ht⟩

theorem gains_accept (kind : TokenKind) : Gains ts 0 (accept kind) :=
  gains_bind (gains_check kind) fun _ =>
    gains_ite (gains_bind gains_advance fun _ => gains_pure _) (gains_pure _)

theorem gains_acceptAny (kinds : List TokenKind) : Gains ts 0 (acceptAny kinds) := by
  induction kinds with
  | nil => exact gains_pure _
  | cons kind kinds ih => exact gains_bind (gains_accept kind) fun _ => gains_ite (gains_pure _) ih

/-- A failure at the token under the cursor. -/
theorem gains_refuse (fault : SyntaxFault) :
    Gains ts k (peek >>= fun t => fail t fault : Parser α) := by
  intro s hs
  obtain ⟨t, w, hrest⟩ := hs.head
  rw [bind_of_done (peek_eq hrest)]
  exact ⟨hs.reached, getElem?_of_rest hrest⟩

/-- A token that must come is taken, or it is to blame. -/
theorem gains_consume {kind : TokenKind} (hk : kind ≠ .eof) (fault : SyntaxFault) :
    Gains ts 1 (consume kind fault) := by
  intro s hs
  obtain ⟨t, w, hrest⟩ := hs.head
  unfold consume
  rw [bind_of_done (check_eq hk hrest)]
  by_cases ht : t.kind = kind
  · rw [if_pos (decide_eq_true ht), advance_eq hrest (ht ▸ hk)]
    exact ⟨Nat.le_refl _, hs.next hrest (ht ▸ hk)⟩
  · rw [if_neg (by simpa using ht)]
    exact gains_refuse fault s hs

theorem gains_optionalBefore {p : Parser α} (kind : TokenKind) (h : Gains ts 0 p) :
    Gains ts 0 (optionalBefore kind p) :=
  gains_bind (gains_check kind) fun _ =>
    gains_ite (gains_pure _) (gains_bind h fun _ => gains_pure _)

theorem gains_optionalAfter {p : Parser α} (kind : TokenKind) (h : Gains ts 0 p) :
    Gains ts 0 (optionalAfter kind p) :=
  gains_bind (gains_accept kind) fun _ =>
    gains_ite (gains_bind h fun _ => gains_pure _) (gains_pure _)

theorem gains_listBefore {p : Parser (Array α)} (kind : TokenKind) (h : Gains ts 0 p) :
    Gains ts 0 (listBefore kind p) :=
  gains_bind (gains_check kind) fun _ => gains_ite (gains_pure _) h

theorem gains_limit (size : Nat) (fault : SyntaxFault) : Gains ts 0 (limit size fault) :=
  gains_ite (gains_bind gains_peek fun _ => gains_report _ _) (gains_pure _)

theorem gains_rescue {p : Parser α} {handler : Token → SyntaxFault → Parser α} (h : Gains ts 0 p)
    (hhandler : ∀ t fault, Gains ts 0 (handler t fault)) : Gains ts 0 (rescue p handler) := by
  intro s hs
  have hsafe := h s hs
  unfold rescue
  cases hp : p ts s with
  | done a s' =>
    rw [hp] at hsafe
    exact hsafe
  | failed t fault s' =>
    rw [hp] at hsafe
    exact (hhandler t fault s' hsafe.1.ended).mono hsafe.1.le hsafe.1.le
  | outOfBounds =>
    rw [hp] at hsafe
    exact hsafe
  | outOfFuel => exact trivial

end Gains

/-! ## §3. The rules. -/

/-- How many tokens a rule takes at least if it succeeds. -/
def Production.gain : {α : Type} → Production α → Nat
  | _, .program _ | _, .declaration | _, .skip | _, .methods _ | _, .forInitializer
  | _, .operators _ _ | _, .calls _ => 0
  | _, _ => 1

section Rules

variable {ts : List Token} {run : {α : Type} → Production α → Parser α}

theorem gain_operand (l : Level) : (Production.operand l).gain = 1 := by
  cases l <;> rfl

/-- An operand starts with a token, which is taken. -/
theorem gains_primary (hexpression : Gains ts 0 (run .expression)) :
    Gains ts 1 (step run .primary) := by
  intro s hs
  obtain ⟨t, w, hrest⟩ := hs.head
  rw [step, bind_of_done (peek_eq hrest)]
  have htaken : ∀ {β : Type} {f : Token → Parser β}, t.kind ≠ .eof → (∀ a, Gains ts 0 (f a)) →
      ((advance >>= f) ts s).Safe ts 1 s.current := by
    intro β f ht hf
    refine safe_bind (k := 1) (m := 0) ?_ hf
    rw [advance_eq hrest ht]
    exact ⟨Nat.le_refl _, hs.next hrest ht⟩
  cases hk : t.kind with
  | kwFalse | kwTrue | kwNil | number | string =>
    exact htaken (by simp [hk]) fun _ => gains_pure _
  | kwThis | identifier =>
    exact htaken (by simp [hk]) fun _ => gains_bind (gains_number _) fun _ => gains_pure _
  | kwSuper =>
    refine htaken (by simp [hk]) fun keyword => ?_
    exact gains_bind (gains_consume (by decide) _).loosen fun _ =>
      gains_bind (gains_consume (by decide) _).loosen fun _ =>
        gains_bind (gains_number _) fun _ => gains_pure _
  | leftParen =>
    refine htaken (by simp [hk]) fun _ => ?_
    exact gains_bind hexpression fun _ =>
      gains_bind (gains_consume (by decide) _).loosen fun _ => gains_pure _
  | _ => exact ⟨hs.reached, getElem?_of_rest hrest⟩

/-- **A rule is safe** if the rules that it calls are. -/
theorem step_gains (hrun : ∀ {α : Type} (p : Production α), Gains ts p.gain (run p)) :
    ∀ {α : Type} (p : Production α), Gains ts p.gain (step run p) := by
  have hsafe : ∀ {α : Type} (p : Production α), Gains ts 0 (run p) := fun p => (hrun p).loosen
  have hbrace : ∀ {α : Type} {k : Nat} {p q : Parser α}, Gains ts k p → Gains ts k q →
      Gains ts k (do if (← check .rightBrace) || (← isAtEnd) then p else q) :=
    fun hp hq => gains_bind (gains_check _) fun _ => gains_bind gains_isAtEnd fun _ =>
      gains_ite hp hq
  intro α p
  -- one case for each rule: its parts in a row, with the part first that takes a token
  cases p with
  | program earlier =>
    exact gains_bind gains_isAtEnd fun _ => gains_ite (gains_pure _) <|
      gains_bind (hrun .declaration) fun _ => hrun (.program _)
  | wholeExpression =>
    exact gains_first (hrun .expression) fun _ => gains_bind gains_isAtEnd fun _ =>
      gains_ite (gains_pure _) (gains_refuse _)
  | declaration =>
    refine gains_rescue (gains_bind (hsafe .attempt) fun _ => gains_pure _) fun t fault => ?_
    exact gains_bind (gains_report t fault) fun _ => gains_bind gains_advance fun _ =>
      gains_bind (hrun .skip) fun _ => gains_pure _
  | skip =>
    exact gains_bind gains_isAtEnd fun _ => gains_ite (gains_pure _) <|
      gains_bind gains_previous fun _ => gains_ite (gains_pure _) <|
      gains_bind gains_peek fun _ => gains_ite (gains_pure _) <|
      gains_bind gains_advance fun _ => hrun .skip
  | attempt =>
    exact gains_bind (gains_accept _) fun _ => gains_ite (hrun .classDeclaration) <|
      gains_bind (gains_accept _) fun _ => gains_ite
        (gains_first (hrun (.function .function)) fun _ => gains_pure _) <|
      gains_bind (gains_accept _) fun _ => gains_ite (hrun .varDeclaration) (hrun .statement)
  | classDeclaration =>
    exact gains_first (gains_consume (by decide) _) fun _ =>
      gains_bind (gains_optionalAfter _ (gains_bind (gains_consume (by decide) _).loosen
        fun _ => gains_number _)) fun _ =>
      gains_bind (gains_consume (by decide) _).loosen fun _ =>
      gains_bind (hrun (.methods #[])) fun _ =>
      gains_bind (gains_consume (by decide) _).loosen fun _ => gains_pure _
  | methods earlier =>
    exact hbrace (gains_pure _) (gains_bind (hsafe (.function .method)) fun _ => hrun (.methods _))
  | function kind =>
    exact gains_first (gains_consume (by decide) _) fun _ =>
      gains_bind (gains_consume (by decide) _).loosen fun _ =>
      gains_bind (gains_listBefore _ (hsafe (.parameters #[]))) fun _ =>
      gains_bind (gains_consume (by decide) _).loosen fun _ =>
      gains_bind (gains_consume (by decide) _).loosen fun _ =>
      gains_bind (hsafe (.block #[])) fun _ => gains_pure _
  | parameters earlier =>
    exact gains_bind (gains_limit _ _) fun _ =>
      gains_first (gains_consume (by decide) _) fun _ =>
      gains_bind (gains_accept _) fun _ => gains_ite (hsafe (.parameters _)) (gains_pure _)
  | varDeclaration =>
    exact gains_first (gains_consume (by decide) _) fun _ =>
      gains_bind (gains_optionalAfter _ (hsafe .expression)) fun _ =>
      gains_bind (gains_consume (by decide) _).loosen fun _ => gains_pure _
  | statement =>
    exact gains_bind (gains_accept _) fun _ => gains_ite (hrun .forStatement) <|
      gains_bind (gains_accept _) fun _ => gains_ite (hrun .ifStatement) <|
      gains_bind (gains_accept _) fun _ => gains_ite (hrun .whileStatement) <|
      gains_bind (gains_accept _) fun _ => gains_ite (hrun .returnStatement) <|
      gains_bind (gains_accept _) fun _ => gains_ite
        (gains_first (hrun (.block #[])) fun _ => gains_pure _) <|
      gains_bind (gains_accept _) fun _ => gains_ite (hrun .printStatement)
        (hrun .expressionStatement)
  | forStatement =>
    exact gains_first (gains_consume (by decide) _) fun _ =>
      gains_bind (hrun .forInitializer) fun _ =>
      gains_bind (gains_optionalBefore _ (hsafe .expression)) fun _ =>
      gains_bind (gains_consume (by decide) _).loosen fun _ =>
      gains_bind (gains_optionalBefore _ (hsafe .expression)) fun _ =>
      gains_bind (gains_consume (by decide) _).loosen fun _ =>
      gains_bind (hsafe .statement) fun _ => gains_pure _
  | forInitializer =>
    exact gains_bind (gains_accept _) fun _ => gains_ite (gains_pure _) <|
      gains_bind (gains_accept _) fun _ => gains_ite
        (gains_bind (hsafe .varDeclaration) fun _ => gains_pure _)
        (gains_bind (hsafe .expressionStatement) fun _ => gains_pure _)
  | ifStatement =>
    exact gains_first (gains_consume (by decide) _) fun _ =>
      gains_bind (hsafe .expression) fun _ =>
      gains_bind (gains_consume (by decide) _).loosen fun _ =>
      gains_bind (hsafe .statement) fun _ =>
      gains_bind (gains_accept _) fun _ => gains_ite
        (gains_bind (hsafe .statement) fun _ => gains_pure _) (gains_pure _)
  | whileStatement =>
    exact gains_first (gains_consume (by decide) _) fun _ =>
      gains_bind (hsafe .expression) fun _ =>
      gains_bind (gains_consume (by decide) _).loosen fun _ =>
      gains_bind (hsafe .statement) fun _ => gains_pure _
  | returnStatement =>
    exact gains_bind gains_previous fun _ =>
      gains_bind (gains_optionalBefore _ (hsafe .expression)) fun _ =>
      gains_first (gains_consume (by decide) _) fun _ => gains_pure _
  | printStatement =>
    exact gains_first (hrun .expression) fun _ =>
      gains_bind (gains_consume (by decide) _).loosen fun _ => gains_pure _
  | expressionStatement =>
    exact gains_first (hrun .expression) fun _ =>
      gains_bind (gains_consume (by decide) _).loosen fun _ => gains_pure _
  | block earlier =>
    exact hbrace (gains_first (gains_consume (by decide) _) fun _ => gains_pure _)
      (gains_bind (hrun .declaration) fun _ => hrun (.block _))
  | expression => exact hrun .assignment
  | assignment =>
    refine gains_first (hrun (.binary .logicOr)) fun target => ?_
    refine gains_bind (gains_accept _) fun _ => gains_ite ?_ (gains_pure _)
    refine gains_bind gains_previous fun equals => gains_bind (hsafe .assignment) fun value => ?_
    split
    · exact gains_pure _
    · exact gains_bind (gains_report _ _) fun _ => gains_pure _
  | binary l =>
    have hoperand := hrun (.operand l)
    rw [gain_operand] at hoperand
    exact gains_first hoperand fun _ => hrun (.operators l _)
  | operators l left =>
    exact gains_bind (gains_acceptAny _) fun _ => gains_ite
      (gains_bind gains_previous fun _ => gains_bind (hsafe (.operand l)) fun _ =>
        hrun (.operators l _))
      (gains_pure _)
  | unary =>
    exact gains_bind (gains_acceptAny _) fun _ => gains_ite
      (gains_bind gains_previous fun _ => gains_first (hrun .unary) fun _ => gains_pure _)
      (hrun .call)
  | call => exact gains_first (hrun .primary) fun _ => hrun (.calls _)
  | calls e =>
    exact gains_bind (gains_accept _) fun _ => gains_ite
      (gains_bind (hsafe (.finishCall e)) fun _ => hrun (.calls _)) <|
      gains_bind (gains_accept _) fun _ => gains_ite
        (gains_bind (gains_consume (by decide) _).loosen fun _ => hrun (.calls _))
        (gains_pure _)
  | finishCall callee =>
    exact gains_bind (gains_listBefore _ (hsafe (.arguments #[]))) fun _ =>
      gains_first (gains_consume (by decide) _) fun _ => gains_pure _
  | arguments earlier =>
    exact gains_bind (gains_limit _ _) fun _ => gains_first (hrun .expression) fun _ =>
      gains_bind (gains_accept _) fun _ => gains_ite (hsafe (.arguments _)) (gains_pure _)
  | primary => exact gains_primary (hsafe .expression)

end Rules

/-- **Every rule is safe**, however many calls it may make. -/
theorem descend_gains {ts : List Token} (fuel : Nat) :
    ∀ {α : Type} (p : Production α), Gains ts p.gain (descend fuel p) := by
  induction fuel with
  | zero => exact fun p s _ => trivial
  | succ fuel ih => exact step_gains ih

/-! ## §4. The loops. -/

section Loops

variable {α β : Type} {ts : List Token} {s : State}

/-- **A declaration takes a token even if it fails**, where there is one: if it failed
at the token it began with, that one is skipped. -/
theorem declaration_gains {t : Token} {w : List Token} (fuel : Nat) (hs : Ended ts s)
    (hrest : s.rest ts = t :: w) (ht : t.kind ≠ .eof) :
    (descend fuel .declaration ts s).Safe ts 1 s.current := by
  cases fuel with
  | zero => trivial
  | succ fuel =>
    have hattempt : ((do return some (← descend fuel .attempt) : Parser (Option Stmt)) ts s).Safe ts
        1 s.current :=
      gains_first (descend_gains fuel .attempt) (fun _ => gains_pure _) s hs
    show (rescue _ _ ts s).Safe ts 1 s.current
    unfold rescue
    split
    · next t₁ fault s₁ hfailed =>
      rw [hfailed] at hattempt
      obtain ⟨hreached, hoffender⟩ := hattempt
      let s₂ : State := { s₁ with ledger := s₁.ledger.report t₁ fault }
      have hended₂ : Ended ts s₂ := hreached.ended.congr rfl
      have hskip : Gains ts 0 (descend fuel .skip >>= fun _ => pure none : Parser (Option Stmt)) :=
        gains_bind (descend_gains fuel .skip) fun _ => gains_pure _
      -- the token to blame is under the cursor, so it is the one that is passed
      obtain ⟨t₂, w₂, hrest₂⟩ := hended₂.head
      have hsame : t₂ = t₁ := by
        have hget := getElem?_of_rest hrest₂
        rw [show s₂.current = s₁.current from rfl, hoffender] at hget
        exact (Option.some.inj hget).symm
      subst hsame
      show ((advance >>= _) ts s₂).Safe ts 1 s.current
      by_cases ht₂ : t₂.kind = .eof
      · -- the declaration did not begin at the end of the input
        have hlt : s.current < s₁.current := by
          refine Nat.lt_of_le_of_ne hreached.le fun heq => ht ?_
          have hget := getElem?_of_rest hrest
          rw [heq, hoffender] at hget
          rw [← Option.some.inj hget, ht₂]
        exact (gains_bind gains_advance (fun _ => hskip) s₂ hended₂).mono (by exact hreached.le) hlt
      · rw [bind_of_done (advance_eq hrest₂ ht₂)]
        have hle : s.current + 1 ≤ s₂.next.current := Nat.succ_le_succ hreached.le
        exact (hskip s₂.next (hended₂.next hrest₂ ht₂)).mono (by omega) (by omega)
    · next o _ => exact hattempt

/-- **A round of a loop** at a place: the loop is left, or its body takes at least a token and
the loop goes on behind it, or the body fails and the loop with it. -/
def Round (s : State) (leave : Outcome α) (body : Outcome β) (again : β → State → Outcome α)
    (o : Outcome α) : Prop :=
  o = leave ∨
    match body with
    | .done b s' => s.current < s'.current ∧ o = again b s'
    | .failed t fault s' => o = .failed t fault s'
    | .outOfBounds => False
    | .outOfFuel => o = .outOfFuel

/-- A body that takes a token, and the loop behind it. -/
theorem round_of_body {leave : Outcome α} {p : Parser β} {f : β → Parser α}
    (h : (p ts s).Safe ts 1 s.current) :
    Round s leave (p ts s) (fun b s' => f b ts s') ((p >>= f) ts s) := by
  refine .inr ?_
  show match p ts s with
    | .done b s' => s.current < s'.current ∧ (p ts s).bind (fun b s' => f b ts s') = f b ts s'
    | .failed t fault s' => (p ts s).bind (fun b s' => f b ts s') = .failed t fault s'
    | .outOfBounds => False
    | .outOfFuel => (p ts s).bind (fun b s' => f b ts s') = .outOfFuel
  cases hp : p ts s with
  | done b s' =>
    rw [hp] at h
    exact ⟨h.le, rfl⟩
  | failed t fault s' => rfl
  | outOfBounds =>
    rw [hp] at h
    exact h
  | outOfFuel => rfl

theorem program_round (fuel : Nat) (earlier : Array Stmt) (hs : Ended ts s) :
    Round s (.done earlier s) (descend fuel .declaration ts s)
      (fun stmt => descend fuel (.program (kept earlier stmt)) ts)
      (descend (fuel + 1) (.program earlier) ts s) := by
  obtain ⟨t, w, hrest⟩ := hs.head
  show Round _ _ _ _ ((isAtEnd >>= _) ts s)
  rw [bind_of_done (isAtEnd_eq hrest)]
  by_cases ht : t.kind = .eof
  · rw [if_pos (decide_eq_true ht)]
    exact .inl rfl
  · rw [if_neg (by simpa using ht)]
    exact round_of_body (declaration_gains fuel hs hrest ht)

theorem block_round (fuel : Nat) (earlier : Array Stmt) (hs : Ended ts s) :
    Round s
      ((do let _ ← consume .rightBrace .blockClose; return earlier.toList :
        Parser (List Stmt)) ts s)
      (descend fuel .declaration ts s)
      (fun stmt => descend fuel (.block (kept earlier stmt)) ts)
      (descend (fuel + 1) (.block earlier) ts s) := by
  obtain ⟨t, w, hrest⟩ := hs.head
  show Round _ _ _ _ ((check .rightBrace >>= _) ts s)
  rw [bind_of_done (check_eq (by decide) hrest), bind_of_done (isAtEnd_eq hrest)]
  by_cases ht : t.kind = .rightBrace ∨ t.kind = .eof
  · rw [if_pos (by simpa using ht)]
    exact .inl rfl
  · rw [if_neg (by simpa using ht)]
    exact round_of_body (declaration_gains fuel hs hrest fun heof => ht (.inr heof))

theorem methods_round (fuel : Nat) (earlier : Array (FunctionDecl Stmt)) (hs : Ended ts s) :
    Round s (.done earlier s) (descend fuel (.function .method) ts s)
      (fun method => descend fuel (.methods (earlier.push method)) ts)
      (descend (fuel + 1) (.methods earlier) ts s) := by
  obtain ⟨t, w, hrest⟩ := hs.head
  show Round _ _ _ _ ((check .rightBrace >>= _) ts s)
  rw [bind_of_done (check_eq (by decide) hrest), bind_of_done (isAtEnd_eq hrest)]
  by_cases ht : t.kind = .rightBrace ∨ t.kind = .eof
  · rw [if_pos (by simpa using ht)]
    exact .inl rfl
  · rw [if_neg (by simpa using ht)]
    exact round_of_body (descend_gains fuel (.function .method) s hs)

end Loops

end Lox.Descent
