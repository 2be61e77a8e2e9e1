/-
  Lox.Proofs.Descent.Cursor
  ─────────────────────────
  **WHAT THE CURSOR DOES.**

  The tokens from the cursor on are the rest of the input.  While there is an end of
  input among them (`Ended`), a token is under the cursor, and taking one that is no
  end of input keeps this so.  Every look at a token is then inside of the list, and
  `accept`, `consume` and the others are decided by the kind of the token under
  the cursor.

  Main results:
    * `Outcome.Meets`: total correctness of an outcome; `meets_bind` is its rule for
      one parser after another.
    * `meets_accept`, `meets_consume`, …: a rule for each way to look at a token.
    * `Reached`: the cursor has come at least so far, and an end of input lies ahead.
-/
import Lox.Proofs.Descent.Basic

namespace Lox.Descent

open Parse (Ledger maxArity)

/-! ## §1. Total correctness. -/

/-- **An outcome that goes well**: it is a result that is good, or a failure that is the
right one; no token was asked for outside of the list, and the calls sufficed. -/
def Outcome.Meets {α : Type} (o : Outcome α) (good : α → State → Prop)
    (bad : Token → SyntaxFault → State → Prop) : Prop :=
  match o with
  | .done a s => good a s
  | .failed t fault s => bad t fault s
  | .outOfBounds => False
  | .outOfFuel => False

theorem Outcome.Meets.imp {α : Type} {o : Outcome α} {good good' : α → State → Prop}
    {bad bad' : Token → SyntaxFault → State → Prop} (h : o.Meets good bad)
    (hgood : ∀ a s, good a s → good' a s) (hbad : ∀ t fault s, bad t fault s → bad' t fault s) :
    o.Meets good' bad' := by
  cases o with
  | done a s => exact hgood a s h
  | failed t fault s => exact hbad t fault s h
  | outOfBounds => exact h
  | outOfFuel => exact h

section Meets

variable {α β : Type} {ts : List Token} {s : State} {good : β → State → Prop}
  {bad : Token → SyntaxFault → State → Prop}

/-- One parser after another. -/
theorem meets_bind {p : Parser α} {f : α → Parser β} {mid : α → State → Prop}
    (h : (p ts s).Meets mid bad) (hf : ∀ a s', mid a s' → (f a ts s').Meets good bad) :
    ((p >>= f) ts s).Meets good bad := by
  show ((p ts s).bind fun a s' => f a ts s').Meets good bad
  cases hp : p ts s with
  | done a s' =>
    rw [hp] at h
    exact hf a s' h
  | failed t fault s' =>
    rw [hp] at h
    exact h
  | outOfBounds =>
    rw [hp] at h
    exact h
  | outOfFuel =>
    rw [hp] at h
    exact h

/-- A parser that is done at once, and another one. -/
theorem bind_of_done {p : Parser α} {f : α → Parser β} {a : α} {s' : State}
    (h : p ts s = .done a s') : (p >>= f) ts s = f a ts s' := by
  show (p ts s).bind (fun a s' => f a ts s') = f a ts s'
  rw [h]
  rfl

end Meets

/-! ## §2. The rest of the input. -/

/-- The tokens from the cursor on. -/
def State.rest (s : State) (ts : List Token) : List Token :=
  ts.drop s.current

/-- Behind the token under the cursor. -/
def State.next (s : State) : State :=
  { s with current := s.current + 1 }

/-- An end of input lies ahead, or is under the cursor. -/
def Ended (ts : List Token) (s : State) : Prop :=
  ∃ t ∈ s.rest ts, t.kind = .eof

section Rest

variable {ts : List Token} {s : State} {t : Token} {w : List Token}

theorem Ended.head (h : Ended ts s) : ∃ t w, s.rest ts = t :: w := by
  obtain ⟨t, ht, -⟩ := h
  exact List.exists_cons_of_ne_nil (List.ne_nil_of_mem ht)

theorem Ended.lt (h : Ended ts s) : s.current < ts.length := by
  obtain ⟨t, w, hrest⟩ := h.head
  have hlength := congrArg List.length hrest
  simp only [State.rest, List.length_drop, List.length_cons] at hlength
  omega

theorem getElem?_of_rest (h : s.rest ts = t :: w) : ts[s.current]? = some t := by
  have hhead : (ts.drop s.current).head? = some t := by
    show (s.rest ts).head? = some t
    rw [h]
    rfl
  rwa [List.head?_drop] at hhead

/-- The token that was passed is the one before the cursor. -/
theorem getElem?_before_next (h : s.rest ts = t :: w) : ts[s.next.current - 1]? = some t := by
  show ts[s.current + 1 - 1]? = some t
  rw [Nat.add_sub_cancel, getElem?_of_rest h]

theorem rest_next (h : s.rest ts = t :: w) : s.next.rest ts = w := by
  show ts.drop (s.current + 1) = w
  rw [← List.tail_drop]
  show (s.rest ts).tail = w
  rw [h]
  rfl

/-- What lies ahead does not depend on what is kept beside the tree. -/
theorem Ended.congr {s' : State} (h : Ended ts s) (hcurrent : s'.current = s.current) :
    Ended ts s' := by
  unfold Ended State.rest at h ⊢
  rw [hcurrent]
  exact h

/-- There is a token before the cursor, or the first one. -/
theorem Ended.exists_before (h : Ended ts s) : ∃ before, ts[s.current - 1]? = some before :=
  ⟨_, List.getElem?_eq_getElem (Nat.lt_of_le_of_lt (Nat.sub_le _ _) h.lt)⟩

theorem Ended.next (h : Ended ts s) (hrest : s.rest ts = t :: w) (ht : t.kind ≠ .eof) :
    Ended ts s.next := by
  obtain ⟨eof, hmem, heof⟩ := h
  rw [hrest] at hmem
  rcases List.mem_cons.mp hmem with heq | hmem
  · exact absurd (heq ▸ heof) ht
  · refine ⟨eof, ?_, heof⟩
    rw [rest_next hrest]
    exact hmem

end Rest

/-- The cursor has come to this place or further, and an end of input lies ahead. -/
structure Reached (ts : List Token) (i : Nat) (s : State) : Prop where
  le : i ≤ s.current
  ended : Ended ts s

theorem Reached.mono {ts : List Token} {i j : Nat} {s : State} (h : Reached ts j s) (hij : i ≤ j) :
    Reached ts i s :=
  ⟨Nat.le_trans hij h.le, h.ended⟩

theorem Ended.reached {ts : List Token} {s : State} (h : Ended ts s) : Reached ts s.current s :=
  ⟨Nat.le_refl _, h⟩

/-! ## §3. Looking at a token. -/

namespace Parser

section Look

variable {ts : List Token} {s : State} {t : Token} {w : List Token}

theorem peek_eq (h : s.rest ts = t :: w) : peek ts s = .done t s := by
  show tokenAt s.current ts s = .done t s
  rw [tokenAt, getElem?_of_rest h]

theorem isAtEnd_eq (h : s.rest ts = t :: w) : isAtEnd ts s = .done (decide (t.kind = .eof)) s := by
  unfold isAtEnd
  rw [bind_of_done (peek_eq h)]
  rfl

theorem previous_eq {before : Token} (h : ts[s.current - 1]? = some before) :
    previous ts s = .done before s := by
  show tokenAt (s.current - 1) ts s = .done before s
  rw [tokenAt, h]

theorem previous_next (h : s.rest ts = t :: w) : previous ts s.next = .done t s.next :=
  previous_eq (getElem?_before_next h)

theorem advance_eq (h : s.rest ts = t :: w) (ht : t.kind ≠ .eof) :
    advance ts s = .done t s.next := by
  unfold advance
  rw [bind_of_done (isAtEnd_eq h), if_neg (by simpa using ht)]
  exact previous_next h

/-- At an end of input the cursor stays. -/
theorem advance_eof (h : s.rest ts = t :: w) (ht : t.kind = .eof) :
    ∃ t', advance ts s = .done t' s := by
  have hlt : s.current - 1 < ts.length := by
    have hlength := congrArg List.length h
    simp only [State.rest, List.length_drop, List.length_cons] at hlength
    omega
  refine ⟨ts[s.current - 1], ?_⟩
  unfold advance
  rw [bind_of_done (isAtEnd_eq h), if_pos (by simpa using ht)]
  show tokenAt (s.current - 1) ts s = _
  rw [tokenAt, List.getElem?_eq_getElem hlt]

theorem check_eq {kind : TokenKind} (hk : kind ≠ .eof) (h : s.rest ts = t :: w) :
    check kind ts s = .done (decide (t.kind = kind)) s := by
  unfold check
  rw [bind_of_done (isAtEnd_eq h)]
  by_cases ht : t.kind = .eof
  · -- no other kind stands at an end of input
    have hne : t.kind ≠ kind := fun heq => hk (heq ▸ ht)
    rw [if_pos (decide_eq_true ht), decide_eq_false hne]
    rfl
  · rw [if_neg (by simpa using ht), bind_of_done (peek_eq h)]
    rfl

theorem accept_of_eq {kind : TokenKind} (hk : kind ≠ .eof) (h : s.rest ts = t :: w)
    (ht : t.kind = kind) : accept kind ts s = .done true s.next := by
  unfold accept
  rw [bind_of_done (check_eq hk h), if_pos (decide_eq_true ht),
    bind_of_done (advance_eq h (by rwa [ht]))]
  rfl

theorem accept_of_ne {kind : TokenKind} (hk : kind ≠ .eof) (h : s.rest ts = t :: w)
    (ht : t.kind ≠ kind) : accept kind ts s = .done false s := by
  unfold accept
  rw [bind_of_done (check_eq hk h), if_neg (by simpa using ht)]
  rfl

theorem acceptAny_of_mem {kinds : List TokenKind} (hk : ∀ kind ∈ kinds, kind ≠ .eof)
    (h : s.rest ts = t :: w) (ht : t.kind ∈ kinds) : acceptAny kinds ts s = .done true s.next := by
  induction kinds with
  | nil => cases ht
  | cons kind kinds ih =>
    rw [acceptAny]
    by_cases heq : t.kind = kind
    · rw [bind_of_done (accept_of_eq (hk kind List.mem_cons_self) h heq)]
      rfl
    · rw [bind_of_done (accept_of_ne (hk kind List.mem_cons_self) h heq)]
      have hmem : t.kind ∈ kinds := (List.mem_cons.mp ht).resolve_left heq
      exact ih (fun kind' hkind' => hk kind' (List.mem_cons_of_mem _ hkind')) hmem

theorem acceptAny_of_notMem {kinds : List TokenKind} (hk : ∀ kind ∈ kinds, kind ≠ .eof)
    (h : s.rest ts = t :: w) (ht : t.kind ∉ kinds) : acceptAny kinds ts s = .done false s := by
  induction kinds with
  | nil => rfl
  | cons kind kinds ih =>
    have hne : t.kind ≠ kind := fun heq => ht (heq ▸ List.mem_cons_self)
    rw [acceptAny, bind_of_done (accept_of_ne (hk kind List.mem_cons_self) h hne)]
    exact ih (fun kind' hkind' => hk kind' (List.mem_cons_of_mem _ hkind'))
      fun hmem => ht (List.mem_cons_of_mem _ hmem)

end Look

/-! ## §4. Rules for looking at a token. -/

section Rules

variable {α β : Type} {ts : List Token} {s : State} {t : Token} {w : List Token}
  {good : β → State → Prop} {bad : Token → SyntaxFault → State → Prop} {kind : TokenKind}
  {p q : Parser β}

theorem meets_isAtEnd (h : s.rest ts = t :: w) (hyes : t.kind = .eof → (p ts s).Meets good bad)
    (hno : t.kind ≠ .eof → (q ts s).Meets good bad) :
    ((do if ← isAtEnd then p else q) ts s).Meets good bad := by
  rw [bind_of_done (isAtEnd_eq h)]
  by_cases ht : t.kind = .eof
  · rw [if_pos (decide_eq_true ht)]
    exact hyes ht
  · rw [if_neg (by simpa using ht)]
    exact hno ht

theorem meets_accept (hk : kind ≠ .eof) (h : s.rest ts = t :: w)
    (hyes : t.kind = kind → (p ts s.next).Meets good bad)
    (hno : t.kind ≠ kind → (q ts s).Meets good bad) :
    ((do if ← accept kind then p else q) ts s).Meets good bad := by
  by_cases ht : t.kind = kind
  · rw [bind_of_done (accept_of_eq hk h ht)]
    exact hyes ht
  · rw [bind_of_done (accept_of_ne hk h ht)]
    exact hno ht

theorem meets_acceptAny {kinds : List TokenKind} (hk : ∀ kind ∈ kinds, kind ≠ .eof)
    (h : s.rest ts = t :: w) (hyes : t.kind ∈ kinds → (p ts s.next).Meets good bad)
    (hno : t.kind ∉ kinds → (q ts s).Meets good bad) :
    ((do if ← acceptAny kinds then p else q) ts s).Meets good bad := by
  by_cases ht : t.kind ∈ kinds
  · rw [bind_of_done (acceptAny_of_mem hk h ht)]
    exact hyes ht
  · rw [bind_of_done (acceptAny_of_notMem hk h ht)]
    exact hno ht

/-- The loops that run up to a closing brace or the end of the input. -/
theorem meets_untilBrace (h : s.rest ts = t :: w)
    (hyes : t.kind = .rightBrace ∨ t.kind = .eof → (p ts s).Meets good bad)
    (hno : t.kind ≠ .rightBrace → t.kind ≠ .eof → (q ts s).Meets good bad) :
    ((do if (← check .rightBrace) || (← isAtEnd) then p else q) ts s).Meets good bad := by
  rw [bind_of_done (check_eq (by decide) h), bind_of_done (isAtEnd_eq h)]
  by_cases ht : t.kind = .rightBrace ∨ t.kind = .eof
  · rw [if_pos (by simpa using ht)]
    exact hyes ht
  · rw [if_neg (by simpa using ht)]
    exact hno (fun h => ht (.inl h)) (fun h => ht (.inr h))

theorem meets_consume {fault : SyntaxFault} {f : Token → Parser β} (hk : kind ≠ .eof)
    (h : s.rest ts = t :: w) (hyes : t.kind = kind → (f t ts s.next).Meets good bad)
    (hno : t.kind ≠ kind → bad t fault s) :
    ((consume kind fault >>= f) ts s).Meets good bad := by
  by_cases ht : t.kind = kind
  · have hdone : consume kind fault ts s = .done t s.next := by
      unfold consume
      rw [bind_of_done (check_eq hk h), if_pos (decide_eq_true ht)]
      exact advance_eq h (by rwa [ht])
    rw [bind_of_done hdone]
    exact hyes ht
  · have hfailed : consume kind fault ts s = .failed t fault s := by
      unfold consume
      rw [bind_of_done (check_eq hk h), if_neg (by simpa using ht), bind_of_done (peek_eq h)]
      rfl
    show ((consume kind fault ts s).bind _).Meets good bad
    rw [hfailed]
    exact hno ht

theorem meets_optionalBefore {p : Parser α} {f : Option α → Parser β} (hk : kind ≠ .eof)
    (h : s.rest ts = t :: w) (hyes : t.kind = kind → (f none ts s).Meets good bad)
    (hno : t.kind ≠ kind → ((p >>= fun a => f (some a)) ts s).Meets good bad) :
    ((optionalBefore kind p >>= f) ts s).Meets good bad := by
  show ((optionalBefore kind p ts s).bind _).Meets good bad
  unfold optionalBefore
  rw [bind_of_done (check_eq hk h)]
  by_cases ht : t.kind = kind
  · rw [if_pos (decide_eq_true ht)]
    exact hyes ht
  · rw [if_neg (by simpa using ht)]
    have hrest := hno ht
    change ((p ts s).bind _).Meets good bad at hrest
    show (((p ts s).bind _).bind _).Meets good bad
    cases hp : p ts s <;> rw [hp] at hrest <;> exact hrest

theorem meets_optionalAfter {p : Parser α} {f : Option α → Parser β} (hk : kind ≠ .eof)
    (h : s.rest ts = t :: w)
    (hyes : t.kind = kind → ((p >>= fun a => f (some a)) ts s.next).Meets good bad)
    (hno : t.kind ≠ kind → (f none ts s).Meets good bad) :
    ((optionalAfter kind p >>= f) ts s).Meets good bad := by
  show ((optionalAfter kind p ts s).bind _).Meets good bad
  unfold optionalAfter
  by_cases ht : t.kind = kind
  · rw [bind_of_done (accept_of_eq hk h ht), if_pos rfl]
    have hrest := hyes ht
    change ((p ts s.next).bind _).Meets good bad at hrest
    show (((p ts s.next).bind _).bind _).Meets good bad
    cases hp : p ts s.next <;> rw [hp] at hrest <;> exact hrest
  · rw [bind_of_done (accept_of_ne hk h ht)]
    exact hno ht

theorem meets_listBefore {p : Parser (Array α)} {f : Array α → Parser β} (hk : kind ≠ .eof)
    (h : s.rest ts = t :: w) (hyes : t.kind = kind → (f #[] ts s).Meets good bad)
    (hno : t.kind ≠ kind → ((p >>= f) ts s).Meets good bad) :
    ((listBefore kind p >>= f) ts s).Meets good bad := by
  show ((listBefore kind p ts s).bind _).Meets good bad
  unfold listBefore
  rw [bind_of_done (check_eq hk h)]
  by_cases ht : t.kind = kind
  · rw [if_pos (decide_eq_true ht)]
    exact hyes ht
  · rw [if_neg (by simpa using ht)]
    exact hno ht

/-- The ledger behind the check of the size of a list. -/
def limited (size : Nat) (t : Token) (fault : SyntaxFault) (l : Ledger) : Ledger :=
  if maxArity ≤ size then l.report t fault else l

theorem limit_eq {size : Nat} {fault : SyntaxFault} (h : s.rest ts = t :: w) :
    limit size fault ts s = .done () { s with ledger := limited size t fault s.ledger } := by
  unfold limit limited
  split
  · rw [bind_of_done (peek_eq h)]
    rfl
  · rfl

end Rules

end Parser

end Lox.Descent
