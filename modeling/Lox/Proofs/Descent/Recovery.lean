/-
  Lox.Proofs.Descent.Recovery
  ───────────────────────────
  **STARTING AGAIN AFTER A FAILURE.**

  A declaration at the top that fails is reported, and tokens are skipped up to a place where
  a declaration is likely to start (`ResumesAt`).  Whether it failed or not, nothing is
  open behind it, and reading goes on as if the tokens before it had never been there.

  Main results:
    * `skip_lands`, `declaration_resumes`: where parsing starts again.
    * `Head.read`: where a declaration begins at the top, what is read is what has been read
      and the program that the tokens from there on are.
    * `head_continues`: behind a declaration at the top there is such a place again.
-/
import Lox.Proofs.Descent.Totality
import Lox.Proofs.Parse.Behind

namespace Lox.Descent

open Parse Grammar Descent.Parser

variable {ts : List Token}

/-! ## §1. Where parsing starts again. -/

/-- **A place to start again**: the end of the input, a keyword that starts a declaration or
a statement, or what follows a semicolon. -/
def Resumable (ts : List Token) (j : Nat) : Prop :=
  (∃ t, ts[j]? = some t ∧ (t.kind = .eof ∨ Reader.startsDeclaration t.kind))
    ∨ ∃ t, ts[j - 1]? = some t ∧ t.kind = .semicolon

/-- **Where parsing starts again after a failure** at the place `i`: there if the input ends
there, and otherwise at the first place behind it to start again. -/
inductive ResumesAt (ts : List Token) (i : Nat) : Nat → Prop where
  | here {t : Token} : ts[i]? = some t → t.kind = .eof → ResumesAt ts i i
  | behind {t : Token} {j : Nat} : ts[i]? = some t → t.kind ≠ .eof → i < j → Resumable ts j →
      (∀ k, i < k → k < j → ¬ Resumable ts k) → ResumesAt ts i j

theorem resumable_iff {s : State} {t before : Token} {w : List Token} (hrest : s.rest ts = t :: w)
    (hbefore : ts[s.current - 1]? = some before) :
    Resumable ts s.current ↔
      t.kind = .eof ∨ before.kind = .semicolon ∨ Reader.startsDeclaration t.kind := by
  unfold Resumable
  rw [getElem?_of_rest hrest, hbefore]
  simp only [Option.some.injEq, exists_eq_left']
  exact or_assoc.trans (or_congr_right or_comm)

/-- **Skipping ends at the first place to start again**, and leaves the ledger as it is. -/
theorem skip_lands (fuel : Nat) : ∀ {s s' : State} {u : Unit}, Ended ts s →
    descend fuel .skip ts s = .done u s' →
    s'.ledger = s.ledger ∧ s.current ≤ s'.current ∧ Resumable ts s'.current
      ∧ ∀ k, s.current ≤ k → k < s'.current → ¬ Resumable ts k := by
  induction fuel with
  | zero => exact fun _ h => nomatch h
  | succ fuel ih =>
    intro s s' u hs h
    obtain ⟨t, w, hrest⟩ := hs.head
    obtain ⟨before, hprevious⟩ := hs.exists_before
    have hiff := resumable_iff hrest hprevious
    have hstop : Resumable ts s.current → Outcome.done () s = .done u s' →
        s'.ledger = s.ledger ∧ s.current ≤ s'.current ∧ Resumable ts s'.current
          ∧ ∀ k, s.current ≤ k → k < s'.current → ¬ Resumable ts k := by
      rintro hresumable ⟨⟩
      exact ⟨rfl, Nat.le_refl _, hresumable, fun k hle hlt => absurd hlt (Nat.not_lt.mpr hle)⟩
    change (isAtEnd >>= _) ts s = _ at h
    rw [bind_of_done (isAtEnd_eq hrest)] at h
    by_cases ht : t.kind = .eof
    · rw [if_pos (decide_eq_true ht)] at h
      exact hstop (hiff.mpr (.inl ht)) h
    rw [if_neg (by simpa using ht), bind_of_done (previous_eq hprevious)] at h
    by_cases hsemicolon : before.kind = .semicolon
    · rw [if_pos hsemicolon] at h
      exact hstop (hiff.mpr (.inr (.inl hsemicolon))) h
    rw [if_neg hsemicolon, bind_of_done (peek_eq hrest)] at h
    by_cases hstarts : Reader.startsDeclaration t.kind
    · rw [if_pos hstarts] at h
      exact hstop (hiff.mpr (.inr (.inr hstarts))) h
    rw [if_neg hstarts, bind_of_done (advance_eq hrest ht)] at h
    -- this is no place to start again, and the rest is behind it
    obtain ⟨hledger, hle, hresumable, hleast⟩ := ih (hs.next hrest ht) h
    have hlt : s.current + 1 ≤ s'.current := hle
    refine ⟨hledger, by omega, hresumable, ?_⟩
    intro k hk hk'
    rcases Nat.eq_or_lt_of_le hk with rfl | hk
    · rw [hiff]
      rintro (h | h | h)
      · exact ht h
      · exact hsemicolon h
      · exact hstarts h
    · exact hleast k hk hk'

/-- Skipping always ends. -/
theorem skip_done {fuel : Nat} {s : State} (hs : Ended ts s)
    (hfuel : 16 * (ts.length + 1) ≤ fuel) : ∃ s', descend fuel .skip ts s = .done () s' := by
  obtain ⟨before, hbefore⟩ := hs.exists_before
  have hmeets := descend_goesWell fuel .skip s hs (need_lt hfuel _ _) before [] #[] _ hbefore
    ⟨hs.reached, rfl⟩
  cases ho : descend fuel .skip ts s with
  | done u s' => exact ⟨s', rfl⟩
  | failed | outOfBounds | outOfFuel =>
    rw [ho] at hmeets
    exact hmeets.elim

/-- **A declaration that fails** is reported, and parsing starts again. -/
theorem declaration_resumes {fuel : Nat} {s s₁ : State} {t : Token} {fault : SyntaxFault}
    (hs : Ended ts s) (hfuel : 16 * (ts.length + 1) ≤ fuel)
    (hfailed : descend fuel .attempt ts s = .failed t fault s₁) :
    ∃ j, ResumesAt ts s₁.current j
      ∧ descend (fuel + 1) .declaration ts s = .done none ⟨j, s₁.ledger.report t fault⟩ := by
  have hsafe := descend_gains fuel .attempt s hs
  rw [hfailed] at hsafe
  obtain ⟨hreached, hoffender⟩ := hsafe
  let s₂ : State := { s₁ with ledger := s₁.ledger.report t fault }
  have hended₂ : Ended ts s₂ := hreached.ended.congr rfl
  obtain ⟨t₂, w₂, hrest₂⟩ := hended₂.head
  have hget := getElem?_of_rest hrest₂
  rw [show s₂.current = s₁.current from rfl, hoffender] at hget
  obtain rfl := Option.some.inj hget
  have hrescue : descend (fuel + 1) .declaration ts s
      = (advance >>= fun _ => descend fuel .skip >>= fun _ => pure none) ts s₂ := by
    show rescue _ _ ts s = _
    have hbody : (do return some (← descend fuel .attempt) : Parser (Option Stmt)) ts s
        = .failed t fault s₁ := by
      show (descend fuel .attempt ts s).bind _ = _
      rw [hfailed]
      rfl
    unfold rescue
    rw [hbody]
    rfl
  rw [hrescue]
  by_cases ht : t.kind = .eof
  · obtain ⟨t', hadvance⟩ := advance_eof hrest₂ ht
    rw [bind_of_done hadvance]
    obtain ⟨s₃, hskip⟩ := skip_done hended₂ hfuel
    obtain ⟨hledger, hle, -, hleast⟩ := skip_lands fuel hended₂ hskip
    -- the end of the input is a place to start again, so nothing is skipped
    have hcurrent : s₃.current = s₁.current := by
      refine Nat.le_antisymm (Nat.le_of_not_lt fun hlt => ?_) hle
      exact hleast s₁.current (Nat.le_refl _) hlt (.inl ⟨t, hoffender, .inl ht⟩)
    refine ⟨s₁.current, .here hoffender ht, ?_⟩
    rw [bind_of_done hskip, ← hcurrent]
    show Outcome.done none s₃ = .done none ⟨s₃.current, s₂.ledger⟩
    rw [← hledger]
  · rw [bind_of_done (advance_eq hrest₂ ht)]
    have hended₃ := hended₂.next hrest₂ ht
    obtain ⟨s₃, hskip⟩ := skip_done hended₃ hfuel
    obtain ⟨hledger, hle, hresumable, hleast⟩ := skip_lands fuel hended₃ hskip
    refine ⟨s₃.current, .behind hoffender ht hle hresumable hleast, ?_⟩
    rw [bind_of_done hskip]
    show Outcome.done none s₃ = .done none ⟨s₃.current, s₂.next.ledger⟩
    rw [← hledger]

/-- A declaration that does not fail. -/
theorem declaration_succeeds {fuel : Nat} {s s₁ : State} {stmt : Stmt}
    (hdone : descend fuel .attempt ts s = .done stmt s₁) :
    descend (fuel + 1) .declaration ts s = .done (some stmt) s₁ := by
  show rescue _ _ ts s = _
  have hbody : (do return some (← descend fuel .attempt) : Parser (Option Stmt)) ts s
      = .done (some stmt) s₁ := by
    rw [bind_of_done hdone]
    rfl
  unfold rescue
  rw [hbody]

/-- A declaration that may fail does so or not, and nothing else. -/
theorem attempt_ends {fuel : Nat} {s : State} (hs : Ended ts s)
    (hfuel : 16 * (ts.length + 1) ≤ fuel) :
    (∃ stmt s', descend fuel .attempt ts s = .done stmt s')
      ∨ ∃ t fault s', descend fuel .attempt ts s = .failed t fault s'
        ∧ ts[s'.current]? = some t := by
  obtain ⟨t, w, hrest⟩ := hs.head
  have hmeets := descend_goesWell fuel .attempt s hs (need_lt hfuel _ _) t w hrest [] #[] _
    ⟨hs.reached, rfl⟩
  cases ho : descend fuel .attempt ts s with
  | done stmt s' => exact .inl ⟨stmt, s', rfl⟩
  | failed t fault s' =>
    rw [ho] at hmeets
    obtain ⟨-, w, hrest', -⟩ := hmeets
    exact .inr ⟨t, fault, s', rfl, getElem?_of_rest hrest'⟩
  | outOfBounds | outOfFuel =>
    rw [ho] at hmeets
    exact hmeets.elim

/-! ## §2. Behind a declaration. -/

/-- **The places where a declaration can begin at the top**, with the statements that
are complete there: the first token, and what follows a declaration. -/
inductive Head (ts : List Token) (firstId fuel : Nat) : Array Stmt → State → Prop where
  | start : Head ts firstId fuel #[] (.start firstId)
  | next {stmts : Array Stmt} {s s' : State} {t : Token} {stmt : Option Stmt} :
      Head ts firstId fuel stmts s → ts[s.current]? = some t → t.kind ≠ .eof →
      descend (fuel + 1) .declaration ts s = .done stmt s' →
      Head ts firstId fuel (kept stmts stmt) s'

/-- What is read in all if these statements and this ledger are there already, and the
tokens that follow are this program by themselves. -/
def resumed (stmts : Array Stmt) (l : Ledger) (q : Program) : Program :=
  ⟨stmts.toList ++ Stmt.relabelAll (.moved l.nextId) q.statements, l.failures.toList ++ q.failures,
    q.nextId + l.nextId⟩

/-- **At the top a program is read as if it stood alone.** -/
theorem read_top (stmts : Array Stmt) (l : Ledger) (w : List Token) :
    read ⟨.declaration, [], stmts, l⟩ w = resumed stmts l (Parse.program 0 w) := by
  have hadd := program_add 0 l.nextId w
  rw [Nat.zero_add] at hadd
  have hbehind : read ⟨.declaration, [], stmts, l⟩ w
      = ⟨stmts.toList ++ (Parse.program l.nextId w).statements,
        l.failures.toList ++ (Parse.program l.nextId w).failures,
        (Parse.program l.nextId w).nextId⟩ := by
    unfold read output
    rw [Reader.readAll_top]
    simp [Reader.behind, Ledger.behind, Parse.program]
  rw [hbehind, hadd]
  rfl

section Heads

variable {firstId fuel : Nat} {stmts : Array Stmt} {s : State}

/-- **Where a declaration can begin at the top, nothing is open.** -/
theorem Head.read (hts : EndsInput ts) (hfuel : 16 * (ts.length + 1) ≤ fuel)
    (h : Head ts firstId fuel stmts s) :
    Onward ts (Parse.program firstId ts) .declaration [] stmts s.current s := by
  -- on the declarations before this place: each one hands a declaration on to the next
  induction h with
  | start => exact ⟨(hts.start firstId).reached, rfl⟩
  | @next stmts s s' t stmt _ hget ht hdone ih =>
    obtain ⟨t', w, hrest⟩ := ih.head
    have hsame := getElem?_of_rest hrest
    rw [hget] at hsame
    obtain rfl := Option.some.inj hsame
    have hmeets := descend_goesWell (fuel + 1) .declaration s ih.1.ended
      (need_lt (Nat.le_succ_of_le hfuel) _ _) [] stmts _ t w ih rfl hrest ht (fun _ => rfl)
    rw [hdone] at hmeets
    obtain ⟨hreached, hX⟩ := hmeets
    rw [keep_top] at hX
    exact ⟨hreached.ended.reached, hX⟩

/-- **A failure is forgotten** once parsing has started again, and a declaration once it has
ended.  Where a declaration begins at the top, the result is what has been read and noted up
to there, and the result for the tokens from there on alone, with its numbers moved up.  If
there is a token, the declaration there succeeds, and the next one begins behind it; or it
fails at some token, and the next one begins where parsing starts again. -/
theorem recovery_forgets (hts : EndsInput ts) (hfuel : 16 * (ts.length + 1) ≤ fuel)
    (h : Head ts firstId fuel stmts s) :
    Parse.program firstId ts = resumed stmts s.ledger (Parse.program 0 (ts.drop s.current))
    ∧ ∀ t, ts[s.current]? = some t → t.kind ≠ .eof →
      (∃ stmt s', descend fuel .attempt ts s = .done stmt s'
        ∧ Head ts firstId fuel (stmts.push stmt) s')
      ∨ ∃ offender fault s' j, descend fuel .attempt ts s = .failed offender fault s'
        ∧ ts[s'.current]? = some offender ∧ ResumesAt ts s'.current j
        ∧ Head ts firstId fuel stmts ⟨j, s'.ledger.report offender fault⟩ := by
  have hhead := h.read hts hfuel
  refine ⟨hhead.2.trans (read_top stmts s.ledger _), ?_⟩
  intro t hget ht
  rcases attempt_ends hhead.1.ended hfuel with
    ⟨stmt, s', hdone⟩ | ⟨offender, fault, s', hfailed, hat⟩
  · exact .inl ⟨stmt, s', hdone, .next h hget ht (declaration_succeeds hdone)⟩
  · obtain ⟨j, hresumes, hdone⟩ := declaration_resumes hhead.1.ended hfuel hfailed
    exact .inr ⟨offender, fault, s', j, hfailed, hat, hresumes, .next h hget ht hdone⟩

end Heads

/-- A brace that closes nothing, and a statement behind it. -/
theorem recovery_forgets_brace :
    EndsInput [⟨.rightBrace, "\x7d", 1⟩, ⟨.kwPrint, "print", 1⟩, ⟨.kwNil, "nil", 1⟩,
        ⟨.semicolon, ";", 1⟩, ⟨.eof, "", 1⟩]
      ∧ Parse.program 0 [⟨.rightBrace, "\x7d", 1⟩, ⟨.kwPrint, "print", 1⟩, ⟨.kwNil, "nil", 1⟩,
          ⟨.semicolon, ";", 1⟩, ⟨.eof, "", 1⟩]
        = resumed #[] ⟨0, #[.syntactic ⟨.rightBrace, "\x7d", 1⟩ .expression]⟩
          (Parse.program 0 [⟨.kwPrint, "print", 1⟩, ⟨.kwNil, "nil", 1⟩, ⟨.semicolon, ";", 1⟩,
            ⟨.eof, "", 1⟩]) := by
  have hts : EndsInput [⟨.rightBrace, "\x7d", 1⟩, ⟨.kwPrint, "print", 1⟩, ⟨.kwNil, "nil", 1⟩,
      ⟨.semicolon, ";", 1⟩, ⟨.eof, "", 1⟩] := ⟨⟨.eof, "", 1⟩, rfl, rfl⟩
  have hfirst := (@recovery_forgets _ 0 96 _ _ hts (Nat.le_refl _) .start).2
    ⟨.rightBrace, "\x7d", 1⟩ rfl (by decide)
  have hfailed : descend 96 .attempt [⟨.rightBrace, "\x7d", 1⟩, ⟨.kwPrint, "print", 1⟩,
      ⟨.kwNil, "nil", 1⟩, ⟨.semicolon, ";", 1⟩, ⟨.eof, "", 1⟩] (.start 0)
      = .failed ⟨.rightBrace, "\x7d", 1⟩ .expression (.start 0) := rfl
  rw [hfailed] at hfirst
  rcases hfirst with ⟨_, _, hdone, -⟩ | ⟨offender, fault, s', j, hoffender, -, hresumes, hhead⟩
  · cases hdone
  cases hoffender
  -- `print` is the first place behind the brace to start again
  have hj : j = 1 := by
    cases hresumes with
    | here hget ht =>
      cases hget
      cases ht
    | behind _ _ hlt _ hleast =>
      refine Nat.le_antisymm (Nat.le_of_not_lt fun hlt' => ?_) hlt
      exact hleast 1 Nat.zero_lt_one hlt' (.inl ⟨⟨.kwPrint, "print", 1⟩, rfl, .inr rfl⟩)
  subst hj
  exact ⟨hts, (recovery_forgets hts (Nat.le_refl _) hhead).1⟩

end Lox.Descent
