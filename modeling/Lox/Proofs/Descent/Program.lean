/-
  Lox.Proofs.Descent.Program
  ──────────────────────────
  **WHAT A READER YIELDS BEHIND THE REST OF THE INPUT.**

  A reader knows the statements that are open around it, and descent knows them
  too: they are the calls that wait for their results.  To compare the two, a reader is
  only asked for what it yields in the end (`read`).  Statements that end together
  (`read_enclosed`), a failure inside of some of them (`failing_inside`) and an
  expression that is fed token by token (`read_whole`, `read_refused`) then make no
  difference to what is yielded, and a rule of the grammar can be followed without
  following what is open.

  Main results:
    * `read_congr`, `read_failing`: one token, offered where no declaration stands.
    * `read_place`, `read_enclosed`: a finished statement is put where it belongs.
    * `read_whole`, `read_refused`: an expression inside of a statement.
-/
import Lox.Proofs.Descent.Expression
import Lox.Proofs.Parse.Lines

namespace Lox.Descent

open Parse Grammar

variable {r r' : Reader} {t : Token} {w : List Token} {fault : SyntaxFault}
  {cs : List Context} {prog : Array Stmt} {l l' : Ledger}

/-! ## §1. One token. -/

/-- What a reader has read. -/
def output (r : Reader) : Program :=
  ⟨r.program.toList, r.ledger.failures.toList, r.ledger.nextId⟩

/-- **What a reader yields** behind the rest of the input. -/
def read (r : Reader) (w : List Token) : Program :=
  output (r.readAll w)

/-- What is yielded when a token cannot stand where it does. -/
def failing (r : Reader) (t : Token) (fault : SyntaxFault) (w : List Token) : Program :=
  if t.kind = .eof then output ((r.fail t fault).finish t) else read (r.fail t fault) w

theorem read_next (ht : t.kind ≠ .eof) : read r (t :: w) = read (r.offer t) w := by
  unfold read
  rw [Reader.readAll, if_neg ht]

theorem read_eof (ht : t.kind = .eof) : read r (t :: w) = output (r.finish t) := by
  unfold read
  rw [Reader.readAll, if_pos ht]

/-- No declaration can stand here, and no declaration has just ended. -/
def Busy : Expect → Prop
  | .declaration | .finished _ | .recovery _ => False
  | _ => True

/-- In the middle of a declaration, an end of input is a token as any other. -/
theorem offerEof_of_busy (h : Busy r.expect) : r.offerEof t = r.offer t := by
  unfold Reader.offerEof
  split
  · next hx => exact (hx ▸ h : Busy .declaration).elim
  · next hx => exact (hx ▸ h : Busy (.recovery _)).elim
  · next hx => exact (hx ▸ h : Busy (.finished _)).elim
  · rfl

/-- Two readers that do the same with the next token yield the same. -/
theorem read_congr (h : Busy r.expect) (h' : Busy r'.expect) (hoffer : r.offer t = r'.offer t) :
    read r (t :: w) = read r' (t :: w) := by
  by_cases ht : t.kind = .eof
  · rw [read_eof ht, read_eof ht]
    unfold Reader.finish
    rw [offerEof_of_busy h, offerEof_of_busy h', hoffer]
  · rw [read_next ht, read_next ht, hoffer]

theorem read_failing (h : Busy r.expect) (hoffer : r.offer t = r'.fail t fault) :
    read r (t :: w) = failing r' t fault w := by
  unfold failing
  split
  · next ht =>
    rw [read_eof ht]
    unfold Reader.finish
    rw [offerEof_of_busy h, hoffer]
    rfl
  · next ht => rw [read_next ht, hoffer]

/-- **A failure drops the statements** that are open in the innermost block. -/
theorem failing_inside {c : Context} {x : Expect} (hc : c.isBlock = false) :
    failing ⟨x, c :: cs, prog, l⟩ t fault w = failing ⟨x, cs, prog, l⟩ t fault w := by
  have hfail : Reader.fail ⟨x, c :: cs, prog, l⟩ t fault
      = Reader.fail ⟨x, cs, prog, l⟩ t fault := by
    unfold Reader.fail Reader.report
    simp only [List.dropWhile_cons, hc, Bool.not_false, if_true]
  unfold failing
  rw [hfail]

/-! ## §2. Finished statements. -/

/-- Placing a statement does not look at what is expected. -/
theorem place_congr (hprogram : r.program = r'.program) (hledger : r.ledger = r'.ledger) :
    ∀ s, r.place cs s = r'.place cs s := by
  induction cs with
  | nil =>
    intro s
    simp [Reader.place, hprogram, hledger]
  | cons c cs ih =>
    intro s
    cases c with
    | block | body => simp [Reader.place, hprogram, hledger]
    | thenBranch | elseBranch | whileBody | forBody => exact ih _

theorem placeBeforeElse_congr (hprogram : r.program = r'.program) (hledger : r.ledger = r'.ledger)
    (h : Reader.awaitsElse cs) : ∀ s, r.placeBeforeElse cs s = r'.placeBeforeElse cs s := by
  induction cs with
  | nil => cases h
  | cons c cs ih =>
    intro s
    cases c with
    | block | body => cases h
    | thenBranch => simp [Reader.placeBeforeElse, hprogram, hledger]
    | elseBranch | whileBody | forBody => exact ih h _

/-- **A finished statement can be placed** before the next token, if no `else` comes
that could belong to it. -/
theorem read_place {s : Stmt} (hx : r.expect = .finished s)
    (helse : t.kind = .kwElse → Reader.awaitsElse r.contexts = false) :
    read r (t :: w) = read (r.place r.contexts s) (t :: w) := by
  have hsettled : Settled r := by
    unfold Settled
    rw [hx]
    trivial
  have hsettle : settle r = r.place r.contexts s := by
    unfold settle
    rw [hx]
  -- an `else` that belongs to no open `if` is a token as any other
  by_cases ht : t.kind = .kwElse
  · have hdeclaration := settle_expect hsettled
    have hne : t.kind ≠ .eof := by simp [ht]
    rw [read_next hne, read_next hne, ← hsettle]
    unfold Reader.offer
    rw [hx, hdeclaration]
    dsimp only
    rw [if_neg (by simp [helse ht]), hsettle]
  · rw [← hsettle]
    exact congrArg output (readAll_settle hsettled ht w)

/-- **Statements that end together** can be finished one after the other. -/
theorem read_enclosed {c : Context} {s : Stmt} (hc : c.isBlock = false)
    (helse : t.kind = .kwElse → Reader.awaitsElse [c] = false) :
    read ⟨.finished s, c :: cs, prog, l⟩ (t :: w)
      = read ⟨.finished (enclosed [c] s), cs, prog, l⟩ (t :: w) := by
  have hblock : ∀ c' ∈ [c], c'.isBlock = false := by simpa using hc
  by_cases hawaits : t.kind = .kwElse ∧ Reader.awaitsElse cs
  · -- the `else` belongs to an `if` further out
    obtain ⟨ht, hcs⟩ := hawaits
    have hne : t.kind ≠ .eof := by simp [ht]
    have hplace : Reader.placeBeforeElse ⟨.finished s, c :: cs, prog, l⟩ (c :: cs) s
          = Reader.placeBeforeElse ⟨.finished (enclosed [c] s), cs, prog, l⟩ cs (enclosed [c] s)
        ∧ Reader.awaitsElse (c :: cs) := by
      cases c with
      | block | body => cases hc
      | thenBranch => exact absurd (helse ht) (by simp [Reader.awaitsElse])
      | elseBranch | whileBody | forBody =>
        refine ⟨?_, hcs⟩
        rw [Reader.placeBeforeElse]
        refine placeBeforeElse_congr ?_ ?_ hcs _ <;> rfl
    rw [read_next hne, read_next hne]
    unfold Reader.offer
    dsimp only
    rw [if_pos ⟨ht, hplace.2⟩, if_pos ⟨ht, hcs⟩, hplace.1]
  · have hcs : t.kind = .kwElse → Reader.awaitsElse cs = false := by simpa using hawaits
    have hplace : Reader.place ⟨.finished s, c :: cs, prog, l⟩ (c :: cs) s
        = Reader.place ⟨.finished (enclosed [c] s), cs, prog, l⟩ cs (enclosed [c] s) := by
      rw [← List.singleton_append, place_append _ cs hblock s]
      refine place_congr ?_ ?_ _ <;> rfl
    rw [read_place (r := ⟨.finished (enclosed [c] s), cs, prog, l⟩) rfl hcs, ← hplace]
    exact read_place rfl fun ht => awaitsElse_of_append hblock (helse ht) (hcs ht)

/-! ## §3. Expressions inside of statements. -/

/-- A token that an expression takes inside of a statement. -/
theorem read_taken {clause : Clause} {p p' : Partial} (h : p.offer t l = (.taken p', l')) :
    read ⟨.expression clause p, cs, prog, l⟩ (t :: w)
      = read ⟨.expression clause p', cs, prog, l'⟩ w := by
  rw [read_next (fun ht => Grammar.offer_eof ht h)]
  congr 1
  show Reader.offerExpression _ clause p t = _
  unfold Reader.offerExpression
  rw [h]

/-- **A token that an expression refuses** is a failure of the statement. -/
theorem read_refused {clause : Clause} {w' : List Token} {p : Partial}
    (h : feed p l w = .refused fault l' (t :: w')) :
    read ⟨.expression clause p, cs, prog, l⟩ w
      = failing ⟨.declaration, cs, prog, l'⟩ t fault w' := by
  induction w generalizing p l with
  | nil => cases h
  | cons t₀ w ih =>
    unfold feed at h
    split at h
    · next hoffer =>
      rw [read_taken hoffer]
      exact ih h
    · cases h
    · next hoffer =>
      cases h
      refine read_failing trivial ?_
      show Reader.offerExpression _ clause p t = _
      unfold Reader.offerExpression
      rw [hoffer]
      rfl

/-- **An expression that is whole** ends its clause, or the statement fails. -/
theorem read_whole {clause : Clause} {w' : List Token} {p : Partial} {e : Expr}
    (h : feed p l w = .whole e l' (t :: w')) :
    read ⟨.expression clause p, cs, prog, l⟩ w
      = if t.kind = stop clause then
          read (Reader.endClause ⟨.declaration, cs, prog, l'⟩ clause e t) w'
        else failing ⟨.declaration, cs, prog, l'⟩ t (Reader.clauseFault clause) w' := by
  induction w generalizing p l with
  | nil => cases h
  | cons t₀ w ih =>
    unfold feed at h
    split at h
    · next hoffer =>
      rw [read_taken hoffer]
      exact ih h
    · next hoffer =>
      cases h
      have hend : Reader.offer ⟨.expression clause p, cs, prog, l⟩ t
          = Reader.endClause ⟨.expression clause p, cs, prog, l'⟩ clause e t := by
        show Reader.offerExpression _ clause p t = _
        unfold Reader.offerExpression
        rw [hoffer]
      split
      · next ht =>
        have hne : t.kind ≠ .eof := by
          rw [ht]
          cases clause <;> simp [stop]
        rw [read_next hne, hend]
        -- what ends a clause is seen in the clause, not in what is expected
        rfl
      · next ht =>
        refine read_failing trivial ?_
        rw [hend, Reader.endClause_of_ne ht]
        rfl
    · cases h

/-! ## §4. An expression alone. -/

theorem lone_refused {w' : List Token} {p : Partial}
    (h : feed p l w = .refused fault l' (t :: w')) :
    loneExpressionFrom p l w = .failed l' t fault := by
  induction w generalizing p l with
  | nil => cases h
  | cons t₀ w ih =>
    unfold feed at h
    rw [loneExpressionFrom]
    split at h
    · next hoffer =>
      rw [hoffer]
      exact ih h
    · cases h
    · next hoffer =>
      cases h
      rw [hoffer]

theorem lone_whole {w' : List Token} {p : Partial} {e : Expr}
    (h : feed p l w = .whole e l' (t :: w')) :
    loneExpressionFrom p l w
      = if t.kind = .eof then ⟨some e, l'.failures.toList, l'.nextId⟩
        else .failed l' t .endOfExpression := by
  induction w generalizing p l with
  | nil => cases h
  | cons t₀ w ih =>
    unfold feed at h
    rw [loneExpressionFrom]
    split at h
    · next hoffer =>
      rw [hoffer]
      exact ih h
    · next hoffer =>
      cases h
      rw [hoffer]
      cases hk : t.kind <;> rfl
    · cases h

end Lox.Descent
