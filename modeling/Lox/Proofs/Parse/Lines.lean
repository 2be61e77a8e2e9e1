/-
  Lox.Proofs.Parse.Lines
  ──────────────────────
  **ONE TEXT AFTER ANOTHER.**

  After an accepted text nothing is open, so a text that follows it is read as
  if it stood alone, on other lines (`program_append`).
-/
import Lox.Proofs.Parse.Relabel

namespace Lox.Parse

/-! ## §1. Between two texts. -/

open Grammar

/-- Behind a statement that is placed, a declaration is expected. -/
theorem place_expect (r : Reader) (cs : List Context) (s : Stmt) :
    (r.place cs s).expect = .declaration := by
  induction cs generalizing s with
  | nil => rfl
  | cons c cs ih =>
    cases c with
    | block | body => rfl
    | thenBranch | elseBranch | whileBody | forBody => exact ih _

/-- After a complete declaration, a declaration is expected. -/
theorem settle_expect {r : Reader} (h : Settled r) : (settle r).expect = .declaration := by
  unfold Settled at h
  unfold settle
  split
  · exact place_expect _ _ _
  · next hx =>
    split at h
    · next hd => exact hd
    · next s hs => exact absurd hs (hx s)
    · cases h

/-- A finished statement can be put where it belongs before the next token, if
that is no `else`. -/
theorem readAll_settle {r : Reader} (h : Settled r) {t : Token} (ht : t.kind ≠ .kwElse)
    (ts : List Token) : r.readAll (t :: ts) = (settle r).readAll (t :: ts) := by
  have hx := settle_expect h
  rw [Reader.readAll, Reader.readAll]
  by_cases heof : t.kind = .eof
  · have hoffer : r.offerEof t = (settle r).offerEof t := by
      rw [offerEof_settled h]
      unfold Reader.offerEof
      rw [hx]
    rw [if_pos heof, if_pos heof]
    unfold Reader.finish
    rw [hoffer]
  · rw [if_neg heof, if_neg heof, offer_settled h ht]
    unfold Reader.offer
    rw [hx]

/-- No program starts with `else`. -/
theorem head_ne_else {n : Nat} {t : Token} {ts : List Token}
    (h : (program n (t :: ts)).failures = []) : t.kind ≠ .kwElse := by
  intro hk
  have heof : t.kind ≠ .eof := by
    rw [hk]
    decide
  have hclean : Clean ((Reader.start n).readAll (t :: ts)).ledger := Array.toList_eq_nil_iff.mp h
  rw [Reader.readAll, if_neg heof] at hclean
  have hoffer := clean_of_readAll hclean
  have hfail : (Reader.start n).offer t = (Reader.start n).fail t .expression := by
    unfold Reader.offer Reader.start Reader.offerDeclaration Reader.offerStatement
      Reader.offerExpression Partial.offer Partial.empty offerOperand
    simp [hk]
  rw [hfail] at hoffer
  exact not_clean_fail _ _ _ hoffer

/-- A reader after an accepted text: nothing is open, nothing has failed, and
the statements are complete but for a finished one that waits. -/
theorem settled_of_program {n : Nat} {ts : List Token} {eof : Token} (heof : eof.kind = .eof)
    (hts : ∀ t ∈ ts, t.kind ≠ .eof) (h : (program n (ts ++ [eof])).failures = []) :
    Settled (ts.foldl Reader.offer (.start n))
      ∧ settle (ts.foldl Reader.offer (.start n))
        = ⟨.declaration, [], (program n (ts ++ [eof])).statements.toArray,
          ⟨(program n (ts ++ [eof])).nextId, #[]⟩⟩ := by
  have hdeclarations := declarations_of_program (derives_program heof hts h)
  obtain ⟨hlists, hread⟩ := hdeclarations.readAll heof hts n
  have hx := settle_expect hlists.settled
  have hsame := hlists.same
  have hfailures := hlists.failures
  refine ⟨hlists.settled, ?_⟩
  unfold program
  rw [hread]
  generalize settle (ts.foldl Reader.offer (.start n)) = r at hx hsame hfailures
  obtain ⟨expect, contexts, statements, nextId, failures⟩ := r
  obtain rfl : expect = .declaration := hx
  obtain rfl : failures = #[] := hfailures
  cases hsame with
  | nil => rfl

/-! ## §2. The second text. -/

/-- **A text after an accepted one is read as if it stood alone**, on other
lines; its numbers go on where the first text stopped. -/
theorem program_append (f : Nat → Nat) (n : Nat) {ts us : List Token} {eof eof' : Token} (heof : eof.kind = .eof)
    (hts : ∀ t ∈ ts, t.kind ≠ .eof) (heof' : eof'.kind = .eof) (hus : ∀ t ∈ us, t.kind ≠ .eof)
    (h : (program n (ts ++ [eof])).failures = [])
    (h' : (program (program n (ts ++ [eof])).nextId (us ++ [eof'])).failures = []) :
    program n (ts ++ (us ++ [eof']).map (Token.reline f))
      = ⟨(program n (ts ++ [eof])).statements
          ++ (program (program n (ts ++ [eof])).nextId (us ++ [eof'])).statements.map
            (Stmt.reline f),
        [], (program (program n (ts ++ [eof])).nextId (us ++ [eof'])).nextId⟩ := by
  obtain ⟨hsettled, hsettle⟩ := settled_of_program heof hts h
  -- the second text starts with the end of the input, or with some token but `else`
  have hhead : ∃ t vs, us ++ [eof'] = t :: vs ∧ t.kind ≠ .kwElse := by
    cases us with
    | nil => exact ⟨eof', [], rfl, by rw [heof']; decide⟩
    | cons u us => exact ⟨u, us ++ [eof'], rfl, head_ne_else h'⟩
  obtain ⟨t, vs, hvs, ht⟩ := hhead
  have hread : (Reader.start n).readAll (ts ++ (us ++ [eof']).map (Token.reline f))
      = ((Reader.start (program n (ts ++ [eof])).nextId).readAll (us ++ [eof'])).carried (.lines f)
        (program n (ts ++ [eof])).statements.toArray := by
    rw [readAll_append _ _ hts, hvs, List.map_cons,
      readAll_settle hsettled (t := t.reline f) ht, hsettle, ← List.map_cons,
      ← Reader.readAll_carried _ _ (Relabel.steady_lines f), Reader.start_carried]
    rfl
  have hlines : Stmt.relabel (.lines f) = Stmt.reline f := funext (Stmt.relabel_lines f)
  have hfailures : ((Reader.start (program n (ts ++ [eof])).nextId).readAll
      (us ++ [eof'])).ledger.failures = #[] := Array.toList_eq_nil_iff.mp h'
  generalize hfirst : program n (ts ++ [eof]) = first at hread hfailures
  unfold program
  rw [hread]
  generalize (Reader.start first.nextId).readAll (us ++ [eof']) = r at hfailures
  obtain ⟨expect, contexts, statements, nextId, failures⟩ := r
  obtain rfl : failures = #[] := hfailures
  have hid : (Relabel.lines f).id nextId = nextId := rfl
  simp [Reader.carried, Ledger.relabel, hlines, hid]

end Lox.Parse
