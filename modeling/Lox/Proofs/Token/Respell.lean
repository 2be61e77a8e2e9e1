/-
  Lox.Proofs.Token.Respell
  ────────────────────────
  **WRITING A NAME ANEW.**

  A text in which some of the identifiers of one spelling are written with
  another one is cut into the same pieces, those identifiers apart
  (`pieces_respelled`).  What a piece of a text is depends on what follows
  only through a character or two, and those tell a name from no other name:
  every name starts with a letter or an underscore.
-/
import Lox.Proofs.Token.Scan
import Mathlib.Data.List.Forall2

namespace Lox

/-! ## §1. Names. -/

/-- A word that is no keyword. -/
def IsIdentifier (name : String) : Prop :=
  name.toList.head?.any startsWord ∧ (∀ c ∈ name.toList, inWord c)
    ∧ TokenKind.ofWord name = .identifier

-- the characters of the name are tried, and not all characters there are
instance : DecidablePred IsIdentifier := fun name =>
  @instDecidableAnd _ _ inferInstance
    (@instDecidableAnd _ _ (List.decidableBAll (fun c => inWord c) name.toList) inferInstance)

theorem IsIdentifier.word {name : String} (h : IsIdentifier name) :
    ∃ c cs, name.toList = c :: cs ∧ startsWord c ∧ ∀ x ∈ cs, inWord x := by
  obtain ⟨hhead, hall, -⟩ := h
  cases hlist : name.toList with
  | nil =>
    rw [hlist] at hhead
    cases hhead
  | cons c cs =>
    rw [hlist] at hhead hall
    exact ⟨c, cs, rfl, hhead, fun x hx => hall x (List.mem_cons_of_mem c hx)⟩

/-- A piece that is copied, or a name that is written anew. -/
inductive Piece.Respelled (old new : String) : Piece → Piece → Prop
  | copied (p : Piece) : Piece.Respelled old new p p
  | renamed : Piece.Respelled old new (.token .identifier old.toList)
      (.token .identifier new.toList)

/-- **A text in which some identifiers are written anew**: its pieces, some of
the old names apart. -/
def Respelled (old new : String) (text text' : List Char) : Prop :=
  ∃ ps, List.Forall₂ (Piece.Respelled old new) (pieces text) ps ∧ text' = ps.flatMap Piece.chars

section Respelled

variable {old new : String} {text' : List Char}

theorem Respelled.eq_nil (h : Respelled old new [] text') : text' = [] := by
  obtain ⟨ps, hps, rfl⟩ := h
  rw [pieces, piecesFrom] at hps
  cases hps
  rfl

/-- The first piece, and the rest. -/
theorem Respelled.cons {c : Char} {cs : List Char} (h : Respelled old new (c :: cs) text') :
    ∃ p rest', Piece.Respelled old new (cut c cs).1 p ∧ Respelled old new (cut c cs).2 rest'
      ∧ text' = p.chars ++ rest' := by
  obtain ⟨ps, hps, rfl⟩ := h
  rw [pieces_cons] at hps
  obtain ⟨p, rest, hp, hrest, rfl⟩ := List.forall₂_cons_left_iff.mp hps
  exact ⟨p, rest.flatMap Piece.chars, hp, ⟨rest, hrest, rfl⟩, rfl⟩

end Respelled

/-! ## §2. What a name starts with. -/

section Characters

variable {c d : Char}

theorem ne_of_startsWord (h : startsWord c) (hd : startsWord d = false) : c ≠ d := by
  rintro rfl
  rw [h] at hd
  cases hd

theorem lookup_of_startsWord {α : Type} {entries : List (Char × α)} (h : startsWord c)
    (hentries : ∀ p ∈ entries, startsWord p.1 = false) : entries.lookup c = none := by
  rw [List.lookup_eq_none_iff]
  intro p hp
  exact bne_iff_ne.mpr (ne_of_startsWord h (hentries p hp))

theorem not_isDigit_of_startsWord (h : startsWord c) : isDigit c = false := by
  simp only [startsWord, Bool.or_eq_true, Bool.and_eq_true, decide_eq_true_eq, beq_iff_eq,
    Char.le_def, UInt32.le_iff_toNat_le] at h
  simp only [isDigit, Bool.and_eq_false_iff, decide_eq_false_iff_not, Char.le_def,
    UInt32.le_iff_toNat_le]
  right
  -- the digits come before all letters and the underscore
  have hnine : ('9' : Char).val.toNat = 57 := rfl
  have ha : ('a' : Char).val.toNat = 97 := rfl
  have hA : ('A' : Char).val.toNat = 65 := rfl
  have hunderscore : ('_' : Char).val.toNat = 95 := rfl
  rcases h with (h | h) | rfl <;> omega

/-- Nothing but a word starts with such a character. -/
theorem cut_of_startsWord (h : startsWord c) (cs : List Char) : cut c cs = cutWord c cs := by
  have hpunctuation : punctuation? c = none :=
    lookup_of_startsWord h (by simp only [List.forall_mem_cons]; decide)
  have hoperator : operator? c = none :=
    lookup_of_startsWord h (by simp only [List.forall_mem_cons]; decide)
  have hblank : isBlank c = false := by
    simp [isBlank, ne_of_startsWord h (d := ' ') rfl, ne_of_startsWord h (d := '\r') rfl,
      ne_of_startsWord h (d := '\t') rfl, ne_of_startsWord h (d := '\n') rfl]
  unfold cut
  rw [hpunctuation, hoperator]
  dsimp only
  rw [hblank, if_neg Bool.false_ne_true, if_neg (ne_of_startsWord h rfl),
    if_neg (ne_of_startsWord h rfl), not_isDigit_of_startsWord h, if_neg Bool.false_ne_true, if_pos h]

/-- An identifier is a word. -/
theorem startsWord_of_cut {cs lexeme : List Char} (h : (cut c cs).1 = .token .identifier lexeme) :
    startsWord c := by
  unfold cut at h
  split at h
  · next hpunctuation =>
    cases h
    exact absurd rfl (punctuation_spelled hpunctuation).2.1
  · next hoperator =>
    obtain ⟨⟨-, halone, -⟩, -, hequal, -⟩ := operator_spelled hoperator
    unfold cutOperator at h
    split at h
    · cases h
      exact absurd rfl hequal
    · cases h
      exact absurd rfl halone
  · split at h
    · cases h
    · split at h
      · unfold cutSlash at h
        split at h <;> cases h
      · split at h
        · unfold cutString at h
          dsimp only at h
          split at h <;> cases h
        · split at h
          · unfold cutNumber at h
            dsimp only at h
            split at h
            · split at h <;> cases h
            · cases h
          · split at h
            · assumption
            · cases h

end Characters

/-! ## §3. What follows a piece. -/

/-- A property that all characters a name can start with share, or none. -/
def Blunt (p : Char → Bool) : Prop :=
  ∀ a b, startsWord a → startsWord b → p a = p b

theorem blunt_isDigit : Blunt isDigit :=
  fun _ _ ha hb => (not_isDigit_of_startsWord ha).trans (not_isDigit_of_startsWord hb).symm

theorem blunt_inWord : Blunt inWord := by
  intro a b ha hb
  unfold inWord
  rw [ha, hb, Bool.true_or, Bool.true_or]

theorem blunt_ne {d : Char} (hd : startsWord d = false) : Blunt (· != d) :=
  fun _ _ ha hb =>
    (bne_iff_ne.mpr (ne_of_startsWord ha hd)).trans (bne_iff_ne.mpr (ne_of_startsWord hb hd)).symm

theorem blunt_eq {d : Char} (hd : startsWord d = false) : Blunt (· == d) :=
  fun _ _ ha hb =>
    (beq_false_of_ne (ne_of_startsWord ha hd)).trans (beq_false_of_ne (ne_of_startsWord hb hd)).symm

/-- A text that does not go on with such a character. -/
def Stops (p : Char → Bool) (text : List Char) : Prop :=
  ∀ c ∈ text.head?, p c = false

theorem stops_or_cons (d : Char) (text : List Char) :
    Stops (· == d) text ∨ ∃ rest, text = d :: rest := by
  cases text with
  | nil => exact .inl fun _ hc => nomatch hc
  | cons c cs =>
    by_cases hc : c = d
    · exact .inr ⟨cs, by rw [hc]⟩
    · refine .inl ?_
      rintro x ⟨⟩
      exact beq_false_of_ne hc

theorem stops_dropWhile (p : Char → Bool) (text : List Char) : Stops p (text.dropWhile p) := by
  intro c hc
  have hhead := List.head?_dropWhile_not p text
  rw [hc] at hhead
  simpa using hhead

theorem takeWhile_stops {p : Char → Bool} {cs rest : List Char} (hcs : ∀ c ∈ cs, p c)
    (hrest : Stops p rest) : (cs ++ rest).takeWhile p = cs := by
  rw [List.takeWhile_append_of_pos hcs]
  cases rest with
  | nil => rw [List.takeWhile_nil, List.append_nil]
  | cons x xs => rw [List.takeWhile_cons, hrest x rfl, if_neg Bool.false_ne_true, List.append_nil]

theorem dropWhile_stops {p : Char → Bool} {cs rest : List Char} (hcs : ∀ c ∈ cs, p c)
    (hrest : Stops p rest) : (cs ++ rest).dropWhile p = rest := by
  rw [List.dropWhile_append_of_pos hcs]
  cases rest with
  | nil => rfl
  | cons x xs => rw [List.dropWhile_cons, hrest x rfl, if_neg Bool.false_ne_true]

theorem forall_mem_takeWhile (p : Char → Bool) (cs : List Char) : ∀ c ∈ cs.takeWhile p, p c :=
  fun c hc => List.all_eq_true.mp List.all_takeWhile c hc

theorem cut_chars_head (c : Char) (cs : List Char) : ∃ a, (cut c cs).1.chars = c :: a := by
  have happend := cut_append c cs
  cases hchars : (cut c cs).1.chars with
  | nil => exact absurd hchars (cut_chars_ne_nil c cs)
  | cons x a =>
    rw [hchars] at happend
    exact ⟨a, by rw [(List.cons.inj happend).1]⟩

section Respelling

variable {old new : String} {text text' : List Char}

/-- **A text and its respelling start alike**: with the same character, or both
with a name. -/
theorem Respelled.head (hnew : IsIdentifier new) {c : Char} {cs : List Char}
    (h : Respelled old new (c :: cs) text') :
    ∃ c' cs', text' = c' :: cs' ∧ (c' = c ∨ startsWord c ∧ startsWord c') := by
  obtain ⟨p, rest', hp, -, rfl⟩ := h.cons
  generalize hfirst : (cut c cs).1 = first at hp
  cases hp with
  | copied =>
    obtain ⟨a, ha⟩ := cut_chars_head c cs
    rw [← hfirst, ha]
    exact ⟨c, _, rfl, .inl rfl⟩
  | renamed =>
    obtain ⟨c', cs', hword, hstarts, -⟩ := hnew.word
    rw [Piece.chars, hword]
    exact ⟨c', _, rfl, .inr ⟨startsWord_of_cut hfirst, hstarts⟩⟩

theorem Respelled.stops (hnew : IsIdentifier new) {p : Char → Bool} (hp : Blunt p)
    (h : Respelled old new text text') (hstops : Stops p text) : Stops p text' := by
  cases text with
  | nil =>
    rw [h.eq_nil]
    exact hstops
  | cons c cs =>
    obtain ⟨c', cs', rfl, hc⟩ := h.head hnew
    have hstop := hstops c rfl
    rintro x ⟨⟩
    rcases hc with rfl | ⟨hstarts, hstarts'⟩
    · exact hstop
    · exact (hp c' c hstarts' hstarts).trans hstop

/-- Whether a text goes on with the fraction of a number. -/
def hasFraction : List Char → Bool
  | '.' :: d :: _ => isDigit d
  | _ => false

theorem hasFraction_of_ne {c : Char} (h : c ≠ '.') (cs : List Char) :
    hasFraction (c :: cs) = false := by
  unfold hasFraction
  split
  · next heq => exact absurd (List.cons.inj heq).1 h
  · rfl

theorem Respelled.hasFraction (hnew : IsIdentifier new) (h : Respelled old new text text') :
    hasFraction text' = hasFraction text := by
  cases text with
  | nil => rw [h.eq_nil]
  | cons c cs =>
    by_cases hc : c = '.'
    · subst hc
      obtain ⟨p, rest', hp, hrest, rfl⟩ := h.cons
      change Piece.Respelled old new (.token .dot ['.']) p at hp
      change Respelled old new cs rest' at hrest
      cases hp
      cases cs with
      | nil =>
        rw [hrest.eq_nil]
        rfl
      | cons d ds =>
        obtain ⟨d', ds', rfl, hd⟩ := hrest.head hnew
        show isDigit d' = isDigit d
        rcases hd with rfl | ⟨hstarts, hstarts'⟩
        · rfl
        · exact blunt_isDigit d' d hstarts' hstarts
    · obtain ⟨c', cs', rfl, hc'⟩ := h.head hnew
      have hne : c' ≠ '.' := by
        rcases hc' with rfl | ⟨-, hstarts⟩
        · exact hc
        · exact ne_of_startsWord hstarts rfl
      rw [hasFraction_of_ne hne, hasFraction_of_ne hc]

/-! ## §4. The first piece. -/

section Pieces

variable {c : Char} {cs rest' : List Char}

/-- Whether a way to cut off a piece that starts with `c` cuts off the same
piece when the rest of the text is respelled. -/
def CutAlike (old new : String) (c : Char) (f : List Char → Piece × List Char)
    (cs : List Char) : Prop :=
  ∀ rest', Respelled old new (f cs).2 rest' →
    ∃ a, (f cs).1.chars = c :: a ∧ f (a ++ rest') = ((f cs).1, rest')

/-- An operator without an equals sign. -/
theorem cutOperator_stops {alone withEqual : TokenKind} {rest : List Char}
    (h : Stops (· == '=') rest) : cutOperator c alone withEqual rest = (.token alone [c], rest) := by
  unfold cutOperator
  split
  · exact absurd (h '=' rfl) (by decide)
  · rfl

/-- A slash that starts no comment. -/
theorem cutSlash_stops {rest : List Char} (h : Stops (· == '/') rest) :
    cutSlash rest = (.token .slash ['/'], rest) := by
  unfold cutSlash
  split
  · exact absurd (h '/' rfl) (by decide)
  · rfl

theorem cutAlike_operator (hnew : IsIdentifier new) (c : Char) (alone withEqual : TokenKind)
    (cs : List Char) : CutAlike old new c (cutOperator c alone withEqual) cs := by
  intro rest' h
  rcases stops_or_cons '=' cs with hcs | ⟨xs, rfl⟩
  · rw [cutOperator_stops hcs] at h ⊢
    exact ⟨[], rfl, cutOperator_stops (h.stops hnew (blunt_eq rfl) hcs)⟩
  · exact ⟨['='], rfl, rfl⟩

theorem cutAlike_slash (hnew : IsIdentifier new) (cs : List Char) :
    CutAlike old new '/' cutSlash cs := by
  intro rest' h
  rcases stops_or_cons '/' cs with hcs | ⟨xs, rfl⟩
  · rw [cutSlash_stops hcs] at h ⊢
    exact ⟨[], rfl, cutSlash_stops (h.stops hnew (blunt_eq rfl) hcs)⟩
  · refine ⟨'/' :: xs.takeWhile (· != '\n'), rfl, ?_⟩
    have hstops : Stops (· != '\n') rest' :=
      h.stops hnew (blunt_ne rfl) (stops_dropWhile _ xs)
    have hmem := forall_mem_takeWhile (· != '\n') xs
    rw [List.cons_append, cutSlash, takeWhile_stops hmem hstops, dropWhile_stops hmem hstops]
    rfl

theorem cutAlike_string (cs : List Char) : CutAlike old new '"' cutString cs := by
  intro rest' h
  have hsplit : cs.takeWhile (· != '"') ++ cs.dropWhile (· != '"') = cs :=
    List.takeWhile_append_dropWhile
  have hstops := stops_dropWhile (· != '"') cs
  have hmem := forall_mem_takeWhile (· != '"') cs
  generalize cs.takeWhile (· != '"') = contents at hsplit hmem
  generalize cs.dropWhile (· != '"') = tail at hsplit hstops
  subst hsplit
  cases tail with
  | nil =>
    have hcut : cutString (contents ++ []) = (.unterminated ('"' :: contents), []) := by
      unfold cutString
      rw [takeWhile_stops hmem hstops, dropWhile_stops hmem hstops]
    rw [hcut] at h ⊢
    rw [h.eq_nil]
    exact ⟨contents, rfl, hcut⟩
  | cons quote rest =>
    have hcut : ∀ xs, cutString (contents ++ quote :: xs)
        = (.token (.string (String.ofList contents)) ('"' :: contents ++ [quote]), xs) := by
      intro xs
      have htail : Stops (· != '"') (quote :: xs) := hstops
      unfold cutString
      rw [takeWhile_stops hmem htail, dropWhile_stops hmem htail]
    rw [hcut rest] at h ⊢
    refine ⟨contents ++ [quote], rfl, ?_⟩
    rw [List.append_assoc]
    exact hcut rest'

theorem cutWord_stops {word rest : List Char} (hword : ∀ x ∈ word, inWord x)
    (hrest : Stops inWord rest) : cutWord c (word ++ rest)
      = (.token (.ofWord (String.ofList (c :: word))) (c :: word), rest) := by
  unfold cutWord
  rw [takeWhile_stops hword hrest, dropWhile_stops hword hrest]

theorem cutAlike_word (hnew : IsIdentifier new) (c : Char) (cs : List Char) :
    CutAlike old new c (cutWord c) cs := by
  intro rest' h
  have hstops := h.stops hnew blunt_inWord (stops_dropWhile inWord cs)
  exact ⟨cs.takeWhile inWord, rfl, cutWord_stops (forall_mem_takeWhile inWord cs) hstops⟩

/-- A number without a fraction. -/
theorem cutNumber_whole {digits rest : List Char} (hdigits : ∀ x ∈ digits, isDigit x)
    (hrest : Stops isDigit rest) (hfraction : hasFraction rest = false) :
    cutNumber c (digits ++ rest) = (.token (numberKind (c :: digits) []) (c :: digits), rest) := by
  unfold cutNumber
  rw [takeWhile_stops hdigits hrest, dropWhile_stops hdigits hrest]
  dsimp only
  split
  · next d xs =>
    have hd : isDigit d = false := hfraction
    rw [hd, if_neg Bool.false_ne_true]
  · rfl

/-- A number with a fraction. -/
theorem cutNumber_fraction {digits fraction rest : List Char} {d : Char}
    (hdigits : ∀ x ∈ digits, isDigit x) (hd : isDigit d) (hfraction : ∀ x ∈ fraction, isDigit x)
    (hrest : Stops isDigit rest) : cutNumber c (digits ++ '.' :: d :: (fraction ++ rest))
      = (.token (numberKind (c :: digits) (d :: fraction)) (c :: digits ++ '.' :: d :: fraction),
        rest) := by
  have hpoint : Stops isDigit ('.' :: d :: (fraction ++ rest)) := by
    rintro x ⟨⟩
    rfl
  unfold cutNumber
  rw [takeWhile_stops hdigits hpoint, dropWhile_stops hdigits hpoint]
  simp only [hd, if_true, takeWhile_stops hfraction hrest, dropWhile_stops hfraction hrest]

theorem cutAlike_number (hnew : IsIdentifier new) (c : Char) (cs : List Char) :
    CutAlike old new c (cutNumber c) cs := by
  intro rest' h
  have hsplit : cs.takeWhile isDigit ++ cs.dropWhile isDigit = cs :=
    List.takeWhile_append_dropWhile
  have hstops := stops_dropWhile isDigit cs
  have hdigits := forall_mem_takeWhile isDigit cs
  generalize cs.takeWhile isDigit = digits at hsplit hdigits
  generalize cs.dropWhile isDigit = tail at hsplit hstops
  subst hsplit
  by_cases hfraction : hasFraction tail
  · obtain ⟨d, xs, rfl, hd⟩ : ∃ d xs, tail = '.' :: d :: xs ∧ isDigit d := by
      unfold hasFraction at hfraction
      split at hfraction
      · exact ⟨_, _, rfl, hfraction⟩
      · cases hfraction
    have hxs : xs.takeWhile isDigit ++ xs.dropWhile isDigit = xs :=
      List.takeWhile_append_dropWhile
    have hmem := forall_mem_takeWhile isDigit xs
    have hcut := cutNumber_fraction (c := c) hdigits hd hmem (stops_dropWhile isDigit xs)
    rw [hxs] at hcut
    rw [hcut] at h ⊢
    have hrest := h.stops hnew blunt_isDigit (stops_dropWhile isDigit xs)
    refine ⟨digits ++ '.' :: d :: xs.takeWhile isDigit, rfl, ?_⟩
    rw [List.append_assoc]
    exact cutNumber_fraction hdigits hd hmem hrest
  · have hnone : hasFraction tail = false := Bool.eq_false_iff.mpr hfraction
    rw [cutNumber_whole hdigits hstops hnone] at h ⊢
    exact ⟨digits, rfl, cutNumber_whole hdigits (h.stops hnew blunt_isDigit hstops)
      ((h.hasFraction hnew).trans hnone)⟩

/-- **A piece is cut off the same** when the rest of the text is respelled. -/
theorem cutAlike_cut (hnew : IsIdentifier new) (c : Char) (cs : List Char) :
    CutAlike old new c (cut c) cs := by
  have hone : ∀ p : Piece, p.chars = [c] → CutAlike old new c (fun cs => (p, cs)) cs :=
    fun p hp rest' _ => ⟨[], hp, rfl⟩
  unfold cut
  split
  · exact hone _ rfl
  · exact cutAlike_operator hnew c _ _ cs
  · by_cases hblank : isBlank c
    · simp only [hblank, if_true]
      exact hone _ rfl
    · simp only [hblank]
      by_cases hslash : c = '/'
      · subst hslash
        exact cutAlike_slash hnew cs
      · simp only [hslash, if_false]
        by_cases hquote : c = '"'
        · subst hquote
          exact cutAlike_string cs
        · simp only [hquote, if_false]
          by_cases hdigit : isDigit c
          · simp only [hdigit, if_true]
            exact cutAlike_number hnew c cs
          · simp only [hdigit]
            by_cases hword : startsWord c
            · simp only [hword, if_true]
              exact cutAlike_word hnew c cs
            · simp only [hword]
              exact hone _ rfl

end Pieces

/-! ## §5. All pieces. -/

/-- **Respelled pieces are the pieces of their text.** -/
theorem pieces_respelled (hnew : IsIdentifier new) {ps : List Piece}
    (h : List.Forall₂ (Piece.Respelled old new) (pieces text) ps) :
    pieces (ps.flatMap Piece.chars) = ps := by
  induction hn : text.length using Nat.strongRecOn generalizing text ps with
  | ind n ih =>
    subst hn
    cases text with
    | nil =>
      rw [pieces, piecesFrom] at h
      cases h
      rw [List.flatMap_nil, pieces, piecesFrom]
      rfl
    | cons c cs =>
      rw [pieces_cons] at h
      obtain ⟨p, rest, hp, hrest, rfl⟩ := List.forall₂_cons_left_iff.mp h
      have hih := ih _ (cut_rest_length c cs) hrest rfl
      have hrespelled : Respelled old new (cut c cs).2 (rest.flatMap Piece.chars) :=
        ⟨rest, hrest, rfl⟩
      rw [List.flatMap_cons]
      generalize hfirst : (cut c cs).1 = first at hp
      cases hp with
      | copied =>
        obtain ⟨a, hchars, hcut⟩ := cutAlike_cut hnew c cs _ hrespelled
        rw [← hfirst, hchars, List.cons_append, pieces_cons, hcut, hih]
      | renamed =>
        -- what follows a name does not go on with the name
        have hstops : Stops inWord (rest.flatMap Piece.chars) := by
          refine hrespelled.stops hnew blunt_inWord ?_
          rw [cut_of_startsWord (startsWord_of_cut hfirst)]
          exact stops_dropWhile inWord cs
        obtain ⟨c', word, hlist, hstarts, hword⟩ := hnew.word
        have hcut : cut c' (word ++ rest.flatMap Piece.chars)
            = (.token .identifier new.toList, rest.flatMap Piece.chars) := by
          rw [cut_of_startsWord hstarts, cutWord_stops hword hstops, ← hlist,
            String.ofList_toList, hnew.2.2]
        rw [Piece.chars, hlist, List.cons_append, pieces_cons, hcut, hlist, hih]

end Respelling

/-! ## §6. Identifiers. -/

/-- A token is an identifier if it is spelled like one. -/
def Piece.Worded : Piece → Prop
  | .token kind lexeme => kind = .identifier ↔ IsIdentifier (String.ofList lexeme)
  | _ => True

theorem cut_worded (c : Char) (cs : List Char) : (cut c cs).1.Worded := by
  cases hfirst : (cut c cs).1 with
  | token kind lexeme =>
    have hword : startsWord c → (kind = .identifier ↔ IsIdentifier (String.ofList lexeme)) := by
      intro hstarts
      rw [cut_of_startsWord hstarts] at hfirst
      cases hfirst
      unfold IsIdentifier
      rw [String.toList_ofList]
      refine ⟨fun hkind => ⟨hstarts, ?_, hkind⟩, fun h => h.2.2⟩
      intro x hx
      rcases List.mem_cons.mp hx with rfl | hx
      · rw [inWord, hstarts, Bool.true_or]
      · exact forall_mem_takeWhile inWord cs x hx
    constructor
    · rintro rfl
      exact (hword (startsWord_of_cut hfirst)).mp rfl
    · intro hidentifier
      obtain ⟨a, ha⟩ := cut_chars_head c cs
      obtain ⟨c', cs', hlist, hstarts, -⟩ := hidentifier.word
      rw [hfirst, Piece.chars] at ha
      rw [String.toList_ofList, ha] at hlist
      obtain ⟨rfl, -⟩ := List.cons.inj hlist
      exact (hword hstarts).mpr hidentifier
  | blank | comment | stray | unterminated => trivial

/-- **A token of a text is an identifier if and only if it is spelled like
one.** -/
theorem kind_eq_identifier_iff {source : String} {t : Token}
    (h : t ∈ (Scanned.ofSource source).tokens) : t.kind = .identifier ↔ IsIdentifier t.lexeme := by
  rw [ofSource_tokens] at h
  rcases List.mem_append.mp h with h | h
  · have hpiece := piece_of_item (Item.mem_filterMap_token.mp h)
    have hworded := forall_mem_pieces cut_worded source.toList _ hpiece
    change t.kind = .identifier ↔ IsIdentifier (String.ofList t.lexeme.toList) at hworded
    rw [String.ofList_toList] at hworded
    exact hworded
  · -- the end of the input
    obtain rfl := List.mem_singleton.mp h
    have hempty : ¬ IsIdentifier "" := by decide
    exact iff_of_false (by simp) hempty

/-! ## §7. Texts. -/

/-- Pieces with some of their tokens spelled anew; the first token is at place
`i`. -/
def respelledFrom (new : String) (anew : Nat → Bool) : Nat → List Piece → List Piece
  | _, [] => []
  | i, .token kind lexeme :: rest =>
      .token kind (if anew i then new.toList else lexeme) :: respelledFrom new anew (i + 1) rest
  | i, p :: rest => p :: respelledFrom new anew i rest

/-- **A text with some of its tokens spelled anew.** -/
def Source.respelled (new : String) (anew : Nat → Bool) (source : String) : String :=
  String.ofList ((respelledFrom new anew 0 (pieces source.toList)).flatMap Piece.chars)

/-- The token at a place, spelled anew or not. -/
def Token.respelled (new : String) (anew : Nat → Bool) (i : Nat) (t : Token) : Token :=
  if anew i then { t with lexeme := new } else t

section Texts

variable {old new : String} {anew : Nat → Bool}

/-- What is known of pieces that are spelled anew: the first token is at place
`i`, on some line. -/
structure RespelledAt (old new : String) (anew : Nat → Bool) (i line : Nat) (ps : List Piece) :
    Prop where
  pieces : List.Forall₂ (Piece.Respelled old new) ps (respelledFrom new anew i ps)
  tokens : (itemsOf line (respelledFrom new anew i ps)).filterMap Item.token?
    = ((itemsOf line ps).filterMap Item.token?).mapIdx fun k => Token.respelled new anew (i + k)
  failures : (itemsOf line (respelledFrom new anew i ps)).filterMap Item.failure?
    = (itemsOf line ps).filterMap Item.failure?
  lineAfter : lineAfter line (respelledFrom new anew i ps) = lineAfter line ps

/-- A piece that is no token stays. -/
theorem RespelledAt.other {i line : Nat} {p : Piece} {ps : List Piece}
    (hp : respelledFrom new anew i (p :: ps) = p :: respelledFrom new anew i ps)
    (htoken : (p.item? line).toList.filterMap Item.token? = [])
    (h : RespelledAt old new anew i (line + p.newlines) ps) :
    RespelledAt old new anew i line (p :: ps) := by
  refine ⟨?_, ?_, ?_, ?_⟩
  · rw [hp]
    exact .cons (.copied p) h.pieces
  · rw [hp, itemsOf, itemsOf, List.filterMap_append, List.filterMap_append, htoken, h.tokens]
    rfl
  · rw [hp, itemsOf, itemsOf, List.filterMap_append, List.filterMap_append, h.failures]
  · rw [hp]
    exact h.lineAfter

/-- A token is spelled anew if it is an old name at such a place. -/
theorem RespelledAt.token {i line : Nat} {kind : TokenKind} {lexeme : List Char} {ps : List Piece}
    (ht : anew i → kind = .identifier ∧ String.ofList lexeme = old)
    (h : RespelledAt old new anew (i + 1) (line + (Piece.token kind lexeme).newlines) ps) :
    RespelledAt old new anew i line (.token kind lexeme :: ps) := by
  let p' : Piece := .token kind (if anew i then new.toList else lexeme)
  have hp' : Piece.Respelled old new (.token kind lexeme) p' := by
    by_cases hanew : anew i
    · obtain ⟨rfl, rfl⟩ := ht hanew
      have hrenamed : Piece.Respelled (String.ofList lexeme) new
          (.token .identifier (String.ofList lexeme).toList) (.token .identifier new.toList) :=
        .renamed
      rw [String.toList_ofList] at hrenamed
      show Piece.Respelled _ new _ (.token .identifier (if anew i then new.toList else lexeme))
      rw [if_pos hanew]
      exact hrenamed
    · show Piece.Respelled old new _ (.token kind (if anew i then new.toList else lexeme))
      rw [if_neg hanew]
      exact .copied _
  have hnewlines : p'.newlines = (Piece.token kind lexeme).newlines := by
    generalize Piece.token kind lexeme = p at hp'
    generalize p' = q at hp'
    cases hp' with
    | copied => rfl
    | renamed => rfl
  have hitem : (p'.item? line).toList.filterMap Item.token?
      = [Token.respelled new anew (i + 0) ⟨kind, String.ofList lexeme, line⟩] := by
    show [(⟨kind, String.ofList (if anew i then new.toList else lexeme), line⟩ : Token)] = _
    unfold Token.respelled
    by_cases hanew : anew i
    · rw [Nat.add_zero, if_pos hanew, if_pos hanew, String.ofList_toList]
    · rw [Nat.add_zero, if_neg hanew, if_neg hanew]
  have hshift : (fun k => Token.respelled new anew (i + 1 + k))
      = fun k => Token.respelled new anew (i + (k + 1)) := by
    funext k
    rw [Nat.add_assoc, Nat.add_comm 1]
  refine ⟨.cons hp' h.pieces, ?_, ?_, ?_⟩
  · rw [respelledFrom, itemsOf, itemsOf, List.filterMap_append, List.filterMap_append, hitem,
      hnewlines, h.tokens, hshift]
    exact (List.mapIdx_cons (f := fun k => Token.respelled new anew (i + k))
      (a := ⟨kind, String.ofList lexeme, line⟩)).symm
  · rw [respelledFrom, itemsOf, itemsOf, List.filterMap_append, List.filterMap_append, hnewlines,
      h.failures]
    rfl
  · rw [respelledFrom, Lox.lineAfter, Lox.lineAfter, hnewlines]
    exact h.lineAfter

/-- **All pieces**, if only old names are spelled anew. -/
theorem respelledAt (ps : List Piece) (i line : Nat)
    (h : ∀ k t, ((itemsOf line ps).filterMap Item.token?)[k]? = some t →
      anew (i + k) → t.kind = .identifier ∧ t.lexeme = old) :
    RespelledAt old new anew i line ps := by
  induction ps generalizing i line with
  | nil => exact ⟨.nil, rfl, rfl, rfl⟩
  | cons p ps ih =>
    cases p with
    | token kind lexeme =>
      have htokens : (itemsOf line (.token kind lexeme :: ps)).filterMap Item.token?
          = ⟨kind, String.ofList lexeme, line⟩ :: (itemsOf
            (line + (Piece.token kind lexeme).newlines) ps).filterMap Item.token? := rfl
      rw [htokens] at h
      refine .token (fun hanew => h 0 _ rfl hanew) (ih _ _ ?_)
      intro k t ht hanew
      refine h (k + 1) t ht ?_
      rw [Nat.add_comm k, ← Nat.add_assoc]
      exact hanew
    | blank | comment | stray | unterminated =>
      exact .other rfl rfl (ih _ _ fun k t ht hanew => h k t ht hanew)

/-- The last token stays if it is at no such place. -/
theorem mapIdx_respelled_concat {ts : List Token} {t : Token} (h : anew ts.length = false) :
    (ts ++ [t]).mapIdx (Token.respelled new anew) = ts.mapIdx (Token.respelled new anew) ++ [t] := by
  rw [List.mapIdx_concat]
  unfold Token.respelled
  rw [h, if_neg Bool.false_ne_true]

/-- **A text in which identifiers are spelled anew** has the tokens of the
text, spelled anew, and the same failures. -/
theorem ofSource_respelled {source : String} (hold : IsIdentifier old) (hnew : IsIdentifier new)
    (h : ∀ k t, (Scanned.ofSource source).tokens[k]? = some t → anew k → t.lexeme = old) :
    (Scanned.ofSource (Source.respelled new anew source)).tokens
        = (Scanned.ofSource source).tokens.mapIdx (Token.respelled new anew)
      ∧ (Scanned.ofSource (Source.respelled new anew source)).failures
        = (Scanned.ofSource source).failures := by
  have hidentifier : ∀ k t, (Scanned.ofSource source).tokens[k]? = some t → anew k →
      t.kind = .identifier ∧ t.lexeme = old := by
    intro k t ht hanew
    have hlexeme := h k t ht hanew
    refine ⟨?_, hlexeme⟩
    rw [kind_eq_identifier_iff (List.mem_of_getElem? ht), hlexeme]
    exact hold
  rw [ofSource_tokens] at hidentifier
  have hrespelled : RespelledAt old new anew 0 1 (pieces source.toList) := by
    refine respelledAt _ 0 1 fun k t ht hanew => hidentifier k t ?_ (by simpa using hanew)
    rw [List.getElem?_append_left (List.getElem?_eq_some_iff.mp ht).1]
    exact ht
  have hpieces : pieces (Source.respelled new anew source).toList
      = respelledFrom new anew 0 (pieces source.toList) := by
    unfold Source.respelled
    rw [String.toList_ofList]
    exact pieces_respelled hnew hrespelled.pieces
  constructor
  · -- the end of the input has no name
    have heof : anew ((itemsOf 1 (pieces source.toList)).filterMap Item.token?).length = false := by
      rw [Bool.eq_false_iff]
      intro hanew
      cases (hidentifier _ _ List.getElem?_concat_length hanew).1
    rw [ofSource_tokens, ofSource_tokens, hpieces, hrespelled.tokens, hrespelled.lineAfter,
      mapIdx_respelled_concat heof]
    simp only [Nat.zero_add]
  · rw [ofSource_failures, ofSource_failures, hpieces, hrespelled.failures]

end Texts

end Lox
