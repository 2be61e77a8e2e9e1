/-
  Lox.Proofs.Octets.Loops
  ───────────────────────
  **WHAT THE LOOPS OF A SCANNER TAKE.**

  Each look at an octet is a look at the first character ahead, if that is one below
  128; a slice from the cursor on has its ends between characters.  So the loops take
  what is taken from the characters ahead: those of a class, the rest of a line, or
  the contents of a string, of whatever characters these are.

  Main results:
    * `slice_eq`: the text between two places.
    * `takeWhile_eq`, `takeContents_eq`, `skipLine_eq`: the three loops.
-/
import Lox.Proofs.Octets.Places

namespace Lox.Octets

open Scanner

variable {source : String} {before : List Char} {s : State}

/-! ## §1. The cursor. -/

theorem bind_done {α β : Type} {p : Scanner α} {f : α → Scanner β} {a : α} {s s' : State}
    (h : p source s = .done a s') : (p >>= f) source s = f a source s' := by
  show (p source s).bind _ = _
  rw [h]
  rfl

theorem getElem?_eq (bytes : ByteArray) (i : Nat) : bytes[i]? = bytes.data.toList[i]? := by
  by_cases h : i < bytes.size
  · rw [getElem?_pos bytes i h, Array.getElem?_toList, Array.getElem?_eq_getElem h]
    rfl
  · rw [getElem?_neg bytes i h, Array.getElem?_toList, Array.getElem?_eq_none (Nat.not_lt.mp h)]

/-- **The octets ahead of the cursor.** -/
def Ahead (source : String) (s : State) (bytes : List UInt8) : Prop :=
  source.toUTF8.data.toList.drop s.curr = bytes

/-- A state some octets and some line ends further on. -/
def State.past (s : State) (octets lines : Nat) : State :=
  { s with curr := s.curr + octets, line := s.line + lines }

theorem State.past_past (s : State) (n k n' k' : Nat) :
    (s.past n k).past n' k' = s.past (n + n') (k + k') := by
  unfold past
  rw [← Nat.add_assoc, ← Nat.add_assoc]

section Ahead

variable {bytes : List UInt8} {b : UInt8}

theorem Ahead.octet (h : Ahead source s bytes) : source.toUTF8[s.curr]? = bytes.head? := by
  rw [getElem?_eq, ← h, List.head?_drop]

theorem Ahead.step (h : Ahead source s (b :: bytes)) : Ahead source (s.past 1 0) bytes := by
  show source.toUTF8.data.toList.drop (s.curr + 1) = bytes
  rw [← List.tail_drop, h]
  rfl

theorem peek_eq (h : Ahead source s bytes) : peek source s = .done (bytes.head?.getD 0) s := by
  rw [peek, h.octet]

theorem isAtEnd_eq (h : Ahead source s bytes) : isAtEnd source s = .done bytes.isEmpty s := by
  have hlength := congrArg List.length h
  rw [List.length_drop, Array.length_toList] at hlength
  show Outcome.done (decide (source.toUTF8.data.size ≤ s.curr)) s = _
  cases bytes with
  | nil =>
    rw [List.length_nil] at hlength
    rw [decide_eq_true (by omega)]
    rfl
  | cons b bytes =>
    rw [List.length_cons] at hlength
    rw [decide_eq_false (by omega)]
    rfl

theorem advance_eq (h : Ahead source s (b :: bytes)) : advance source s = .done b (s.past 1 0) := by
  rw [advance, h.octet]
  rfl

end Ahead

theorem Between.step {c : Char} {cs : List Char} (h : Between source before (c :: cs) s.curr)
    (hc : c.toNat < 128) : Between source (before ++ [c]) cs (s.past 1 0).curr := by
  have hmove : Between source (before ++ [c]) cs (s.curr + octets [c]) := h.move
  have hone : octets [c] = 1 := by
    rw [octets_cons, utf8Size_of_lt hc]
    rfl
  rw [hone] at hmove
  exact hmove

/-- A character below 128 that is no zero: its octet is no other character, and not the
zero behind the end. -/
def Plain (c : Char) : Prop :=
  0 < c.toNat ∧ c.toNat < 128

instance (c : Char) : Decidable (Plain c) :=
  inferInstanceAs (Decidable (_ ∧ _))

/-- The octet under the cursor tells whether a plain character is there. -/
theorem peek_beq {c : Char} (hc : Plain c) (after : List Char) :
    ((encoded after).head?.getD 0 == c.toUInt8) = after.head?.any (· == c) := by
  rw [← any_head?_encoded (agrees_beq hc.2)]
  cases (encoded after).head? with
  | none =>
    show ((0 : UInt8) == c.toUInt8) = false
    rw [beq_eq_false_iff_ne, ne_eq, ← UInt8.toNat_inj]
    show ¬ 0 = c.toNat % 256
    have hpos := hc.1
    have hlt := hc.2
    omega
  | some b => rfl

theorem peek_isCode {p : Char → Bool} (hp : ∀ c, p c → Plain c) (after : List Char) :
    isCode p ((encoded after).head?.getD 0) = after.head?.any p := by
  rw [← any_head?_encoded (agrees_isCode fun c hc => (hp c hc).2)]
  cases (encoded after).head? with
  | none =>
    show isCode p 0 = false
    rw [Bool.eq_false_iff]
    exact fun h => absurd (hp _ h).1 (by decide)
  | some b => rfl

/-- A character that is under the cursor is taken. -/
theorem accept_cons {c : Char} {cs : List Char} (h : Between source before (c :: cs) s.curr)
    (hc : Plain c) : accept c source s = .done true (s.past 1 0) := by
  have hahead : Ahead source s (c.toUInt8 :: encoded cs) :=
    h.ahead.trans (encoded_cons_of_lt hc.2 cs)
  have hbeq : (c.toUInt8 == c.toUInt8) = true := beq_self_eq_true _
  refine (bind_done (isAtEnd_eq hahead)).trans ((bind_done (peek_eq hahead)).trans ?_)
  show (if (c.toUInt8 == c.toUInt8) = true then _ else _ : Scanner Bool) source s = _
  rw [hbeq]
  exact bind_done (advance_eq hahead)

/-- Another one is left. -/
theorem accept_stops {c : Char} {after : List Char} (h : Between source before after s.curr)
    (hc : Plain c) (hstops : Stops (· == c) after) : accept c source s = .done false s := by
  have hbeq := peek_beq hc after
  refine (bind_done (isAtEnd_eq h.ahead)).trans ((bind_done (peek_eq h.ahead)).trans ?_)
  rw [isEmpty_encoded, hbeq]
  cases after with
  | nil => rfl
  | cons d cs =>
    have hd : (d == c) = false := hstops d rfl
    show (if (d == c) = true then _ else _ : Scanner Bool) source s = _
    rw [hd]
    rfl

theorem Between.inside {cs after : List Char} {place : Nat}
    (h : Between source before (cs ++ after) place) :
    place ≤ place + octets cs ∧ place + octets cs ≤ source.utf8ByteSize := by
  have hsize := h.size
  rw [octets_append] at hsize
  omega

theorem Between.slice {cs after : List Char} {place : Nat}
    (h : Between source before (cs ++ after) place) :
    Slice source place (place + octets cs) cs := by
  obtain ⟨htext, rfl⟩ := h
  rw [← List.append_assoc] at htext
  exact slice_of_append htext

/-- **The text between two places**, of which neither is inside of a character. -/
theorem slice_eq {cs after : List Char} {place : Nat}
    (h : Between source before (cs ++ after) place) :
    slice place (place + octets cs) source s = .done (String.ofList cs) s := by
  have hslice := h.slice
  unfold Scanner.slice
  rw [if_pos h.inside, dif_pos ⟨hslice.validStart, hslice.validStop⟩]
  congr 1
  exact String.toByteArray_inj.mp hslice.eq

theorem octetsBetween_eq {cs after : List Char} {place : Nat}
    (h : Between source before (cs ++ after) place) :
    octetsBetween place (place + octets cs) source s = .done (String.ofList cs).toUTF8 s := by
  unfold octetsBetween
  rw [if_pos h.inside, h.slice.eq]

/-! ## §2. Loops. -/

/-- **Characters of a class are taken as long as there are any.** -/
theorem takeWhile_eq {p : Char → Bool} (hp : ∀ c, p c → Plain c) {fuel : Nat} {cs : List Char}
    (h : Between source before cs s.curr) (hfuel : octets cs < fuel) :
    takeWhile p fuel source s = .done () (s.past (octets (cs.takeWhile p)) 0) := by
  induction fuel generalizing before s cs with
  | zero => exact absurd hfuel (Nat.not_lt_zero _)
  | succ fuel ih =>
    unfold takeWhile
    rw [bind_done (peek_eq h.ahead), peek_isCode hp]
    cases cs with
    | nil => rfl
    | cons c cs =>
      show (if p c = true then _ else _ : Scanner Unit) source s = _
      rw [List.takeWhile_cons]
      split
      · next hc =>
        have hlt := (hp c hc).2
        have hahead : Ahead source s (c.toUInt8 :: encoded cs) :=
          h.ahead.trans (encoded_cons_of_lt hlt cs)
        have hsize := octets_cons c cs
        rw [utf8Size_of_lt hlt] at hsize
        rw [bind_done (advance_eq hahead), ih (h.step hlt) (by omega), State.past_past, octets_cons,
          utf8Size_of_lt hlt]
      · rfl

/-- A text begins with all that is of a class, and then comes something else. -/
theorem exists_stops (p : Char → Bool) (cs : List Char) :
    ∃ front rest, cs = front ++ rest ∧ (∀ c ∈ front, p c) ∧ Stops p rest :=
  ⟨_, _, List.takeWhile_append_dropWhile.symm, forall_mem_takeWhile p cs, stops_dropWhile p cs⟩

theorem takeWhile_append {p : Char → Bool} (hp : ∀ c, p c → Plain c) {fuel : Nat}
    {front rest : List Char} (h : Between source before (front ++ rest) s.curr)
    (hfront : ∀ c ∈ front, p c) (hstops : Stops p rest) (hfuel : octets (front ++ rest) < fuel) :
    takeWhile p fuel source s = .done () (s.past (octets front) 0) := by
  rw [takeWhile_eq hp h hfuel, takeWhile_stops hfront hstops]

/-- Octets up to a quote are taken, and the line ends among them are counted. -/
theorem takeContents_octets {fuel : Nat} {bytes : List UInt8} (h : Ahead source s bytes)
    (hfuel : bytes.length < fuel) :
    takeContents fuel source s
      = .done () (s.past (bytes.takeWhile (· != '"'.toUInt8)).length
        ((bytes.takeWhile (· != '"'.toUInt8)).count '\n'.toUInt8)) := by
  induction fuel generalizing s bytes with
  | zero => exact absurd hfuel (Nat.not_lt_zero _)
  | succ fuel ih =>
    unfold takeContents
    rw [bind_done (isAtEnd_eq h), bind_done (peek_eq h)]
    cases bytes with
    | nil => rfl
    | cons b bytes =>
      show (if (b != '"'.toUInt8) = true then _ else _ : Scanner Unit) source s = _
      rw [List.takeWhile_cons]
      split
      · have hrest : bytes.length < fuel := Nat.lt_of_succ_lt_succ hfuel
        rw [bind_done (advance_eq h), List.length_cons, List.count_cons, Nat.add_comm,
          Nat.add_comm (List.count _ _)]
        show (if (b == '\n'.toUInt8) = true then _ else _ : Scanner Unit) source (s.past 1 0) = _
        split
        · have hcounted : countLine source (s.past 1 0) = .done () (s.past 1 1) := rfl
          have hahead : Ahead source (s.past 1 1) bytes := h.step
          refine (bind_done hcounted).trans ?_
          show takeContents fuel source (s.past 1 1) = _
          rw [ih hahead hrest, State.past_past]
        · show takeContents fuel source (s.past 1 0) = _
          rw [ih h.step hrest, State.past_past]
      · rfl

/-- **The contents of a string are taken**, to the next quote or to the end of the source. -/
theorem takeContents_eq {fuel : Nat} {cs : List Char} (h : Between source before cs s.curr)
    (hfuel : octets cs < fuel) :
    takeContents fuel source s
      = .done () (s.past (octets (cs.takeWhile (· != '"')))
        ((cs.takeWhile (· != '"')).count '\n')) := by
  have hagrees : Agrees (· != '"'.toUInt8) (· != '"') := (agrees_beq (by decide)).not
  rw [← length_encoded] at hfuel
  rw [takeContents_octets h.ahead hfuel, takeWhile_encoded hagrees, length_encoded,
    count_encoded (by decide)]

/-- How far it is to an octet, or to the end. -/
theorem findIdx?_getD (p : UInt8 → Bool) (bytes : List UInt8) :
    (bytes.findIdx? p).getD bytes.length = (bytes.takeWhile fun b => !p b).length := by
  induction bytes with
  | nil => rfl
  | cons b bytes ih =>
    rw [List.findIdx?_cons, List.takeWhile_cons]
    cases p b with
    | true => rfl
    | false =>
      show ((bytes.findIdx? p).map (· + 1)).getD (bytes.length + 1) = _ + 1
      rw [← ih]
      cases bytes.findIdx? p <;> rfl

/-- **The rest of a line is passed over.** -/
theorem skipLine_eq {cs : List Char} (h : Between source before cs s.curr) :
    skipLine source s = .done () (s.past (octets (cs.takeWhile (· != '\n'))) 0) := by
  have hagrees : Agrees (· != '\n'.toUInt8) (· != '\n') := (agrees_beq (by decide)).not
  have hsize := h.size
  have hall : Between source before (cs ++ []) s.curr := by rwa [List.append_nil]
  have hoctets : octetsBetween s.curr source.utf8ByteSize source s
      = .done (String.ofList cs).toUTF8 s := by
    rw [hsize]
    exact octetsBetween_eq hall
  have hfar := findIdx?_getD (· == '\n'.toUInt8) (encoded cs)
  have htake : (encoded cs).takeWhile (fun b => !(b == '\n'.toUInt8))
      = encoded (cs.takeWhile (· != '\n')) := takeWhile_encoded hagrees cs
  rw [htake, length_encoded, length_encoded] at hfar
  have hfind : find? '\n'.toUInt8 (String.ofList cs).toUTF8
      = (encoded cs).findIdx? (· == '\n'.toUInt8) := by
    rw [find?, data_ofList]
  refine (bind_done (p := state) rfl).trans ?_
  refine (bind_done (p := size) rfl).trans ?_
  refine (bind_done hoctets).trans ?_
  rw [hfind]
  rw [← hfar]
  cases (encoded cs).findIdx? (· == '\n'.toUInt8) with
  | some n => rfl
  | none =>
    show Outcome.done () { s with curr := source.utf8ByteSize } = _
    rw [hsize]
    rfl

end Lox.Octets
