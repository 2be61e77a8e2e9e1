/-
  Lox.Proofs.Session.Numbers
  ──────────────────────────
  **A NUMBER IS USED ONCE IN A SESSION.**

  The reader takes the numbers of occurrences from an interval that starts
  where the last chunk stopped, whatever became of that chunk.  So the numbers
  of all chunks of a session are apart, and what a chunk notes in the table of
  distances never falls on an entry that is already there.

  Main results:
    * `nextId_run`: after every chunk the numbers go on where its reading
      stopped.
    * `nodup_numbers`: the numbers of all chunks together are distinct.
    * `Fresh.after`: in every session of chunks, numbers to come have no
      distances.
-/
import Lox.Proofs.Session.Rejected

namespace Lox.Session

/-! ## §1. Chunks and their numbers. -/

/-- The session after some chunks. -/
def after (s : Session) : List Chunk → Session
  | [] => s
  | c :: rest => (s.run c.fuel c.clock c.source).1.after rest

/-- The numbers of the occurrences in a source as the session reads it. -/
def numbersOf (s : Session) (source : String) : List Nat :=
  (Stmt.occurrencesAll (s.parsed source).statements).map Occurrence.id

/-- The numbers of each of the chunks. -/
def numbers (s : Session) : List Chunk → List (List Nat)
  | [] => []
  | c :: rest => s.numbersOf c.source :: (s.run c.fuel c.clock c.source).1.numbers rest

variable (s : Session)

/-- A chunk uses up the numbers it is read with, even one that is rejected. -/
theorem nextId_run (fuel : Nat) (clock : Clock) (source : String) :
    (s.run fuel clock source).1.nextId = (s.parsed source).nextId := by
  by_cases h : s.Accepts source
  · rw [run_eq h]
  · rw [(run_rejected h fuel clock).1]

theorem nodup_numbersOf (source : String) : (s.numbersOf source).Nodup :=
  (s.numbering source).1

theorem mem_numbersOf {source : String} {id : Nat} (h : id ∈ s.numbersOf source) :
    s.nextId ≤ id ∧ id < (s.parsed source).nextId := by
  obtain ⟨o, ho, rfl⟩ := List.mem_map.mp h
  exact (s.numbering source).2 o ho

/-! ## §2. Numbers of many chunks. -/

theorem le_of_mem_numbers (chunks : List Chunk) {id : Nat} (h : id ∈ (s.numbers chunks).flatten) :
    s.nextId ≤ id := by
  induction chunks generalizing s with
  | nil => cases h
  | cons c rest ih =>
    rw [numbers, List.flatten_cons, List.mem_append] at h
    rcases h with h | h
    · exact (s.mem_numbersOf h).1
    · -- the numbers of later chunks start where this one stops
      have hlater := ih _ h
      rw [nextId_run] at hlater
      have hle := s.le_nextId_parsed c.source
      omega

/-- **No number comes twice**, in one chunk or in two. -/
theorem nodup_numbers (chunks : List Chunk) : (s.numbers chunks).flatten.Nodup := by
  induction chunks generalizing s with
  | nil => exact List.nodup_nil
  | cons c rest ih =>
    rw [numbers, List.flatten_cons, List.nodup_append]
    refine ⟨s.nodup_numbersOf c.source, ih _, ?_⟩
    -- a number of this chunk lies below the ones of the chunks to come
    intro id hid id' hid' heq
    have hlt := (s.mem_numbersOf hid).2
    have hle := le_of_mem_numbers _ rest hid'
    rw [nextId_run] at hle
    omega

/-! ## §3. The table of distances. -/

/-- Numbers to come have no distances. -/
def Fresh (s : Session) : Prop :=
  ∀ id, s.nextId ≤ id → s.machine.distances[id]? = none

theorem fresh_new (capacity : Option Nat) : (Session.new capacity).Fresh := by
  intro id _
  exact Std.HashMap.getElem?_empty

variable {s : Session}

theorem Fresh.run (h : s.Fresh) (fuel : Nat) (clock : Clock) (source : String) :
    (s.run fuel clock source).1.Fresh := by
  intro id hid
  rw [nextId_run] at hid
  by_cases haccepts : s.Accepts source
  · rw [run_eq haccepts]
    exact haccepts.fresh h clock id hid
  · -- nothing is learned, but the numbers are used up all the same
    rw [(run_rejected haccepts fuel clock).1]
    have hle := s.le_nextId_parsed source
    exact h id (by omega)

theorem Fresh.after (h : s.Fresh) (chunks : List Chunk) : (s.after chunks).Fresh := by
  induction chunks generalizing s with
  | nil => exact h
  | cons c rest ih => exact ih (h.run c.fuel c.clock c.source)

/-- What a chunk notes is noted under numbers of its own. -/
theorem Accepts.notes {source : String} (h : s.Accepts source) :
    ((s.resolution source).distances.map Prod.fst).Nodup
      ∧ ∀ id ∈ (s.resolution source).distances.map Prod.fst, id ∈ s.numbersOf source := by
  have hnodup := s.nodup_numbersOf source
  have hsublist := Resolve.distances_sublist h.proper hnodup h.resolved
  exact ⟨hsublist.nodup hnodup, fun id hid => hsublist.subset hid⟩

/-- A chunk leaves the distances of all other numbers as they are. -/
theorem Fresh.keeps (h : s.Fresh) (fuel : Nat) (clock : Clock) (source : String) {id d : Nat}
    (hd : s.machine.distances[id]? = some d) :
    (s.run fuel clock source).1.machine.distances[id]? = some d := by
  by_cases haccepts : s.Accepts source
  · rw [run_eq haccepts]
    exact haccepts.distances_mono h clock id d hd
  · rw [(run_rejected haccepts fuel clock).1]
    exact hd

/-- **The numbers of occurrences are unique for the life of a session.**
However malformed the tokens are, the statements that are read from them hold
no number twice, and only numbers from the first one up to the next one.  So
the numbers of all chunks that run one after the other in a new session,
whatever becomes of each, are apart from each other; and a chunk that is
accepted after them notes distances under distinct numbers that have no
distance yet, while every distance that was known stays. -/
theorem numbers_unique :
    (∀ (firstId : Nat) (tokens : List Token),
      let p := Parse.program firstId tokens
      let ids := (Stmt.occurrencesAll p.statements).map Occurrence.id
      ids.Nodup ∧ ∀ id ∈ ids, firstId ≤ id ∧ id < p.nextId)
    ∧ ∀ (capacity : Option Nat) (chunks : List Chunk),
      ((Session.new capacity).numbers chunks).flatten.Nodup
      ∧ ∀ c : Chunk,
        let s := (Session.new capacity).after chunks
        let entries := (s.resolution c.source).distances
        (s.Accepts c.source → (entries.map Prod.fst).Nodup
          ∧ ∀ id ∈ entries.map Prod.fst, s.machine.distances[id]? = none)
        ∧ ∀ id d : Nat, s.machine.distances[id]? = some d →
          (s.run c.fuel c.clock c.source).1.machine.distances[id]? = some d := by
  refine ⟨?_, ?_⟩
  · intro firstId tokens
    obtain ⟨hnodup, hrange⟩ := Parse.program_numbering firstId tokens
    refine ⟨hnodup, ?_⟩
    intro id hid
    obtain ⟨o, ho, rfl⟩ := List.mem_map.mp hid
    exact hrange o ho
  · intro capacity chunks
    refine ⟨nodup_numbers _ chunks, ?_⟩
    intro c
    have hfresh := (fresh_new capacity).after chunks
    refine ⟨?_, fun id d hd => hfresh.keeps c.fuel c.clock c.source hd⟩
    intro haccepts
    obtain ⟨hnodup, hmem⟩ := haccepts.notes
    refine ⟨hnodup, ?_⟩
    intro id hid
    exact hfresh id (mem_numbersOf _ (hmem id hid)).1

/-- A function of the first chunk notes a distance, the second chunk is not
even read to its end, and a function of the third one notes another. -/
theorem numbers_unique_closures :
    let chunks : List Chunk :=
      [⟨60, .still 0, "fun f(a) \x7b return a; \x7d"⟩, ⟨60, .still 0, "\x7b f;"⟩]
    let c : Chunk := ⟨60, .still 0, "fun g(b) \x7b return b; \x7d"⟩
    let s := (Session.new none).after chunks
    let entries := (s.resolution c.source).distances
    s.Accepts c.source ∧ s.machine.distances[0]? = some 0
      ∧ (s.run c.fuel c.clock c.source).1.machine.distances[0]? = some 0
      ∧ ∀ id ∈ entries.map Prod.fst, s.machine.distances[id]? = none := by
  intro chunks c s entries
  have haccepts : s.Accepts c.source := ⟨by decide +kernel, by decide +kernel⟩
  have hold : s.machine.distances[0]? = some 0 := by decide +kernel
  obtain ⟨hnotes, hkeeps⟩ := (numbers_unique.2 none chunks).2 c
  exact ⟨haccepts, hold, hkeeps 0 0 hold, (hnotes haccepts).2⟩

end Lox.Session
