/-
  Lox.Sink
  ────────
  **WHERE OUTPUT GOES.**

  A sink keeps the octets written to it.  It may have a capacity: what fits is
  kept, and the rest is lost.
-/

namespace Lox

/-- The octets written so far, and how many there may be. -/
structure Sink where
  written : ByteArray
  capacity : Option Nat

namespace Sink

/-- A sink that nothing was written to. -/
def empty (capacity : Option Nat) : Sink :=
  ⟨ByteArray.empty, capacity⟩

/-- The first of some octets, as many as fit into a sink. -/
def fitting (s : Sink) (bytes : ByteArray) : ByteArray :=
  match s.capacity with
  | none => bytes
  | some n => bytes.extract 0 (n - s.written.size)

/-- Whether all octets fit into a sink. -/
def fits (s : Sink) (bytes : ByteArray) : Bool :=
  match s.capacity with
  | none => true
  | some n => bytes.size ≤ n - s.written.size

/-- Write octets, as far as they fit. -/
def write (s : Sink) (bytes : ByteArray) : Sink :=
  let kept := s.fitting bytes
  let ⟨written, capacity⟩ := s
  ⟨written ++ kept, capacity⟩

end Sink

end Lox
