/-
  Lox.Bindings
  ────────────
  **NAMES WITH VALUES.**

  A finite map from names, in the order in which the names first came.  Scopes,
  fields and methods are such maps.
-/

namespace Lox

/-! ## §1. Operations. -/

/-- Values under names; no name comes twice. -/
abbrev Bindings (α : Type) := List (String × α)

namespace Bindings

variable {α : Type}

/-- The value of a name. -/
def get? : Bindings α → String → Option α
  | [], _ => none
  | (key, value) :: rest, name => if key = name then some value else get? rest name

/-- Whether a name has a value. -/
def binds (b : Bindings α) (name : String) : Bool :=
  (b.get? name).isSome

/-- Give a name a value, in place of the one it may have. -/
def insert : Bindings α → String → α → Bindings α
  | [], name, value => [(name, value)]
  | (key, old) :: rest, name, value =>
      if key = name then (key, value) :: rest else (key, old) :: insert rest name value

/-- The names, the oldest first. -/
def names (b : Bindings α) : List String :=
  b.map Prod.fst

/-- The names in the order of their characters. -/
def sortedNames (b : Bindings α) : List String :=
  b.names.mergeSort (fun x y => decide (x ≤ y))

/-! ## §2. What inserting does. -/

@[simp]
theorem get?_nil (name : String) : get? ([] : Bindings α) name = none := rfl

/-- A name that was just bound has its new value, and no other name changes. -/
@[simp]
theorem get?_insert (b : Bindings α) (name other : String) (value : α) :
    (b.insert name value).get? other = if name = other then some value else b.get? other := by
  induction b with
  | nil => rfl
  | cons pair rest ih =>
    obtain ⟨key, old⟩ := pair
    by_cases h : key = name
    · subst h
      by_cases h' : key = other <;> simp [insert, get?, h']
    · by_cases h' : key = other
      · subst h'
        simp [insert, get?, h, Ne.symm h]
      · simp [insert, get?, h, h', ih]

end Bindings

end Lox
