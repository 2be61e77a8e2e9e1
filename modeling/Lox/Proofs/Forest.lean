/-
  Lox.Proofs.Forest
  ─────────────────
  **WHAT ADDING SCOPES AND VARIABLES DOES TO CHAINS.**

  A new scope and a new variable leave all links in place, so the scope at a
  distance stays where it is.  Searching a chain for a name is described one
  link at a time (`holder?_eq`).  What is found does not depend on the values:
  a forest with other values has them in the same places.
-/
import Lox.Forest
import Lox.Proofs.Resolve.Scopes

/-! ## §1. Names. -/

namespace Lox.Bindings

variable {α : Type} (b : Bindings α) (name : String)

/-- The names are those that are bound. -/
theorem mem_names : name ∈ b.names ↔ b.binds name := by
  unfold names binds
  induction b with
  | nil => simp [get?]
  | cons pair rest ih =>
    obtain ⟨key, v⟩ := pair
    rw [List.map_cons, List.mem_cons, ih, get?]
    by_cases hkey : key = name
    · simp [hkey]
    · simp [hkey, Ne.symm hkey]

/-- A name that is new comes after those that are there. -/
theorem names_insert (v : α) :
    (b.insert name v).names = if b.binds name then b.names else b.names ++ [name] := by
  induction b with
  | nil => rfl
  | cons pair rest ih =>
    obtain ⟨key, old⟩ := pair
    unfold names binds at ih ⊢
    by_cases hkey : key = name
    · subst hkey
      simp [insert, get?]
    · rw [insert, if_neg hkey, List.map_cons, ih, get?, if_neg hkey]
      split <;> rfl

end Lox.Bindings

namespace Lox.Forest

variable {α : Type}

/-! ## §2. Scopes that exist. -/

theorem lt_nextId_of_get? {f : Forest α} {id : ScopeId} {name : String} {v : α}
    (h : (f.bindings id).get? name = some v) : id < f.nextId := by
  unfold bindings at h
  cases hs : f.scopes[id]? with
  | none =>
    rw [hs] at h
    cases h
  | some s => exact (Array.getElem?_eq_some_iff.mp hs).1

/-- A scope that does not exist has no variables. -/
theorem bindings_of_not_lt {f : Forest α} {id : ScopeId} (h : ¬ id < f.nextId) :
    f.bindings id = [] := by
  unfold bindings
  rw [Array.getElem?_eq_none (Nat.le_of_not_lt h)]
  rfl

theorem lt_nextId_of_enclosing? {f : Forest α} {id p : ScopeId} (h : f.enclosing? id = some p) :
    id < f.nextId := by
  obtain ⟨s, hs, -⟩ := Option.bind_eq_some_iff.mp h
  exact (Array.getElem?_eq_some_iff.mp hs).1

theorem enclosing?_lt {f : Forest α} {id p : ScopeId} (h : f.enclosing? id = some p) : p < id := by
  obtain ⟨s, hs, hp⟩ := Option.bind_eq_some_iff.mp h
  exact f.links id p s hs hp

/-- The scope at a distance is not newer than the one it starts from. -/
theorem ancestor?_le {f : Forest α} {id a : ScopeId} {distance : Nat}
    (h : f.ancestor? id distance = some a) : a ≤ id := by
  induction distance generalizing id with
  | zero =>
    cases h
    exact Nat.le_refl a
  | succ distance ih =>
    obtain ⟨p, hp, ha⟩ := Option.bind_eq_some_iff.mp h
    have hlt : p < id := enclosing?_lt hp
    exact Nat.le_trans (ih ha) (Nat.le_of_lt hlt)

/-! ## §3. A new scope. -/

section Child

variable (f : Forest α) (parent : ScopeId) (b : Bindings α)

@[simp]
theorem nextId_child : (f.child parent b).nextId = f.nextId + 1 := by
  unfold child nextId
  exact Array.size_push _

/-- A new scope has a number of its own. -/
theorem nextId_lt_child : f.nextId < (f.child parent b).nextId := by
  rw [nextId_child]
  exact Nat.lt_succ_self _

theorem scopes_child (id : ScopeId) :
    (f.child parent b).scopes[id]?
      = if id = f.nextId then some ⟨b, if parent < f.nextId then some parent else none⟩
        else f.scopes[id]? := by
  unfold child nextId
  exact Array.getElem?_push

theorem bindings_child (id : ScopeId) :
    (f.child parent b).bindings id = if id = f.nextId then b else f.bindings id := by
  unfold bindings
  rw [scopes_child]
  by_cases h : id = f.nextId
  · rw [if_pos h, if_pos h]
    rfl
  · rw [if_neg h, if_neg h]

@[simp]
theorem bindings_child_self : (f.child parent b).bindings f.nextId = b := by
  rw [bindings_child, if_pos rfl]

theorem bindings_child_of_lt {id : ScopeId} (h : id < f.nextId) :
    (f.child parent b).bindings id = f.bindings id := by
  rw [bindings_child, if_neg (Nat.ne_of_lt h)]

/-- The bindings of a scope that does not exist are empty, so a new scope only
adds bindings. -/
theorem get?_child_of_get? {id : ScopeId} {name : String} {v : α}
    (h : (f.bindings id).get? name = some v) :
    ((f.child parent b).bindings id).get? name = some v := by
  rw [bindings_child_of_lt f parent b (lt_nextId_of_get? h)]
  exact h

theorem enclosing?_child (id : ScopeId) :
    (f.child parent b).enclosing? id
      = if id = f.nextId then (if parent < f.nextId then some parent else none)
        else f.enclosing? id := by
  unfold enclosing?
  rw [scopes_child]
  by_cases h : id = f.nextId
  · rw [if_pos h, if_pos h]
    rfl
  · rw [if_neg h, if_neg h]

theorem enclosing?_child_self (h : parent < f.nextId) :
    (f.child parent b).enclosing? f.nextId = some parent := by
  rw [enclosing?_child, if_pos rfl, if_pos h]

theorem enclosing?_child_of_lt {id : ScopeId} (h : id < f.nextId) :
    (f.child parent b).enclosing? id = f.enclosing? id := by
  rw [enclosing?_child, if_neg (Nat.ne_of_lt h)]

end Child

/-! ## §4. A variable gets a value. -/

section Define

variable (f : Forest α) (target : ScopeId) (name : String) (v : α)

@[simp]
theorem nextId_define : (f.define target name v).nextId = f.nextId := by
  unfold define update nextId
  exact Array.size_modify

@[simp]
theorem enclosing?_define (id : ScopeId) :
    (f.define target name v).enclosing? id = f.enclosing? id := by
  unfold define update enclosing?
  dsimp only
  rw [Array.getElem?_modify]
  split
  · next h =>
    subst h
    cases f.scopes[target]? <;> rfl
  · rfl

theorem bindings_define_of_ne {id : ScopeId} (h : id ≠ target) :
    (f.define target name v).bindings id = f.bindings id := by
  unfold define update bindings
  dsimp only
  rw [Array.getElem?_modify, if_neg (Ne.symm h)]

theorem bindings_define_self (h : target < f.nextId) :
    (f.define target name v).bindings target = (f.bindings target).insert name v := by
  unfold define update bindings
  dsimp only
  rw [Array.getElem?_modify, if_pos rfl, Array.getElem?_eq_getElem h]
  rfl

/-- A variable has the value it was given, and no other one changes. -/
theorem get?_define (h : target < f.nextId) (id : ScopeId) (other : String) :
    ((f.define target name v).bindings id).get? other
      = if id = target ∧ name = other then some v else (f.bindings id).get? other := by
  by_cases hid : id = target
  · subst hid
    rw [bindings_define_self f id name v h, Bindings.get?_insert]
    by_cases hname : name = other
    · rw [if_pos hname, if_pos ⟨rfl, hname⟩]
    · rw [if_neg hname, if_neg fun hand => hname hand.2]
  · rw [bindings_define_of_ne f target name v hid, if_neg fun hand => hid hand.1]

end Define

/-! ## §5. Searching and following chains. -/

/-- The search for a name, one link at a time. -/
theorem holder?_eq (f : Forest α) (name : String) (id : ScopeId) :
    f.holder? name id
      = if (f.bindings id).binds name then some id
        else (f.enclosing? id).bind (f.holder? name) := by
  rw [holder?]
  unfold bindings enclosing?
  split
  · next hs =>
    rw [hs]
    rfl
  · next s hs =>
    rw [hs]
    show _ = if s.bindings.binds name then some id else s.enclosing.bind (f.holder? name)
    by_cases hb : s.bindings.binds name
    · rw [if_pos hb, if_pos hb]
    · rw [if_neg hb, if_neg hb]
      split
      · next hp =>
        rw [hp]
        rfl
      · next p hp =>
        rw [hp]
        rfl

theorem holder?_of_binds {f : Forest α} {name : String} {id : ScopeId}
    (h : (f.bindings id).binds name) : f.holder? name id = some id := by
  rw [holder?_eq, if_pos h]

theorem holder?_of_enclosing? {f : Forest α} {name : String} {id p : ScopeId}
    (h : ¬ (f.bindings id).binds name) (hp : f.enclosing? id = some p) :
    f.holder? name id = f.holder? name p := by
  rw [holder?_eq, if_neg h, hp]
  rfl

/-- A chain without a link to follow is searched in one scope. -/
theorem holder?_of_root {f : Forest α} {name : String} {id : ScopeId}
    (hp : f.enclosing? id = none) :
    f.holder? name id = if (f.bindings id).binds name then some id else none := by
  rw [holder?_eq, hp]
  rfl

/-- A scope that the search for a name ends in binds it. -/
theorem binds_of_holder? {f : Forest α} {name : String} {id a : ScopeId}
    (h : f.holder? name id = some a) : (f.bindings a).binds name := by
  induction id using Nat.strongRecOn with
  | ind id ih =>
    rw [holder?_eq] at h
    split at h
    · next hbinds =>
      cases h
      exact hbinds
    · obtain ⟨p, hp, ha⟩ := Option.bind_eq_some_iff.mp h
      exact ih p (enclosing?_lt hp) ha

theorem binds_of_target {f : Forest α} {name : String} {id a : ScopeId}
    (h : f.target id name = .ok a) : (f.bindings a).binds name := by
  unfold target at h
  split at h
  · next hholder =>
    cases h
    exact binds_of_holder? hholder
  · cases h

theorem binds_of_targetAt {f : Forest α} {name : String} {id a : ScopeId} {distance : Nat}
    (h : f.targetAt id distance name = .ok a) : (f.bindings a).binds name := by
  unfold targetAt at h
  split at h
  · cases h
  · split at h
    · next hbinds =>
      cases h
      exact hbinds
    · cases h

/-- The scope at a distance stays the same as long as links do. -/
theorem ancestor?_of_enclosing? {f f' : Forest α}
    (h : ∀ id p, f.enclosing? id = some p → f'.enclosing? id = some p) {id a : ScopeId}
    {distance : Nat} (ha : f.ancestor? id distance = some a) :
    f'.ancestor? id distance = some a := by
  induction distance generalizing id with
  | zero => exact ha
  | succ distance ih =>
    obtain ⟨p, hp, ha⟩ := Option.bind_eq_some_iff.mp ha
    show (f'.enclosing? id).bind _ = some a
    rw [h id p hp]
    exact ih ha

theorem getAt_of_ancestor? {f : Forest α} {id a : ScopeId} {distance : Nat} {name : String} {v : α}
    (ha : f.ancestor? id distance = some a) (hv : (f.bindings a).get? name = some v) :
    f.getAt id distance name = .ok v := by
  unfold getAt
  rw [ha]
  dsimp only
  rw [hv]

theorem targetAt_of_ancestor? {f : Forest α} {id a : ScopeId} {distance : Nat} {name : String}
    (ha : f.ancestor? id distance = some a) :
    f.targetAt id distance name
      = if (f.bindings a).binds name then .ok a else .error (.undefinedVariable name) := by
  unfold targetAt
  rw [ha]

end Lox.Forest

/-! ## §6. Changing all values. -/

namespace Lox

variable {α β : Type} (g : α → β)

/-- Names with other values. -/
def Bindings.mapValues (b : Bindings α) : Bindings β :=
  b.map fun p => (p.1, g p.2)

namespace Bindings

@[simp]
theorem get?_mapValues (b : Bindings α) (name : String) :
    (b.mapValues g).get? name = (b.get? name).map g := by
  induction b with
  | nil => rfl
  | cons pair rest ih =>
    obtain ⟨key, v⟩ := pair
    unfold mapValues
    rw [List.map_cons, get?, get?]
    split
    · rfl
    · exact ih

@[simp]
theorem binds_mapValues (b : Bindings α) (name : String) :
    (b.mapValues g).binds name = b.binds name := by
  unfold binds
  rw [get?_mapValues, Option.isSome_map]

theorem insert_mapValues (b : Bindings α) (name : String) (v : α) :
    (b.mapValues g).insert name (g v) = (b.insert name v).mapValues g := by
  induction b with
  | nil => rfl
  | cons pair rest ih =>
    obtain ⟨key, old⟩ := pair
    unfold mapValues at ih ⊢
    rw [List.map_cons, insert, insert]
    split
    · rfl
    · rw [ih]
      rfl

end Bindings

namespace Forest

/-- A forest of the same shape with other values. -/
def mapValues (f : Forest α) : Forest β where
  scopes := f.scopes.map fun s => ⟨s.bindings.mapValues g, s.enclosing⟩
  links := by
    intro i p s hs hp
    rw [Array.getElem?_map] at hs
    obtain ⟨s', hs', rfl⟩ := Option.map_eq_some_iff.mp hs
    exact f.links i p s' hs' hp

variable (f : Forest α)

@[simp]
theorem nextId_mapValues : (f.mapValues g).nextId = f.nextId := by
  simp [nextId, mapValues]

@[simp]
theorem bindings_mapValues (id : ScopeId) :
    (f.mapValues g).bindings id = (f.bindings id).mapValues g := by
  unfold bindings mapValues
  rw [Array.getElem?_map]
  cases f.scopes[id]? <;> rfl

@[simp]
theorem enclosing?_mapValues (id : ScopeId) : (f.mapValues g).enclosing? id = f.enclosing? id := by
  unfold enclosing? mapValues
  rw [Array.getElem?_map]
  cases f.scopes[id]? <;> rfl

theorem ext_scopes {f f' : Forest α} (h : f.scopes = f'.scopes) : f = f' := by
  cases f
  cases f'
  cases h
  rfl

theorem child_mapValues (parent : ScopeId) (b : Bindings α) :
    (f.mapValues g).child parent (b.mapValues g) = (f.child parent b).mapValues g := by
  apply ext_scopes
  simp [child, mapValues]

theorem define_mapValues (id : ScopeId) (name : String) (v : α) :
    (f.mapValues g).define id name (g v) = (f.define id name v).mapValues g := by
  apply ext_scopes
  apply Array.ext_getElem?
  intro i
  simp only [define, update, mapValues, Array.getElem?_map, Array.getElem?_modify]
  split
  · cases f.scopes[i]? with
    | none => rfl
    | some s => simp [Bindings.insert_mapValues]
  · rfl

theorem ancestor?_mapValues (id : ScopeId) (distance : Nat) :
    (f.mapValues g).ancestor? id distance = f.ancestor? id distance := by
  induction distance generalizing id with
  | zero => rfl
  | succ distance ih =>
    rw [ancestor?, ancestor?, enclosing?_mapValues]
    exact congrArg _ (funext ih)

theorem holder?_mapValues (name : String) (id : ScopeId) :
    (f.mapValues g).holder? name id = f.holder? name id := by
  induction id using Nat.strongRecOn with
  | ind id ih =>
    rw [holder?_eq, holder?_eq, bindings_mapValues, Bindings.binds_mapValues, enclosing?_mapValues]
    cases hp : f.enclosing? id with
    | none => rfl
    | some p => rw [Option.bind_some, Option.bind_some, ih p (enclosing?_lt hp)]

theorem target_mapValues (id : ScopeId) (name : String) :
    (f.mapValues g).target id name = f.target id name := by
  unfold target
  rw [holder?_mapValues]

theorem targetAt_mapValues (id : ScopeId) (distance : Nat) (name : String) :
    (f.mapValues g).targetAt id distance name = f.targetAt id distance name := by
  unfold targetAt
  rw [ancestor?_mapValues]
  cases f.ancestor? id distance with
  | none => rfl
  | some a =>
    dsimp only
    rw [bindings_mapValues, Bindings.binds_mapValues]

theorem get_mapValues (id : ScopeId) (name : String) :
    (f.mapValues g).get id name = (f.get id name).map g := by
  unfold get
  rw [holder?_mapValues]
  cases f.holder? name id with
  | none => rfl
  | some a =>
    rw [Option.bind_some, Option.bind_some, bindings_mapValues, Bindings.get?_mapValues]
    cases (f.bindings a).get? name <;> rfl

theorem getAt_mapValues (id : ScopeId) (distance : Nat) (name : String) :
    (f.mapValues g).getAt id distance name = (f.getAt id distance name).map g := by
  unfold getAt
  rw [ancestor?_mapValues]
  cases f.ancestor? id distance with
  | none => rfl
  | some a =>
    dsimp only
    rw [bindings_mapValues, Bindings.get?_mapValues]
    cases (f.bindings a).get? name <;> rfl

end Forest

end Lox
