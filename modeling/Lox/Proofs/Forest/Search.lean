/-
  Lox.Proofs.Forest.Search
  ────────────────────────
  **A VARIABLE BY ITS NAME AND BY ITS DISTANCE.**

  A variable is found by searching a chain of scopes for its name, or by
  following a known number of links and looking in one scope only.  Both find
  the same variable if the number is that of the nearest scope that binds the
  name (`Nearest`).  Scopes are shared: an assignment through one of them is
  seen from every scope whose search ends in the same place, and from nowhere
  else.

  Main results:
    * `holder?_eq_some_iff`, `holder?_eq_none_iff`: where a search ends, said
      with distances.
    * `built_distinct`: however a forest is built, no name comes twice in a
      scope.
    * `search_eq_indexed`: search and distance agree, and an assignment changes
      one variable.
-/
import Lox.Proofs.Forest

namespace Lox

namespace Forest

variable {α : Type}

/-! ## §1. The nearest scope that binds a name. -/

/-- **The nearest scope that binds a name**: it is this number of links away,
and no scope fewer links away binds the name. -/
structure Nearest (f : Forest α) (id : ScopeId) (name : String) (distance : Nat) (a : ScopeId) :
    Prop where
  ancestor : f.ancestor? id distance = some a
  binds : (f.bindings a).binds name
  least : ∀ k b, f.ancestor? id k = some b → (f.bindings b).binds name → distance ≤ k

section Nearest

variable {f : Forest α} {id a p : ScopeId} {name : String} {d : Nat}

theorem nearest_zero (h : (f.bindings id).binds name) : f.Nearest id name 0 id :=
  ⟨rfl, h, fun _ _ _ _ => Nat.zero_le _⟩

/-- What is nearest from the scope around is nearest from inside, one link
further away. -/
theorem Nearest.inside (hbinds : ¬ (f.bindings id).binds name) (hp : f.enclosing? id = some p)
    (h : f.Nearest p name d a) : f.Nearest id name (d + 1) a := by
  refine ⟨?_, h.binds, ?_⟩
  · rw [ancestor?, hp]
    exact h.ancestor
  · intro k b hb hbound
    cases k with
    | zero =>
      cases hb
      exact absurd hbound hbinds
    | succ k =>
      rw [ancestor?, hp] at hb
      exact Nat.succ_le_succ (h.least k b hb hbound)

/-- A scope that is not the nearest itself leads to it. -/
theorem Nearest.outside (h : f.Nearest id name (d + 1) a) :
    ∃ p, f.enclosing? id = some p ∧ ¬ (f.bindings id).binds name ∧ f.Nearest p name d a := by
  obtain ⟨p, hp, ha⟩ := Option.bind_eq_some_iff.mp h.ancestor
  refine ⟨p, hp, ?_, ha, h.binds, ?_⟩
  · intro hbinds
    exact Nat.not_succ_le_zero d (h.least 0 id rfl hbinds)
  · intro k b hb hbound
    refine Nat.le_of_succ_le_succ (h.least (k + 1) b ?_ hbound)
    rw [ancestor?, hp]
    exact hb

theorem Nearest.holder? (h : f.Nearest id name d a) : f.holder? name id = some a := by
  induction d generalizing id with
  | zero =>
    cases h.ancestor
    exact holder?_of_binds h.binds
  | succ d ih =>
    obtain ⟨p, hp, hbinds, hnearest⟩ := h.outside
    rw [holder?_of_enclosing? hbinds hp, ih hnearest]

theorem exists_nearest (h : f.holder? name id = some a) : ∃ d, f.Nearest id name d a := by
  -- on the scope: the one around it is older
  induction id using Nat.strongRecOn with
  | ind id ih =>
    rw [holder?_eq] at h
    split at h
    · next hbinds =>
      cases h
      exact ⟨0, nearest_zero hbinds⟩
    · next hbinds =>
      obtain ⟨p, hp, ha⟩ := Option.bind_eq_some_iff.mp h
      obtain ⟨d, hd⟩ := ih p (enclosing?_lt hp) ha
      exact ⟨d + 1, hd.inside hbinds hp⟩

/-- **A search ends in the nearest scope that binds the name.** -/
theorem holder?_eq_some_iff : f.holder? name id = some a ↔ ∃ d, f.Nearest id name d a :=
  ⟨exists_nearest, fun ⟨_, h⟩ => h.holder?⟩

/-- **A search finds nothing** if no scope on the chain binds the name. -/
theorem holder?_eq_none_iff :
    f.holder? name id = none
      ↔ ∀ d a, f.ancestor? id d = some a → ¬ (f.bindings a).binds name := by
  constructor
  · intro h d
    induction d generalizing id with
    | zero =>
      rintro a ⟨⟩ hbinds
      rw [holder?_of_binds hbinds] at h
      cases h
    | succ d ih =>
      intro a ha
      obtain ⟨p, hp, ha⟩ := Option.bind_eq_some_iff.mp ha
      rw [holder?_eq] at h
      split at h
      · cases h
      · rw [hp] at h
        exact ih h a ha
  · intro h
    cases hholder : f.holder? name id with
    | none => rfl
    | some a =>
      obtain ⟨d, hd⟩ := exists_nearest hholder
      exact absurd hd.binds (h d a hd.ancestor)

/-! ## §2. Search and distance. -/

theorem get_of_holder? (h : f.holder? name id = some a) :
    ∃ v, (f.bindings a).get? name = some v ∧ f.get id name = .ok v := by
  obtain ⟨v, hv⟩ := (Bindings.binds_iff _ _).mp (binds_of_holder? h)
  refine ⟨v, hv, ?_⟩
  unfold get
  rw [h, Option.bind_some, hv]

theorem get_of_holder?_eq_none (h : f.holder? name id = none) :
    f.get id name = .error (.undefinedVariable name) := by
  unfold get
  rw [h]
  rfl

theorem Nearest.get (h : f.Nearest id name d a) :
    ∃ v, f.get id name = .ok v ∧ f.getAt id d name = .ok v := by
  obtain ⟨v, hv, hget⟩ := get_of_holder? h.holder?
  exact ⟨v, hget, getAt_of_ancestor? h.ancestor hv⟩

theorem Nearest.assign (h : f.Nearest id name d a) (v : α) :
    f.assign id name v = .ok (f.define a name v) := by
  unfold Forest.assign target
  rw [h.holder?]
  rfl

theorem Nearest.assignAt (h : f.Nearest id name d a) (v : α) :
    f.assignAt id d name v = .ok (f.define a name v) := by
  unfold Forest.assignAt
  rw [targetAt_of_ancestor? h.ancestor, if_pos h.binds]
  rfl

theorem assign_of_holder?_eq_none (h : f.holder? name id = none) (v : α) :
    f.assign id name v = .error (.undefinedVariable name) := by
  unfold Forest.assign target
  rw [h]
  rfl

end Nearest

/-! ## §3. A bound variable gets another value. -/

section Rebound

variable {f : Forest α} {a : ScopeId} {name : String} (v : α)

theorem binds_define (h : (f.bindings a).binds name) (id : ScopeId) (other : String) :
    ((f.define a name v).bindings id).binds other = (f.bindings id).binds other := by
  obtain ⟨old, hold⟩ := (Bindings.binds_iff _ _).mp h
  unfold Bindings.binds
  rw [get?_define f a name v (lt_nextId_of_get? hold)]
  split
  · next heq =>
    obtain ⟨rfl, rfl⟩ := heq
    rw [hold]
    rfl
  · rfl

/-- Every search ends where it ended before. -/
theorem holder?_define (h : (f.bindings a).binds name) (id : ScopeId) (other : String) :
    (f.define a name v).holder? other id = f.holder? other id := by
  induction id using Nat.strongRecOn with
  | ind id ih =>
    rw [holder?_eq, holder?_eq, binds_define v h, enclosing?_define]
    cases hp : f.enclosing? id with
    | none => rfl
    | some p => rw [Option.bind_some, Option.bind_some, ih p (enclosing?_lt hp)]

theorem ancestor?_define (id : ScopeId) (d : Nat) :
    (f.define a name v).ancestor? id d = f.ancestor? id d := by
  induction d generalizing id with
  | zero => rfl
  | succ d ih =>
    rw [ancestor?, ancestor?, enclosing?_define]
    exact congrArg _ (funext ih)

/-- A search that ends in the changed scope finds the new value. -/
theorem get_define_of_holder? {id : ScopeId} (h : f.holder? name id = some a) :
    (f.define a name v).get id name = .ok v := by
  have hbinds : (f.bindings a).binds name := binds_of_holder? h
  obtain ⟨old, hold⟩ := (Bindings.binds_iff _ _).mp hbinds
  unfold get
  rw [holder?_define v hbinds, h, Option.bind_some,
    get?_define f a name v (lt_nextId_of_get? hold), if_pos ⟨rfl, rfl⟩]

/-- Every other search finds what it found before. -/
theorem get_define_of_ne (h : (f.bindings a).binds name) {id : ScopeId} {other : String}
    (hne : other = name → f.holder? name id ≠ some a) :
    (f.define a name v).get id other = f.get id other := by
  obtain ⟨old, hold⟩ := (Bindings.binds_iff _ _).mp h
  unfold get
  rw [holder?_define v h]
  cases hholder : f.holder? other id with
  | none => rfl
  | some b =>
    have hother : ¬ (b = a ∧ name = other) := by
      rintro ⟨rfl, rfl⟩
      exact hne rfl hholder
    rw [Option.bind_some, Option.bind_some, get?_define f a name v (lt_nextId_of_get? hold),
      if_neg hother]

theorem getAt_define_of_ne (h : (f.bindings a).binds name) {id : ScopeId} {d : Nat}
    {other : String} (hne : other = name → f.ancestor? id d ≠ some a) :
    (f.define a name v).getAt id d other = f.getAt id d other := by
  obtain ⟨old, hold⟩ := (Bindings.binds_iff _ _).mp h
  unfold getAt
  rw [ancestor?_define]
  cases hancestor : f.ancestor? id d with
  | none => rfl
  | some b =>
    have hother : ¬ (b = a ∧ name = other) := by
      rintro ⟨rfl, rfl⟩
      exact hne rfl hancestor
    dsimp only
    rw [get?_define f a name v (lt_nextId_of_get? hold), if_neg hother]

end Rebound

end Forest

/-! ## §4. No name comes twice. -/

namespace Bindings

variable {α : Type}

theorem nodup_insert {b : Bindings α} (h : b.names.Nodup) (name : String) (v : α) :
    (b.insert name v).names.Nodup := by
  rw [names_insert]
  split
  · exact h
  · next hbinds =>
    rw [← mem_names] at hbinds
    refine List.nodup_append.mpr ⟨h, List.pairwise_singleton _ name, ?_⟩
    rintro x hx y hy rfl
    rw [List.mem_singleton.mp hy] at hx
    exact hbinds hx

/-- The only binding of a name is changed in its place. -/
theorem insert_eq_map {b : Bindings α} (h : b.names.Nodup) {name : String}
    (hbinds : b.binds name) (v : α) :
    b.insert name v = b.map fun p => if p.1 = name then (p.1, v) else p := by
  induction b with
  | nil => cases hbinds
  | cons pair rest ih =>
    obtain ⟨key, old⟩ := pair
    obtain ⟨hkey, hrest⟩ := List.nodup_cons.mp h
    rw [insert, List.map_cons]
    by_cases heq : key = name
    · subst heq
      have hother : ∀ p ∈ rest, (if p.1 = key then (p.1, v) else p) = id p := by
        intro p hp
        have hmem : p.1 ∈ names rest := List.mem_map_of_mem hp
        refine if_neg fun heq => hkey ?_
        rw [heq] at hmem
        exact hmem
      rw [if_pos rfl, if_pos rfl, List.map_congr_left hother, List.map_id]
    · have hbound : Bindings.binds rest name := by
        unfold binds at hbinds
        rw [get?, if_neg heq] at hbinds
        exact hbinds
      rw [if_neg heq, if_neg heq, ih hrest hbound]

end Bindings

namespace Forest

variable {α : Type}

/-- No name comes twice in a scope. -/
def Distinct (f : Forest α) : Prop :=
  ∀ id, (f.bindings id).names.Nodup

/-! ## §5. Building a forest. -/

/-- What can be asked of a forest. -/
inductive Request (α : Type) where
  /-- A new scope with no scope around it. -/
  | root
  /-- A new scope inside another one. -/
  | child (parent : ScopeId)
  /-- Give a name a value in a scope. -/
  | define (id : ScopeId) (name : String) (value : α)
  /-- Give the nearest variable with a name another value. -/
  | assign (id : ScopeId) (name : String) (value : α)
  /-- Give the variable at a distance another value. -/
  | assignAt (id : ScopeId) (distance : Nat) (name : String) (value : α)

/-- The forest after an assignment, and its result; one that fails changes
nothing. -/
def settle (f : Forest α) : Except RuntimeFault (Forest α) → Forest α × Except RuntimeFault Unit
  | .ok f' => (f', .ok ())
  | .error fault => (f, .error fault)

/-- **Do what is asked**: the forest after it, and the result. -/
def perform (f : Forest α) : Request α → Forest α × Except RuntimeFault Unit
  -- no scope has the number of the next new one yet, so none is around it
  | .root => (f.child f.nextId [], .ok ())
  | .child parent => (f.child parent [], .ok ())
  | .define id name value => (f.define id name value, .ok ())
  | .assign id name value => f.settle (f.assign id name value)
  | .assignAt id distance name value => f.settle (f.assignAt id distance name value)

/-- **The forest that requests build**, one after another. -/
def built (requests : List (Request α)) : Forest α :=
  requests.foldl (fun f request => (f.perform request).1) Forest.root

section Distinct

variable {f : Forest α}

theorem Distinct.child (h : f.Distinct) (parent : ScopeId) : (f.child parent []).Distinct := by
  intro id
  rw [bindings_child]
  split
  · exact List.nodup_nil
  · exact h id

theorem Distinct.define (h : f.Distinct) (target : ScopeId) (name : String) (v : α) :
    (f.define target name v).Distinct := by
  intro id
  by_cases hid : id = target
  · subst hid
    by_cases hlt : id < f.nextId
    · rw [bindings_define_self f id name v hlt]
      exact Bindings.nodup_insert (h id) name v
    · rw [bindings_of_not_lt (by rw [nextId_define]; exact hlt)]
      exact List.nodup_nil
  · rw [bindings_define_of_ne f target name v hid]
    exact h id

/-- An assignment defines a variable in some scope, or fails. -/
theorem Distinct.settle (h : f.Distinct) (r : Except RuntimeFault ScopeId) (name : String) (v : α) :
    (f.settle (r.map fun a => f.define a name v)).1.Distinct := by
  cases r with
  | ok a => exact h.define a name v
  | error fault => exact h

/-- **A request keeps names apart.** -/
theorem Distinct.perform (h : f.Distinct) (request : Request α) :
    (f.perform request).1.Distinct := by
  cases request with
  | root => exact h.child _
  | child parent => exact h.child parent
  | define id name v => exact h.define id name v
  | assign id name v => exact h.settle _ name v
  | assignAt id distance name v => exact h.settle _ name v

end Distinct

/-- **However a forest is built**, no name comes twice in a scope. -/
theorem built_distinct (requests : List (Request α)) : (built requests).Distinct := by
  refine List.foldlRecOn (motive := Distinct) requests _ ?_ fun _ h request _ => h.perform request
  intro id
  cases id with
  | zero => exact List.nodup_nil
  | succ id => exact List.nodup_nil

/-! ## §6. One variable. -/

/-- **What giving one variable another value does** to a forest: the variable
is called `name` and stands in the scope `a`. -/
structure Rebinds (f f' : Forest α) (a : ScopeId) (name : String) (v : α) : Prop where
  size : f'.nextId = f.nextId
  links : ∀ id, f'.enclosing? id = f.enclosing? id
  /-- All variables of all scopes are there, in their order; one has the new
  value and the others have the values they had. -/
  bindings : ∀ id, f'.bindings id
    = (f.bindings id).map fun p => if id = a ∧ p.1 = name then (p.1, v) else p
  /-- The new value is seen from wherever the changed scope is the nearest. -/
  seen : ∀ id d, f.Nearest id name d a → f'.get id name = .ok v
  /-- It is seen from nowhere else, unless the name had this value there
  already. -/
  only : ∀ id, f.get id name ≠ .ok v → (f'.get id name = .ok v ↔ ∃ d, f.Nearest id name d a)
  /-- Every other search finds what it found. -/
  kept : ∀ id other, (other = name → ∀ d, ¬ f.Nearest id name d a) →
    f'.get id other = f.get id other
  /-- So does every other look at a distance. -/
  keptAt : ∀ id d other, (other = name → f.ancestor? id d ≠ some a) →
    f'.getAt id d other = f.getAt id d other

theorem rebinds_define {f : Forest α} (hf : f.Distinct) {a : ScopeId} {name : String}
    (h : (f.bindings a).binds name) (v : α) : f.Rebinds (f.define a name v) a name v := by
  have hkept : ∀ id other, (other = name → ∀ d, ¬ f.Nearest id name d a) →
      (f.define a name v).get id other = f.get id other := by
    intro id other hne
    refine get_define_of_ne v h fun heq hholder => ?_
    obtain ⟨d, hd⟩ := exists_nearest hholder
    exact hne heq d hd
  have hseen : ∀ id d, f.Nearest id name d a → (f.define a name v).get id name = .ok v :=
    fun id d hd => get_define_of_holder? v hd.holder?
  refine ⟨nextId_define f a name v, enclosing?_define f a name v, ?_, hseen, ?_, hkept, ?_⟩
  · intro id
    by_cases hid : id = a
    · subst hid
      obtain ⟨old, hold⟩ := (Bindings.binds_iff _ _).mp h
      rw [bindings_define_self f id name v (lt_nextId_of_get? hold),
        Bindings.insert_eq_map (hf id) h]
      simp only [true_and]
    · rw [bindings_define_of_ne f a name v hid]
      simp only [hid, false_and, if_false, List.map_id']
  · intro id hold
    rw [← holder?_eq_some_iff]
    constructor
    · intro hnew
      by_cases hholder : f.holder? name id = some a
      · exact hholder
      · rw [hkept id name fun _ d hd => hholder hd.holder?] at hnew
        exact absurd hnew hold
    · exact get_define_of_holder? v
  · exact fun id d other hne => getAt_define_of_ne v h hne

/-- **Searching a chain and following a known number of links agree.**  In every
forest that requests build: if the scope `a`, `d` links away from `id`, is the nearest
that binds a name, then the search for the name and a look at the distance `d` find the
same value, and an assignment by search does what an assignment at the distance
does: it succeeds and changes one variable of one scope, seen from exactly the scopes
whose nearest scope that binds the name is `a`.  If no scope on the chain binds the name,
both fail with "Undefined variable", and the forest stays as it is. -/
theorem search_eq_indexed (requests : List (Request α)) (id : ScopeId) (name : String) (v : α) :
    let f := built requests
    (∀ d a, f.Nearest id name d a →
      (∃ old, f.get id name = .ok old ∧ f.getAt id d name = .ok old)
      ∧ f.perform (.assign id name v) = f.perform (.assignAt id d name v)
      ∧ ∃ f', f.perform (.assign id name v) = (f', .ok ()) ∧ f.Rebinds f' a name v)
    ∧ ((∀ d a, f.ancestor? id d = some a → ¬ (f.bindings a).binds name) →
      f.get id name = .error (.undefinedVariable name)
      ∧ f.perform (.assign id name v) = (f, .error (.undefinedVariable name))
      ∧ (RuntimeFault.undefinedVariable name).message = "Undefined variable '" ++ name ++ "'.") := by
  intro f
  constructor
  · intro d a h
    have hassign : f.perform (.assign id name v) = (f.define a name v, .ok ()) := by
      rw [perform, h.assign]
      rfl
    have hassignAt : f.perform (.assignAt id d name v) = (f.define a name v, .ok ()) := by
      rw [perform, h.assignAt]
      rfl
    exact ⟨h.get, hassign.trans hassignAt.symm, _, hassign,
      rebinds_define (built_distinct requests) h.binds v⟩
  · intro h
    have hholder : f.holder? name id = none := holder?_eq_none_iff.mpr h
    refine ⟨get_of_holder?_eq_none hholder, ?_, rfl⟩
    rw [perform, assign_of_holder?_eq_none hholder]
    rfl

/-- Two scopes inside one share it: the second sees what is assigned through the first. -/
example : (built [.define 0 "x" 1, .child 0, .child 0, .assign 1 "x" 2]).get 2 "x" = .ok 2 := by
  cbv

end Forest

end Lox
