/-
  Lox.Proofs.Lexical.Cells
  ────────────────────────
  **SCOPES THAT GROW AND ENVIRONMENTS THAT DO NOT.**

  A program with distances keeps all names of a block in one scope that grows;
  without distances each declaration is a scope of its own.  The two stores
  are related by a map of cells: it takes a scope that grows and a name in it
  to the environment that declares the name.  Static scopes are seen alike
  from both sides when each defined name is at its distance on the one side,
  is the nearest one on the other, and the two are one cell.

  These stores make a discipline (`byName`).  It needs that a scope has no
  name before its declaration is reached, so that every declaration makes a
  new cell; this holds as the scopes to go back to are older and older.
-/
import Lox.Proofs.Machine.Layout

namespace Lox.Lockstep

open Resolve

/-! ## §1. The nearest declaration. -/

/-- The chain of an environment declares a name, first in scope `a`. -/
inductive Finds (F : Forest Value) (name : String) : ScopeId → ScopeId → Prop
  | here {n : ScopeId} (hn : n ≠ globalScope) (h : (F.bindings n).binds name) : Finds F name n n
  | up {n p a : ScopeId} (h : ¬ (F.bindings n).binds name) (hp : F.enclosing? n = some p)
      (hrest : Finds F name p a) : Finds F name n a

/-- No local scope on the chain of an environment declares a name. -/
inductive Free (F : Forest Value) (name : String) : ScopeId → Prop
  | root : Free F name globalScope
  | up {n p : ScopeId} (h : ¬ (F.bindings n).binds name) (hp : F.enclosing? n = some p)
      (hrest : Free F name p) : Free F name n

theorem Finds.holder? {F : Forest Value} {name : String} {n a : ScopeId} (h : Finds F name n a) :
    F.holder? name n = some a := by
  induction h with
  | here _ h => exact Forest.holder?_of_binds h
  | up h hp _ ih => rw [Forest.holder?_of_enclosing? h hp, ih]

theorem Free.holder? {F : Forest Value} {name : String} {n : ScopeId} (h : Free F name n) :
    F.holder? name n = F.holder? name globalScope := by
  induction h with
  | root => rfl
  | up h hp _ ih => rw [Forest.holder?_of_enclosing? h hp, ih]

/-- Existing local scopes keep their links and get no new names. -/
structure Fixed (F F' : Forest Value) : Prop where
  nextId : F.nextId ≤ F'.nextId
  links : ∀ id p, F.enclosing? id = some p → F'.enclosing? id = some p
  names : ∀ id, id ≠ globalScope → id < F.nextId → ∀ name,
    (F'.bindings id).binds name = (F.bindings id).binds name

theorem ne_global_of_enclosing? {F : Forest Value} {n p : ScopeId} (h : F.enclosing? n = some p) :
    n ≠ globalScope := by
  intro hn
  rw [hn, enclosing?_global] at h
  cases h

theorem lt_nextId_of_binds {F : Forest Value} {n : ScopeId} {name : String}
    (h : (F.bindings n).binds name) : n < F.nextId := by
  obtain ⟨v, hv⟩ := (Bindings.binds_iff _ _).mp h
  exact Forest.lt_nextId_of_get? hv

theorem Fixed.not_binds {F F' : Forest Value} (hF : Fixed F F') {n p : ScopeId} {name : String}
    (hp : F.enclosing? n = some p) (h : ¬ (F.bindings n).binds name) :
    ¬ (F'.bindings n).binds name := by
  rw [hF.names n (ne_global_of_enclosing? hp) (Forest.lt_nextId_of_enclosing? hp)]
  exact h

theorem Finds.mono {F F' : Forest Value} (hF : Fixed F F') {name : String} {n a : ScopeId}
    (h : Finds F name n a) : Finds F' name n a := by
  induction h with
  | here hn h =>
    refine .here hn ?_
    rw [hF.names _ hn (lt_nextId_of_binds h)]
    exact h
  | up h hp _ ih => exact .up (hF.not_binds hp h) (hF.links _ _ hp) ih

theorem Free.mono {F F' : Forest Value} (hF : Fixed F F') {name : String} {n : ScopeId}
    (h : Free F name n) : Free F' name n := by
  induction h with
  | root => exact .root
  | up h hp _ ih => exact .up (hF.not_binds hp h) (hF.links _ _ hp) ih

theorem Fixed.refl (F : Forest Value) : Fixed F F :=
  ⟨Nat.le_refl _, fun _ _ h => h, fun _ _ _ _ => rfl⟩

theorem Fixed.trans {F G H : Forest Value} (h : Fixed F G) (h' : Fixed G H) : Fixed F H := by
  refine ⟨Nat.le_trans h.nextId h'.nextId, ?_, ?_⟩
  · intro id p hp
    exact h'.links id p (h.links id p hp)
  · intro id hid hlt name
    rw [h'.names id hid (Nat.lt_of_lt_of_le hlt h.nextId) name, h.names id hid hlt name]

theorem fixed_child (F : Forest Value) (n : ScopeId) (b : Bindings Value) :
    Fixed F (F.child n b) := by
  refine ⟨?_, (grows_child F n b).links, ?_⟩
  · exact Nat.le_of_lt (Forest.nextId_lt_child F n b)
  · intro id _ hid name
    rw [Forest.bindings_child_of_lt F n b hid]

/-- Giving a variable a value adds no name, and the global scope may get one. -/
theorem fixed_define {F : Forest Value} {n : ScopeId} {name : String}
    (h : n = globalScope ∨ (F.bindings n).binds name) (v : Value) :
    Fixed F (F.define n name v) := by
  refine ⟨?_, (grows_define F n name v).links, ?_⟩
  · exact Nat.le_of_eq (Forest.nextId_define F n name v).symm
  · intro id hid hlt other
    by_cases hn : id = n
    · subst hn
      have hbinds : (F.bindings id).binds name := h.resolve_left hid
      rw [Forest.bindings_define_self F id name v hlt, Bindings.binds_insert]
      by_cases hname : name = other
      · subst hname
        rw [hbinds, Bool.or_true]
      · rw [decide_eq_false hname, Bool.false_or]
    · rw [Forest.bindings_define_of_ne F n name v hn]

/-! ## §2. Cells. -/

/-- Both stores, and which environment declares a name of a scope. -/
structure Cells where
  here : Forest Value
  there : Forest Value
  cell : ScopeId → String → Option ScopeId

/-- Nothing is lost, and no environment changes. -/
structure Cells.Grows (w w' : Cells) : Prop where
  nextId : w.here.nextId ≤ w'.here.nextId
  links : ∀ id p, w.here.enclosing? id = some p → w'.here.enclosing? id = some p
  there : Fixed w.there w'.there
  cell : ∀ a name a', w.cell a name = some a' → w'.cell a name = some a'

/-- **A scope and an environment show static scopes alike.** -/
structure Cells.Shows (w : Cells) (n n' : ScopeId) (scopes : Scopes) : Prop where
  lt : n < w.here.nextId
  lt' : n' < w.there.nextId
  top : scopes = [] → n = globalScope ∧ n' = globalScope
  inner : scopes ≠ [] → n ≠ globalScope ∧ n' ≠ globalScope
  /-- A defined name is at its distance here and the nearest there. -/
  found : ∀ name d, scopes.find? name = some (d, true) →
    ∃ a a', w.here.ancestor? n d = some a ∧ Finds w.there name n' a' ∧ w.cell a name = some a'
  /-- What the static scopes do not declare is global. -/
  free : ∀ name, scopes.find? name = none → Free w.there name n'
  this : ∀ outer, scopes = thisScope :: outer → (w.there.bindings n').binds "this"

theorem Cells.Shows.mono {w w' : Cells} (hg : w.Grows w') {n n' : ScopeId} {scopes : Scopes}
    (h : w.Shows n n' scopes) : w'.Shows n n' scopes := by
  refine ⟨Nat.lt_of_lt_of_le h.lt hg.nextId, Nat.lt_of_lt_of_le h.lt' hg.there.nextId, h.top,
    h.inner, ?_, ?_, ?_⟩
  · intro name d hfind
    obtain ⟨a, a', ha, hfinds, hcell⟩ := h.found name d hfind
    exact ⟨a, a', Forest.ancestor?_of_enclosing? hg.links ha, hfinds.mono hg.there,
      hg.cell a name a' hcell⟩
  · intro name hfind
    exact (h.free name hfind).mono hg.there
  · intro outer houter
    have hne : scopes ≠ [] := by
      rw [houter]
      exact List.cons_ne_nil _ _
    rw [hg.there.names n' (h.inner hne).2 h.lt']
    exact h.this outer houter

theorem Cells.Grows.refl (w : Cells) : w.Grows w :=
  ⟨Nat.le_refl _, fun _ _ h => h, Fixed.refl _, fun _ _ _ h => h⟩

theorem Cells.Grows.trans {w w' w'' : Cells} (h : w.Grows w') (h' : w'.Grows w'') : w.Grows w'' :=
  ⟨Nat.le_trans h.nextId h'.nextId, fun id p hp => h'.links id p (h.links id p hp),
    h.there.trans h'.there, fun a name a' hc => h'.cell a name a' (h.cell a name a' hc)⟩

/-- Cells show static scopes to both programs. -/
def cells : Sight where
  World := Cells
  grows := Cells.Grows
  sees := Cells.Shows
  refl := Cells.Grows.refl
  trans := Cells.Grows.trans
  mono hg h := h.mono hg

/-- Matching variables in every cell and among the globals. -/
structure Filled (T : Chart) (w : Cells) : Prop where
  root : globalScope < w.here.nextId
  root' : globalScope < w.there.nextId
  globals : ∀ name, Option.Rel (ValueMatch cells T w) ((w.here.bindings globalScope).get? name)
    ((w.there.bindings globalScope).get? name)
  cell : ∀ a name a', w.cell a name = some a' → a ≠ globalScope ∧ a' ≠ globalScope
    ∧ ∃ v v', (w.here.bindings a).get? name = some v ∧ (w.there.bindings a').get? name = some v'
      ∧ ValueMatch cells T w v v'
  injective : ∀ a b name a', w.cell a name = some a' → w.cell b name = some a' → a = b
  this : ∀ id v, (w.here.bindings id).get? "this" = some v → ∃ o, v = .object o
  super : ∀ id v, (w.here.bindings id).get? "super" = some v → ∃ k, v = .class k

/-- The current place and the places to go back to: each shows its static
scopes, has no variable that they do not define, and is newer than the next. -/
structure Stacked (w : Cells) (ps : List Place) : Prop where
  shows : ∀ p ∈ ps, w.Shows p.here p.there p.scopes
  tight : ∀ p ∈ ps, ∀ scope ∈ p.scopes.head?, ∀ name, (w.here.bindings p.here).binds name →
    scope.get? name = some true
  newer : (ps.map Place.here).Pairwise (· > ·)

variable {T : Chart} {w : Cells} {ps : List Place}

/-- A cell is in scopes that exist. -/
theorem Filled.lt (h : Filled T w) {a a' : ScopeId} {name : String} (hc : w.cell a name = some a') :
    a < w.here.nextId ∧ a' < w.there.nextId := by
  obtain ⟨-, -, v, v', hv, hv', -⟩ := h.cell a name a' hc
  exact ⟨Forest.lt_nextId_of_get? hv, Forest.lt_nextId_of_get? hv'⟩

/-! ## §3. New scopes. -/

/-- Both stores after a new scope of each. -/
def Cells.opened (w : Cells) (n n' : ScopeId) (b b' : Bindings Value) : Cells where
  here := w.here.child n b
  there := w.there.child n' b'
  cell a name :=
    if a = w.here.nextId then (if b.binds name then some w.there.nextId else none)
    else w.cell a name

theorem Furnished.binds {scope : Bindings Bool} {b b' : Bindings Value}
    (h : Furnished cells T w scope b b') (name : String) : b'.binds name = b.binds name := by
  have hrel := h.values name
  unfold Bindings.binds
  generalize b.get? name = x at hrel
  generalize b'.get? name = y at hrel
  cases hrel <;> rfl

theorem Furnished.get?_scope {scope : Bindings Bool} {b b' : Bindings Value}
    (h : Furnished cells T w scope b b') (name : String) :
    scope.get? name = if b.binds name then some true else none := by
  rw [h.names name]
  unfold Bindings.binds
  cases b.get? name <;> rfl

section Opened

variable {n n' : ScopeId} {scopes : Scopes} {scope : Bindings Bool} {b b' : Bindings Value}

theorem opened_grows (h : Filled T w) (n n' : ScopeId) (b b' : Bindings Value) :
    w.Grows (w.opened n n' b b') := by
  refine ⟨?_, (grows_child w.here n b).links, fixed_child w.there n' b', ?_⟩
  · exact Nat.le_of_lt (Forest.nextId_lt_child w.here n b)
  · intro a name a' hc
    have hne : a ≠ w.here.nextId := Nat.ne_of_lt (h.lt hc).1
    show (if a = w.here.nextId then _ else w.cell a name) = some a'
    rw [if_neg hne]
    exact hc

/-- The new scopes show one static scope more. -/
theorem opened_shows (h : Filled T w) (hs : w.Shows n n' scopes)
    (hb : Furnished cells T w scope b b') :
    (w.opened n n' b b').Shows w.here.nextId w.there.nextId (scope :: scopes) := by
  have hg := opened_grows h n n' b b'
  have hlink : (w.here.child n b).enclosing? w.here.nextId = some n :=
    Forest.enclosing?_child_self w.here n b hs.lt
  have hlink' : (w.there.child n' b').enclosing? w.there.nextId = some n' :=
    Forest.enclosing?_child_self w.there n' b' hs.lt'
  have hself' : (w.there.child n' b').bindings w.there.nextId = b' :=
    Forest.bindings_child_self w.there n' b'
  refine ⟨?_, ?_, nofun, fun _ => ⟨ne_global_of_enclosing? hlink, ne_global_of_enclosing? hlink'⟩,
    ?_, ?_, ?_⟩
  · exact Forest.nextId_lt_child w.here n b
  · exact Forest.nextId_lt_child w.there n' b'
  · intro name d hfind
    rw [Scopes.find?, hb.get?_scope] at hfind
    by_cases hbinds : b.binds name
    · -- the name is one of the new scope
      rw [if_pos hbinds] at hfind
      cases hfind
      refine ⟨w.here.nextId, w.there.nextId, rfl, .here (ne_global_of_enclosing? hlink') ?_, ?_⟩
      · show ((w.there.child n' b').bindings w.there.nextId).binds name
        rw [hself', hb.binds]
        exact hbinds
      · show (if w.here.nextId = w.here.nextId then _ else _) = _
        rw [if_pos rfl, if_pos hbinds]
    · -- the name is found one link further out
      rw [if_neg hbinds] at hfind
      obtain ⟨⟨d', b₀⟩, hfind', heq⟩ := Option.map_eq_some_iff.mp hfind
      cases heq
      obtain ⟨a, a', ha, hfinds, hcell⟩ := (hs.mono hg).found name d' hfind'
      refine ⟨a, a', ?_, .up ?_ hlink' hfinds, hcell⟩
      · show ((w.here.child n b).enclosing? w.here.nextId).bind _ = some a
        rw [hlink]
        exact ha
      · show ¬ ((w.there.child n' b').bindings w.there.nextId).binds name
        rw [hself', hb.binds]
        exact hbinds
  · intro name hfind
    rw [Scopes.find?, hb.get?_scope] at hfind
    by_cases hbinds : b.binds name
    · rw [if_pos hbinds] at hfind
      cases hfind
    · rw [if_neg hbinds] at hfind
      refine .up ?_ hlink' ((hs.mono hg).free name (Option.map_eq_none_iff.mp hfind))
      show ¬ ((w.there.child n' b').bindings w.there.nextId).binds name
      rw [hself', hb.binds]
      exact hbinds
  · intro outer houter
    have hthis : scope.get? "this" = some true := by
      rw [(List.cons.inj houter).1]
      rfl
    show ((w.there.child n' b').bindings w.there.nextId).binds "this"
    rw [hself', hb.binds]
    rw [hb.get?_scope] at hthis
    split at hthis
    · assumption
    · cases hthis

/-- A cell is a variable of the new scopes, or it was there before. -/
theorem opened_cell {a a' : ScopeId} {name : String}
    (hc : (w.opened n n' b b').cell a name = some a') :
    (a = w.here.nextId ∧ a' = w.there.nextId ∧ b.binds name) ∨ w.cell a name = some a' := by
  unfold Cells.opened at hc
  dsimp only at hc
  split at hc
  · next ha =>
    split at hc
    · next hb =>
      cases hc
      exact .inl ⟨ha, rfl, hb⟩
    · cases hc
  · exact .inr hc

theorem opened_filled (h : Filled T w) (hb : Furnished cells T w scope b b') :
    Filled T (w.opened n n' b b') := by
  have hg := opened_grows h n n' b b'
  refine ⟨Nat.lt_of_lt_of_le h.root hg.nextId, Nat.lt_of_lt_of_le h.root' hg.there.nextId,
    ?_, ?_, ?_, ?_, ?_⟩
  · intro name
    show Option.Rel _ (((w.here.child n b).bindings globalScope).get? name)
      (((w.there.child n' b').bindings globalScope).get? name)
    rw [Forest.bindings_child_of_lt _ _ _ h.root, Forest.bindings_child_of_lt _ _ _ h.root']
    exact optionRel_imp (fun _ _ => ValueMatch.mono hg) (h.globals name)
  · intro a name a' hc
    rcases opened_cell hc with ⟨rfl, rfl, hbinds⟩ | hc
    · obtain ⟨v, hv⟩ := (Bindings.binds_iff _ _).mp hbinds
      have hrel := hb.values name
      rw [hv] at hrel
      obtain ⟨v', hv', hmatch⟩ : ∃ v', b'.get? name = some v' ∧ ValueMatch cells T w v v' := by
        generalize b'.get? name = y at hrel
        cases hrel with
        | some hmatch => exact ⟨_, rfl, hmatch⟩
      refine ⟨Nat.ne_of_gt h.root, Nat.ne_of_gt h.root', v, v', ?_, ?_, ValueMatch.mono hg hmatch⟩
      · show ((w.here.child n b).bindings w.here.nextId).get? name = _
        rw [Forest.bindings_child_self]
        exact hv
      · show ((w.there.child n' b').bindings w.there.nextId).get? name = _
        rw [Forest.bindings_child_self]
        exact hv'
    · obtain ⟨ha, ha', v, v', hv, hv', hmatch⟩ := h.cell a name a' hc
      exact ⟨ha, ha', v, v', Forest.get?_child_of_get? _ _ _ hv, Forest.get?_child_of_get? _ _ _ hv',
        ValueMatch.mono hg hmatch⟩
  · intro a a₂ name a' hc hc₂
    -- a new cell shares its scope with no old one, whose scope was there already
    rcases opened_cell hc with ⟨rfl, rfl, -⟩ | hc
    · rcases opened_cell hc₂ with ⟨rfl, -, -⟩ | hc₂
      · rfl
      · exact absurd (h.lt hc₂).2 (Nat.lt_irrefl _)
    · rcases opened_cell hc₂ with ⟨rfl, rfl, -⟩ | hc₂
      · exact absurd (h.lt hc).2 (Nat.lt_irrefl _)
      · exact h.injective a a₂ name a' hc hc₂
  · intro id v hv
    change ((w.here.child n b).bindings id).get? "this" = some v at hv
    rw [Forest.bindings_child] at hv
    split at hv
    · exact hb.this v hv
    · exact h.this id v hv
  · intro id v hv
    change ((w.here.child n b).bindings id).get? "super" = some v at hv
    rw [Forest.bindings_child] at hv
    split at hv
    · exact hb.super v hv
    · exact h.super id v hv

/-- The new scope is newer than all others, which keep their names. -/
theorem opened_stacked (h : Filled T w) (hs : w.Shows n n' scopes)
    (hb : Furnished cells T w scope b b') (hps : Stacked w ps) :
    Stacked (w.opened n n' b b') (⟨w.here.nextId, w.there.nextId, scope :: scopes⟩ :: ps) := by
  have hg := opened_grows h n n' b b'
  refine ⟨?_, ?_, ?_⟩
  · intro p hp
    rcases List.mem_cons.mp hp with rfl | hp
    · exact opened_shows h hs hb
    · exact (hps.shows p hp).mono hg
  · intro p hp scope' hscope name hname
    change ((w.here.child n b).bindings p.here).binds name at hname
    rcases List.mem_cons.mp hp with rfl | hp
    · obtain rfl : scope = scope' := Option.some.inj hscope
      rw [Forest.bindings_child_self] at hname
      rw [hb.get?_scope, if_pos hname]
    · rw [Forest.bindings_child_of_lt _ _ _ (hps.shows p hp).lt] at hname
      exact hps.tight p hp scope' hscope name hname
  · rw [List.map_cons, List.pairwise_cons]
    refine ⟨?_, hps.newer⟩
    intro id hid
    obtain ⟨p, hp, rfl⟩ := List.mem_map.mp hid
    exact (hps.shows p hp).lt

end Opened

/-! ## §4. Variables that are there. -/

/-- Both stores after a variable of each got a value. -/
def Cells.renewed (w : Cells) (a a' : ScopeId) (name : String) (v v' : Value) : Cells where
  here := w.here.define a name v
  there := w.there.define a' name v'
  cell := w.cell

/-- A variable of both stores: a cell, or a global one. -/
def Cells.Shared (w : Cells) (a a' : ScopeId) (name : String) : Prop :=
  w.cell a name = some a' ∨ (a = globalScope ∧ a' = globalScope)

section Renewed

variable {a a' : ScopeId} {name : String} {v v' : Value}

theorem Cells.Shared.lt (h : Filled T w) (hc : w.Shared a a' name) :
    a < w.here.nextId ∧ a' < w.there.nextId := by
  rcases hc with hc | ⟨rfl, rfl⟩
  · exact h.lt hc
  · exact ⟨h.root, h.root'⟩

theorem renewed_grows (h : Filled T w) (hc : w.Shared a a' name) (v v' : Value) :
    w.Grows (w.renewed a a' name v v') := by
  refine ⟨?_, (grows_define w.here a name v).links, fixed_define ?_ v', fun _ _ _ h => h⟩
  · exact Nat.le_of_eq (Forest.nextId_define w.here a name v).symm
  · rcases hc with hc | ⟨-, ha'⟩
    · obtain ⟨-, -, u, u', -, hu', -⟩ := h.cell a name a' hc
      exact .inr ((Bindings.binds_iff _ _).mpr ⟨u', hu'⟩)
    · exact .inl ha'

/-- One cell changes on both sides, and no other one does. -/
theorem renewed_filled (h : Filled T w) (hc : w.Shared a a' name) (hname : Ordinary name)
    (hv : ValueMatch cells T (w.renewed a a' name v v') v v') :
    Filled T (w.renewed a a' name v v') := by
  have hg := renewed_grows h hc v v'
  obtain ⟨hlt, hlt'⟩ := hc.lt h
  have hget : ∀ id other, ((w.renewed a a' name v v').here.bindings id).get? other
      = if id = a ∧ name = other then some v else (w.here.bindings id).get? other :=
    Forest.get?_define w.here a name v hlt
  have hget' : ∀ id other, ((w.renewed a a' name v v').there.bindings id).get? other
      = if id = a' ∧ name = other then some v' else (w.there.bindings id).get? other :=
    Forest.get?_define w.there a' name v' hlt'
  refine ⟨Nat.lt_of_lt_of_le h.root hg.nextId, Nat.lt_of_lt_of_le h.root' hg.there.nextId,
    ?_, ?_, h.injective, ?_, ?_⟩
  · intro other
    -- the changed variable is global on both sides or on neither
    have hiff : (globalScope = a ∧ name = other) ↔ (globalScope = a' ∧ name = other) := by
      rcases hc with hc | ⟨rfl, rfl⟩
      · obtain ⟨ha, ha', -⟩ := h.cell a name a' hc
        exact ⟨fun h => absurd h.1.symm ha, fun h => absurd h.1.symm ha'⟩
      · exact Iff.rfl
    rw [hget, hget']
    by_cases hcell : globalScope = a ∧ name = other
    · rw [if_pos hcell, if_pos (hiff.mp hcell)]
      exact .some hv
    · rw [if_neg hcell, if_neg fun h => hcell (hiff.mpr h)]
      exact optionRel_imp (fun _ _ => ValueMatch.mono hg) (h.globals other)
  · intro b other b' hb
    obtain ⟨hne, hne', u, u', hu, hu', hmatch⟩ := h.cell b other b' hb
    refine ⟨hne, hne', ?_⟩
    -- no two cells of a name share a scope there, so it is the changed one on both sides
    have hiff : (b = a ∧ name = other) ↔ (b' = a' ∧ name = other) := by
      rcases hc with hc | ⟨rfl, rfl⟩
      · constructor
        · rintro ⟨rfl, rfl⟩
          exact ⟨Option.some.inj (hb.symm.trans hc), rfl⟩
        · rintro ⟨rfl, rfl⟩
          exact ⟨h.injective b a name b' hb hc, rfl⟩
      · exact ⟨fun h => absurd h.1 hne, fun h => absurd h.1 hne'⟩
    rw [hget, hget']
    by_cases hcell : b = a ∧ name = other
    · rw [if_pos hcell, if_pos (hiff.mp hcell)]
      exact ⟨v, v', rfl, rfl, hv⟩
    · rw [if_neg hcell, if_neg fun h => hcell (hiff.mpr h)]
      exact ⟨u, u', hu, hu', ValueMatch.mono hg hmatch⟩
  · intro id u hu
    rw [hget] at hu
    split at hu
    · next heq => exact absurd heq.2 hname.1
    · exact h.this id u hu
  · intro id u hu
    rw [hget] at hu
    split at hu
    · next heq => exact absurd heq.2 hname.2
    · exact h.super id u hu

theorem renewed_stacked (h : Filled T w) (hc : w.Shared a a' name) (hps : Stacked w ps)
    (v v' : Value) : Stacked (w.renewed a a' name v v') ps := by
  have hg := renewed_grows h hc v v'
  refine ⟨fun p hp => (hps.shows p hp).mono hg, ?_, hps.newer⟩
  intro p hp scope hscope other hother
  obtain ⟨u, hu⟩ := (Bindings.binds_iff _ _).mp hother
  change ((w.here.define a name v).bindings p.here).get? other = some u at hu
  rw [Forest.get?_define _ _ _ _ (hc.lt h).1] at hu
  split at hu
  · next heq =>
    rcases hc with hc | ⟨rfl, -⟩
    · obtain ⟨-, -, u', -, hu', -⟩ := h.cell a name a' hc
      refine hps.tight p hp scope hscope other ((Bindings.binds_iff _ _).mpr ⟨u', ?_⟩)
      rw [heq.1, ← heq.2]
      exact hu'
    · -- only the top level is the global scope, and it has no static scope
      have hne : p.scopes ≠ [] := by
        intro hnil
        rw [hnil] at hscope
        cases hscope
      exact absurd heq.1 ((hps.shows p hp).inner hne).1
  · exact hps.tight p hp scope hscope other ((Bindings.binds_iff _ _).mpr ⟨u, hu⟩)

end Renewed

/-! ## §5. New names. -/

/-- Both stores after a local declaration: the scope grows, and there is a new
environment. -/
def Cells.declared (w : Cells) (n n' : ScopeId) (name : String) (v v' : Value) : Cells where
  here := w.here.define n name v
  there := w.there.child n' [(name, v')]
  cell a other := if a = n ∧ other = name then some w.there.nextId else w.cell a other

section Declared

variable {n n' : ScopeId} {scope : Bindings Bool} {rest : Scopes} {name : String} {v v' : Value}

theorem declared_grows (hfresh : w.cell n name = none) (n' : ScopeId) (v v' : Value) :
    w.Grows (w.declared n n' name v v') := by
  refine ⟨?_, (grows_define w.here n name v).links, fixed_child w.there n' _, ?_⟩
  · exact Nat.le_of_eq (Forest.nextId_define w.here n name v).symm
  · intro a other a' hc
    have hne : ¬ (a = n ∧ other = name) := by
      rintro ⟨rfl, rfl⟩
      rw [hfresh] at hc
      cases hc
    show (if a = n ∧ other = name then _ else w.cell a other) = some a'
    rw [if_neg hne]
    exact hc

/-- **The new environment shows the new name**, and all others as before. -/
theorem declared_shows (hs : w.Shows n n' (scope :: rest)) (hfresh : w.cell n name = none) :
    (w.declared n n' name v v').Shows n w.there.nextId (Scopes.add (scope :: rest) name) := by
  have hg := declared_grows hfresh n' v v'
  have hs' := hs.mono hg
  have hlink' : (w.there.child n' [(name, v')]).enclosing? w.there.nextId = some n' :=
    Forest.enclosing?_child_self w.there n' _ hs.lt'
  have hbinds : ∀ other, ((w.there.child n' [(name, v')]).bindings w.there.nextId).binds other
      = decide (name = other) := by
    intro other
    rw [Forest.bindings_child_self]
    unfold Bindings.binds
    rw [get?_single]
    by_cases h : name = other
    · rw [if_pos h, decide_eq_true h]
      rfl
    · rw [if_neg h, decide_eq_false h]
      rfl
  refine ⟨hs'.lt, ?_, nofun, fun _ => ⟨(hs.inner (List.cons_ne_nil _ _)).1,
    ne_global_of_enclosing? hlink'⟩, ?_, ?_, ?_⟩
  · exact Forest.nextId_lt_child w.there n' _
  · intro other d hfind
    rw [Scopes.find?_add] at hfind
    by_cases hother : name = other
    · subst hother
      rw [if_pos rfl] at hfind
      cases hfind
      refine ⟨n, w.there.nextId, rfl, .here (ne_global_of_enclosing? hlink') ?_, ?_⟩
      · exact (hbinds name).trans (decide_eq_true rfl)
      · show (if n = n ∧ name = name then _ else _) = _
        rw [if_pos ⟨rfl, rfl⟩]
    · rw [if_neg hother] at hfind
      obtain ⟨a, a', ha, hfinds, hcell⟩ := hs'.found other d hfind
      refine ⟨a, a', ha, .up ?_ hlink' hfinds, hcell⟩
      intro hb
      exact hother (of_decide_eq_true ((hbinds other).symm.trans hb))
  · intro other hfind
    rw [Scopes.find?_add] at hfind
    by_cases hother : name = other
    · rw [if_pos hother] at hfind
      cases hfind
    · rw [if_neg hother] at hfind
      refine .up ?_ hlink' (hs'.free other hfind)
      intro hb
      exact hother (of_decide_eq_true ((hbinds other).symm.trans hb))
  · intro outer houter
    -- a scope with a name of its own is not the one of `this`
    have hscope : scope.insert name true = thisScope := (List.cons.inj houter).1
    have hget : thisScope.get? name = some true := by
      rw [← hscope, Bindings.get?_insert, if_pos rfl]
    unfold thisScope at hget
    rw [get?_single] at hget
    split at hget
    · next heq =>
      subst heq
      exact (hbinds "this").trans (decide_eq_true rfl)
    · cases hget

theorem declared_cell {a a' : ScopeId} {other : String}
    (hc : (w.declared n n' name v v').cell a other = some a') :
    (a = n ∧ other = name ∧ a' = w.there.nextId) ∨ w.cell a other = some a' := by
  unfold Cells.declared at hc
  dsimp only at hc
  split at hc
  · next heq =>
    cases hc
    exact .inl ⟨heq.1, heq.2, rfl⟩
  · exact .inr hc

/-- A declaration fills a new cell. -/
theorem declared_filled (h : Filled T w) (hs : w.Shows n n' (scope :: rest))
    (hfresh : w.cell n name = none) (hname : Ordinary name)
    (hv : ValueMatch cells T (w.declared n n' name v v') v v') :
    Filled T (w.declared n n' name v v') := by
  have hg := declared_grows hfresh n' v v'
  have hn : n ≠ globalScope := (hs.inner (List.cons_ne_nil _ _)).1
  have hget : ∀ id other, ((w.declared n n' name v v').here.bindings id).get? other
      = if id = n ∧ name = other then some v else (w.here.bindings id).get? other :=
    Forest.get?_define w.here n name v hs.lt
  refine ⟨Nat.lt_of_lt_of_le h.root hg.nextId, Nat.lt_of_lt_of_le h.root' hg.there.nextId,
    ?_, ?_, ?_, ?_, ?_⟩
  · intro other
    rw [hget, if_neg fun heq => hn heq.1.symm]
    show Option.Rel _ _ (((w.there.child n' _).bindings globalScope).get? other)
    rw [Forest.bindings_child_of_lt _ _ _ h.root']
    exact optionRel_imp (fun _ _ => ValueMatch.mono hg) (h.globals other)
  · intro a other a' hc
    rcases declared_cell hc with ⟨rfl, rfl, rfl⟩ | hold
    · refine ⟨hn, Nat.ne_of_gt h.root', v, v', ?_, ?_, hv⟩
      · rw [hget, if_pos ⟨rfl, rfl⟩]
      · show ((w.there.child n' _).bindings w.there.nextId).get? other = _
        rw [Forest.bindings_child_self, get?_single, if_pos rfl]
    · obtain ⟨ha, ha', u, u', hu, hu', hmatch⟩ := h.cell a other a' hold
      refine ⟨ha, ha', u, u', ?_, Forest.get?_child_of_get? _ _ _ hu', ValueMatch.mono hg hmatch⟩
      rw [hget, if_neg]
      · exact hu
      · rintro ⟨rfl, rfl⟩
        rw [hfresh] at hold
        cases hold
  · intro a b other a' hc hc'
    -- the new cell has a scope of its own on the other side
    rcases declared_cell hc with ⟨rfl, rfl, rfl⟩ | hold
    · rcases declared_cell hc' with ⟨rfl, -, -⟩ | hold'
      · rfl
      · exact absurd (h.lt hold').2 (Nat.lt_irrefl _)
    · rcases declared_cell hc' with ⟨rfl, rfl, rfl⟩ | hold'
      · exact absurd (h.lt hold).2 (Nat.lt_irrefl _)
      · exact h.injective a b other a' hold hold'
  · intro id u hu
    rw [hget] at hu
    split at hu
    · next heq => exact absurd heq.2 hname.1
    · exact h.this id u hu
  · intro id u hu
    rw [hget] at hu
    split at hu
    · next heq => exact absurd heq.2 hname.2
    · exact h.super id u hu

/-- The current scope alone gets a new name. -/
theorem declared_stacked (hps : Stacked w (⟨n, n', scope :: rest⟩ :: ps))
    (hfresh : w.cell n name = none) :
    Stacked (w.declared n n' name v v')
      (⟨n, w.there.nextId, Scopes.add (scope :: rest) name⟩ :: ps) := by
  have hs := hps.shows _ List.mem_cons_self
  have hg := declared_grows hfresh n' v v'
  have hnewer := hps.newer
  rw [List.map_cons, List.pairwise_cons] at hnewer
  have hget : ∀ id other, ((w.declared n n' name v v').here.bindings id).get? other
      = if id = n ∧ name = other then some v else (w.here.bindings id).get? other :=
    Forest.get?_define w.here n name v hs.lt
  refine ⟨?_, ?_, hps.newer⟩
  · intro p hp
    rcases List.mem_cons.mp hp with rfl | hp
    · exact declared_shows hs hfresh
    · exact (hps.shows p (List.mem_cons_of_mem _ hp)).mono hg
  · intro p hp scope' hscope other hother
    obtain ⟨u, hu⟩ := (Bindings.binds_iff _ _).mp hother
    rw [hget] at hu
    rcases List.mem_cons.mp hp with rfl | hp
    · obtain rfl : scope.insert name true = scope' := Option.some.inj hscope
      rw [Bindings.get?_insert]
      by_cases hname : name = other
      · rw [if_pos hname]
      · rw [if_neg fun heq => hname heq.2] at hu
        rw [if_neg hname]
        exact hps.tight _ List.mem_cons_self scope rfl other ((Bindings.binds_iff _ _).mpr ⟨u, hu⟩)
    · have holder : p.here < n := hnewer.1 p.here (List.mem_map_of_mem hp)
      rw [if_neg fun heq => Nat.ne_of_lt holder heq.1] at hu
      exact hps.tight p (List.mem_cons_of_mem _ hp) scope' hscope other
        ((Bindings.binds_iff _ _).mpr ⟨u, hu⟩)

end Declared

/-! ## §6. The discipline. -/

/-- A name that is declared here and has no variable yet. -/
theorem Cells.Shows.declare {n n' : ScopeId} {scopes : Scopes} {name : Token}
    (h : w.Shows n n' scopes) (hname : Declarable T scopes name) :
    w.Shows n n' (scopes.declare name.lexeme) := by
  cases scopes with
  | nil => exact h
  | cons scope rest =>
    rw [Scopes.declare]
    split
    · exact h
    · refine ⟨h.lt, h.lt', by simp, fun _ => h.inner (List.cons_ne_nil _ _), ?_, ?_, ?_⟩
      · intro other d hfind
        rw [Scopes.find?_insert_false] at hfind
        split at hfind
        · cases hfind
        · exact h.found other d hfind
      · intro other hfind
        rw [Scopes.find?_insert_false] at hfind
        split at hfind
        · cases hfind
        · exact h.free other hfind
      · intro outer houter
        have hget : thisScope.get? name.lexeme = some false := by
          rw [← (List.cons.inj houter).1, Bindings.get?_insert, if_pos rfl]
        unfold thisScope at hget
        rw [get?_single] at hget
        split at hget <;> cases hget

theorem Stacked.declare {n n' : ScopeId} {scopes : Scopes} {name : Token}
    (h : Stacked w (⟨n, n', scopes⟩ :: ps)) (hname : Declarable T scopes name) :
    Stacked w (⟨n, n', scopes.declare name.lexeme⟩ :: ps) := by
  refine ⟨?_, ?_, h.newer⟩
  · intro p hp
    rcases List.mem_cons.mp hp with rfl | hp
    · exact (h.shows _ List.mem_cons_self).declare hname
    · exact h.shows p (List.mem_cons_of_mem _ hp)
  · intro p hp scope' hscope other hother
    rcases List.mem_cons.mp hp with rfl | hp
    · have htight := h.tight _ List.mem_cons_self
      cases scopes with
      | nil => cases hscope
      | cons scope rest =>
        have hold := htight scope rfl other hother
        change scope' ∈ (Scopes.declare (scope :: rest) name.lexeme).head? at hscope
        rw [Scopes.declare] at hscope
        split at hscope
        · obtain rfl : scope = scope' := Option.some.inj hscope
          exact hold
        · obtain rfl : scope.insert name.lexeme false = scope' := Option.some.inj hscope
          have hne : name.lexeme ≠ other := by
            rintro rfl
            have hnone : scope.get? name.lexeme = none := hname.2
            rw [hnone] at hold
            cases hold
          rw [Bindings.get?_insert, if_neg hne]
          exact hold
    · exact h.tight p (List.mem_cons_of_mem _ hp) scope' hscope other hother

/-- Globals are bound on both sides or on none. -/
theorem Filled.binds_global (h : Filled T w) (name : String) :
    (w.there.bindings globalScope).binds name = (w.here.bindings globalScope).binds name := by
  have hrel := h.globals name
  unfold Bindings.binds
  generalize (w.here.bindings globalScope).get? name = x at hrel
  generalize (w.there.bindings globalScope).get? name = y at hrel
  cases hrel <;> rfl

/-- The cell of a name that is defined in static scopes. -/
theorem Cells.Shows.cell_owned {n n' : ScopeId} {scope : Bindings Bool} {rest : Scopes}
    (h : w.Shows n n' (scope :: rest)) {name : String} (hname : scope.get? name = some true) :
    ∃ a', Finds w.there name n' a' ∧ w.cell n name = some a' := by
  have hfind : Scopes.find? (scope :: rest) name = some (0, true) := by
    rw [Scopes.find?, hname]
  obtain ⟨a, a', ha, hfinds, hcell⟩ := h.found name 0 hfind
  cases ha
  exact ⟨a', hfinds, hcell⟩

/-- **The discipline of names**, while the stores grow from the ones of some
moment. -/
def byName (T : Chart) (w₀ : Cells) : Discipline cells T where
  holds w ps F F' :=
    F = Cells.here w ∧ F' = Cells.there w ∧ Filled T w ∧ Stacked w ps ∧ w₀.Grows w
  current := by
    rintro w p ps F F' ⟨-, -, -, hps, -⟩
    exact hps.shows p List.mem_cons_self
  dropped := by
    rintro w p ps F F' ⟨hF, hF', hfilled, hps, hsince⟩
    refine ⟨hF, hF', hfilled, ⟨?_, ?_, ?_⟩, hsince⟩
    · exact fun q hq => hps.shows q (List.mem_cons_of_mem p hq)
    · exact fun q hq => hps.tight q (List.mem_cons_of_mem p hq)
    · exact (List.pairwise_cons.mp hps.newer).2
  opened := by
    rintro w ps F F' n n' scopes scope b b' ⟨rfl, rfl, hfilled, hps, hsince⟩ hs hb
    have hg := opened_grows hfilled n n' b b'
    exact ⟨w.opened n n' b b', hg, rfl, rfl, opened_filled hfilled hb,
      opened_stacked hfilled hs hb hps, hsince.trans hg⟩
  declared := by
    rintro w n n' scopes ps F F' name ⟨hF, hF', hfilled, hps, hsince⟩ hname
    exact ⟨hF, hF', hfilled, hps.declare hname, hsince⟩
  receiver := by
    rintro w ps F F' n n' scopes ⟨rfl, rfl, hfilled, -⟩ hs
    have hget : thisScope.get? "this" = some true := rfl
    obtain ⟨a', hfinds, hcell⟩ := hs.cell_owned hget
    obtain ⟨-, -, v, v', hv, hv', hmatch⟩ := hfilled.cell n "this" a' hcell
    obtain ⟨o, rfl⟩ := hfilled.this n v hv
    -- the environment of a method that is bound declares `this` itself
    have hself : a' = n' := by
      have hholder := hfinds.holder?
      rw [Forest.holder?_of_binds (hs.this scopes rfl)] at hholder
      exact (Option.some.inj hholder).symm
    subst hself
    cases hmatch with
    | object => exact ⟨o, Forest.getAt_of_ancestor? rfl hv, Forest.getAt_of_ancestor? rfl hv'⟩
  renewed := by
    rintro w ⟨n, n', scopes⟩ ps F F' name v v' ⟨rfl, rfl, hfilled, hps, hsince⟩ howns hname hv
    have hs := hps.shows ⟨n, n', scopes⟩ List.mem_cons_self
    cases scopes with
    | nil =>
      obtain ⟨hn, hn'⟩ := hs.top rfl
      obtain rfl : n = globalScope := hn
      obtain rfl : n' = globalScope := hn'
      by_cases hb : (w.here.bindings globalScope).binds name
      · have hb' : (w.there.bindings globalScope).binds name := by
          rw [hfilled.binds_global]
          exact hb
        have hshared : w.Shared globalScope globalScope name := .inr ⟨rfl, rfl⟩
        have hg := renewed_grows hfilled hshared v v'
        exact .inl ⟨globalScope, globalScope, w.renewed globalScope globalScope name v v',
          target_of_binds hb, target_of_binds hb', hg, rfl, rfl,
          renewed_filled hfilled hshared hname (ValueMatch.mono hg hv),
          renewed_stacked hfilled hshared hps v v', hsince.trans hg⟩
      · refine .inr ⟨target_global_of_not hb, target_global_of_not ?_⟩
        rw [hfilled.binds_global]
        exact hb
    | cons scope rest =>
      obtain ⟨a', hfinds, hcell⟩ := hs.cell_owned (howns scope rfl)
      obtain ⟨-, -, u, u', hu, -, -⟩ := hfilled.cell n name a' hcell
      have htarget' : w.there.target n' name = .ok a' := by
        unfold Forest.target
        rw [hfinds.holder?]
      have hshared : w.Shared n a' name := .inl hcell
      have hg := renewed_grows hfilled hshared v v'
      exact .inl ⟨n, a', w.renewed n a' name v v',
        target_of_binds ((Bindings.binds_iff _ _).mpr ⟨u, hu⟩), htarget', hg, rfl, rfl,
        renewed_filled hfilled hshared hname (ValueMatch.mono hg hv),
        renewed_stacked hfilled hshared hps v v', hsince.trans hg⟩

end Lox.Lockstep
