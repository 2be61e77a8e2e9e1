/-
  Lox.Proofs.Machine.Layout
  ─────────────────────────
  **SCOPES ARE LAID OUT AS THE WALK SAW THEM.**

  The chain of a scope follows static scopes when each link of it stands for
  one of them and holds the variables that it defines.  Stores that keep this
  make a discipline (`byDistance`), so a name is always found in the scope
  that its recorded distance leads to.

  Every step of a program whose distances a chart gives keeps the layout
  (`Alongside.step_byDistance`).
-/
import Lox.Proofs.Machine.Steps

namespace Lox.Lockstep

open Resolve

/-! ## §1. Chains. -/

/-- The chain of a scope has one link for each static scope, down to the
global scope, and holds the variables that the static scopes define. -/
def Chain (F : Forest Value) : ScopeId → Scopes → Prop
  | n, [] => n = globalScope
  | n, scope :: rest =>
      (∀ name, scope.get? name = some true → (F.bindings n).binds name)
        ∧ ∃ p, F.enclosing? n = some p ∧ Chain F p rest

/-- No link and no variable is lost. -/
structure Grows (F F' : Forest Value) : Prop where
  links : ∀ id p, F.enclosing? id = some p → F'.enclosing? id = some p
  binds : ∀ id name, (F.bindings id).binds name → (F'.bindings id).binds name

theorem Chain.mono {F F' : Forest Value} (hg : Grows F F') {n : ScopeId} {scopes : Scopes}
    (h : Chain F n scopes) : Chain F' n scopes := by
  induction scopes generalizing n with
  | nil => exact h
  | cons scope rest ih =>
    obtain ⟨hnames, p, hp, hrest⟩ := h
    exact ⟨fun name hname => hg.binds n name (hnames name hname), p, hg.links n p hp, ih hrest⟩

/-- The scope of a local place is not the global one. -/
theorem Chain.ne_global {F : Forest Value} {n : ScopeId} {scope : Bindings Bool} {rest : Scopes}
    (h : Chain F n (scope :: rest)) : n ≠ globalScope := by
  obtain ⟨-, p, hp, -⟩ := h
  intro hn
  have hlt : p < n := Forest.enclosing?_lt hp
  rw [hn] at hlt
  exact Nat.not_lt_zero p hlt

theorem Chain.lt_nextId {F : Forest Value} (hroot : globalScope < F.nextId) {n : ScopeId}
    {scopes : Scopes} (h : Chain F n scopes) : n < F.nextId := by
  cases scopes with
  | nil =>
    have hn : n = globalScope := h
    rw [hn]
    exact hroot
  | cons scope rest =>
    obtain ⟨-, p, hp, -⟩ := h
    exact Forest.lt_nextId_of_enclosing? hp

/-- **A distance leads to the scope of the name**, and a name that is defined
has a variable there. -/
theorem Chain.find? {F : Forest Value} {n : ScopeId} {scopes : Scopes} (h : Chain F n scopes)
    {name : String} {d : Nat} {b : Bool} (hfind : scopes.find? name = some (d, b)) :
    ∃ a, F.ancestor? n d = some a ∧ (b = true → (F.bindings a).binds name) := by
  induction scopes generalizing n d with
  | nil => cases hfind
  | cons scope rest ih =>
    obtain ⟨hnames, p, hp, hrest⟩ := h
    rw [Scopes.find?] at hfind
    cases hget : scope.get? name with
    | some b' =>
      rw [hget] at hfind
      cases hfind
      refine ⟨n, rfl, ?_⟩
      intro hb
      exact hnames name (hb ▸ hget)
    | none =>
      rw [hget] at hfind
      obtain ⟨⟨d', b'⟩, hfind', heq⟩ := Option.map_eq_some_iff.mp hfind
      cases heq
      obtain ⟨a, ha, hbinds⟩ := ih hrest hfind'
      refine ⟨a, ?_, hbinds⟩
      show (F.enclosing? n).bind _ = some a
      rw [hp]
      exact ha

/-- A name that is declared and has no variable yet asks for nothing. -/
theorem Chain.declare {F : Forest Value} {T : Chart} {n : ScopeId} {scopes : Scopes} {name : Token}
    (h : Chain F n scopes) (hname : Declarable T scopes name) :
    Chain F n (scopes.declare name.lexeme) := by
  cases scopes with
  | nil => exact h
  | cons scope rest =>
    rw [Scopes.declare]
    split
    · exact h
    · refine ⟨?_, h.2⟩
      intro other hother
      rw [Bindings.get?_insert] at hother
      split at hother
      · cases hother
      · exact h.1 other hother

/-- A name that gets its variable is shown by the chain. -/
theorem Chain.add {F : Forest Value} {n : ScopeId} {scopes : Scopes} {name : String}
    (h : Chain F n scopes) (hname : (F.bindings n).binds name) : Chain F n (scopes.add name) := by
  cases scopes with
  | nil => exact h
  | cons scope rest =>
    refine ⟨?_, h.2⟩
    intro other hother
    rw [Bindings.get?_insert] at hother
    split at hother
    · next heq => exact heq ▸ hname
    · exact h.1 other hother

theorem grows_child (F : Forest Value) (n : ScopeId) (b : Bindings Value) :
    Grows F (F.child n b) := by
  refine ⟨?_, ?_⟩
  · intro id p hp
    rw [Forest.enclosing?_child_of_lt F n b (Forest.lt_nextId_of_enclosing? hp)]
    exact hp
  · intro id name hname
    obtain ⟨v, hv⟩ := (Bindings.binds_iff _ _).mp hname
    exact (Bindings.binds_iff _ _).mpr ⟨v, Forest.get?_child_of_get? F n b hv⟩

theorem grows_define (F : Forest Value) (n : ScopeId) (name : String) (v : Value) :
    Grows F (F.define n name v) := by
  refine ⟨?_, ?_⟩
  · intro id p hp
    rw [Forest.enclosing?_define]
    exact hp
  · intro id other hother
    obtain ⟨v', hv'⟩ := (Bindings.binds_iff _ _).mp hother
    by_cases hid : id = n
    · subst hid
      rw [Forest.bindings_define_self F id name v (Forest.lt_nextId_of_get? hv'),
        Bindings.binds_insert, hother, Bool.or_true]
    · rw [Forest.bindings_define_of_ne F n name v hid]
      exact hother

/-! ## §2. Stores. -/

/-- The same scope shows static scopes to both programs. -/
def chains : Sight where
  World := Forest Value
  grows := Grows
  sees F n n' scopes := n = n' ∧ Chain F n scopes
  refl _ := ⟨fun _ _ h => h, fun _ _ h => h⟩
  trans h h' := ⟨fun id p hp => h'.links id p (h.links id p hp),
    fun id name hb => h'.binds id name (h.binds id name hb)⟩
  mono hg h := ⟨h.1, h.2.mono hg⟩

/-- Two stores of one shape with matching variables; `this` is always an
object and `super` a class, and every global variable is a known one. -/
structure Stocked (T : Chart) (F F' : Forest Value) : Prop where
  root : globalScope < F.nextId
  nextId : F'.nextId = F.nextId
  links : ∀ id, F'.enclosing? id = F.enclosing? id
  values : ∀ id name, Option.Rel (ValueMatch chains T F) ((F.bindings id).get? name)
    ((F'.bindings id).get? name)
  this : ∀ id v, (F.bindings id).get? "this" = some v → ∃ o, v = .object o
  super : ∀ id v, (F.bindings id).get? "super" = some v → ∃ k, v = .class k
  globals : ∀ name, (F.bindings globalScope).binds name → T.globals name

/-- Both programs are in the same scopes, which follow the static ones. -/
def Placed (F : Forest Value) (p : Place) : Prop :=
  p.here = p.there ∧ Chain F p.here p.scopes

theorem Placed.mono {F F' : Forest Value} (hg : Grows F F') {p : Place} (h : Placed F p) :
    Placed F' p :=
  ⟨h.1, h.2.mono hg⟩

/-- The current place and the places to go back to: each follows its static
scopes, has no variable that they do not define, and is newer than the next. -/
structure Layered (F : Forest Value) (ps : List Place) : Prop where
  placed : ∀ p ∈ ps, Placed F p
  tight : ∀ p ∈ ps, ∀ scope ∈ p.scopes.head?, ∀ name, (F.bindings p.here).binds name →
    scope.get? name = some true
  newer : (ps.map Place.here).Pairwise (· > ·)

variable {T : Chart} {F F' : Forest Value}

theorem Stocked.binds (h : Stocked T F F') (id : ScopeId) (name : String) :
    (F'.bindings id).binds name = (F.bindings id).binds name := by
  have hrel := h.values id name
  unfold Bindings.binds
  generalize (F.bindings id).get? name = x at hrel
  generalize (F'.bindings id).get? name = y at hrel
  cases hrel <;> rfl

/-- The variables that a name means in both stores match. -/
theorem Stocked.get? (h : Stocked T F F') {id : ScopeId} {name : String}
    (hb : (F.bindings id).binds name) :
    ∃ v v', (F.bindings id).get? name = some v ∧ (F'.bindings id).get? name = some v'
      ∧ ValueMatch chains T F v v' := by
  obtain ⟨v, hv⟩ := (Bindings.binds_iff _ _).mp hb
  have hrel := h.values id name
  rw [hv] at hrel
  generalize (F'.bindings id).get? name = y at hrel
  cases hrel with
  | some hmatch => exact ⟨v, _, hv, rfl, hmatch⟩

theorem Stocked.ancestor? (h : Stocked T F F') (n : ScopeId) (d : Nat) :
    F'.ancestor? n d = F.ancestor? n d := by
  induction d generalizing n with
  | zero => rfl
  | succ d ih =>
    show (F'.enclosing? n).bind _ = (F.enclosing? n).bind _
    rw [h.links n]
    cases F.enclosing? n with
    | none => rfl
    | some p => exact ih p

theorem stocked_child (h : Stocked T F F') (n : ScopeId) {scope : Bindings Bool}
    {b b' : Bindings Value} (hb : Furnished chains T F scope b b') :
    Stocked T (F.child n b) (F'.child n b') := by
  have hg := grows_child F n b
  refine ⟨?_, ?_, ?_, ?_, ?_, ?_, ?_⟩
  · rw [Forest.nextId_child]
    exact Nat.lt_succ_of_lt h.root
  · rw [Forest.nextId_child, Forest.nextId_child, h.nextId]
  · intro id
    rw [Forest.enclosing?_child, Forest.enclosing?_child, h.nextId, h.links id]
  · intro id name
    rw [Forest.bindings_child, Forest.bindings_child, h.nextId]
    by_cases hid : id = F.nextId
    · rw [if_pos hid, if_pos hid]
      exact optionRel_imp (fun _ _ => ValueMatch.mono hg) (hb.values name)
    · rw [if_neg hid, if_neg hid]
      exact optionRel_imp (fun _ _ => ValueMatch.mono hg) (h.values id name)
  · intro id v hv
    rw [Forest.bindings_child] at hv
    split at hv
    · exact hb.this v hv
    · exact h.this id v hv
  · intro id v hv
    rw [Forest.bindings_child] at hv
    split at hv
    · exact hb.super v hv
    · exact h.super id v hv
  · intro name hname
    rw [Forest.bindings_child_of_lt F n b h.root] at hname
    exact h.globals name hname

/-- An ordinary name gets matching values in both stores. -/
theorem stocked_define (h : Stocked T F F') {n : ScopeId} (hn : n < F.nextId) {name : String}
    (hname : Ordinary name) (hglobal : n = globalScope → T.globals name) {v v' : Value}
    (hv : ValueMatch chains T (F.define n name v) v v') :
    Stocked T (F.define n name v) (F'.define n name v') := by
  have hg := grows_define F n name v
  have hn' : n < F'.nextId := by
    rw [h.nextId]
    exact hn
  refine ⟨?_, ?_, ?_, ?_, ?_, ?_, ?_⟩
  · rw [Forest.nextId_define]
    exact h.root
  · rw [Forest.nextId_define, Forest.nextId_define, h.nextId]
  · intro id
    rw [Forest.enclosing?_define, Forest.enclosing?_define, h.links id]
  · intro id other
    rw [Forest.get?_define F n name v hn, Forest.get?_define F' n name v' hn']
    split
    · exact .some hv
    · exact optionRel_imp (fun _ _ => ValueMatch.mono hg) (h.values id other)
  · intro id value hvalue
    rw [Forest.get?_define F n name v hn] at hvalue
    split at hvalue
    · next heq => exact absurd heq.2 hname.1
    · exact h.this id value hvalue
  · intro id value hvalue
    rw [Forest.get?_define F n name v hn] at hvalue
    split at hvalue
    · next heq => exact absurd heq.2 hname.2
    · exact h.super id value hvalue
  · intro other hother
    obtain ⟨value, hvalue⟩ := (Bindings.binds_iff _ _).mp hother
    rw [Forest.get?_define F n name v hn] at hvalue
    split at hvalue
    · next heq => exact heq.2 ▸ hglobal heq.1.symm
    · exact h.globals other ((Bindings.binds_iff _ _).mpr ⟨value, hvalue⟩)

/-! ## §3. Layers. -/

theorem layered_global (F : Forest Value) : Layered F [⟨globalScope, globalScope, []⟩] := by
  refine ⟨?_, ?_, List.pairwise_singleton _ _⟩
  · intro p hp
    obtain rfl := List.mem_singleton.mp hp
    exact ⟨rfl, rfl⟩
  · intro p hp
    obtain rfl := List.mem_singleton.mp hp
    exact nofun

section Layers

variable {p : Place} {ps : List Place} {n n' : ScopeId} {scopes : Scopes}

theorem Layered.dropped (h : Layered F (p :: ps)) : Layered F ps where
  placed := fun q hq => h.placed q (List.mem_cons_of_mem p hq)
  tight := fun q hq => h.tight q (List.mem_cons_of_mem p hq)
  newer := (List.pairwise_cons.mp h.newer).2

/-- A place is not the current one of a place that waits for it. -/
theorem Layered.ne_of_mem (h : Layered F (p :: ps)) {q : Place} (hq : q ∈ ps) : q.here ≠ p.here := by
  have hlt : p.here > q.here := (List.pairwise_cons.mp h.newer).1 _ (List.mem_map_of_mem hq)
  exact Nat.ne_of_lt hlt

/-- A new scope is the newest. -/
theorem Layered.child (h : Layered F ps) (hroot : globalScope < F.nextId) (hc : Chain F n scopes)
    {scope : Bindings Bool} {b : Bindings Value}
    (hb : ∀ name, scope.get? name = (b.get? name).map fun _ => true) :
    Layered (F.child n b) (⟨F.nextId, F.nextId, scope :: scopes⟩ :: ps) := by
  have hg := grows_child F n b
  have hlt : ∀ q ∈ ps, q.here < F.nextId := fun q hq => (h.placed q hq).2.lt_nextId hroot
  refine ⟨?_, ?_, ?_⟩
  · intro q hq
    rcases List.mem_cons.mp hq with rfl | hq
    · refine ⟨rfl, ?_, n, ?_, hc.mono hg⟩
      · intro name hname
        show ((F.child n b).bindings F.nextId).binds name
        rw [Forest.bindings_child_self]
        rw [hb name] at hname
        obtain ⟨v, hv, -⟩ := Option.map_eq_some_iff.mp hname
        exact (Bindings.binds_iff _ _).mpr ⟨v, hv⟩
      · exact Forest.enclosing?_child_self F n b (hc.lt_nextId hroot)
    · exact (h.placed q hq).mono hg
  · intro q hq
    rcases List.mem_cons.mp hq with rfl | hq
    · rintro _ ⟨⟩ name hname
      dsimp only at hname
      rw [Forest.bindings_child_self] at hname
      obtain ⟨v, hv⟩ := (Bindings.binds_iff _ _).mp hname
      rw [hb name, hv]
      rfl
    · intro scope' hscope name hname
      rw [Forest.bindings_child_of_lt F n b (hlt q hq)] at hname
      exact h.tight q hq scope' hscope name hname
  · rw [List.map_cons, List.pairwise_cons]
    refine ⟨?_, h.newer⟩
    intro id hid
    obtain ⟨q, hq, rfl⟩ := List.mem_map.mp hid
    exact hlt q hq

/-- A name that is declared has no variable yet. -/
theorem Layered.declare (h : Layered F (⟨n, n', scopes⟩ :: ps)) {name : Token}
    (hname : Declarable T scopes name) :
    Layered F (⟨n, n', scopes.declare name.lexeme⟩ :: ps) := by
  refine ⟨?_, ?_, h.newer⟩
  · intro q hq
    rcases List.mem_cons.mp hq with rfl | hq
    · have hplaced := h.placed ⟨n, n', scopes⟩ List.mem_cons_self
      exact ⟨hplaced.1, hplaced.2.declare hname⟩
    · exact h.placed q (List.mem_cons_of_mem _ hq)
  · intro q hq
    rcases List.mem_cons.mp hq with rfl | hq
    · cases scopes with
      | nil => exact nofun
      | cons scope rest =>
        have hnew : scope.get? name.lexeme = none := hname.2
        rintro scope' hscope other hother
        have hget := h.tight _ List.mem_cons_self scope rfl other hother
        rw [Scopes.declare] at hscope
        split at hscope
        · cases hscope
          exact hget
        · cases hscope
          rw [Bindings.get?_insert, if_neg]
          · exact hget
          · rintro rfl
            rw [hnew] at hget
            cases hget
    · exact h.tight q (List.mem_cons_of_mem _ hq)

/-- A variable that is there may get another value. -/
theorem Layered.renew (h : Layered F ps) {a : ScopeId} {name : String}
    (hb : (F.bindings a).binds name) (v : Value) : Layered (F.define a name v) ps := by
  have hg := grows_define F a name v
  refine ⟨fun q hq => (h.placed q hq).mono hg, ?_, h.newer⟩
  intro q hq scope hscope other hother
  refine h.tight q hq scope hscope other ?_
  by_cases hid : q.here = a
  · rw [hid] at hother ⊢
    obtain ⟨u, hu⟩ := (Bindings.binds_iff _ _).mp hb
    rw [Forest.bindings_define_self F a name v (Forest.lt_nextId_of_get? hu), Bindings.binds_insert]
      at hother
    rcases Bool.or_eq_true_iff.mp hother with hother | hother
    · exact of_decide_eq_true hother ▸ hb
    · exact hother
  · rw [Forest.bindings_define_of_ne F a name v hid] at hother
    exact hother

end Layers

/-! ## §4. The discipline. -/

/-- The global scope has no scope around it. -/
theorem enclosing?_global (F : Forest Value) : F.enclosing? globalScope = none := by
  cases hp : F.enclosing? globalScope with
  | none => rfl
  | some p =>
    have hlt : p < globalScope := Forest.enclosing?_lt hp
    exact absurd hlt (Nat.not_lt_zero p)

theorem holder?_global (F : Forest Value) (name : String) :
    F.holder? name globalScope
      = if (F.bindings globalScope).binds name then some globalScope else none :=
  Forest.holder?_of_root (enclosing?_global F)

theorem target_of_binds {F : Forest Value} {n : ScopeId} {name : String}
    (h : (F.bindings n).binds name) : F.target n name = .ok n := by
  unfold Forest.target
  rw [Forest.holder?_of_binds h]

theorem target_global_of_not {F : Forest Value} {name : String}
    (h : ¬ (F.bindings globalScope).binds name) :
    F.target globalScope name = .error (.undefinedVariable name) := by
  unfold Forest.target
  rw [holder?_global, if_neg h]

/-- A variable that is there gets matching values. -/
theorem Stocked.renew (h : Stocked T F F') {n : ScopeId} {name : String} (hname : Ordinary name)
    (hb : (F.bindings n).binds name) {v v' : Value} (hv : ValueMatch chains T F v v') :
    Grows F (F.define n name v) ∧ Stocked T (F.define n name v) (F'.define n name v') := by
  have hg := grows_define F n name v
  obtain ⟨u, hu⟩ := (Bindings.binds_iff _ _).mp hb
  refine ⟨hg, stocked_define h (Forest.lt_nextId_of_get? hu) hname ?_ (ValueMatch.mono hg hv)⟩
  intro hn
  rw [hn] at hb
  exact h.globals name hb

/-- **The discipline of distances.** -/
def byDistance (T : Chart) : Discipline chains T where
  holds w ps F F' := F = w ∧ Stocked T F F' ∧ Layered F ps
  current := by
    rintro w p ps F F' ⟨rfl, -, hps⟩
    exact hps.placed p List.mem_cons_self
  dropped := by
    rintro w p ps F F' ⟨rfl, hstocked, hps⟩
    exact ⟨rfl, hstocked, hps.dropped⟩
  opened := by
    rintro w ps F F' n n' scopes scope b b' ⟨rfl, hstocked, hps⟩ ⟨rfl, hchain⟩ hb
    refine ⟨F.child n b, grows_child F n b, rfl, stocked_child hstocked n hb, ?_⟩
    rw [hstocked.nextId]
    exact hps.child hstocked.root hchain hb.names
  declared := by
    rintro w n n' scopes ps F F' name ⟨rfl, hstocked, hps⟩ hname
    exact ⟨rfl, hstocked, hps.declare hname⟩
  receiver := by
    rintro w ps F F' n n' scopes ⟨rfl, hstocked, -⟩ ⟨rfl, hchain⟩
    obtain ⟨v, v', hv, hv', hmatch⟩ := hstocked.get? (hchain.1 "this" rfl)
    obtain ⟨o, rfl⟩ := hstocked.this n v hv
    cases hmatch with
    | object =>
      exact ⟨o, Forest.getAt_of_ancestor? rfl hv, Forest.getAt_of_ancestor? rfl hv'⟩
  renewed := by
    rintro w ⟨n, n', scopes⟩ ps F F' name v v' ⟨rfl, hstocked, hps⟩ howns hname hv
    obtain ⟨hn, hchain⟩ := hps.placed ⟨n, n', scopes⟩ List.mem_cons_self
    obtain rfl : n = n' := hn
    -- at the top level the name may be missing in both programs
    by_cases hb : (F.bindings n).binds name
    · have hb' : (F'.bindings n).binds name := by
        rw [hstocked.binds]
        exact hb
      obtain ⟨hg, hstocked'⟩ := hstocked.renew hname hb hv
      exact .inl ⟨n, n, F.define n name v, target_of_binds hb, target_of_binds hb', hg, rfl,
        hstocked', hps.renew hb v⟩
    · cases scopes with
      | nil =>
        obtain rfl : n = globalScope := hchain
        refine .inr ⟨target_global_of_not hb, target_global_of_not ?_⟩
        rw [hstocked.binds]
        exact hb
      | cons scope rest => exact absurd (hchain.1 name (howns scope rfl)) hb

/-! ## §5. Looking up. -/

/-- A name that is defined in static scopes has matching variables at its
distance. -/
theorem Stocked.getAt (h : Stocked T F F') {n n' : ScopeId} {scopes : Scopes}
    (hp : Placed F ⟨n, n', scopes⟩) {name : String} {d : Nat}
    (hfind : scopes.find? name = some (d, true)) :
    ∃ v v', F.getAt n d name = .ok v ∧ F'.getAt n' d name = .ok v' ∧ ValueMatch chains T F v v'
      ∧ (name = "this" → ∃ o, v = .object o) ∧ (name = "super" → ∃ k, v = .class k) := by
  obtain ⟨hn, hchain⟩ := hp
  obtain rfl : n = n' := hn
  obtain ⟨a, ha, hb⟩ := hchain.find? hfind
  obtain ⟨v, v', hv, hv', hmatch⟩ := h.get? (hb rfl)
  refine ⟨v, v', Forest.getAt_of_ancestor? ha hv, Forest.getAt_of_ancestor? ?_ hv', hmatch, ?_, ?_⟩
  · rw [h.ancestor?]
    exact ha
  · rintro rfl
    exact h.this a v hv
  · rintro rfl
    exact h.super a v hv

/-- Globals are found, or missing, in both stores. -/
theorem Stocked.getGlobal (h : Stocked T F F') (name : String) :
    ResultMatch chains T F (F.get globalScope name) (F'.get globalScope name) := by
  unfold Forest.get
  rw [holder?_global, holder?_global, h.binds]
  by_cases hb : (F.bindings globalScope).binds name
  · obtain ⟨v, v', hv, hv', hmatch⟩ := h.get? hb
    rw [if_pos hb]
    dsimp only [Option.bind]
    rw [hv, hv']
    exact .ok hmatch
  · rw [if_neg hb]
    exact .error trivial

/-- A setting has the distances of a chart. -/
def Charted (T : Chart) (g : Setting) : Prop :=
  ∀ id, T.distance id = g.distances[id]?

theorem Charted.located {g : Setting} (hg : Charted T g) {scopes : Scopes} {o : Occurrence}
    (h : Located T scopes o) : g.distances[o.id]? = (scopes.find? o.name.lexeme).map Prod.fst := by
  rw [← hg o.id, h.2, Scopes.distance?_eq_find?]

variable {s s' : State} {g g' : Setting} {scopes : Scopes} {o : Occurrence}

/-- A name that is local and defined is found by its distance. -/
theorem lookUp_local (h : Stocked T s.scopes s'.scopes)
    (hp : Placed s.scopes ⟨s.scope, s'.scope, scopes⟩) (hg : Charted T g) (hg' : Charted T g')
    (hl : Located T scopes o) {d : Nat} (hfind : scopes.find? o.name.lexeme = some (d, true)) :
    ∃ v v', Config.lookUp g s o = .ok v ∧ Config.lookUp g' s' o = .ok v'
      ∧ ValueMatch chains T s.scopes v v' ∧ (o.name.lexeme = "this" → ∃ id, v = .object id) := by
  have hd := hg.located hl
  have hd' := hg'.located hl
  rw [hfind] at hd hd'
  obtain ⟨v, v', hv, hv', hmatch, hthis, -⟩ := h.getAt hp hfind
  refine ⟨v, v', ?_, ?_, hmatch, hthis⟩
  · unfold Config.lookUp
    rw [hd]
    exact hv
  · unfold Config.lookUp
    rw [hd']
    exact hv'

/-- **Looking up a variable** gives matching results. -/
theorem lookUp_match (h : Stocked T s.scopes s'.scopes)
    (hp : Placed s.scopes ⟨s.scope, s'.scope, scopes⟩) (hg : Charted T g) (hg' : Charted T g')
    (hl : Located T scopes o) (hdefined : scopes.Defined o.name.lexeme) :
    ResultMatch chains T s.scopes (Config.lookUp g s o) (Config.lookUp g' s' o) := by
  cases hfind : scopes.find? o.name.lexeme with
  | none =>
    have hd := hg.located hl
    have hd' := hg'.located hl
    rw [hfind] at hd hd'
    unfold Config.lookUp
    rw [hd, hd']
    exact h.getGlobal o.name.lexeme
  | some pair =>
    obtain ⟨d, b⟩ := pair
    cases b with
    | false => exact absurd hfind (hdefined d)
    | true =>
      obtain ⟨v, v', hv, hv', hmatch, -⟩ := lookUp_local h hp hg hg' hl hfind
      rw [hv, hv']
      exact .ok hmatch

/-- The class that `super` stands for. -/
theorem superclassAt_match (h : Stocked T s.scopes s'.scopes)
    (hp : Placed s.scopes ⟨s.scope, s'.scope, scopes⟩) {keyword : Token}
    (hk : keyword.lexeme = "super") {d : Nat} (hfind : scopes.find? "super" = some (d, true)) :
    ∃ k k', Config.superclassAt s d keyword = .ok k ∧ Config.superclassAt s' d keyword = .ok k'
      ∧ ClassMatch chains T s.scopes k k' := by
  obtain ⟨v, v', hv, hv', hmatch, -, hsuper⟩ := h.getAt hp hfind
  obtain ⟨k, rfl⟩ := hsuper rfl
  cases hmatch with
  | @«class» _ k' hclass =>
    unfold Config.superclassAt
    rw [hk, hv, hv']
    exact ⟨k, k', rfl, rfl, hclass⟩

/-- The object that `this` stands for just inside `super`. -/
theorem receiverAt_match (h : Stocked T s.scopes s'.scopes)
    (hp : Placed s.scopes ⟨s.scope, s'.scope, scopes⟩) {d : Nat}
    (hfind : scopes.find? "this" = some (d, true)) :
    ∃ id, Config.receiverAt s (d + 1) = .ok id ∧ Config.receiverAt s' (d + 1) = .ok id := by
  obtain ⟨v, v', hv, hv', hmatch, hthis, -⟩ := h.getAt hp hfind
  obtain ⟨id, rfl⟩ := hthis rfl
  cases hmatch with
  | object =>
    unfold Config.receiverAt
    dsimp only
    rw [hv, hv']
    exact ⟨id, rfl, rfl⟩

/-- The scope that an assignment changes is found in both programs, or the
variable is missing in both. -/
theorem assignmentTarget_match (h : Stocked T s.scopes s'.scopes)
    (hp : Placed s.scopes ⟨s.scope, s'.scope, scopes⟩) (hg : Charted T g) (hg' : Charted T g')
    (hl : Located T scopes o) :
    (∃ a, Config.assignmentTarget g s o = .ok a ∧ Config.assignmentTarget g' s' o = .ok a
      ∧ (s.scopes.bindings a).binds o.name.lexeme)
    ∨ (Config.assignmentTarget g s o = .error (.undefinedVariable o.name.lexeme)
      ∧ Config.assignmentTarget g' s' o = .error (.undefinedVariable o.name.lexeme)) := by
  have hd := hg.located hl
  have hd' := hg'.located hl
  unfold Config.assignmentTarget
  rw [hd, hd']
  cases hfind : scopes.find? o.name.lexeme with
  | none =>
    dsimp only [Option.map]
    by_cases hb : (s.scopes.bindings globalScope).binds o.name.lexeme
    · have hb' := hb
      rw [← h.binds] at hb'
      exact .inl ⟨globalScope, target_of_binds hb, target_of_binds hb', hb⟩
    · have hb' := hb
      rw [← h.binds] at hb'
      exact .inr ⟨target_global_of_not hb, target_global_of_not hb'⟩
  | some pair =>
    obtain ⟨d, b⟩ := pair
    obtain ⟨hn, hchain⟩ := hp
    obtain ⟨a, ha, -⟩ := hchain.find? hfind
    have hscope : s.scope = s'.scope := hn
    have ha' : s'.scopes.ancestor? s'.scope d = some a := by
      rw [h.ancestor?, ← hscope]
      exact ha
    dsimp only [Option.map]
    rw [Forest.targetAt_of_ancestor? ha, Forest.targetAt_of_ancestor? ha', h.binds]
    by_cases hb : (s.scopes.bindings a).binds o.name.lexeme
    · rw [if_pos hb]
      exact .inl ⟨a, rfl, rfl, hb⟩
    · rw [if_neg hb]
      exact .inr ⟨rfl, rfl⟩

/-! ## §6. Declaring. -/

/-- A name that is declared at the top level is a known one. -/
theorem globals_of_declarable {n : ScopeId} {scopes' : Scopes} (hc : Chain F n scopes')
    (hempty : scopes'.isEmpty = scopes.isEmpty) {name : Token} (hname : Declarable T scopes name) :
    n = globalScope → T.globals name.lexeme := by
  intro hn
  cases scopes with
  | nil => exact hname.2
  | cons scope rest =>
    cases scopes' with
    | nil => cases hempty
    | cons => exact absurd hn hc.ne_global

variable {w : chains.World} {ps : List Place} {fs fs' : List Frame} {i : Bool} {name : Token}
  {v v' : Value}

/-- The chain shows a name once it has a variable, whatever its value is. -/
theorem Placed.define (hroot : globalScope < F.nextId) {n n' : ScopeId}
    (h : Placed F ⟨n, n', scopes⟩) (name : String) (v : Value) :
    Placed (F.define n name v) ⟨n, n', scopes.add name⟩ := by
  obtain ⟨hn, hchain⟩ := h
  refine ⟨hn, (hchain.mono (grows_define F n name v)).add ?_⟩
  show ((F.define n name v).bindings n).binds name
  rw [Forest.bindings_define_self F n name v (hchain.lt_nextId hroot), Bindings.binds_insert,
    decide_eq_true rfl, Bool.true_or]

/-- A name gets its variable, and no other place changes. -/
theorem Layered.define {n n' : ScopeId} {ps : List Place}
    (h : Layered F (⟨n, n', scopes⟩ :: ps)) (hroot : globalScope < F.nextId) (name : String)
    (v : Value) : Layered (F.define n name v) (⟨n, n', scopes.add name⟩ :: ps) := by
  have hg := grows_define F n name v
  have hplaced := h.placed _ List.mem_cons_self
  have hlt : n < F.nextId := hplaced.2.lt_nextId hroot
  refine ⟨?_, ?_, h.newer⟩
  · intro q hq
    rcases List.mem_cons.mp hq with rfl | hq
    · exact hplaced.define hroot name v
    · exact (h.placed q (List.mem_cons_of_mem _ hq)).mono hg
  · intro q hq
    rcases List.mem_cons.mp hq with rfl | hq
    · cases scopes with
      | nil => exact nofun
      | cons scope rest =>
        rintro _ ⟨⟩ other hother
        dsimp only at hother
        rw [Forest.bindings_define_self F n name v hlt, Bindings.binds_insert] at hother
        rw [Bindings.get?_insert]
        split
        · rfl
        · next hne =>
          rw [decide_eq_false hne, Bool.false_or] at hother
          exact h.tight _ List.mem_cons_self scope rfl other hother
    · intro scope hscope other hother
      rw [Forest.bindings_define_of_ne F n name v (h.ne_of_mem hq)] at hother
      exact h.tight q (List.mem_cons_of_mem _ hq) scope hscope other hother

/-- **A name gets its variable in the current scope.** -/
theorem StateMatch.define
    (hs : StateMatch (byDistance T) w (⟨s.scope, s'.scope, scopes⟩ :: ps) s s')
    (hname : Ordinary name.lexeme) (hglobal : s.scope = globalScope → T.globals name.lexeme)
    (hv : ValueMatch chains T (s.scopes.define s.scope name.lexeme v) v v') :
    StateMatch (byDistance T) (s.scopes.define s.scope name.lexeme v)
      (⟨s.scope, s'.scope, scopes.add name.lexeme⟩ :: ps) (s.define s.scope name.lexeme v)
      (s'.define s'.scope name.lexeme v') := by
  obtain ⟨rfl, hstocked, hps⟩ := hs.scopes
  obtain ⟨hn, hchain⟩ := hps.placed _ List.mem_cons_self
  have hlt := hchain.lt_nextId hstocked.root
  have hg := grows_define s.scopes s.scope name.lexeme v
  have hstocked' := stocked_define hstocked hlt hname hglobal hv
  have hscope : s.scope = s'.scope := hn
  refine hs.grow hg ⟨rfl, ?_, hps.define hstocked.root name.lexeme v⟩
  rw [← hscope]
  exact hstocked'

theorem StateMatch.world (hs : StateMatch (byDistance T) w ps s s') : w = s.scopes :=
  hs.scopes.1.symm

theorem StateMatch.placed
    (hs : StateMatch (byDistance T) w (⟨s.scope, s'.scope, scopes⟩ :: ps) s s') :
    Placed s.scopes ⟨s.scope, s'.scope, scopes⟩ :=
  hs.scopes.2.2.placed _ List.mem_cons_self

/-- Variables, functions and classes get their first value alike. -/
theorem Ready.defining {scopes' : Scopes}
    (hw : Waits chains T w ⟨.completion, i, scopes.add name.lexeme, ps⟩ fs fs')
    (hs : StateMatch (byDistance T) w (⟨s.scope, s'.scope, scopes'⟩ :: ps) s s')
    (hadd : scopes'.add name.lexeme = scopes.add name.lexeme)
    (hempty : scopes'.isEmpty = scopes.isEmpty) (hname : Declarable T scopes name)
    (hv : ValueMatch chains T (s.scopes.define s.scope name.lexeme v) v v') :
    Ready (byDistance T) (s.scopes.define s.scope name.lexeme v)
      ⟨.completion, i, scopes.add name.lexeme, ps⟩ fs fs' (s.define s.scope name.lexeme v)
      (s'.define s'.scope name.lexeme v') := by
  have hglobal := globals_of_declarable hs.placed.2 hempty hname
  have hs' := hs.define hname.1 hglobal hv
  rw [hadd] at hs'
  obtain rfl := hs.world
  exact ⟨hw.mono (grows_define s.scopes s.scope name.lexeme v), hs'⟩

/-! ## §7. Steps. -/

/-- A use of `super` gives both programs the same method, or none. -/
theorem Ready.superMethod (h : Ready (byDistance T) w ⟨.value, i, scopes, ps⟩ fs fs' s s')
    (hg : Charted T g) (hg' : Charted T g') {method : Token}
    (hb : BoundExpr T scopes (.super o method)) (control control' : Control) :
    Alongside (byDistance T) (Config.superMethod g ⟨control, fs, s⟩ o method)
      (Config.superMethod g' ⟨control', fs', s'⟩ o method) := by
  obtain ⟨hl, hname, d, hthis, hsuper⟩ := hb
  have hd := hg.located hl
  have hd' := hg'.located hl
  rw [hname, hsuper] at hd hd'
  have hstocked := h.states.scopes.2.1
  have hplaced := h.states.placed
  obtain ⟨k, k', hk, hk', hclass⟩ := superclassAt_match hstocked hplaced hname hsuper
  obtain ⟨id, hid, hid'⟩ := receiverAt_match hstocked hplaced hthis
  obtain rfl := h.states.world
  unfold Config.superMethod
  rw [hd, hd']
  dsimp only [Option.map]
  rw [hk, hk']
  dsimp only
  rw [hid, hid']
  dsimp only
  have hmethod := hclass.method method.lexeme
  generalize k.method? method.lexeme = x at hmethod
  generalize k'.method? method.lexeme = y at hmethod
  cases hmethod with
  | none => exact h.failing (by trivial) _
  | some hf => exact h.yieldingMethod hf id _ _

/-- An expression that names a variable. -/
theorem alongside_eval_naming {e : Expr} (hb : BoundExpr T scopes e)
    (h : Ready (byDistance T) w ⟨.value, i, scopes, ps⟩ fs fs' s s') (hg : Charted T g)
    (hg' : Charted T g') (hn : NamingExpr e) :
    Alongside (byDistance T) (Config.eval g ⟨.eval e, fs, s⟩ e)
      (Config.eval g' ⟨.eval e, fs', s'⟩ e) := by
  have hstocked := h.states.scopes.2.1
  have hplaced := h.states.placed
  cases e with
  | «variable» o =>
    obtain ⟨hl, -, hdefined⟩ := hb
    obtain rfl := h.states.world
    exact h.settling (lookUp_match hstocked hplaced hg hg' hl hdefined) _ _ _
  | this o =>
    obtain ⟨hl, hname, d, hthis⟩ := hb
    obtain rfl := h.states.world
    refine h.settling (lookUp_match hstocked hplaced hg hg' hl ?_) _ _ _
    intro d' hd'
    rw [hname, hthis] at hd'
    cases hd'
  | super o method => exact h.superMethod hg hg' hb _ _
  | _ => exact False.elim hn

/-- A function closes over the scope that its own name is in. -/
theorem alongside_function {decl : FunctionDecl Stmt}
    (hb : BoundStmt T i scopes (.function decl))
    (hw : Waits chains T w ⟨.completion, i, scopes.add decl.name.lexeme, ps⟩ fs fs')
    (hs : StateMatch (byDistance T) w (⟨s.scope, s'.scope, scopes⟩ :: ps) s s') :
    Alongside (byDistance T) (Config.exec ⟨.exec (.function decl), fs, s⟩ (.function decl))
      (Config.exec ⟨.exec (.function decl), fs', s'⟩ (.function decl)) := by
  obtain ⟨-, hname, hbound⟩ := hb
  let f : Function := ⟨s.nextIdentity, decl, s.scope, false⟩
  let f' : Function := ⟨s'.nextIdentity, decl, s'.scope, false⟩
  have hused : StateMatch (byDistance T) w
      (⟨(s.useIdentities 1).scope, (s'.useIdentities 1).scope, scopes⟩ :: ps) (s.useIdentities 1)
      (s'.useIdentities 1) := hs.useIdentities 1
  have hsees : chains.sees (s.scopes.define s.scope decl.name.lexeme (.function f)) s.scope
      s'.scope (scopes.add decl.name.lexeme) :=
    Placed.define hs.scopes.2.1.root hs.placed decl.name.lexeme (.function f)
  have hv : ValueMatch chains T (s.scopes.define s.scope decl.name.lexeme (.function f))
      (.function f) (.function f') :=
    .function ⟨scopes.add decl.name.lexeme, ⟨hs.nextIdentity, rfl, rfl, hsees⟩, hbound, nofun⟩
  exact (Ready.defining hw hused rfl rfl hname hv).completed

/-- A class is declared after its name has a variable. -/
theorem alongside_class {superclass : Option Occurrence} {methods : List (FunctionDecl Stmt)}
    (hb : BoundStmt T i scopes (.class name superclass methods))
    (hw : Waits chains T w ⟨.completion, i, scopes.add name.lexeme, ps⟩ fs fs')
    (hs : StateMatch (byDistance T) w (⟨s.scope, s'.scope, scopes⟩ :: ps) s s') :
    Alongside (byDistance T)
      (Config.exec ⟨.exec (.class name superclass methods), fs, s⟩ (.class name superclass methods))
      (Config.exec ⟨.exec (.class name superclass methods), fs', s'⟩
        (.class name superclass methods)) := by
  obtain ⟨-, hname, hparent, hmethods⟩ := hb
  have hready := Ready.defining hw hs rfl rfl hname .nil
  have howns := owns_add scopes name.lexeme
  cases superclass with
  | none => exact hready.declaringClass hname.1 howns .none hmethods _ _
  | some parent =>
    exact ⟨_, _, _, .eval (hparent parent rfl), .cons (.superclass hname.1 howns hmethods)
      hready.frames, hready.states⟩

/-- A statement that declares a name at once. -/
theorem alongside_exec_naming {st : Stmt} (hb : BoundStmt T i scopes st)
    (hw : Waits chains T w ⟨.completion, i, scopes.after st, ps⟩ fs fs')
    (hs : StateMatch (byDistance T) w (⟨s.scope, s'.scope, scopes⟩ :: ps) s s')
    (hn : NamingStmt st) :
    Alongside (byDistance T) (Config.exec ⟨.exec st, fs, s⟩ st)
      (Config.exec ⟨.exec st, fs', s'⟩ st) := by
  cases st with
  | var name initializer =>
    cases initializer with
    | none => exact (Ready.defining hw hs rfl rfl hb.2.1 .nil).completed
    | some e => exact False.elim hn
  | function decl => exact alongside_function hb hw hs
  | «class» name superclass methods => exact alongside_class hb hw hs
  | _ => exact False.elim hn

/-- An assignment changes the same variable of both programs. -/
theorem Ready.assigning (h : Ready (byDistance T) w ⟨.value, i, scopes, ps⟩ fs fs' s s')
    (hg : Charted T g) (hg' : Charted T g') (hl : Located T scopes o) (ho : Ordinary o.name.lexeme)
    (hv : ValueMatch chains T w v v') (control control' : Control) :
    Alongside (byDistance T) (Config.assigning g ⟨control, fs, s⟩ o v)
      (Config.assigning g' ⟨control', fs', s'⟩ o v') := by
  obtain ⟨rfl, hstocked, hps⟩ := h.states.scopes
  unfold Config.assigning
  dsimp only
  rcases assignmentTarget_match hstocked h.states.placed hg hg' hl with
    ⟨a, ha, ha', hb⟩ | ⟨herror, herror'⟩
  · rw [ha, ha']
    obtain ⟨hgrows, hstocked'⟩ := hstocked.renew ho hb hv
    have hs := h.states.grow hgrows ⟨rfl, hstocked', hps.renew hb v⟩
    exact Ready.yielding ⟨h.frames.mono hgrows, hs⟩ (hv.mono hgrows)
  · rw [herror, herror']
    exact h.failing (by trivial) _

/-- **Every step keeps the layout.** -/
theorem Alongside.step_byDistance {c c' : Config} (h : Alongside (byDistance T) c c')
    (hg : Charted T g) (hg' : Charted T g') (hclock : g'.clock = g.clock)
    (hlimit : g'.callLimit = g.callLimit) :
    Alongside (byDistance T) (c.step g) (c'.step g') := by
  by_cases hn : Naming c
  · obtain ⟨control, frames, state⟩ := c
    obtain ⟨control', frames', state'⟩ := c'
    obtain ⟨w, scopes, a, hdoes, hwaits, hstates⟩ := h
    dsimp only at hdoes hwaits hstates
    cases hdoes with
    | eval hb => exact alongside_eval_naming hb ⟨hwaits, hstates⟩ hg hg' hn
    | exec hb => exact alongside_exec_naming hb hwaits hstates hn
    | @value _ _ _ v v' hv =>
      cases hwaits with
      | cons hop hrest =>
        cases hop with
        | assign hl ho _ => exact Ready.assigning ⟨hrest, hstates⟩ hg hg' hl ho hv _ _
        | define hname =>
          rename_i scopes name
          obtain rfl := hstates.world
          have hv' := hv.mono (grows_define state.scopes state.scope name.lexeme v)
          exact (Ready.defining hrest hstates (Scopes.add_declare scopes name.lexeme)
            (isEmpty_declare scopes name.lexeme) hname hv').completed
        | _ => exact False.elim hn
    | _ => exact False.elim hn
  · exact h.step hclock hlimit hn

end Lox.Lockstep
