/-
  Lox.Proofs.Session.Tied
  ───────────────────────
  **TWO SESSIONS THAT DO THE SAME.**

  Two sessions are tied when their states are, under the distances that each
  of them has learned.  If both accept a source, and the one source is the
  other with its local names respelled and its occurrences renumbered, then
  their runs are tied at every step (`Session.Tied.run`): what is printed and
  how the run ends is the same up to the spelling of a name.
-/
import Lox.Proofs.Session.Kept
import Lox.Proofs.Tied.Steps

namespace Lox

open Resolve

namespace Session

variable {S : Spelling} (hS : S.Lawful)

/-! ## §1. Between chunks. -/

/-- How the code of two sessions goes together. -/
def tie (s s' : Session) : Tie where
  toSpelling := S
  here id := s.machine.distances[id]?
  there id := s'.machine.distances[id]?
  limitHere := s.nextId
  limitThere := s'.nextId
  blames _ _ := False
  lawful := hS

/-- **Sessions whose states are tied.**  Both know nothing of numbers to come. -/
structure Tied (s s' : Session) : Prop where
  state : ∃ W, StateTied (tie hS s s') W s.machine.state s'.machine.state
    ∧ W.Sees (tie hS s s') s.machine.state.scope []
  fresh : ∀ id, s.nextId ≤ id → s.machine.distances[id]? = none
  fresh' : ∀ id, s'.nextId ≤ id → s'.machine.distances[id]? = none

theorem tied_new (capacity : Option Nat) : Tied hS (.new capacity) (.new capacity) := by
  refine ⟨⟨⟨(State.initial capacity).scopes, fun _ => false⟩, ?_, ?_⟩, ?_, ?_⟩
  · refine ⟨rfl, ⟨Nat.lt_succ_self 0, rfl, rfl, fun _ => rfl, ?_⟩, ⟨rfl, fun _ => .none⟩, rfl, rfl,
      rfl, rfl, rfl⟩
    intro id
    -- the clock is the only variable
    cases id with
    | zero => exact .cons ⟨rfl, .native .clock⟩ .nil
    | succ id => exact .nil
  · exact ⟨Nat.lt_succ_self 0, fun _ => rfl⟩
  · exact fun _ _ => Std.HashMap.getElem?_empty
  · exact fun _ _ => Std.HashMap.getElem?_empty

variable {hS}

/-- Sessions stay tied when the numbers of the second one go on. -/
theorem Tied.advance {s s' : Session} (h : Tied hS s s') {nextId : Nat} (hle : s'.nextId ≤ nextId) :
    Tied hS s ⟨s'.machine, nextId⟩ := by
  obtain ⟨W, hstate, hsees⟩ := h.state
  have hextends : (tie hS s s').Extends (tie hS s ⟨s'.machine, nextId⟩) :=
    ⟨rfl, Nat.le_refl _, hle, fun _ _ => rfl, fun _ _ => rfl⟩
  exact ⟨⟨W, hstate.extend hextends, hsees.extend hextends⟩, h.fresh,
    fun id hid => h.fresh' id (Nat.le_trans hle hid)⟩

/-- Tied sessions have the same global variables. -/
theorem Tied.globalNames {s s' : Session} (h : Tied hS s s') :
    s'.machine.globalNames = s.machine.globalNames := by
  obtain ⟨W, hstate, -⟩ := h.state
  have hnames := (hstate.store.values globalScope).names
  rw [hstate.store.global, hstate.forest] at hnames
  exact hnames.trans (List.map_id _)

theorem Tied.sink {s s' : Session} (h : Tied hS s s') :
    s'.machine.state.sink = s.machine.state.sink := by
  obtain ⟨W, hstate, -⟩ := h.state
  exact hstate.sink

/-! ## §2. Renamed chunks. -/

/-- A session that knows the distances of a source, and has yet to run it. -/
def learned (s : Session) (source : String) : Session :=
  ⟨s.machine.learn (s.resolution source).distances, (s.parsed source).nextId⟩

/-- **A run fails at an occurrence**: the step after the first `m` finds its
variable undefined. -/
def MissesAt (s : Session) (clock : Clock) (source : String) (m : Nat) (o : Occurrence) : Prop :=
  (Config.run (s.setting clock source) m (s.start source)).Misses (s.setting clock source) o

variable (hS) in
/-- How the code of two sessions goes together while each of them runs a source.
Where both fail, it is at one step and at occurrences of the same place. -/
def runTie (s s' : Session) (source source' : String) (clock : Clock) (fuel : Nat) : Tie :=
  { tie hS (s.learned source) (s'.learned source') with
    blames := fun o o' => S.pairs o o'
      ∧ ∃ m < fuel, s.MissesAt clock source m o ∧ s'.MissesAt clock source' m o' }

/-- **A source of one session, and its renaming in the other.**  Both are
accepted. -/
structure Counterpart (S : Spelling) (number : Nat → Nat) (s s' : Session)
    (source source' : String) : Prop where
  accepts : s.Accepts source
  accepts' : s'.Accepts source'
  renames : S.RenamesStmts number [] [] (s.parsed source).statements
    (s'.parsed source').statements
  distances : (s'.resolution source').distances
    = (s.resolution source).distances.map fun p => (number p.1, p.2)
  first : ∀ id, s.nextId ≤ id → s'.nextId ≤ number id
  last : ∀ id < (s.parsed source).nextId, number id < (s'.parsed source').nextId
  injective : ∀ id id', number id = number id' → id = id'

end Session

theorem lookup_map_number {number : Nat → Nat} (h : ∀ id id', number id = number id' → id = id')
    (entries : List (Nat × Nat)) (id : Nat) :
    (entries.map fun p => (number p.1, p.2)).lookup (number id) = entries.lookup id := by
  induction entries with
  | nil => rfl
  | cons p rest ih =>
    obtain ⟨key, d⟩ := p
    rw [List.map_cons, List.lookup_cons, List.lookup_cons, ih]
    by_cases hid : id = key
    · rw [hid, beq_self_eq_true, beq_self_eq_true]
    · rw [beq_eq_false_iff_ne.mpr hid, beq_eq_false_iff_ne.mpr (mt (h id key) hid)]

namespace Session

variable {S : Spelling} {hS : S.Lawful} {number : Nat → Nat} {s s' : Session}
  {source source' : String}

/-- Sessions stay tied when both learn the distances of a source and run it. -/
theorem extends_runTie (h : s.Accepts source) (h' : s'.Accepts source') (clock : Clock)
    (fuel : Nat) : (tie hS s s').Extends (runTie hS s s' source source' clock fuel) :=
  ⟨rfl, s.le_nextId_parsed source, s'.le_nextId_parsed source', h.extends.distance,
    h'.extends.distance⟩

/-- When the runs are over it is forgotten where they failed. -/
theorem runTie_extends (s s' : Session) (source source' : String) (clock : Clock) (fuel : Nat) :
    (runTie hS s s' source source' clock fuel).Extends
      (tie hS (s.learned source) (s'.learned source')) :=
  ⟨rfl, Nat.le_refl _, Nat.le_refl _, fun _ _ => rfl, fun _ _ => rfl⟩

/-- The distances of a renamed source, under the numbers of the source. -/
theorem Counterpart.getElem?_distances (h : Counterpart S number s s' source source')
    (hfresh' : ∀ id, s'.nextId ≤ id → s'.machine.distances[id]? = none) (clock : Clock) {id : Nat}
    (hid : s.nextId ≤ id) :
    (s'.setting clock source').distances[number id]?
      = (s.resolution source).distances.lookup id := by
  rw [h.accepts'.getElem?_distances, h.distances, lookup_map_number h.injective,
    hfresh' _ (h.first id hid), Option.or_none]

/-- **A renamed source does the same** as the source. -/
theorem Counterpart.tied (h : Counterpart S number s s' source source') (ht : Tied hS s s')
    (clock : Clock) (fuel : Nat) : TiedStmts (runTie hS s s' source source' clock fuel) []
      (s.parsed source).statements (s'.parsed source').statements := by
  obtain ⟨hnodup, hrange⟩ := s.numbering source
  -- the distances of both sources, under the numbers of the first
  let C : Chart := ⟨fun id => (s.setting (.still 0) source).distances[id]?,
    (s.parsed source).nextId, fun _ => True, False, fun _ _ => True⟩
  let C' : Chart := ⟨fun id => (s'.setting (.still 0) source').distances[number id]?,
    (s.parsed source).nextId, fun _ => True, False, fun _ _ => True⟩
  have hbound : BoundStmts C false [] (s.parsed source).statements := by
    refine bound_of_walk h.accepts.proper hnodup h.accepts.resolved (fun _ _ => trivial) ?_
      ⟨False.elim, fun _ _ _ _ _ => trivial⟩
    intro o ho
    refine ⟨(hrange o ho).2, ?_⟩
    show (s.setting (.still 0) source).distances[o.id]? = _
    rw [h.accepts.getElem?_distances, ht.fresh o.id (hrange o ho).1, Option.or_none]
    rfl
  have hbound' : BoundStmts C' false [] (s.parsed source).statements := by
    refine bound_of_walk h.accepts.proper hnodup h.accepts.resolved (fun _ _ => trivial) ?_
      ⟨False.elim, fun _ _ _ _ _ => trivial⟩
    intro o ho
    exact ⟨(hrange o ho).2, h.getElem?_distances ht.fresh' (.still 0) (hrange o ho).1⟩
  have hnumbers : (runTie hS s s' source source' clock fuel).Numbers number C C' :=
    ⟨fun _ => rfl, fun _ => rfl, fun _ hid => hid, h.last⟩
  exact RenamesStmts.tied hnumbers rfl _ hbound hbound' h.renames

/-- **Runs of a source and of its renaming are tied** at every step. -/
theorem Tied.run (ht : Tied hS s s') (h : Counterpart S number s s' source source') (clock : Clock)
    (n : Nat) : ConfigTied (runTie hS s s' source source' clock n)
      (Config.run (s.setting clock source) n (s.start source))
      (Config.run (s'.setting clock source') n (s'.start source')) := by
  obtain ⟨W, hstate, hsees⟩ := ht.state
  have hextends : (tie hS s s').Extends (runTie hS s s' source source' clock n) :=
    extends_runTie h.accepts h.accepts' clock n
  have hcharts : (runTie hS s s' source source' clock n).Charts (s.setting clock source)
      (s'.setting clock source') := ⟨fun _ => rfl, fun _ => rfl, rfl, rfl⟩
  have hstart : ConfigTied (runTie hS s s' source source' clock n) (s.start source)
      (s'.start source') := by
    refine ⟨W, [], .execAll (h.tied ht clock n), ?_⟩
    exact ⟨hsees.extend hextends, .nil _ _, hstate.extend hextends⟩
  exact hstart.run hcharts n fun m hm o o' hpair hmisses hmisses' =>
    ⟨hpair, m, hm, hmisses, hmisses'⟩

/-- A source and its renaming print the same. -/
theorem Tied.outputFrom_run (ht : Tied hS s s') (h : Counterpart S number s s' source source')
    (fuel : Nat) (clock : Clock) : (s'.run fuel clock source').1.outputFrom s'.printed
      = (s.run fuel clock source).1.outputFrom s.printed := by
  obtain ⟨W, sides, -, -, -, hstate⟩ := ht.run h clock fuel
  rw [run_eq h.accepts, run_eq h.accepts']
  unfold outputFrom printed
  dsimp only
  rw [ht.sink, hstate.sink]

/-- A source and its renaming end alike. -/
theorem Tied.ending_run (ht : Tied hS s s') (h : Counterpart S number s s' source source')
    (fuel : Nat) (clock : Clock) : ∃ e e', (s.run fuel clock source).2 = .ofEnding e
      ∧ (s'.run fuel clock source').2 = .ofEnding e'
      ∧ EndingTied (runTie hS s s' source source' clock fuel) e e' := by
  rw [run_eq h.accepts, run_eq h.accepts']
  exact ⟨_, _, rfl, rfl, (ht.run h clock fuel).ending⟩

end Session

end Lox
