/-
  Lox.Proofs.Session.Kept
  ───────────────────────
  **WHAT A SESSION KEEPS FROM CHUNK TO CHUNK.**

  Between two chunks a session is at the top level, all its functions are
  bound by the distances it has learned, and the numbers it has not used yet
  have no distances.  A chunk that is accepted starts alongside itself, so
  each of its steps, and the session after it, keeps this
  (`kept_of_reachable`).
-/
import Lox.Proofs.Grammar.Acceptance
import Lox.Proofs.Machine.Layout
import Lox.Proofs.Machine.Sequence
import Lox.Proofs.Token.Scan
import Lox.Session

namespace Lox

open Lockstep Resolve

/-! ## §1. Chunks. -/

/-- It came to an end. -/
def Outcome.ended : Outcome → Bool
  | .unfinished => false
  | .succeeded | .rejected _ | .failed _ => true

theorem Outcome.ofEnding_ne_rejected (e : Ending) (failures : List Diagnostic) :
    Outcome.ofEnding e ≠ .rejected failures := by
  cases e <;> exact nofun

theorem Outcome.ne_unfinished {o : Outcome} (h : o.ended) : o ≠ .unfinished := by
  rintro rfl
  cases h

namespace Session

/-- A session that some chunks lead to, each of which came to an end. -/
inductive Reachable : Session → Prop
  | new (capacity : Option Nat) : Reachable (.new capacity)
  | run {s : Session} (h : Reachable s) (fuel : Nat) (clock : Clock) (source : String)
      (hended : (s.run fuel clock source).2 ≠ .unfinished) : Reachable (s.run fuel clock source).1

/-- What a session reads a source as. -/
def parsed (s : Session) (source : String) : Parse.Program :=
  Source.program s.nextId source

/-- What the analysis of names finds. -/
def resolution (s : Session) (source : String) : Resolution :=
  Resolve.program s.machine.globalNames (s.parsed source).statements

/-- **A source passes all static checks.** -/
structure Accepts (s : Session) (source : String) : Prop where
  parsed : (s.parsed source).failures = []
  resolved : (s.resolution source).failures = []

/-- The setting that a source runs in. -/
def setting (s : Session) (clock : Clock) (source : String) : Setting where
  distances := (s.machine.learn (s.resolution source).distances).distances
  clock := clock

/-- The program that a source starts as. -/
def start (s : Session) (source : String) : Config :=
  ⟨.execAll (s.parsed source).statements, [], s.machine.state⟩

/-- The run of an accepted source. -/
theorem run_eq {s : Session} {source : String} (h : s.Accepts source) (fuel : Nat) (clock : Clock) :
    let c := Config.run (s.setting clock source) fuel (s.start source)
    s.run fuel clock source
      = (⟨⟨c.state, (s.setting clock source).distances⟩, (s.parsed source).nextId⟩,
        .ofEnding c.ending) := by
  have hparsed : (Source.program s.nextId source).failures = [] := h.parsed
  have hresolved : (Resolve.program s.machine.globalNames
      (Source.program s.nextId source).statements).failures = [] := h.resolved
  unfold run chunk
  dsimp only
  rw [hparsed, hresolved]
  rfl

/-- What a session shows of a run: what was printed since, and the outcome. -/
theorem runShowing_eq (s : Session) (fuel : Nat) (clock : Clock) (source : String) :
    s.runShowing fuel clock source = ((s.run fuel clock source).1,
      (s.run fuel clock source).1.outputFrom s.printed, (s.run fuel clock source).2) := by
  unfold runShowing chunkShowing
  rw [Job.perform_map]
  rfl

/-- A source that is rejected uses up numbers and changes nothing else. -/
theorem run_rejected {s : Session} {source : String} (h : ¬ s.Accepts source) (fuel : Nat)
    (clock : Clock) :
    (s.run fuel clock source).1 = ⟨s.machine, (s.parsed source).nextId⟩
      ∧ ∃ failures, (s.run fuel clock source).2 = .rejected failures := by
  unfold run chunk
  dsimp only
  split
  · exact ⟨rfl, _, rfl⟩
  · next hparsed =>
    split
    · exact ⟨rfl, _, rfl⟩
    · next hresolved =>
      refine absurd ⟨?_, ?_⟩ h
      · simpa [parsed] using hparsed
      · simpa [resolution, parsed] using hresolved

/-- **A source is rejected if and only if it does not pass all static checks.** -/
theorem rejected_iff {s : Session} {source : String} (fuel : Nat) (clock : Clock) :
    (∃ failures, (s.run fuel clock source).2 = .rejected failures) ↔ ¬ s.Accepts source := by
  constructor
  · rintro ⟨failures, hrejected⟩ h
    rw [run_eq h] at hrejected
    exact Outcome.ofEnding_ne_rejected _ failures hrejected
  · exact fun h => (run_rejected h fuel clock).2

end Session

/-! ## §2. Learning distances. -/

/-- Each number is learned once, so what was learned is what was noted. -/
theorem getElem?_learn {entries : List (Nat × Nat)} (hn : (entries.map Prod.fst).Nodup)
    (t : Distances) (id : Nat) :
    (entries.foldl (fun t (p : Nat × Nat) => t.insert p.1 p.2) t)[id]?
      = (entries.lookup id).or t[id]? := by
  induction entries generalizing t with
  | nil => rfl
  | cons p rest ih =>
    obtain ⟨key, d⟩ := p
    rw [List.map_cons, List.nodup_cons] at hn
    rw [List.foldl_cons, ih hn.2, List.lookup_cons, Std.HashMap.getElem?_insert]
    by_cases hid : id = key
    · subst hid
      have hnone : rest.lookup id = none := lookup_eq_none_of_notMem hn.1
      simp [hnone]
    · have hbeq : (id == key) = false := by simpa using hid
      simp [hbeq, Ne.symm hid]

namespace Session

/-- The statements of a source without failures have the shape that the walk
relies on. -/
theorem proper_of_parsed {s : Session} {source : String} (h : (s.parsed source).failures = []) :
    Stmt.ProperAll (s.parsed source).statements := by
  obtain ⟨ts, eof, htokens, heof, hts, hspelled⟩ := tokens_of_source source
  have hfailures : (Scanned.ofSource source).failures
      ++ (Parse.program s.nextId (Scanned.ofSource source).tokens).failures = [] := h
  have hparse := (List.append_eq_nil_iff.mp hfailures).2
  rw [htokens] at hparse
  have hprogram := Grammar.derives_program heof hts hparse
  have hproper := (Grammar.declarations_of_program hprogram).proper hspelled
  show Stmt.ProperAll (Parse.program s.nextId (Scanned.ofSource source).tokens).statements
  rw [htokens]
  exact hproper

theorem Accepts.proper {s : Session} {source : String} (h : s.Accepts source) :
    Stmt.ProperAll (s.parsed source).statements :=
  proper_of_parsed h.parsed

/-- Numbers of an accepted source are used once, and were free before. -/
theorem numbering (s : Session) (source : String) :
    ((Stmt.occurrencesAll (s.parsed source).statements).map Occurrence.id).Nodup
      ∧ ∀ o ∈ Stmt.occurrencesAll (s.parsed source).statements,
        s.nextId ≤ o.id ∧ o.id < (s.parsed source).nextId :=
  Parse.program_numbering s.nextId (Scanned.ofSource source).tokens

theorem le_nextId_parsed (s : Session) (source : String) : s.nextId ≤ (s.parsed source).nextId :=
  Parse.le_nextId s.nextId (Scanned.ofSource source).tokens

/-- The numbers that an accepted source notes distances for. -/
theorem Accepts.mem_distances {s : Session} {source : String} (h : s.Accepts source) {id : Nat}
    (hid : id ∈ (s.resolution source).distances.map Prod.fst) :
    s.nextId ≤ id ∧ id < (s.parsed source).nextId := by
  obtain ⟨hnodup, hrange⟩ := s.numbering source
  have hsublist := distances_sublist h.proper hnodup h.resolved
  obtain ⟨o, ho, rfl⟩ := List.mem_map.mp (hsublist.subset hid)
  exact hrange o ho

/-- What a session knows after an accepted source: what it noted for the new
numbers, and what was known for the others. -/
theorem Accepts.getElem?_distances {s : Session} {source : String} (h : s.Accepts source)
    (clock : Clock) (id : Nat) :
    (s.setting clock source).distances[id]?
      = ((s.resolution source).distances.lookup id).or s.machine.distances[id]? := by
  have hsublist := distances_sublist h.proper (s.numbering source).1 h.resolved
  exact getElem?_learn (hsublist.nodup (s.numbering source).1) s.machine.distances id

/-- An accepted source notes nothing for the numbers of others. -/
theorem Accepts.lookup_of_outside {s : Session} {source : String} (h : s.Accepts source) {id : Nat}
    (hid : id < s.nextId ∨ (s.parsed source).nextId ≤ id) :
    (s.resolution source).distances.lookup id = none := by
  apply lookup_eq_none_of_notMem
  intro hmem
  have hrange := h.mem_distances hmem
  omega

/-- **Numbers to come have no distances**, before an accepted source and after
it. -/
theorem Accepts.fresh {s : Session} {source : String} (h : s.Accepts source)
    (hfresh : ∀ id, s.nextId ≤ id → s.machine.distances[id]? = none) (clock : Clock) (id : Nat)
    (hid : (s.parsed source).nextId ≤ id) : (s.setting clock source).distances[id]? = none := by
  rw [h.getElem?_distances, h.lookup_of_outside (.inr hid),
    hfresh id (Nat.le_trans (s.le_nextId_parsed source) hid)]
  rfl

/-- What is known stays known when a source teaches more distances. -/
theorem Accepts.distances_mono {s : Session} {source : String} (h : s.Accepts source)
    (hfresh : ∀ id, s.nextId ≤ id → s.machine.distances[id]? = none) (clock : Clock) (id d : Nat)
    (hd : s.machine.distances[id]? = some d) :
    (s.setting clock source).distances[id]? = some d := by
  have hold : id < s.nextId := by
    by_contra hnew
    rw [hfresh id (Nat.le_of_not_lt hnew)] at hd
    cases hd
  rw [h.getElem?_distances, h.lookup_of_outside (.inl hold), Option.none_or]
  exact hd

/-! ## §3. Charts. -/

/-- What a session knows between two chunks. -/
def chart (s : Session) : Chart where
  distance id := s.machine.distances[id]?
  limit := s.nextId
  globals name := s.machine.state.globals.binds name
  strict := False

/-- What is known while an accepted source runs: the names that it declares at
the top level may come up as globals. -/
def chunkChart (s : Session) (source : String) : Chart where
  distance id := (s.machine.learn (s.resolution source).distances).distances[id]?
  limit := (s.parsed source).nextId
  globals name := s.machine.state.globals.binds name
    ∨ ∃ st ∈ (s.parsed source).statements, ∃ t, st.declared? = some t ∧ t.lexeme = name
  strict := False

theorem charted (s : Session) (clock : Clock) (source : String) :
    Charted (s.chunkChart source) (s.setting clock source) :=
  fun _ => rfl

/-- An accepted source keeps the distances of all earlier code. -/
theorem Accepts.extends {s : Session} {source : String} (h : s.Accepts source) :
    s.chart.Extends (s.chunkChart source) := by
  refine ⟨⟨s.le_nextId_parsed source, ?_, fun hstrict => hstrict⟩, fun _ _ h => h⟩
  intro id hid
  show (s.setting (.still 0) source).distances[id]? = s.machine.distances[id]?
  rw [h.getElem?_distances, h.lookup_of_outside (.inl hid), Option.none_or]

end Session

/-- Stores are as well stocked in a chart that knows more. -/
theorem Lockstep.Stocked.extend {T T' : Chart} (hT : T.Extends T') {F F' : Forest Value}
    (hglobals : ∀ name, (F.bindings globalScope).binds name → T'.globals name)
    (h : Stocked T F F') : Stocked T' F F' :=
  ⟨h.root, h.nextId, h.links, fun id name => optionRel_imp (fun _ _ => .extend hT) (h.values id name),
    h.this, h.super, hglobals⟩

theorem Lockstep.StateMatch.extend {T T' : Chart} (hT : T.Extends T') {w : chains.World}
    {ps : List Place} {s s' : State} (hglobals : ∀ name, s.globals.binds name → T'.globals name)
    (h : StateMatch (byDistance T) w ps s s') : StateMatch (byDistance T') w ps s s' := by
  obtain ⟨hw, hstocked, hps⟩ := h.scopes
  exact ⟨⟨hw, hstocked.extend hT hglobals, hps⟩,
    h.objects.imp (MethodMatch.extend hT) (FunctionMatch.extend hT), h.nextIdentity, h.sink,
    h.depth, h.readings⟩

/-! ## §4. Between chunks. -/

namespace Session

/-- **What a session keeps**: it is at the top level, its code is bound by what
it has learned, and it knows nothing of numbers to come. -/
structure Kept (s : Session) : Prop where
  scope : s.machine.state.scope = globalScope
  state : StateMatch (byDistance s.chart) s.machine.state.scopes [⟨globalScope, globalScope, []⟩]
    s.machine.state s.machine.state
  fresh : ∀ id, s.nextId ≤ id → s.machine.distances[id]? = none

theorem stocked_initial {capacity : Option Nat} {T : Chart}
    (hglobals : ∀ name, (State.initial capacity).globals.binds name → T.globals name) :
    Stocked T (State.initial capacity).scopes (State.initial capacity).scopes := by
  refine ⟨Nat.lt_succ_self 0, rfl, fun _ => rfl, ?_, ?_, ?_, hglobals⟩
  · intro id name
    rw [get?_initial]
    split
    · exact .some (.native .clock)
    · exact .none
  all_goals
    intro id v hv
    rw [get?_initial] at hv
    split at hv
    · next h => exact absurd h.2 (by decide)
    · cases hv

theorem kept_new (capacity : Option Nat) : (Session.new capacity).Kept := by
  refine ⟨rfl, ⟨⟨rfl, stocked_initial fun _ h => h, layered_global _⟩, ?_, rfl, rfl, rfl, rfl⟩,
    ?_⟩
  · exact ⟨rfl, fun id => .none⟩
  · intro id _
    exact Std.HashMap.getElem?_empty

/-- The statements of an accepted source are bound in every open chart that has
its distances and admits them. -/
theorem Accepts.bound_of_admits {s : Session} {source : String} (h : s.Accepts source) (hk : s.Kept)
    {T : Chart} (hopen : T.Open) (hlimit : T.limit = (s.parsed source).nextId)
    (hT : ∀ id, T.distance id = (s.chunkChart source).distance id)
    (ha : AdmitsAll T [] (s.parsed source).statements) :
    BoundStmts T false [] (s.parsed source).statements := by
  obtain ⟨hnodup, hrange⟩ := s.numbering source
  refine bound_of_walk h.proper hnodup h.resolved hopen ?_ ha
  intro o ho
  refine ⟨?_, ?_⟩
  · rw [hlimit]
    exact (hrange o ho).2
  · rw [hT]
    show (s.setting (.still 0) source).distances[o.id]? = _
    rw [h.getElem?_distances, hk.fresh o.id (hrange o ho).1, Option.or_none]
    rfl

/-- The statements of an accepted source are bound. -/
theorem Accepts.bound {s : Session} {source : String} (h : s.Accepts source) (hk : s.Kept) :
    BoundStmts (s.chunkChart source) false [] (s.parsed source).statements := by
  refine h.bound_of_admits hk (fun _ _ => trivial) rfl (fun _ => rfl) ?_
  refine ⟨fun hstrict => hstrict.elim, ?_⟩
  intro _ st hst t ht
  exact .inr ⟨st, hst, t, ht, rfl⟩

/-- **An accepted source starts alongside itself.** -/
theorem Kept.start {s : Session} (hk : s.Kept) {source : String} (h : s.Accepts source) :
    Alongside (byDistance (s.chunkChart source)) (s.start source) (s.start source) := by
  have hstate := hk.state.extend h.extends fun name hname => .inl hname
  have hdoes : Does chains (s.chunkChart source) s.machine.state.scopes (s.start source).control
      (s.start source).control [] ⟨.completion, false, Scopes.afterAll [] _, []⟩ :=
    .execAll (h.bound hk)
  have hnil : Scopes.afterAll [] (s.parsed source).statements = [] :=
    List.isEmpty_iff.mp (isEmpty_afterAll [] _)
  rw [hnil] at hdoes
  refine ⟨s.machine.state.scopes, [], _, hdoes, .bottom, ?_⟩
  · show StateMatch _ _ [⟨s.machine.state.scope, s.machine.state.scope, []⟩] _ _
    rw [hk.scope]
    exact hstate

/-- Every point of the run of an accepted source. -/
theorem Kept.run {s : Session} (hk : s.Kept) {source : String} (h : s.Accepts source)
    (clock : Clock) (n : Nat) :
    let c := Config.run (s.setting clock source) n (s.start source)
    Alongside (byDistance (s.chunkChart source)) c c := by
  have hcharted := s.charted clock source
  exact Config.run_keeps (P := fun c => Alongside (byDistance (s.chunkChart source)) c c)
    (fun c hc => hc.step_byDistance hcharted hcharted rfl rfl) (hk.start h) n

/-- A session keeps its code bound when its numbers go on. -/
theorem Kept.rejected {s : Session} (hk : s.Kept) {nextId : Nat} (hle : s.nextId ≤ nextId) :
    Kept ⟨s.machine, nextId⟩ := by
  have hextends : s.chart.Extends (chart ⟨s.machine, nextId⟩) :=
    ⟨⟨hle, fun _ _ => rfl, fun hstrict => hstrict⟩, fun _ _ h => h⟩
  exact ⟨hk.scope, hk.state.extend hextends fun _ hname => hname,
    fun id hid => hk.fresh id (Nat.le_trans hle hid)⟩

/-- **A chunk that ends leaves a session that is kept.** -/
theorem Kept.run_ended {s : Session} (hk : s.Kept) {fuel : Nat} {clock : Clock} {source : String}
    (hended : (s.run fuel clock source).2 ≠ .unfinished) : (s.run fuel clock source).1.Kept := by
  by_cases h : s.Accepts source
  · have halong := hk.run h clock fuel
    rw [run_eq h fuel clock] at hended ⊢
    dsimp only at halong hended ⊢
    generalize hc : Config.run (s.setting clock source) fuel (s.start source) = c at halong hended ⊢
    have hending : c.ending ≠ .unfinished := by
      intro heq
      rw [heq] at hended
      exact hended rfl
    obtain ⟨w, hstate⟩ := halong.ended hending
    have hscope : c.state.scope = globalScope := hstate.placed.2
    obtain rfl := hstate.world
    rw [hscope] at hstate
    refine ⟨hscope, hstate.extend ?_ fun _ hname => hname, h.fresh hk.fresh clock⟩
    exact ⟨⟨Nat.le_refl _, fun _ _ => rfl, fun hstrict => hstrict⟩, fun _ _ h => h⟩
  · obtain ⟨hsession, -⟩ := run_rejected h fuel clock
    rw [hsession]
    exact hk.rejected (s.le_nextId_parsed source)

/-- **Every session that chunks lead to is kept.** -/
theorem kept_of_reachable {s : Session} (h : s.Reachable) : s.Kept := by
  induction h with
  | new capacity => exact kept_new capacity
  | run _ fuel clock source hended ih => exact ih.run_ended hended

end Session

end Lox
