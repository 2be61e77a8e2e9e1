/-
  Lox.Proofs.Session.Rejected
  ───────────────────────────
  **REJECTED CHUNKS LEAVE NO TRACE.**

  A chunk that is rejected before it runs prints nothing and changes nothing
  but the number of the next occurrence.  So all code that comes after it has
  other numbers than it would have without the chunk, and the distances are
  found under other numbers; for the rest it is the same code.  A session
  without the rejected chunks stays tied to the session with them
  (`Session.Ahead`), and all other chunks print the same and have the same
  outcome (`Session.steps_without_rejected`).
-/
import Lox.Proofs.Parse.Relabel
import Lox.Proofs.Session.Tied

namespace Lox

open Resolve

/-! ## §1. Reading with other numbers. -/

/-- **Where the numbers start does not matter** for how a text is read. -/
theorem Source.program_add (n k : Nat) (source : String) :
    Source.program (n + k) source
      = ⟨Stmt.relabelAll (.moved k) (Source.program n source).statements,
        (Source.program n source).failures, (Source.program n source).nextId + k⟩ := by
  unfold Source.program
  dsimp only
  rw [Parse.program_add]

namespace Session

/-! ## §2. A session with more numbers used. -/

/-- **A session `s'` that has used more numbers than `s`**, and is tied to it
for the rest. -/
structure Ahead (s s' : Session) : Prop extends Tied Spelling.lawful_same s s' where
  le : s.nextId ≤ s'.nextId

theorem ahead_new (capacity : Option Nat) : Ahead (.new capacity) (.new capacity) :=
  ⟨tied_new Spelling.lawful_same capacity, Nat.le_refl _⟩

section Chunks

variable {s s' : Session} {source : String}

theorem Ahead.parsed (h : Ahead s s') (source : String) :
    s'.parsed source
      = ⟨Stmt.relabelAll (.moved (s'.nextId - s.nextId)) (s.parsed source).statements,
        (s.parsed source).failures, (s.parsed source).nextId + (s'.nextId - s.nextId)⟩ := by
  have hnextId : s'.nextId = s.nextId + (s'.nextId - s.nextId) := (Nat.add_sub_cancel' h.le).symm
  unfold Session.parsed
  rw [hnextId, Nat.add_sub_cancel_left]
  exact Source.program_add s.nextId _ source

/-- **Both sessions accept the same chunks.** -/
theorem Ahead.counterpart (h : Ahead s s') (haccepts : s'.Accepts source) :
    Counterpart .same (· + (s'.nextId - s.nextId)) s s' source source := by
  have hparsed := h.parsed source
  have hread : (s.parsed source).failures = [] := by
    have hfailures := haccepts.parsed
    rw [hparsed] at hfailures
    exact hfailures
  have hrenames : Spelling.same.RenamesStmts (· + (s'.nextId - s.nextId)) [] []
      (s.parsed source).statements (s'.parsed source).statements := by
    rw [hparsed]
    exact Spelling.renamesStmts_moved _ _
  obtain ⟨hdistances, hfailures⟩ := program_renamed Spelling.lawful_same s.machine.globalNames
    (proper_of_parsed hread) hrenames
  have hresolution : s'.resolution source
      = Resolve.program s.machine.globalNames (s'.parsed source).statements := by
    unfold Session.resolution
    rw [h.globalNames]
  refine ⟨⟨hread, ?_⟩, haccepts, hrenames, ?_, ?_, ?_, fun _ _ => Nat.add_right_cancel⟩
  · refine hfailures.mp ?_
    rw [← hresolution]
    exact haccepts.resolved
  · rw [hresolution]
    exact hdistances
  · intro id hid
    have hle := h.le
    omega
  · intro id hid
    rw [hparsed]
    exact Nat.add_lt_add_right hid _

/-- What both runs end with. -/
theorem ofEnding_eq_of_tied {T : Tie} (hT : ∀ o o', T.blames o o' → o'.name = o.name)
    {e e' : Ending} (h : EndingTied T e e') : Outcome.ofEnding e' = Outcome.ofEnding e := by
  cases h with
  | completed => rfl
  | unfinished => rfl
  | failed hd =>
    cases hd with
    | outputFull => rfl
    | runtime hfault =>
      cases hfault with
      | same => rfl
      | undefined hblames => rw [hT _ _ hblames]

/-- **A chunk that is accepted shows the same in both sessions**, and they stay
tied. -/
theorem Ahead.run_accepted (h : Ahead s s') (haccepts : s'.Accepts source) (fuel : Nat)
    (clock : Clock) :
    Ahead (s.run fuel clock source).1 (s'.run fuel clock source).1
      ∧ (s.runShowing fuel clock source).2 = (s'.runShowing fuel clock source).2 := by
  have hcounterpart := h.counterpart haccepts
  constructor
  · obtain ⟨W, sides, -, hsees, -, hstate⟩ := h.toTied.run hcounterpart clock fuel
    rw [run_eq hcounterpart.accepts, run_eq haccepts]
    refine ⟨⟨⟨W, hstate.extend (runTie_extends _ _ _ _ _ _), ?_⟩, ?_, ?_⟩, ?_⟩
    · exact ⟨hsees.lt_nextId, fun name => Spelling.same_spell _ name⟩
    · exact hcounterpart.accepts.fresh h.fresh clock
    · exact haccepts.fresh h.fresh' clock
    · show (s.parsed source).nextId ≤ (s'.parsed source).nextId
      rw [h.parsed source]
      exact Nat.le_add_right _ _
  · obtain ⟨e, e', houtcome, houtcome', hending⟩ := h.toTied.ending_run hcounterpart fuel clock
    have hsame : Outcome.ofEnding e' = Outcome.ofEnding e := by
      refine ofEnding_eq_of_tied ?_ hending
      rintro o o' ⟨hname, -⟩
      exact hname
    rw [runShowing_eq, runShowing_eq]
    dsimp only
    rw [h.toTied.outputFrom_run hcounterpart, houtcome, houtcome', hsame]

/-- A chunk that is rejected leaves the session where it was. -/
theorem Ahead.run_rejected (h : Ahead s s') (hrejected : ¬ s'.Accepts source) (fuel : Nat)
    (clock : Clock) : Ahead s (s'.run fuel clock source).1 := by
  obtain ⟨hsession, -⟩ := Session.run_rejected hrejected fuel clock
  have hle := s'.le_nextId_parsed source
  rw [hsession]
  exact ⟨h.toTied.advance hle, Nat.le_trans h.le hle⟩

end Chunks

end Session

/-! ## §3. Chunk after chunk. -/

/-- Whether a chunk was rejected before it ran. -/
def Outcome.isRejected : Outcome → Bool
  | .rejected _ => true
  | .succeeded | .failed _ | .unfinished => false

namespace Session

theorem isRejected_run (s : Session) (fuel : Nat) (clock : Clock) (source : String) :
    (s.run fuel clock source).2.isRejected ↔ ¬ s.Accepts source := by
  rw [← rejected_iff fuel clock]
  generalize (s.run fuel clock source).2 = outcome
  cases outcome with
  | rejected failures => exact iff_of_true rfl ⟨failures, rfl⟩
  | succeeded | failed | unfinished => exact iff_of_false nofun nofun

/-- A source with the steps that it may take and what the clock shows. -/
structure Chunk where
  fuel : Nat
  clock : Clock
  source : String

/-- What each chunk prints, and its outcome. -/
def steps (s : Session) : List Chunk → List (String × Outcome)
  | [] => []
  | c :: rest =>
      (s.runShowing c.fuel c.clock c.source).2 :: steps (s.run c.fuel c.clock c.source).1 rest

/-- Sources that are run all alike are chunks. -/
theorem runAll_eq_steps (fuel : Nat) (clock : Clock) (s : Session) (sources : List String) :
    s.runAll fuel clock sources = s.steps (sources.map (Chunk.mk fuel clock)) := by
  induction sources generalizing s with
  | nil => rfl
  | cons source rest ih =>
    rw [List.map_cons, runAll, steps, runShowing_eq]
    exact congrArg _ (ih _)

/-- The chunks that a session does not reject, each with what it does there. -/
def accepted (s : Session) (chunks : List Chunk) : List (Chunk × String × Outcome) :=
  (chunks.zip (s.steps chunks)).filter fun p => !p.2.2.isRejected

theorem accepted_cons (s : Session) (c : Chunk) (rest : List Chunk) :
    s.accepted (c :: rest) = if (s.run c.fuel c.clock c.source).2.isRejected
      then (s.run c.fuel c.clock c.source).1.accepted rest
      else (c, (s.runShowing c.fuel c.clock c.source).2)
        :: (s.run c.fuel c.clock c.source).1.accepted rest := by
  unfold accepted
  rw [steps, List.zip_cons_cons, List.filter_cons, runShowing_eq]
  dsimp only
  cases (s.run c.fuel c.clock c.source).2.isRejected <;> rfl

/-- **A session that is ahead shows what the session behind it shows** without
the rejected chunks. -/
theorem Ahead.steps_accepted {s s' : Session} (h : Ahead s s') (chunks : List Chunk) :
    s.steps ((s'.accepted chunks).map Prod.fst) = (s'.accepted chunks).map Prod.snd := by
  induction chunks generalizing s s' with
  | nil => rfl
  | cons c rest ih =>
    rw [accepted_cons]
    by_cases haccepts : s'.Accepts c.source
    · have houtcome := mt (isRejected_run s' c.fuel c.clock c.source).mp (not_not_intro haccepts)
      obtain ⟨hahead, hshown⟩ := h.run_accepted haccepts c.fuel c.clock
      rw [if_neg houtcome, List.map_cons, List.map_cons, steps, ih hahead, hshown]
    · rw [if_pos ((isRejected_run s' c.fuel c.clock c.source).mpr haccepts)]
      exact ih (h.run_rejected haccepts c.fuel c.clock)

/-- Nothing is shown of a session that printed nothing. -/
theorem outputFrom_printed (s : Session) : s.outputFrom s.printed = "" := by
  unfold outputFrom
  rw [ByteArray.extract_same]
  decide

/-- **Rejected chunks leave no trace.**  For all chunks that run one after the
other in a new session: without the chunks that are rejected before they run,
all others print the same and have the same outcome.  A chunk that is rejected,
in any session, prints nothing and leaves the machine as it is; only the
numbers in use may grow. -/
theorem steps_without_rejected (capacity : Option Nat) (chunks : List Chunk) :
    let s := Session.new capacity
    let kept := s.accepted chunks
    s.steps (kept.map Prod.fst) = kept.map Prod.snd
      ∧ ∀ (s : Session) (c : Chunk), (s.run c.fuel c.clock c.source).2.isRejected →
        (s.runShowing c.fuel c.clock c.source).2.1 = ""
        ∧ (s.run c.fuel c.clock c.source).1.machine = s.machine
        ∧ s.nextId ≤ (s.run c.fuel c.clock c.source).1.nextId := by
  refine ⟨(ahead_new capacity).steps_accepted chunks, ?_⟩
  intro s c hrejected
  obtain ⟨hsession, -⟩ :=
    run_rejected ((isRejected_run s c.fuel c.clock c.source).mp hrejected) c.fuel c.clock
  refine ⟨?_, by rw [hsession], ?_⟩
  · rw [runShowing_eq]
    dsimp only
    rw [hsession]
    exact s.outputFrom_printed
  · rw [hsession]
    exact s.le_nextId_parsed c.source

/-- A block that never ends, and uses up a number, stands between two chunks
that are accepted. -/
theorem steps_without_rejected_between :
    let s := Session.new none
    let bad : Chunk := ⟨100, .still 0, "\x7b print a;"⟩
    let chunks : List Chunk :=
      [⟨100, .still 0, "var a = true;"⟩, bad, ⟨100, .still 0, "print true;"⟩]
    (s.accepted chunks).length = 2
      ∧ s.steps ((s.accepted chunks).map Prod.fst) = (s.accepted chunks).map Prod.snd
      ∧ (s.run bad.fuel bad.clock bad.source).2.isRejected
      ∧ (s.runShowing bad.fuel bad.clock bad.source).2.1 = ""
      ∧ (s.run bad.fuel bad.clock bad.source).1.machine = s.machine
      ∧ s.nextId ≤ (s.run bad.fuel bad.clock bad.source).1.nextId := by
  intro s bad chunks
  have hlength : (s.accepted chunks).length = 2 := by decide +kernel
  have hrejected : (s.run bad.fuel bad.clock bad.source).2.isRejected := by decide +kernel
  obtain ⟨hsteps, htrace⟩ := steps_without_rejected none chunks
  exact ⟨hlength, hsteps, hrejected, htrace s bad hrejected⟩

end Session

end Lox
