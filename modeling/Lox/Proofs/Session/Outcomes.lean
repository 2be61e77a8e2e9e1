/-
  Lox.Proofs.Session.Outcomes
  ───────────────────────────
  **EVERY FAILURE BELONGS TO ITS STAGE.**

  A chunk goes through four stages: it is scanned, read, resolved and run.  Each stage
  reports failures of its own kind and of no other, and what fails in one stage does not
  reach the next, but for a text with lexical failures, which is read all the same.  So
  the failures of a rejected chunk are lexical ones and then those of the grammar, or
  they are all violations of the static rules; and what fails later fails as running
  programs do.

  Main results:
    * `stage_scanned`, `stage_read`, `stage_resolved`: what each of the first stages
      reports.
    * `Session.isStatic_of_failed`: what the last one fails with is not static.
    * `Session.run_classified`: when a chunk is rejected, and with what it is rejected or
      fails.
-/
import Lox.Proofs.Machine.Faults
import Lox.Proofs.Parse.Ledger
import Lox.Proofs.Resolve.Violations
import Lox.Proofs.Session.Kept

namespace Lox

/-! ## §1. Stages. -/

/-- The stages that a chunk goes through, in order. -/
inductive Stage where
  | scanning
  | reading
  | resolving
  | running
  deriving DecidableEq

/-- The stage that a failure belongs to. -/
def Diagnostic.stage : Diagnostic → Stage
  | lexical .. => .scanning
  | syntactic .. => .reading
  | scoping .. => .resolving
  | runtime .. | outputFull => .running

/-- Static failures are those of the stages before a chunk runs. -/
theorem Diagnostic.isStatic_iff {d : Diagnostic} : d.isStatic ↔ d.stage ≠ .running := by
  cases d <;> simp [isStatic, stage]

/-- The failures of pieces are lexical. -/
theorem stage_of_item {line : Nat} {ps : List Piece} {d : Diagnostic}
    (h : .failure d ∈ itemsOf line ps) : d.stage = .scanning := by
  induction ps generalizing line with
  | nil => cases h
  | cons p ps ih =>
    rcases List.mem_append.mp h with h | h
    · cases p with
      | token | blank | comment => simp [Piece.item?] at h
      | stray | unterminated =>
        simp only [Piece.item?, Option.toList_some, List.mem_singleton, Item.failure.injEq] at h
        rw [h]
        rfl
    · exact ih h

/-- **Scanning** reports lexical failures. -/
theorem stage_scanned {source : String} {d : Diagnostic}
    (h : d ∈ (Scanned.ofSource source).failures) : d.stage = .scanning := by
  rw [ofSource_failures, Item.mem_filterMap_failure] at h
  exact stage_of_item h

/-- **Reading** reports failures of the grammar. -/
theorem stage_read {firstId : Nat} {tokens : List Token} {d : Diagnostic}
    (h : d ∈ (Parse.program firstId tokens).failures) : d.stage = .reading := by
  obtain ⟨offender, fault, rfl⟩ := Parse.program_failures_syntactic firstId tokens d h
  rfl

/-- **Resolving** reports violations of the static rules. -/
theorem stage_resolved {globals : List String} {statements : List Stmt} {d : Diagnostic}
    (h : d ∈ (Resolve.program globals statements).failures) : d.stage = .resolving := by
  rw [Resolve.program_failures] at h
  obtain ⟨site, -, hsite⟩ := List.mem_filterMap.mp h
  obtain ⟨fault, -, rfl⟩ := Option.map_eq_some_iff.mp hsite
  rfl

/-! ## §2. Rejected chunks. -/

/-- **What a chunk is rejected with**: some static failures, all of them from the analysis
of names or none, and the lexical ones before those of the grammar. -/
structure Rejects (failures : List Diagnostic) : Prop where
  ne_nil : failures ≠ []
  static : ∀ d ∈ failures, d.isStatic
  unmixed : (∀ d ∈ failures, d.stage = .resolving) ∨ ∀ d ∈ failures, d.stage ≠ .resolving
  ordered : failures.Pairwise fun d d' => d.stage = .reading → d'.stage ≠ .scanning

/-- Lexical failures, and then those of the grammar. -/
theorem rejects_of_front {lexical syntactic : List Diagnostic}
    (hlexical : ∀ d ∈ lexical, d.stage = .scanning)
    (hsyntactic : ∀ d ∈ syntactic, d.stage = .reading) (hne : lexical ++ syntactic ≠ []) :
    Rejects (lexical ++ syntactic) := by
  have hstage : ∀ d ∈ lexical ++ syntactic, d.stage = .scanning ∨ d.stage = .reading := by
    intro d hd
    rcases List.mem_append.mp hd with hd | hd
    · exact .inl (hlexical d hd)
    · exact .inr (hsyntactic d hd)
  refine ⟨hne, ?_, .inr ?_, ?_⟩
  · intro d hd
    rw [Diagnostic.isStatic_iff]
    rcases hstage d hd with h | h <;> simp [h]
  · intro d hd
    rcases hstage d hd with h | h <;> simp [h]
  · rw [List.pairwise_append]
    refine ⟨?_, ?_, ?_⟩
    · refine List.pairwise_of_forall_mem_list ?_
      intro d hd d' _ hreading
      rw [hlexical d hd] at hreading
      cases hreading
    · refine List.pairwise_of_forall_mem_list ?_
      intro d _ d' hd' _
      simp [hsyntactic d' hd']
    · intro d _ d' hd' _
      simp [hsyntactic d' hd']

/-- Violations of the static rules, and nothing else. -/
theorem rejects_of_resolving {failures : List Diagnostic}
    (h : ∀ d ∈ failures, d.stage = .resolving) (hne : failures ≠ []) : Rejects failures := by
  refine ⟨hne, ?_, .inl h, List.pairwise_of_forall_mem_list ?_⟩
  · intro d hd
    rw [Diagnostic.isStatic_iff, h d hd]
    decide
  · intro d hd d' _ hreading
    rw [h d hd] at hreading
    cases hreading

namespace Session

variable {s : Session} {source : String}

/-- What cannot be read is not resolved. -/
theorem outcome_of_unread (h : (s.parsed source).failures ≠ []) (fuel : Nat) (clock : Clock) :
    (s.run fuel clock source).2 = .rejected (s.parsed source).failures := by
  have hfailures : (!(Source.program s.nextId source).failures.isEmpty) = true := by
    simpa [parsed] using h
  unfold run chunk
  dsimp only
  rw [if_pos hfailures]
  rfl

/-- What violates the static rules is not run. -/
theorem outcome_of_unresolved (h : (s.parsed source).failures = [])
    (h' : (s.resolution source).failures ≠ []) (fuel : Nat) (clock : Clock) :
    (s.run fuel clock source).2 = .rejected (s.resolution source).failures := by
  have hparsed : (Source.program s.nextId source).failures = [] := h
  have hresolution : (!(Resolve.program s.machine.globalNames
      (Source.program s.nextId source).statements).failures.isEmpty) = true := by
    simpa [resolution, parsed] using h'
  unfold run chunk
  dsimp only
  rw [hparsed, if_pos hresolution]
  rfl

/-- A rejected chunk is rejected with what reading it reports, or else with what resolving
it does. -/
theorem failures_of_rejected {fuel : Nat} {clock : Clock} {failures : List Diagnostic}
    (h : (s.run fuel clock source).2 = .rejected failures) :
    failures ≠ [] ∧ (failures = (s.parsed source).failures
      ∨ failures = (s.resolution source).failures) := by
  by_cases hread : (s.parsed source).failures = []
  · have hresolved : (s.resolution source).failures ≠ [] := fun hresolved =>
      (rejected_iff fuel clock).mp ⟨failures, h⟩ ⟨hread, hresolved⟩
    rw [outcome_of_unresolved hread hresolved] at h
    cases h
    exact ⟨hresolved, .inr rfl⟩
  · rw [outcome_of_unread hread] at h
    cases h
    exact ⟨hread, .inl rfl⟩

/-- A chunk that is run fails as running programs do. -/
theorem isStatic_of_failed {fuel : Nat} {clock : Clock} {d : Diagnostic}
    (h : (s.run fuel clock source).2 = .failed d) : d.isStatic = false := by
  by_cases haccepts : s.Accepts source
  · rw [run_eq haccepts] at h
    dsimp only at h
    generalize hending : Config.ending _ = ending at h
    cases ending with
    | completed | unfinished => cases h
    | failed d' =>
      cases h
      exact Config.isStatic_of_execAll hending
  · obtain ⟨failures, hrejected⟩ := (rejected_iff fuel clock).mpr haccepts
    rw [hrejected] at h
    cases h

/-- **Outcomes are told by their stages.**  A chunk is rejected if and only if scanning or
reading it reports a failure, or both are clean and resolving reports one; it is rejected
with what these report, which is some static failures, lexical ones before those of the
grammar and none of these beside violations of the static rules.  A chunk that fails when
it runs fails with a runtime fault or because the output takes no more. -/
theorem run_classified (s : Session) (fuel : Nat) (clock : Clock) (source : String) :
    let scanned := Scanned.ofSource source
    let read := Parse.program s.nextId scanned.tokens
    let resolved := Resolve.program s.machine.globalNames read.statements
    let outcome := (s.run fuel clock source).2
    ((∃ failures, outcome = .rejected failures)
        ↔ scanned.failures ≠ [] ∨ read.failures ≠ []
          ∨ scanned.failures = [] ∧ read.failures = [] ∧ resolved.failures ≠ [])
      ∧ (∀ failures, outcome = .rejected failures → Rejects failures
        ∧ (failures = scanned.failures ++ read.failures ∨ failures = resolved.failures))
      ∧ ∀ d, outcome = .failed d →
        ((∃ line fault, d = .runtime line fault) ∨ d = .outputFull) ∧ d.isStatic = false := by
  intro scanned read resolved outcome
  refine ⟨?_, ?_, ?_⟩
  · have haccepts : s.Accepts source
        ↔ scanned.failures ++ read.failures = [] ∧ resolved.failures = [] :=
      ⟨fun h => ⟨h.parsed, h.resolved⟩, fun h => ⟨h.1, h.2⟩⟩
    rw [rejected_iff, haccepts, List.append_eq_nil_iff]
    tauto
  · intro failures hrejected
    obtain ⟨hne, rfl | rfl⟩ := failures_of_rejected hrejected
    · exact ⟨rejects_of_front (fun _ => stage_scanned) (fun _ => stage_read) hne, .inl rfl⟩
    · exact ⟨rejects_of_resolving (fun _ => stage_resolved) hne, .inr rfl⟩
  · intro d hfailed
    have hdynamic := isStatic_of_failed hfailed
    exact ⟨Diagnostic.isStatic_eq_false_iff.mp hdynamic, hdynamic⟩

/-- The order is that of the stages, not that of the text. -/
example : ((Session.new none).run 0 (.still 0) "print ;\n@").2.failures
    = [.lexical 2 (.unexpected '@'), .syntactic ⟨.semicolon, ";", 1⟩ .expression] := by
  decide +kernel

end Session

end Lox
