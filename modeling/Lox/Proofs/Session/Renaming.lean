/-
  Lox.Proofs.Session.Renaming
  ───────────────────────────
  **THE NAME OF A LOCAL VARIABLE DOES NOT MATTER.**

  In the text of a program the name of a local variable or a parameter is
  written anew, where it is declared and where it is bound to this
  declaration, and nowhere else (`Source.renamed`).  The text is accepted as
  before, its names have the distances they had, and it runs as before; only
  a message that the variable is undefined has the new name, if the occurrence
  at which the run fails is written anew (`Session.run_renamed`).
-/
import Lox.Proofs.Grammar.Sides
import Lox.Proofs.Machine.Frames
import Lox.Proofs.Parse.Relabel
import Lox.Proofs.Session.Tied
import Lox.Proofs.Token.Respell

namespace Lox

open Resolve

/-! ## §1. Renamed texts. -/

/-- Tokens with their places in the text for lines. -/
def placed (ts : List Token) : List Token :=
  ts.mapIdx fun i t => { t with line := i }

namespace Source

/-- The tree of a text, with the places of its tokens for lines. -/
def placedTree (source : String) : List Stmt :=
  (Parse.program 0 (placed (Scanned.ofSource source).tokens)).statements

/-- Whether the token at place `i` is written anew to rename the variable that
`d` declares: it has the name of `d`, and its name is declared in the scope
of `d`. -/
def anew (source : String) (d : Token) (i : Nat) : Bool :=
  (Stmt.sidedAll d [] [] (placedTree source)).any fun p =>
    p.1.line == i && (p.2 && p.1.lexeme == d.lexeme)

/-- **A text in which a local variable is renamed**: the one that the token at
a place declares.  If there is none, the text stays. -/
def renamed (source : String) (place : Nat) (new : String) : String :=
  match (placed (Scanned.ofSource source).tokens)[place]? with
  | some d => respelled new (anew source d) source
  | none => source

end Source

/-! ## §2. Places. -/

section Places

variable {ts : List Token}

/-- The line of the token at a place. -/
def lineAt (ts : List Token) (i : Nat) : Nat :=
  (ts[i]?.map Token.line).getD 0

theorem map_lines_placed (ts : List Token) :
    (placed ts).map (Token.relabel (.lines (lineAt ts))) = ts := by
  refine List.ext_getElem (by simp [placed]) fun i h h' => ?_
  simp [placed, Token.relabel, Relabel.lines, Token.reline, lineAt, h']

theorem map_respelled_placed (ts : List Token) (anew : Nat → Bool) (new : String) :
    (placed ts).map (Token.relabel (.respelled (lineAt ts) anew new))
      = ts.mapIdx (Token.respelled new anew) := by
  refine List.ext_getElem (by simp [placed]) fun i h h' => ?_
  have hi : i < ts.length := by simpa using h'
  simp only [placed, Token.relabel, Relabel.respelled, Token.reline, lineAt, Token.respelled,
    List.getElem_map, List.getElem_mapIdx, List.getElem?_eq_getElem hi, Option.map_some,
    Option.getD_some]
  split <;> rfl

theorem map_line_placed (ts : List Token) : (placed ts).map Token.line = List.range ts.length := by
  refine List.ext_getElem (by simp [placed]) fun i h h' => ?_
  simp [placed]

theorem line_of_placed {i : Nat} {t : Token} (h : (placed ts)[i]? = some t) : t.line = i := by
  rw [placed, List.getElem?_mapIdx] at h
  obtain ⟨u, -, rfl⟩ := Option.map_eq_some_iff.mp h
  rfl

theorem getElem?_of_mem_placed {t : Token} (h : t ∈ placed ts) :
    ∃ u, ts[t.line]? = some u ∧ u.lexeme = t.lexeme := by
  obtain ⟨i, hi, rfl⟩ := List.mem_mapIdx.mp h
  exact ⟨ts[i], List.getElem?_eq_getElem hi, rfl⟩

/-- **What is written anew are the tokens of the variable**, since no token is
in the tree twice. -/
theorem obeys_of_carries {d : Token} {sided : List (Token × Bool)} {new : String}
    (h : Grammar.Carries (placed ts) sided) (hfresh : ∀ t ∈ ts, t.lexeme ≠ new) :
    Obeys d (fun i => sided.any fun p => p.1.line == i && (p.2 && p.1.lexeme == d.lexeme)) new
      (placed ts) sided := by
  have hnodup := h.nodup (map_line_placed ts ▸ List.nodup_range)
  intro p hp
  refine ⟨?_, ?_, h.mem hp⟩
  · rw [Bool.eq_iff_iff, List.any_eq_true]
    constructor
    · rintro ⟨q, hq, hanew⟩
      obtain ⟨hline, hmark⟩ := Bool.and_eq_true_iff.mp hanew
      rw [List.inj_on_of_nodup_map hnodup hq hp (beq_iff_eq.mp hline)] at hmark
      exact hmark
    · intro hmark
      exact ⟨p, hp, Bool.and_eq_true_iff.mpr ⟨beq_self_eq_true _, hmark⟩⟩
  · obtain ⟨u, hu, hlexeme⟩ := getElem?_of_mem_placed (h.mem hp)
    rw [← hlexeme]
    exact hfresh u (List.mem_of_getElem? hu)

end Places

/-! ## §3. Trees. -/

namespace Source

variable {source new : String} {d : Token}

/-- A text has the tree of its places, under the labels that its tokens have. -/
theorem program_placed {m : Relabel} (hm : m.Steady) (hid : m.id 0 = 0) {ts : List Token}
    {source : String} (h : (Scanned.ofSource source).tokens = (placed ts).map (Token.relabel m)) :
    program 0 source = ⟨Stmt.relabelAll m (Parse.program 0 (placed ts)).statements,
      (Scanned.ofSource source).failures
        ++ (Parse.program 0 (placed ts)).failures.map (Diagnostic.relabel m),
      m.id (Parse.program 0 (placed ts)).nextId⟩ := by
  have hread := Parse.program_relabel m hm 0 (placed ts)
  rw [hid] at hread
  unfold program
  dsimp only
  rw [h, hread, Stmt.relabelAll_eq_map]

theorem program_lines (source : String) :
    program 0 source = ⟨Stmt.relabelAll (.lines (lineAt (Scanned.ofSource source).tokens))
        (placedTree source),
      (Scanned.ofSource source).failures
        ++ (Parse.program 0 (placed (Scanned.ofSource source).tokens)).failures.map
          (Diagnostic.relabel (.lines (lineAt (Scanned.ofSource source).tokens))),
      (Parse.program 0 (placed (Scanned.ofSource source).tokens)).nextId⟩ :=
  program_placed (Relabel.steady_lines _) rfl (map_lines_placed _).symm

/-- A text that is read without failures is read so with places for lines. -/
theorem failures_placed (h : (program 0 source).failures = []) :
    (Scanned.ofSource source).failures = []
      ∧ (Parse.program 0 (placed (Scanned.ofSource source).tokens)).failures = [] := by
  rw [program_lines] at h
  obtain ⟨hscan, hread⟩ := List.append_eq_nil_iff.mp h
  exact ⟨hscan, List.map_eq_nil_iff.mp hread⟩

/-- The tokens of the tree are tokens of the text. -/
theorem carries (h : (program 0 source).failures = []) :
    Grammar.Carries (placed (Scanned.ofSource source).tokens)
      (Stmt.sidedAll d [] [] (placedTree source)) := by
  obtain ⟨ts, eof, htokens, heof, hts, -⟩ := tokens_of_source source
  have hplaced : placed (Scanned.ofSource source).tokens
      = placed ts ++ [{ eof with line := ts.length }] := by
    rw [htokens, placed, List.mapIdx_concat]
    rfl
  have hkinds : ∀ t ∈ placed ts, t.kind ≠ .eof := by
    intro t ht
    obtain ⟨i, hi, rfl⟩ := List.mem_mapIdx.mp ht
    exact hts ts[i] (List.getElem_mem hi)
  have hfailures := (failures_placed h).2
  have heof' : Token.kind { eof with line := ts.length } = .eof := heof
  unfold placedTree
  rw [hplaced] at hfailures ⊢
  exact (Grammar.derives_program heof' hkinds hfailures).carries [] []

/-- Only tokens with the name of the variable are written anew. -/
theorem lexeme_of_anew (h : (program 0 source).failures = []) {i : Nat} {t : Token}
    (ht : (Scanned.ofSource source).tokens[i]? = some t) (hi : anew source d i) :
    t.lexeme = d.lexeme := by
  obtain ⟨p, hp, hmark⟩ := List.any_eq_true.mp hi
  obtain ⟨hline, hmark⟩ := Bool.and_eq_true_iff.mp hmark
  obtain ⟨u, hu, hlexeme⟩ := getElem?_of_mem_placed ((carries h).mem hp)
  rw [beq_iff_eq.mp hline, ht] at hu
  cases hu
  rw [hlexeme]
  exact beq_iff_eq.mp (Bool.and_eq_true_iff.mp hmark).2

/-- The tokens of a text in which a variable is renamed. -/
theorem tokens_respelled (h : (program 0 source).failures = []) (hold : IsIdentifier d.lexeme)
    (hnew : IsIdentifier new) :
    (Scanned.ofSource (respelled new (anew source d) source)).tokens
        = (placed (Scanned.ofSource source).tokens).map (Token.relabel
          (.respelled (lineAt (Scanned.ofSource source).tokens) (anew source d) new))
      ∧ (Scanned.ofSource (respelled new (anew source d) source)).failures = [] := by
  obtain ⟨htokens, hfailures⟩ := ofSource_respelled hold hnew fun k t => lexeme_of_anew h
  rw [map_respelled_placed, htokens, hfailures]
  exact ⟨rfl, (failures_placed h).1⟩

/-- The tree of a text in which a variable is renamed. -/
theorem program_respelled (h : (program 0 source).failures = []) (hold : IsIdentifier d.lexeme)
    (hnew : IsIdentifier new) :
    program 0 (respelled new (anew source d) source)
      = ⟨Stmt.relabelAll (.respelled (lineAt (Scanned.ofSource source).tokens) (anew source d) new)
          (placedTree source), [], (program 0 source).nextId⟩ := by
  obtain ⟨htokens, hfailures⟩ := tokens_respelled h hold hnew
  have hsteady : (Relabel.respelled (lineAt (Scanned.ofSource source).tokens) (anew source d)
      new).Steady := fun _ => rfl
  rw [program_placed hsteady rfl htokens, hfailures, (failures_placed h).2, program_lines]
  rfl

/-- The renaming of the variable that `d` declares. -/
def spelling (source : String) (d : Token) (new : String) : Spelling :=
  respelling d (lineAt (Scanned.ofSource source).tokens) (anew source d) new
    (placed (Scanned.ofSource source).tokens) (Stmt.occurrencesAll (placedTree source))

/-- **An occurrence stands at a place of a text**: its token is the one there,
and the tree of places has it there. -/
structure Stands (source : String) (i : Nat) (o : Occurrence) : Prop where
  token : (Scanned.ofSource source).tokens[i]? = some o.name
  occurs : ⟨o.id, { o.name with line := i }⟩ ∈ Stmt.occurrencesAll (placedTree source)

/-- **Occurrences of two texts at one place**, with one number. -/
structure Corresponds (source source' : String) (i : Nat) (o o' : Occurrence) : Prop where
  stands : Stands source i o
  id : o'.id = o.id
  token : (Scanned.ofSource source').tokens[i]? = some o'.name

/-- A text and its renaming have an occurrence at the same place. -/
theorem corresponds_of_pairs (h : (program 0 source).failures = []) (hold : IsIdentifier d.lexeme)
    (hnew : IsIdentifier new) {o o' : Occurrence} (hpair : (spelling source d new).pairs o o') :
    ∃ i, Corresponds source (respelled new (anew source d) source) i o o' := by
  obtain ⟨q, hq, hname, rfl, rfl⟩ := hpair
  obtain ⟨i, hi⟩ := List.mem_iff_getElem?.mp hname
  have hline : q.name.line = i := line_of_placed hi
  refine ⟨i, ⟨?_, ?_⟩, rfl, ?_⟩
  · have hget := congrArg (·[i]?) (map_lines_placed (Scanned.ofSource source).tokens)
    rw [← hget, List.getElem?_map, hi]
    rfl
  · rw [← hline]
    exact hq
  · rw [(tokens_respelled h hold hnew).1, List.getElem?_map, hi]
    rfl

end Source

/-! ## §4. Runs. -/

theorem IsIdentifier.ordinary {name : String} (h : IsIdentifier name) : Ordinary name := by
  have hkind := h.2.2
  refine ⟨?_, ?_⟩
  · rintro rfl
    cases hkind
  · rintro rfl
    cases hkind

/-- Once a program has failed at an occurrence, no later step is at one. -/
theorem Config.Misses.not_later {g : Setting} {c : Config} {m n : Nat} (hmn : m < n)
    {o o' : Occurrence} (h : (c.run g m).Misses g o) : ¬ (c.run g n).Misses g o' := by
  intro h'
  obtain ⟨k, rfl⟩ := Nat.exists_eq_add_of_le hmn
  have hraises := h.raises
  have hnamed := h'.named
  rw [run_add, run_last] at hnamed
  generalize (c.run g m).step g = failed at hraises hnamed
  obtain ⟨control, frames, s⟩ := failed
  obtain rfl : control = _ := hraises
  obtain ⟨scope, depth, hrun⟩ := run_raising g _ frames s k
  rw [hrun] at hnamed
  cases hnamed

namespace Session

variable {source source' new : String} {old : String} {d : Token}

/-- **A run fails at one occurrence** at most. -/
theorem MissesAt.unique {s : Session} {clock : Clock} {m n : Nat} {o o' : Occurrence}
    (h : s.MissesAt clock source m o) (h' : s.MissesAt clock source n o') : m = n ∧ o = o' := by
  rcases Nat.lt_trichotomy m n with hlt | rfl | hlt
  · exact absurd h' (Config.Misses.not_later hlt h)
  · exact ⟨rfl, Option.some.inj (h.named.symm.trans h'.named)⟩
  · exact absurd h (Config.Misses.not_later hlt h')

/-- **The outcomes of a text and of its renaming** are the same, unless a
variable with the old name is undefined.  Then both runs fail at the same step
and at the same occurrence, and each names the variable as its text spells the
token at the place of this occurrence. -/
inductive RenamedOutcome (s : Session) (fuel : Nat) (clock : Clock) (old source source' : String) :
    Outcome → Outcome → Prop
  | same {outcome : Outcome}
      (h : ∀ line, outcome ≠ .failed (.runtime line (.undefinedVariable old))) :
      RenamedOutcome s fuel clock old source source' outcome outcome
  | undefined {i m : Nat} {o o' : Occurrence} (hm : m < fuel) (h : Source.Stands source i o)
      (h' : (Scanned.ofSource source').tokens[i]? = some o'.name) (hid : o'.id = o.id)
      (hmisses : s.MissesAt clock source m o) (hmisses' : s.MissesAt clock source' m o') :
      RenamedOutcome s fuel clock old source source'
        (.failed (.runtime o.name.line (.undefinedVariable o.name.lexeme)))
        (.failed (.runtime o.name.line (.undefinedVariable o'.name.lexeme)))

/-- What the runs of a text and of its renaming end with. -/
theorem renamedOutcome_of_tied {S : Spelling} {hS : S.Lawful} {s : Session} {fuel : Nat}
    {clock : Clock} (hold : Ordinary old)
    (hpairs : ∀ o o', S.pairs o o' → ∃ i, Source.Corresponds source source' i o o')
    {e e' : Ending} (h : EndingTied (runTie hS s s source source' clock fuel) e e') :
    s.RenamedOutcome fuel clock old source source' (.ofEnding e) (.ofEnding e') := by
  cases h with
  | completed => exact .same nofun
  | unfinished => exact .same nofun
  | failed hd =>
    cases hd with
    | outputFull => exact .same nofun
    | runtime hfault =>
      cases hfault with
      | same hnameless =>
        refine .same fun line heq => ?_
        cases heq
        exact hnameless old hold rfl
      | undefined hblames hline =>
        obtain ⟨hpair, m, hm, hmisses, hmisses'⟩ := hblames
        obtain ⟨i, hplace⟩ := hpairs _ _ hpair
        subst hline
        exact .undefined hm hplace.stands hplace.token hplace.id hmisses hmisses'

/-- **A text in which a variable is renamed is accepted**, and has the distances
of the text. -/
theorem Accepts.renamed {capacity : Option Nat} (h : (Session.new capacity).Accepts source)
    (hold : IsIdentifier d.lexeme) (hnew : IsIdentifier new)
    (hfresh : ∀ t ∈ (Scanned.ofSource source).tokens, t.lexeme ≠ new) :
    Counterpart (Source.spelling source d new) id (.new capacity) (.new capacity) source
      (Source.respelled new (Source.anew source d) source) := by
  have hparsed := Source.program_lines source
  have hparsed' := Source.program_respelled h.parsed hold hnew
  have htree : (Source.spelling source d new).RenamesStmts id [] []
      ((Session.new capacity).parsed source).statements
      ((Session.new capacity).parsed
        (Source.respelled new (Source.anew source d) source)).statements := by
    have hbound := h.bound (kept_new capacity)
    have hstatements := congrArg Parse.Program.statements hparsed
    have hstatements' := congrArg Parse.Program.statements hparsed'
    change ((Session.new capacity).parsed _).statements = _ at hstatements hstatements'
    rw [hstatements']
    rw [hstatements] at hbound ⊢
    exact renamesStmts_sided _ hbound (fun s _ hside => nomatch hside)
      (obeys_of_carries (Source.carries h.parsed) hfresh) (List.Subset.refl _)
  have hS : (Source.spelling source d new).Lawful :=
    Spelling.lawful_rename hold.ordinary hnew.ordinary _
  obtain ⟨hdistances, hfailures⟩ :=
    program_renamed hS (Session.new capacity).machine.globalNames h.proper htree
  have haccepts' : (Session.new capacity).Accepts
      (Source.respelled new (Source.anew source d) source) :=
    ⟨congrArg Parse.Program.failures hparsed', hfailures.mpr h.resolved⟩
  refine ⟨h, haccepts', htree, hdistances, fun _ hid => hid, ?_, fun _ _ heq => heq⟩
  intro id hid
  have hnextId := congrArg Parse.Program.nextId hparsed'
  exact Nat.lt_of_lt_of_eq hid hnextId.symm

/-- A source and its renaming show the same, up to the name. -/
theorem Tied.runShowing_renamed {S : Spelling} {hS : S.Lawful} {s : Session} (h : Tied hS s s)
    (hcounterpart : Counterpart S id s s source source') (hold : Ordinary old)
    (hpairs : ∀ o o', S.pairs o o' → ∃ i, Source.Corresponds source source' i o o') (fuel : Nat)
    (clock : Clock) :
    (s.runShowing fuel clock source').2.1 = (s.runShowing fuel clock source).2.1
      ∧ s.RenamedOutcome fuel clock old source source' (s.runShowing fuel clock source).2.2
        (s.runShowing fuel clock source').2.2 := by
  rw [runShowing_eq, runShowing_eq]
  dsimp only
  refine ⟨h.outputFrom_run hcounterpart fuel clock, ?_⟩
  obtain ⟨e, e', houtcome, houtcome', hending⟩ := h.ending_run hcounterpart fuel clock
  rw [houtcome, houtcome']
  exact renamedOutcome_of_tied hold hpairs hending

/-- **The name of a local variable does not matter.**  A program is accepted,
one of its identifiers declares a local variable or a parameter, and no token
has the new name.  The text in which this variable is renamed is accepted as
well, has the same distances, prints the same and has the same outcome, but
that a message that the variable is undefined has the new name. -/
theorem run_renamed (capacity : Option Nat) {source new : String} {place : Nat} {name : Token}
    (haccepts : (Session.new capacity).Accepts source)
    (hname : (Scanned.ofSource source).tokens[place]? = some name)
    (hidentifier : name.kind = .identifier) (hnew : IsIdentifier new)
    (hfresh : ∀ t ∈ (Scanned.ofSource source).tokens, t.lexeme ≠ new) :
    let s := Session.new capacity
    let source' := Source.renamed source place new
    s.Accepts source' ∧ (s.resolution source').distances = (s.resolution source).distances
      ∧ ∀ fuel clock, (s.runShowing fuel clock source').2.1 = (s.runShowing fuel clock source).2.1
        ∧ s.RenamedOutcome fuel clock name.lexeme source source'
          (s.runShowing fuel clock source).2.2 (s.runShowing fuel clock source').2.2 := by
  intro s source'
  let d : Token := { name with line := place }
  have hold : IsIdentifier d.lexeme :=
    (kind_eq_identifier_iff (List.mem_of_getElem? hname)).mp hidentifier
  have hrenamed : source' = Source.respelled new (Source.anew source d) source := by
    show Source.renamed source place new = _
    unfold Source.renamed placed
    rw [List.getElem?_mapIdx, hname]
    rfl
  have hcounterpart : Counterpart (Source.spelling source d new) id s s source source' := by
    rw [hrenamed]
    exact haccepts.renamed hold hnew hfresh
  have hS : (Source.spelling source d new).Lawful :=
    Spelling.lawful_rename hold.ordinary hnew.ordinary _
  refine ⟨hcounterpart.accepts', hcounterpart.distances.trans (List.map_id _), ?_⟩
  refine (tied_new hS capacity).runShowing_renamed hcounterpart hold.ordinary ?_
  rw [hrenamed]
  exact fun o o' => Source.corresponds_of_pairs haccepts.parsed hold hnew

/-- The inner one of two variables of the same name is renamed.  It is assigned
to in its own initializer, and is undefined there. -/
theorem run_renamed_shadowed :
    let s := Session.new none
    let source := "\x7b var a; \x7b var a = (a = true); \x7d \x7d"
    let source' := "\x7b var a; \x7b var b = (b = true); \x7d \x7d"
    Source.renamed source 6 "b" = source'
      ∧ s.Accepts source' ∧ (s.resolution source').distances = (s.resolution source).distances
      ∧ ∀ fuel clock, (s.runShowing fuel clock source').2.1 = (s.runShowing fuel clock source).2.1
        ∧ s.RenamedOutcome fuel clock "a" source source' (s.runShowing fuel clock source).2.2
          (s.runShowing fuel clock source').2.2 := by
  intro s source source'
  have hrenamed : Source.renamed source 6 "b" = source' := by decide +kernel
  have haccepts : s.Accepts source := ⟨by decide +kernel, by decide +kernel⟩
  have hname : (Scanned.ofSource source).tokens[6]? = some ⟨.identifier, "a", 1⟩ := by
    decide +kernel
  have hfresh : ∀ t ∈ (Scanned.ofSource source).tokens, t.lexeme ≠ "b" := by decide +kernel
  have hrun := run_renamed none haccepts hname rfl (by decide +kernel) hfresh
  rw [hrenamed] at hrun
  exact ⟨hrenamed, hrun⟩

end Session

end Lox
