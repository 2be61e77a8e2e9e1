/-
  Lox.Proofs.Session.Globals
  ──────────────────────────
  **A GLOBAL INITIALIZER FINDS ITS OWN NAME.**

  `var x = e` at the top level may read `x` in `e` if `x` is a global already:
  the analysis admits it if the session had a global `x` when the chunk began,
  or if an earlier statement of the chunk declares `x`.  What the analysis
  takes for declared is bound when the program gets there, since a program is
  in one statement at a time: code of a later statement comes up only after all
  earlier ones have been completed.  That this is so is told by the numbers of
  the occurrences.  A program meets no number of a statement to come, neither
  in what it does nor in the functions in store, some of which are left from
  chunks that have failed.

  Main result: `Session.global_initializer_bound`.
-/
import Lox.Proofs.Machine.Phases
import Lox.Proofs.Resolve.Violations
import Lox.Proofs.Session.Depth
import Lox.Proofs.Session.Supers
import Mathlib.Logic.Relation

namespace Lox

open Lockstep Resolve

/-! ## §1. What the analysis admits. -/

/-- An occurrence is read directly in an expression. -/
def Expr.Reads (e : Expr) (o : Occurrence) : Prop :=
  Relation.ReflTransGen Code.Part (.expr e) (.expr (.variable o))

/-- The parts of an expression are expressions. -/
theorem Code.Part.exists_expr {e : Expr} {part : Code} (h : Code.Part (.expr e) part) :
    ∃ e', part = .expr e' := by
  cases h <;> exact ⟨_, rfl⟩

/-- What holds of an expression and passes to its parts holds of what it
reads. -/
theorem Expr.Reads.induct {P : Expr → Prop} {e : Expr} {o : Occurrence} (h : e.Reads o)
    (hpart : ∀ {e e'}, Code.Part (.expr e) (.expr e') → P e → P e') (he : P e) :
    P (.variable o) := by
  have hreach : ∀ {c : Code}, Relation.ReflTransGen Code.Part (.expr e) c →
      ∃ e', c = .expr e' ∧ P e' := by
    intro c hc
    induction hc with
    | refl => exact ⟨e, rfl, he⟩
    | tail _ hlast ih =>
      obtain ⟨e₁, rfl, he₁⟩ := ih
      obtain ⟨e₂, rfl⟩ := hlast.exists_expr
      exact ⟨e₂, rfl, hpart hlast he₁⟩
  obtain ⟨e', heq, he'⟩ := hreach h
  cases heq
  exact he'

theorem Expr.sites_subset_of_mem {role : ClassRole} {ground : Ground} {initialized : Option String}
    {es : List Expr} {e : Expr} (h : e ∈ es) :
    e.sites role ground initialized ⊆ sitesAll role ground initialized es := by
  induction es with
  | nil => cases h
  | cons e' es ih =>
    rcases List.mem_cons.mp h with rfl | h
    · exact List.subset_append_left _ _
    · exact List.subset_append_of_subset_right _ (ih h)

/-- The sites of a part are sites of the whole. -/
theorem Expr.sites_subset_of_part {role : ClassRole} {ground : Ground}
    {initialized : Option String} {e e' : Expr} (h : Code.Part (.expr e) (.expr e')) :
    e'.sites role ground initialized ⊆ e.sites role ground initialized := by
  cases h with
  | unary | grouping | getObject | assigned => exact List.Subset.refl _
  | binaryLeft | logicalLeft | callee | setValue => exact List.subset_append_left _ _
  | binaryRight | logicalRight | setObject => exact List.subset_append_right _ _
  | argument he => exact List.subset_append_of_subset_right _ (sites_subset_of_mem he)

theorem Stmt.sitesAll_append (around : Surroundings) (ground : Ground) (ss ss' : List Stmt) :
    sitesAll around ground (ss ++ ss')
      = sitesAll around ground ss
        ++ sitesAll around (ground.declaring (ss.flatMap Stmt.names)) ss' := by
  induction ss generalizing ground with
  | nil =>
    rw [List.flatMap_nil, Ground.declaring_nil]
    rfl
  | cons s ss ih =>
    rw [List.cons_append, sitesAll, sitesAll, ih, List.flatMap_cons, Ground.declaring_append,
      List.append_assoc]

theorem Stmt.declared_of_mem_names {s : Stmt} (hp : s.Proper) {name : String} (h : name ∈ s.names) :
    ∃ t, s.declared? = some t ∧ t.lexeme = name := by
  cases hd : s.declared? with
  | none =>
    rw [names_eq_nil s hp hd] at h
    cases h
  | some t =>
    refine ⟨t, rfl, ?_⟩
    cases s with
    | var | function | «class» =>
      cases hd
      exact (List.mem_singleton.mp h).symm
    | _ => cases hd

/-- **A name that its own initializer reads at the top level** is among the
first globals or is declared before. -/
theorem Resolve.earlier_of_reads {globals : List String} {before later : List Stmt} {name : Token}
    {e : Expr} {o : Occurrence} (hp : Stmt.ProperAll before)
    (hresolved : (program globals (before ++ .var name (some e) :: later)).failures = [])
    (hreads : e.Reads o) (hname : o.name.lexeme = name.lexeme) :
    name.lexeme ∈ globals
      ∨ ∃ st ∈ before, ∃ t, st.declared? = some t ∧ t.lexeme = name.lexeme := by
  let ground : Ground := Ground.declaring ⟨false, globals⟩ (before.flatMap Stmt.names)
  let site : Site := .reading o.name ground (some name.lexeme)
  have hinner : site ∈ e.sites .none ground (some name.lexeme) := by
    have hread : site ∈ (Expr.variable o).sites .none ground (some name.lexeme) :=
      List.mem_singleton.mpr rfl
    refine hreads.induct (P := fun e' => ∀ site ∈ e'.sites .none ground (some name.lexeme),
      site ∈ e.sites .none ground (some name.lexeme)) ?_ (fun _ hsite => hsite) site hread
    exact fun hpart hwhole site hsite => hwhole site (Expr.sites_subset_of_part hpart hsite)
  have hsite : site ∈ sites globals (before ++ .var name (some e) :: later) := by
    unfold sites
    rw [Stmt.sitesAll_append]
    refine List.mem_append_right _ (List.mem_append_left _ ?_)
    exact List.mem_cons_of_mem _ hinner
  have hfault : site.fault? = none := by
    rw [program_failures] at hresolved
    have hnone := List.filterMap_eq_nil_iff.mp hresolved site hsite
    exact Option.map_eq_none_iff.mp hnone
  have hearlier : name.lexeme ∈ ground.earlier := by
    by_contra hnot
    have hviolated : some name.lexeme = some o.name.lexeme ∧ o.name.lexeme ∉ ground.earlier := by
      rw [hname]
      exact ⟨rfl, hnot⟩
    rw [Site.fault?, if_pos hviolated] at hfault
    cases hfault
  rcases List.mem_append.mp hearlier with hglobal | hdeclared
  · exact .inl hglobal
  · obtain ⟨st, hst, hmem⟩ := List.mem_flatMap.mp hdeclared
    exact .inr ⟨st, hst, Stmt.declared_of_mem_names (hp.mem hst) hmem⟩

/-! ## §2. Where an occurrence comes up. -/

/-- Of what two statements of a source hold, the numbers are different. -/
theorem Stmt.prefix_of_number {before later before' later' : List Stmt} {st st' : Stmt}
    (heq : before ++ st :: later = before' ++ st' :: later')
    (hnodup : ((occurrencesAll (before ++ st :: later)).map Occurrence.id).Nodup)
    {o o' : Occurrence} (ho : o ∈ st.occurrences) (ho' : o' ∈ occurrencesAll (before' ++ [st']))
    (hid : o'.id = o.id) : before <+: before' := by
  by_cases hlength : before.length ≤ before'.length
  · have hprefix : before' <+: before ++ st :: later := ⟨st' :: later', heq.symm⟩
    exact List.prefix_of_prefix_length_le (List.prefix_append _ _) hprefix hlength
  · -- the later statement would share a number with an earlier one
    exfalso
    have hearlier : before' ++ [st'] <+: before := by
      have hwhole : before' ++ [st'] <+: before ++ st :: later := by
        rw [heq]
        exact ⟨later', List.append_assoc _ _ _⟩
      refine List.prefix_of_prefix_length_le hwhole (List.prefix_append _ _) ?_
      rw [List.length_append, List.length_singleton]
      omega
    obtain ⟨more, rfl⟩ := hearlier
    rw [occurrencesAll_append, occurrencesAll, List.map_append, List.nodup_append] at hnodup
    obtain ⟨-, -, hdisjoint⟩ := hnodup
    refine hdisjoint o'.id (List.mem_map_of_mem ?_) o.id (List.mem_map_of_mem ?_) hid
    · rw [occurrencesAll_append]
      exact List.mem_append_left _ ho'
    · exact List.mem_append_left _ ho

theorem Expr.Reads.mem_occurrences {e : Expr} {o : Occurrence} (h : e.Reads o) :
    o ∈ e.occurrences := by
  refine h.induct (P := fun e' => e'.occurrences ⊆ e.occurrences) ?_ (List.Subset.refl _)
    (List.mem_singleton.mpr rfl)
  exact fun hpart hwhole o ho => hwhole (hpart.occurrences_subset ho)

namespace Resolve

variable {T : Chart}

theorem BoundStmts.mem_top {i : Bool} {ss : List Stmt} (h : BoundStmts T i [] ss) {st : Stmt}
    (hst : st ∈ ss) : BoundStmt T i [] st := by
  induction ss with
  | nil => cases hst
  | cons st' ss ih =>
    have hnil : Scopes.after [] st' = [] := List.isEmpty_iff.mp (isEmpty_after [] st')
    obtain ⟨hfirst, hrest⟩ := h
    rw [hnil] at hrest
    rcases List.mem_cons.mp hst with rfl | hst
    · exact hfirst
    · exact ih hrest hst

/-- What an initializer at the top level reads has no distance. -/
theorem distance_of_reads {i : Bool} {name : Token} {e : Expr} {o : Occurrence}
    (h : BoundStmt T i [] (.var name (some e))) (hreads : e.Reads o) : T.distance o.id = none := by
  have hread : BoundExpr T [] (.variable o) := by
    refine hreads.induct (P := BoundExpr T []) ?_ h.2.2
    intro e e' hpart he
    cases hpart with
    | binaryLeft | logicalLeft | callee | assigned | setValue => exact he.1
    | binaryRight | logicalRight | setObject => exact he.2
    | argument hmem => exact BoundExprs.mem he.2 hmem
    | unary | grouping | getObject => exact he
  exact hread.1.2

end Resolve

/-! ## §3. Sessions. -/

namespace Session

variable {s : Session} {source : String}

/-- The statements of an accepted source are numbered below what comes next. -/
theorem carries_start (hs : (Trait.numbered (· < s.nextId)).OfState s.machine.state) :
    Config.Carries (.numbered (· < (s.parsed source).nextId)) (s.start source) := by
  refine ⟨Trait.numbered_all fun o ho => ((s.numbering source).2 o ho).2, ?_, ?_⟩
  · intro f hf
    cases hf
  · exact hs.imp (Trait.numbered_imp fun i hi => Nat.lt_of_lt_of_le hi (s.le_nextId_parsed source))

/-- **The functions in store have numbers that were used before.** -/
theorem Reachable.numbered (h : s.Reachable) :
    (Trait.numbered (· < s.nextId)).OfState s.machine.state := by
  induction h with
  | new capacity => exact Trait.ofState_initial _ capacity
  | @run s hs fuel clock source hended ih =>
    by_cases haccepts : s.Accepts source
    · rw [run_eq haccepts fuel clock]
      exact ((carries_start ih).numbered (s.setting clock source) fuel).state
    · rw [(run_rejected haccepts fuel clock).1]
      exact ih.imp (Trait.numbered_imp fun i hi =>
        Nat.lt_of_lt_of_le hi (s.le_nextId_parsed source))

/-- **While a global initializer is being evaluated**, all statements before it
have been completed. -/
theorem exists_completes (hs : s.Reachable) (clock : Clock) {name : Token} {e : Expr}
    {before later : List Stmt} (hsource : (s.parsed source).statements
      = before ++ .var name (some e) :: later) {o : Occurrence} (hreads : e.Reads o) {n : Nat}
    (hcontrol : (Config.run (s.setting clock source) n (s.start source)).control
      = .eval (.variable o)) :
    ∃ done s', before <+: done
      ∧ Config.Completes (s.setting clock source) done s.machine.state s'
      ∧ s'.Widens (fun _ => True)
        (Config.run (s.setting clock source) n (s.start source)).state := by
  obtain ⟨hnodup, hrange⟩ := s.numbering source
  obtain ⟨done, rest, s', hsplit, hdone, hphase⟩ := Config.exists_phase (s.setting clock source)
    (s.parsed source).statements s.machine.state n
  change Config.Phase _ rest s' (Config.run (s.setting clock source) n (s.start source)) at hphase
  generalize Config.run (s.setting clock source) n (s.start source) = c at hcontrol hphase ⊢
  cases hphase with
  | between => cases hcontrol
  | ended h =>
    obtain ⟨control, frames, state⟩ := c
    dsimp only at hcontrol
    subst hcontrol
    cases h
  | @inside st later' k hrest =>
    refine ⟨done, s', ?_, hdone, Config.widens_run _ k ⟨.exec st, [], s'⟩⟩
    -- the numbers that can come up by now
    let P : Nat → Prop := fun i =>
      i < s.nextId ∨ ∃ o' ∈ Stmt.occurrencesAll (done ++ [st]), o'.id = i
    have hold : ∀ i, i < s.nextId → P i := fun i hi => .inl hi
    have hcode : ∀ st' ∈ done ++ [st], (Trait.numbered P).code (.stmt st') :=
      Trait.numbered_all fun o' ho' => .inr ⟨o', ho', rfl⟩
    have hstate : (Trait.numbered P).OfState s' := by
      refine hdone.carries Trait.closed_numbered (fun _ _ _ hf => hf) ?_
        (hs.numbered.imp (Trait.numbered_imp hold))
      exact fun st' hst' => hcode st' (List.mem_append_left _ hst')
    have hcarries : Config.Carries (.numbered P) ⟨.exec st, [], s'⟩ := by
      refine ⟨hcode st (List.mem_append_right _ List.mem_cons_self), ?_, hstate⟩
      intro f hf
      cases hf
    have heval := (hcarries.numbered (s.setting clock source) k).control
    change (Config.run (s.setting clock source) k ⟨.exec st, [], s'⟩).control = _ at hcontrol
    rw [hcontrol] at heval
    have hmem : o ∈ (Stmt.var name (some e)).occurrences := hreads.mem_occurrences
    rw [hsource] at hrange hnodup
    rcases heval o (List.mem_singleton.mpr rfl) with hlt | ⟨o', ho', hid⟩
    · -- its own number is new
      have hnew := (hrange o (by
        rw [Stmt.occurrencesAll_append]
        exact List.mem_append_right _ (List.mem_append_left _ hmem))).1
      exact absurd hlt (Nat.not_lt_of_le hnew)
    · rw [hsource, hrest] at hsplit
      exact Stmt.prefix_of_number hsplit hnodup hmem ho' hid

/-- **An accepted global initializer never reads itself undefined.**  Take any
session, whatever became of its chunks, and a source that it accepts.  Wherever
the run of the source evaluates an occurrence of `x` that stands directly in the
initializer of a declaration `var x = e` at the top level, `x` is bound in the
globals, and the next step yields its value. -/
theorem global_initializer_bound (hs : s.Reachable) (h : s.Accepts source) (clock : Clock)
    {name : Token} {e : Expr} (hvar : .var name (some e) ∈ (s.parsed source).statements)
    {o : Occurrence} (hreads : e.Reads o) (hname : o.name.lexeme = name.lexeme) (n : Nat) :
    let g := s.setting clock source
    let point := Config.run g n (s.start source)
    point.control = .eval (.variable o) →
      ∃ v, point.state.globals.get? name.lexeme = some v ∧ point.step g = point.yielding v := by
  intro g point hcontrol
  have hk := kept_of_reachable hs
  obtain ⟨before, later, hsource⟩ := List.append_of_mem hvar
  obtain ⟨done, s', ⟨more, rfl⟩, hdone, hwidens⟩ :=
    exists_completes hs clock hsource hreads hcontrol
  have hbinds : point.state.globals.binds name.lexeme := by
    refine hwidens.binds ?_
    have hresolved := h.resolved
    have hproper := h.proper
    unfold resolution at hresolved
    rw [hsource] at hresolved hproper
    have hbefore := ((Stmt.properAll_append _ _).mp hproper).1
    rcases earlier_of_reads hbefore hresolved hreads hname with hglobal | ⟨st, hst, t, ht, hlexeme⟩
    · exact hdone.widens.binds ((Bindings.mem_names _ _).mp hglobal)
    · rw [← hlexeme]
      have hroot : s.machine.state.scope < s.machine.state.scopes.nextId := by
        rw [hk.scope]
        exact hk.state.scopes.2.1.root
      have hdeclared := hdone.binds hroot (List.mem_append_left more hst) ht
      rw [hk.scope] at hdeclared
      exact hdeclared
  obtain ⟨v, hv⟩ := (Bindings.binds_iff _ _).mp hbinds
  have hdistance : g.distances[o.id]? = none :=
    distance_of_reads ((h.bound hk).mem_top hvar) hreads
  refine ⟨v, hv, ?_⟩
  have hstep : point.step g = point.settling o.name.line (Config.lookUp g point.state o) := by
    unfold Config.step
    rw [hcontrol]
    rfl
  rw [hstep, Config.lookUp_global hdistance (hname ▸ hv)]
  rfl

/-- The global that a statement declares by its own negation, as it is read. -/
def negated? : Stmt → Option (Token × Occurrence)
  | .var name (some (.unary _ (.variable o))) => some (name, o)
  | _ => none

theorem exists_of_negated? {st : Stmt} {name : Token} {o : Occurrence}
    (h : negated? st = some (name, o)) :
    ∃ e, st = .var name (some e) ∧ e.Reads o := by
  unfold negated? at h
  split at h
  · cases h
    exact ⟨_, rfl, .single .unary⟩
  · cases h

/-- A global is declared by its own value after a chunk that has failed. -/
theorem global_initializer_bound_redeclared :
    let s := ((Session.new none).run 60 (.still 0) "var a; -nil;").1
    let source := "var b; var a = !a;"
    let a : Occurrence := ⟨0, ⟨.identifier, "a", 1⟩⟩
    let g := s.setting (.still 0) source
    let point := Config.run g 6 (s.start source)
    s.Accepts source ∧ point.control = .eval (.variable a)
      ∧ ∃ v, point.state.globals.get? "a" = some v ∧ point.step g = point.yielding v := by
  intro s source a g point
  have hs : s.Reachable :=
    .run (.new none) 60 (.still 0) _ (Outcome.ne_unfinished (by decide +kernel))
  have h : s.Accepts source := ⟨by decide +kernel, by decide +kernel⟩
  have hcontrol : point.control = .eval (.variable a) :=
    Control.eq_of_reading? (by decide +kernel)
  have hnegated : (s.parsed source).statements.map negated?
      = [none, some (⟨.identifier, "a", 1⟩, a)] := by decide +kernel
  obtain ⟨st, hst, hvar⟩ : ∃ st ∈ (s.parsed source).statements,
      negated? st = some (⟨.identifier, "a", 1⟩, a) := by
    rw [← List.mem_map, hnegated]
    exact List.mem_cons_of_mem _ List.mem_cons_self
  obtain ⟨e, rfl, hreads⟩ := exists_of_negated? hvar
  exact ⟨h, hcontrol, global_initializer_bound hs h (.still 0) hst hreads rfl 6 hcontrol⟩

end Session

end Lox
