/-
  Lox.Proofs.Session.Rooted
  ─────────────────────────
  **ALL CHAINS END AT THE GLOBALS, IN ANY SESSION.**

  A session starts with the scope of the globals only.  From there every step of
  every chunk keeps the scopes together (`Rooted.run`), and no link that was
  there at some point of the past is ever changed (`Session.Linked`).

  Main result: `chains_reach_globals`.
-/
import Lox.Proofs.Machine.Rooted
import Lox.Proofs.Session.Supers

namespace Lox

open Config

namespace Session

variable {past : Setting → Config → Prop} {s : Session}

/-- All scopes of a session hang together, and those of the past are where they
were. -/
structure Linked (past : Setting → Config → Prop) (s : Session) : Prop where
  rooted : (idle s.machine.state).Rooted
  past : ∀ g p, past g p → p.state.scopes.Extends s.machine.state.scopes

theorem rooted_initial (capacity : Option Nat) : (idle (.initial capacity)).Rooted := by
  refine ⟨⟨Nat.zero_lt_one, ?_⟩, ?_, List.forall_mem_nil _, List.forall_mem_nil _, ?_⟩
  · intro n hn hroot
    exact absurd (Nat.lt_one_iff.mp hn) hroot
  · intro n hn
    rw [List.mem_singleton.mp hn]
    exact Nat.zero_lt_one
  · intro v hv
    rw [State.holds_initial hv]
    trivial

/-- **At every point of a run** the scopes hang together, and all points passed
before had some of them. -/
theorem Linked.run (h : Linked past s) (clock : Clock) (source : String) (n : Nat) :
    let c := Config.run (s.setting clock source) n (s.start source)
    c.Rooted
      ∧ ∀ g p, s.passing past n clock source g p → p.state.scopes.Extends c.state.scopes := by
  have hstart : (s.start source).Rooted :=
    ⟨h.rooted.forest, h.rooted.positions, List.forall_mem_nil _, List.forall_mem_nil _,
      h.rooted.values.state⟩
  obtain ⟨hrooted, hext⟩ := hstart.run (s.setting clock source) n
  refine ⟨hrooted, ?_⟩
  rintro g p (hpast | ⟨-, -, m, hm, rfl⟩)
  · exact (h.past g p hpast).trans hext
  · -- the rest of the run starts at the earlier point
    obtain ⟨k, rfl⟩ := Nat.exists_eq_add_of_le (Nat.le_of_lt hm)
    rw [Config.run_add]
    exact ((hstart.run _ m).1.run _ k).2

/-- **Every session that chunks lead to** has its scopes together. -/
theorem Lived.linked (h : Lived past s) : Linked past s := by
  induction h with
  | new capacity => exact ⟨rooted_initial capacity, fun _ _ hp => hp.elim⟩
  | @run past s hs fuel clock source hended ih =>
    by_cases haccepts : s.Accepts source
    · obtain ⟨hrooted, hext⟩ := ih.run clock source fuel
      rw [run_eq haccepts fuel clock]
      exact ⟨hrooted.idle, hext⟩
    · rw [(run_rejected haccepts fuel clock).1]
      refine ⟨ih.rooted, ?_⟩
      rintro g p (hpast | ⟨haccepts', -⟩)
      · exact ih.past g p hpast
      · exact absurd haccepts' haccepts

/-- **Every chain of scopes ends at the globals.**  Take any chunks.  In the
session after them, and at every point of the run of any accepted source that
comes next, following the links from the current scope, from the scopes that
blocks and calls in progress go back to, and from the closure of every function,
bound method and method of a class that is stored anywhere, leads to the scope
of the globals, which exists and is inside no other.  A scope that existed at
some point that was passed before, in this chunk or an earlier one, still exists
and is inside the same scope as then. -/
theorem chains_reach_globals (hs : Lived past s) :
    ((idle s.machine.state).Anchored
      ∧ ∀ g p, past g p → ∀ m < p.state.scopes.nextId, m < s.machine.state.scopes.nextId
        ∧ s.machine.state.scopes.enclosing? m = p.state.scopes.enclosing? m)
    ∧ ∀ source, s.Accepts source → ∀ clock n,
      let c := Config.run (s.setting clock source) n (s.start source)
      c.Anchored
        ∧ ∀ g p, s.passing past n clock source g p → ∀ m < p.state.scopes.nextId,
          m < c.state.scopes.nextId ∧ c.state.scopes.enclosing? m = p.state.scopes.enclosing? m := by
  have hlinked := hs.linked
  refine ⟨⟨hlinked.rooted.anchored, ?_⟩, ?_⟩
  · intro g p hp m hm
    have hext := hlinked.past g p hp
    exact ⟨Nat.lt_of_lt_of_le hm hext.nextId, hext.links m hm⟩
  · intro source _ clock n
    obtain ⟨hrooted, hpassed⟩ := hlinked.run clock source n
    refine ⟨hrooted.anchored, ?_⟩
    intro g p hp m hm
    have hext := hpassed g p hp
    exact ⟨Nat.lt_of_lt_of_le hm hext.nextId, hext.links m hm⟩

/-- The scope that a value closes over, if it is a function. -/
def closureOf? : Value → Option ScopeId
  | .function f => some f.closure
  | _ => none

/-- A function that is declared in a block is stored in the scope that it closes
over, and the links lead out of that scope. -/
theorem chains_reach_globals_cyclic :
    let s := ((Session.new none).run 60 (.still 0)
      "\x7b fun f() \x7b\x7d class A \x7b m() \x7b\x7d \x7d \x7d").1
    ∃ past f, Lived past s
      ∧ (s.machine.state.scopes.bindings 1).get? "f" = some (.function f) ∧ f.closure = 1
      ∧ (idle s.machine.state).Stores f ∧ s.machine.state.scopes.Reaches f.closure
      ∧ s.Accepts "class B \x7b\x7d"
      ∧ (Config.run (s.setting (.still 0) "class B \x7b\x7d") 2
        (s.start "class B \x7b\x7d")).Anchored := by
  intro s
  have hs : Lived _ s :=
    .run (.new none) 60 (.still 0) _ (Outcome.ne_unfinished (by decide +kernel))
  have h : s.Accepts "class B \x7b\x7d" := ⟨by decide +kernel, by decide +kernel⟩
  have hf : ((s.machine.state.scopes.bindings 1).get? "f").bind closureOf? = some 1 := by
    decide +kernel
  obtain ⟨v, hv, hclosure⟩ := Option.bind_eq_some_iff.mp hf
  obtain ⟨hbetween, hpoints⟩ := chains_reach_globals hs
  cases v with
  | function f =>
    have hstored : (idle s.machine.state).Stores f := .value (.state (.variable hv))
    exact ⟨_, f, hs, hv, Option.some.inj hclosure, hstored, hbetween.1.closures f hstored, h,
      (hpoints _ h (.still 0) 2).1⟩
  | _ => cases hclosure

end Session

end Lox
