/-
  Lox.Proofs.Session.Limited
  ──────────────────────────
  **A LIMITED SINK ONLY CUTS OFF THE OUTPUT.**

  A session whose sink takes `n` more octets runs every source as the session
  with an unlimited sink does, as long as the output fits.  If it does not fit,
  the first `n` octets of it are kept, and the print that went too far is the
  last thing that was done: it fails, and this failure drops all frames and is
  the outcome (`run_limited`).
-/
import Lox.Proofs.Machine.Output
import Lox.Proofs.Session.Batch

namespace Lox

namespace Session

/-- The same session with a sink that takes `n` more octets. -/
def limited (s : Session) (n : Nat) : Session :=
  ⟨⟨s.machine.state.withSink ⟨s.machine.state.sink.written, some (s.printed + n)⟩,
    s.machine.distances⟩, s.nextId⟩

/-- A new session with a limited sink. -/
theorem new_limited (n : Nat) : (Session.new none).limited n = .new (some n) := by
  show (⟨⟨(State.initial none).withSink ⟨ByteArray.empty, some (0 + n)⟩, ∅⟩, 0⟩ : Session) = _
  rw [Nat.zero_add]
  rfl

variable {s : Session} {n : Nat} {source : String}

theorem accepts_limited (n : Nat) (h : s.Accepts source) : (s.limited n).Accepts source :=
  ⟨h.parsed, h.resolved⟩

/-- A source that is rejected is rejected whatever the sink is. -/
theorem run_limited_rejected (h : ¬ s.Accepts source) (n fuel : Nat) (clock : Clock) :
    (s.limited n).run fuel clock source
      = ((s.run fuel clock source).1.limited n, (s.run fuel clock source).2) := by
  have hglobals : (s.limited n).machine.globalNames = s.machine.globalNames := rfl
  have hnextId : (s.limited n).nextId = s.nextId := rfl
  unfold run chunk
  dsimp only
  rw [hglobals, hnextId]
  split
  · rfl
  · next hparsed =>
    split
    · rfl
    · next hresolved =>
      refine absurd ⟨?_, ?_⟩ h
      · simpa [parsed] using hparsed
      · simpa [resolution, parsed] using hresolved

/-- The limited run of an accepted source. -/
theorem run_limited_eq (h : s.Accepts source) (n fuel : Nat) (clock : Clock) :
    let c := Config.run (s.setting clock source) fuel ((s.start source).capped (s.printed + n))
    (s.limited n).run fuel clock source
      = (⟨⟨c.state, (s.setting clock source).distances⟩, (s.parsed source).nextId⟩,
        .ofEnding c.ending) :=
  run_eq (accepts_limited n h) fuel clock

/-- What the run of an accepted source prints. -/
theorem Accepts.written (h : s.Accepts source) {fuel : Nat} {clock : Clock} {output : ByteArray}
    (hprinted : s.Printed (s.run fuel clock source).1 output) :
    (Config.run (s.setting clock source) fuel (s.start source)).state.sink.written
      = s.machine.state.sink.written ++ output := by
  rw [run_eq h] at hprinted
  exact hprinted

/-- A source that is rejected prints nothing. -/
theorem size_of_rejected (h : ¬ s.Accepts source) {fuel : Nat} {clock : Clock} {output : ByteArray}
    (hprinted : s.Printed (s.run fuel clock source).1 output) : output.size = 0 := by
  unfold Printed at hprinted
  rw [(run_rejected h fuel clock).1] at hprinted
  have hsize := congrArg ByteArray.size hprinted
  rw [ByteArray.size_append] at hsize
  change s.machine.state.sink.written.size = _ at hsize
  omega

/-- **A source whose output fits** runs as with an unlimited sink. -/
theorem run_limited_fits (hs : s.machine.state.sink.capacity = none) {fuel : Nat} {clock : Clock}
    {output : ByteArray} (hprinted : s.Printed (s.run fuel clock source).1 output)
    (hfits : output.size ≤ n) :
    (s.limited n).run fuel clock source
      = ((s.run fuel clock source).1.limited (n - output.size), (s.run fuel clock source).2) := by
  by_cases h : s.Accepts source
  · have hwritten := h.written hprinted
    have hcapped : Config.run (s.setting clock source) fuel
          ((s.start source).capped (s.printed + n))
        = (Config.run (s.setting clock source) fuel (s.start source)).capped (s.printed + n) := by
      refine Config.run_capped hs ?_
      rw [hwritten, ByteArray.size_append]
      exact Nat.add_le_add_left hfits _
    -- what is left of the room
    have hroom : (s.run fuel clock source).1.printed + (n - output.size) = s.printed + n := by
      have hsize : (s.run fuel clock source).1.printed = s.printed + output.size :=
        (congrArg ByteArray.size hprinted).trans ByteArray.size_append
      omega
    rw [run_limited_eq h, hcapped]
    unfold limited
    rw [hroom, run_eq h]
    rfl
  · rw [run_limited_rejected h, size_of_rejected h hprinted, Nat.sub_zero]

/-- **A limited sink only cuts off the output.**  Take a session whose sink is
unlimited, and a source whose run comes to an end there.  With a sink that takes
`n` more octets the same source, if its output fits, prints the same, has the
same outcome and leaves the same session, apart from the limit.  Otherwise it
prints the first `n` octets and fails, since the output takes no more: up to one
print it does the same as with the unlimited sink, that print fails, and from
then on it drops frames and does nothing else. -/
theorem run_limited (hs : s.machine.state.sink.capacity = none) {fuel : Nat} {clock : Clock}
    (hended : (s.run fuel clock source).2 ≠ .unfinished) :
    ∃ output, s.Printed (s.run fuel clock source).1 output ∧ ∀ n,
      (output.size ≤ n → (s.limited n).run fuel clock source
        = ((s.run fuel clock source).1.limited (n - output.size), (s.run fuel clock source).2))
      ∧ (n < output.size →
        let free (k : Nat) := Config.run (s.setting clock source) k (s.start source)
        let point (k : Nat) :=
          Config.run ((s.limited n).setting clock source) k ((s.limited n).start source)
        s.Printed ((s.limited n).run fuel clock source).1 (output.extract 0 n)
        ∧ ((s.limited n).run fuel clock source).2 = .failed .outputFull
        ∧ ∃ last < fuel, (∃ v, (free last).printed? = some v)
          ∧ (∀ k ≤ last, point k = (free k).capped (s.printed + n))
          ∧ ∀ k, ∃ scope depth, point (last + 1 + k)
            = ⟨.raising .outputFull, (free last).frames.tail.drop k,
              { (free last).state with
                scope, depth
                sink := ⟨s.machine.state.sink.written ++ output.extract 0 n,
                  some (s.printed + n)⟩ }⟩) := by
  by_cases h : s.Accepts source
  · obtain ⟨output, hprinted⟩ := h.printed fuel clock
    refine ⟨output, hprinted, fun n => ⟨run_limited_fits hs hprinted, ?_⟩⟩
    intro hover free point
    have hwritten : (free fuel).state.sink.written = s.machine.state.sink.written ++ output :=
      h.written hprinted
    have hpast : s.printed + n < (free fuel).state.sink.written.size := by
      rw [hwritten, ByteArray.size_append]
      exact Nat.add_lt_add_left hover _
    have hcut : (free fuel).state.sink.written.extract 0 (s.printed + n)
        = s.machine.state.sink.written ++ output.extract 0 n := by
      have hroom : s.printed + n - s.machine.state.sink.written.size = n :=
        Nat.add_sub_cancel_left _ _
      rw [hwritten, extract_append_of_size_le (Nat.le_add_right s.printed n), hroom]
    obtain ⟨last, hlast, hprint, hsame, hframes, hlater⟩ :=
      Config.run_overflows (c := s.start source) hs (Nat.le_add_right s.printed n) hpast
    rw [hcut] at hlater
    obtain ⟨k, rfl⟩ := Nat.exists_eq_add_of_le (show last + 1 ≤ fuel from hlast)
    -- the frames that are left are dropped in the steps that are left
    have hlength : (free last).frames.tail.length ≤ k := by
      have hhalted : (Config.run (s.setting clock source) k (free (last + 1))).halted = true := by
        rw [run_eq h] at hended
        rw [← Config.run_add]
        refine Config.halted_of_ending fun heq => hended ?_
        exact congrArg Outcome.ofEnding heq
      rw [← show (free (last + 1)).frames = _ from hframes]
      exact Config.length_frames_le_of_halted hhalted
    obtain ⟨scope, depth, hend⟩ := hlater k
    rw [List.drop_eq_nil_of_le hlength] at hend
    refine ⟨?_, ?_, last, hlast, hprint, hsame, hlater⟩
    · rw [run_limited_eq h]
      exact congrArg (fun c => c.state.sink.written) hend
    · rw [run_limited_eq h]
      exact congrArg (fun c => Outcome.ofEnding c.ending) hend
  · refine ⟨ByteArray.empty, ?_, fun n => ⟨run_limited_fits hs ?_, fun hover => ?_⟩⟩
    · unfold Printed
      rw [(run_rejected h fuel clock).1, ByteArray.append_empty]
    · unfold Printed
      rw [(run_rejected h fuel clock).1, ByteArray.append_empty]
    · exact absurd hover (Nat.not_lt_zero n)

/-- A program that prints twice into a sink with room for one line and a half. -/
theorem run_limited_halfway :
    let s := Session.new none
    let source := "print \"ab\"; print \"cd\";"
    (s.run 40 (.still 0) source).2 ≠ .unfinished
      ∧ ((Session.new (some 4)).run 40 (.still 0) source).2 = .failed .outputFull
      ∧ ((Session.new (some 4)).run 40 (.still 0) source).1.machine.state.sink.written
        = "ab\nc".toUTF8 := by
  intro s source
  have hended : (s.run 40 (.still 0) source).2 ≠ .unfinished :=
    Outcome.ne_unfinished (by decide +kernel)
  obtain ⟨output, hprinted, hlimited⟩ := run_limited (s := s) rfl hended
  have houtput : output = "ab\ncd\n".toUTF8 := by
    have hwritten : (s.run 40 (.still 0) source).1.machine.state.sink.written
        = "ab\ncd\n".toUTF8 := by decide +kernel
    rw [← hwritten, hprinted]
    exact ByteArray.empty_append.symm
  have hover : 4 < output.size := by
    rw [houtput]
    decide +kernel
  obtain ⟨hcut, hfailed, -⟩ := (hlimited 4).2 hover
  rw [new_limited] at hcut hfailed
  refine ⟨hended, hfailed, ?_⟩
  rw [hcut, houtput]
  decide +kernel

end Session

end Lox
