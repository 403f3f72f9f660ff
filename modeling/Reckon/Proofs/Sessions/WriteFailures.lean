import Reckon.Proofs.Sessions.ReadFailures

/-! # Sessions whose output fails

A failure to write only truncates the output. As long as what is written fits, a session does what
it would do if the output did not fail; at the first write that does not fit it ends, and of what
the session would have written in all, the part that fits was written.
-/

namespace Reckon

theorem extract_append_of_le {first more : ByteArray} {count : Nat} (le : count ≤ first.size) :
    (first ++ more).extract 0 count = first.extract 0 count := by
  rw [ByteArray.extract_append, Nat.zero_sub, Nat.sub_eq_zero_of_le le, ByteArray.extract_same,
    ByteArray.append_empty]

theorem extract_of_size_le {bytes : ByteArray} {count : Nat} (le : bytes.size ≤ count) :
    bytes.extract 0 count = bytes := by
  simpa only [Nat.max_eq_left le] using ByteArray.extract_zero_max_size (a := bytes) (i := count)

namespace Session

variable {s t : Session} {limit : Cutoff}

def limited (s : Session) (limit : Cutoff) : Session :=
  { s with sink := { s.sink with failure := some limit } }

/-- The output works, and what was written so far fits. -/
structure Fits (limit : Cutoff) (s : Session) : Prop where
  works : s.sink.failure = none
  size_le : s.sink.written.size ≤ limit.bytes

/-- What a step comes to with an output that breaks off: the same as with one that works, as long
    as all of it fits; and else the failure to write, with the part that fits written. -/
inductive BreaksOff (limit : Cutoff) (x : Act α) (s : Session) : Prop where
  | ok (a : α) (t : Session) : Fits limit t → x s = .ok a t →
    x (s.limited limit) = .ok a (t.limited limit) → BreaksOff limit x s
  | error (e : SessionError) (t : Session) : Fits limit t → x s = .error e t →
    x (s.limited limit) = .error e (t.limited limit) → BreaksOff limit x s
  | full (t : Session) : limit.bytes < (leaves x s).sink.written.size →
    x (s.limited limit) = .error (.write limit.reason) t →
    t.sink.written = (leaves x s).sink.written.extract 0 limit.bytes → BreaksOff limit x s

/-- Two steps that do the same from here, with both outputs, break off alike. -/
theorem BreaksOff.of_eq {x y : Act α} (h : BreaksOff limit y t) (same : x s = y t)
    (sameToo : x (s.limited limit) = y (t.limited limit)) : BreaksOff limit x s := by
  cases h with
  | ok a u fits run runToo => exact .ok a u fits (same.trans run) (sameToo.trans runToo)
  | error e u fits run runToo => exact .error e u fits (same.trans run) (sameToo.trans runToo)
  | full u beyond failed written =>
      rw [← leaves_of_eq same] at beyond written
      exact .full u beyond (sameToo.trans failed) written

/-- An output that breaks off truncates what the step writes. -/
structure Truncates (limit : Cutoff) (x : Act α) : Prop where
  grows : Grows x
  breaksOff : ∀ s, Fits limit s → BreaksOff limit x s

namespace Truncates

theorem pure (a : α) : Truncates limit (Pure.pure a : Act α) :=
  ⟨.pure a, fun s fits => .ok a s fits rfl rfl⟩

theorem throw (e : SessionError) : Truncates limit (throw e : Act α) :=
  ⟨fun _ => .throw e, fun s fits => .error e s fits rfl rfl⟩

/-- Behind a write that did not fit nothing is written, and what the steps behind it would have
    written comes behind the part that fits. -/
theorem bind {x : Act α} {f : α → Act β} (first : Truncates limit x)
    (rest : ∀ a, Truncates limit (f a)) : Truncates limit (x >>= f) := by
  refine ⟨first.grows.bind fun a => (rest a).grows, fun s fits => ?_⟩
  cases first.breaksOff s fits with
  | ok a t fits run runToo =>
      exact ((rest a).breaksOff t fits).of_eq (bind_of_ok run) (bind_of_ok runToo)
  | error e t fits run runToo =>
      exact .error e t fits (bind_of_error run) (bind_of_error runToo)
  | full t beyond failed written =>
      obtain ⟨more, whole⟩ :=
        hasWritten_bind (hasWritten_self (leaves x s)) fun a => (rest a).grows
      refine .full t ?_ (bind_of_error failed) ?_
      · rw [whole, ByteArray.size_append]
        exact Nat.lt_add_right _ beyond
      · rw [whole, extract_append_of_le (Nat.le_of_lt beyond), written]

theorem get {f : Session → Act β} (blind : ∀ s : Session, f (s.limited limit) = f s)
    (rest : ∀ s, Truncates limit (f s)) : Truncates limit (MonadState.get >>= f) := by
  refine ⟨.get fun s => (rest s).grows, fun s fits => ?_⟩
  exact ((rest s).breaksOff s fits).of_eq rfl (congrFun (blind s) (s.limited limit))

theorem of_sink {x : Act α} (silent : IgnoresSink x) : Truncates limit x := by
  refine ⟨.of_sink silent, fun s fits => ?_⟩
  have both := silent s { s.sink with failure := some limit }
  have sameToo : ∀ t : Session, t.sink = s.sink →
      { t with sink := { s.sink with failure := some limit } } = t.limited limit :=
    fun t same => by rw [limited, same]
  cases run : x s with
  | ok a t =>
      obtain ⟨same, runToo⟩ := both.of_ok run
      exact .ok a t ⟨same ▸ fits.works, same ▸ fits.size_le⟩ run (sameToo t same ▸ runToo)
  | error e t =>
      obtain ⟨same, runToo⟩ := both.of_error run
      exact .error e t ⟨same ▸ fits.works, same ▸ fits.size_le⟩ run (sameToo t same ▸ runToo)

theorem write (text : String) : Truncates limit (write text) := by
  refine ⟨.write text, fun s fits => ?_⟩
  have whole := write_eq fits.works text
  have le := fits.size_le
  have size : (s.sink.written ++ text.toUTF8).size = s.sink.written.size + text.toUTF8.size :=
    ByteArray.size_append
  let room := limit.bytes - s.sink.written.size
  by_cases inRoom : text.toUTF8.size ≤ room
  · have written : (s.limited limit).sink.write text =
        (none, ((s.wrote text).limited limit).sink) := if_pos inRoom
    refine .ok () (s.wrote text) ⟨fits.works, ?_⟩ whole ?_
    · simp only [wrote, size]
      omega
    · simp only [Session.write, written]
      rfl
  · have beyond : limit.bytes < (s.sink.written ++ text.toUTF8).size := by omega
    have part : (s.sink.written ++ text.toUTF8).extract 0 limit.bytes =
        s.sink.written ++ text.toUTF8.extract 0 room := by
      rw [ByteArray.extract_append, extract_of_size_le le, Nat.zero_sub]
    let sink : Sink := ⟨s.sink.written ++ text.toUTF8.extract 0 room, some limit⟩
    have written : (s.limited limit).sink.write text = (some limit.reason, sink) := if_neg inRoom
    refine .full { s with sink } (leaves_of_ok whole ▸ beyond) ?_ (leaves_of_ok whole ▸ part.symm)
    simp only [Session.write, written]
    rfl

/-- A bare expression is evaluated, and its function removed, before its value is told. -/
theorem evaluateBare (id : Ir.FunctionId) (told : ∀ value, Truncates limit (tellValue value)) :
    Truncates limit (evaluateBare id) := by
  refine ⟨Grows.closed.evaluateBare id fun value => (told value).grows, fun s fits => ?_⟩
  have told := told (if s.options.evaluate then s.backend.evaluate id else none)
  exact (told.breaksOff { s with backend := s.backend.remove id }
    ⟨fits.works, fits.size_le⟩).of_eq rfl rfl

theorem closed : Closed fun _ => Truncates limit where
  pure := pure
  throw := throw
  bind := bind
  look blind := get fun s => blind s s.parser _
  get blind := get fun s => blind s _
  write := write
  advance := of_sink .advance
  parseForm := of_sink .parseForm
  compileForm form := of_sink (.compileForm form)
  evaluateBare := evaluateBare

end Truncates

/-- Compare a run whose output breaks off behind its first bytes with the one whose output works,
    over any source, read to its end or to its failure. What the one writes are the first bytes of
    what the other writes, as many as fit. It ends with the failure to write if not all of them
    fit, and else as the other does. -/
theorem write_failure_truncates (s : Session) (table : Operators) (source : Source)
    (limit : Cutoff) :
    let whole := { s with sink := {} }.reading table source.feed
    let failing := { s with sink := { failure := some limit } }.reading table source.feed
    let output := (leaves run whole).sink.written
    (leaves run failing).sink.written = output.extract 0 (min limit.bytes output.size) ∧
      outcome run failing =
        if limit.bytes < output.size then .error (.write limit.reason) else outcome run whole := by
  intro whole failing output
  have breaks : BreaksOff limit run whole :=
    Truncates.closed.run.breaksOff whole ⟨rfl, Nat.zero_le _⟩
  have same : whole.limited limit = failing := rfl
  cases breaks with
  | ok a t fits ran ranToo =>
      have written : output = t.sink.written := congrArg (·.sink.written) (leaves_of_ok ran)
      have le : output.size ≤ limit.bytes := written ▸ fits.size_le
      rw [Nat.min_eq_right le, ByteArray.extract_zero_size, if_neg (Nat.not_lt_of_le le),
        outcome_of_ok ran, ← same, leaves_of_ok ranToo, outcome_of_ok ranToo, written]
      exact ⟨rfl, rfl⟩
  | error e t fits ran ranToo =>
      have written : output = t.sink.written := congrArg (·.sink.written) (leaves_of_error ran)
      have le : output.size ≤ limit.bytes := written ▸ fits.size_le
      rw [Nat.min_eq_right le, ByteArray.extract_zero_size, if_neg (Nat.not_lt_of_le le),
        outcome_of_error ran, ← same, leaves_of_error ranToo, outcome_of_error ranToo, written]
      exact ⟨rfl, rfl⟩
  | full t beyond failed written =>
      rw [Nat.min_eq_left (Nat.le_of_lt beyond), if_pos beyond, ← same, leaves_of_error failed,
        outcome_of_error failed, written]
      exact ⟨rfl, rfl⟩

end Session

end Reckon
