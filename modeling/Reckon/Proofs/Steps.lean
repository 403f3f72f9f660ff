/-! # What steps ensure

A step of a parser, a compiler or a session is a function of a state that ends well with a result
or fails with an error, and leaves a state either way. `Ensures` states what holds after both
outcomes, and its rules follow the way in which steps are put together, so that one statement
about a step covers the states that its failures leave.
-/

namespace Reckon

variable {ε σ α β : Type}

/-- From `s` the step either ends well as `ok` says, or fails as `err` says. -/
def Ensures (x : EStateM ε σ α) (s : σ) (ok : α → σ → Prop) (err : ε → σ → Prop) : Prop :=
  match x s with
  | .ok a t => ok a t
  | .error e t => err e t

theorem bind_of_ok {x : EStateM ε σ α} {f : α → EStateM ε σ β} {s t : σ} {a : α}
    (run : x s = .ok a t) : (x >>= f) s = f a t := by
  simp only [Bind.bind, EStateM.bind, run]

theorem bind_of_error {x : EStateM ε σ α} {f : α → EStateM ε σ β} {s t : σ} {e : ε}
    (run : x s = .error e t) : (x >>= f) s = .error e t := by
  simp only [Bind.bind, EStateM.bind, run]

theorem bind_of_eq {x y : EStateM ε σ α} {f : α → EStateM ε σ β} {s t : σ} (same : x s = y t) :
    (x >>= f) s = (y >>= f) t := by
  simp only [Bind.bind, EStateM.bind, same]

theorem map_of_ok {x : EStateM ε σ α} {f : α → β} {s t : σ} {a : α} (run : x s = .ok a t) :
    (f <$> x) s = .ok (f a) t := by
  simp only [Functor.map, EStateM.map, run]

theorem map_of_error {x : EStateM ε σ α} {f : α → β} {s t : σ} {e : ε} (run : x s = .error e t) :
    (f <$> x) s = .error e t := by
  simp only [Functor.map, EStateM.map, run]

theorem bind_eq_ok_iff {x : Except ε α} {rest : α → Except ε β} {b : β} :
    x >>= rest = .ok b ↔ ∃ a, x = .ok a ∧ rest a = .ok b := by
  cases x <;> simp [Bind.bind, Except.bind]

namespace Ensures

variable {x : EStateM ε σ α} {s t : σ} {ok ok' : α → σ → Prop} {err err' : ε → σ → Prop}

theorem of_ok {a : α} (h : Ensures x s ok err) (run : x s = .ok a t) : ok a t := by
  simpa only [Ensures, run] using h

theorem of_error {e : ε} (h : Ensures x s ok err) (run : x s = .error e t) : err e t := by
  simpa only [Ensures, run] using h

theorem intro (good : ∀ a t, x s = .ok a t → ok a t) (bad : ∀ e t, x s = .error e t → err e t) :
    Ensures x s ok err := by
  cases run : x s with
  | ok a t => simpa only [Ensures, run] using good a t run
  | error e t => simpa only [Ensures, run] using bad e t run

theorem mono (h : Ensures x s ok err) (good : ∀ a t, ok a t → ok' a t)
    (bad : ∀ e t, err e t → err' e t) : Ensures x s ok' err' :=
  intro (fun a t run => good a t (h.of_ok run)) fun e t run => bad e t (h.of_error run)

theorem trivial : Ensures x s (fun _ _ => True) fun _ _ => True :=
  intro (fun _ _ _ => True.intro) fun _ _ _ => True.intro

theorem pure {a : α} (h : ok a s) : Ensures (Pure.pure a) s ok err := h

theorem throw {e : ε} (h : err e s) : Ensures (throw e) s ok err := h

/-- A sequence fails where its first part does, and else goes on from the state of that part. -/
theorem bind {f : α → EStateM ε σ β} {mid : α → σ → Prop} {good : β → σ → Prop}
    (first : Ensures x s mid err) (rest : ∀ a t, mid a t → Ensures (f a) t good err) :
    Ensures (x >>= f) s good err := by
  cases run : x s with
  | ok a t => simpa only [Ensures, bind_of_ok run] using rest a t (first.of_ok run)
  | error e t =>
      simpa only [Ensures, bind_of_error run] using first.of_error run

theorem map {f : α → β} {good : β → σ → Prop} (h : Ensures x s (fun a => good (f a)) err) :
    Ensures (f <$> x) s good err := by
  cases run : x s with
  | ok a t => simpa only [Ensures, Functor.map, EStateM.map, run] using h.of_ok run
  | error e t => simpa only [Ensures, Functor.map, EStateM.map, run] using h.of_error run

theorem get {rest : σ → EStateM ε σ β} {good : β → σ → Prop} (h : Ensures (rest s) s good err) :
    Ensures (MonadState.get >>= rest) s good err := h

theorem bind_congr {y : EStateM ε σ α} {f g : α → EStateM ε σ β} (same : x s = y s)
    (first : Ensures y s ok err) (rest : ∀ a t, ok a t → f a t = g a t) :
    (x >>= f) s = (y >>= g) s := by
  simp only [Bind.bind, EStateM.bind, same]
  cases run : y s with
  | ok a t => exact rest a t (first.of_ok run)
  | error e t => rfl

end Ensures

/-- The state that a step leaves, whether it ends well or not. -/
def leaves (x : EStateM ε σ α) (s : σ) : σ :=
  match x s with
  | .ok _ t => t
  | .error _ t => t

theorem leaves_of_ok {x : EStateM ε σ α} {s t : σ} {a : α} (run : x s = .ok a t) :
    leaves x s = t := by
  simp only [leaves, run]

theorem leaves_of_error {x : EStateM ε σ α} {s t : σ} {e : ε} (run : x s = .error e t) :
    leaves x s = t := by
  simp only [leaves, run]

theorem leaves_of_eq {x y : EStateM ε σ α} {s t : σ} (same : x s = y t) :
    leaves x s = leaves y t := by
  simp only [leaves, same]

theorem Ensures.holds_leaves {x : EStateM ε σ α} {s : σ} {P : σ → Prop}
    (h : Ensures x s (fun _ => P) fun _ => P) : P (leaves x s) := by
  cases run : x s with
  | ok a t => exact leaves_of_ok run ▸ h.of_ok run
  | error e t => exact leaves_of_error run ▸ h.of_error run

def outcome (x : EStateM ε σ α) (s : σ) : Except ε α :=
  match x s with
  | .ok a _ => .ok a
  | .error e _ => .error e

theorem outcome_of_ok {x : EStateM ε σ α} {s t : σ} {a : α} (run : x s = .ok a t) :
    outcome x s = .ok a := by
  simp only [outcome, run]

theorem outcome_of_error {x : EStateM ε σ α} {s t : σ} {e : ε} (run : x s = .error e t) :
    outcome x s = .error e := by
  simp only [outcome, run]

/-- The step keeps what holds of its state, whether it ends well or not. -/
def Keeps (P : σ → Prop) (x : EStateM ε σ α) : Prop :=
  ∀ s, P s → Ensures x s (fun _ => P) (fun _ => P)

namespace Keeps

variable {P : σ → Prop}

theorem of_leaves {x : EStateM ε σ α} (kept : ∀ s, P s → P (leaves x s)) : Keeps P x :=
  fun s h => .intro (fun _ _ run => leaves_of_ok run ▸ kept s h)
    fun _ _ run => leaves_of_error run ▸ kept s h

theorem holds_leaves {x : EStateM ε σ α} {s : σ} (keeps : Keeps P x) (h : P s) :
    P (leaves x s) := (keeps s h).holds_leaves

theorem pure (a : α) : Keeps P (Pure.pure a : EStateM ε σ α) := fun _ h => h

theorem throw (e : ε) : Keeps P (throw e : EStateM ε σ α) := fun _ h => h

theorem bind {x : EStateM ε σ α} {f : α → EStateM ε σ β} (first : Keeps P x)
    (rest : ∀ a, Keeps P (f a)) : Keeps P (x >>= f) :=
  fun s h => (first s h).bind fun a t => rest a t

end Keeps

/-- The step cannot tell a state from its mask, and from there leads to the mask of where it leads
    from the state. -/
def Commutes (mask : σ → σ) (x : EStateM ε σ α) : Prop :=
  ∀ s, Ensures x s (fun a t => x (mask s) = .ok a (mask t))
    fun e t => x (mask s) = .error e (mask t)

namespace Commutes

variable {mask : σ → σ}

theorem pure (a : α) : Commutes mask (Pure.pure a : EStateM ε σ α) := fun _ => rfl

theorem throw (e : ε) : Commutes mask (throw e : EStateM ε σ α) := fun _ => rfl

theorem bind {x : EStateM ε σ α} {f : α → EStateM ε σ β} (first : Commutes mask x)
    (rest : ∀ a, Commutes mask (f a)) : Commutes mask (x >>= f) := by
  intro s
  cases run : x s with
  | ok a t =>
      have masked := (first s).of_ok run
      simpa only [Ensures, bind_of_ok run, bind_of_ok masked] using rest a t
  | error e t =>
      have masked := (first s).of_error run
      simpa only [Ensures, bind_of_error run] using bind_of_error masked

theorem get {f : σ → EStateM ε σ α} (blind : ∀ s, f (mask s) = f s)
    (rest : ∀ s, Commutes mask (f s)) : Commutes mask (MonadState.get >>= f) := by
  intro s
  have same : (MonadState.get >>= f) (mask s) = f s (mask s) := congrFun (blind s) (mask s)
  rw [same]
  exact rest s s

end Commutes

end Reckon
