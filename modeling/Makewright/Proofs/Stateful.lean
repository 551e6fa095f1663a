/-!
# Outcomes of programs with a state

A program with a state ends with an answer or an error, and in either case leaves a state. A run of
two programs one behind the other that ends with an answer can be taken apart
(`exists_between_of_bind`). `Concludes good bad x s` says what is known of either outcome of a
program that starts in the state `s`, `Leads good bad x s` says the same where the error does not
matter, and `Keeps inv x` says that the program has an invariant; their rules follow the ways in
which programs are put together.
-/

set_option autoImplicit false

namespace Makewright

variable {ε σ α β : Type}

namespace Stateful

/-- A run of two programs that ends with an answer consists of two such runs. -/
theorem exists_between_of_bind {x : EStateM ε σ α} {f : α → EStateM ε σ β} {s after : σ} {b : β}
    (h : (x >>= f) s = .ok b after) :
    ∃ a between, x s = .ok a between ∧ f a between = .ok b after := by
  simp only [bind, EStateM.bind] at h
  cases hx : x s with
  | ok a between =>
    rw [hx] at h
    exact ⟨a, between, rfl, h⟩
  | error e between =>
    rw [hx] at h
    cases h

/-- An error of two programs is one of the first or, behind an answer, of the second. -/
theorem error_of_bind {x : EStateM ε σ α} {f : α → EStateM ε σ β} {s after : σ} {e : ε}
    (h : (x >>= f) s = .error e after) :
    x s = .error e after ∨ ∃ a between, x s = .ok a between ∧ f a between = .error e after := by
  simp only [bind, EStateM.bind] at h
  cases hx : x s with
  | ok a between =>
    rw [hx] at h
    exact .inr ⟨a, between, rfl, h⟩
  | error e' between =>
    rw [hx] at h
    cases h
    exact .inl rfl

theorem error_of_get_bind {f : σ → EStateM ε σ β} {s after : σ} {e : ε}
    (h : ((get : EStateM ε σ σ) >>= f) s = .error e after) : f s s = .error e after :=
  h

/-- Where the first program ends with an answer, the second one goes on. -/
theorem bind_of_ok {x : EStateM ε σ α} {f : α → EStateM ε σ β} {s between : σ} {a : α}
    (h : x s = .ok a between) : (x >>= f) s = f a between := by
  simp [bind, EStateM.bind, h]

/-- Where the first program ends with an error, so do both. -/
theorem bind_of_error {x : EStateM ε σ α} {f : α → EStateM ε σ β} {s after : σ} {e : ε}
    (h : x s = .error e after) : (x >>= f) s = .error e after := by
  simp [bind, EStateM.bind, h]

/-- A program that reads the state runs on with the state as it is. -/
theorem of_get_bind {f : σ → EStateM ε σ β} {s after : σ} {b : β}
    (h : ((get : EStateM ε σ σ) >>= f) s = .ok b after) : f s s = .ok b after :=
  h

/-- A handler is not asked about an answer. -/
theorem tryCatch_of_ok {x : EStateM ε σ α} {handler : ε → EStateM ε σ α} {s after : σ} {a : α}
    (h : x s = .ok a after) : (tryCatch x handler) s = .ok a after := by
  change EStateM.tryCatch x handler s = _
  delta EStateM.tryCatch
  rw [h]

/-- A handler goes on from the state in which the program that it handles has failed. -/
theorem tryCatch_of_error {x : EStateM ε σ α} {handler : ε → EStateM ε σ α} {s after : σ} {e : ε}
    (h : x s = .error e after) : (tryCatch x handler) s = handler e after := by
  change EStateM.tryCatch x handler s = _
  delta EStateM.tryCatch
  rw [h]
  rfl

/-- An answer does not come from a handler that only throws other errors. -/
theorem of_tryCatch_throw {x : EStateM ε σ α} {other : ε → ε} {s after : σ} {a : α}
    (h : (tryCatch x fun e => throw (other e)) s = .ok a after) : x s = .ok a after := by
  cases hx : x s with
  | ok b between =>
    rw [tryCatch_of_ok hx] at h
    exact h
  | error e between =>
    rw [tryCatch_of_error hx] at h
    cases h

/-- A program ends with an answer. -/
def answers (x : EStateM ε σ α) (s : σ) : Bool :=
  match x s with
  | .ok _ _ => true
  | .error _ _ => false

theorem exists_of_answers {x : EStateM ε σ α} {s : σ} (h : answers x s = true) :
    ∃ a after, x s = .ok a after := by
  unfold answers at h
  cases hx : x s with
  | ok a after => exact ⟨a, after, rfl⟩
  | error e after => simp [hx] at h

/-- The state in which a program ends, be it with an answer or an error. -/
def stateAfter (x : EStateM ε σ α) (s : σ) : σ :=
  match x s with
  | .ok _ after => after
  | .error _ after => after

theorem stateAfter_of_ok {x : EStateM ε σ α} {s after : σ} {a : α} (h : x s = .ok a after) :
    stateAfter x s = after := by
  rw [stateAfter, h]

theorem stateAfter_of_error {x : EStateM ε σ α} {s after : σ} {e : ε}
    (h : x s = .error e after) : stateAfter x s = after := by
  rw [stateAfter, h]

/-- What a program answers, or the error with which it ends. -/
def outcome (x : EStateM ε σ α) (s : σ) : Except ε α :=
  match x s with
  | .ok a _ => .ok a
  | .error e _ => .error e

theorem exists_of_outcome {x : EStateM ε σ α} {s : σ} {a : α}
    (h : (outcome x s).toOption = some a) : ∃ after, x s = .ok a after := by
  unfold outcome at h
  cases hx : x s with
  | ok b after =>
    rw [hx] at h
    cases h
    exact ⟨after, rfl⟩
  | error e after =>
    rw [hx] at h
    cases h

/-- The program ends with an answer and a state that passes the check. -/
def passes (x : EStateM ε σ α) (s : σ) (check : σ → Bool) : Bool :=
  match x s with
  | .ok _ after => check after
  | .error _ _ => false

theorem exists_of_passes {x : EStateM ε σ α} {s : σ} {check : σ → Bool}
    (h : passes x s check = true) : ∃ a after, x s = .ok a after ∧ check after = true := by
  unfold passes at h
  cases hx : x s with
  | ok a after => exact ⟨a, after, rfl, by simpa [hx] using h⟩
  | error e after => simp [hx] at h

end Stateful

/-- The program concludes with an answer and a state that are `good`, or else with an error and a
state that are `bad`. -/
structure Concludes (good : α → σ → Prop) (bad : ε → σ → Prop) (x : EStateM ε σ α) (s : σ) :
    Prop where
  ok : ∀ {a after}, x s = .ok a after → good a after
  error : ∀ {e after}, x s = .error e after → bad e after

namespace Concludes

variable {good better : α → σ → Prop} {bad worse : ε → σ → Prop} {x : EStateM ε σ α} {s : σ}

theorem pure {a : α} (h : good a s) : Concludes good bad (Pure.pure a : EStateM ε σ α) s := by
  constructor
  · rintro b after ⟨⟩
    exact h
  · rintro e after ⟨⟩

theorem throw {e : ε} (h : bad e s) :
    Concludes good bad (MonadExcept.throw e : EStateM ε σ α) s := by
  constructor
  · rintro a after ⟨⟩
  · rintro e after ⟨⟩
    exact h

theorem modify {change : σ → σ} {good : Unit → σ → Prop} (h : good () (change s)) :
    Concludes good bad (modifyGet fun s => ((), change s) : EStateM ε σ Unit) s := by
  constructor
  · rintro a after ⟨⟩
    exact h
  · rintro e after ⟨⟩

theorem mono (h : Concludes good bad x s) (hgood : ∀ a after, good a after → better a after)
    (hbad : ∀ e after, bad e after → worse e after) : Concludes better worse x s :=
  ⟨fun hx => hgood _ _ (h.ok hx), fun hx => hbad _ _ (h.error hx)⟩

/-- What another program concludes with that does the same in this state. -/
theorem congr {y : EStateM ε σ α} (h : x s = y s) (hy : Concludes good bad y s) :
    Concludes good bad x s :=
  ⟨fun hx => hy.ok (h ▸ hx), fun hx => hy.error (h ▸ hx)⟩

/-- One program after another. -/
theorem bind {f : α → EStateM ε σ β} {goodAfter : β → σ → Prop}
    (hnext : ∀ a between, x s = .ok a between → Concludes goodAfter bad (f a) between)
    (hbad : ∀ e after, x s = .error e after → bad e after) :
    Concludes goodAfter bad (x >>= f) s := by
  constructor
  · intro b after h
    obtain ⟨a, between, hx, hf⟩ := Stateful.exists_between_of_bind h
    exact (hnext a between hx).ok hf
  · intro e after h
    rcases Stateful.error_of_bind h with hx | ⟨a, between, hx, hf⟩
    · exact hbad e after hx
    · exact (hnext a between hx).error hf

/-- One program after another, each by what is known of it. -/
theorem seq {f : α → EStateM ε σ β} {goodAfter : β → σ → Prop} (h : Concludes good worse x s)
    (hbad : ∀ e after, worse e after → bad e after)
    (hnext : ∀ a between, good a between → Concludes goodAfter bad (f a) between) :
    Concludes goodAfter bad (x >>= f) s :=
  .bind (fun a between hx => hnext a between (h.ok hx)) fun e after hx => hbad e after (h.error hx)

/-- One program after another, where the first one fails in the way that both may. -/
theorem andThen {f : α → EStateM ε σ β} {goodAfter : β → σ → Prop} (h : Concludes good bad x s)
    (hnext : ∀ a between, good a between → Concludes goodAfter bad (f a) between) :
    Concludes goodAfter bad (x >>= f) s :=
  .seq h (fun _ _ hbad => hbad) hnext

/-- A program that reads the state first. -/
theorem get_bind {f : σ → EStateM ε σ β} {good : β → σ → Prop}
    (h : Concludes good bad (f s) s) : Concludes good bad (get >>= f) s :=
  ⟨fun hx => h.ok hx, fun hx => h.error hx⟩

/-- A handler starts where the program that it handles has failed. -/
theorem tryCatch {handler : ε → EStateM ε σ α}
    (h : Concludes good (fun e after => Concludes good bad (handler e) after) x s) :
    Concludes good bad (MonadExcept.tryCatch x handler) s := by
  cases hrun : x s with
  | ok a after =>
    have hcatch : (MonadExcept.tryCatch x handler) s = .ok a after :=
      Stateful.tryCatch_of_ok hrun
    constructor
    · intro b last hlast
      cases hcatch.symm.trans hlast
      exact h.ok hrun
    · intro e last hlast
      cases hcatch.symm.trans hlast
  | error e after =>
    have hcatch : (MonadExcept.tryCatch x handler) s = handler e after :=
      Stateful.tryCatch_of_error hrun
    have hafter := h.error hrun
    exact ⟨fun hlast => hafter.ok (hcatch ▸ hlast), fun hlast => hafter.error (hcatch ▸ hlast)⟩

end Concludes

/-- The program leads from the state to an answer and a state that are `good`, or else to a state
that is `bad`. -/
structure Leads (good : α → σ → Prop) (bad : σ → Prop) (x : EStateM ε σ α) (s : σ) : Prop where
  ok : ∀ {a after}, x s = .ok a after → good a after
  error : ∀ {e after}, x s = .error e after → bad after

namespace Leads

variable {good better : α → σ → Prop} {bad worse : σ → Prop} {x : EStateM ε σ α} {s : σ}

/-- Which error a program ends with does not matter to where it leads. -/
theorem iff_concludes : Leads good bad x s ↔ Concludes good (fun _ => bad) x s :=
  ⟨fun h => ⟨h.ok, h.error⟩, fun h => ⟨h.ok, h.error⟩⟩

theorem pure {a : α} (h : good a s) : Leads good bad (Pure.pure a : EStateM ε σ α) s :=
  iff_concludes.2 (.pure h)

theorem throw {e : ε} (h : bad s) : Leads good bad (MonadExcept.throw e : EStateM ε σ α) s :=
  iff_concludes.2 (.throw h)

theorem modify {change : σ → σ} {good : Unit → σ → Prop} (h : good () (change s)) :
    Leads good bad (modifyGet fun s => ((), change s) : EStateM ε σ Unit) s :=
  iff_concludes.2 (.modify h)

theorem mono (h : Leads good bad x s) (hgood : ∀ a after, good a after → better a after)
    (hbad : ∀ after, bad after → worse after) : Leads better worse x s :=
  iff_concludes.2 ((iff_concludes.1 h).mono hgood fun _ => hbad)

/-- One program after another. -/
theorem bind {f : α → EStateM ε σ β} {goodAfter : β → σ → Prop}
    (h : Leads (fun a between => Leads goodAfter bad (f a) between) bad x s) :
    Leads goodAfter bad (x >>= f) s := by
  apply iff_concludes.2
  apply Concludes.bind
  · exact fun a between hx => iff_concludes.1 (h.ok hx)
  · exact fun e after hx => h.error hx

/-- One program after another, each by what is known of it. -/
theorem seq {f : α → EStateM ε σ β} {goodAfter : β → σ → Prop} (h : Leads good worse x s)
    (hbad : ∀ after, worse after → bad after)
    (hnext : ∀ a between, good a between → Leads goodAfter bad (f a) between) :
    Leads goodAfter bad (x >>= f) s :=
  .bind (h.mono hnext hbad)

/-- A program that reads the state first. -/
theorem get_bind {f : σ → EStateM ε σ β} {good : β → σ → Prop} (h : Leads good bad (f s) s) :
    Leads good bad (get >>= f) s :=
  iff_concludes.2 (.get_bind (iff_concludes.1 h))

/-- A handler starts where the program that it handles has failed. -/
theorem tryCatch {handler : ε → EStateM ε σ α}
    (h : Leads good (fun after => ∀ e, Leads good bad (handler e) after) x s) :
    Leads good bad (MonadExcept.tryCatch x handler) s := by
  apply iff_concludes.2
  apply Concludes.tryCatch
  exact ⟨h.ok, fun hx => iff_concludes.1 (h.error hx _)⟩

end Leads

/-- Wherever the program starts with the invariant, it ends with it, be it with an answer or an
error. -/
def Keeps (inv : σ → Prop) (x : EStateM ε σ α) : Prop :=
  ∀ s, inv s → Leads (fun _ => inv) inv x s

namespace Keeps

variable {inv : σ → Prop} {x : EStateM ε σ α}

theorem stateAfter (h : Keeps inv x) {s : σ} (hs : inv s) : inv (Stateful.stateAfter x s) := by
  cases hx : x s with
  | ok a after =>
    rw [Stateful.stateAfter_of_ok hx]
    exact (h s hs).ok hx
  | error e after =>
    rw [Stateful.stateAfter_of_error hx]
    exact (h s hs).error hx

/-- Nothing that a program does changes what does not depend on the state. -/
theorem const (p : Prop) (x : EStateM ε σ α) : Keeps (fun _ => p) x :=
  fun _ hp => ⟨fun _ => hp, fun _ => hp⟩

theorem and {other : σ → Prop} (h : Keeps inv x) (hother : Keeps other x) :
    Keeps (fun s => inv s ∧ other s) x :=
  fun s hs => ⟨fun hx => ⟨(h s hs.1).ok hx, (hother s hs.2).ok hx⟩,
    fun hx => ⟨(h s hs.1).error hx, (hother s hs.2).error hx⟩⟩

theorem pure (a : α) : Keeps inv (Pure.pure a : EStateM ε σ α) :=
  fun _ hs => .pure hs

theorem throw (e : ε) : Keeps inv (MonadExcept.throw e : EStateM ε σ α) :=
  fun _ hs => .throw hs

theorem modify {change : σ → σ} (h : ∀ s, inv s → inv (change s)) :
    Keeps inv (modifyGet fun s => ((), change s) : EStateM ε σ Unit) :=
  fun s hs => .modify (h s hs)

theorem bind {f : α → EStateM ε σ β} (hx : Keeps inv x) (hf : ∀ a, Keeps inv (f a)) :
    Keeps inv (x >>= f) :=
  fun s hs => .seq (hx s hs) (fun _ hbad => hbad) hf

theorem map (f : α → β) (hx : Keeps inv x) : Keeps inv (f <$> x) := by
  intro s hs
  constructor
  · intro b after hafter
    simp only [Functor.map, EStateM.map] at hafter
    cases hrun : x s with
    | ok a between =>
      rw [hrun] at hafter
      cases hafter
      exact (hx s hs).ok hrun
    | error e between =>
      rw [hrun] at hafter
      cases hafter
  · intro e after hafter
    simp only [Functor.map, EStateM.map] at hafter
    cases hrun : x s with
    | ok a between =>
      rw [hrun] at hafter
      cases hafter
    | error e' between =>
      rw [hrun] at hafter
      cases hafter
      exact (hx s hs).error hrun

/-- A program that reads the state first may go on by the state that it reads. -/
theorem get_bind {f : σ → EStateM ε σ β}
    (hf : ∀ s, inv s → Leads (fun _ => inv) inv (f s) s) : Keeps inv (get >>= f) :=
  fun s hs => .get_bind (hf s hs)

theorem tryCatch {handler : ε → EStateM ε σ α} (hx : Keeps inv x)
    (hhandler : ∀ e, Keeps inv (handler e)) : Keeps inv (MonadExcept.tryCatch x handler) :=
  fun s hs => .tryCatch
    ((hx s hs).mono (fun _ _ hgood => hgood) fun after hbad e => hhandler e after hbad)

end Keeps

end Makewright
