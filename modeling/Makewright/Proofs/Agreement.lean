import Makewright.Proofs.Stateful

/-!
# Two runs of one program

Two runs of a program may start in different states and still end alike: with the same answer or the
same error. `Alike good bad` says so of two results, together with what is known of the two states
in which they end. The rules follow the ways in which programs are put together, as those for one
run do.
-/

set_option autoImplicit false

namespace Makewright

variable {ε σ α β : Type}

/-- Two results with one answer and two states that are `good`, or with one error and two states
that are `bad`. -/
inductive Alike (good : α → σ → σ → Prop) (bad : σ → σ → Prop) :
    EStateM.Result ε σ α → EStateM.Result ε σ α → Prop
  | ok {a : α} {s t : σ} (h : good a s t) : Alike good bad (.ok a s) (.ok a t)
  | error {e : ε} {s t : σ} (h : bad s t) : Alike good bad (.error e s) (.error e t)

namespace Alike

variable {good better : α → σ → σ → Prop} {bad worse : σ → σ → Prop} {x : EStateM ε σ α} {s t : σ}

/-- Two runs that end alike both have an answer, or both an error. -/
theorem exists_ends (h : Alike good bad (x s) (x t)) :
    (∃ a s' t', x s = .ok a s' ∧ x t = .ok a t' ∧ good a s' t') ∨
      ∃ e s' t', x s = .error e s' ∧ x t = .error e t' ∧ bad s' t' := by
  generalize x s = r at h ⊢
  generalize x t = r' at h ⊢
  cases h with
  | ok h => exact .inl ⟨_, _, _, rfl, rfl, h⟩
  | error h => exact .inr ⟨_, _, _, rfl, rfl, h⟩

/-- Where one run ends with an answer, so does the other. -/
theorem of_ok (h : Alike good bad (x s) (x t)) {a : α} {s' : σ} (hs : x s = .ok a s') :
    ∃ t', x t = .ok a t' ∧ good a s' t' := by
  rcases h.exists_ends with ⟨b, between, t', hs', ht, hgood⟩ | ⟨e, between, t', hs', -, -⟩
  · cases hs.symm.trans hs'
    exact ⟨t', ht, hgood⟩
  · cases hs.symm.trans hs'

/-- Where one run ends with an error, so does the other. -/
theorem of_error (h : Alike good bad (x s) (x t)) {e : ε} {s' : σ} (hs : x s = .error e s') :
    ∃ t', x t = .error e t' ∧ bad s' t' := by
  rcases h.exists_ends with ⟨b, between, t', hs', -, -⟩ | ⟨e', between, t', hs', ht, hbad⟩
  · cases hs.symm.trans hs'
  · cases hs.symm.trans hs'
    exact ⟨t', ht, hbad⟩

theorem pure {a : α} (h : good a s t) :
    Alike good bad ((Pure.pure a : EStateM ε σ α) s) ((Pure.pure a : EStateM ε σ α) t) :=
  .ok h

theorem throw {e : ε} (h : bad s t) :
    Alike good bad ((MonadExcept.throw e : EStateM ε σ α) s)
      ((MonadExcept.throw e : EStateM ε σ α) t) :=
  .error h

theorem modify {change : σ → σ} {good : Unit → σ → σ → Prop} (h : good () (change s) (change t)) :
    Alike good bad ((modifyGet fun s => ((), change s) : EStateM ε σ Unit) s)
      ((modifyGet fun s => ((), change s) : EStateM ε σ Unit) t) :=
  .ok h

theorem mono {r r' : EStateM.Result ε σ α} (h : Alike good bad r r')
    (hgood : ∀ a s t, good a s t → better a s t) (hbad : ∀ s t, bad s t → worse s t) :
    Alike better worse r r' := by
  cases h with
  | ok h => exact .ok (hgood _ _ _ h)
  | error h => exact .error (hbad _ _ h)

/-- One program after another. -/
theorem bind {f : α → EStateM ε σ β} {goodAfter : β → σ → σ → Prop}
    (h : Alike good bad (x s) (x t))
    (hnext : ∀ a s t, good a s t → Alike goodAfter bad (f a s) (f a t)) :
    Alike goodAfter bad ((x >>= f) s) ((x >>= f) t) := by
  rcases h.exists_ends with ⟨a, s', t', hs, ht, hgood⟩ | ⟨e, s', t', hs, ht, hbad⟩
  · rw [Stateful.bind_of_ok hs, Stateful.bind_of_ok ht]
    exact hnext a s' t' hgood
  · rw [Stateful.bind_of_error hs, Stateful.bind_of_error ht]
    exact .error hbad

/-- An answer that is made from another one. -/
theorem map {f : α → β} {goodAfter : β → σ → σ → Prop}
    (h : Alike (fun a => goodAfter (f a)) bad (x s) (x t)) :
    Alike goodAfter bad ((f <$> x) s) ((f <$> x) t) := by
  rw [map_eq_pure_bind]
  exact h.bind fun _ _ _ hgood => .pure hgood

/-- A program that reads the state first. -/
theorem get_bind {f : σ → EStateM ε σ β} {good : β → σ → σ → Prop}
    (h : Alike good bad (f s s) (f t t)) :
    Alike good bad (((get : EStateM ε σ σ) >>= f) s) (((get : EStateM ε σ σ) >>= f) t) :=
  h

/-- A handler starts where the program that it handles has failed. -/
theorem tryCatch {handler : ε → EStateM ε σ α} (h : Alike good worse (x s) (x t))
    (hhandler : ∀ e s t, worse s t → Alike good bad (handler e s) (handler e t)) :
    Alike good bad (MonadExcept.tryCatch x handler s) (MonadExcept.tryCatch x handler t) := by
  rcases h.exists_ends with ⟨a, s', t', hs, ht, hgood⟩ | ⟨e, s', t', hs, ht, hbad⟩
  · rw [Stateful.tryCatch_of_ok hs, Stateful.tryCatch_of_ok ht]
    exact .ok hgood
  · rw [Stateful.tryCatch_of_error hs, Stateful.tryCatch_of_error ht]
    exact hhandler e s' t' hbad

/-- Runs that end alike have one outcome. -/
theorem outcome_eq (h : Alike good bad (x s) (x t)) :
    Stateful.outcome x s = Stateful.outcome x t := by
  unfold Stateful.outcome
  rcases h.exists_ends with ⟨a, s', t', hs, ht, -⟩ | ⟨e, s', t', hs, ht, -⟩ <;> rw [hs, ht]

theorem stateAfter {both : σ → σ → Prop} (h : Alike (fun _ => both) both (x s) (x t)) :
    both (Stateful.stateAfter x s) (Stateful.stateAfter x t) := by
  rcases h.exists_ends with ⟨a, s', t', hs, ht, hboth⟩ | ⟨e, s', t', hs, ht, hboth⟩
  · rwa [Stateful.stateAfter_of_ok hs, Stateful.stateAfter_of_ok ht]
  · rwa [Stateful.stateAfter_of_error hs, Stateful.stateAfter_of_error ht]

end Alike

/-- From related states the program ends alike, in related states. -/
def Agrees (related : σ → σ → Prop) (x : EStateM ε σ α) : Prop :=
  ∀ s t, related s t → Alike (fun _ => related) related (x s) (x t)

namespace Agrees

variable {related : σ → σ → Prop} {x : EStateM ε σ α}

theorem pure (a : α) : Agrees related (Pure.pure a : EStateM ε σ α) :=
  fun _ _ h => .pure h

theorem throw (e : ε) : Agrees related (MonadExcept.throw e : EStateM ε σ α) :=
  fun _ _ h => .throw h

theorem modify {change : σ → σ} (h : ∀ s t, related s t → related (change s) (change t)) :
    Agrees related (modifyGet fun s => ((), change s) : EStateM ε σ Unit) :=
  fun s t hst => .modify (h s t hst)

theorem bind {f : α → EStateM ε σ β} (hx : Agrees related x) (hf : ∀ a, Agrees related (f a)) :
    Agrees related (x >>= f) :=
  fun s t h => (hx s t h).bind hf

theorem map (f : α → β) (hx : Agrees related x) : Agrees related (f <$> x) :=
  fun s t h => .map (hx s t h)

/-- A program that reads the state first may go on by the states that it reads. -/
theorem get_bind {f : σ → EStateM ε σ β}
    (hf : ∀ s t, related s t → Alike (fun _ => related) related (f s s) (f t t)) :
    Agrees related (get >>= f) :=
  fun s t h => .get_bind (hf s t h)

theorem tryCatch {handler : ε → EStateM ε σ α} (hx : Agrees related x)
    (hhandler : ∀ e, Agrees related (handler e)) :
    Agrees related (MonadExcept.tryCatch x handler) :=
  fun s t h => (hx s t h).tryCatch hhandler

end Agrees

end Makewright
