import Mathlib.Logic.Basic

/-!
# Two-sided postconditions of failing computations

A computation that may fail has two kinds of ends: a returned value and a raised
error. A postcondition names what is promised of each, so one law covers both
the values a procedure delivers and the errors it is allowed to raise. An error
that the second part rules out is thereby proved never to occur.

The composition rule threads the promise through sequencing. It needs the
continuation's law only for values the first part can deliver.
-/

namespace UnixCommons.Outcome

universe u v
variable {ε : Type u} {α β : Type v}

instance decidableForallOk (outcome : Except ε α) (good : α → Prop) [DecidablePred good] :
    Decidable (∀ value, outcome = .ok value → good value) :=
  match outcome with
  | .ok value => decidable_of_iff (good value)
    ⟨fun holds _ same => Except.ok.inj same ▸ holds, fun holds => holds value rfl⟩
  | .error _ => .isTrue fun _ same => nomatch same

theorem ok_bind (value : α) (next : α → Except ε β) : (Except.ok value >>= next) = next value := rfl

theorem error_bind (failure : ε) (next : α → Except ε β) :
    (Except.error failure >>= next) = .error failure := rfl

variable {first outcome : Except ε α} {next : α → Except ε β}

/-- A sequence returns what its second part returns for what its first part returned. -/
theorem bind_ok_iff {value : β} :
    (first >>= next) = .ok value ↔ ∃ middle, first = .ok middle ∧ next middle = .ok value := by
  cases first with
  | ok | error => simp [bind, Except.bind]

theorem map_ok_iff {change : α → β} {value : β} :
    (change <$> first) = .ok value ↔ ∃ middle, first = .ok middle ∧ change middle = value := by
  cases first with
  | ok | error => simp [Functor.map, Except.map]

/-- A sequence returns if its second part does for what its first part returned. -/
theorem bind_isOk_iff :
    (first >>= next).isOk = true ↔ ∃ middle, first = .ok middle ∧ (next middle).isOk = true := by
  cases first with
  | ok middle => simp [bind, Except.bind]
  | error failure => simp [bind, Except.bind, Except.toBool]

/-- A check in front of a computation. -/
theorem check_bind_ok_iff {γ : Type} {check : Except ε Unit} {next : Unit → Except ε γ} {value : γ} :
    (check >>= next) = .ok value ↔ check = .ok () ∧ next () = .ok value := by
  cases check with
  | ok | error => simp [bind, Except.bind]

/-- A returned value satisfies `good`; a raised error satisfies `bad`. -/
def Ends (outcome : Except ε α) (good : α → Prop) (bad : ε → Prop) : Prop :=
  match outcome with
  | .ok value => good value
  | .error failure => bad failure

@[simp] theorem ends_ok (value : α) (good : α → Prop) (bad : ε → Prop) :
    Ends (.ok value : Except ε α) good bad ↔ good value := Iff.rfl

@[simp] theorem ends_error (failure : ε) (good : α → Prop) (bad : ε → Prop) :
    Ends (.error failure : Except ε α) good bad ↔ bad failure := Iff.rfl

variable {bad : ε → Prop}

/-- Sequencing: errors of the first part are raised as they are, and the second
part starts from a value the first one promised. -/
theorem Ends.bind {middle : α → Prop} {good : β → Prop} (head : Ends first middle bad)
    (tail : ∀ value, middle value → Ends (next value) good bad) :
    Ends (first >>= next) good bad := by
  cases first with
  | ok value => exact tail value head
  | error failure => exact head

/-- Both parts of a postcondition may be weakened. -/
theorem Ends.mono {good good' : α → Prop} {bad' : ε → Prop} (ends : Ends outcome good bad)
    (value : ∀ result, good result → good' result) (failure : ∀ raised, bad raised → bad' raised) :
    Ends outcome good' bad' := by
  cases outcome with
  | ok result => exact value result ends
  | error raised => exact failure raised ends

/-- What a returned value satisfies. -/
theorem Ends.of_ok {good : α → Prop} {value : α} (ends : Ends outcome good bad)
    (returned : outcome = .ok value) : good value := by
  subst returned
  exact ends

/-- An outcome that cannot be a value is a raised error. -/
theorem Ends.raised {good : α → Prop} (ends : Ends outcome good bad)
    (never : ∀ value, ¬ good value) : ∃ failure, outcome = .error failure ∧ bad failure := by
  cases outcome with
  | ok value => exact absurd ends (never value)
  | error failure => exact ⟨failure, rfl, ends⟩

end UnixCommons.Outcome
