import CompactCollections.Capacity
/-!
# Results of operations that may fail

Every operation that may fail returns an `Except`, and its answer is built by `Except.map` or by
a `do` block. The lemmas here take such a result apart: a success came from successes at every
step, and a failure mapped into an answer is the failure it came from. Proofs about the
operations peel their results with these lemmas and never unfold the monad.

A history of a collection is a run of its operations (`CompactCollections.runSteps`), each on the
state the one before it left, ended by the first failure; what every step keeps, the whole run
keeps (`CompactCollections.runSteps_invariant`).
-/

namespace CompactCollections

variable {ε α β : Type}

/-- A result mapped into an answer came from a result. -/
theorem ok_of_map_ok {f : α → β} {x : Except ε α} {b : β}
    (h : x.map f = .ok b) : ∃ a, x = .ok a ∧ f a = b := by
  cases x with
  | error e => cases h
  | ok a => exact ⟨a, rfl, Except.ok.inj h⟩

/-- A failure mapped into an answer is the failure it came from. -/
theorem error_of_map_error {f : α → β} {x : Except ε α} {e : ε}
    (h : x.map f = .error e) : x = .error e := by
  cases x with
  | error e' => cases h; rfl
  | ok a => cases h

/-- A success of two steps is a success of the first, then of the second. -/
theorem ok_of_bind_ok {x : Except ε α} {f : α → Except ε β} {b : β}
    (h : x >>= f = .ok b) : ∃ a, x = .ok a ∧ f a = .ok b := by
  cases x with
  | error e => cases h
  | ok a => exact ⟨a, rfl, h⟩

/-- A failure of two steps is a failure of the first, or a failure of the second after a
success of the first. -/
theorem error_of_bind_error {x : Except ε α} {f : α → Except ε β} {e : ε}
    (h : x >>= f = .error e) : x = .error e ∨ ∃ a, x = .ok a ∧ f a = .error e := by
  cases x with
  | error e' => cases h; exact .inl rfl
  | ok a => exact .inr ⟨a, rfl, h⟩

/-- A success with its failures renamed is a success. -/
theorem ok_of_mapError_ok {ε' : Type} {g : ε → ε'} {x : Except ε α} {a : α}
    (h : x.mapError g = .ok a) : x = .ok a := by
  cases x with
  | error e => cases h
  | ok a' => cases h; rfl

/-- A failure with its failures renamed is a renamed failure. -/
theorem error_of_mapError_error {ε' : Type} {g : ε → ε'} {x : Except ε α} {e' : ε'}
    (h : x.mapError g = .error e') : ∃ e, x = .error e ∧ g e = e' := by
  cases x with
  | error e => exact ⟨e, rfl, Except.error.inj h⟩
  | ok a => cases h

/-- The machine-word sum is the sum when it succeeds. -/
theorem ok_of_abortOnStop {x : Except Stop α} {a : α} (h : abortOnStop x = .ok a) : x = .ok a := by
  cases x with
  | error s => cases h
  | ok b => cases h; rfl

theorem error_of_abortOnStop {x : Except Stop α} {e : Abort} (h : abortOnStop x = .error e) :
    ∃ s, x = .error s ∧ e = s.toAbort := by
  cases x with
  | error s => cases h; exact ⟨s, rfl, rfl⟩
  | ok b => cases h

/-- A result that succeeds with a value passing a test, checked on the result as a whole. -/
theorem exists_ok_of_any {x : Except ε α} {p : α → Bool} (h : x.toOption.any p = true) :
    ∃ a, x = .ok a ∧ p a = true := by
  cases x with
  | error e => cases h
  | ok a => exact ⟨a, rfl, h⟩

/-! ### Runs of steps -/

section Runs

variable {S O : Type} (run : O → S → Except ε (α × S))

/-- Runs steps one after another, each on the state the one before it left, and keeps the last
state; the first failure ends the run. -/
def runSteps : List O → S → Except ε S
  | [], s => .ok s
  | op :: ops, s =>
    match run op s with
    | .ok (_, s') => runSteps ops s'
    | .error e => .error e

variable {run}

theorem runSteps_cons_ok {op : O} {ops : List O} {s s' : S} (h : runSteps run (op :: ops) s = .ok s') :
    ∃ a s₁, run op s = .ok (a, s₁) ∧ runSteps run ops s₁ = .ok s' := by
  simp only [runSteps] at h
  split at h
  · exact ⟨_, _, ‹_›, h⟩
  · cases h

theorem runSteps_cons_of_ok {op : O} {ops : List O} {s s₁ : S} {a : α} (h : run op s = .ok (a, s₁)) :
    runSteps run (op :: ops) s = runSteps run ops s₁ := by
  simp only [runSteps, h]

/-- What every successful step keeps, every successful run keeps. -/
theorem runSteps_invariant {P : S → Prop} (hstep : ∀ op s a s', P s → run op s = .ok (a, s') → P s')
    {ops : List O} {s s' : S} (h : P s) (hrun : runSteps run ops s = .ok s') : P s' := by
  -- along the steps, each from the state the one before it left
  induction ops generalizing s with
  | nil => cases hrun; exact h
  | cons op ops ih =>
    obtain ⟨a, s₁, hop, hrest⟩ := runSteps_cons_ok hrun
    exact ih (hstep op s a s₁ h hop) hrest

end Runs

theorem Capacity.wordSum_ok {n k m : Nat} (h : Capacity.wordSum n k = .ok m) : m = n + k := by
  unfold Capacity.wordSum at h
  split at h
  · cases h
  · cases h
    rfl

end CompactCollections
