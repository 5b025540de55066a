import Mathlib.Data.List.Basic

/-!
Runs of deterministic labelled transition systems.

A system is a total step function `step : σ → ℓ → σ`.  The environment chooses a finite list of
labels, so a statement about `run step s ls` for every `ls` speaks about every state of every run,
because a prefix of a run is a run.  `Always` restricts the environment step by step: the condition
of each label is evaluated in the state before the label is taken.
-/

namespace NixstrCache.Runs

variable {σ ℓ : Type*} {step : σ → ℓ → σ}

/-- The state reached after the labels have been taken from left to right. -/
def run (step : σ → ℓ → σ) (s : σ) (labels : List ℓ) : σ :=
  labels.foldl step s

@[simp]
theorem run_nil (step : σ → ℓ → σ) (s : σ) : run step s [] = s :=
  rfl

@[simp]
theorem run_cons (step : σ → ℓ → σ) (s : σ) (label : ℓ) (labels : List ℓ) :
    run step s (label :: labels) = run step (step s label) labels :=
  rfl

theorem run_append (step : σ → ℓ → σ) (s : σ) (first second : List ℓ) :
    run step s (first ++ second) = run step (run step s first) second := by
  simp [run]

theorem run_snoc (step : σ → ℓ → σ) (s : σ) (labels : List ℓ) (label : ℓ) :
    run step s (labels ++ [label]) = step (run step s labels) label := by
  simp [run]

/-- Every label of the run is taken in a state that satisfies its condition. -/
def Always (step : σ → ℓ → σ) (C : σ → ℓ → Prop) : σ → List ℓ → Prop
  | _, [] => True
  | s, label :: labels => C s label ∧ Always step C (step s label) labels

@[simp]
theorem always_nil (C : σ → ℓ → Prop) (s : σ) : Always step C s [] := by
  simp [Always]

@[simp]
theorem always_cons (C : σ → ℓ → Prop) (s : σ) (label : ℓ) (labels : List ℓ) :
    Always step C s (label :: labels) ↔ C s label ∧ Always step C (step s label) labels :=
  Iff.rfl

theorem always_append (C : σ → ℓ → Prop) (s : σ) (first second : List ℓ) :
    Always step C s (first ++ second) ↔
      Always step C s first ∧ Always step C (run step s first) second := by
  induction first generalizing s with
  | nil => simp
  | cons label labels ih => simp [ih, and_assoc]

instance decidableAlways (step : σ → ℓ → σ) (C : σ → ℓ → Prop) [∀ s label, Decidable (C s label)] :
    (s : σ) → (labels : List ℓ) → Decidable (Always step C s labels)
  | _, [] => inferInstanceAs (Decidable True)
  | s, label :: labels =>
    have := decidableAlways step C (step s label) labels
    inferInstanceAs (Decidable (C s label ∧ Always step C (step s label) labels))

theorem run_invariant {I : σ → Prop} {C : σ → ℓ → Prop}
    (hstep : ∀ s label, I s → C s label → I (step s label)) {s : σ} {labels : List ℓ}
    (hs : I s) (hC : Always step C s labels) : I (run step s labels) := by
  induction labels generalizing s with
  | nil => simpa using hs
  | cons label labels ih =>
    obtain ⟨hlabel, hrest⟩ := hC
    exact ih (hstep s label hs hlabel) hrest

theorem run_preserves {I : σ → Prop} (hstep : ∀ s label, I s → I (step s label))
    {s : σ} (labels : List ℓ) (hs : I s) : I (run step s labels) := by
  induction labels generalizing s with
  | nil => simpa using hs
  | cons label labels ih => exact ih (hstep s label hs)

/-- Where a second system does the same whenever it reaches a good state, a run of it that ends in a
good state is a run of the first system. -/
theorem run_follows {step' : σ → ℓ → σ} {good : σ → Prop}
    (hstep : ∀ s label, good (step' s label) → good s ∧ step s label = step' s label) {s : σ}
    {labels : List ℓ} (h : good (run step' s labels)) :
    good s ∧ run step s labels = run step' s labels := by
  induction labels generalizing s with
  | nil => exact ⟨h, rfl⟩
  | cons label labels ih =>
    obtain ⟨hgood, hrest⟩ := ih h
    obtain ⟨hs, hsame⟩ := hstep s label hgood
    refine ⟨hs, ?_⟩
    rw [run_cons, run_cons, hsame, hrest]

theorem run_of_labels {I : σ → Prop} {C : ℓ → Prop}
    (hstep : ∀ s label, I s → C label → I (step s label)) {s : σ} {labels : List ℓ} (hs : I s)
    (hC : ∀ label ∈ labels, C label) : I (run step s labels) := by
  induction labels generalizing s with
  | nil => exact hs
  | cons label labels ih =>
    apply ih (hstep s label hs (hC label (by simp)))
    intro other hother
    exact hC other (List.mem_cons_of_mem _ hother)

theorem run_related {R : σ → σ → Prop} {C : ℓ → Prop}
    (hstep : ∀ s t label, R s t → C label → R (step s label) (step t label)) {s t : σ}
    {labels : List ℓ} (hst : R s t) (hC : ∀ label ∈ labels, C label) :
    R (run step s labels) (run step t labels) := by
  induction labels generalizing s t with
  | nil => exact hst
  | cons label labels ih =>
    apply ih (hstep s t label hst (hC label (by simp)))
    intro other hother
    exact hC other (List.mem_cons_of_mem _ hother)

theorem always_of_invariant {I : σ → Prop} {C P : σ → ℓ → Prop}
    (hstep : ∀ s label, I s → C s label → I (step s label))
    (hP : ∀ s label, I s → C s label → P s label) {s : σ} {labels : List ℓ}
    (hs : I s) (hC : Always step C s labels) : Always step P s labels := by
  induction labels generalizing s with
  | nil => simp
  | cons label labels ih =>
    obtain ⟨hlabel, hrest⟩ := hC
    exact ⟨hP s label hs hlabel, ih (hstep s label hs hlabel) hrest⟩

/-- When a step keeps an invariant exactly under a condition, the invariant holds in every state of a
run exactly when every step meets the condition. -/
theorem invariant_iff_always {I : σ → Prop} {C : σ → ℓ → Prop}
    (hstep : ∀ s label, I s → (I (step s label) ↔ C s label)) {s : σ} {labels : List ℓ} (hs : I s) :
    (∀ n, I (run step s (labels.take n))) ↔ Always step C s labels := by
  induction labels generalizing s with
  | nil => simpa using hs
  | cons label labels ih =>
    have hnext : (∀ n, I (run step s ((label :: labels).take n))) ↔
        ∀ n, I (run step (step s label) (labels.take n)) := by
      refine ⟨fun h n => h (n + 1), fun h n => ?_⟩
      cases n with
      | zero => exact hs
      | succ n => exact h n
    rw [hnext, always_cons, ← hstep s label hs]
    refine ⟨fun h => ?_, fun h => (ih h.1).mpr h.2⟩
    have hlabel : I (step s label) := by simpa using h 0
    exact ⟨hlabel, (ih hlabel).mp h⟩

/-- A reflexive and transitive relation between a state and its successor relates a state to every
later state of the run. -/
theorem run_relates {I : σ → Prop} {C : σ → ℓ → Prop} {R : σ → σ → Prop}
    (hrefl : ∀ s, R s s) (htrans : ∀ {a b c}, R a b → R b c → R a c)
    (hstep : ∀ s label, I s → C s label → I (step s label))
    (hR : ∀ s label, I s → C s label → R s (step s label)) {s : σ} {labels : List ℓ}
    (hs : I s) (hC : Always step C s labels) : R s (run step s labels) := by
  induction labels generalizing s with
  | nil => exact hrefl s
  | cons label labels ih =>
    obtain ⟨hlabel, hrest⟩ := hC
    exact htrans (hR s label hs hlabel) (ih (hstep s label hs hlabel) hrest)

end NixstrCache.Runs
