import Mathlib.Data.List.Dedup
import Mathlib.Logic.Function.Iterate

/-!
Iterations that end.

`drain` takes steps until one yields a result, and a measure that falls with every step bounds the
fuel it needs.  `spread` adds to a list the sources of the edges whose targets it holds, and as many
rounds as there are edges reach everything that can be reached.
-/

namespace NixstrCache.Rounds

section Drain

variable {σ β : Type*} {step : σ → σ ⊕ β}

def drain (step : σ → σ ⊕ β) : ℕ → σ → Option β
  | 0, _ => none
  | fuel + 1, s =>
    match step s with
    | .inl t => drain step fuel t
    | .inr b => some b

theorem drain_spec {I : σ → Prop} (hstep : ∀ s t, I s → step s = .inl t → I t) {fuel : ℕ} {s : σ}
    {b : β} (hs : I s) (h : drain step fuel s = some b) : ∃ t, I t ∧ step t = .inr b := by
  induction fuel generalizing s with
  | zero => simp [drain] at h
  | succ fuel ih =>
    unfold drain at h
    cases hnext : step s with
    | inl t =>
      rw [hnext] at h
      exact ih (hstep s t hs hnext) h
    | inr c =>
      rw [hnext, Option.some.injEq] at h
      subst h
      exact ⟨s, hs, hnext⟩

theorem drain_isSome {I : σ → Prop} {μ : σ → ℕ}
    (hstep : ∀ s t, I s → step s = .inl t → I t ∧ μ t < μ s) {fuel : ℕ} {s : σ} (hs : I s)
    (hfuel : μ s < fuel) : ∃ b, drain step fuel s = some b := by
  induction fuel generalizing s with
  | zero => omega
  | succ fuel ih =>
    unfold drain
    cases hnext : step s with
    | inl t =>
      obtain ⟨ht, hlt⟩ := hstep s t hs hnext
      exact ih ht (by omega)
    | inr b => exact ⟨b, rfl⟩

end Drain

section Spread

variable {α ρ : Type*} [DecidableEq α] (edges : List ρ) (source target : ρ → α)

def spread (found : List α) : List α :=
  (found ++ (edges.filter fun e => target e ∈ found).map source).dedup

variable {edges source target} {found : List α}

theorem mem_spread {x : α} : x ∈ spread edges source target found ↔
    x ∈ found ∨ ∃ e ∈ edges, target e ∈ found ∧ source e = x := by
  simp [spread, and_assoc]

def Closed (edges : List ρ) (source target : ρ → α) (found : List α) : Prop :=
  ∀ e ∈ edges, target e ∈ found → source e ∈ found

theorem Closed.spread (h : Closed edges source target found) :
    Closed edges source target (spread edges source target found) := by
  have hsame : ∀ x, x ∈ Rounds.spread edges source target found → x ∈ found := by
    intro x hx
    rcases mem_spread.mp hx with hx | ⟨e, he, htarget, rfl⟩
    · exact hx
    · exact h e he htarget
  intro e he htarget
  exact mem_spread.mpr (Or.inl (h e he (hsame _ htarget)))

/-- The number of edges that start outside. -/
def missing (edges : List ρ) (source : ρ → α) (found : List α) : ℕ :=
  (edges.filter fun e => source e ∉ found).length

theorem missing_spread (h : ¬Closed edges source target found) :
    missing edges source (spread edges source target found) < missing edges source found := by
  unfold Closed at h
  push Not at h
  obtain ⟨e, he, htarget, hsource⟩ := h
  unfold missing
  have hsub : ∀ x, source x ∉ spread edges source target found → source x ∉ found := by
    intro x hx hin
    exact hx (mem_spread.mpr (Or.inl hin))
  have hfilter : (edges.filter fun x => source x ∉ spread edges source target found) =
      (edges.filter fun x => source x ∉ found).filter fun x =>
        source x ∉ spread edges source target found := by
    rw [List.filter_filter]
    apply List.filter_congr
    intro x _
    by_cases hx : source x ∈ spread edges source target found <;> simp [hx]
    exact hsub x hx
  rw [hfilter]
  apply List.length_filter_lt_length_iff_exists.mpr
  refine ⟨e, by simp [he, hsource], ?_⟩
  have hin : source e ∈ spread edges source target found :=
    mem_spread.mpr (Or.inr ⟨e, he, htarget, rfl⟩)
  simp [hin]

theorem iterate_closed_or (seed : List α) (k : ℕ) :
    Closed edges source target ((spread edges source target)^[k] seed) ∨
      missing edges source ((spread edges source target)^[k] seed) + k ≤ edges.length := by
  induction k with
  | zero => exact Or.inr (List.length_filter_le _ _)
  | succ k ih =>
    rw [Function.iterate_succ_apply']
    by_cases hclosed : Closed edges source target ((spread edges source target)^[k] seed)
    · exact Or.inl hclosed.spread
    · right
      rcases ih with hold | hold
      · exact absurd hold hclosed
      · have hlt := missing_spread hclosed
        omega

theorem iterate_closed (seed : List α) :
    Closed edges source target ((spread edges source target)^[edges.length] seed) := by
  rcases iterate_closed_or seed edges.length with hclosed | hmissing
  · exact hclosed
  · intro e he _
    by_contra hout
    have hpos : 0 < missing edges source ((spread edges source target)^[edges.length] seed) := by
      apply List.length_pos_of_mem (a := e)
      simp [he, hout]
    omega

theorem mem_iterate_seed {x : α} {seed : List α} (h : x ∈ seed) (k : ℕ) :
    x ∈ (spread edges source target)^[k] seed := by
  induction k with
  | zero => exact h
  | succ k ih =>
    rw [Function.iterate_succ_apply']
    exact mem_spread.mpr (Or.inl ih)

end Spread

end NixstrCache.Rounds
