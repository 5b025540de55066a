import Mathlib.Tactic.SplitIfs

/-!
Programs that keep their state when they fail.

A program is a state transformer that returns a value or an error, in both cases with the state that it
has reached.  There are three kinds of facts: the state that a program leaves behind is related to the one
it has started in, what it returns satisfies a relation, and under one bound it does what it does under
another one.  Each kind has a rule for sequences.
-/

namespace NixstrCache.Programs

variable {ε σ α β : Type} {p q : EStateM ε σ α} {f g : α → EStateM ε σ β} {s t : σ}

/-- The state in which a program stops. -/
def final (p : EStateM ε σ α) (s : σ) : σ :=
  match p s with
  | .ok _ t => t
  | .error _ t => t

theorem final_ok {a : α} (h : p s = .ok a t) : final p s = t := by
  rw [final, h]

theorem final_error {e : ε} (h : p s = .error e t) : final p s = t := by
  rw [final, h]

def returned (p : EStateM ε σ α) (s : σ) : Option α :=
  match p s with
  | .ok a _ => some a
  | .error _ _ => none

theorem returned_eq_some {a : α} : returned p s = some a ↔ ∃ t, p s = .ok a t := by
  rw [returned]
  cases p s with
  | ok b u =>
    constructor
    · exact fun h => ⟨u, by rw [Option.some.inj h]⟩
    · rintro ⟨t, h⟩
      rw [(EStateM.Result.ok.inj h).1]
  | error e u => simp

theorem bind_ok {b : β} : (p >>= f) s = .ok b t ↔ ∃ a u, p s = .ok a u ∧ f a u = .ok b t := by
  change EStateM.bind p f s = _ ↔ _
  rw [EStateM.bind]
  cases p s with
  | ok a u =>
    constructor
    · exact fun h => ⟨a, u, rfl, h⟩
    · rintro ⟨a, u, heq, h⟩
      cases heq
      exact h
  | error e u => simp

theorem bind_error {e : ε} : (p >>= f) s = .error e t ↔
    p s = .error e t ∨ ∃ a u, p s = .ok a u ∧ f a u = .error e t := by
  change EStateM.bind p f s = _ ↔ _
  rw [EStateM.bind]
  cases p s with
  | ok a u =>
    constructor
    · exact fun h => Or.inr ⟨a, u, rfl, h⟩
    · rintro (heq | ⟨a, u, heq, h⟩)
      · exact nomatch heq
      · cases heq
        exact h
  | error e u => simp

theorem bind_eq {a : α} {u : σ} (h : p s = .ok a u) : (p >>= f) s = f a u := by
  change EStateM.bind p f s = _
  rw [EStateM.bind, h]

theorem bind_from (h : p s = p t) : (p >>= f) s = (p >>= f) t := by
  change EStateM.bind p f s = EStateM.bind p f t
  rw [EStateM.bind, EStateM.bind, h]

theorem get_bind {f : σ → EStateM ε σ β} : (get >>= f) s = f s s :=
  rfl

/-- However the program stops, the last state is related to the first one. -/
def Keeps (R : σ → σ → Prop) (p : EStateM ε σ α) : Prop :=
  ∀ s, R s (final p s)

theorem final_bind_ok {a : α} {u : σ} (h : p s = .ok a u) : final (p >>= f) s = final (f a) u := by
  rw [final, bind_eq h, final]

theorem bind_keeps {R S T : σ → σ → Prop} (hp : R s (final p s))
    (hf : ∀ a u, p s = .ok a u → S u (final (f a) u)) (hstop : ∀ t, R s t → T s t)
    (hgo : ∀ t u, R s t → S t u → T s u) : T s (final (p >>= f) s) := by
  cases hps : p s with
  | ok a u =>
    rw [final_ok hps] at hp
    rw [final_bind_ok hps]
    exact hgo u _ hp (hf a u hps)
  | error e u =>
    rw [final_error hps] at hp
    rw [final_error (bind_error.mpr (Or.inl hps))]
    exact hstop u hp

theorem Keeps.bind_of {R S T : σ → σ → Prop} (hp : Keeps R p) (hf : ∀ a, Keeps S (f a))
    (hstop : ∀ s t, R s t → T s t) (hgo : ∀ s t u, R s t → S t u → T s u) : Keeps T (p >>= f) :=
  fun s => bind_keeps (hp s) (fun a u _ => hf a u) (hstop s) (hgo s)

theorem Keeps.bind_at {R : σ → σ → Prop} (htrans : ∀ s t u, R s t → R t u → R s u)
    (hp : R s (final p s)) (hf : ∀ a u, p s = .ok a u → R u (final (f a) u)) :
    R s (final (p >>= f) s) :=
  bind_keeps hp hf (fun _ h => h) (htrans s)

theorem Keeps.bind {R : σ → σ → Prop} (htrans : ∀ s t u, R s t → R t u → R s u) (hp : Keeps R p)
    (hf : ∀ a, Keeps R (f a)) : Keeps R (p >>= f) :=
  hp.bind_of hf (fun _ _ h => h) htrans

theorem Keeps.bind_still {R : σ → σ → Prop} (hp : Keeps R p)
    (hf : ∀ a, Keeps (fun s t => t = s) (f a)) : Keeps R (p >>= f) :=
  hp.bind_of hf (fun _ _ h => h) fun _ _ _ h heq => heq ▸ h

theorem Keeps.mono {R S : σ → σ → Prop} (hp : Keeps R p) (h : ∀ s t, R s t → S s t) : Keeps S p :=
  fun s => h s _ (hp s)

theorem Keeps.pure {R : σ → σ → Prop} (hrefl : ∀ s, R s s) (a : α) :
    Keeps R (Pure.pure a : EStateM ε σ α) :=
  hrefl

theorem Keeps.throw {R : σ → σ → Prop} (hrefl : ∀ s, R s s) (e : ε) :
    Keeps R (MonadExcept.throw e : EStateM ε σ α) :=
  hrefl

theorem Keeps.get {R : σ → σ → Prop} (hrefl : ∀ s, R s s) :
    Keeps R (MonadState.get : EStateM ε σ σ) :=
  hrefl

theorem Keeps.ite {R : σ → σ → Prop} {c : Prop} [Decidable c] (hp : Keeps R p) (hq : Keeps R q) :
    Keeps R (if c then p else q) := by
  split_ifs
  · exact hp
  · exact hq

/-- What a program returns satisfies one condition, and what it fails with another one. -/
def Meets (p : EStateM ε σ α) (s : σ) (Q : α → σ → Prop) (E : ε → σ → Prop) : Prop :=
  match p s with
  | .ok a t => Q a t
  | .error e t => E e t

section Meets

variable {Q Q' : α → σ → Prop} {E E' : ε → σ → Prop}

theorem Meets.ok {a : α} (h : Meets p s Q E) (hp : p s = .ok a t) : Q a t := by
  rwa [Meets, hp] at h

theorem Meets.error {e : ε} (h : Meets p s Q E) (hp : p s = .error e t) : E e t := by
  rwa [Meets, hp] at h

theorem meets_iff : Meets p s Q E ↔
    (∀ a t, p s = .ok a t → Q a t) ∧ ∀ e t, p s = .error e t → E e t := by
  constructor
  · exact fun h => ⟨fun a t => h.ok, fun e t => h.error⟩
  · rintro ⟨hok, herror⟩
    rw [Meets]
    cases hp : p s with
    | ok a t => exact hok a t hp
    | error e t => exact herror e t hp

theorem Meets.bind {Q : β → σ → Prop} (h : Meets p s (fun a u => Meets (f a) u Q E) E) :
    Meets (p >>= f) s Q E := by
  rw [meets_iff]
  refine ⟨fun b t hb => ?_, fun e t he => ?_⟩
  · obtain ⟨a, u, ha, hb⟩ := bind_ok.mp hb
    exact (h.ok ha).ok hb
  · rcases bind_error.mp he with he | ⟨a, u, ha, he⟩
    · exact h.error he
    · exact (h.ok ha).error he

theorem Meets.mono (h : Meets p s Q E) (hQ : ∀ a t, Q a t → Q' a t) (hE : ∀ e t, E e t → E' e t) :
    Meets p s Q' E' :=
  meets_iff.mpr ⟨fun a t ha => hQ a t (h.ok ha), fun e t he => hE e t (h.error he)⟩

theorem Meets.andThen {S : β → σ → Prop} (hp : Meets p s Q E)
    (hf : ∀ a u, Q a u → Meets (f a) u S E) : Meets (p >>= f) s S E :=
  .bind (hp.mono hf fun _ _ he => he)

theorem Meets.running (h : Meets p s Q E) : Meets p s (fun a t => p s = .ok a t ∧ Q a t) E :=
  meets_iff.mpr ⟨fun _ _ ha => ⟨ha, h.ok ha⟩, fun _ _ he => h.error he⟩

end Meets

/-- Where the second program returns in a fitting state, it has started in one, and the first program
does the same. -/
def Follows (fits : σ → Prop) (p q : EStateM ε σ α) : Prop :=
  ∀ s a t, q s = .ok a t → fits t → fits s ∧ p s = .ok a t

section Follows

variable {fits : σ → Prop}

theorem Follows.bind {g : α → EStateM ε σ β} (hp : Follows fits p q)
    (hf : ∀ a, Follows fits (f a) (g a)) : Follows fits (p >>= f) (q >>= g) := by
  intro s b t h hfits
  obtain ⟨a, u, ha, h⟩ := bind_ok.mp h
  obtain ⟨hu, hrest⟩ := hf a u b t h hfits
  obtain ⟨hs, hfirst⟩ := hp s a u ha hu
  exact ⟨hs, bind_ok.mpr ⟨a, u, hfirst, hrest⟩⟩

theorem Follows.same (h : ∀ s a t, p s = .ok a t → fits t → fits s) : Follows fits p p :=
  fun s a t hp hfits => ⟨h s a t hp hfits, hp⟩

theorem Follows.pure (a : α) : Follows fits (Pure.pure a : EStateM ε σ α) (Pure.pure a) :=
  .same fun _ _ _ h hfits => (EStateM.Result.ok.inj h).2 ▸ hfits

theorem Follows.get : Follows fits (MonadState.get : EStateM ε σ σ) MonadState.get :=
  .same fun _ _ _ h hfits => (EStateM.Result.ok.inj h).2 ▸ hfits

theorem Follows.throw (e : ε) :
    Follows fits (MonadExcept.throw e : EStateM ε σ α) (MonadExcept.throw e) :=
  .same fun _ _ _ h => nomatch h

theorem Follows.ite {c : Prop} [Decidable c] {p' q' : EStateM ε σ α} (hp : Follows fits p q)
    (hp' : Follows fits p' q') : Follows fits (if c then p else p') (if c then q else q') := by
  split_ifs
  · exact hp
  · exact hp'

end Follows

def Avoids (e : ε) (p : EStateM ε σ α) : Prop :=
  ∀ s t, p s ≠ .error e t

theorem Avoids.bind_ok {e : ε} (hp : Avoids e p)
    (hf : ∀ s a u, p s = .ok a u → Avoids e (f a)) : Avoids e (p >>= f) := by
  intro s t h
  rcases bind_error.mp h with h | ⟨a, u, ha, h⟩
  · exact hp s t h
  · exact hf s a u ha u t h

theorem Avoids.bind {e : ε} (hp : Avoids e p) (hf : ∀ a, Avoids e (f a)) : Avoids e (p >>= f) :=
  hp.bind_ok fun _ a _ _ => hf a

theorem Avoids.pure {e : ε} (a : α) : Avoids e (Pure.pure a : EStateM ε σ α) :=
  fun _ _ h => nomatch h

theorem Avoids.get {e : ε} : Avoids e (MonadState.get : EStateM ε σ σ) :=
  fun _ _ h => nomatch h

theorem Avoids.throw {e e' : ε} (h : e' ≠ e) : Avoids e (MonadExcept.throw e' : EStateM ε σ α) :=
  fun _ _ heq => h (EStateM.Result.error.inj heq).1

theorem Avoids.ite {e : ε} {c : Prop} [Decidable c] (hp : Avoids e p) (hq : Avoids e q) :
    Avoids e (if c then p else q) := by
  split_ifs
  · exact hp
  · exact hq

end NixstrCache.Programs
