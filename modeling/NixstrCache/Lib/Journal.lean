import Mathlib.Data.List.Basic
import Mathlib.Logic.Relation

/-!
Programs over durable state that may stop after any commit.

A `Program` runs from a state and yields the states it commits, oldest first, and the result it
ends with.  A stop between two commits leaves the last committed state behind, so what a restart
can find is the start state or one of `commits`.  A `Triple` carries three assertions: what holds
at the start, what holds of every committed state, and what holds after a normal end.  `Advances`
says instead that a program commits nothing but successors under a relation.
-/

namespace NixstrCache.Durable

universe u v w

variable {σ ε : Type u} {α β : Type u} {γ : Type v}

structure Outcome (σ ε α : Type u) where
  commits : List σ
  result : Except ε α

namespace Outcome

def final (o : Outcome σ ε α) (s : σ) : σ :=
  o.commits.getLastD s

/-- The state that a stop after `k` commits leaves behind. -/
def crash (o : Outcome σ ε α) (s : σ) (k : ℕ) : σ :=
  (o.commits.take k).getLastD s

theorem final_mem (o : Outcome σ ε α) (s : σ) : o.final s = s ∨ o.final s ∈ o.commits := by
  unfold final
  cases h : o.commits with
  | nil => exact Or.inl rfl
  | cons t ts => exact Or.inr (by rw [List.getLastD_cons]; exact List.getLastD_mem_cons ..)

theorem crash_mem (o : Outcome σ ε α) (s : σ) (k : ℕ) :
    o.crash s k = s ∨ o.crash s k ∈ o.commits := by
  unfold crash
  cases h : o.commits.take k with
  | nil => exact Or.inl rfl
  | cons t ts =>
    refine Or.inr (List.mem_of_mem_take (i := k) ?_)
    rw [h, List.getLastD_cons]
    exact List.getLastD_mem_cons ..

/-- The state that is left after the run, or after a stop in the middle of it. -/
def reached (o : Outcome σ ε α) (s : σ) : Option ℕ → σ
  | none => o.final s
  | some k => o.crash s k

theorem reached_mem (o : Outcome σ ε α) (s : σ) (stop : Option ℕ) :
    o.reached s stop = s ∨ o.reached s stop ∈ o.commits := by
  cases stop with
  | none => exact o.final_mem s
  | some k => exact o.crash_mem s k

end Outcome

/-- A program that reads the state it starts in and commits states one after the other. -/
structure Program (σ ε α : Type u) where
  run : σ → Outcome σ ε α

namespace Program

def bind (m : Program σ ε α) (f : α → Program σ ε β) : Program σ ε β where
  run s :=
    match (m.run s).result with
    | .error e => ⟨(m.run s).commits, .error e⟩
    | .ok a =>
      let o := (f a).run ((m.run s).final s)
      ⟨(m.run s).commits ++ o.commits, o.result⟩

instance : Monad (Program σ ε) where
  pure a := ⟨fun _ => ⟨[], .ok a⟩⟩
  bind := bind

def read : Program σ ε σ := ⟨fun s => ⟨[], .ok s⟩⟩

def throw (e : ε) : Program σ ε α := ⟨fun _ => ⟨[], .error e⟩⟩

def commit (f : σ → σ) : Program σ ε PUnit := ⟨fun s => ⟨[f s], .ok ⟨⟩⟩⟩

/-- One transaction whose statements touch nothing but the database: all of it or nothing. -/
def transaction (f : σ → Except ε (α × σ)) : Program σ ε α where
  run s :=
    match f s with
    | .error e => ⟨[], .error e⟩
    | .ok (a, t) => ⟨[t], .ok a⟩

/-- A transaction around a program that also acts outside the database: `rollback s t` is what is
left when the transaction that began in `s` is undone in `t`. -/
def atomically (rollback : σ → σ → σ) (m : Program σ ε α) : Program σ ε α where
  run s :=
    match (m.run s).result with
    | .error e => ⟨(m.run s).commits.map (rollback s), .error e⟩
    | .ok a => ⟨(m.run s).commits.map (rollback s) ++ [(m.run s).final s], .ok a⟩

/-- The result of a program as a value, as `try` and `catch` see it. -/
def attempt (m : Program σ ε α) : Program σ ε (Except ε α) where
  run s := ⟨(m.run s).commits, .ok (m.run s).result⟩

def forEach : List γ → (γ → Program σ ε PUnit) → Program σ ε PUnit
  | [], _ => pure ⟨⟩
  | x :: xs, f => bind (f x) fun _ => forEach xs f

@[simp]
theorem pure_run (a : α) (s : σ) : (Pure.pure a : Program σ ε α).run s = ⟨[], .ok a⟩ :=
  rfl

@[simp]
theorem read_run (s : σ) : (read : Program σ ε σ).run s = ⟨[], .ok s⟩ :=
  rfl

@[simp]
theorem throw_run (e : ε) (s : σ) : (throw e : Program σ ε α).run s = ⟨[], .error e⟩ :=
  rfl

@[simp]
theorem commit_run (f : σ → σ) (s : σ) :
    (commit f : Program σ ε PUnit).run s = ⟨[f s], .ok ⟨⟩⟩ :=
  rfl

theorem commit_final (f : σ → σ) (s : σ) :
    ((commit f : Program σ ε PUnit).run s).final s = f s :=
  rfl

theorem final_append (a b : List σ) (s : σ) :
    (a ++ b).getLastD s = b.getLastD (a.getLastD s) := by
  cases b with
  | nil => simp
  | cons x xs => simp [List.getLastD_eq_getLast?, List.getLast?_append]

theorem bind_run_error {m : Program σ ε α} {f : α → Program σ ε β} {s : σ} {e : ε}
    (h : (m.run s).result = .error e) : (m >>= f).run s = ⟨(m.run s).commits, .error e⟩ := by
  change (bind m f).run s = _
  simp only [bind, h]

theorem bind_run_ok {m : Program σ ε α} {f : α → Program σ ε β} {s : σ} {a : α}
    (h : (m.run s).result = .ok a) :
    (m >>= f).run s = ⟨(m.run s).commits ++ ((f a).run ((m.run s).final s)).commits,
      ((f a).run ((m.run s).final s)).result⟩ := by
  change (bind m f).run s = _
  simp only [bind, h]

theorem bind_result_ok {m : Program σ ε α} {f : α → Program σ ε β} {s : σ} {b : β} :
    ((m >>= f).run s).result = .ok b ↔ ∃ a, (m.run s).result = .ok a ∧
      ((f a).run ((m.run s).final s)).result = .ok b := by
  cases h : (m.run s).result with
  | error e =>
    rw [bind_run_error h]
    simp
  | ok a =>
    rw [bind_run_ok h]
    simp

theorem bind_final {m : Program σ ε α} {f : α → Program σ ε β} {s : σ} {a : α}
    (h : (m.run s).result = .ok a) : ((m >>= f).run s).final s =
      ((f a).run ((m.run s).final s)).final ((m.run s).final s) := by
  rw [bind_run_ok h, Outcome.final, final_append]
  rfl

theorem bind_ends {m : Program σ ε α} {f : α → Program σ ε β} {s : σ} {a : α} {b : β} {P : σ → Prop}
    (hm : (m.run s).result = .ok a) (hf : ((f a).run ((m.run s).final s)).result = .ok b ∧
      P (((f a).run ((m.run s).final s)).final ((m.run s).final s))) :
    ((m >>= f).run s).result = .ok b ∧ P (((m >>= f).run s).final s) := by
  rw [bind_final hm]
  refine ⟨?_, hf.2⟩
  rw [bind_run_ok hm]
  exact hf.1

theorem transaction_run_error {f : σ → Except ε (α × σ)} {s : σ} {e : ε} (h : f s = .error e) :
    (transaction f).run s = ⟨[], .error e⟩ := by
  simp only [transaction, h]

theorem transaction_run_ok {f : σ → Except ε (α × σ)} {s t : σ} {a : α} (h : f s = .ok (a, t)) :
    (transaction f).run s = ⟨[t], .ok a⟩ := by
  simp only [transaction, h]

theorem mem_transaction_commits {f : σ → Except ε (α × σ)} {s t : σ} :
    t ∈ ((transaction f).run s).commits ↔ ∃ a, f s = .ok (a, t) := by
  cases h : f s with
  | error e => simp [transaction_run_error h]
  | ok r => simp [transaction_run_ok (a := r.1) (t := r.2) h, Prod.ext_iff, eq_comm]

theorem atomically_run_error {rollback : σ → σ → σ} {m : Program σ ε α} {s : σ} {e : ε}
    (h : (m.run s).result = .error e) :
    (atomically rollback m).run s = ⟨(m.run s).commits.map (rollback s), .error e⟩ := by
  simp only [atomically, h]

theorem atomically_run_ok {rollback : σ → σ → σ} {m : Program σ ε α} {s : σ} {a : α}
    (h : (m.run s).result = .ok a) :
    (atomically rollback m).run s =
      ⟨(m.run s).commits.map (rollback s) ++ [(m.run s).final s], .ok a⟩ := by
  simp only [atomically, h]

theorem bind_read_run {f : σ → Program σ ε α} (s : σ) : (read >>= f).run s = (f s).run s := by
  rw [bind_run_ok (a := s) rfl]
  rfl

theorem bind_commit_run {g : σ → σ} {f : PUnit → Program σ ε α} (s : σ) :
    (commit g >>= f).run s =
      ⟨g s :: ((f ⟨⟩).run (g s)).commits, ((f ⟨⟩).run (g s)).result⟩ := by
  rw [bind_run_ok (a := PUnit.unit) rfl]
  rfl

structure Logged (σ ν : Type u) where
  state : σ
  log : List ν

/-- The program on the state, with what each of its commits adds to the log. -/
def logged {ν : Type u} (note : σ → σ → List ν) (m : Program σ ε α) :
    Program (Logged σ ν) ε α where
  run w := ⟨(m.run w.state).commits.map fun t => ⟨t, note w.state t ++ w.log⟩, (m.run w.state).result⟩

theorem logged_final {ν : Type u} (note : σ → σ → List ν) (m : Program σ ε α) (w : Logged σ ν) :
    (((logged note m).run w).final w).state = (m.run w.state).final w.state := by
  unfold Outcome.final logged
  rw [List.getLastD_eq_getLast?, List.getLastD_eq_getLast?, List.getLast?_map]
  cases (m.run w.state).commits.getLast? <;> rfl

end Program

section Logs

variable {ν : Type v}

/-- Each entry of a log that has the newest entry first stands in relation `P` to those before it. -/
def Throughout (P : ν → List ν → Prop) (log : List ν) : Prop :=
  ∀ later entry earlier, log = later ++ entry :: earlier → P entry earlier

theorem Throughout.nil (P : ν → List ν → Prop) : Throughout P [] := by
  intro later entry earlier hsplit
  exact absurd hsplit (by simp)

theorem Throughout.cons {P : ν → List ν → Prop} {entry : ν} {log : List ν} (h : Throughout P log)
    (hentry : P entry log) : Throughout P (entry :: log) := by
  intro later entry' earlier hsplit
  cases later with
  | nil =>
    obtain ⟨rfl, rfl⟩ : entry = entry' ∧ log = earlier := by simpa using hsplit
    exact hentry
  | cons first later => exact h later entry' earlier (by simpa using congrArg List.tail hsplit)

theorem Throughout.append {P : ν → List ν → Prop} {entries log : List ν} (h : Throughout P log)
    (hentries : ∀ entry ∈ entries, ∀ earlier, P entry earlier) : Throughout P (entries ++ log) := by
  induction entries with
  | nil => exact h
  | cons entry entries ih =>
    obtain ⟨hentry, hrest⟩ := List.forall_mem_cons.mp hentries
    exact (ih hrest).cons (hentry _)

end Logs

/-- Every committed state satisfies `I`, and a normal end satisfies `Q`. -/
def Triple (P : σ → Prop) (m : Program σ ε α) (I : σ → Prop) (Q : α → σ → Prop) : Prop :=
  ∀ s, P s → (∀ t ∈ (m.run s).commits, I t) ∧ ∀ a, (m.run s).result = .ok a → Q a ((m.run s).final s)

namespace Triple

variable {P P' I I' : σ → Prop} {Q Q' : α → σ → Prop} {m : Program σ ε α}

theorem mono (h : Triple P m I Q) (hP : ∀ s, P' s → P s) (hI : ∀ s, I s → I' s)
    (hQ : ∀ a s, Q a s → Q' a s) : Triple P' m I' Q' := by
  intro s hs
  obtain ⟨hcommits, hresult⟩ := h s (hP s hs)
  exact ⟨fun t ht => hI t (hcommits t ht), fun a ha => hQ a _ (hresult a ha)⟩

theorem pure (a : α) (h : ∀ s, P s → Q a s) : Triple P (Pure.pure a : Program σ ε α) I Q := by
  intro s hs
  refine ⟨by simp, fun b hb => ?_⟩
  obtain rfl : a = b := by simpa using hb
  exact h s hs

theorem read {Q : σ → σ → Prop} (h : ∀ s, P s → Q s s) :
    Triple P (Program.read : Program σ ε σ) I Q := by
  intro s hs
  refine ⟨by simp, fun b hb => ?_⟩
  obtain rfl : s = b := by simpa using hb
  exact h s hs

theorem throw (e : ε) : Triple P (Program.throw e : Program σ ε α) I Q := by
  intro s hs
  exact ⟨by simp, fun a ha => by simp at ha⟩

theorem commit {f : σ → σ} {Q : PUnit → σ → Prop} (hI : ∀ s, P s → I (f s))
    (hQ : ∀ s, P s → Q ⟨⟩ (f s)) : Triple P (Program.commit f : Program σ ε PUnit) I Q := by
  intro s hs
  exact ⟨by simpa using hI s hs, fun _ _ => hQ s hs⟩

theorem transaction {f : σ → Except ε (α × σ)}
    (h : ∀ s a t, P s → f s = .ok (a, t) → I t ∧ Q a t) :
    Triple P (Program.transaction f) I Q := by
  intro s hs
  cases hf : f s with
  | error e =>
    rw [Program.transaction_run_error hf]
    exact ⟨by simp, fun a ha => by simp at ha⟩
  | ok r =>
    obtain ⟨a, t⟩ := r
    obtain ⟨hI, hQ⟩ := h s a t hs hf
    rw [Program.transaction_run_ok hf]
    refine ⟨by simpa using hI, fun b hb => ?_⟩
    obtain rfl : a = b := by simpa using hb
    exact hQ

theorem bind {R : α → σ → Prop} {Q : β → σ → Prop} {f : α → Program σ ε β}
    (hm : Triple P m I R) (hf : ∀ a, Triple (R a) (f a) I Q) : Triple P (m >>= f) I Q := by
  intro s hs
  obtain ⟨hcommits, hresult⟩ := hm s hs
  cases h : (m.run s).result with
  | error e =>
    rw [Program.bind_run_error h]
    exact ⟨hcommits, fun b hb => by simp at hb⟩
  | ok a =>
    obtain ⟨hfc, hfr⟩ := hf a _ (hresult a h)
    rw [Program.bind_run_ok h]
    refine ⟨fun t ht => ?_, fun b hb => ?_⟩
    · rcases List.mem_append.mp ht with ht | ht
      · exact hcommits t ht
      · exact hfc t ht
    · rw [Outcome.final, Program.final_append]
      exact hfr b hb

theorem atomically {rollback : σ → σ → σ}
    (hm : ∀ s, P s → (∀ t ∈ (m.run s).commits, I (rollback s t)) ∧
      ∀ a, (m.run s).result = .ok a → I ((m.run s).final s) ∧ Q a ((m.run s).final s)) :
    Triple P (Program.atomically rollback m) I Q := by
  intro s hs
  obtain ⟨hcommits, hresult⟩ := hm s hs
  have hrolled : ∀ t ∈ (m.run s).commits.map (rollback s), I t := by
    intro t ht
    obtain ⟨u, hu, rfl⟩ := List.mem_map.mp ht
    exact hcommits u hu
  cases h : (m.run s).result with
  | error e =>
    rw [Program.atomically_run_error h]
    exact ⟨hrolled, fun b hb => by simp at hb⟩
  | ok a =>
    obtain ⟨hfI, hfQ⟩ := hresult a h
    rw [Program.atomically_run_ok h]
    refine ⟨fun t ht => ?_, fun b hb => ?_⟩
    · rcases List.mem_append.mp ht with ht | ht
      · exact hrolled t ht
      · rwa [List.mem_singleton.mp ht]
    · obtain rfl : a = b := by simpa using hb
      simpa [Outcome.final, Program.final_append] using hfQ

theorem forEach {J : List γ → σ → Prop} {f : γ → Program σ ε PUnit}
    (h : ∀ x xs, Triple (J (x :: xs)) (f x) I fun _ => J xs) (xs : List γ) :
    Triple (J xs) (Program.forEach xs f) I fun _ => J [] := by
  induction xs with
  | nil => exact Triple.pure PUnit.unit fun s hs => hs
  | cons x xs ih => exact Triple.bind (h x xs) fun _ => ih

theorem logged {ν : Type u} {note : σ → σ → List ν} {log : List ν} (h : Triple P m I Q)
    (hnote : ∀ s t, note s t = []) :
    Triple (fun w => P w.state ∧ w.log = log) (m.logged note) (fun w => I w.state ∧ w.log = log)
      fun a w => Q a w.state ∧ w.log = log := by
  rintro w ⟨hw, rfl⟩
  obtain ⟨hcommits, hresult⟩ := h w.state hw
  have hlog : ∀ k ∈ ((m.logged note).run w).commits, k.log = w.log := by
    intro k hk
    obtain ⟨t, -, rfl⟩ := List.mem_map.mp hk
    simp [hnote]
  refine ⟨fun k hk => ⟨?_, hlog k hk⟩, fun a ha => ⟨?_, ?_⟩⟩
  · obtain ⟨t, ht, rfl⟩ := List.mem_map.mp hk
    exact hcommits t ht
  · exact Program.logged_final note m w ▸ hresult a ha
  · rcases ((m.logged note).run w).final_mem w with hfinal | hfinal
    · rw [hfinal]
    · exact hlog _ hfinal

end Triple

/-- Every commit keeps `I`. -/
def Preserves (I : σ → Prop) (m : Program σ ε α) : Prop :=
  Triple I m I fun _ => I

namespace Preserves

variable {I : σ → Prop} {m : Program σ ε α}

theorem of_commits (h : ∀ s, I s → ∀ t ∈ (m.run s).commits, I t) : Preserves I m := by
  intro s hs
  refine ⟨h s hs, fun a _ => ?_⟩
  rcases (m.run s).final_mem s with hfinal | hfinal
  · rwa [hfinal]
  · exact h s hs _ hfinal

theorem pure (a : α) : Preserves I (Pure.pure a : Program σ ε α) :=
  Triple.pure a fun _ hs => hs

theorem read : Preserves I (Program.read : Program σ ε σ) :=
  Triple.read fun _ hs => hs

theorem throw (e : ε) : Preserves I (Program.throw e : Program σ ε α) :=
  Triple.throw e

theorem commit {f : σ → σ} (h : ∀ s, I s → I (f s)) :
    Preserves I (Program.commit f : Program σ ε PUnit) :=
  Triple.commit h h

theorem transaction {f : σ → Except ε (α × σ)} (h : ∀ s a t, I s → f s = .ok (a, t) → I t) :
    Preserves I (Program.transaction f) :=
  Triple.transaction fun s a t hs hf => ⟨h s a t hs hf, h s a t hs hf⟩

theorem bind {f : α → Program σ ε β} (hm : Preserves I m) (hf : ∀ a, Preserves I (f a)) :
    Preserves I (m >>= f) :=
  Triple.bind hm hf

theorem bind_result {f : α → Program σ ε β} (hm : Preserves I m)
    (hf : ∀ s a, (m.run s).result = .ok a → Preserves I (f a)) : Preserves I (m >>= f) := by
  have hresult : Triple I m I fun a t => I t ∧ ∃ s, (m.run s).result = .ok a :=
    fun s hs => ⟨(hm s hs).1, fun a ha => ⟨(hm s hs).2 a ha, s, ha⟩⟩
  refine Triple.bind hresult fun a t ht => ?_
  obtain ⟨ht, s, ha⟩ := ht
  exact hf s a ha t ht

theorem attempt (h : Preserves I m) : Preserves I m.attempt :=
  of_commits fun s hs => (h s hs).1

theorem forEach {f : γ → Program σ ε PUnit} {xs : List γ} (h : ∀ x ∈ xs, Preserves I (f x)) :
    Preserves I (Program.forEach xs f) := by
  induction xs with
  | nil => exact pure PUnit.unit
  | cons x xs ih =>
    obtain ⟨hx, hxs⟩ := List.forall_mem_cons.mp h
    exact bind hx fun _ => ih hxs

theorem final (h : Preserves I m) {s : σ} (hs : I s) : I ((m.run s).final s) := by
  rcases (m.run s).final_mem s with hfinal | hfinal
  · rwa [hfinal]
  · exact (h s hs).1 _ hfinal

theorem crash (h : Preserves I m) {s : σ} (hs : I s) (k : ℕ) : I ((m.run s).crash s k) := by
  rcases (m.run s).crash_mem s k with hcrash | hcrash
  · rwa [hcrash]
  · exact (h s hs).1 _ hcrash

end Preserves

/-- From every state of `P` the program ends normally. -/
def Returns (P : σ → Prop) (m : Program σ ε α) : Prop :=
  ∀ s, P s → ∃ a, (m.run s).result = .ok a

namespace Returns

variable {P I : σ → Prop} {m : Program σ ε α}

theorem pure (a : α) : Returns P (Pure.pure a : Program σ ε α) :=
  fun _ _ => ⟨a, rfl⟩

theorem read : Returns P (Program.read : Program σ ε σ) :=
  fun s _ => ⟨s, rfl⟩

theorem commit (f : σ → σ) : Returns P (Program.commit f : Program σ ε PUnit) :=
  fun _ _ => ⟨⟨⟩, rfl⟩

theorem bind {R : α → σ → Prop} {f : α → Program σ ε β} (hm : Returns P m) (ht : Triple P m I R)
    (hf : ∀ a, Returns (R a) (f a)) : Returns P (m >>= f) := by
  intro s hs
  obtain ⟨a, ha⟩ := hm s hs
  obtain ⟨b, hb⟩ := hf a _ ((ht s hs).2 a ha)
  exact ⟨b, by rw [Program.bind_run_ok ha, hb]⟩

theorem read_bind {f : σ → Program σ ε α} (hf : ∀ s, Returns P (f s)) :
    Returns P (Program.read >>= f) := by
  intro s hs
  rw [Program.bind_read_run]
  exact hf s s hs

theorem forEach {f : γ → Program σ ε PUnit} {xs : List γ} (hkeep : ∀ x ∈ xs, Preserves I (f x))
    (hf : ∀ x ∈ xs, Returns I (f x)) : Returns I (Program.forEach xs f) := by
  induction xs with
  | nil => exact pure PUnit.unit
  | cons x xs ih =>
    obtain ⟨hx, hxs⟩ := List.forall_mem_cons.mp hf
    obtain ⟨hkx, hkxs⟩ := List.forall_mem_cons.mp hkeep
    exact bind hx hkx fun _ => ih hkxs hxs

end Returns

/-- A loop that ends has ended every round, each from a state of `I`. -/
theorem Program.forEach_ok {I : σ → Prop} {f : γ → Program σ ε PUnit} {xs : List γ}
    (hkeep : ∀ x ∈ xs, Preserves I (f x)) {s : σ} (hs : I s)
    (h : ((Program.forEach xs f).run s).result = .ok ⟨⟩) :
    ∀ x ∈ xs, ∃ t, I t ∧ ((f x).run t).result = .ok ⟨⟩ := by
  induction xs generalizing s with
  | nil => simp
  | cons x xs ih =>
    obtain ⟨hx, hxs⟩ := List.forall_mem_cons.mp hkeep
    obtain ⟨⟨⟩, hfirst, hrest⟩ := Program.bind_result_ok.mp h
    exact List.forall_mem_cons.mpr ⟨⟨s, hs, hfirst⟩, ih hxs (hx.final hs) hrest⟩

/-- From `s`, every committed state is reached from the one before it by steps of `R`. -/
def AdvancesFrom (R : σ → σ → Prop) (s : σ) (m : Program σ ε α) : Prop :=
  ∀ t ∈ (m.run s).commits, Relation.ReflTransGen R s t

def Advances (R : σ → σ → Prop) (m : Program σ ε α) : Prop :=
  ∀ s, AdvancesFrom R s m

namespace AdvancesFrom

variable {R : σ → σ → Prop} {m : Program σ ε α} {s : σ}

theorem pure (a : α) : AdvancesFrom R s (Pure.pure a : Program σ ε α) := by
  intro t ht
  simp at ht

theorem throw (e : ε) : AdvancesFrom R s (Program.throw e : Program σ ε α) := by
  intro t ht
  simp at ht

theorem commit {f : σ → σ} (h : R s (f s)) :
    AdvancesFrom R s (Program.commit f : Program σ ε PUnit) := by
  intro t ht
  obtain rfl : t = f s := by simpa using ht
  exact Relation.ReflTransGen.single h

theorem transaction {f : σ → Except ε (α × σ)} (h : ∀ a t, f s = .ok (a, t) → R s t) :
    AdvancesFrom R s (Program.transaction f) := by
  intro t ht
  cases hf : f s with
  | error e => simp [Program.transaction_run_error hf] at ht
  | ok r =>
    obtain ⟨a, u⟩ := r
    obtain rfl : t = u := by simpa [Program.transaction_run_ok hf] using ht
    exact Relation.ReflTransGen.single (h a t hf)

theorem read_bind {f : σ → Program σ ε α} (h : AdvancesFrom R s (f s)) :
    AdvancesFrom R s (Program.read >>= f) := by
  intro t ht
  rw [Program.bind_read_run] at ht
  exact h t ht

theorem final (h : AdvancesFrom R s m) : Relation.ReflTransGen R s ((m.run s).final s) := by
  rcases (m.run s).final_mem s with hfinal | hfinal
  · rw [hfinal]
  · exact h _ hfinal

theorem crash (h : AdvancesFrom R s m) (k : ℕ) :
    Relation.ReflTransGen R s ((m.run s).crash s k) := by
  rcases (m.run s).crash_mem s k with hcrash | hcrash
  · rw [hcrash]
  · exact h _ hcrash

theorem bind {f : α → Program σ ε β} (hm : AdvancesFrom R s m)
    (hf : ∀ a, (m.run s).result = .ok a → AdvancesFrom R ((m.run s).final s) (f a)) :
    AdvancesFrom R s (m >>= f) := by
  intro t ht
  cases h : (m.run s).result with
  | error e => exact hm t (by simpa [Program.bind_run_error h] using ht)
  | ok a =>
    rw [Program.bind_run_ok h] at ht
    rcases List.mem_append.mp ht with ht | ht
    · exact hm t ht
    · exact hm.final.trans (hf a h t ht)

theorem commit_bind {g : σ → σ} {f : PUnit → Program σ ε α} (hg : R s (g s))
    (hf : AdvancesFrom R (g s) (f ⟨⟩)) : AdvancesFrom R s (Program.commit g >>= f) :=
  bind (commit hg) fun _ _ => hf

end AdvancesFrom

namespace Advances

variable {R R' : σ → σ → Prop}

theorem mono {m : Program σ ε α} (hR : ∀ s t, R s t → R' s t) (h : Advances R m) :
    Advances R' m :=
  fun s t ht => Relation.ReflTransGen.mono hR s t (h s t ht)

theorem bind {m : Program σ ε α} {f : α → Program σ ε β} (hm : Advances R m)
    (hf : ∀ a, Advances R (f a)) : Advances R (m >>= f) :=
  fun s => (hm s).bind fun a _ => hf a _

theorem logged {ν : Type u} {m : Program σ ε α} {note : σ → σ → List ν}
    {I : Program.Logged σ ν → Prop} (h : Advances R m)
    (hR : ∀ s t log, Relation.ReflTransGen R s t → I ⟨s, log⟩ → I ⟨t, note s t ++ log⟩) :
    Preserves I (m.logged note) := by
  refine Preserves.of_commits fun j hj k hk => ?_
  obtain ⟨t, ht, rfl⟩ := List.mem_map.mp hk
  exact hR j.state t j.log (h j.state t ht) hj

theorem forEach {f : γ → Program σ ε PUnit} (h : ∀ x, Advances R (f x)) (xs : List γ) :
    Advances R (Program.forEach xs f) := by
  induction xs with
  | nil => exact fun s => AdvancesFrom.pure PUnit.unit
  | cons x xs ih => exact bind (h x) fun _ => ih

end Advances

end NixstrCache.Durable
