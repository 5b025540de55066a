import NixstrCache.Lib.Journal

/-!
Assertions about both ends of a program.

A triple says nothing about the state in which a program has failed.  Here the last assertion speaks of
the result, be it a value or an error, and of the state that is left with it.
-/

namespace NixstrCache.Durable

universe u

variable {σ ε : Type u} {α β : Type u}

/-- Every committed state satisfies `I`, and the result with the last state satisfies `Q`. -/
def Ends (P : σ → Prop) (m : Program σ ε α) (I : σ → Prop) (Q : Except ε α → σ → Prop) : Prop :=
  ∀ s, P s → (∀ t ∈ (m.run s).commits, I t) ∧ Q (m.run s).result ((m.run s).final s)

namespace Ends

variable {P I : σ → Prop} {m : Program σ ε α} {Q : Except ε α → σ → Prop}

theorem pure (a : α) (h : ∀ s, P s → Q (.ok a) s) : Ends P (Pure.pure a : Program σ ε α) I Q :=
  fun s hs => ⟨by simp, h s hs⟩

theorem commit {f : σ → σ} {Q : Except ε PUnit → σ → Prop} (hI : ∀ s, P s → I (f s))
    (hQ : ∀ s, P s → Q (.ok ⟨⟩) (f s)) : Ends P (Program.commit f : Program σ ε PUnit) I Q :=
  fun s hs => ⟨by simpa using hI s hs, hQ s hs⟩

theorem bind {R : Except ε α → σ → Prop} {Q : Except ε β → σ → Prop} {f : α → Program σ ε β}
    (hm : Ends P m I R) (hf : ∀ a, Ends (R (.ok a)) (f a) I Q)
    (herror : ∀ e s, R (.error e) s → Q (.error e) s) : Ends P (m >>= f) I Q := by
  intro s hs
  obtain ⟨hcommits, hresult⟩ := hm s hs
  cases h : (m.run s).result with
  | error e =>
    rw [Program.bind_run_error h]
    exact ⟨hcommits, herror e _ (h ▸ hresult)⟩
  | ok a =>
    obtain ⟨hfcommits, hfresult⟩ := hf a _ (h ▸ hresult)
    rw [Program.bind_run_ok h]
    refine ⟨fun t ht => ?_, ?_⟩
    · rcases List.mem_append.mp ht with ht | ht
      · exact hcommits t ht
      · exact hfcommits t ht
    · have hfinal : ((m.run s).commits ++ ((f a).run ((m.run s).final s)).commits).getLastD s =
          ((f a).run ((m.run s).final s)).final ((m.run s).final s) := Program.final_append _ _ _
      change Q _ (((m.run s).commits ++ ((f a).run ((m.run s).final s)).commits).getLastD s)
      rw [hfinal]
      exact hfresult

theorem read_bind {Q : Except ε β → σ → Prop} {f : σ → Program σ ε β}
    (hf : ∀ s, P s → Ends (fun t => t = s) (f s) I Q) : Ends P (Program.read >>= f) I Q := by
  intro s hs
  rw [Program.bind_read_run]
  exact hf s hs s rfl

end Ends

end NixstrCache.Durable
