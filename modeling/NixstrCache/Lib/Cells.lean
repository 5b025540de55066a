import Mathlib.Data.List.Nodup
import NixstrCache.Lib.Journal

/-!
Sweeps over a state that is seen as a family of cells.

A program acts on one cell when it changes that cell by a partial function, leaves every other cell
alone, and fails exactly where the function is undefined.  A loop over items with different cells
then succeeds exactly when each item succeeds on the cell it finds at the start, and afterwards
each cell holds what its own item made of it.
-/

namespace NixstrCache.Durable

universe u v w

variable {σ ε : Type u} {κ : Type v} {ν : Type w} {γ : Type v}

/-- Started in `s`, the program changes the cell `k` by `f` and no other cell. -/
def ActsAt [DecidableEq κ] (cell : σ → κ → ν) (m : Program σ ε PUnit) (k : κ)
    (f : ν → Option ν) (s : σ) : Prop :=
  (f (cell s k) = none → ∃ e, (m.run s).result = .error e) ∧
    ∀ v, f (cell s k) = some v → (m.run s).result = .ok ⟨⟩ ∧
      ∀ x, cell ((m.run s).final s) x = if x = k then v else cell s x

/-- Wherever it starts, the program acts on the cell `k` by `f`. -/
def ActsOn [DecidableEq κ] (cell : σ → κ → ν) (m : Program σ ε PUnit) (k : κ)
    (f : ν → Option ν) : Prop :=
  ∀ s, ActsAt cell m k f s

namespace ActsAt

variable [DecidableEq κ] {cell : σ → κ → ν} {m : Program σ ε PUnit} {k : κ} {f : ν → Option ν}
  {s : σ}

theorem pure (hf : f (cell s k) = some (cell s k)) :
    ActsAt cell (Pure.pure ⟨⟩ : Program σ ε PUnit) k f s := by
  refine ⟨fun h => by simp [hf] at h, fun v hv => ⟨rfl, fun x => ?_⟩⟩
  obtain rfl : cell s k = v := Option.some.inj (hf.symm.trans hv)
  split_ifs with hx
  · rw [hx]
    rfl
  · rfl

theorem throw {e : ε} (hf : f (cell s k) = none) :
    ActsAt cell (Program.throw e : Program σ ε PUnit) k f s :=
  ⟨fun _ => ⟨e, rfl⟩, fun v hv => by simp [hf] at hv⟩

theorem commit {g : σ → σ} {v : ν} (hg : ∀ x, cell (g s) x = if x = k then v else cell s x)
    (hf : f (cell s k) = some v) : ActsAt cell (Program.commit g : Program σ ε PUnit) k f s := by
  refine ⟨fun h => by simp [hf] at h, fun w hw => ⟨rfl, fun x => ?_⟩⟩
  obtain rfl : v = w := Option.some.inj (hf.symm.trans hw)
  exact hg x

theorem read_bind {r : σ → Program σ ε PUnit} (h : ActsAt cell (r s) k f s) :
    ActsAt cell (Program.read >>= r) k f s := by
  unfold ActsAt at h ⊢
  rw [Program.bind_read_run]
  exact h

theorem commit_bind {g : σ → σ} {v : ν} {e : ν → Option ν} {r : PUnit → Program σ ε PUnit}
    (hg : ∀ x, cell (g s) x = if x = k then v else cell s x)
    (hr : ActsAt cell (r ⟨⟩) k e (g s)) (hf : f (cell s k) = e v) :
    ActsAt cell (Program.commit g >>= r) k f s := by
  have hk : cell (g s) k = v := by rw [hg, if_pos rfl]
  unfold ActsAt at hr ⊢
  rw [hk, ← hf] at hr
  rw [Program.bind_commit_run]
  refine ⟨hr.1, fun w hw => ⟨(hr.2 w hw).1, fun x => ?_⟩⟩
  have hcell := (hr.2 w hw).2 x
  rw [hg] at hcell
  rw [Outcome.final, List.getLastD_cons]
  rw [Outcome.final] at hcell
  rw [hcell]
  split_ifs <;> rfl

theorem transaction_error {t : σ → Except ε (PUnit × σ)} {e : ε} (ht : t s = .error e)
    (hf : f (cell s k) = none) : ActsAt cell (Program.transaction t) k f s := by
  unfold ActsAt
  rw [Program.transaction_run_error ht]
  exact ⟨fun _ => ⟨e, rfl⟩, fun v hv => by simp [hf] at hv⟩

theorem transaction_ok {t : σ → Except ε (PUnit × σ)} {u : σ} {v : ν} (ht : t s = .ok (⟨⟩, u))
    (hg : ∀ x, cell u x = if x = k then v else cell s x) (hf : f (cell s k) = some v) :
    ActsAt cell (Program.transaction t) k f s := by
  unfold ActsAt
  rw [Program.transaction_run_ok ht]
  refine ⟨fun h => by simp [hf] at h, fun w hw => ⟨rfl, fun x => ?_⟩⟩
  obtain rfl : v = w := Option.some.inj (hf.symm.trans hw)
  exact hg x

end ActsAt

section Sweep

variable [DecidableEq κ] {cell : σ → κ → ν} {key : γ → κ} {m : γ → Program σ ε PUnit}
  {f : γ → ν → Option ν} {items : List γ}

theorem forEach_ok (hkeys : (items.map key).Nodup)
    (hacts : ∀ i ∈ items, ActsOn cell (m i) (key i) (f i)) (s : σ) :
    ((Program.forEach items m).run s).result = .ok ⟨⟩ ↔
      ∀ i ∈ items, (f i (cell s (key i))).isSome = true := by
  induction items generalizing s with
  | nil => simp [Program.forEach]
  | cons i rest ih =>
    rw [List.map_cons, List.nodup_cons] at hkeys
    obtain ⟨hi, hrest⟩ := List.forall_mem_cons.mp hacts
    obtain ⟨hnone, hsome⟩ := hi s
    change ((m i >>= fun _ => Program.forEach rest m).run s).result = _ ↔ _
    rw [List.forall_mem_cons]
    cases hf : f i (cell s (key i)) with
    | none =>
      obtain ⟨e, he⟩ := hnone hf
      rw [Program.bind_run_error he]
      simp
    | some v =>
      obtain ⟨hok, hcells⟩ := hsome v hf
      rw [Program.bind_run_ok hok]
      simp only [Option.isSome_some, true_and]
      rw [ih hkeys.2 hrest]
      refine forall₂_congr fun j hj => ?_
      rw [hcells, if_neg]
      rintro hkey
      exact hkeys.1 (hkey ▸ List.mem_map_of_mem hj)

theorem forEach_cells (hkeys : (items.map key).Nodup)
    (hacts : ∀ i ∈ items, ActsOn cell (m i) (key i) (f i)) {s : σ}
    (hok : ((Program.forEach items m).run s).result = .ok ⟨⟩) :
    (∀ i ∈ items, f i (cell s (key i)) =
        some (cell (((Program.forEach items m).run s).final s) (key i))) ∧
      ∀ x, x ∉ items.map key → cell (((Program.forEach items m).run s).final s) x = cell s x := by
  induction items generalizing s with
  | nil => exact ⟨by simp, fun x _ => rfl⟩
  | cons i rest ih =>
    rw [List.map_cons, List.nodup_cons] at hkeys
    obtain ⟨hi, hrest⟩ := List.forall_mem_cons.mp hacts
    obtain ⟨hnone, hsome⟩ := hi s
    change ((m i >>= fun _ => Program.forEach rest m).run s).result = _ at hok
    change (∀ j ∈ i :: rest, f j (cell s (key j)) =
        some (cell (((m i >>= fun _ => Program.forEach rest m).run s).final s) (key j))) ∧
      ∀ x, x ∉ (i :: rest).map key →
        cell (((m i >>= fun _ => Program.forEach rest m).run s).final s) x = cell s x
    cases hf : f i (cell s (key i)) with
    | none =>
      obtain ⟨e, he⟩ := hnone hf
      rw [Program.bind_run_error he] at hok
      simp at hok
    | some v =>
      obtain ⟨hfirst, hcells⟩ := hsome v hf
      rw [Program.bind_run_ok hfirst] at hok ⊢
      obtain ⟨hitems, hothers⟩ := ih hkeys.2 hrest hok
      have hfinal : (⟨((m i).run s).commits ++
            ((Program.forEach rest m).run (((m i).run s).final s)).commits,
            ((Program.forEach rest m).run (((m i).run s).final s)).result⟩ :
            Outcome σ ε PUnit).final s =
          ((Program.forEach rest m).run (((m i).run s).final s)).final (((m i).run s).final s) :=
        Program.final_append _ _ _
      rw [hfinal]
      refine ⟨List.forall_mem_cons.mpr ⟨?_, fun j hj => ?_⟩, fun x hx => ?_⟩
      · rw [hothers _ hkeys.1, hcells, if_pos rfl, hf]
      · rw [← hitems j hj, hcells, if_neg]
        rintro hkey
        exact hkeys.1 (hkey ▸ List.mem_map_of_mem hj)
      · rw [List.map_cons, List.mem_cons, not_or] at hx
        rw [hothers x hx.2, hcells, if_neg hx.1]

/-- The change of a cell by the item that its slot holds, if any. -/
def slotted (slot : ν → Option γ) (f : γ → ν → Option ν) (v : ν) : Option ν :=
  match slot v with
  | none => some v
  | some i => f i v

variable {slot : ν → Option γ} {s : σ}

/-- The program succeeds exactly when `F` is defined on every cell, and then applies it to each. -/
structure Sweeps (cell : σ → κ → ν) (m : Program σ ε PUnit) (F : ν → Option ν) (s : σ) : Prop where
  ok : (m.run s).result = .ok ⟨⟩ ↔ ∀ x, (F (cell s x)).isSome = true
  cells : (m.run s).result = .ok ⟨⟩ → ∀ x, F (cell s x) = some (cell ((m.run s).final s) x)

omit [DecidableEq κ] in
theorem Sweeps.bind {m : Program σ ε PUnit} {n : PUnit → Program σ ε PUnit} {F G : ν → Option ν}
    {s : σ} (hm : Sweeps cell m F s) (hn : Sweeps cell (n ⟨⟩) G ((m.run s).final s)) :
    Sweeps cell (m >>= n) (fun v => (F v).bind G) s where
  ok := by
    rw [Program.bind_result_ok]
    constructor
    · rintro ⟨⟨⟩, hfirst, hsecond⟩ x
      rw [hm.cells hfirst x]
      exact hn.ok.mp hsecond x
    · intro h
      have hfirst : (m.run s).result = .ok ⟨⟩ := hm.ok.mpr fun x => by
        obtain ⟨v, hv⟩ := Option.isSome_iff_exists.mp (h x)
        obtain ⟨u, hu, -⟩ := Option.bind_eq_some_iff.mp hv
        rw [hu]
        rfl
      refine ⟨⟨⟩, hfirst, hn.ok.mpr fun x => ?_⟩
      have hx := h x
      rw [hm.cells hfirst x] at hx
      exact hx
  cells := by
    intro hok x
    obtain ⟨⟨⟩, hfirst, hsecond⟩ := Program.bind_result_ok.mp hok
    rw [Program.bind_final hfirst, hm.cells hfirst x]
    exact hn.cells hsecond x

omit [DecidableEq κ] in
theorem Sweeps.read_bind {r : σ → Program σ ε PUnit} {F : ν → Option ν} {s : σ}
    (h : Sweeps cell (r s) F s) : Sweeps cell (Program.read >>= r) F s := by
  constructor
  · rw [Program.bind_read_run]
    exact h.ok
  · rw [Program.bind_read_run]
    exact h.cells

omit [DecidableEq κ] in
theorem Sweeps.commit_bind {g : σ → σ} {r : PUnit → Program σ ε PUnit} {F : ν → Option ν} {s : σ}
    (hg : ∀ x, cell (g s) x = cell s x) (h : Sweeps cell (r ⟨⟩) F (g s)) :
    Sweeps cell (Program.commit g >>= r) F s := by
  constructor
  · rw [Program.bind_commit_run, h.ok]
    simp only [hg]
  · rw [Program.bind_commit_run]
    intro hok x
    rw [← hg x, h.cells hok x, Outcome.final, Outcome.final, List.getLastD_cons]

variable {slot : ν → Option γ} {s : σ}

theorem forEach_sweeps (hkeys : (items.map key).Nodup)
    (hacts : ∀ i ∈ items, ActsOn cell (m i) (key i) (f i))
    (hslot : ∀ x i, slot (cell s x) = some i ↔ i ∈ items ∧ key i = x) :
    Sweeps cell (Program.forEach items m) (slotted slot f) s where
  ok := by
    rw [forEach_ok hkeys hacts]
    constructor
    · intro h x
      unfold slotted
      cases hx : slot (cell s x) with
      | none => rfl
      | some i =>
        obtain ⟨hi, rfl⟩ := (hslot x i).mp hx
        exact h i hi
    · intro h i hi
      have hx := h (key i)
      unfold slotted at hx
      rw [(hslot (key i) i).mpr ⟨hi, rfl⟩] at hx
      exact hx
  cells := by
    intro hok x
    obtain ⟨hitems, hothers⟩ := forEach_cells hkeys hacts hok
    unfold slotted
    cases hx : slot (cell s x) with
    | none =>
      rw [hothers x]
      intro hmem
      obtain ⟨i, hi, hkey⟩ := List.mem_map.mp hmem
      rw [(hslot x i).mpr ⟨hi, hkey⟩] at hx
      cases hx
    | some i =>
      obtain ⟨hi, rfl⟩ := (hslot x i).mp hx
      exact hitems i hi

end Sweep

end NixstrCache.Durable
