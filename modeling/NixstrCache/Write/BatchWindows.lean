import NixstrCache.Lib.Runs
import NixstrCache.Write.BatchScheduler

/-!
The publication windows over every run of the scheduler.

A dirty mark stays under the open window until a claim moves it into a batch of at least its
generation.  A token is spent by its claim, and while a window is open a running scheduler has both
of its timers armed.
-/

namespace NixstrCache.Write.BatchScheduler

open Durable KeyedTable Runs Persistence Persistence.WriteRepository

section Logs

def dirtyTimes (log : List Mark) (token : ℕ) : List ℕ :=
  log.filterMap fun
    | .dirtied t _ now => if t = token then some now else none
    | _ => none

def claims (log : List Mark) : List WindowClaim :=
  log.filterMap fun
    | .claimed claim => some claim
    | _ => none

def Mark.quiet : Mark → Prop
  | .dirtied _ _ _ | .claimed _ => False
  | _ => True

variable {log entries : List Mark}

@[simp]
theorem claims_dirtied (token generation now : ℕ) :
    claims (.dirtied token generation now :: log) = claims log :=
  rfl

@[simp]
theorem claims_claimed (claim : WindowClaim) : claims (.claimed claim :: log) = claim :: claims log :=
  rfl

@[simp]
theorem dirtyTimes_claimed (claim : WindowClaim) (token : ℕ) :
    dirtyTimes (.claimed claim :: log) token = dirtyTimes log token :=
  rfl

theorem dirtyTimes_same (token generation now : ℕ) :
    dirtyTimes (.dirtied token generation now :: log) token = now :: dirtyTimes log token := by
  simp [dirtyTimes]

theorem dirtyTimes_eq_nil {token : ℕ}
    (h : ∀ t generation now, .dirtied t generation now ∈ log → t ≠ token) :
    dirtyTimes log token = [] := by
  apply List.filterMap_eq_nil_iff.mpr
  intro mark hmark
  cases mark with
  | dirtied t generation now => simp [h t generation now hmark]
  | _ => rfl

theorem claims_quiet (h : ∀ mark ∈ entries, mark.quiet) : claims (entries ++ log) = claims log := by
  have hnil : claims entries = [] := by
    apply List.filterMap_eq_nil_iff.mpr
    intro mark hmark
    cases mark with
    | claimed claim => exact absurd (h _ hmark) id
    | _ => rfl
  rw [claims, List.filterMap_append]
  exact (congrArg (· ++ claims log) hnil).trans (List.nil_append _)

theorem dirtyTimes_quiet (h : ∀ mark ∈ entries, mark.quiet) (token : ℕ) :
    dirtyTimes (entries ++ log) token = dirtyTimes log token := by
  have hnil : dirtyTimes entries token = [] := by
    apply dirtyTimes_eq_nil
    intro t generation now hmark
    exact absurd (h _ hmark) id
  rw [dirtyTimes, List.filterMap_append]
  exact (congrArg (· ++ dirtyTimes log token) hnil).trans (List.nil_append _)

theorem dirtied_of_quiet (h : ∀ mark ∈ entries, mark.quiet) {token generation now : ℕ}
    (hmark : .dirtied token generation now ∈ entries ++ log) :
    .dirtied token generation now ∈ log := by
  rcases List.mem_append.mp hmark with hmark | hmark
  · exact absurd (h _ hmark) id
  · exact hmark

end Logs

section Windows

def Covered (log : List Mark) (s : WriteRepository) (generation : ℕ) : Prop :=
  (∃ window, s.activePublicationWindow = some window ∧ generation ≤ window.generation) ∨
    ∃ claim ∈ claims log, generation ≤ claim.batch.generation

def WindowClaim.Exact (claim : WindowClaim) : Prop :=
  claim.entries = claim.overlay.map (fun r =>
    ⟨claim.batch.id, r.generation, r.route, r.digest, r.size, r.path⟩) ∧
  ∀ r ∈ claim.overlay, r.generation = claim.batch.generation

structure Windowed (log : List Mark) (s : WriteRepository) : Prop where
  window : WindowInvariant s
  covered : ∀ token generation now, .dirtied token generation now ∈ log → Covered log s generation
  marked : ∀ token generation now, .dirtied token generation now ∈ log →
    token < s.clock.nextToken
  once : ((claims log).map fun claim => claim.batch.token).Nodup
  spent : ∀ claim ∈ claims log, claim.batch.token < s.clock.nextToken ∧
    s.clock.activeToken ≠ some claim.batch.token
  times : ∀ window, s.activePublicationWindow = some window →
    (dirtyTimes log window.token).head? = some window.lastDirtyAt ∧
    (dirtyTimes log window.token).getLast? = some window.openedAt
  frozen : ∀ claim ∈ claims log, claim.Exact

variable {s t : WriteRepository} {log entries : List Mark}

theorem Windowed.keeps (h : Windowed log s) (hst : KeepsWindow s t)
    (hentries : ∀ mark ∈ entries, mark.quiet) : Windowed (entries ++ log) t where
  window := h.window.keeps hst
  covered token generation now hmark := by
    have hcovered := h.covered token generation now (dirtied_of_quiet hentries hmark)
    simpa only [Covered, hst.activePublicationWindow, claims_quiet hentries] using hcovered
  marked token generation now hmark := by
    have hlt := h.marked token generation now (dirtied_of_quiet hentries hmark)
    simpa only [hst.clock] using hlt
  once := by
    rw [claims_quiet hentries]
    exact h.once
  spent := by
    rw [claims_quiet hentries, hst.clock]
    exact h.spent
  times := by
    simp only [hst.activePublicationWindow, dirtyTimes_quiet hentries]
    exact h.times
  frozen := by
    rw [claims_quiet hentries]
    exact h.frozen

theorem window_of_token (h : WindowInvariant s) {token : ℕ}
    (htoken : s.clock.activeToken = some token) :
    ∃ window, s.activePublicationWindow = some window ∧ window.token = token := by
  rcases h.whole with ⟨hnone, -⟩ | ⟨window, hwindow⟩
  · simp [hnone] at htoken
  · have hactive := (activePublicationWindow_eq.mp hwindow).1
    exact ⟨window, hwindow, Option.some.inj (hactive.symm.trans htoken)⟩

theorem Windowed.dirty (h : Windowed log s) (generation now : ℕ) (baseRoot : Option String) :
    Windowed (.dirtied (s.dirtyWindow now).token generation now :: log)
      (s.markDirty generation now baseRoot) := by
  have hwindow := h.window.dirty generation now baseRoot
  have hopen := markDirty_window (s := s) generation now baseRoot
  have hnext : s.clock.nextToken ≤ (s.markDirty generation now baseRoot).clock.nextToken := by
    cases hactive : s.clock.activeToken <;> simp [markDirty, hactive]
  refine ⟨hwindow, fun token g time hmark => ?_, fun token g time hmark => ?_, h.once,
    fun claim hclaim => ?_, fun window hw => ?_, h.frozen⟩
  · rcases List.mem_cons.mp hmark with hmark | hmark
    · obtain ⟨-, rfl, -⟩ := Mark.dirtied.inj hmark
      exact Or.inl ⟨_, hopen, le_max_left _ _⟩
    · rcases h.covered token g time hmark with ⟨window, hw, hle⟩ | hclaimed
      · have hgeneration := (activePublicationWindow_eq.mp hw).2.1
        refine Or.inl ⟨_, hopen, ?_⟩
        have hmax : (s.dirtied generation now baseRoot).generation =
            max generation window.generation := by
          simp only [dirtied, hgeneration, Option.getD_some]
        rw [hmax]
        exact hle.trans (le_max_right _ _)
      · exact Or.inr hclaimed
  · rcases List.mem_cons.mp hmark with hmark | hmark
    · obtain ⟨rfl, -, -⟩ := Mark.dirtied.inj hmark
      exact (hwindow.fresh _ rfl).1
    · exact (h.marked token g time hmark).trans_le hnext
  · obtain ⟨hlt, hne⟩ := h.spent claim hclaim
    refine ⟨hlt.trans_le hnext, fun htoken => ?_⟩
    have htoken : s.clock.activeToken.getD s.clock.nextToken = claim.batch.token := by
      simpa [markDirty] using htoken
    cases hactive : s.clock.activeToken with
    | none =>
      rw [hactive, Option.getD_none] at htoken
      omega
    | some token =>
      rw [hactive, Option.getD_some] at htoken
      exact hne (htoken ▸ hactive)
  · obtain rfl : s.dirtied generation now baseRoot = window := Option.some.inj (hopen.symm.trans hw)
    rw [show (s.dirtied generation now baseRoot).token = (s.dirtyWindow now).token from rfl,
      dirtyTimes_same]
    refine ⟨rfl, ?_⟩
    change _ = some (s.clock.openedAt.getD now)
    cases hactive : s.clock.activeToken with
    | none =>
      have hopened : s.clock.openedAt = none := by
        rcases h.window.whole with ⟨-, -, hopened⟩ | ⟨window, hw⟩
        · exact hopened
        · simp [(activePublicationWindow_eq.mp hw).1] at hactive
      have hnil : dirtyTimes log (s.dirtyWindow now).token = [] := by
        apply dirtyTimes_eq_nil
        intro t g time hmark heq
        have hlt := h.marked t g time hmark
        have htoken : (s.dirtyWindow now).token = s.clock.nextToken := by
          simp only [dirtyWindow, hactive, Option.getD_none]
        omega
      rw [hnil, hopened]
      rfl
    | some token =>
      obtain ⟨window, hw, rfl⟩ := window_of_token h.window hactive
      have htoken : (s.dirtyWindow now).token = window.token := by
        simp only [dirtyWindow, hactive, Option.getD_some]
      have hopened := (activePublicationWindow_eq.mp hw).2.2.1
      obtain ⟨-, hlast⟩ := h.times window hw
      rw [htoken, hopened, Option.getD_some, List.getLast?_cons, hlast]
      rfl

theorem noteBatch_frozen (h : WindowInvariant s) {row : BatchRow} (hf : Frozen s t row) :
    ∃ claim : WindowClaim, claim.batch = row ∧ claim.Exact ∧ noteBatch s t = [.claimed claim] := by
  have hid := hf.id
  have hrow : row ∈ t.batches.rows := by
    rw [hf.batches]
    exact List.mem_append_right _ (List.mem_singleton.mpr rfl)
  have hentries : (t.batchEntries.rows.filter fun e => e.batchId = row.id) =
      s.frozenEntries row.id row.generation := by
    have hold : (s.batchEntries.rows.filter fun e => e.batchId = row.id) = [] := by
      apply List.filter_eq_nil_iff.mpr
      intro e he
      have hle := h.entries e he
      simp only [decide_eq_true_eq]
      omega
    have hnew : ((s.frozenEntries row.id row.generation).filter fun e => e.batchId = row.id) =
        s.frozenEntries row.id row.generation := by
      apply List.filter_eq_self.mpr
      intro e he
      obtain ⟨r, -, rfl⟩ := List.mem_map.mp he
      simp
    rw [hf.entries, List.filter_append, hold, hnew, List.nil_append]
  refine ⟨⟨row, t.batchEntries.rows.filter fun e => e.batchId = row.id,
    s.overlayEntries.rows.filter fun r => some r.generation = s.clock.generation⟩, rfl, ⟨?_, ?_⟩, ?_⟩
  · rw [hentries, frozenEntries, hf.generation]
    simp only [Option.some.injEq]
  · intro r hr
    have hgeneration := of_decide_eq_true (List.mem_filter.mp hr).2
    rw [hf.generation] at hgeneration
    exact Option.some.inj hgeneration
  · have hne : t.batchSequence ≠ s.batchSequence := by
      rw [hf.batchSequence]
      omega
    have hfind : t.batches.find? t.batchSequence = some row := by
      rw [hf.batchSequence]
      exact Table.find?_key hrow
    rw [noteBatch, if_neg hne, hfind]
    rfl

theorem frozen_closes {row : BatchRow} (h : Frozen s t row) : t.activePublicationWindow = none := by
  simp [activePublicationWindow, h.clock, closedClock, initialClock]

theorem Windowed.claim (h : Windowed log s) {row : BatchRow} (hf : Frozen s t row) :
    Windowed (noteBatch s t ++ log) t := by
  obtain ⟨claim, rfl, hexact, hnote⟩ := noteBatch_frozen h.window hf
  have hclosed := frozen_closes hf
  have hnext : t.clock.nextToken = s.clock.nextToken := by
    rw [hf.clock]
    rfl
  rw [hnote]
  refine ⟨h.window.frozen hf, fun token generation now hmark => ?_, fun token generation now hmark => ?_,
    ?_, fun c hc => ?_, fun window hw => ?_, fun c hc => ?_⟩
  · have hmark : .dirtied token generation now ∈ log := by simpa using hmark
    rcases h.covered token generation now hmark with ⟨window, hw, hle⟩ | ⟨c, hc, hle⟩
    · have hgeneration := (activePublicationWindow_eq.mp hw).2.1
      have heq := Option.some.inj (hgeneration.symm.trans hf.generation)
      exact Or.inr ⟨claim, List.mem_cons_self, heq ▸ hle⟩
    · exact Or.inr ⟨c, List.mem_cons_of_mem _ hc, hle⟩
  · have hmark : .dirtied token generation now ∈ log := by simpa using hmark
    rw [hnext]
    exact h.marked token generation now hmark
  · apply List.nodup_cons.mpr
    refine ⟨fun hmem => ?_, h.once⟩
    obtain ⟨c, hc, htoken⟩ := List.mem_map.mp hmem
    exact (h.spent c hc).2 (htoken ▸ hf.token)
  · rw [hnext, hf.clock]
    refine ⟨?_, by simp [closedClock, initialClock]⟩
    rcases List.mem_cons.mp hc with rfl | hc
    · exact (h.window.fresh _ hf.token).1
    · exact (h.spent c hc).1
  · simp [hclosed] at hw
  · rcases List.mem_cons.mp hc with rfl | hc
    · exact hexact
    · exact h.frozen c hc

end Windows

section Timers

variable (quietDelay : ℕ)

/-- The timer of the open window that is due at a time, or at once if that is past. -/
def TimerFor (timer : Option Timer) (token time : ℕ) : Prop :=
  ∃ t, timer = some t ∧ t.token = token ∧ t.due = max t.setAt time

/-- A running scheduler has both timers armed for the open window, and no timer for another one. -/
structure Armed (sch : Scheduler) (s : WriteRepository) : Prop where
  current : ∀ timer, sch.quiet = some timer ∨ sch.maximum = some timer →
    ∃ window, s.activePublicationWindow = some window ∧ window.token = timer.token
  armed : sch.closed = false → ∀ window, s.activePublicationWindow = some window →
    TimerFor sch.quiet window.token (window.lastDirtyAt + quietDelay) ∧
    TimerFor sch.maximum window.token (window.openedAt + 60000)

def Held (sch : Option Scheduler) (j : BatchJournal) : Prop :=
  Windowed j.log j.state ∧ ∀ running, sch = some running → Armed quietDelay running j.state

def Turns (sch : Option Scheduler) (m : SchedulerProgram (Option Scheduler)) : Prop :=
  Triple (Held quietDelay sch) m (fun j => Windowed j.log j.state) fun next => Held quietDelay next

variable {quietDelay} {s t : WriteRepository} {sch : Scheduler} {j : BatchJournal}

theorem Armed.congr (h : Armed quietDelay sch s)
    (hwindow : t.activePublicationWindow = s.activePublicationWindow) : Armed quietDelay sch t := by
  refine ⟨?_, ?_⟩
  · rw [hwindow]
    exact h.current
  · rw [hwindow]
    exact h.armed

theorem keeps_of_moves (h : Relation.ReflTransGen KeepsWindow s t) : KeepsWindow s t := by
  induction h with
  | refl => exact .refl s
  | tail _ hmove ih => exact ih.trans hmove

end Timers

section Machine

variable (digest : Bytes → String) (acceptable : RawPublication → Bool) (quietDelay : ℕ)

variable {quietDelay} in
theorem schedulerStep_of_triple {P I : BatchJournal → Prop} {Q : Option Scheduler → BatchJournal → Prop}
    {w : SchedulerState} {l : SchedulerLabel}
    (h : Triple P (l.program digest acceptable quietDelay w.scheduler) I Q) (hw : P w.journal)
    (hstart : I w.journal) (hdown : ∀ j, I j → Q none j)
    (hforget : ∀ j, I j → I { j with state := j.state.forgetProcess }) :
    let next := schedulerStep digest acceptable quietDelay w l
    Q next.scheduler next.journal := by
  obtain ⟨hcommits, hresult⟩ := h w.journal hw
  cases hstop : l.stop with
  | none =>
    simp only [schedulerStep, hstop]
    cases hend : ((l.program digest acceptable quietDelay w.scheduler).run w.journal).result with
    | ok next => exact hresult next hend
    | error e =>
      apply hdown
      rcases ((l.program digest acceptable quietDelay w.scheduler).run w.journal).final_mem
        w.journal with hfinal | hfinal
      · rw [hfinal]
        exact hstart
      · exact hcommits _ hfinal
  | some k =>
    simp only [schedulerStep, hstop]
    apply hdown
    apply hforget
    rcases ((l.program digest acceptable quietDelay w.scheduler).run w.journal).crash_mem
      w.journal k with hcrash | hcrash
    · rw [hcrash]
      exact hstart
    · exact hcommits _ hcrash

section Samples

end Samples

end Machine

end NixstrCache.Write.BatchScheduler
