import NixstrCache.Signer.SignedEvents

/-!
The keys of the signer in memory.

A key is in the buffer that `start` retains and, while `start` is under way, in the one with the bytes of its
file.  A failed `start` and a `close` overwrite what is retained.  A `close` in the middle of `start` comes too
early for the key that `start` gets afterwards: the capability is ready then, although it is closed.
-/

namespace NixstrCache.Signer

open KeyedTable Runs

/-- `start` is under way and has no signer yet. -/
def Phase.keyless : Phase → Bool
  | .reading | .creating | .asking | .decrypting | .rejecting => true
  | _ => false

theorem Phase.starting_of_keyless {phase : Phase} (h : phase.keyless = true) : phase.starting = true := by
  cases phase <;> first | rfl | cases h

/-- No signer is in use: it has not been started, has failed to start, or has been closed. -/
def SignerState.unused : SignerState → Bool
  | .disconnected => true
  | .failed code => code ≠ .identityChanged
  | .connecting | .ready _ => false

namespace SignerCapability

variable {o : SignerCapabilityOptions} {s u : SignerCapability} {l : SignerLabel} {c old call : SignerCall}
variable {i : Option ℕ} {id : ℕ} {phase : Phase} {answer : Answer}

/-- A key is retained, or in the file of a start under way.  There is one start at most, with the identifier. -/
structure Accounted (i : Option ℕ) (s : SignerCapability) : Prop where
  starting : ∀ c ∈ s.calls.rows, c.phase.starting = true → i = some c.id
  keyless : ∀ c ∈ s.calls.rows, c.phase.keyless = true → s.retainedKey = none
  unread : ∀ c ∈ s.calls.rows, c.phase = .reading → c.owned = none
  secrets : ∀ k ∈ s.secrets, s.retainedKey = some k ∨
    ∃ c ∈ s.calls.rows, c.phase.starting = true ∧ c.owned = some k
  fresh : i = none → s.retainedKey = none
  unused : s.state.unused = true → s.retainedKey = none ∨ ∃ c ∈ s.calls.rows, c.phase.starting = true

section Calls

theorem mem_await_iff (hcalls : u.calls = s.calls) (hold : old ∈ s.calls.rows) (hid : call.id = old.id) :
    c ∈ (u.await call phase).calls.rows ↔
      c = { call with phase := phase } ∨ c ∈ s.calls.rows ∧ c.id ≠ call.id := by
  rw [← hcalls] at hold ⊢
  constructor
  · intro h
    obtain ⟨d, hd, rfl⟩ := List.mem_map.mp h
    split_ifs with hsame
    · exact Or.inl rfl
    · exact Or.inr ⟨hd, hsame⟩
  · rintro (rfl | ⟨hc, hother⟩)
    · exact List.mem_map.mpr ⟨old, hold, if_pos hid.symm⟩
    · exact List.mem_map.mpr ⟨c, hc, if_neg hother⟩

theorem Accounted.eq (h : Accounted i s) (hold : old ∈ s.calls.rows) (hstarting : old.phase.starting = true)
    (hc : c ∈ s.calls.rows) (hphase : c.phase.starting = true) : c = old :=
  Table.eq_of_key hc hold
    (Option.some.inj ((h.starting c hc hphase).symm.trans (h.starting old hold hstarting)))

theorem Accounted.secret (h : Accounted i s) (hold : old ∈ s.calls.rows) (hstarting : old.phase.starting = true)
    {k : ℕ} (hk : k ∈ s.secrets) : s.retainedKey = some k ∨ old.owned = some k := by
  rcases h.secrets k hk with hretained | ⟨c, hc, hphase, howned⟩
  · exact Or.inl hretained
  · exact Or.inr (h.eq hold hstarting hc hphase ▸ howned)

theorem Accounted.goes (h : Accounted i s) (hold : old ∈ s.calls.rows) (hid : call.id = old.id)
    (hstarting : old.phase.starting = true) (hcalls : u.calls = s.calls) (hphase : phase.starting = true)
    (hkeyless : phase.keyless = true → u.retainedKey = none) (hunread : phase ≠ .reading)
    (hsecrets : ∀ k ∈ u.secrets, u.retainedKey = some k ∨ call.owned = some k) :
    Accounted i (u.await call phase) := by
  have hnew : { call with phase := phase } ∈ (u.await call phase).calls.rows :=
    (mem_await_iff hcalls hold hid).mpr (Or.inl rfl)
  have hnone : ∀ c ∈ s.calls.rows, c.id ≠ call.id → c.phase.starting = false := by
    intro c hc hother
    rw [← Bool.not_eq_true]
    intro hcall
    exact hother (by rw [h.eq hold hstarting hc hcall, hid])
  refine ⟨fun c hc hcall => ?_, fun c hc hcall => ?_, fun c hc hcall => ?_, fun k hk => ?_, fun hi => ?_,
    fun _ => Or.inr ⟨_, hnew, hphase⟩⟩
  · rcases (mem_await_iff hcalls hold hid).mp hc with rfl | ⟨hbefore, -⟩
    · exact hid ▸ h.starting old hold hstarting
    · exact h.starting c hbefore hcall
  · rcases (mem_await_iff hcalls hold hid).mp hc with rfl | ⟨hbefore, hother⟩
    · exact hkeyless hcall
    · have hstarts := Phase.starting_of_keyless hcall
      rw [hnone c hbefore hother] at hstarts
      cases hstarts
  · rcases (mem_await_iff hcalls hold hid).mp hc with rfl | ⟨hbefore, -⟩
    · exact absurd hcall hunread
    · exact h.unread c hbefore hcall
  · rcases hsecrets k hk with hretained | howned
    · exact Or.inl hretained
    · exact Or.inr ⟨_, hnew, hphase, howned⟩
  · rw [h.starting old hold hstarting] at hi
    cases hi

theorem Accounted.ends (h : Accounted i s) (hold : old ∈ s.calls.rows) (hid : call.id = old.id)
    (hstarting : old.phase.starting = true) (hcalls : u.calls = s.calls) (hphase : phase.starting = false)
    (hsecrets : ∀ k ∈ u.secrets, u.retainedKey = some k)
    (hunused : u.state.unused = true → u.retainedKey = none) : Accounted i (u.await call phase) := by
  have hidle : ∀ c ∈ (u.await call phase).calls.rows, c.phase.starting = false := by
    intro c hc
    rcases (mem_await_iff hcalls hold hid).mp hc with rfl | ⟨hbefore, hother⟩
    · exact hphase
    · rw [← Bool.not_eq_true]
      intro hcall
      exact hother (by rw [h.eq hold hstarting hbefore hcall, hid])
  refine ⟨fun c hc hcall => ?_, fun c hc hcall => ?_, fun c hc hcall => ?_, fun k hk => Or.inl (hsecrets k hk),
    fun hi => ?_, fun hstate => Or.inl (hunused hstate)⟩
  · rw [hidle c hc] at hcall
    cases hcall
  · have hstarts := Phase.starting_of_keyless hcall
    rw [hidle c hc] at hstarts
    cases hstarts
  · have hstarts := hidle c hc
    rw [hcall] at hstarts
    cases hstarts
  · rw [h.starting old hold hstarting] at hi
    cases hi

theorem Accounted.other (h : Accounted i s) (hold : old ∈ s.calls.rows) (hid : call.id = old.id)
    (hquiet : old.phase.starting = false) (hcalls : u.calls = s.calls) (hphase : phase.starting = false)
    (hretained : u.retainedKey = s.retainedKey ∨ u.retainedKey = none)
    (hsecrets : ∀ k ∈ u.secrets, k ∈ s.secrets ∧ (s.retainedKey = some k → u.retainedKey = some k))
    (hunused : u.state.unused = true → u.retainedKey = none ∨ s.state.unused = true) :
    Accounted i (u.await call phase) := by
  have hnone : s.retainedKey = none → u.retainedKey = none := by
    intro hbefore
    rcases hretained with hsame | hgone
    · rw [hsame, hbefore]
    · exact hgone
  have hkept : ∀ c ∈ s.calls.rows, c.phase.starting = true → c ∈ (u.await call phase).calls.rows := by
    intro c hc hcall
    refine (mem_await_iff hcalls hold hid).mpr (Or.inr ⟨hc, fun hsame => ?_⟩)
    rw [Table.eq_of_key hc hold (hsame.trans hid), hquiet] at hcall
    cases hcall
  refine ⟨fun c hc hcall => ?_, fun c hc hcall => ?_, fun c hc hcall => ?_, fun k hk => ?_,
    fun hi => hnone (h.fresh hi), fun hstate => ?_⟩
  · rcases (mem_await_iff hcalls hold hid).mp hc with rfl | ⟨hbefore, -⟩
    · exact absurd hcall (by rw [hphase]; decide)
    · exact h.starting c hbefore hcall
  · rcases (mem_await_iff hcalls hold hid).mp hc with rfl | ⟨hbefore, -⟩
    · exact absurd (Phase.starting_of_keyless hcall) (by rw [hphase]; decide)
    · exact hnone (h.keyless c hbefore hcall)
  · rcases (mem_await_iff hcalls hold hid).mp hc with rfl | ⟨hbefore, -⟩
    · rw [show phase = .reading from hcall] at hphase
      cases hphase
    · exact h.unread c hbefore hcall
  · obtain ⟨hbefore, hsame⟩ := hsecrets k hk
    rcases h.secrets k hbefore with hheld | ⟨c, hc, hcall, howned⟩
    · exact Or.inl (hsame hheld)
    · exact Or.inr ⟨c, hkept c hc hcall, hcall, howned⟩
  · rcases hunused hstate with hgone | hbefore
    · exact Or.inl hgone
    · rcases h.unused hbefore with hgone | ⟨c, hc, hcall⟩
      · exact Or.inl (hnone hgone)
      · exact Or.inr ⟨c, hkept c hc hcall, hcall⟩

theorem begin_eq (s : SignerCapability) (id : ℕ) (aborted : Bool) (phase : Phase) :
    s.begin id aborted phase = { s with calls := (s.begin id aborted phase).calls } := by
  unfold begin
  split <;> rfl

theorem mem_begin_of (hc : c ∈ s.calls.rows) (id : ℕ) (aborted : Bool) (phase : Phase) :
    c ∈ (s.begin id aborted phase).calls.rows := by
  unfold begin
  split
  · exact hc
  · next calls hinsert =>
    change c ∈ calls.rows
    rw [(Table.insert?_eq_some.mp hinsert).2]
    exact List.mem_append_left _ hc

theorem Accounted.begins (h : Accounted i s) {aborted : Bool} (hcalls : u.calls = s.calls)
    (hstate : u.state = s.state) (hretained : u.retainedKey = s.retainedKey) (hsecrets : u.secrets ⊆ s.secrets)
    (hphase : phase.starting = false) : Accounted i (u.begin id aborted phase) := by
  have hkept : ∀ c ∈ s.calls.rows, c ∈ (u.begin id aborted phase).calls.rows :=
    fun c hc => mem_begin_of (hcalls ▸ hc) id aborted phase
  have hheld : (u.begin id aborted phase).retainedKey = s.retainedKey := by rw [begin_eq, hretained]
  refine ⟨fun c hc hcall => ?_, fun c hc hcall => ?_, fun c hc hcall => ?_, fun k hk => ?_, fun hi => ?_,
    fun hunused => ?_⟩
  · rcases mem_begin hc with rfl | hold
    · exact absurd hcall (by rw [hphase]; decide)
    · exact h.starting c (hcalls ▸ hold) hcall
  · rw [hheld]
    rcases mem_begin hc with rfl | hold
    · exact absurd (Phase.starting_of_keyless hcall) (by rw [hphase]; decide)
    · exact h.keyless c (hcalls ▸ hold) hcall
  · rcases mem_begin hc with rfl | hold
    · rfl
    · exact h.unread c (hcalls ▸ hold) hcall
  · rw [begin_eq] at hk
    rw [hheld]
    rcases h.secrets k (hsecrets hk) with hretains | ⟨c, hc, hcall⟩
    · exact Or.inl hretains
    · exact Or.inr ⟨c, hkept c hc, hcall⟩
  · rw [hheld]
    exact h.fresh hi
  · rw [begin_state, hstate] at hunused
    rw [hheld]
    rcases h.unused hunused with hgone | ⟨c, hc, hcall⟩
    · exact Or.inl hgone
    · exact Or.inr ⟨c, hkept c hc, hcall⟩

end Calls

section Steps

theorem Accounted.fails (h : Accounted i s) (hold : old ∈ s.calls.rows) (hid : call.id = old.id)
    (hstarting : old.phase.starting = true) (hcalls : u.calls = s.calls)
    (hsecrets : ∀ k ∈ u.secrets, u.retainedKey = some k ∨ call.owned = some k) (error : SourceError) :
    Accounted i (u.fail call error) :=
  h.goes hold hid hstarting hcalls rfl (fun hkeyless => by cases hkeyless) (fun hreading => by cases hreading)
    fun k hk => hsecrets k (List.mem_filter.mp hk).1

theorem Accounted.holds (h : Accounted i s) (hold : old ∈ s.calls.rows) (hid : call.id = old.id)
    (hstarting : old.phase.starting = true) (hcalls : u.calls = s.calls)
    (hsecrets : ∀ k ∈ u.secrets, call.owned = some k) (closes : Bool) :
    Accounted i ((u.hold closes).await call .identifying) := by
  refine h.goes hold hid hstarting hcalls rfl (fun hkeyless => by cases hkeyless)
    (fun hreading => by cases hreading) fun k hk => ?_
  rcases List.mem_cons.mp hk with rfl | hbefore
  · exact Or.inl rfl
  · exact Or.inr (hsecrets k hbefore)

theorem Accounted.owned (h : Accounted i s) (hcall : call ∈ s.calls.rows) (hkeyless : call.phase.keyless = true)
    {k : ℕ} (hk : k ∈ s.secrets) : call.owned = some k := by
  rcases h.secret hcall (Phase.starting_of_keyless hkeyless) hk with hretained | howned
  · rw [h.keyless call hcall hkeyless] at hretained
    cases hretained
  · exact howned

theorem Accounted.wrong (h : Accounted i s) (hcall : call ∈ s.calls.rows) (hkeyless : call.phase.keyless = true) :
    Accounted i (s.wrong o call) := by
  have hstarting := Phase.starting_of_keyless hkeyless
  unfold SignerCapability.wrong
  split_ifs
  · exact h.goes hcall rfl hstarting rfl rfl (fun _ => h.keyless call hcall hkeyless)
      (fun hreading => by cases hreading) fun k hk => h.secret hcall hstarting hk
  · exact h.fails hcall rfl hstarting rfl (fun k hk => h.secret hcall hstarting hk) _

theorem Accounted.ask (h : Accounted i s) (hcall : call ∈ s.calls.rows) (hkeyless : call.phase.keyless = true) :
    Accounted i (s.ask call) := by
  have hstarting := Phase.starting_of_keyless hkeyless
  unfold SignerCapability.ask
  refine h.goes hcall rfl hstarting rfl ?_ (fun _ => h.keyless call hcall hkeyless) ?_
    fun k hk => h.secret hcall hstarting hk
  · split_ifs <;> rfl
  · split_ifs <;> simp

theorem Accounted.consume (h : Accounted i s) (hcall : call ∈ s.calls.rows) (hphase : call.phase = .reading)
    (bytes : List UInt8) : Accounted i (s.consume o call bytes) := by
  have hkeyless : call.phase.keyless = true := by
    rw [hphase]
    rfl
  have hstarting := Phase.starting_of_keyless hkeyless
  -- Nothing was there before the bytes of the file.
  have hread : ∀ k ∈ s.nextKey :: s.secrets, some s.nextKey = some k := by
    intro k hk
    rcases List.mem_cons.mp hk with rfl | hbefore
    · rfl
    · have howned := h.owned hcall hkeyless hbefore
      rw [h.unread call hcall hphase] at howned
      cases howned
  have hfails : ∀ error, Accounted i (({ s with
      secrets := s.nextKey :: s.secrets
      nextKey := s.nextKey + 1 } : SignerCapability).fail { call with owned := some s.nextKey } error) := by
    intro error
    refine h.fails hcall ?_ hstarting ?_ ?_ error
    · rfl
    · rfl
    · exact fun k hk => Or.inr (hread k hk)
  unfold SignerCapability.consume
  dsimp only
  split_ifs
  · exact hfails _
  · split
    · exact hfails _
    · refine h.holds hcall ?_ hstarting ?_ ?_ false
      · rfl
      · rfl
      · exact hread
  · exact hfails _
  · refine h.goes hcall ?_ hstarting ?_ rfl (fun _ => h.keyless call hcall hkeyless)
      (fun hreading => by cases hreading) ?_
    · rfl
    · rfl
    · exact fun k hk => Or.inr (hread k hk)

theorem Accounted.compare (h : Accounted i s) (hcall : call ∈ s.calls.rows)
    (hquiet : call.phase.starting = false) {expected : String} {passed : Phase}
    (hpassed : passed.starting = false) : Accounted i (s.compare call expected answer passed) := by
  unfold SignerCapability.compare
  split
  · split_ifs
    · exact h.other hcall rfl hquiet rfl hpassed (Or.inl rfl) (fun k hk => ⟨hk, fun hheld => hheld⟩) Or.inr
    · exact h.other hcall rfl hquiet rfl rfl (Or.inl rfl) (fun k hk => ⟨hk, fun hheld => hheld⟩)
        fun hunused => by cases hunused
  · exact h.other hcall rfl hquiet rfl rfl (Or.inl rfl) (fun k hk => ⟨hk, fun hheld => hheld⟩) Or.inr
  · exact h

theorem Accounted.settle (h : Accounted i s) (hcall : call ∈ s.calls.rows) :
    Accounted i (s.settle o call answer) := by
  have hquiet : ∀ {passed : Phase}, call.phase.starting = false → passed.starting = false →
      Accounted i (s.await call passed) := fun hphase hpassed =>
    h.other hcall rfl hphase rfl hpassed (Or.inl rfl) (fun k hk => ⟨hk, fun hheld => hheld⟩) Or.inr
  have hfails : call.phase.starting = true → ∀ error, Accounted i (s.fail call error) := fun hstarting error =>
    h.fails hcall rfl hstarting rfl (fun k hk => h.secret hcall hstarting hk) error
  unfold SignerCapability.settle
  split
  · next hphase => exact h.consume hcall hphase _
  · next hphase =>
    have hstarting : call.phase.starting = true := by rw [hphase]; rfl
    exact h.goes hcall rfl hstarting rfl rfl (fun hkeyless => by cases hkeyless)
      (fun hreading => by cases hreading) fun k hk => h.secret hcall hstarting hk
  · next hphase =>
    have hkeyless : call.phase.keyless = true := by rw [hphase]; rfl
    have hstarting := Phase.starting_of_keyless hkeyless
    exact h.goes hcall rfl hstarting rfl rfl (fun _ => h.keyless call hcall hkeyless)
      (fun hreading => by cases hreading) fun k hk => h.secret hcall hstarting hk
  · next hphase => exact hfails (by rw [hphase]; rfl) _
  · next hphase =>
    have hkeyless : call.phase.keyless = true := by rw [hphase]; rfl
    split_ifs
    · exact h.holds hcall rfl (Phase.starting_of_keyless hkeyless) rfl
        (fun k hk => h.owned hcall hkeyless hk) true
    · exact h.wrong hcall hkeyless
  · next hphase => exact h.wrong hcall (by rw [hphase]; rfl)
  · next hphase => exact h.ask hcall (by rw [hphase]; rfl)
  · next hphase =>
    have hstarting : call.phase.starting = true := by rw [hphase]; rfl
    refine h.ends hcall rfl hstarting rfl rfl (fun k hk => ?_) fun hunused => by cases hunused
    obtain ⟨hbefore, hother⟩ := List.mem_filter.mp hk
    exact (h.secret hcall hstarting hbefore).resolve_right fun howned => by simp [howned] at hother
  · next hphase => exact hfails (by rw [hphase]; rfl) _
  · next hphase => exact hfails (by rw [hphase]; rfl) _
  · next hphase => exact hfails (by rw [hphase]; rfl) _
  · next hphase => exact hfails (by rw [hphase]; rfl) _
  · next hphase =>
    have hstarting : call.phase.starting = true := by rw [hphase]; rfl
    refine h.ends hcall rfl hstarting rfl rfl (fun k hk => ?_) fun _ => rfl
    -- Both buffers have been overwritten.
    obtain ⟨hleft, hother⟩ := List.mem_filter.mp hk
    obtain ⟨hbefore, hretained⟩ := List.mem_filter.mp hleft
    rcases h.secret hcall hstarting hbefore with hheld | howned
    · simp [hheld] at hretained
    · simp [howned] at hother
  · next hphase =>
    refine h.other hcall rfl (by rw [hphase]; rfl) rfl rfl (Or.inr rfl) (fun k hk => ?_) fun _ => Or.inl rfl
    obtain ⟨hbefore, hretained⟩ := List.mem_filter.mp hk
    exact ⟨hbefore, fun hheld => by simp [hheld] at hretained⟩
  · next hphase => exact h.compare hcall (by rw [hphase]; rfl) rfl
  · next hphase => exact h.compare hcall (by rw [hphase]; rfl) rfl
  · next hphase =>
    split
    · exact hquiet (by rw [hphase]; rfl) rfl
    · exact hquiet (by rw [hphase]; rfl) rfl
  · next hphase => exact hquiet (by rw [hphase]; rfl) rfl
  · next hphase => exact h.compare hcall (by rw [hphase]; rfl) (by split_ifs <;> rfl)
  · exact h

theorem Accounted.enters (h : Accounted none s) (hold : old ∈ s.calls.rows) (hid : call.id = old.id)
    (hcalls : u.calls = s.calls) (hphase : phase.starting = true)
    (hkeyless : phase.keyless = true → u.retainedKey = none) (howned : call.owned = none)
    (hsecrets : ∀ k ∈ u.secrets, u.retainedKey = some k) :
    Accounted (some call.id) (u.await call phase) := by
  have hnone : ∀ c ∈ s.calls.rows, c.phase.starting = false := by
    intro c hc
    rw [← Bool.not_eq_true]
    intro hcall
    cases h.starting c hc hcall
  refine ⟨fun c hc hcall => ?_, fun c hc hcall => ?_, fun c hc hcall => ?_, fun k hk => Or.inl (hsecrets k hk),
    (fun hcase => by cases hcase), fun _ => Or.inr ⟨{ call with phase := phase },
      (mem_await_iff hcalls hold hid).mpr (Or.inl rfl), hphase⟩⟩
  · rcases (mem_await_iff hcalls hold hid).mp hc with rfl | ⟨hbefore, -⟩
    · rfl
    · rw [hnone c hbefore] at hcall
      cases hcall
  · rcases (mem_await_iff hcalls hold hid).mp hc with rfl | ⟨hbefore, -⟩
    · exact hkeyless hcall
    · have hstarts := Phase.starting_of_keyless hcall
      rw [hnone c hbefore] at hstarts
      cases hstarts
  · rcases (mem_await_iff hcalls hold hid).mp hc with rfl | ⟨hbefore, -⟩
    · exact howned
    · exact h.unread c hbefore hcall

theorem Accounted.enter (h : Accounted none s) (hold : old ∈ s.calls.rows) (hid : call.id = old.id)
    (howned : call.owned = none) (hmode : o.mode ≠ .disabled) : Accounted (some call.id) (s.enter o call) := by
  have hretained : s.retainedKey = none := h.fresh rfl
  have hsecrets : ∀ k ∈ s.secrets, s.retainedKey = some k := by
    intro k hk
    rcases h.secrets k hk with hheld | ⟨c, hc, hcall, -⟩
    · exact hheld
    · cases h.starting c hc hcall
  have hwaits : ∀ {phase : Phase}, phase.starting = true → Accounted (some call.id) (s.await call phase) :=
    fun hphase => h.enters hold hid rfl hphase (fun _ => hretained) howned hsecrets
  have hfails : ∀ error, Accounted (some call.id) (s.fail call error) := fun error =>
    h.enters hold hid rfl rfl (fun hkeyless => by cases hkeyless) howned
      fun k hk => hsecrets k (List.mem_filter.mp hk).1
  unfold SignerCapability.enter
  split
  · next hdisabled => exact absurd hdisabled hmode
  · exact hwaits rfl
  · split
    · exact hfails _
    · refine h.enters hold hid rfl rfl (fun hkeyless => by cases hkeyless) howned fun k hk => ?_
      rcases List.mem_cons.mp hk with rfl | hbefore
      · rfl
      · have hheld := hsecrets k hbefore
        rw [hretained] at hheld
        cases hheld
  · split_ifs
    · exact hwaits rfl
    · exact hfails _
  · split_ifs
    · exact hwaits rfl
    · exact hfails _
  · split_ifs
    · exact hwaits (by split_ifs <;> rfl)
    · exact hfails _

theorem Accounted.mono (h : Accounted none s) (i : Option ℕ) : Accounted i s := by
  refine ⟨fun c hc hcall => ?_, h.keyless, h.unread, h.secrets, fun _ => h.fresh rfl, h.unused⟩
  cases h.starting c hc hcall

theorem mem_begin_self {aborted : Bool} (hfree : s.calls.find? id = none) :
    (⟨id, none, aborted, phase⟩ : SignerCall) ∈ (s.begin id aborted phase).calls.rows := by
  unfold begin
  split
  · next hinsert =>
    obtain ⟨c, hc, hsame⟩ := Table.insert?_eq_none.mp hinsert
    exact absurd hsame (Table.find?_eq_none.mp hfree c hc)
  · next calls hinsert =>
    change _ ∈ calls.rows
    rw [(Table.insert?_eq_some.mp hinsert).2]
    exact List.mem_append_right _ (List.mem_singleton_self _)

theorem Accounted.start (h : Accounted none s) (id : ℕ) : Accounted (some id) (step o s (.start id)) := by
  simp only [SignerCapability.step]
  split_ifs with hfound hrefused
  · exact h.mono _
  · exact (h.begins rfl rfl rfl (List.Subset.refl _) rfl).mono _
  · have hnext : Accounted none (s.next .connecting) :=
      ⟨h.starting, h.keyless, h.unread, h.secrets, h.fresh, (fun hcase => by cases hcase)⟩
    have hbegun : Accounted none ((s.next .connecting).begin id false .ended) :=
      hnext.begins rfl rfl rfl (List.Subset.refl _) rfl
    have hfree : s.calls.find? id = none := by simpa using hfound
    exact hbegun.enter (mem_begin_self hfree) rfl rfl fun hdisabled => hrefused (Or.inr hdisabled)

theorem Accounted.step (h : Accounted i s) (hstart : ∀ id, l ≠ .start id) : Accounted i (s.step o l) := by
  have hbegins : ∀ {id : ℕ} {aborted : Bool} {phase : Phase}, phase.starting = false →
      Accounted i (s.begin id aborted phase) :=
    fun hphase => h.begins rfl rfl rfl (List.Subset.refl _) hphase
  unfold SignerCapability.step
  split
  · next id => exact absurd rfl (hstart id)
  · split_ifs
    · exact h
    · exact hbegins rfl
    · exact h.begins rfl rfl rfl (List.filter_subset_self _) rfl
  · split
    · exact hbegins rfl
    · exact hbegins rfl
  · split
    · exact hbegins rfl
    · exact hbegins rfl
  · split
    · exact h
    · next call hfind => exact h.settle (Table.find?_eq_some.mp hfind).1
  · split
    · next call hfind =>
      split
      · next hphase =>
        exact h.other (Table.find?_eq_some.mp hfind).1 rfl (by rw [hphase]; rfl) rfl (by split_ifs <;> rfl)
          (Or.inl rfl) (fun k hk => ⟨hk, fun hheld => hheld⟩) Or.inr
      · exact h
    · exact h
  · split
    · exact h
    · next call hfind =>
      have hcall := (Table.find?_eq_some.mp hfind).1
      have hother : call.phase.starting = false → ∀ {next : SignerCall} {phase : Phase}, next.id = call.id →
          phase.starting = false → Accounted i (s.await next phase) := fun hquiet _ _ hid hphase =>
        h.other hcall hid hquiet rfl hphase (Or.inl rfl) (fun k hk => ⟨hk, fun hheld => hheld⟩) Or.inr
      split
      · next hphase =>
        split_ifs
        · exact h
        · exact hother (by rw [hphase]; rfl) rfl rfl
      · next hphase => exact hother (by rw [hphase]; rfl) rfl (by rw [hphase]; rfl)
      · next hphase => exact hother (by rw [hphase]; rfl) rfl (by rw [hphase]; rfl)
      · exact h

end Steps

section Results

variable {labels : List SignerLabel}

def isStart : SignerLabel → Bool
  | .start _ => true
  | _ => false

theorem run_accounted (hone : labels.countP isStart ≤ 1) :
    ∃ i, Accounted i (run (step o) initial labels) ∧ (labels.countP isStart = 0 → i = none) := by
  induction labels using List.reverseRecOn with
  | nil => exact ⟨none, ⟨by simp [initial], by simp [initial], by simp [initial], by simp [initial],
      fun _ => rfl, fun _ => Or.inl rfl⟩, fun _ => rfl⟩
  | append_singleton labels l ih =>
    rw [List.countP_append] at hone
    obtain ⟨i, hbefore, hnone⟩ := ih (by omega)
    rw [run_snoc]
    cases hl : isStart l with
    | true =>
      have hlast : [l].countP isStart = 1 := by simp [hl]
      cases l with
      | start id =>
        obtain rfl := hnone (by omega)
        exact ⟨some id, hbefore.start id, fun hzero => by rw [List.countP_append] at hzero; omega⟩
      | _ => cases hl
    | false =>
      refine ⟨i, hbefore.step fun id hid => ?_, fun hzero => hnone ?_⟩
      · rw [hid] at hl
        cases hl
      · rw [List.countP_append] at hzero
        omega

/-- In a run with at most one start, which is not under way, all buffers that have had a key in them are
overwritten where no signer is in use: before the start, after it has failed, and after a `close`. -/
theorem keys_overwritten (hone : labels.countP isStart ≤ 1)
    (hidle : ∀ c ∈ (run (step o) initial labels).calls.rows, c.phase.starting = false)
    (hunused : (run (step o) initial labels).state.unused = true) : (run (step o) initial labels).secrets = [] := by
  obtain ⟨i, haccounted, -⟩ := run_accounted (o := o) hone
  have hnone : ¬∃ c ∈ (run (step o) initial labels).calls.rows, c.phase.starting = true := by
    rintro ⟨c, hc, hcall⟩
    rw [hidle c hc] at hcall
    cases hcall
  have hretained := (haccounted.unused hunused).resolve_right hnone
  refine List.eq_nil_iff_forall_not_mem.mpr fun k hk => ?_
  rcases haccounted.secrets k hk with hheld | ⟨c, hc, hcall, -⟩
  · rw [hretained] at hheld
    cases hheld
  · exact hnone ⟨c, hc, hcall⟩

theorem keys_overwritten_sample :
    (run (step sampleOptions) initial (sampleStart ++ [.close 1, .settle 1 .done])).secrets = [] :=
  keys_overwritten (by decide) (by decide) (by decide)

/-- After a `close` that comes before the file of the key has been read, the key stays. -/
example : (run (step { sampleOptions with mode := .localKey }) initial [.start 0, .close 1, .settle 1 .done,
    .settle 0 (.content (List.replicate 32 1)), .settle 0 (.pubkey "k")]).secrets = [1] := by
  decide

end Results

end SignerCapability

end NixstrCache.Signer
