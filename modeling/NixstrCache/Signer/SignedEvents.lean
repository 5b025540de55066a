import NixstrCache.Lib.Runs
import NixstrCache.Signer.Capability

/-!
The events that the signer of the daemon returns.

A call of `signEvent` captures the public key at its beginning, and asks for it again once the event is there.
Whatever other calls do in between, the event is one of the captured key, and was there while the capability
was open and ready.
-/

namespace NixstrCache.Signer

open KeyedTable Runs
open Protocol (RawPublication)

def Phase.plain : Phase → Bool
  | .closing | .asserting _ | .asserted _ | .ended | .thrown => true
  | _ => false

namespace SignerCapability

variable {o : SignerCapabilityOptions} {s t u : SignerCapability} {l : SignerLabel} {c call : SignerCall}
variable {id : ℕ} {phase : Phase} {answer : Answer} {pubkey : String} {event : RawPublication}

section Steps

theorem mem_await (h : c ∈ (s.await call phase).calls.rows) :
    c = { call with phase := phase } ∨ c ∈ s.calls.rows := by
  obtain ⟨d, hd, rfl⟩ := List.mem_map.mp h
  split_ifs
  · exact Or.inl rfl
  · exact Or.inr hd

theorem mem_begin {aborted : Bool} (h : c ∈ (s.begin id aborted phase).calls.rows) :
    c = ⟨id, none, aborted, phase⟩ ∨ c ∈ s.calls.rows := by
  unfold begin at h
  split at h
  · exact Or.inr h
  · next calls hinsert =>
    change c ∈ calls.rows at h
    rw [(Table.insert?_eq_some.mp hinsert).2, List.mem_append, List.mem_singleton] at h
    exact h.symm

theorem begin_state (s : SignerCapability) (id : ℕ) (aborted : Bool) (phase : Phase) :
    (s.begin id aborted phase).state = s.state := by
  unfold begin
  split <;> rfl

theorem begin_closed (s : SignerCapability) (id : ℕ) (aborted : Bool) (phase : Phase) :
    (s.begin id aborted phase).closed = s.closed := by
  unfold begin
  split <;> rfl

theorem identity_eq_some : s.identity = some pubkey ↔
    s.state = .ready pubkey ∧ s.active.isSome = true ∧ s.closed = false := by
  unfold identity
  cases s.state <;> cases s.active <;> cases s.closed <;> simp

inductive Move (s : SignerCapability) (l : SignerLabel) (c : SignerCall) : Prop where
  | kept (d : SignerCall) (hd : d ∈ s.calls.rows) (hid : d.id = c.id) (hphase : d.phase = c.phase)
  | plain (hphase : c.phase.plain = true)
  | starting (hphase : c.phase.starting = true)
      (hfrom : (∃ id, l = .start id) ∨ ∃ d ∈ s.calls.rows, d.phase.starting = true)
  | began (pubkey : String) (hl : l = .signEvent c.id false) (hidentity : s.identity = some pubkey)
      (hphase : c.phase = .checking pubkey)
  | checked (d : SignerCall) (pubkey : String) (hd : d ∈ s.calls.rows) (hid : d.id = c.id)
      (hbefore : d.phase = .checking pubkey) (hphase : c.phase = .checked pubkey)
  | asked (d : SignerCall) (pubkey : String) (hd : d ∈ s.calls.rows) (hid : d.id = c.id)
      (hbefore : d.phase = .checked pubkey) (hphase : c.phase = .signing pubkey)
  | arrived (d : SignerCall) (pubkey expected : String) (event : RawPublication) (hd : d ∈ s.calls.rows)
      (hid : d.id = c.id) (hbefore : d.phase = .signing pubkey) (hl : l = .settle c.id (.event event))
      (hidentity : s.identity = some expected) (hphase : c.phase = .confirming pubkey event expected)
  | returned (d : SignerCall) (expected : String) (event : RawPublication) (hd : d ∈ s.calls.rows)
      (hid : d.id = c.id) (hbefore : d.phase = .confirming event.pubkey event expected)
      (hphase : c.phase = .returned event)

structure Moves (s : SignerCapability) (l : SignerLabel) (t : SignerCapability) : Prop where
  closed : s.closed = true → t.closed = true
  state : ∀ pubkey, t.state = .ready pubkey →
    s.state = .ready pubkey ∨ ∃ c ∈ s.calls.rows, c.phase.starting = true
  calls : ∀ c ∈ t.calls.rows, Move s l c

theorem moves_refl (s : SignerCapability) (l : SignerLabel) : Moves s l s :=
  ⟨fun h => h, fun _ h => Or.inl h, fun c hc => .kept c hc rfl rfl⟩

theorem moves_await (hclosed : s.closed = true → u.closed = true)
    (hstate : ∀ pubkey, u.state = .ready pubkey → s.state = .ready pubkey) (hcalls : u.calls = s.calls)
    (hmove : Move s l { call with phase := phase }) : Moves s l (u.await call phase) := by
  refine ⟨hclosed, fun pubkey h => Or.inl (hstate pubkey h), fun c hc => ?_⟩
  rcases mem_await hc with rfl | hold
  · exact hmove
  · exact .kept c (hcalls ▸ hold) rfl rfl

theorem moves_begin {aborted : Bool} (hclosed : s.closed = true → u.closed = true) (hstate : u.state = s.state)
    (hcalls : u.calls = s.calls) (hmove : Move s l ⟨id, none, aborted, phase⟩) :
    Moves s l (u.begin id aborted phase) := by
  refine ⟨fun h => ?_, fun pubkey h => Or.inl ?_, fun c hc => ?_⟩
  · rw [begin_closed]
    exact hclosed h
  · rw [← hstate, ← begin_state u id aborted phase, h]
  · rcases mem_begin hc with rfl | hold
    · exact hmove
    · exact .kept c (hcalls ▸ hold) rfl rfl

structure Starts (s t : SignerCapability) : Prop where
  closed : t.closed = s.closed
  state : t.state = s.state
  calls : ∀ c ∈ t.calls.rows, c.phase.starting = true ∨ c ∈ s.calls.rows

theorem starts_await (hclosed : u.closed = s.closed) (hstate : u.state = s.state) (hcalls : u.calls = s.calls)
    (hphase : phase.starting = true) : Starts s (u.await call phase) := by
  refine ⟨hclosed, hstate, fun c hc => ?_⟩
  rcases mem_await hc with rfl | hold
  · exact Or.inl hphase
  · exact Or.inr (hcalls ▸ hold)

theorem fail_starts (s : SignerCapability) (call : SignerCall) (error : SourceError) : Starts s (s.fail call error) :=
  starts_await rfl rfl rfl rfl

theorem ask_starts (s : SignerCapability) (call : SignerCall) : Starts s (s.ask call) :=
  starts_await rfl rfl rfl (by split_ifs <;> rfl)

theorem wrong_starts (o : SignerCapabilityOptions) (s : SignerCapability) (call : SignerCall) :
    Starts s (s.wrong o call) := by
  unfold wrong
  split_ifs
  · exact starts_await rfl rfl rfl rfl
  · exact fail_starts s call _

theorem enter_starts (o : SignerCapabilityOptions) (s : SignerCapability) (call : SignerCall) :
    Starts s (s.enter o call) := by
  unfold enter
  split
  · exact ⟨rfl, rfl, fun c hc => Or.inr hc⟩
  · exact starts_await rfl rfl rfl rfl
  · split
    · exact fail_starts s call _
    · exact starts_await rfl rfl rfl rfl
  · split_ifs
    · exact starts_await rfl rfl rfl rfl
    · exact fail_starts s call _
  · split_ifs
    · exact starts_await rfl rfl rfl rfl
    · exact fail_starts s call _
  · split_ifs
    · exact ask_starts s call
    · exact fail_starts s call _

theorem consume_starts (o : SignerCapabilityOptions) (s : SignerCapability) (call : SignerCall)
    (bytes : List UInt8) : Starts s (s.consume o call bytes) := by
  unfold consume
  dsimp only
  split_ifs
  · exact starts_await rfl rfl rfl rfl
  · split
    · exact starts_await rfl rfl rfl rfl
    · exact starts_await rfl rfl rfl rfl
  · exact starts_await rfl rfl rfl rfl
  · exact starts_await rfl rfl rfl rfl

theorem Starts.moves (h : Starts s t) (hcall : call ∈ s.calls.rows) (hstarting : call.phase.starting = true) :
    Moves s l t := by
  refine ⟨fun hclosed => h.closed.trans hclosed, fun pubkey hready => Or.inl (h.state ▸ hready), fun c hc => ?_⟩
  rcases h.calls c hc with hphase | hold
  · exact .starting hphase (Or.inr ⟨call, hcall, hstarting⟩)
  · exact .kept c hold rfl rfl

theorem compare_moves {expected : String} {passed : Phase} (hpassed : Move s l { call with phase := passed }) :
    Moves s l (s.compare call expected answer passed) := by
  unfold compare
  split
  · split_ifs
    · exact moves_await (fun h => h) (fun _ h => h) rfl hpassed
    · exact moves_await (fun h => h) (fun _ h => by cases h) rfl (.plain rfl)
  · exact moves_await (fun h => h) (fun _ h => h) rfl (.plain rfl)
  · exact moves_refl s l

theorem settle_moves (hcall : call ∈ s.calls.rows) :
    Moves s (.settle call.id answer) (s.settle o call answer) := by
  unfold settle
  split
  · next hphase => exact (consume_starts o s call _).moves hcall (by rw [hphase]; rfl)
  · next hphase => exact Starts.moves (starts_await rfl rfl rfl rfl) hcall (by rw [hphase]; rfl)
  · next hphase => exact Starts.moves (starts_await rfl rfl rfl rfl) hcall (by rw [hphase]; rfl)
  · next hphase => exact (fail_starts s call _).moves hcall (by rw [hphase]; rfl)
  · next hphase =>
    split_ifs
    · exact Starts.moves (starts_await rfl rfl rfl rfl) hcall (by rw [hphase]; rfl)
    · exact (wrong_starts o s call).moves hcall (by rw [hphase]; rfl)
  · next hphase => exact (wrong_starts o s call).moves hcall (by rw [hphase]; rfl)
  · next hphase => exact (ask_starts s call).moves hcall (by rw [hphase]; rfl)
  · next hphase =>
    refine ⟨fun h => h, fun _ _ => Or.inr ⟨call, hcall, by rw [hphase]; rfl⟩, fun c hc => ?_⟩
    rcases mem_await hc with rfl | hold
    · exact .plain rfl
    · exact .kept c hold rfl rfl
  · next hphase => exact (fail_starts s call _).moves hcall (by rw [hphase]; rfl)
  · next hphase => exact (fail_starts s call _).moves hcall (by rw [hphase]; rfl)
  · next hphase => exact (fail_starts s call _).moves hcall (by rw [hphase]; rfl)
  · next hphase => exact (fail_starts s call _).moves hcall (by rw [hphase]; rfl)
  · exact moves_await (fun h => h) (fun _ h => by cases h) rfl (.plain rfl)
  · exact moves_await (fun h => h) (fun _ h => by cases h) rfl (.plain rfl)
  · exact compare_moves (.plain rfl)
  · next hphase => exact compare_moves (.checked call _ hcall rfl hphase rfl)
  · next pubkey event hphase =>
    split
    · exact moves_await (fun h => h) (fun _ h => h) rfl (.plain rfl)
    · next expected hidentity =>
      have hexpected : s.identity = some expected := by
        split_ifs at hidentity
        exact hidentity
      exact moves_await (fun h => h) (fun _ h => h) rfl
        (.arrived call pubkey expected event hcall rfl hphase rfl hexpected rfl)
  · exact moves_await (fun h => h) (fun _ h => h) rfl (.plain rfl)
  · next pubkey event expected hphase =>
    refine compare_moves ?_
    split_ifs with hsame
    · exact .returned call expected event hcall rfl (hsame ▸ hphase) rfl
    · exact .plain rfl
  · exact moves_refl s _

theorem start_moves (o : SignerCapabilityOptions) (s : SignerCapability) (id : ℕ) :
    Moves s (.start id)
      (((s.next .connecting).begin id false .ended).enter o ⟨id, none, false, .ended⟩) := by
  obtain ⟨hclosed, hstate, hcalls⟩ :=
    enter_starts o ((s.next .connecting).begin id false .ended) ⟨id, none, false, .ended⟩
  refine ⟨fun h => ?_, fun pubkey h => ?_, fun c hc => ?_⟩
  · rw [hclosed, begin_closed]
    exact h
  · rw [hstate, begin_state] at h
    cases h
  · rcases hcalls c hc with hphase | hbegun
    · exact .starting hphase (Or.inl ⟨id, rfl⟩)
    · rcases mem_begin hbegun with rfl | hold
      · exact .plain rfl
      · exact .kept c hold rfl rfl

theorem step_moves (o : SignerCapabilityOptions) (s : SignerCapability) (l : SignerLabel) :
    Moves s l (step o s l) := by
  unfold step
  split
  · next id =>
    split_ifs
    · exact moves_refl s _
    · exact moves_begin (fun h => h) rfl rfl (.plain rfl)
    · exact start_moves o s id
  · split_ifs
    · exact moves_refl s _
    · exact moves_begin (fun h => h) rfl rfl (.plain rfl)
    · exact moves_begin (fun _ => rfl) rfl rfl (.plain rfl)
  · split
    · exact moves_begin (fun h => h) rfl rfl (.plain rfl)
    · exact moves_begin (fun h => h) rfl rfl (.plain rfl)
  · next id aborted =>
    split
    · exact moves_begin (fun h => h) rfl rfl (.plain rfl)
    · next pubkey hidentity =>
      split_ifs at hidentity with hrefused
      obtain rfl : aborted = false := by
        rw [← Bool.not_eq_true]
        exact fun haborted => hrefused (Or.inl haborted)
      exact moves_begin (fun h => h) rfl rfl (.began pubkey rfl hidentity rfl)
  · next id answer =>
    split
    · exact moves_refl s _
    · next call hfind =>
      obtain ⟨hcall, rfl⟩ := Table.find?_eq_some.mp hfind
      exact settle_moves hcall
  · next id =>
    split
    · next call hfind =>
      obtain ⟨hcall, rfl⟩ := Table.find?_eq_some.mp hfind
      split
      · next pubkey hphase =>
        refine moves_await (fun h => h) (fun _ h => h) rfl ?_
        split_ifs
        · exact .asked call pubkey hcall rfl hphase rfl
        · exact .plain rfl
      · exact moves_refl s _
    · exact moves_refl s _
  · next id =>
    split
    · exact moves_refl s _
    · next call hfind =>
      obtain ⟨hcall, rfl⟩ := Table.find?_eq_some.mp hfind
      split
      · split_ifs
        · exact moves_refl s _
        · exact moves_await (fun h => h) (fun _ h => h) rfl (.plain rfl)
      · exact moves_await (fun h => h) (fun _ h => h) rfl (.kept call hcall rfl rfl)
      · exact moves_await (fun h => h) (fun _ h => h) rfl (.kept call hcall rfl rfl)
      · exact moves_refl s _

end Steps

section Events

variable {labels later : List SignerLabel} {expected : String}

def Open (s : SignerCapability) (pubkey : String) : Prop :=
  s.state = .ready pubkey ∧ s.closed = false

theorem open_of_identity (h : s.identity = some pubkey) : s.Open pubkey :=
  ⟨(identity_eq_some.mp h).1, (identity_eq_some.mp h).2.2⟩

/-- The call has begun while the capability was open and ready with the key. -/
def Begun (o : SignerCapabilityOptions) (labels : List SignerLabel) (id : ℕ) (pubkey : String) : Prop :=
  ∃ first rest, labels = first ++ SignerLabel.signEvent id false :: rest ∧
    (run (step o) initial first).Open pubkey

/-- The event has come later in the call, while the capability was open and ready with some key. -/
def Arrived (o : SignerCapabilityOptions) (labels : List SignerLabel) (id : ℕ) (pubkey : String)
    (event : RawPublication) : Prop :=
  ∃ first middle rest,
    labels = first ++ SignerLabel.signEvent id false :: (middle ++ SignerLabel.settle id (.event event) :: rest) ∧
      (run (step o) initial first).Open pubkey ∧
      ∃ expected, (run (step o) initial (first ++ SignerLabel.signEvent id false :: middle)).Open expected

theorem Begun.snoc (h : Begun o labels id pubkey) (l : SignerLabel) : Begun o (labels ++ [l]) id pubkey := by
  obtain ⟨first, rest, rfl, hopen⟩ := h
  exact ⟨first, rest ++ [l], by simp, hopen⟩

theorem Arrived.snoc (h : Arrived o labels id pubkey event) (l : SignerLabel) :
    Arrived o (labels ++ [l]) id pubkey event := by
  obtain ⟨first, middle, rest, rfl, hopen⟩ := h
  exact ⟨first, middle, rest ++ [l], by simp, hopen⟩

theorem Begun.arrived (h : Begun o labels id pubkey) (hopen : (run (step o) initial labels).Open expected) :
    Arrived o (labels ++ [.settle id (.event event)]) id pubkey event := by
  obtain ⟨first, middle, rfl, hbegun⟩ := h
  exact ⟨first, middle, [], by simp, hbegun, expected, hopen⟩

def Traced (o : SignerCapabilityOptions) (labels : List SignerLabel) (c : SignerCall) : Prop :=
  match c.phase with
  | .checking pubkey | .checked pubkey | .signing pubkey => Begun o labels c.id pubkey
  | .confirming pubkey event _ => Arrived o labels c.id pubkey event
  | .returned event => Arrived o labels c.id event.pubkey event
  | _ => True

theorem Traced.snoc (h : Traced o labels c) (l : SignerLabel) : Traced o (labels ++ [l]) c := by
  unfold Traced at h ⊢
  split at h
  · exact h.snoc l
  · exact h.snoc l
  · exact h.snoc l
  · exact h.snoc l
  · exact h.snoc l
  · trivial

theorem traced_move (h : ∀ d ∈ (run (step o) initial labels).calls.rows, Traced o labels d)
    (hmove : Move (run (step o) initial labels) l c) : Traced o (labels ++ [l]) c := by
  have hold : ∀ d ∈ (run (step o) initial labels).calls.rows, Traced o (labels ++ [l]) d :=
    fun d hd => (h d hd).snoc l
  cases hmove with
  | kept d hd hid hphase =>
    have hcall := hold d hd
    rwa [Traced, hid, hphase] at hcall
  | plain hphase =>
    unfold Traced
    split <;> simp_all [Phase.plain]
  | starting hphase =>
    unfold Traced
    split <;> simp_all [Phase.starting]
  | began pubkey hl hidentity hphase =>
    simp only [Traced, hphase]
    exact ⟨labels, [], by rw [hl], open_of_identity hidentity⟩
  | checked d pubkey hd hid hbefore hphase =>
    have hcall := hold d hd
    simp only [Traced, hbefore, hid] at hcall
    simpa only [Traced, hphase] using hcall
  | asked d pubkey hd hid hbefore hphase =>
    have hcall := hold d hd
    simp only [Traced, hbefore, hid] at hcall
    simpa only [Traced, hphase] using hcall
  | arrived d pubkey expected event hd hid hbefore hl hidentity hphase =>
    have hcall := h d hd
    simp only [Traced, hbefore, hid] at hcall
    simp only [Traced, hphase, hl]
    exact hcall.arrived (open_of_identity hidentity)
  | returned d expected event hd hid hbefore hphase =>
    have hcall := hold d hd
    simp only [Traced, hbefore, hid] at hcall
    simpa only [Traced, hphase] using hcall

theorem run_traced (o : SignerCapabilityOptions) (labels : List SignerLabel) :
    ∀ c ∈ (run (step o) initial labels).calls.rows, Traced o labels c := by
  induction labels using List.reverseRecOn with
  | nil => simp [initial]
  | append_singleton labels l ih =>
    intro c hc
    rw [run_snoc] at hc
    exact traced_move ih ((step_moves o _ l).calls c hc)

/-- An event is returned only by a call that has begun while the capability was open and ready with the key of
the event, and only where it was still open and ready with some key when the event came. -/
theorem event_of_captured_key (hc : c ∈ (run (step o) initial labels).calls.rows)
    (hreturned : c.phase = .returned event) :
    ∃ first middle rest,
      labels = first ++ .signEvent c.id false :: (middle ++ .settle c.id (.event event) :: rest) ∧
        (run (step o) initial first).Open event.pubkey ∧
        ∃ expected, (run (step o) initial (first ++ .signEvent c.id false :: middle)).Open expected := by
  have htraced := run_traced o labels c hc
  simp only [Traced, hreturned] at htraced
  exact htraced

/-- The signer of a key in the settings. -/
def sampleOptions : SignerCapabilityOptions :=
  ⟨.nsec, none, fun _ => none, false, none⟩

def sampleSigned : RawPublication :=
  ⟨"", "k", 0, 24242, [], "", ""⟩

def sampleStart : List SignerLabel :=
  [.start 0, .settle 0 (.pubkey "k")]

/-- One call that signs, with its checks. -/
def sampleSigning : List SignerLabel :=
  [.signEvent 1 false, .settle 1 (.pubkey "k"), .resume 1, .settle 1 (.event sampleSigned), .settle 1 (.pubkey "k")]

theorem sample_returned : (⟨1, none, false, .returned sampleSigned⟩ : SignerCall) ∈
    (run (step sampleOptions) initial (sampleStart ++ sampleSigning)).calls.rows := by
  decide

theorem event_of_captured_key_sample : ∃ first middle rest,
    sampleStart ++ sampleSigning = first ++ .signEvent 1 false ::
        (middle ++ .settle 1 (.event sampleSigned) :: rest) ∧
      (run (step sampleOptions) initial first).Open "k" ∧
      ∃ expected, (run (step sampleOptions) initial (first ++ .signEvent 1 false :: middle)).Open expected :=
  event_of_captured_key sample_returned rfl

def Known (s : SignerCapability) (id : ℕ) : Prop :=
  ∃ d ∈ s.calls.rows, d.id = id

def Has (s : SignerCapability) (id : ℕ) (event : RawPublication) : Prop :=
  ∃ d ∈ s.calls.rows, d.id = id ∧ (d.phase = .returned event ∨
    ∃ pubkey expected, d.phase = .confirming pubkey event expected)

/-- The event was there, or has come while the capability has kept the key that it had in the state. -/
def Allowed (s : SignerCapability) (id : ℕ) (pubkey : String) (event : RawPublication) : Prop :=
  s.Has id event ∨ ∃ kept, s.Open kept ∧ (s.Known id ∨ pubkey = kept)

def After (s : SignerCapability) (c : SignerCall) : Prop :=
  match c.phase with
  | .checking pubkey | .checked pubkey | .signing pubkey => s.Known c.id ∨ s.Open pubkey
  | .confirming pubkey event _ => s.Allowed c.id pubkey event
  | .returned event => s.Allowed c.id event.pubkey event
  | _ => True

structure Since (s t : SignerCapability) : Prop where
  starting : ∀ c ∈ t.calls.rows, c.phase.starting = false
  opened : ∀ pubkey, t.Open pubkey → s.Open pubkey
  calls : ∀ c ∈ t.calls.rows, s.After c

theorem since_refl (h : ∀ c ∈ s.calls.rows, c.phase.starting = false) : Since s s := by
  refine ⟨h, fun _ hopen => hopen, fun c hc => ?_⟩
  unfold After
  split
  · exact Or.inl ⟨c, hc, rfl⟩
  · exact Or.inl ⟨c, hc, rfl⟩
  · exact Or.inl ⟨c, hc, rfl⟩
  · next hphase => exact Or.inl ⟨c, hc, rfl, Or.inr ⟨_, _, hphase⟩⟩
  · next hphase => exact Or.inl ⟨c, hc, rfl, Or.inl hphase⟩
  · trivial

theorem Since.move (h : Since s t) (hstart : ∀ id, l ≠ .start id) (hmove : Move t l c) : s.After c := by
  cases hmove with
  | kept d hd hid hphase =>
    have hcall := h.calls d hd
    rwa [After, hid, hphase] at hcall
  | plain hphase =>
    unfold After
    split <;> simp_all [Phase.plain]
  | starting hphase hfrom =>
    rcases hfrom with ⟨id, hl⟩ | ⟨d, hd, hstarting⟩
    · exact absurd hl (hstart id)
    · rw [h.starting d hd] at hstarting
      cases hstarting
  | began pubkey hl hidentity hphase =>
    simp only [After, hphase]
    exact Or.inr (h.opened pubkey (open_of_identity hidentity))
  | checked d pubkey hd hid hbefore hphase =>
    have hcall := h.calls d hd
    simp only [After, hbefore, hid] at hcall
    simpa only [After, hphase] using hcall
  | asked d pubkey hd hid hbefore hphase =>
    have hcall := h.calls d hd
    simp only [After, hbefore, hid] at hcall
    simpa only [After, hphase] using hcall
  | arrived d pubkey expected event hd hid hbefore hl hidentity hphase =>
    have hcall := h.calls d hd
    simp only [After, hbefore, hid] at hcall
    simp only [After, hphase]
    have hexpected := h.opened expected (open_of_identity hidentity)
    refine Or.inr ⟨expected, hexpected, ?_⟩
    rcases hcall with hknown | hopen
    · exact Or.inl hknown
    · exact Or.inr (SignerState.ready.inj (hopen.1.symm.trans hexpected.1))
  | returned d expected event hd hid hbefore hphase =>
    have hcall := h.calls d hd
    simp only [After, hbefore, hid] at hcall
    simpa only [After, hphase] using hcall

theorem Since.step (h : Since s t) (hstart : ∀ id, l ≠ .start id) : Since s (t.step o l) := by
  obtain ⟨hclosed, hstate, hcalls⟩ := step_moves o t l
  refine ⟨fun c hc => ?_, fun pubkey hopen => h.opened pubkey ⟨?_, ?_⟩,
    fun c hc => h.move hstart (hcalls c hc)⟩
  · cases hcalls c hc with
    | kept d hd _ hphase => rw [← hphase, h.starting d hd]
    | plain hphase => cases hcall : c.phase <;> simp_all [Phase.plain, Phase.starting]
    | starting _ hfrom =>
      rcases hfrom with ⟨id, hl⟩ | ⟨d, hd, hstarting⟩
      · exact absurd hl (hstart id)
      · rw [h.starting d hd] at hstarting
        cases hstarting
    | began _ _ _ hphase | checked _ _ _ _ _ hphase | asked _ _ _ _ _ hphase | arrived _ _ _ _ _ _ _ _ _ hphase
    | returned _ _ _ _ _ _ hphase =>
      rw [hphase]
      rfl
  · rcases hstate pubkey hopen.1 with hready | ⟨c, hc, hstarting⟩
    · exact hready
    · rw [h.starting c hc] at hstarting
      cases hstarting
  · cases hbefore : t.closed with
    | false => rfl
    | true => exact absurd (hclosed hbefore) (by rw [hopen.2]; decide)

/-- From a moment on at which no start is under way, and until the next one, no call returns an event that comes
after this moment unless the capability was open and ready at it; and a call that begins after it returns only
events of the key with which it was.  Nothing is returned after a `close`, or after the signer has answered
with another key. -/
theorem revoked_returns_nothing
    (hidle : ∀ d ∈ (run (step o) initial labels).calls.rows, d.phase.starting = false)
    (hlater : ∀ l ∈ later, ∀ id, l ≠ .start id)
    (hc : c ∈ (run (step o) initial (labels ++ later)).calls.rows) (hreturned : c.phase = .returned event)
    (hcomes : ¬(run (step o) initial labels).Has c.id event) :
    ∃ pubkey, (run (step o) initial labels).Open pubkey ∧
      (¬(run (step o) initial labels).Known c.id → event.pubkey = pubkey) := by
  have hsince := run_of_labels (I := Since (run (step o) initial labels))
    (C := fun l => ∀ id, l ≠ SignerLabel.start id)
    (fun _ _ h hstart => h.step (o := o) hstart) (since_refl hidle) hlater
  rw [run_append] at hc
  have hallowed := hsince.calls c hc
  simp only [After, hreturned] at hallowed
  obtain ⟨pubkey, hopen, hkey⟩ := hallowed.resolve_left hcomes
  exact ⟨pubkey, hopen, hkey.resolve_left⟩

theorem revoked_returns_nothing_sample :
    ∃ pubkey, (run (step sampleOptions) initial sampleStart).Open pubkey ∧
      (¬(run (step sampleOptions) initial sampleStart).Known 1 → "k" = pubkey) := by
  have hrows : (run (step sampleOptions) initial sampleStart).calls.rows = [⟨0, none, false, .ended⟩] := by
    decide
  refine revoked_returns_nothing ?_ (by simp [sampleSigning]) sample_returned rfl ?_
  · simp [hrows, Phase.starting]
  · simp [Has, hrows]

end Events

end SignerCapability

end NixstrCache.Signer
