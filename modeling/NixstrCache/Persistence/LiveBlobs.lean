import NixstrCache.Lib.Runs
import NixstrCache.Persistence.BlobViews

/-!
Live blobs along every run of the store.

A run takes the operations of the store in any order, each to its end or stopped after any of its
commits.  A stop ends the process, so it also drops the leases.  A blob is live while an owner row,
a lease or a route component refers to it, and it is intact while its row is ready and its file is
present with the recorded size.

A failed removal leaves a tombstone behind, and admitting the same content again makes the row
ready without clearing it, so the next reconcile removes a blob that is in use.  `Allowed` names
the steps that cannot lose a live blob, and along a run of such steps every live blob is intact.
-/

namespace NixstrCache.Persistence.BlobStore

open Durable KeyedTable

variable {Hash Content : Type} [LinearOrder Hash]

inductive BlobOp (Hash Content : Type) where
  | reserve (token : String) (bytes : ℕ)
  | releaseReservation (token : String)
  | promote (content : Content) (origin : BlobOrigin) (owner : Option Owner) (token : String)
  | lookup (hash : Hash)
  | releaseLease (hash : Hash)
  | acquireOwner (owner : Owner) (hash : Hash)
  | transferOwner (source target : Owner) (hashes : Option (List Hash))
  | releaseOwner (owner : Owner)
  | releaseOwnerOf (owner : Owner) (hash : Hash)
  | commitRoute (route : String) (size : ℕ) (components : List (RouteComponent Hash))
      (uploadOwner : Owner)
  | reconcile (retries : Hash → Option String)

/-- An operation at a time, with the outcome of its file removals and, for an interrupted one, the
number of commits before the stop. -/
structure BlobLabel (Hash Content : Type) where
  op : BlobOp Hash Content
  now : ℕ
  fails : Hash → Option String
  stop : Option ℕ

section Machine

variable (digest : Content → Hash) (length : Content → ℕ)

def BlobLabel.program (l : BlobLabel Hash Content) : StoreProgram Hash Content Unit :=
  match l.op with
  | .reserve token bytes => reserve l.fails token bytes l.now
  | .releaseReservation token => releaseReservation token
  | .promote content origin owner token =>
    promote digest length content origin owner token l.now >>= fun _ => pure ()
  | .lookup hash => lookup hash l.now >>= fun _ => pure ()
  | .releaseLease hash => releaseLease l.fails l.now hash
  | .acquireOwner owner hash => acquireOwner owner hash
  | .transferOwner source target hashes => transferOwner l.fails l.now source target hashes
  | .releaseOwner owner => releaseOwner l.fails l.now owner
  | .releaseOwnerOf owner hash => releaseOwnerOf l.fails l.now owner hash
  | .commitRoute route size components uploadOwner =>
    commitRoute l.fails l.now route size components uploadOwner
  | .reconcile retries => reconcile digest length l.fails retries l.now

def dropLeases (s : BlobStore Hash Content) : BlobStore Hash Content :=
  { s with leases := fun _ => 0 }

def blobStep (s : BlobStore Hash Content) (l : BlobLabel Hash Content) : BlobStore Hash Content :=
  match l.stop with
  | none => ((l.program digest length).run s).final s
  | some k => (((l.program digest length).run s).crash s k).dropLeases

def live (s : BlobStore Hash Content) (x : Hash) : Bool :=
  s.owned x || s.leased x || s.referenced x

def intact (s : BlobStore Hash Content) (x : Hash) : Bool :=
  match s.row? x, s.file? x with
  | some r, some f => r.state = .ready ∧ length f.content = r.size
  | _, _ => false

/-- Every live blob has a ready row and its file with the recorded size. -/
def LiveIntact (s : BlobStore Hash Content) : Prop :=
  ∀ x, s.live x = true → s.intact length x = true

/-- The steps that cannot lose a live blob: content is admitted under a digest that stands for
content of the same length, an owner is added only while the file is there, the owner of a route is
never released, and the store is reconciled only while no tombstone names a live blob. -/
def Allowed (s : BlobStore Hash Content) (l : BlobLabel Hash Content) : Prop :=
  match l.op with
  | .promote content _ _ _ =>
    (s.row? (digest content)).all (fun r => r.size = length content) = true ∧
      (s.file? (digest content)).all (fun f => length f.content = length content) = true
  | .acquireOwner _ hash => s.has hash = true → (s.file? hash).isSome = true
  | .transferOwner source _ _ => source.isRoute = false
  | .releaseOwner owner => owner.isRoute = false
  | .releaseOwnerOf owner _ => owner.isRoute = false
  | .commitRoute _ _ _ uploadOwner => uploadOwner.isRoute = false
  | .reconcile _ => ∀ t ∈ s.db.tombstones.rows, s.live t.hash = false
  | _ => True

instance (s : BlobStore Hash Content) (l : BlobLabel Hash Content) :
    Decidable (Allowed digest length s l) := by
  unfold Allowed
  split <;> infer_instance

end Machine

/-- What a view must satisfy for its blob to be safe.  A row and a file of one hash agree on the
size even when nothing refers to the blob, and a route keeps its own owner row on its components. -/
structure View.Sound (length : Content → ℕ) (v : View Hash Content) : Prop where
  live : v.Live → (∃ r, v.row = some r ∧ r.state = .ready) ∧ v.file.isSome = true
  size : ∀ r f, v.row = some r → v.file = some f → length f.content = r.size
  routed : ∀ c ∈ v.components, Owner.route c.route ∈ v.owners

/-- Every view of the state is sound. -/
def Sound (length : Content → ℕ) (s : BlobStore Hash Content) : Prop :=
  Each (fun _ => View.Sound length) s

/-- Every view is sound, and its owners and components satisfy a condition of their own. -/
def SoundUnder (length : Content → ℕ) (K : Hash → Set Owner → Set (ComponentRow Hash) → Prop)
    (s : BlobStore Hash Content) : Prop :=
  Each (fun x v => v.Sound length ∧ K x v.owners v.components) s

theorem SoundUnder.sound {length : Content → ℕ}
    {K : Hash → Set Owner → Set (ComponentRow Hash) → Prop} {s : BlobStore Hash Content}
    (h : s.SoundUnder length K) : s.Sound length :=
  fun x => (h x).1

theorem Sound.under {length : Content → ℕ} {s : BlobStore Hash Content} (h : s.Sound length) :
    s.SoundUnder length fun _ _ _ => True :=
  fun x => ⟨h x, trivial⟩

theorem live_iff (s : BlobStore Hash Content) (x : Hash) :
    s.live x = true ↔ (s.view x).Live := by
  rw [live, Bool.or_eq_true, Bool.or_eq_true, owned_iff, leased_iff, referenced_iff, or_assoc]
  rfl

theorem sound_liveIntact {length : Content → ℕ} {s : BlobStore Hash Content}
    (h : s.Sound length) : s.LiveIntact length := by
  intro x hx
  obtain ⟨⟨r, hr, hready⟩, hfile⟩ := (h x).live ((s.live_iff x).mp hx)
  obtain ⟨f, hf⟩ := Option.isSome_iff_exists.mp hfile
  have hsize := (h x).size r f hr hf
  change s.row? x = some r at hr
  change s.file? x = some f at hf
  simp [intact, hr, hf, hready, hsize]

theorem sound_empty (length : Content → ℕ) (capacity : ℕ) :
    (empty capacity : BlobStore Hash Content).Sound length := by
  intro x
  refine ⟨?_, fun r f hr => by simp [view, row?, empty] at hr, fun c hc => ?_⟩
  · rintro (⟨o, ho⟩ | hl | ⟨c, hc⟩)
    · simp [view, empty] at ho
    · simp [view, empty] at hl
    · simp [view, empty] at hc
  · simp [view, empty] at hc

namespace View.Sound

variable {length : Content → ℕ} {v : View Hash Content}

omit [LinearOrder Hash] in
theorem unref (h : v.Sound length) {owners : Set Owner} {leases : ℕ} (howners : owners ⊆ v.owners)
    (hleases : leases ≤ v.leases) (hroute : ∀ c ∈ v.components, Owner.route c.route ∈ owners) :
    View.Sound length { v with owners := owners, leases := leases } where
  live hlive := h.live (hlive.imp (fun ho => ho.mono howners) (Or.imp_left fun hl => hl.trans_le hleases))
  size := h.size
  routed := hroute

omit [LinearOrder Hash] in
theorem addRef (h : v.Sound length) (hlive : v.Live) {owners : Set Owner} {leases : ℕ}
    (howners : v.owners ⊆ owners) : View.Sound length { v with owners := owners, leases := leases } where
  live _ := h.live hlive
  size := h.size
  routed c hc := howners (h.routed c hc)

omit [LinearOrder Hash] in
theorem unowned_dead (h : v.Sound length) (howners : ¬v.owners.Nonempty) (hleases : ¬0 < v.leases) :
    ¬v.Live := by
  rintro (ho | hl | ⟨c, hc⟩)
  · exact howners ho
  · exact hleases hl
  · exact howners ⟨_, h.routed c hc⟩

end View.Sound

omit [LinearOrder Hash] in
theorem dead_deletable (length : Content → ℕ) :
    Deletable fun v : View Hash Content => v.Sound length ∧ ¬v.Live where
  deleting := by
    rintro v ⟨hv, hdead⟩
    refine ⟨⟨fun hlive => absurd hlive hdead, fun r f hr hf => ?_, hv.routed⟩, hdead⟩
    obtain ⟨q, hq, rfl⟩ := Option.map_eq_some_iff.mp hr
    exact hv.size q f hq hf
  file := by
    rintro v ⟨hv, hdead⟩
    exact ⟨⟨fun hlive => absurd hlive hdead, fun r f _ hf => by simp [View.withoutFile] at hf,
      hv.routed⟩, hdead⟩
  row := by
    rintro v ⟨hv, hdead⟩
    have hdead' : ¬v.withoutRow.Live := by
      rintro (⟨o, ho⟩ | hl | hc)
      · exact ho
      · exact hdead (Or.inr (Or.inl hl))
      · exact hdead (Or.inr (Or.inr hc))
    refine ⟨⟨fun hlive => absurd hlive hdead', fun r f hr => by simp [View.withoutRow] at hr,
      fun c hc => ?_⟩, hdead'⟩
    exact absurd (Or.inr (Or.inr ⟨c, hc⟩)) hdead
  tombstone := fun v t hv => ⟨⟨hv.1.live, hv.1.size, hv.1.routed⟩, hv.2⟩

omit [LinearOrder Hash] in
theorem View.not_live {v : View Hash Content} (h : ¬v.Live) :
    v.owners = ∅ ∧ v.components = ∅ := by
  constructor <;> refine Set.not_nonempty_iff_eq_empty.mp fun hne => h ?_
  · exact Or.inl hne
  · exact Or.inr (Or.inr hne)

omit [LinearOrder Hash] in
theorem Deletable.under {G : View Hash Content → Prop} (hG : Deletable fun v => G v ∧ ¬v.Live)
    (K : Set Owner → Set (ComponentRow Hash) → Prop) :
    Deletable fun v : View Hash Content => (G v ∧ K v.owners v.components) ∧ ¬v.Live where
  deleting v hv := by
    obtain ⟨hg, hdead⟩ := hG.deleting v ⟨hv.1.1, hv.2⟩
    exact ⟨⟨hg, hv.1.2⟩, hdead⟩
  file v hv := by
    obtain ⟨hg, hdead⟩ := hG.file v ⟨hv.1.1, hv.2⟩
    exact ⟨⟨hg, hv.1.2⟩, hdead⟩
  row v hv := by
    obtain ⟨hg, hdead⟩ := hG.row v ⟨hv.1.1, hv.2⟩
    refine ⟨⟨hg, ?_⟩, hdead⟩
    have hK := hv.1.2
    rw [(View.not_live hv.2).1] at hK
    exact hK
  tombstone v t hv := by
    obtain ⟨hg, hdead⟩ := hG.tombstone v t ⟨hv.1.1, hv.2⟩
    exact ⟨⟨hg, hv.1.2⟩, hdead⟩

section Operations

variable {length : Content → ℕ} (fails : Hash → Option String) (now : ℕ)
variable {K : Hash → Set Owner → Set (ComponentRow Hash) → Prop}

theorem delete_sound (length : Content → ℕ) (dead : Hash → Prop) {h : Hash} (hdead : dead h) :
    Preserves (Each fun x v =>
        (View.Sound length v ∧ K x v.owners v.components) ∧ (dead x → ¬v.Live))
      (delete fails now h : StoreProgram Hash Content Unit) := by
  refine delete_each ?_ fails now
  have hdead' : Deletable fun v : View Hash Content => v.Sound length ∧ ¬v.Live := dead_deletable length
  have hd := hdead'.under (K h)
  exact
    { deleting := fun v hv => (hd.deleting v ⟨hv.1, hv.2 hdead⟩).imp_right fun h _ => h
      file := fun v hv => (hd.file v ⟨hv.1, hv.2 hdead⟩).imp_right fun h _ => h
      row := fun v hv => (hd.row v ⟨hv.1, hv.2 hdead⟩).imp_right fun h _ => h
      tombstone := fun v t hv => (hd.tombstone v t ⟨hv.1, hv.2 hdead⟩).imp_right fun h _ => h }

theorem deleteIfUnownedWrite_sound (h : Hash) :
    Preserves (SoundUnder length K)
      (deleteIfUnownedWrite fails now h : StoreProgram Hash Content Unit) := by
  unfold deleteIfUnownedWrite
  refine Triple.bind (R := fun a s => SoundUnder length K s ∧ a = s)
    (Triple.read fun s hs => ⟨hs, rfl⟩) fun a => ?_
  split
  · exact Triple.pure _ fun s hs => hs.1
  split
  · exact Triple.pure _ fun s hs => hs.1
  rename_i hleased howned
  have hdelete : Triple (fun s => SoundUnder length K s ∧ a = s)
      (delete fails now h : StoreProgram Hash Content Unit) (SoundUnder length K)
      fun _ => SoundUnder length K := by
    refine (delete_sound (K := K) fails now length (fun x => x = h) rfl).mono ?_ ?_ ?_
    · rintro s ⟨hs, rfl⟩ x
      refine ⟨hs x, ?_⟩
      rintro rfl
      rw [leased_iff] at hleased
      rw [owned_iff] at howned
      exact (hs x).1.unowned_dead howned hleased
    · exact fun s hs x => (hs x).1
    · exact fun _ s hs x => (hs x).1
  split
  · split
    · exact hdelete
    · exact Triple.pure _ fun s hs => hs.1
  · exact Triple.pure _ fun s hs => hs.1

theorem sweepWrites_sound :
    Preserves (SoundUnder length K) (sweepWrites fails now : StoreProgram Hash Content Unit) := by
  refine Preserves.bind Preserves.read fun s => ?_
  exact Preserves.forEach fun item _ => deleteIfUnownedWrite_sound fails now item.hash

def Removes (K : Hash → Set Owner → Set (ComponentRow Hash) → Prop) (o : Owner) : Prop :=
  ∀ x S C, K x S C → K x (S \ {o}) C

def Adds (K : Hash → Set Owner → Set (ComponentRow Hash) → Prop) (o : Owner) : Prop :=
  ∀ x S C, K x S C → K x (insert o S) C

theorem removeOwnerAll_sound {s : BlobStore Hash Content} (hs : s.SoundUnder length K) {o : Owner}
    (ho : o.isRoute = false) (hK : Removes K o) : (s.removeOwnerAll o).SoundUnder length K := by
  intro x
  rw [view_removeOwnerAll]
  refine ⟨(hs x).1.unref Set.sdiff_subset le_rfl fun c hc => ⟨(hs x).1.routed c hc, ?_⟩,
    hK _ _ _ (hs x).2⟩
  rintro rfl
  simp [Owner.isRoute] at ho

theorem removeOwner_sound {s : BlobStore Hash Content} (hs : s.SoundUnder length K) (h : Hash)
    {o : Owner} (ho : o.isRoute = false) (hK : Removes K o) :
    (s.removeOwner h o).SoundUnder length K := by
  refine each_update hs ?_ fun x => s.view_removeOwner h x o
  refine ⟨(hs h).1.unref Set.sdiff_subset le_rfl fun c hc => ⟨(hs h).1.routed c hc, ?_⟩,
    hK _ _ _ (hs h).2⟩
  rintro rfl
  simp [Owner.isRoute] at ho

theorem addOwner_sound {s : BlobStore Hash Content} (hs : s.SoundUnder length K) {h : Hash}
    {o : Owner} (hlive : (s.view h).Live) (hK : Adds K o) :
    (s.addOwner h o).SoundUnder length K :=
  each_update hs ⟨(hs h).1.addRef hlive (Set.subset_insert _ _), hK _ _ _ (hs h).2⟩
    fun x => s.view_addOwner h x o

theorem copyOwner_sound {s : BlobStore Hash Content} (hs : s.SoundUnder length K) (a : Owner)
    {b : Owner} (hK : Adds K b) : (s.copyOwner a b).SoundUnder length K := by
  intro x
  rw [view_copyOwner]
  by_cases ha : a ∈ (s.view x).owners
  · have howners : {o | o ∈ (s.view x).owners ∨ o = b ∧ a ∈ (s.view x).owners} =
        insert b (s.view x).owners := by
      ext o
      simp [ha, or_comm]
    refine ⟨(hs x).1.addRef (Or.inl ⟨a, ha⟩) fun o ho => Or.inl ho, ?_⟩
    simp only [howners]
    exact hK _ _ _ (hs x).2
  · have howners : {o | o ∈ (s.view x).owners ∨ o = b ∧ a ∈ (s.view x).owners} =
        (s.view x).owners := by
      ext o
      simp [ha]
    simp only [howners]
    exact hs x

theorem releaseOwner_sound {o : Owner} (ho : o.isRoute = false) (hK : Removes K o) :
    Preserves (SoundUnder length K)
      (releaseOwner fails now o : StoreProgram Hash Content Unit) := by
  refine Preserves.bind Preserves.read fun s => ?_
  refine Preserves.bind (Preserves.commit fun t ht => removeOwnerAll_sound ht ho hK) fun _ => ?_
  exact Preserves.forEach fun h _ => deleteIfUnownedWrite_sound fails now h

theorem releaseOwnerOf_sound {o : Owner} (ho : o.isRoute = false) (hK : Removes K o) (h : Hash) :
    Preserves (SoundUnder length K)
      (releaseOwnerOf fails now o h : StoreProgram Hash Content Unit) :=
  Preserves.bind (Preserves.commit fun _ hs => removeOwner_sound hs h ho hK) fun _ =>
    deleteIfUnownedWrite_sound fails now h

theorem transferOwner_sound {a b : Owner} (ha : a.isRoute = false) (hremoves : Removes K a)
    (hadds : Adds K b) (hashes : Option (List Hash)) :
    Preserves (SoundUnder length K)
      (transferOwner fails now a b hashes : StoreProgram Hash Content Unit) := by
  refine Preserves.bind (Preserves.commit fun s hs => ?_) fun _ => sweepWrites_sound fails now
  cases hashes with
  | none => exact removeOwnerAll_sound (copyOwner_sound hs a hadds) ha hremoves
  | some hashes =>
    induction hashes generalizing s with
    | nil => exact hs
    | cons h rest ih =>
      refine ih _ (removeOwner_sound ?_ h ha hremoves)
      split
      · rename_i hmem
        exact addOwner_sound hs (Or.inl ⟨a, (s.mem_ownedBy h).mp hmem⟩) hadds
      · exact hs

theorem releaseLease_sound (h : Hash) :
    Preserves (SoundUnder length K)
      (releaseLease fails now h : StoreProgram Hash Content Unit) := by
  refine Preserves.bind (Preserves.commit fun s hs => ?_) fun _ =>
    deleteIfUnownedWrite_sound fails now h
  refine each_update hs ?_ fun x => s.view_setLease h x _
  exact ⟨(hs h).1.unref subset_rfl (Nat.sub_le _ _) (hs h).1.routed, (hs h).2⟩

/-- What eviction leaves unchanged: live views as a whole, and of the others at least that no file
appears and no lease is taken. -/
def Evicting (length : Content → ℕ) (s : BlobStore Hash Content) (x : Hash)
    (v : View Hash Content) : Prop :=
  (v.Sound length ∧ (¬(s.view x).Live → ¬v.Live)) ∧ ((s.view x).Live → v = s.view x) ∧
    (v.file = (s.view x).file ∨ v.file = none) ∧ v.leases = (s.view x).leases

theorem delete_evicting {s : BlobStore Hash Content} {h : Hash} (hdead : ¬(s.view h).Live) :
    Preserves (Each (Evicting length s)) (delete fails now h : StoreProgram Hash Content Unit) := by
  refine delete_each ?_ fails now
  have hd : Deletable fun v : View Hash Content => v.Sound length ∧ ¬v.Live := dead_deletable length
  exact
    { deleting := fun v ⟨hv, _, hf, hl⟩ =>
        ⟨(hd.deleting v ⟨hv.1, hv.2 hdead⟩).imp_right fun h _ => h, fun h => absurd h hdead, hf, hl⟩
      file := fun v ⟨hv, _, _, hl⟩ =>
        ⟨(hd.file v ⟨hv.1, hv.2 hdead⟩).imp_right fun h _ => h, fun h => absurd h hdead,
          Or.inr rfl, hl⟩
      row := fun v ⟨hv, _, hf, hl⟩ =>
        ⟨(hd.row v ⟨hv.1, hv.2 hdead⟩).imp_right fun h _ => h, fun h => absurd h hdead, hf, hl⟩
      tombstone := fun v t ⟨hv, _, hf, hl⟩ =>
        ⟨(hd.tombstone v t ⟨hv.1, hv.2 hdead⟩).imp_right fun h _ => h, fun h => absurd h hdead,
          hf, hl⟩ }

theorem evict_evicting {s : BlobStore Hash Content} (hs : s.Sound length) (required : ℕ)
    {hashes : List Hash} (hunowned : ∀ h ∈ hashes, s.owned h = false) :
    Preserves (Each (Evicting length s))
      (evict fails now required hashes : StoreProgram Hash Content Unit) := by
  induction hashes with
  | nil => exact Preserves.pure _
  | cons h rest ih =>
    obtain ⟨hh, hrest⟩ := List.forall_mem_cons.mp hunowned
    unfold evict
    refine Triple.bind (R := fun a t => Each (Evicting length s) t ∧ a = t)
      (Triple.read fun t ht => ⟨ht, rfl⟩) fun a => ?_
    split
    · exact (ih hrest).mono (fun t ht => ht.1) (fun _ ht => ht) fun _ _ ht => ht
    · rename_i hleased
      intro t ht
      obtain ⟨ht, rfl⟩ := ht
      have hdead : ¬(s.view h).Live := by
        refine (hs h).unowned_dead (fun ho => ?_) ?_
        · rw [← owned_iff, hh] at ho
          cases ho
        · rw [← (ht h).2.2.2, ← leased_iff]
          exact hleased
      refine Triple.bind (delete_evicting fails now hdead) (fun _ => ?_) a ht
      refine Preserves.bind Preserves.read fun u => ?_
      split
      · exact Preserves.pure _
      · exact ih hrest

theorem evicting_self {s : BlobStore Hash Content} (hs : s.Sound length) :
    Each (Evicting length s) s :=
  fun x => ⟨⟨hs x, fun h => h⟩, fun _ => rfl, Or.inl rfl, rfl⟩

theorem evictable_unowned (s : BlobStore Hash Content) {h : Hash} (hh : h ∈ s.evictable) :
    s.owned h = false := by
  simp only [evictable, List.mem_map, List.mem_insertionSort, List.mem_filter,
    decide_eq_true_eq] at hh
  obtain ⟨r, ⟨-, -, -, howned⟩, rfl⟩ := hh
  exact howned

/-- After a rollback the rows of evicted blobs are back without their files, and live blobs are as
they were. -/
theorem rollback_sound {s t : BlobStore Hash Content} (hs : s.SoundUnder length K)
    (ht : Each (Evicting length s) t) : (rollback s t).SoundUnder length K := by
  intro x
  obtain ⟨-, hlive, hfile, hleases⟩ := ht x
  have hview : (rollback s t).view x = { s.view x with file := (t.view x).file } := by
    have hl : t.leases x = s.leases x := hleases
    ext <;> simp [rollback, view, row?, file?, hl]
  rw [hview]
  refine ⟨⟨fun h => ?_, fun r f hr hf => ?_, (hs x).1.routed⟩, (hs x).2⟩
  · have hv := (hs x).1.live h
    rw [hlive h]
    exact hv
  · rcases hfile with hfile | hfile
    · exact (hs x).1.size r f hr (hfile ▸ hf)
    · rw [show (t.view x).file = some f from hf] at hfile
      cases hfile

theorem makeSpace_evicting {s : BlobStore Hash Content} (hs : s.Sound length) (required : ℕ) :
    Triple (fun t => s = t) (makeSpace fails now required : StoreProgram Hash Content Unit)
      (Each (Evicting length s)) fun _ => Each (Evicting length s) := by
  refine Triple.bind (R := fun a t => a = s ∧ s = t) (Triple.read fun t ht => ⟨ht.symm, ht⟩)
    fun a => ?_
  split
  · exact Triple.pure _ fun t ht => ht.2 ▸ evicting_self hs
  · intro t ht
    obtain ⟨rfl, rfl⟩ := ht
    exact evict_evicting fails now hs required (fun h hh => a.evictable_unowned hh) a
      (evicting_self hs)

theorem evicting_under {s t : BlobStore Hash Content} (hs : s.SoundUnder length K)
    (ht : Each (Evicting length s) t) : t.SoundUnder length K := by
  intro x
  obtain ⟨⟨hsound, hdead⟩, hlive, -, -⟩ := ht x
  refine ⟨hsound, ?_⟩
  by_cases hx : (s.view x).Live
  · rw [hlive hx]
    exact (hs x).2
  · have hK := (hs x).2
    rw [(View.not_live hx).1, (View.not_live hx).2] at hK
    rw [(View.not_live (hdead hx)).1, (View.not_live (hdead hx)).2]
    exact hK

theorem reserve_sound (token : String) (bytes : ℕ) :
    Preserves (SoundUnder length K)
      (reserve fails token bytes now : StoreProgram Hash Content Unit) := by
  refine Preserves.bind Preserves.read fun s => ?_
  split
  · exact Preserves.throw _
  refine Triple.atomically fun s hs => ?_
  have hinner : Triple (fun t => s = t)
      (makeSpace fails now bytes >>= fun _ => insertReservation token bytes now)
      (Each (Evicting length s)) fun _ => Each (Evicting length s) := by
    refine Triple.bind (makeSpace_evicting fails now hs.sound bytes) fun _ => ?_
    refine Preserves.transaction fun t a u ht hu => ?_
    split at hu
    · split at hu
      · cases hu
      · cases hu
        exact ht
    · cases hu
  obtain ⟨hcommits, hresult⟩ := hinner s rfl
  exact ⟨fun t ht => rollback_sound hs (hcommits t ht),
    fun a ha => ⟨evicting_under hs (hresult a ha), evicting_under hs (hresult a ha)⟩⟩

theorem releaseReservation_sound (token : String) :
    Preserves (SoundUnder length K) (releaseReservation token : StoreProgram Hash Content Unit) :=
  Preserves.commit fun _ hs => hs

theorem recordReady_view {s t : BlobStore Hash Content} {h : Hash} {size : ℕ} {origin : BlobOrigin}
    (ht : s.recordReady h size origin now = .ok t) :
    ∃ r, r.state = .ready ∧ r.size = size ∧
      ∀ x, t.view x = if x = h then { s.view h with row := some r } else s.view x := by
  unfold recordReady at ht
  split at ht
  · cases ht
    refine ⟨⟨h, size, origin, now, .ready⟩, rfl, rfl, fun x => ?_⟩
    have hrow := Table.find?_insertOrReplace s.db.catalog ⟨h, size, origin, now, .ready⟩ x
    split_ifs with hx
    · subst hx
      simp only [if_true] at hrow
      simp only [view, row?, hrow]
      rfl
    · simp only [show ¬h = x from fun he => hx he.symm, if_false] at hrow
      simp only [view, row?, hrow]
      rfl
  · rename_i existing hexisting
    split at ht
    · cases ht
    · rename_i hsize
      cases ht
      refine ⟨{ existing with
        origin := if existing.origin ≠ origin then .mixed else origin
        lastAccessed := now
        state := .ready }, rfl, not_not.mp hsize, fun x => ?_⟩
      have hrow := Table.find?_updateAt s.db.catalog
        (fun r => { r with
          origin := if existing.origin ≠ origin then .mixed else origin
          lastAccessed := now
          state := .ready }) h (fun r => by split <;> rfl) x
      change s.db.catalog.find? h = some existing at hexisting
      rw [hexisting] at hrow
      by_cases hx : x = h
      · subst hx
        rw [if_pos rfl] at hrow ⊢
        simp only [view, row?, hrow]
        rfl
      · rw [if_neg hx] at hrow ⊢
        simp only [view, row?, hrow]
        rfl

theorem promote_sound (digest : Content → Hash) (content : Content) (origin : BlobOrigin)
    (owner : Option Owner) (token : String) (hK : ∀ o, owner = some o → Adds K o) :
    Triple (fun s => s.SoundUnder length K ∧
        (s.row? (digest content)).all (fun r => r.size = length content) = true ∧
        (s.file? (digest content)).all (fun f => length f.content = length content) = true)
      (promote digest length content origin owner token now) (SoundUnder length K)
      fun _ => SoundUnder length K := by
  refine Triple.bind (R := fun _ s => s.SoundUnder length K ∧
    ∃ f, (s.view (digest content)).file = some f ∧ length f.content = length content) ?_ fun _ => ?_
  · have hlink : ∀ s : BlobStore Hash Content, (s.SoundUnder length K ∧
        (s.row? (digest content)).all (fun r => r.size = length content) = true ∧
        (s.file? (digest content)).all (fun f => length f.content = length content) = true) →
        (s.linkFile (digest content) content).SoundUnder length K ∧
        ∃ f, ((s.linkFile (digest content) content).view (digest content)).file = some f ∧
          length f.content = length content := by
      rintro s ⟨hs, hrow, hfile⟩
      have hnew : ∃ f, (s.view (digest content)).file.or (some ⟨digest content, content⟩) = some f ∧
          length f.content = length content := by
        change (s.view (digest content)).file.all _ = true at hfile
        cases hf : (s.view (digest content)).file with
        | none => exact ⟨_, rfl, rfl⟩
        | some f => exact ⟨f, rfl, by simpa [hf] using hfile⟩
      obtain ⟨f, hf, hlength⟩ := hnew
      refine ⟨each_update hs ?_ fun x => s.view_linkFile (digest content) x content, f, ?_, hlength⟩
      · refine ⟨⟨fun hlive => ⟨((hs _).1.live hlive).1, by rw [hf]; rfl⟩, fun r g hr hg => ?_,
          (hs _).1.routed⟩, (hs _).2⟩
        change (s.view (digest content)).row.all _ = true at hrow
        rw [show (s.view (digest content)).row = some r from hr] at hrow
        obtain rfl : f = g := Option.some.inj (hf.symm.trans hg)
        rw [hlength]
        simpa using Eq.symm (of_decide_eq_true hrow)
      · rw [view_linkFile, if_pos rfl]
        exact hf
    exact Triple.commit (fun s hs => (hlink s hs).1) fun s hs => hlink s hs
  · refine Triple.bind (R := fun _ => SoundUnder length K)
      (Triple.transaction fun s a t hs ht => ?_)
      fun _ => Preserves.bind Preserves.read fun _ => Preserves.pure _
    obtain ⟨hs, f, hf, hlength⟩ := hs
    suffices h : t.SoundUnder length K from ⟨h, h⟩
    split at ht
    · cases ht
    · rename_i u hu
      obtain ⟨r, hready, hsize, hview⟩ := recordReady_view now hu
      have huSound : u.SoundUnder length K := by
        refine each_update (v := { s.view (digest content) with row := some r }) hs
          ⟨⟨fun _ => ⟨⟨r, rfl, hready⟩, by rw [hf]; rfl⟩, ?_, (hs _).1.routed⟩, (hs _).2⟩ hview
        intro q g hq hg
        cases hq
        obtain rfl : f = g := Option.some.inj (hf.symm.trans hg)
        exact hlength.trans hsize.symm
      cases ht
      cases owner with
      | none => exact huSound
      | some o =>
        refine each_update huSound (v := { u.view (digest content) with
          owners := insert o (u.view (digest content)).owners }) ?_
          fun x => u.view_addOwner (digest content) x o
        have hu' := huSound (digest content)
        rw [hview, if_pos rfl] at hu' ⊢
        exact ⟨⟨fun _ => ⟨⟨r, rfl, hready⟩, by rw [hf]; rfl⟩, hu'.1.size,
          fun c hc => Or.inr (hu'.1.routed c hc)⟩, hK o rfl _ _ _ hu'.2⟩

theorem touch_sound {s : BlobStore Hash Content} (hs : s.SoundUnder length K) (h : Hash) :
    (s.touch h now).SoundUnder length K := by
  refine each_update hs ?_ fun x => s.view_touch h x now
  refine ⟨⟨fun hlive => ?_, fun r f hr hf => ?_, (hs h).1.routed⟩, (hs h).2⟩
  · obtain ⟨⟨r, hr, hready⟩, hfile⟩ := (hs h).1.live hlive
    exact ⟨⟨{ r with lastAccessed := now }, by rw [hr]; rfl, hready⟩, hfile⟩
  · obtain ⟨q, hq, rfl⟩ := Option.map_eq_some_iff.mp hr
    exact (hs h).1.size q f hq hf

theorem lookup_sound (h : Hash) :
    Preserves (SoundUnder length K)
      (lookup h now : StoreProgram Hash Content (Option ℕ)) := by
  refine Triple.bind (R := fun a s => SoundUnder length K s ∧ a = s)
    (Triple.read fun s hs => ⟨hs, rfl⟩) fun a => ?_
  split
  · exact Triple.pure _ fun s hs => hs.1
  rename_i r hr
  split
  · rename_i hready
    have hlease : ∀ s, SoundUnder length K s ∧ a = s →
        SoundUnder length K (s.setLease h (s.leases h + 1)) := by
      rintro s ⟨hs, rfl⟩
      refine each_update hs ?_ fun x => a.view_setLease h x _
      exact ⟨⟨fun _ => ⟨⟨r, hr, hready.1⟩, hready.2⟩, (hs h).1.size, (hs h).1.routed⟩, (hs h).2⟩
    refine Triple.bind (R := fun _ => SoundUnder length K) (Triple.commit hlease hlease) fun _ => ?_
    exact Preserves.bind (Preserves.commit fun s hs => touch_sound now hs h) fun _ =>
      Preserves.pure _
  · exact Triple.pure _ fun s hs => hs.1

theorem acquireOwner_sound {owner : Owner} (hK : Adds K owner) (h : Hash) :
    Triple (fun s => s.SoundUnder length K ∧ (s.has h = true → (s.file? h).isSome = true))
      (acquireOwner owner h : StoreProgram Hash Content Unit) (SoundUnder length K)
      fun _ => SoundUnder length K := by
  refine Triple.transaction fun s a t hs ht => ?_
  suffices htSound : t.SoundUnder length K from ⟨htSound, htSound⟩
  obtain ⟨hs, hfile⟩ := hs
  split at ht
  · rename_i hhas
    cases ht
    refine each_update hs ?_ fun x => s.view_addOwner h x owner
    exact ⟨⟨fun _ => ⟨(s.has_iff h).mp hhas, hfile hhas⟩, (hs h).1.size, fun c hc =>
      Or.inr ((hs h).1.routed c hc)⟩, hK _ _ _ (hs h).2⟩
  · cases ht

/-- The condition outlives a new component of a route, which comes with the owner of the route. -/
def Routes (K : Hash → Set Owner → Set (ComponentRow Hash) → Prop) : Prop :=
  ∀ x S C (c : ComponentRow Hash), K x S C → K x (insert (Owner.route c.route) S) (insert c C)

theorem view_insertComponent {s : BlobStore Hash Content} {row : ComponentRow Hash}
    {components : Table (ComponentRow.key : ComponentRow Hash → String × ℕ)}
    (h : s.db.components.insert? row = some components) (x : Hash) :
    view { s with db := { s.db with components := components } } x =
      if x = row.hash then
        { s.view row.hash with components := insert row (s.view row.hash).components }
      else s.view x := by
  obtain ⟨-, hrows⟩ := Table.insert?_eq_some.mp h
  split_ifs with hx
  · subst hx
    ext c <;> simp only [view, row?, file?, hrows, List.mem_append, List.mem_singleton]
    simp only [Set.mem_ofPred_eq, Set.mem_insert_iff]
    constructor
    · rintro ⟨hc | rfl, hhash⟩
      · exact Or.inr ⟨hc, hhash⟩
      · exact Or.inl rfl
    · rintro (rfl | ⟨hc, hhash⟩)
      · exact ⟨Or.inr rfl, rfl⟩
      · exact ⟨Or.inl hc, hhash⟩
  · ext c <;> simp only [view, row?, file?, hrows, List.mem_append, List.mem_singleton]
    simp only [Set.mem_ofPred_eq, and_congr_left_iff, or_iff_left_iff_imp]
    rintro hcx rfl
    exact absurd hcx.symm hx

theorem insertComponents_sound {route : String} {o : Owner} {components : List (RouteComponent Hash)}
    {s t : BlobStore Hash Content} (hs : s.SoundUnder length K) (hK : Routes K)
    (ht : insertComponents route o components s = .ok t) : t.SoundUnder length K := by
  induction components generalizing s with
  | nil =>
    cases ht
    exact hs
  | cons item rest ih =>
    unfold insertComponents at ht
    split at ht
    · rename_i howned
      split at ht
      · cases ht
      · rename_i components hinsert
        refine ih ?_ ht
        have hlive := (hs item.hash).1.live (Or.inl ⟨o, (s.mem_ownedBy item.hash).mp howned⟩)
        intro x
        rw [view_addOwner, view_insertComponent hinsert, view_insertComponent hinsert]
        by_cases hx : x = item.hash
        · subst hx
          simp only [if_true]
          refine ⟨⟨fun _ => hlive, (hs _).1.size, ?_⟩,
            hK _ _ _ ⟨route, item.index, item.hash, item.size⟩ (hs _).2⟩
          rintro c (rfl | hc)
          · exact Or.inl rfl
          · exact Or.inr ((hs _).1.routed c hc)
        · rw [if_neg hx, if_neg hx]
          exact hs x
    · cases ht

theorem commitRoute_sound {o : Owner} (ho : o.isRoute = false) (hK : Removes K o)
    (hroutes : Routes K) (route : String) (size : ℕ) (components : List (RouteComponent Hash)) :
    Preserves (SoundUnder length K)
      (commitRoute fails now route size components o : StoreProgram Hash Content Unit) := by
  refine Preserves.bind Preserves.read fun s => ?_
  dsimp only
  split
  · split
    · exact Preserves.throw _
    · exact releaseOwner_sound fails now ho hK
  · refine Preserves.transaction fun s a t hs ht => ?_
    unfold insertRoute at ht
    split at ht
    · cases ht
    · rename_i u hu
      split at ht
      · cases ht
      · cases ht
        exact removeOwnerAll_sound (insertComponents_sound hs hroutes hu) ho hK

/-- What the first pass of a reconcile keeps: no row takes another size or leaves the state
`deleting`, and every tombstoned blob is dead. -/
def Repairing (length : Content → ℕ) (s : BlobStore Hash Content) (x : Hash)
    (v : View Hash Content) : Prop :=
  v.Sound length ∧ (v.tombstone.isSome = true → ¬v.Live) ∧
    ∀ p, (s.view x).row = some p → ∀ r, v.row = some r →
      r.size = p.size ∧ (p.state = .deleting → r.state = .deleting)

theorem repairing_dead {s : BlobStore Hash Content} (x : Hash) :
    Deletable fun v => Repairing length s x v ∧ ¬v.Live where
  deleting := by
    rintro v ⟨⟨hv, -, hrow⟩, hdead⟩
    obtain ⟨hv', hdead'⟩ := (dead_deletable length).deleting v ⟨hv, hdead⟩
    refine ⟨⟨hv', fun _ => hdead', fun p hp r hr => ?_⟩, hdead'⟩
    obtain ⟨q, hq, rfl⟩ := Option.map_eq_some_iff.mp hr
    exact ⟨(hrow p hp q hq).1, fun _ => rfl⟩
  file := by
    rintro v ⟨⟨hv, -, hrow⟩, hdead⟩
    obtain ⟨hv', hdead'⟩ := (dead_deletable length).file v ⟨hv, hdead⟩
    exact ⟨⟨hv', fun _ => hdead', hrow⟩, hdead'⟩
  row := by
    rintro v ⟨⟨hv, -, -⟩, hdead⟩
    obtain ⟨hv', hdead'⟩ := (dead_deletable length).row v ⟨hv, hdead⟩
    exact ⟨⟨hv', fun _ => hdead', fun p _ r hr => by simp [View.withoutRow] at hr⟩, hdead'⟩
  tombstone := by
    rintro v t ⟨⟨hv, -, hrow⟩, hdead⟩
    obtain ⟨hv', hdead'⟩ := (dead_deletable length).tombstone v t ⟨hv, hdead⟩
    exact ⟨⟨hv', fun _ => hdead', hrow⟩, hdead'⟩

theorem delete_each_dead {G : Hash → View Hash Content → Prop} {h : Hash}
    (hG : Deletable fun v => G h v ∧ ¬v.Live) :
    Triple (fun s => Each G s ∧ ¬(s.view h).Live)
      (delete fails now h : StoreProgram Hash Content Unit) (Each G) fun _ => Each G := by
  have hkeep : Preserves (Each fun x v => G x v ∧ (x = h → ¬v.Live))
      (delete fails now h : StoreProgram Hash Content Unit) := by
    refine delete_each ?_ fails now
    exact
      { deleting := fun v hv => (hG.deleting v (hv.imp_right fun h => h rfl)).imp_right fun h _ => h
        file := fun v hv => (hG.file v (hv.imp_right fun h => h rfl)).imp_right fun h _ => h
        row := fun v hv => (hG.row v (hv.imp_right fun h => h rfl)).imp_right fun h _ => h
        tombstone := fun v t hv =>
          (hG.tombstone v t (hv.imp_right fun h => h rfl)).imp_right fun h _ => h }
  refine hkeep.mono ?_ (fun s hs x => (hs x).1) fun _ s hs x => (hs x).1
  rintro s ⟨hs, hdead⟩ x
  exact ⟨hs x, by rintro rfl; exact hdead⟩

omit [LinearOrder Hash] in
theorem fileless_dead {v : View Hash Content} (hv : v.Sound length) (hf : v.file = none) :
    ¬v.Live := by
  intro hlive
  have hsome := (hv.live hlive).2
  rw [hf] at hsome
  cases hsome

omit [LinearOrder Hash] in
theorem unready_dead {v : View Hash Content} (hv : v.Sound length)
    (hr : ∀ r, v.row = some r → r.state ≠ .ready) : ¬v.Live := by
  intro hlive
  obtain ⟨⟨r, hrow, hready⟩, -⟩ := hv.live hlive
  exact hr r hrow hready

theorem deleteRow_each {G : Hash → View Hash Content → Prop} {h : Hash}
    (hG : Deletable fun v => G h v ∧ ¬v.Live) :
    Triple (fun s => Each G s ∧ ¬(s.view h).Live)
      (Program.commit fun s => s.deleteRow h : StoreProgram Hash Content Unit) (Each G)
      fun _ => Each G := by
  have hstep : ∀ s, Each G s ∧ ¬(s.view h).Live → Each G (s.deleteRow h) := fun s hs =>
    each_update hs.1 (hG.row _ ⟨hs.1 h, hs.2⟩).1 (s.view_deleteRow h)
  exact Triple.commit hstep hstep

theorem quarantine_each {G : Hash → View Hash Content → Prop} {h : Hash}
    (hG : Deletable fun v => G h v ∧ ¬v.Live) :
    Triple (fun s => Each G s ∧ ¬(s.view h).Live)
      (quarantine h : StoreProgram Hash Content Unit) (Each G) fun _ => Each G := by
  have hfile : ∀ s, Each G s ∧ ¬(s.view h).Live →
      Each G (s.removeFile h) ∧ ¬((s.removeFile h).view h).Live := fun s hs => by
    have hv := hG.file _ ⟨hs.1 h, hs.2⟩
    refine ⟨each_update hs.1 hv.1 (s.view_removeFile h), ?_⟩
    rw [view_removeFile, if_pos rfl]
    exact hv.2
  unfold quarantine
  refine Triple.bind (R := fun _ s => Each G s ∧ ¬(s.view h).Live)
    (Triple.commit (fun s hs => (hfile s hs).1) hfile) fun _ => ?_
  refine Triple.bind (R := fun _ s => Each G s ∧ ¬(s.view h).Live) (Triple.read fun s hs => hs)
    fun a => ?_
  split
  · exact Triple.throw _
  · exact deleteRow_each hG

theorem reconcileRow_repairing {s : BlobStore Hash Content} {row : CatalogRow Hash}
    (hrow : row ∈ s.db.catalog.rows) :
    Preserves (Each fun x v => Repairing length s x v ∧ K x v.owners v.components)
      (reconcileRow length fails now row : StoreProgram Hash Content Unit) := by
  have hstart : (s.view row.hash).row = some row := Table.find?_key hrow
  unfold reconcileRow
  refine Triple.bind (R := fun a t =>
      Each (fun x v => Repairing length s x v ∧ K x v.owners v.components) t ∧ a = t)
    (Triple.read fun t ht => ⟨ht, rfl⟩) fun a => ?_
  have hdead : Deletable fun v => Repairing length s row.hash v ∧ ¬v.Live := repairing_dead row.hash
  have hd := hdead.under (K row.hash)
  split
  · rename_i hfile
    split
    · exact Triple.throw _
    · refine (deleteRow_each hd).mono ?_ (fun _ ht => ht) fun _ _ ht => ht
      rintro t ⟨ht, rfl⟩
      exact ⟨ht, fileless_dead (ht row.hash).1.1 hfile⟩
  · rename_i file hfile
    split
    · rename_i hsize
      refine (quarantine_each hd).mono ?_ (fun _ ht => ht) fun _ _ ht => ht
      rintro t ⟨ht, rfl⟩
      refine ⟨ht, unready_dead (ht row.hash).1.1 fun r hr _ => hsize ?_⟩
      rw [← ((ht row.hash).1.2.2 row hstart r hr).1]
      exact (ht row.hash).1.1.size r file hr hfile
    · split
      · rename_i hdeleting
        refine (delete_each_dead fails now hd).mono ?_ (fun _ ht => ht) fun _ _ ht => ht
        rintro t ⟨ht, rfl⟩
        refine ⟨ht, unready_dead (ht row.hash).1.1 fun r hr hready => ?_⟩
        have hstate := ((ht row.hash).1.2.2 row hstart r hr).2 hdeleting
        rw [hready] at hstate
        cases hstate
      · exact Triple.pure _ fun t ht => ht.1

theorem reconcileFile_sound (digest : Content → Hash) {u : BlobStore Hash Content}
    {file : BlobFile Hash Content} (hfile : file ∈ u.files.rows) :
    Preserves (Each fun x v => (v.Sound length ∧ K x v.owners v.components) ∧
        (v.file = (u.view x).file ∨ v.file = none))
      (reconcileFile digest length now file : StoreProgram Hash Content Unit) := by
  have hstart : (u.view file.name).file = some file := Table.find?_key hfile
  unfold reconcileFile
  refine Triple.bind (R := fun a t =>
      Each (fun x v => (v.Sound length ∧ K x v.owners v.components) ∧
        (v.file = (u.view x).file ∨ v.file = none)) t ∧ a = t)
    (Triple.read fun t ht => ⟨ht, rfl⟩) fun a => ?_
  split
  · exact Triple.pure _ fun t ht => ht.1
  rename_i hhas
  have hdead : ∀ t, View.Sound length (t.view file.name) → a = t → ¬(t.view file.name).Live := by
    rintro t ht rfl
    exact unready_dead ht fun r hr hready => hhas ((a.has_iff file.name).mpr ⟨r, hr, hready⟩)
  split
  · have hstep : ∀ t, Each (fun x v => (v.Sound length ∧ K x v.owners v.components) ∧
        (v.file = (u.view x).file ∨ v.file = none)) t ∧ a = t →
        Each (fun x v => (v.Sound length ∧ K x v.owners v.components) ∧
          (v.file = (u.view x).file ∨ v.file = none)) (t.removeFile file.name) := by
      rintro t ⟨ht, hat⟩
      refine each_update ht ⟨?_, Or.inr rfl⟩ (t.view_removeFile file.name)
      have hv := (ht file.name).1
      exact (((dead_deletable length).under (K file.name)).file _ ⟨hv, hdead t hv.1 hat⟩).1
    exact Triple.commit hstep hstep
  · refine Triple.transaction fun t _ v ht hv => ?_
    obtain ⟨ht, hat⟩ := ht
    suffices h : Each (fun x v => (v.Sound length ∧ K x v.owners v.components) ∧
        (v.file = (u.view x).file ∨ v.file = none)) v from ⟨h, h⟩
    split at hv
    · cases hv
    · rename_i catalog hcatalog
      cases hv
      intro x
      have hview : view { t with db := { t.db with catalog := catalog } } x =
          { t.view x with row := catalog.find? x } := rfl
      rw [hview, Table.find?_insert? hcatalog]
      split_ifs with hx
      · subst hx
        have hs := (ht file.name).1.1
        refine ⟨⟨⟨fun hlive => absurd hlive (hdead t hs hat), fun r f hr hf => ?_, hs.routed⟩,
          (ht file.name).1.2⟩, (ht file.name).2⟩
        cases hr
        rcases (ht file.name).2 with h | h
        · rw [hstart] at h
          rw [show f = file from Option.some.inj (hf.symm.trans h)]
        · rw [show (t.view file.name).file = some f from hf] at h
          cases h
      · exact ht x

theorem repairing_self {s : BlobStore Hash Content} (hs : s.Sound length)
    (htomb : ∀ t ∈ s.db.tombstones.rows, s.live t.hash = false) : Each (Repairing length s) s := by
  intro x
  refine ⟨hs x, fun hx hlive => ?_, fun p hp r hr => ?_⟩
  · obtain ⟨t, ht⟩ := Option.isSome_iff_exists.mp hx
    obtain ⟨hmem, hkey⟩ := Table.find?_eq_some.mp ht
    have hdead := htomb t hmem
    rw [hkey, ← Bool.not_eq_true, live_iff] at hdead
    exact hdead hlive
  · obtain rfl : p = r := Option.some.inj (hp.symm.trans hr)
    exact ⟨rfl, fun h => h⟩

theorem reconcile_sound (digest : Content → Hash) (retries : Hash → Option String) :
    Triple (fun s => s.SoundUnder length K ∧ ∀ t ∈ s.db.tombstones.rows, s.live t.hash = false)
      (reconcile digest length fails retries now) (SoundUnder length K)
      fun _ => SoundUnder length K := by
  unfold reconcile
  refine Triple.bind (R := fun _ s =>
      Each (fun x v => Repairing length s x v ∧ K x v.owners v.components) s)
    (Triple.commit (fun s hs => hs.1) fun s hs x =>
      ⟨repairing_self hs.1.sound hs.2 x, (hs.1 x).2⟩) fun _ => ?_
  refine Triple.bind (R := fun s =>
      Each fun x v => Repairing length s x v ∧ K x v.owners v.components)
    (Triple.read fun s hs => hs) fun s => ?_
  -- the rows of the catalog
  have hrows : Preserves (Each fun x v => Repairing length s x v ∧ K x v.owners v.components)
      (Program.forEach s.db.catalog.rows fun row => reconcileRow length fails now row) :=
    Preserves.forEach fun row hrow => reconcileRow_repairing fails now hrow
  refine Triple.bind (R := fun _ =>
      Each fun x v => Repairing length s x v ∧ K x v.owners v.components)
    (hrows.mono (fun _ ht => ht) (fun t ht x => ⟨(ht x).1.1, (ht x).2⟩) fun _ _ ht => ht)
    fun _ => ?_
  refine Triple.bind (R := fun t => fun u =>
      Each (fun x v => Repairing length s x v ∧ K x v.owners v.components) u ∧ t = u)
    (Triple.read fun t ht => ⟨ht, rfl⟩) fun t => ?_
  -- the tombstones
  have htombs : Preserves (Each fun x v => (View.Sound length v ∧ K x v.owners v.components) ∧
      ((∃ row ∈ t.db.tombstones.rows, row.hash = x) → ¬v.Live))
      (Program.forEach (t.db.tombstones.rows.insertionSort fun a b => a.hash ≤ b.hash)
        fun row => delete retries now row.hash) := by
    refine Preserves.forEach fun row hrow => delete_sound retries now length _ ?_
    exact ⟨row, (List.mem_insertionSort _).mp hrow, rfl⟩
  refine Triple.bind (R := fun _ => SoundUnder length K)
    (htombs.mono ?_ (fun u hu x => (hu x).1) fun _ u hu x => (hu x).1) fun _ => ?_
  · rintro u ⟨hu, rfl⟩ x
    refine ⟨⟨(hu x).1.1, (hu x).2⟩, ?_⟩
    rintro ⟨row, hrow, rfl⟩
    refine (hu row.hash).1.2.1 ?_
    rw [show (t.view row.hash).tombstone = some row from Table.find?_key hrow]
    rfl
  -- the files of the directory
  refine Triple.bind (R := fun a u => SoundUnder length K u ∧ a = u)
    (Triple.read fun u hu => ⟨hu, rfl⟩) fun u => ?_
  have hfiles : Preserves (Each fun x v => (v.Sound length ∧ K x v.owners v.components) ∧
      (v.file = (u.view x).file ∨ v.file = none))
      (Program.forEach u.files.rows fun file => reconcileFile digest length now file) :=
    Preserves.forEach fun file hfile => reconcileFile_sound now digest hfile
  refine hfiles.mono ?_ (fun v hv x => (hv x).1) fun _ v hv x => (hv x).1
  rintro v ⟨hv, rfl⟩ x
  exact ⟨hv x, Or.inl rfl⟩

end Operations

section Runs

variable (digest : Content → Hash) (length : Content → ℕ)

variable {K : Hash → Set Owner → Set (ComponentRow Hash) → Prop}

theorem dropLeases_sound {length : Content → ℕ} {s : BlobStore Hash Content}
    (hs : s.SoundUnder length K) : s.dropLeases.SoundUnder length K :=
  fun x => ⟨(hs x).1.unref subset_rfl (Nat.zero_le _) (hs x).1.routed, (hs x).2⟩

/-- The changes of owners and components that an operation makes keep the condition. -/
def Respects (K : Hash → Set Owner → Set (ComponentRow Hash) → Prop) :
    BlobOp Hash Content → Prop
  | .promote _ _ owner _ => ∀ o, owner = some o → Adds K o
  | .acquireOwner owner _ => Adds K owner
  | .transferOwner source target _ => Removes K source ∧ Adds K target
  | .releaseOwner owner => Removes K owner
  | .releaseOwnerOf owner _ => Removes K owner
  | .commitRoute _ _ _ uploadOwner => Removes K uploadOwner ∧ Routes K
  | _ => True

theorem program_sound {s : BlobStore Hash Content} {l : BlobLabel Hash Content}
    (hs : s.SoundUnder length K) (hl : Allowed digest length s l) (hK : Respects K l.op) :
    ∃ P : BlobStore Hash Content → Prop, P s ∧
      Triple P (l.program digest length) (SoundUnder length K) fun _ => SoundUnder length K := by
  unfold Allowed at hl
  unfold BlobLabel.program
  cases hop : l.op with
  | reserve token bytes => exact ⟨_, hs, reserve_sound l.fails l.now token bytes⟩
  | releaseReservation token => exact ⟨_, hs, releaseReservation_sound token⟩
  | promote content origin owner token =>
    rw [hop] at hl hK
    exact ⟨_, ⟨hs, hl.1, hl.2⟩,
      Triple.bind (promote_sound l.now digest content origin owner token hK) fun _ =>
        Preserves.pure _⟩
  | lookup hash => exact ⟨_, hs, Preserves.bind (lookup_sound l.now hash) fun _ => Preserves.pure _⟩
  | releaseLease hash => exact ⟨_, hs, releaseLease_sound l.fails l.now hash⟩
  | acquireOwner owner hash =>
    rw [hop] at hl hK
    exact ⟨_, ⟨hs, hl⟩, acquireOwner_sound hK hash⟩
  | transferOwner source target hashes =>
    rw [hop] at hl hK
    exact ⟨_, hs, transferOwner_sound l.fails l.now hl hK.1 hK.2 hashes⟩
  | releaseOwner owner =>
    rw [hop] at hl hK
    exact ⟨_, hs, releaseOwner_sound l.fails l.now hl hK⟩
  | releaseOwnerOf owner hash =>
    rw [hop] at hl hK
    exact ⟨_, hs, releaseOwnerOf_sound l.fails l.now hl hK hash⟩
  | commitRoute route size components uploadOwner =>
    rw [hop] at hl hK
    exact ⟨_, hs, commitRoute_sound l.fails l.now hl hK.1 hK.2 route size components⟩
  | reconcile retries =>
    rw [hop] at hl
    exact ⟨_, ⟨hs, hl⟩, reconcile_sound l.fails l.now digest retries⟩

omit [LinearOrder Hash] in
theorem respects_true (op : BlobOp Hash Content) : Respects (fun _ _ _ => True) op := by
  cases op <;> simp [Respects, Adds, Removes, Routes]

theorem blobStep_sound {s : BlobStore Hash Content} {l : BlobLabel Hash Content}
    (hs : s.Sound length) (hl : Allowed digest length s l) :
    (blobStep digest length s l).Sound length := by
  obtain ⟨P, hP, htriple⟩ := program_sound digest length hs.under hl (respects_true l.op)
  have hcommits : ∀ t ∈ _, Sound length t := fun t ht => ((htriple s hP).1 t ht).sound
  unfold blobStep
  split
  · rcases ((l.program digest length).run s).final_mem s with h | h
    · rwa [h]
    · exact hcommits _ h
  · rename_i k _
    refine (dropLeases_sound (Sound.under ?_)).sound
    rcases ((l.program digest length).run s).crash_mem s k with h | h
    · rwa [h]
    · exact hcommits _ h

/-- Along every run of allowed steps, every live blob is ready and present with its recorded size. -/
theorem live_blobs_intact (capacity : ℕ) (labels : List (BlobLabel Hash Content))
    (hlabels : Runs.Always (blobStep digest length) (Allowed digest length) (empty capacity) labels) :
    (Runs.run (blobStep digest length) (empty capacity) labels).LiveIntact length := by
  refine sound_liveIntact (Runs.run_invariant (I := Sound length) ?_ ?_ hlabels)
  · exact fun s l hs hl => blobStep_sound digest length hs hl
  · exact sound_empty length capacity

end Runs

section Instances

/-- A digest without collisions on byte lists. -/
def radixDigest (content : List ℕ) : ℕ :=
  content.foldl (fun h b => 257 * h + b + 1) 0

/-- An upload is dropped while its file cannot be removed; the content is admitted once more under
another upload and becomes a route, and the store is opened again. -/
def readmission (mend : Bool) : List (BlobLabel ℕ (List ℕ)) :=
  [⟨.promote [7, 1] .write (some (.upload "a")) "t1", 1, fun _ => none, none⟩,
    ⟨.releaseOwner (.upload "a"), 2, fun _ => some "busy", none⟩] ++
  (if mend then [⟨.reconcile fun _ => none, 3, fun _ => none, none⟩] else []) ++
  [⟨.promote [7, 1] .write (some (.upload "b")) "t2", 4, fun _ => none, none⟩,
    ⟨.commitRoute "nar/x" 2 [⟨0, radixDigest [7, 1], 2⟩] (.upload "b"), 5, fun _ => none, none⟩,
    ⟨.lookup (radixDigest [7, 1]), 6, fun _ => none, some 0⟩,
    ⟨.reconcile fun _ => none, 7, fun _ => none, none⟩]

theorem live_blobs_intact_readmission :
    Runs.Always (blobStep radixDigest List.length) (Allowed radixDigest List.length) (empty 100)
        (readmission true) ∧
      (Runs.run (blobStep radixDigest List.length) (empty 100) (readmission true)).LiveIntact
        List.length :=
  ⟨by decide, live_blobs_intact radixDigest List.length 100 (readmission true) (by decide)⟩

/-- The tombstone of the failed removal outlives the second admission, and the next reconcile
deletes the file of a committed route. -/
theorem readmitted_blob_lost :
    ¬(Runs.run (blobStep radixDigest List.length) (empty 100) (readmission false)).LiveIntact
        List.length := by
  intro h
  have hintact := h (radixDigest [7, 1]) (by decide)
  revert hintact
  decide

end Instances

end NixstrCache.Persistence.BlobStore
