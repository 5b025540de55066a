import NixstrCache.Persistence.Reservations

/-!
Overlapping admissions and the capacity.

An admission reserves its bytes, takes its content chunk by chunk and exchanges the reservation for a
row of the catalog.  Between its awaits other admissions, explicit reservations and the operations on
owners and leases go on.  The files that are imported are not written to in between.
-/

namespace NixstrCache.Persistence

open Durable KeyedTable Program BlobStore

section Machine

/-- How far an admission has come: `admit` with what stands in its temporary file, and
`admitVerifiedFile` before and after the check of the file. -/
inductive Progress (Hash : Type) where
  | streaming (expectedHash : Option Hash) (written : List UInt8)
  | importing (path : String) (expectedHash : Hash)
  | copying (expectedHash : Hash) (content : List UInt8)
deriving DecidableEq, Repr

structure Admission (Hash : Type) where
  token : String
  bytes : ℕ
  origin : BlobOrigin
  owner : Option Owner
  progress : Progress Hash
deriving DecidableEq, Repr

structure StoredBlob (Hash : Type) where
  hash : Hash
  reserved : ℕ
  stored : ℕ
deriving DecidableEq, Repr

/-- The store, the admissions under way, the explicit reservations that are still held, and what
admissions have stored so far. -/
structure Admissions (Hash : Type) where
  store : BlobStore Hash (List UInt8)
  admissions : List (Admission Hash)
  held : List String
  stored : List (StoredBlob Hash)
  closed : Bool

inductive AdmissionOp (Hash : Type) where
  | reserve (token : String) (bytes : ℤ)
  | release (token : String)
  | admitStream (token : String) (reserveBytes : ℤ) (origin : BlobOrigin) (owner : Option Owner)
      (expectedHash : Option Hash)
  | admitVerifiedFile (token path : String) (expectedHash : Hash) (size : ℤ) (origin : BlobOrigin)
      (owner : Option Owner)
  /-- The stream yields a chunk, or ends. -/
  | chunk (token : String) (value : List UInt8)
  | done (token : String)
  /-- The file has been read, or copied. -/
  | check (token : String)
  | copied (token : String)
  /-- The stream or a file operation fails. -/
  | fail (token : String)
  | operate (op : BlobOp Hash (List UInt8))
  | close

/-- An operation at a time, with the outcome of its file removals. -/
structure AdmissionLabel (Hash : Type) where
  op : AdmissionOp Hash
  now : ℕ
  fails : Hash → Option String

namespace Admissions

variable {Hash : Type} [LinearOrder Hash]

def opened (store : BlobStore Hash (List UInt8)) : Admissions Hash :=
  ⟨store, [], store.db.reservations.rows.map ReservationRow.token, [], false⟩

def find? (s : Admissions Hash) (token : String) : Option (Admission Hash) :=
  s.admissions.find? fun a => a.token = token

/-- `reserve` up to its result. -/
def reserving (s : Admissions Hash) (l : AdmissionLabel Hash) (token : String) (bytes : ℤ) :
    Admissions Hash × Bool :=
  if s.closed then (s, false)
  else
    let outcome := (reserveBytes l.fails token bytes l.now).run s.store
    ({ s with store := outcome.final s.store }, outcome.result.toOption.isSome)

def begin (s : Admissions Hash) (l : AdmissionLabel Hash) (token : String) (bytes : ℤ)
    (origin : BlobOrigin) (owner : Option Owner) (progress : Progress Hash) : Admissions Hash :=
  let (t, reserved) := s.reserving l token bytes
  if reserved then
    { t with admissions := ⟨token, bytes.toNat, origin, owner, progress⟩ :: t.admissions }
  else t

/-- `releaseReservation`. -/
def drop (s : Admissions Hash) (token : String) : Admissions Hash :=
  if s.closed then s else { s with store := s.store.dropReservation token }

/-- The `finally` of an admission. -/
def finish (s : Admissions Hash) (token : String) : Admissions Hash :=
  drop { s with admissions := s.admissions.filter fun a => a.token ≠ token } token

def advance (s : Admissions Hash) (token : String) (progress : Progress Hash) : Admissions Hash :=
  { s with admissions :=
      s.admissions.map fun a => if a.token = token then { a with progress := progress } else a }

variable (digest : List UInt8 → Hash)

/-- `#promote` of an admission. -/
def promotion (s : Admissions Hash) (l : AdmissionLabel Hash) (a : Admission Hash)
    (content : List UInt8) : Outcome (BlobStore Hash (List UInt8)) Failure
      (Option (BlobInventoryEntry Hash)) :=
  (promote digest List.length content a.origin a.owner a.token l.now).run s.store

def promoting (s : Admissions Hash) (l : AdmissionLabel Hash) (a : Admission Hash)
    (content : List UInt8) : Admissions Hash :=
  let outcome := s.promotion digest l a content
  let stored := if outcome.result.toOption.isSome then
      ⟨digest content, a.bytes, content.length⟩ :: s.stored
    else s.stored
  finish { s with store := outcome.final s.store, stored := stored } a.token

variable (sources : String → Option (List UInt8))

/-- The content that an operation promotes, unless a check fails before. -/
def promoted (s : Admissions Hash) (l : AdmissionLabel Hash) :
    Option (Admission Hash × List UInt8) :=
  match l.op with
  | .done token =>
    match s.find? token with
    | none => none
    | some a =>
      match a.progress with
      | .streaming expectedHash written =>
        if expectedHash.all fun expected => expected = digest written then some (a, written) else none
      | _ => none
  | .copied token =>
    match s.find? token with
    | none => none
    | some a =>
      match a.progress with
      | .copying _ content => some (a, content)
      | _ => none
  | _ => none

def operates : BlobOp Hash (List UInt8) → Bool
  | .lookup _ | .releaseLease _ | .acquireOwner _ _ | .transferOwner _ _ _ | .releaseOwner _
  | .releaseOwnerOf _ _ | .commitRoute _ _ _ _ => true
  | .reserve _ _ | .releaseReservation _ | .promote _ _ _ _ | .reconcile _ => false

def handle (s : Admissions Hash) (l : AdmissionLabel Hash) : Admissions Hash :=
  match l.op with
  | .reserve token bytes =>
    let (t, reserved) := s.reserving l token bytes
    if reserved then { t with held := token :: t.held } else t
  | .release token =>
    if token ∈ s.held then drop { s with held := s.held.filter (· ≠ token) } token else s
  | .admitStream token reserveBytes origin owner expectedHash =>
    s.begin l token reserveBytes origin owner (.streaming expectedHash [])
  | .admitVerifiedFile token path expectedHash size origin owner =>
    s.begin l token size origin owner (.importing path expectedHash)
  | .chunk token value =>
    match s.find? token with
    | none => s
    | some a =>
      match a.progress with
      | .streaming expectedHash written =>
        if a.bytes < written.length + value.length then s.finish token
        else s.advance token (.streaming expectedHash (written ++ value))
      | _ => s
  | .check token =>
    match s.find? token with
    | none => s
    | some a =>
      match a.progress with
      | .importing path expectedHash =>
        match sources path with
        | none => s.finish token
        | some content =>
          if content.length = a.bytes ∧ digest content = expectedHash then
            s.advance token (.copying expectedHash content)
          else s.finish token
      | _ => s
  | .done token | .copied token =>
    match s.promoted digest l with
    | some (a, content) => s.promoting digest l a content
    | none =>
      match s.find? token, l.op with
      | some ⟨_, _, _, _, .streaming _ _⟩, .done _ => s.finish token
      | _, _ => s
  | .fail token => if (s.find? token).isSome then s.finish token else s
  | .operate op =>
    if operates op then
      let outcome := (BlobLabel.program digest List.length ⟨op, l.now, l.fails, none⟩).run s.store
      { s with store := outcome.final s.store }
    else s
  | .close => { s with closed := true }

end Admissions

end Machine

namespace BlobStore

variable {Hash Content : Type} [LinearOrder Hash]
variable {s t : BlobStore Hash Content} {fails : Hash → Option String} {now : ℕ}

section Lighter

omit [LinearOrder Hash] in
theorem readyBytes_eq (s : BlobStore Hash Content) :
    s.readyBytes = (s.readyRows.map CatalogRow.size).sum :=
  rfl

structure Lighter (s t : BlobStore Hash Content) : Prop where
  ready : t.readyBytes ≤ s.readyBytes
  reservations : t.db.reservations = s.db.reservations
  capacity : t.capacity = s.capacity

omit [LinearOrder Hash] in
theorem Lighter.refl (s : BlobStore Hash Content) : Lighter s s :=
  ⟨le_rfl, rfl, rfl⟩

omit [LinearOrder Hash] in
theorem Lighter.trans {u : BlobStore Hash Content} (hst : Lighter s t) (htu : Lighter t u) :
    Lighter s u :=
  ⟨htu.ready.trans hst.ready, htu.reservations.trans hst.reservations,
    htu.capacity.trans hst.capacity⟩

omit [LinearOrder Hash] in
theorem Lighter.reservedBytes (h : Lighter s t) : t.reservedBytes = s.reservedBytes := by
  rw [BlobStore.reservedBytes, BlobStore.reservedBytes, h.reservations]

omit [LinearOrder Hash] in
theorem lighter_of_eq (hcatalog : t.db.catalog = s.db.catalog)
    (hreservations : t.db.reservations = s.db.reservations) (hcapacity : t.capacity = s.capacity) :
    Lighter s t := by
  refine ⟨le_of_eq ?_, hreservations, hcapacity⟩
  rw [readyBytes, readyBytes, hcatalog]

omit [LinearOrder Hash] in
theorem sum_filter_le (rows : List (CatalogRow Hash)) (keep : CatalogRow Hash → Bool) :
    ((rows.filter keep).map CatalogRow.size).sum ≤ (rows.map CatalogRow.size).sum :=
  (List.filter_sublist.map _).sum_le_sum fun n _ => Nat.zero_le n

theorem setState_lighter (s : BlobStore Hash Content) (h : Hash) :
    Lighter s (s.setState h .deleting) := by
  refine ⟨?_, rfl, rfl⟩
  rw [readyBytes_eq, setState_readyRows]
  exact sum_filter_le _ _

theorem deleteRow_lighter (s : BlobStore Hash Content) (h : Hash) : Lighter s (s.deleteRow h) := by
  refine ⟨?_, rfl, rfl⟩
  rw [readyBytes_eq, deleteRow_readyRows]
  exact sum_filter_le _ _

theorem touch_lighter (s : BlobStore Hash Content) (h : Hash) : Lighter s (s.touch h now) := by
  refine ⟨le_of_eq ?_, rfl, rfl⟩
  simp only [readyBytes, touch, Table.update_rows, List.filter_map, List.map_map]
  congr 1
  have hstate : ∀ r : CatalogRow Hash, (if r.hash = h then { r with lastAccessed := now } else r).state =
      r.state := by
    intro r
    split <;> rfl
  have hsize : ∀ r : CatalogRow Hash, (if r.hash = h then { r with lastAccessed := now } else r).size =
      r.size := by
    intro r
    split <;> rfl
  refine (List.map_congr_left fun r _ => hsize r).trans ?_
  rw [List.filter_congr fun r _ => by rw [Function.comp_apply, hstate]]

variable (fails now)

theorem delete_lighter (s : BlobStore Hash Content) (h : Hash) :
    Preserves (Lighter s) (delete fails now h : StoreProgram Hash Content Unit) := by
  refine .bind (.commit fun t ht => ht.trans (setState_lighter t h)) fun _ => ?_
  refine .bind .read fun t => ?_
  split
  · refine .bind (.commit fun t ht => ht.trans (lighter_of_eq rfl rfl rfl)) fun _ => ?_
    split_ifs
    · exact .commit fun t ht => ht.trans (lighter_of_eq rfl rfl rfl)
    · refine .bind (.commit fun t ht => ht.trans (deleteRow_lighter t h)) fun _ => ?_
      exact .commit fun t ht => ht.trans (lighter_of_eq rfl rfl rfl)
  · split_ifs
    · exact .throw _
    · exact .commit fun t ht => ht.trans (deleteRow_lighter t h)
  · exact .commit fun t ht => ht.trans (lighter_of_eq rfl rfl rfl)

theorem deleteIfUnownedWrite_lighter (s : BlobStore Hash Content) (h : Hash) :
    Preserves (Lighter s) (deleteIfUnownedWrite fails now h : StoreProgram Hash Content Unit) := by
  refine .bind .read fun t => ?_
  split_ifs
  · exact .pure _
  · exact .pure _
  · split
    · split_ifs
      · exact delete_lighter fails now s h
      · exact .pure _
    · exact .pure _

theorem releaseOwner_lighter (s : BlobStore Hash Content) (owner : Owner) :
    Preserves (Lighter s) (releaseOwner fails now owner : StoreProgram Hash Content Unit) := by
  refine .bind .read fun t => .bind (.commit fun t ht => ht.trans (lighter_of_eq rfl rfl rfl)) fun _ => ?_
  exact .forEach fun h _ => deleteIfUnownedWrite_lighter fails now s h

theorem transfer_lighter (s : BlobStore Hash Content) (source target : Owner) (hashes : List Hash) :
    Lighter s (hashes.foldl (fun t hash =>
      (if hash ∈ t.ownedBy source then t.addOwner hash target else t).removeOwner hash source) s) := by
  induction hashes generalizing s with
  | nil => exact .refl s
  | cons h rest ih =>
    refine Lighter.trans ?_ (ih _)
    dsimp only
    split_ifs
    · exact lighter_of_eq rfl rfl rfl
    · exact lighter_of_eq rfl rfl rfl

theorem transferOwner_lighter (s : BlobStore Hash Content) (source target : Owner)
    (hashes : Option (List Hash)) : Preserves (Lighter s)
      (transferOwner fails now source target hashes : StoreProgram Hash Content Unit) := by
  refine .bind (.commit fun t ht => ht.trans ?_) fun _ => .bind .read fun t => ?_
  · cases hashes with
    | none => exact lighter_of_eq rfl rfl rfl
    | some hashes => exact transfer_lighter t source target hashes
  · exact .forEach fun item _ => deleteIfUnownedWrite_lighter fails now s item.hash

theorem insertComponents_lighter {route : String} {owner : Owner}
    {components : List (RouteComponent Hash)} (h : insertComponents route owner components s = .ok t) :
    Lighter s t := by
  induction components generalizing s with
  | nil =>
    cases h
    exact .refl _
  | cons item rest ih =>
    rw [insertComponents] at h
    split_ifs at h
    split at h
    · cases h
    · have hrest := ih h
      refine Lighter.trans ?_ hrest
      exact lighter_of_eq rfl rfl rfl

theorem commitRoute_lighter (s : BlobStore Hash Content) (route : String) (size : ℕ)
    (components : List (RouteComponent Hash)) (owner : Owner) : Preserves (Lighter s)
      (commitRoute fails now route size components owner : StoreProgram Hash Content Unit) := by
  refine .bind .read fun t => ?_
  dsimp only
  split_ifs
  · exact .throw _
  · exact releaseOwner_lighter fails now s owner
  · refine .transaction fun t a u ht h => ?_
    rw [insertRoute] at h
    split at h
    · cases h
    · next middle hmiddle =>
      split at h
      · cases h
      · cases h
        exact ht.trans ((insertComponents_lighter hmiddle).trans (lighter_of_eq rfl rfl rfl))

theorem lookup_lighter (s : BlobStore Hash Content) (h : Hash) : Preserves (Lighter s)
    (lookup h now : StoreProgram Hash Content (Option ℕ)) := by
  refine .bind .read fun t => ?_
  split
  · exact .pure _
  · split_ifs
    · refine .bind (.commit fun t ht => ht.trans (lighter_of_eq rfl rfl rfl)) fun _ => ?_
      refine .bind (.commit fun t ht => ht.trans (touch_lighter t h)) fun _ => .pure _
    · exact .pure _

end Lighter

section Sums

omit [LinearOrder Hash] in
theorem readyBytes_eq_sum (s : BlobStore Hash Content) : s.readyBytes =
    (s.db.catalog.rows.map fun r => if r.state = .ready then r.size else 0).sum := by
  rw [readyBytes]
  induction s.db.catalog.rows with
  | nil => rfl
  | cons r rows ih =>
    by_cases hready : r.state = .ready
    · simp [hready, ih]
    · simp [hready, ih]

omit [LinearOrder Hash] in
theorem dropReservation_reservedBytes {r : ReservationRow} (hr : r ∈ s.db.reservations.rows) :
    (s.dropReservation r.token).reservedBytes + r.bytes = s.reservedBytes := by
  have hsum := s.db.reservations.sum_eq hr ReservationRow.bytes
  rw [← Table.filter_ne_key hr] at hsum
  rw [BlobStore.reservedBytes, BlobStore.reservedBytes, hsum, Nat.add_comm]
  rfl

theorem recordReady_readyBytes {h : Hash} {size : ℕ} {origin : BlobOrigin}
    (hrecord : s.recordReady h size origin now = .ok t) :
    t.readyBytes ≤ s.readyBytes + size ∧ t.db.reservations = s.db.reservations ∧
      t.capacity = s.capacity := by
  unfold recordReady at hrecord
  split at hrecord
  · cases hrecord
    refine ⟨?_, rfl, rfl⟩
    have hrest := sum_filter_le s.readyRows fun r => r.hash ≠ h
    simp only [readyBytes, Table.insertOrReplace, List.filter_append, List.map_append, List.sum_append]
    rw [List.filter_filter, List.filter_congr fun r _ => Bool.and_comm .., ← List.filter_filter]
    simpa [readyRows] using hrest
  · next existing hexisting =>
    by_cases hsize : existing.size = size
    · rw [if_neg (not_not_intro hsize)] at hrecord
      cases hrecord
      obtain ⟨hmem, hkey⟩ := Table.find?_eq_some.mp hexisting
      refine ⟨?_, rfl, rfl⟩
      rw [readyBytes_eq_sum, readyBytes_eq_sum, Table.update_rows, List.map_map,
        s.db.catalog.sum_eq hmem, s.db.catalog.sum_eq hmem, Function.comp_apply, if_pos hkey]
      have hrest : ∀ r ∈ s.db.catalog.rows.erase existing, r.hash ≠ h := fun r hr =>
        hkey ▸ Table.key_ne_of_mem_erase hmem hr
      rw [List.map_congr_left fun r hr => by rw [Function.comp_apply, if_neg (hrest r hr)]]
      simp only [if_true, hsize]
      omega
    · rw [if_pos hsize] at hrecord
      cases hrecord

end Sums

section Exchange

variable {digest : Content → Hash} {length : Content → ℕ}

/-- What the transaction of a promotion commits. -/
def recorded (t : BlobStore Hash Content) (hash : Hash) (owner : Option Owner) (token : String) :
    BlobStore Hash Content :=
  (owner.elim t fun owner => t.addOwner hash owner).dropReservation token

theorem promote_run (s : BlobStore Hash Content) (content : Content) (origin : BlobOrigin)
    (owner : Option Owner) (token : String) (now : ℕ) :
    (promote digest length content origin owner token now).run s =
      match (s.linkFile (digest content) content).recordReady (digest content) (length content) origin
        now with
      | .error e => ⟨[s.linkFile (digest content) content], .error e⟩
      | .ok t => ⟨[s.linkFile (digest content) content, t.recorded (digest content) owner token],
          .ok ((t.recorded (digest content) owner token).entry (digest content))⟩ := by
  rw [promote, bind_commit_run]
  cases hrecord : (s.linkFile (digest content) content).recordReady (digest content) (length content)
      origin now with
  | error e =>
    rw [bind_run_error (e := e)] <;> simp only [transaction, hrecord]
  | ok t =>
    rw [bind_run_ok (a := PUnit.unit)]
    · simp only [transaction, hrecord]
      rw [bind_read_run]
      cases owner <;> rfl
    · simp only [transaction, hrecord]

/-- A promotion fails and adds nothing, or it exchanges its reservation for at most the length of the
content. -/
theorem promote_cases (s : BlobStore Hash Content) (content : Content) (origin : BlobOrigin)
    (owner : Option Owner) (token : String) (now : ℕ) :
    let outcome := (promote digest length content origin owner token now).run s
    ((∃ e, outcome.result = .error e) ∧ Lighter s (outcome.final s)) ∨
      outcome.result = .ok ((outcome.final s).entry (digest content)) ∧
        (outcome.final s).readyBytes ≤ s.readyBytes + length content ∧
        (outcome.final s).db.reservations = (s.dropReservation token).db.reservations ∧
        (outcome.final s).capacity = s.capacity := by
  have hlink : Lighter s (s.linkFile (digest content) content) := lighter_of_eq rfl rfl rfl
  rw [promote_run]
  cases hrecord : (s.linkFile (digest content) content).recordReady (digest content) (length content)
      origin now with
  | error e => exact Or.inl ⟨⟨e, rfl⟩, hlink⟩
  | ok t =>
    obtain ⟨hready, hreservations, hcapacity⟩ := recordReady_readyBytes hrecord
    have howner : (owner.elim t fun owner => t.addOwner (digest content) owner).readyBytes =
          t.readyBytes ∧
        (owner.elim t fun owner => t.addOwner (digest content) owner).db.reservations =
          t.db.reservations ∧
        (owner.elim t fun owner => t.addOwner (digest content) owner).capacity = t.capacity := by
      cases owner <;> exact ⟨rfl, rfl, rfl⟩
    refine Or.inr ⟨rfl, ?_, ?_, howner.2.2.trans hcapacity⟩
    · exact (howner.1.trans_le hready)
    · exact congrArg (fun table => table.filter fun r => r.token ≠ token)
        (howner.2.1.trans hreservations)

omit [LinearOrder Hash] in
theorem insertReservation_cases (token : String) (bytes now : ℕ) (t : BlobStore Hash Content) :
    (∃ e, (insertReservation token bytes now : StoreProgram Hash Content Unit).run t = ⟨[], .error e⟩) ∨
      ∃ u, (insertReservation token bytes now : StoreProgram Hash Content Unit).run t = ⟨[u], .ok ()⟩ ∧
        t.readyBytes + t.reservedBytes + bytes ≤ t.capacity ∧ u.readyBytes = t.readyBytes ∧
        (∀ r ∈ t.db.reservations.rows, r.token ≠ token) ∧
        u.db.reservations.rows = t.db.reservations.rows ++ [⟨token, bytes, now⟩] ∧
        u.capacity = t.capacity := by
  by_cases hfits : t.fits bytes = true
  · cases hinsert : t.db.reservations.insert? ⟨token, bytes, now⟩ with
    | none =>
      refine Or.inl ⟨.uniqueConstraint, transaction_run_error ?_⟩
      simp only [hfits, if_true, hinsert]
    | some reservations =>
      obtain ⟨hnew, hrows⟩ := Table.insert?_eq_some.mp hinsert
      refine Or.inr ⟨{ t with db := { t.db with reservations := reservations } },
        transaction_run_ok ?_, of_decide_eq_true hfits, rfl, hnew, hrows, rfl⟩
      simp only [hfits, if_true, hinsert]
  · exact Or.inl ⟨_, transaction_run_error (if_neg hfits)⟩

theorem reserveBytes_cases (fails : Hash → Option String) (token : String) (bytes : ℤ) (now : ℕ)
    (s : BlobStore Hash Content) :
    let outcome := (reserveBytes fails token bytes now).run s
    ((∃ e, outcome.result = .error e) ∧ Lighter s (outcome.final s)) ∨
      outcome.result = .ok () ∧
        (outcome.final s).readyBytes + (outcome.final s).reservedBytes ≤ s.capacity ∧
        (∀ r ∈ s.db.reservations.rows, r.token ≠ token) ∧
        (outcome.final s).db.reservations.rows =
          s.db.reservations.rows ++ [⟨token, bytes.toNat, now⟩] ∧
        (outcome.final s).capacity = s.capacity := by
  cases hbytes : s.reservable bytes with
  | false =>
    rw [reserveBytes_unreservable hbytes]
    exact Or.inl ⟨⟨_, rfl⟩, .refl s⟩
  | true =>
    rw [reserveBytes_reservable hbytes]
    have hend := makeSpace_end fails now bytes.toNat s
    have hundone {e : Failure} (he : ((reserving fails token bytes.toNat now).run s).result = .error e)
        (hcapacity : (((reserving fails token bytes.toNat now).run s).final s).capacity =
          s.capacity) : Lighter s
        (((atomically rollback (reserving fails token bytes.toNat now)).run s).final s) := by
      have hfinal : ((atomically rollback (reserving fails token bytes.toNat now)).run s).final s =
          s.rollback (((reserving fails token bytes.toNat now).run s).final s) := by
        rw [atomically_run_error he]
        exact List.getLastD_map ..
      rw [hfinal]
      exact lighter_of_eq rfl rfl hcapacity
    cases hspace : ((makeSpace fails now bytes.toNat : StoreProgram Hash Content Unit).run s).result with
    | error e =>
      have he : ((reserving fails token bytes.toNat now).run s).result = .error e := by
        rw [reserving, bind_run_error hspace]
      refine Or.inl ⟨⟨e, by rw [atomically_run_error he]⟩, hundone he ?_⟩
      rw [reserving, bind_run_error hspace]
      exact hend.capacity
    | ok a =>
      rw [hspace] at hend
      have hreservations := hend.reservations
      rcases insertReservation_cases token bytes.toNat now
          (((makeSpace fails now bytes.toNat : StoreProgram Hash Content Unit).run s).final s) with
        ⟨e, hrun⟩ | ⟨u, hrun, hfits, hready, hnew, hrows, hcapacity⟩
      · have he : ((reserving fails token bytes.toNat now).run s).result = .error e := by
          rw [reserving, bind_run_ok hspace, hrun]
        refine Or.inl ⟨⟨e, by rw [atomically_run_error he]⟩, hundone he ?_⟩
        rw [reserving, bind_final hspace, hrun]
        exact hend.capacity
      · have hok : ((reserving fails token bytes.toNat now).run s).result = .ok () := by
          rw [reserving, bind_run_ok hspace, hrun]
        have hfinal : ((reserving fails token bytes.toNat now).run s).final s = u := by
          rw [reserving, bind_final hspace, hrun]
          rfl
        have hlast : ((atomically rollback (reserving fails token bytes.toNat now)).run s).final s =
            u := by
          rw [atomically_run_ok hok, Outcome.final, List.getLastD_concat, hfinal]
        refine Or.inr ⟨by rw [atomically_run_ok hok], ?_, hreservations ▸ hnew, ?_, ?_⟩
        · rw [hlast, hready, BlobStore.reservedBytes, hrows, List.map_append, List.sum_append]
          rw [hend.capacity] at hfits
          simpa [BlobStore.reservedBytes, Nat.add_assoc] using hfits
        · rw [hlast, hrows, hreservations]
        · rw [hlast, hcapacity, hend.capacity]

end Exchange

end BlobStore

namespace Admissions

variable {Hash : Type} {s : Admissions Hash} {token : String}

section Invariant

def rows (s : Admissions Hash) : List ReservationRow :=
  s.store.db.reservations.rows

def tokens (s : Admissions Hash) : List String :=
  s.admissions.map Admission.token

/-- What an admission has received so far, or is about to copy. -/
def received (a : Admission Hash) : List UInt8 :=
  match a.progress with
  | .streaming _ written => written
  | .importing _ _ => []
  | .copying _ content => content

/-- Every admission and every explicit reservation has a row of its own, and as long as the store is
open there are no other rows. -/
structure Accounted (s : Admissions Hash) : Prop where
  fits : s.store.readyBytes + s.store.reservedBytes ≤ s.store.capacity
  reserved : ∀ a ∈ s.admissions, ∃ r ∈ s.rows, r.token = a.token ∧ r.bytes = a.bytes
  held : ∀ token ∈ s.held, ∃ r ∈ s.rows, r.token = token
  apart : (s.tokens ++ s.held).Nodup
  known : s.closed = false → ∀ r ∈ s.rows, r.token ∈ s.tokens ∨ r.token ∈ s.held
  within : ∀ a ∈ s.admissions, (received a).length ≤ a.bytes
  stored : ∀ b ∈ s.stored, b.stored ≤ b.reserved

theorem rows_nodup (s : Admissions Hash) : (s.rows.map ReservationRow.token).Nodup :=
  s.store.db.reservations.unique

theorem opened_accounted {store : BlobStore Hash (List UInt8)}
    (hfits : store.readyBytes + store.reservedBytes ≤ store.capacity) :
    Accounted (opened store) where
  fits := hfits
  reserved _ ha := absurd ha List.not_mem_nil
  held _ htoken := List.mem_map.mp htoken
  apart := (opened store).rows_nodup
  known _ _ hr := Or.inr (List.mem_map_of_mem hr)
  within _ ha := absurd ha List.not_mem_nil
  stored _ hb := absurd hb List.not_mem_nil

theorem Accounted.lighter (h : Accounted s) {t : BlobStore Hash (List UInt8)}
    (ht : Lighter s.store t) : Accounted { s with store := t } := by
  have hrows : t.db.reservations.rows = s.rows := congrArg Table.rows ht.reservations
  refine ⟨?_, fun a ha => ?_, fun token htoken => ?_, h.apart, fun hopen r hr => ?_, h.within, h.stored⟩
  · have hready := ht.ready
    have hreserved := ht.reservedBytes
    have hcapacity := ht.capacity
    have hfits := h.fits
    dsimp only
    omega
  · obtain ⟨r, hr, hkey⟩ := h.reserved a ha
    rw [← hrows] at hr
    exact ⟨r, hr, hkey⟩
  · obtain ⟨r, hr, hkey⟩ := h.held token htoken
    rw [← hrows] at hr
    exact ⟨r, hr, hkey⟩
  · have hr : r ∈ t.db.reservations.rows := hr
    exact h.known hopen r (hrows ▸ hr)

theorem mem_tokens_find {a : Admission Hash} (h : s.find? token = some a) :
    a ∈ s.admissions ∧ a.token = token := by
  refine ⟨List.mem_of_find?_eq_some h, ?_⟩
  simpa using List.find?_some h

theorem Accounted.not_held (h : Accounted s) {a : Admission Hash} (ha : a ∈ s.admissions) :
    a.token ∉ s.held := fun hheld =>
  List.disjoint_of_nodup_append h.apart (List.mem_map_of_mem ha) hheld

theorem Accounted.without (h : Accounted s) (htoken : token ∉ s.held)
    {t : BlobStore Hash (List UInt8)} {stored : List (StoredBlob Hash)}
    (hfits : t.readyBytes + t.reservedBytes ≤ t.capacity)
    (hkept : ∀ r ∈ s.rows, r.token ≠ token → r ∈ t.db.reservations.rows)
    (hgone : s.closed = false → ∀ r ∈ t.db.reservations.rows, r ∈ s.rows ∧ r.token ≠ token)
    (hstored : ∀ b ∈ stored, b.stored ≤ b.reserved) :
    Accounted ⟨t, s.admissions.filter fun a => a.token ≠ token, s.held, stored, s.closed⟩ where
  fits := hfits
  reserved a ha := by
    obtain ⟨ha, hne⟩ := List.mem_filter.mp ha
    obtain ⟨r, hr, hkey, hbytes⟩ := h.reserved a ha
    exact ⟨r, hkept r hr (by simpa [hkey] using hne), hkey, hbytes⟩
  held other hother := by
    obtain ⟨r, hr, rfl⟩ := h.held other hother
    exact ⟨r, hkept r hr fun hkey => htoken (hkey ▸ hother), rfl⟩
  apart := h.apart.sublist ((List.filter_sublist.map _).append_right _)
  known hopen r hr := by
    obtain ⟨hr, hne⟩ := hgone hopen r hr
    rcases h.known hopen r hr with hadmission | hheld
    · obtain ⟨a, ha, hkey⟩ := List.mem_map.mp hadmission
      exact Or.inl (List.mem_map.mpr ⟨a, List.mem_filter.mpr ⟨ha, by simpa [hkey] using hne⟩, hkey⟩)
    · exact Or.inr hheld
  within a ha := h.within a (List.mem_of_mem_filter ha)
  stored := hstored

theorem mem_dropReservation {store : BlobStore Hash (List UInt8)} {r : ReservationRow} :
    r ∈ (store.dropReservation token).db.reservations.rows ↔
      r ∈ store.db.reservations.rows ∧ r.token ≠ token := by
  simp [dropReservation, Table.filter]

theorem dropReservation_le (store : BlobStore Hash (List UInt8)) (token : String) :
    (store.dropReservation token).reservedBytes ≤ store.reservedBytes :=
  (List.filter_sublist.map _).sum_le_sum fun n _ => Nat.zero_le n

theorem Accounted.finish (h : Accounted s) (htoken : token ∉ s.held) :
    Accounted (s.finish token) := by
  unfold Admissions.finish drop
  dsimp only
  split_ifs with hclosed
  · refine h.without htoken h.fits (fun r hr _ => hr) (fun hopen => ?_) h.stored
    rw [hclosed] at hopen
    cases hopen
  · refine h.without htoken ?_ (fun r hr hne => mem_dropReservation.mpr ⟨hr, hne⟩)
      (fun _ r hr => mem_dropReservation.mp hr) h.stored
    exact (Nat.add_le_add_left (dropReservation_le s.store token) _).trans h.fits

theorem Accounted.fresh (h : Accounted s) (hnew : ∀ r ∈ s.rows, r.token ≠ token) :
    token ∉ s.tokens ++ s.held := by
  intro hmem
  rcases List.mem_append.mp hmem with hmem | hmem
  · obtain ⟨a, ha, rfl⟩ := List.mem_map.mp hmem
    obtain ⟨r, hr, hkey, -⟩ := h.reserved a ha
    exact hnew r hr hkey
  · obtain ⟨r, hr, hkey⟩ := h.held token hmem
    exact hnew r hr hkey

theorem Accounted.release (h : Accounted s) (htoken : token ∈ s.held) :
    Accounted (drop { s with held := s.held.filter (· ≠ token) } token) := by
  have hapart : (s.tokens ++ s.held.filter (· ≠ token)).Nodup :=
    h.apart.sublist (List.filter_sublist.append_left _)
  have hadmissions : ∀ a ∈ s.admissions, a.token ≠ token := fun a ha hkey =>
    h.not_held ha (hkey ▸ htoken)
  unfold drop
  dsimp only
  split_ifs with hclosed
  · refine ⟨h.fits, h.reserved, fun other hother => ?_, hapart, fun hopen => ?_, h.within, h.stored⟩
    · exact h.held other (List.mem_of_mem_filter hother)
    · rw [hclosed] at hopen
      cases hopen
  · refine ⟨?_, fun a ha => ?_, fun other hother => ?_, hapart, fun hopen r hr => ?_, h.within,
      h.stored⟩
    · exact (Nat.add_le_add_left (dropReservation_le s.store token) _).trans h.fits
    · obtain ⟨r, hr, hkey, hbytes⟩ := h.reserved a ha
      exact ⟨r, mem_dropReservation.mpr ⟨hr, hkey ▸ hadmissions a ha⟩, hkey, hbytes⟩
    · obtain ⟨hother, hne⟩ := List.mem_filter.mp hother
      obtain ⟨r, hr, rfl⟩ := h.held other hother
      exact ⟨r, mem_dropReservation.mpr ⟨hr, by simpa using hne⟩, rfl⟩
    · obtain ⟨hr, hne⟩ := mem_dropReservation.mp hr
      rcases h.known hopen r hr with hadmission | hheld
      · exact Or.inl hadmission
      · exact Or.inr (List.mem_filter.mpr ⟨hheld, by simpa using hne⟩)

theorem Accounted.advance (h : Accounted s) {progress : Progress Hash}
    (hwithin : ∀ a ∈ s.admissions, a.token = token →
      (received { a with progress := progress }).length ≤ a.bytes) :
    Accounted (s.advance token progress) := by
  have htokens : (s.advance token progress).tokens = s.tokens := by
    rw [tokens, Admissions.advance, List.map_map]
    refine List.map_congr_left fun a _ => ?_
    rw [Function.comp_apply]
    split <;> rfl
  refine ⟨h.fits, ?_, h.held, htokens.symm ▸ h.apart, fun hopen r hr => ?_, ?_, h.stored⟩
  · refine List.forall_mem_map.mpr fun a ha => ?_
    obtain ⟨r, hr, hkey, hbytes⟩ := h.reserved a ha
    refine ⟨r, hr, ?_, ?_⟩
    · split <;> exact hkey
    · split <;> exact hbytes
  · rw [htokens]
    exact h.known hopen r hr
  · refine List.forall_mem_map.mpr fun a ha => ?_
    split_ifs with hkey
    · exact hwithin a ha hkey
    · exact h.within a ha

theorem Accounted.finish_found (h : Accounted s) {a : Admission Hash} (hfound : s.find? token = some a) :
    Accounted (s.finish token) := by
  obtain ⟨ha, rfl⟩ := mem_tokens_find hfound
  exact h.finish (h.not_held ha)

theorem Accounted.advance_found (h : Accounted s) {a : Admission Hash} (hfound : s.find? token = some a)
    {progress : Progress Hash} (hwithin : (received { a with progress := progress }).length ≤ a.bytes) :
    Accounted (s.advance token progress) := by
  refine h.advance fun other hother hkey => ?_
  obtain ⟨ha, hkey'⟩ := mem_tokens_find hfound
  have hnodup : (s.admissions.map Admission.token).Nodup := (List.nodup_append.mp h.apart).1
  obtain rfl := List.inj_on_of_nodup_map hnodup ha hother (hkey'.trans hkey.symm)
  exact hwithin

end Invariant

section Steps

variable [LinearOrder Hash] {l : AdmissionLabel Hash} {a : Admission Hash}

theorem Accounted.reserving (h : Accounted s) (token : String) (bytes : ℤ) :
    ((s.reserving l token bytes).2 = false ∧ Accounted (s.reserving l token bytes).1) ∨
      ∃ t : BlobStore Hash (List UInt8), s.reserving l token bytes = ({ s with store := t }, true) ∧
        s.closed = false ∧ t.readyBytes + t.reservedBytes ≤ t.capacity ∧
        (∀ r ∈ s.rows, r.token ≠ token) ∧
        ∀ r, r ∈ t.db.reservations.rows ↔ r ∈ s.rows ∨ r = ⟨token, bytes.toNat, l.now⟩ := by
  simp only [Admissions.reserving]
  split_ifs with hclosed
  · exact Or.inl ⟨rfl, h⟩
  · rcases reserveBytes_cases l.fails token bytes l.now s.store with
      ⟨⟨e, he⟩, hlighter⟩ | ⟨hok, hfits, hnew, hrows, hcapacity⟩
    · exact Or.inl ⟨by rw [he]; rfl, h.lighter hlighter⟩
    · refine Or.inr ⟨_, by rw [hok]; rfl, by simpa using hclosed, ?_, hnew, fun r => ?_⟩
      · rw [hcapacity]
        exact hfits
      · rw [hrows, List.mem_append, List.mem_singleton]
        rfl

theorem Accounted.begin (h : Accounted s) (bytes : ℤ) (origin : BlobOrigin) (owner : Option Owner)
    {progress : Progress Hash} (hempty : ∀ n, received ⟨token, n, origin, owner, progress⟩ = []) :
    Accounted (s.begin l token bytes origin owner progress) := by
  rcases h.reserving (l := l) token bytes with
    ⟨hfailed, hkept⟩ | ⟨t, hok, hopen, hfits, hnew, hrows⟩
  · simpa [Admissions.begin, hfailed] using hkept
  · simp only [Admissions.begin, hok, if_true]
    refine ⟨hfits, ?_, fun other hother => ?_, List.nodup_cons.mpr ⟨h.fresh hnew, h.apart⟩,
      fun _ r hr => ?_, List.forall_mem_cons.mpr ⟨by simp [hempty], h.within⟩, h.stored⟩
    · refine List.forall_mem_cons.mpr ⟨⟨_, (hrows _).mpr (Or.inr rfl), rfl, rfl⟩, fun a ha => ?_⟩
      obtain ⟨r, hr, hkey⟩ := h.reserved a ha
      exact ⟨r, (hrows r).mpr (Or.inl hr), hkey⟩
    · obtain ⟨r, hr, hkey⟩ := h.held other hother
      exact ⟨r, (hrows r).mpr (Or.inl hr), hkey⟩
    · rcases (hrows r).mp hr with hr | rfl
      · exact (h.known hopen r hr).imp_left (List.mem_cons_of_mem _)
      · exact Or.inl List.mem_cons_self

theorem Accounted.reserve (h : Accounted s) (bytes : ℤ) :
    Accounted (match s.reserving l token bytes with
      | (t, reserved) => if reserved then { t with held := token :: t.held } else t) := by
  rcases h.reserving (l := l) token bytes with
    ⟨hfailed, hkept⟩ | ⟨t, hok, hopen, hfits, hnew, hrows⟩
  · simpa [hfailed] using hkept
  · simp only [hok, if_true]
    refine ⟨hfits, fun a ha => ?_, ?_, List.nodup_middle.mpr (List.nodup_cons.mpr ⟨h.fresh hnew, h.apart⟩),
      fun _ r hr => ?_, h.within, h.stored⟩
    · obtain ⟨r, hr, hkey⟩ := h.reserved a ha
      exact ⟨r, (hrows r).mpr (Or.inl hr), hkey⟩
    · refine List.forall_mem_cons.mpr ⟨⟨_, (hrows _).mpr (Or.inr rfl), rfl⟩, fun other hother => ?_⟩
      obtain ⟨r, hr, hkey⟩ := h.held other hother
      exact ⟨r, (hrows r).mpr (Or.inl hr), hkey⟩
    · rcases (hrows r).mp hr with hr | rfl
      · exact (h.known hopen r hr).imp_right (List.mem_cons_of_mem _)
      · exact Or.inr List.mem_cons_self

theorem Accounted.promoting (h : Accounted s) (digest : List UInt8 → Hash) (ha : a ∈ s.admissions) :
    Accounted (s.promoting digest l a (received a)) := by
  have hcases := @promote_cases _ _ _ digest List.length s.store (received a) a.origin a.owner a.token
    l.now
  simp only [Admissions.promoting, promotion]
  rcases hcases with ⟨⟨e, he⟩, hlighter⟩ | ⟨hok, hready, hreservations, hcapacity⟩
  · simp only [he, Except.toOption, Option.isSome_none, Bool.false_eq_true, if_false]
    exact (h.lighter hlighter).finish (h.not_held ha)
  · simp only [hok, Except.toOption, Option.isSome_some, if_true]
    generalize ((promote digest List.length (received a) a.origin a.owner a.token l.now).run
      s.store).final s.store = t at *
    obtain ⟨r, hr, hkey, hbytes⟩ := h.reserved a ha
    have hwithin := h.within a ha
    have hexchanged : t.reservedBytes + a.bytes = s.store.reservedBytes := by
      rw [BlobStore.reservedBytes, hreservations, ← hkey, ← hbytes]
      exact dropReservation_reservedBytes hr
    have hrows : ∀ r, r ∈ t.db.reservations.rows ↔ r ∈ s.rows ∧ r.token ≠ a.token := fun r => by
      rw [hreservations]
      exact mem_dropReservation
    have hfits : t.readyBytes + t.reservedBytes ≤ t.capacity := by
      have hfits := h.fits
      omega
    have hstored : ∀ b ∈ (⟨digest (received a), a.bytes, (received a).length⟩ : StoredBlob Hash) ::
        s.stored, b.stored ≤ b.reserved := List.forall_mem_cons.mpr ⟨hwithin, h.stored⟩
    unfold Admissions.finish drop
    dsimp only
    split_ifs with hclosed
    · refine h.without (h.not_held ha) hfits (fun r hr hne => (hrows r).mpr ⟨hr, hne⟩)
        (fun _ r hr => (hrows r).mp hr) hstored
    · refine h.without (h.not_held ha) ((Nat.add_le_add_left (dropReservation_le t a.token) _).trans hfits)
        (fun r hr hne => mem_dropReservation.mpr ⟨(hrows r).mpr ⟨hr, hne⟩, hne⟩)
        (fun _ r hr => (hrows r).mp (mem_dropReservation.mp hr).1) hstored

theorem operates_lighter {op : BlobOp Hash (List UInt8)} (h : operates op = true)
    (digest : List UInt8 → Hash) (store : BlobStore Hash (List UInt8)) :
    Preserves (Lighter store)
      (BlobLabel.program digest List.length ⟨op, l.now, l.fails, none⟩) := by
  cases op with
  | lookup hash => exact .bind (lookup_lighter l.now store hash) fun _ => .pure _
  | releaseLease hash =>
    exact .bind (.commit fun t ht => ht.trans (lighter_of_eq rfl rfl rfl)) fun _ =>
      deleteIfUnownedWrite_lighter l.fails l.now store hash
  | acquireOwner owner hash =>
    refine .transaction fun t a u ht hu => ?_
    split_ifs at hu
    cases hu
    exact ht.trans (lighter_of_eq rfl rfl rfl)
  | transferOwner source target hashes => exact transferOwner_lighter l.fails l.now store source target hashes
  | releaseOwner owner => exact releaseOwner_lighter l.fails l.now store owner
  | releaseOwnerOf owner hash =>
    exact .bind (.commit fun t ht => ht.trans (lighter_of_eq rfl rfl rfl)) fun _ =>
      deleteIfUnownedWrite_lighter l.fails l.now store hash
  | commitRoute route size components owner =>
    exact commitRoute_lighter l.fails l.now store route size components owner
  | reserve _ _ | releaseReservation _ | promote _ _ _ _ | reconcile _ => cases h

variable {digest : List UInt8 → Hash} {sources : String → Option (List UInt8)}

theorem promoted_received {content : List UInt8} (h : s.promoted digest l = some (a, content)) :
    a ∈ s.admissions ∧ content = received a := by
  unfold promoted at h
  split at h
  · split at h
    · cases h
    · next found hfound =>
      split at h
      · next hprogress =>
        split_ifs at h
        cases h
        exact ⟨(mem_tokens_find hfound).1, by rw [received, hprogress]⟩
      · cases h
  · split at h
    · cases h
    · next found hfound =>
      split at h
      · next hprogress =>
        cases h
        exact ⟨(mem_tokens_find hfound).1, by rw [received, hprogress]⟩
      · cases h
  · cases h

theorem Accounted.ended (h : Accounted s) (l : AdmissionLabel Hash) (token : String) :
    Accounted (match s.promoted digest l with
      | some (a, content) => s.promoting digest l a content
      | none =>
        match s.find? token, l.op with
        | some ⟨_, _, _, _, .streaming _ _⟩, .done _ => s.finish token
        | _, _ => s) := by
  split
  · next a content hpromoted =>
    obtain ⟨ha, rfl⟩ := promoted_received hpromoted
    exact h.promoting digest ha
  · split
    · next hfound _ => exact h.finish_found hfound
    · exact h

theorem handle_accounted (h : Accounted s) (l : AdmissionLabel Hash) :
    Accounted (s.handle digest sources l) := by
  unfold handle
  split
  · exact h.reserve _
  · split_ifs with htoken
    · exact h.release htoken
    · exact h
  · exact h.begin _ _ _ fun _ => rfl
  · exact h.begin _ _ _ fun _ => rfl
  · split
    · exact h
    · next a hfound =>
      split
      · split_ifs with hlength
        · exact h.finish_found hfound
        · refine h.advance_found hfound ?_
          rw [received, List.length_append]
          exact not_lt.mp hlength
      · exact h
  · split
    · exact h
    · next a hfound =>
      split
      · split
        · exact h.finish_found hfound
        · split_ifs with hcontent
          · exact h.advance_found hfound hcontent.1.le
          · exact h.finish_found hfound
      · exact h
  · exact h.ended l _
  · exact h.ended l _
  · split_ifs with hfound
    · obtain ⟨a, ha⟩ := Option.isSome_iff_exists.mp hfound
      exact h.finish_found ha
    · exact h
  · split_ifs with hop
    · exact h.lighter ((operates_lighter hop digest s.store).final (.refl s.store))
    · exact h
  · exact ⟨h.fits, h.reserved, h.held, h.apart, (fun hopen => nomatch hopen), h.within, h.stored⟩

/-- In every run the ready and the reserved bytes fit the capacity, no admission receives or stores
more than it has reserved, and nothing stays reserved once all admissions are over and all explicit
reservations are released, unless the store has been closed before. -/
theorem capacity_accounted (store : BlobStore Hash (List UInt8)) (digest : List UInt8 → Hash)
    (sources : String → Option (List UInt8))
    (hfits : store.readyBytes + store.reservedBytes ≤ store.capacity)
    (labels : List (AdmissionLabel Hash)) :
    let s := Runs.run (handle digest sources) (opened store) labels
    s.store.readyBytes + s.store.reservedBytes ≤ s.store.capacity ∧
      (∀ a ∈ s.admissions, (received a).length ≤ a.bytes) ∧
      (∀ b ∈ s.stored, b.stored ≤ b.reserved) ∧
      (s.closed = false → s.admissions = [] → s.held = [] → s.store.reservedBytes = 0) := by
  intro s
  have h : Accounted (Runs.run (handle digest sources) (opened store) labels) :=
    Runs.run_preserves (I := Accounted) (fun _ l hs => handle_accounted hs l) labels
      (opened_accounted hfits)
  refine ⟨h.fits, h.within, h.stored, fun hopen hadmissions hheld => ?_⟩
  have hrows : s.rows = [] := by
    refine List.eq_nil_iff_forall_not_mem.mpr fun r hr => ?_
    have hknown := h.known hopen r hr
    rw [tokens, hadmissions, hheld] at hknown
    simp at hknown
  rw [BlobStore.reservedBytes, show s.store.db.reservations.rows = [] from hrows]
  rfl

/-- A stream of two chunks fills a store of five bytes next to an explicit reservation. -/
def sampleLabels : List (AdmissionLabel ℕ) :=
  [⟨.reserve "r" 2, 0, fun _ => none⟩, ⟨.admitStream "a" 3 .write none none, 1, fun _ => none⟩,
    ⟨.chunk "a" [1, 2], 2, fun _ => none⟩, ⟨.chunk "a" [3], 3, fun _ => none⟩,
    ⟨.done "a", 4, fun _ => none⟩, ⟨.release "r", 5, fun _ => none⟩]

theorem capacity_accounted_two_chunks :
    let s := Runs.run (handle List.length fun _ => none) (opened (BlobStore.empty 5)) sampleLabels
    s.stored = [⟨3, 3, 3⟩] ∧ s.store.readyBytes = 3 ∧ s.store.reservedBytes = 0 := by
  have haccounted := capacity_accounted (BlobStore.empty 5) List.length (fun _ => none) (by decide)
    sampleLabels
  exact ⟨by decide +kernel, by decide +kernel,
    haccounted.2.2.2 (by decide +kernel) (by decide +kernel) (by decide +kernel)⟩

end Steps

end Admissions

end NixstrCache.Persistence
