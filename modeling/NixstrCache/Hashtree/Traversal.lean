import NixstrCache.Hashtree.FileStream

/-!
The bounds of the traversals.

A path is resolved from manifest to manifest, a file is planned by recursion, and a whole tree is
materialized by a recursion that takes every manifest once.  Each manifest that is taken up was linked
by one whose links have been debited, except the first, and each is among the nodes of the budget.  The
depth is checked in the first two; the third one only ends because the nodes do.
-/

namespace NixstrCache.Hashtree.Reader

open Protocol Persistence Programs

variable (w : World) (limits : TraversalLimits)

section Model

structure Materialized where
  inventory : List (Hash × ℕ)
  traversed : List Hash

/-- `HashtreeBuild`, as far as it depends on the tree. -/
structure HashtreeBuild where
  rootHex : Hash
  inventory : List (Hash × ℕ)
  totalBytes : ℕ

def Materialized.holds (m : Materialized) (hash : Hash) : Bool :=
  m.inventory.any fun blob => blob.1 = hash

def fetchOne (hash : Hash) (declaredSize : Option ℕ) (manifest : Bool) (m : Materialized) :
    Program Materialized := do
  if m.holds hash then pure m
  else do
    let s ← get
    visitNode w limits hash
    if hash ∈ s.nodes then do
      refuse manifest (.failed "blob is undefined")
      pure m
    else do
      let _ ← fetch w limits hash declaredSize
        (if manifest then w.maxWireBytes else limits.maxBlobTransferBytes)
      pure { m with inventory := m.inventory ++ [(hash, (w.content hash).length)] }

def readManifest (hash : Hash) : Program ValidatedManifest := do
  let s ← get
  refuse (w.blob s hash).broken (.failed "blob cannot be read")
  decodeManifest w hash

def manifestType : LinkType → ManifestType
  | .file => .file
  | .directory => .directory
  | _ => .fanout

def materializeLink (visit : Hash → ManifestType → Materialized → Program Materialized)
    (link : ManifestLink) (m : Materialized) : Program Materialized :=
  if link.type = .blob then fetchOne w limits link.hash (some link.size) false m
  else visit link.hash (manifestType link.type) m

def materializeLinks (visit : Hash → ManifestType → Materialized → Program Materialized) :
    List ManifestLink → Materialized → Program Materialized
  | [], m => pure m
  | link :: links, m => do
    let m ← materializeLink w limits visit link m
    materializeLinks visit links m

/-- `visitManifest`.  The depth is only recorded. -/
def visitManifest : ℕ → ℕ → Hash → ManifestType → Materialized → Program Materialized
  | 0, _, _, _, _ => throw .spinning
  | fuel + 1, depth, hash, expected, m => do
    throwIfAborted w
    if hash ∈ m.traversed then pure m
    else do
      let m ← fetchOne w limits hash none true { m with traversed := hash :: m.traversed }
      let decoded ← readManifest w hash
      takeUp hash depth
      debitDecoded w limits decoded.decodedBytes
      debitLinks w limits decoded.manifest.links.length
      refuse (decoded.manifest.type ≠ expected)
        (.failed "linked manifest type does not match authenticated link")
      materializeLinks w limits (visitManifest fuel (depth + 1)) decoded.manifest.links m

def materialize (root : Hash) : Program HashtreeBuild := do
  let m ← visitManifest w limits (limits.maxUniqueNodes + 1) 1 root .directory ⟨[], []⟩
  pure ⟨root, m.inventory, (m.inventory.map Prod.snd).sum⟩

end Model

section Links

variable {w limits} {s t : Session}

/-- The manifests taken up are no more than those linked by them, and some further ones. -/
def Costs (count : ℕ) (s t : Session) : Prop :=
  t.visits.length + s.links ≤ s.visits.length + t.links + count

theorem Costs.refl (count : ℕ) (s : Session) : Costs count s s :=
  Nat.le_add_right _ _

theorem costs_loadClosed : LoadClosed limits (Costs 0) where
  refl := fun s => le_rfl
  trans := by
    intro s t u h h'
    simp only [Costs] at h h' ⊢
    omega
  read := fun s => le_rfl
  attempt := fun s _ => le_rfl
  transfer := fun s _ _ => le_rfl
  admits := fun s _ => le_rfl
  node := fun s _ _ _ => le_rfl
  decode := fun s _ _ => le_rfl
  manifest := fun s _ _ => le_rfl

theorem Costs.mono {a b : ℕ} (h : Costs a s t) (hab : a ≤ b) : Costs b s t :=
  le_trans h (Nat.add_le_add_left hab _)

theorem Costs.trans {a b : ℕ} {u : Session} (h : Costs a s t) (h' : Costs b t u) :
    Costs (a + b) s u := by
  simp only [Costs] at h h' ⊢
  omega

theorem costs_bind {α β : Type} {p : Program α} {f : α → Program β} {a b : ℕ}
    (hp : Keeps (Costs a) p) (hf : ∀ x, Keeps (Costs b) (f x)) : Keeps (Costs (a + b)) (p >>= f) :=
  hp.bind_of hf (fun _ _ h => h.mono (Nat.le_add_right a b)) fun _ _ _ => Costs.trans

theorem checkDepth_costs (depth : ℕ) : Keeps (Costs 0) (checkDepth w limits depth) :=
  debit_keeps (fun _ => le_rfl) fun _ _ => le_rfl

theorem throwIfAborted_keeps {R : Session → Session → Prop} (hrefl : ∀ s, R s s) :
    Keeps R (throwIfAborted w) := by
  intro s
  rw [final, throwIfAborted]
  split_ifs
  · exact hrefl s
  · exact hrefl s

theorem takeUp_costs (hash : Hash) (depth : ℕ) : Keeps (Costs 1) (takeUp hash depth) := by
  refine modify_keeps fun s => ?_
  simp only [Costs, List.length_cons]
  omega

theorem debitLinks_costs {β : Type} {count : ℕ} {p : Program β} (hp : Keeps (Costs count) p) :
    Keeps (Costs 0) (debitLinks w limits count >>= fun _ => p) := by
  intro s
  have hdebit : Keeps (Costs 0) (debitLinks w limits count) :=
    debit_keeps (fun _ => le_rfl) fun s _ => by simp [Costs]
  cases h : debitLinks w limits count s with
  | ok a u =>
    rw [final_bind_ok h]
    have hrest := hp u
    obtain ⟨-, rfl⟩ := debit_ok h
    simp only [Costs] at hrest ⊢
    omega
  | error e u =>
    have hs := hdebit s
    rw [final_error h] at hs
    rwa [final_error (bind_error.mpr (Or.inl h))]

theorem refuse_costs (c : Bool) (error : ReadError) : Keeps (Costs 0) (refuse c error) :=
  refuse_keeps (Costs.refl _) c error

theorem planLinks_costs {visit : Hash → Program FilePlan} (hvisit : ∀ hash, Keeps (Costs 1) (visit hash))
    (links : List ManifestLink) (plan : FilePlan) :
    Keeps (Costs links.length) (planLinks w limits visit links plan) := by
  induction links generalizing plan with
  | nil => exact .pure (Costs.refl _) _
  | cons link links ih =>
    have hlink : Keeps (Costs 1) (planLink visit link) := by
      rw [planLink]
      split
      · exact .pure (Costs.refl 1) _
      · exact costs_bind (hvisit _) fun child => costs_bind (refuse_costs _ _) fun _ =>
          .pure (Costs.refl 0) _
      · exact .throw (Costs.refl 1) _
    have houtput (count : ℕ) : Keeps (Costs 0) (ensureOutputAvailable w limits count) :=
      debit_keeps (fun _ => le_rfl) fun _ _ => le_rfl
    have hall := costs_bind hlink fun child => costs_bind (refuse_costs
      (maxSafeInteger < plan.size + child.size)
      (.budgetExceeded "file output size is not a safe integer")) fun _ =>
        costs_bind (houtput (plan.size + child.size)) fun _ =>
          ih ⟨plan.size + child.size, plan.chunks ++ child.chunks⟩
    rw [List.length_cons]
    exact hall.mono fun s t h => h.mono (by omega)

theorem planFile_costs (fuel depth : ℕ) (hash : Hash) :
    Keeps (Costs 1) (planFile w limits fuel depth hash) := by
  induction fuel generalizing depth hash with
  | zero => exact .throw (Costs.refl 1) _
  | succ fuel ih =>
    refine costs_bind (a := 0) (b := 1) (throwIfAborted_keeps (Costs.refl _)) fun _ => ?_
    refine costs_bind (a := 0) (b := 1) (checkDepth_costs depth) fun _ => ?_
    refine costs_bind (a := 0) (b := 1) (costs_loadClosed.manifestOf hash) fun manifest => ?_
    refine costs_bind (a := 1) (b := 0) (takeUp_costs hash depth) fun _ => ?_
    refine costs_bind (a := 0) (b := 0) (refuse_costs _ _) fun _ => debitLinks_costs ?_
    exact planLinks_costs (ih (depth + 1)) _ _

theorem filePlan_costs (hash : Hash) (expectedSize : ℕ) :
    Keeps (Costs 1) (filePlan w limits hash expectedSize) :=
  costs_bind (a := 1) (b := 0) (planFile_costs _ _ _) fun _ =>
    costs_bind (a := 0) (b := 0) (refuse_costs _ _) fun _ => .pure (Costs.refl _) _

theorem costs_ok {α : Type} {p : Program α} {count : ℕ} {a : α} (hp : Keeps (Costs count) p)
    (h : p s = .ok a t) : Costs count s t := by
  have hs := hp s
  rwa [final_ok h] at hs

theorem linked_pos {α : Type} {links : List α} {link : α} (h : link ∈ links) : 1 ≤ links.length :=
  List.length_pos_of_mem h

theorem descend_costs (path : String) (fuel depth : ℕ) (hash : Hash) (expected : LinkType)
    (segments : List String) :
    Keeps (Costs 1) (descend w limits path fuel depth hash expected segments) := by
  induction fuel generalizing depth hash expected segments with
  | zero => exact .throw (Costs.refl 1) _
  | succ fuel ih =>
    refine costs_bind (a := 0) (b := 1) (checkDepth_costs depth) fun _ => ?_
    refine costs_bind (a := 0) (b := 1) (costs_loadClosed.manifestOf hash) fun manifest => ?_
    refine costs_bind (a := 1) (b := 0) (takeUp_costs hash depth) fun _ => ?_
    refine costs_bind (a := 0) (b := 0) (refuse_costs _ _) fun _ => debitLinks_costs ?_
    rcases hnext : nextLink manifest segments with _ | ⟨link, _ | ⟨segment, rest⟩⟩
    · exact .throw (Costs.refl _) _
    · exact .pure (Costs.refl _) _
    · have hpos := linked_pos (nextLink_mem hnext)
      exact (ih _ _ _ _).mono fun s t h => h.mono hpos

theorem descend_paid {path : String} {fuel depth : ℕ} {hash : Hash} {expected : LinkType}
    {segments : List String} {link : ManifestLink}
    (h : descend w limits path fuel depth hash expected segments s = .ok link t) : Costs 0 s t := by
  induction fuel generalizing depth hash expected segments s with
  | zero => exact nomatch h
  | succ fuel ih =>
    obtain ⟨_, u₁, hdepth, h⟩ := bind_ok.mp h
    obtain ⟨manifest, u₂, hmanifest, h⟩ := bind_ok.mp h
    obtain ⟨_, u₃, htake, h⟩ := bind_ok.mp h
    obtain ⟨_, u₄, hrefuse, h⟩ := bind_ok.mp h
    obtain ⟨_, u₅, hdebit, h⟩ := bind_ok.mp h
    have hbefore : Costs 1 s u₄ :=
      (((costs_ok (checkDepth_costs depth) hdepth).trans
        (costs_ok (costs_loadClosed.manifestOf hash) hmanifest)).trans
          (costs_ok (takeUp_costs hash depth) htake)).trans (costs_ok (refuse_costs _ _) hrefuse)
    have hlinks : u₅.visits = u₄.visits ∧ u₅.links = u₄.links + manifest.links.length := by
      rw [(debit_ok hdebit).2]
      exact ⟨rfl, rfl⟩
    have hafter (hpos : 1 ≤ manifest.links.length) (hrest : Costs 0 u₅ t) : Costs 0 s t := by
      simp only [Costs, hlinks] at hbefore hrest ⊢
      omega
    rcases hnext : nextLink manifest segments with _ | ⟨found, _ | ⟨segment, rest⟩⟩
    · rw [hnext] at h
      exact nomatch h
    · rw [hnext] at h
      obtain ⟨-, rfl⟩ := EStateM.Result.ok.inj h
      exact hafter (linked_pos (nextLink_mem hnext)) (Costs.refl 0 _)
    · rw [hnext] at h
      exact hafter (linked_pos (nextLink_mem hnext)) (ih h)

theorem namingPath_keeps {R : Session → Session → Prop} {α : Type} {path : String} {p : Program α}
    (hp : Keeps R p) : Keeps R (namingPath path p) := by
  intro s
  have hs := hp s
  have hsame : final (namingPath path p) s = final p s := by
    rw [final, final, namingPath]
    rcases p s with ⟨a, t⟩ | ⟨e, t⟩
    · rfl
    · cases e with
      | unavailable origins =>
        dsimp only
        split_ifs
        · rfl
        · rfl
      | _ => rfl
  rwa [hsame]

theorem FetchClosed.rawStream {R : Session → Session → Prop} (h : FetchClosed limits R) (hash : Hash)
    (size : ℕ) : Keeps R (rawStream w limits hash size) :=
  .bind h.trans (h.fetch _ _ _) fun _ => .pure h.refl _

theorem serveLink_keeps {R : Session → Session → Prop} (hrefl : ∀ s, R s s) (method : Method)
    (link : ManifestLink) (hraw : Keeps R (rawStream w limits link.hash link.size))
    (hplan : Keeps R (filePlan w limits link.hash link.size)) :
    Keeps R (serveLink w limits method link) := by
  unfold serveLink
  cases link.type with
  | blob =>
    cases method with
    | head => exact .pure hrefl _
    | get => exact .bind_still hraw fun _ _ => rfl
  | file =>
    refine .bind_still hplan fun plan => ?_
    cases method with
    | head => exact fun _ => rfl
    | get => exact fun _ => rfl
  | directory => exact .throw hrefl _
  | fanout => exact .throw hrefl _

theorem resolve_costs (root : Hash) (path : String) (method : Method) :
    Keeps (Costs 1) (resolve w limits root path method) := by
  refine costs_bind (a := 0) (b := 1) (refuse_costs _ _) fun _ s => ?_
  have hserve (link : ManifestLink) : Keeps (Costs 1) (namingPath path (serveLink w limits method link)) :=
    namingPath_keeps (serveLink_keeps (Costs.refl 1) method link
      ((costs_loadClosed.rawStream _ _).mono fun _ _ h => h.mono (Nat.zero_le 1)) (filePlan_costs _ _))
  cases h : descend w limits path (limits.maxDepth + 1) 1 root .directory (segmentsOf path) s with
  | ok link u =>
    rw [final_bind_ok h]
    exact (descend_paid h).trans (hserve link u)
  | error e u =>
    have hs : Costs 1 s (final (descend w limits path (limits.maxDepth + 1) 1 root .directory
        (segmentsOf path)) s) := descend_costs _ _ _ _ _ _ s
    rw [final_error h] at hs
    rwa [final_error (bind_error.mpr (Or.inl h))]

theorem fetchOne_keeps {R : Session → Session → Prop} (h : LoadClosed limits R) (hash : Hash)
    (declaredSize : Option ℕ) (manifest : Bool) (m : Materialized) :
    Keeps R (fetchOne w limits hash declaredSize manifest m) := by
  refine .ite (.pure h.refl _) (.bind h.trans (.get h.refl) fun s =>
    .bind h.trans (h.visitNode hash) fun _ => .ite ?_ ?_)
  · exact .bind h.trans (refuse_keeps h.refl _ _) fun _ => .pure h.refl _
  · exact .bind h.trans (h.fetch _ _ _) fun _ => .pure h.refl _

theorem readManifest_keeps {R : Session → Session → Prop} (hrefl : ∀ s, R s s)
    (htrans : ∀ s t u, R s t → R t u → R s u) (hash : Hash) : Keeps R (readManifest w hash) :=
  .bind htrans (.get hrefl) fun _ => .bind htrans (refuse_keeps hrefl _ _) fun _ =>
    decodeManifest_keeps hrefl hash

theorem LoadClosed.debitDecoded {R : Session → Session → Prop} (h : LoadClosed limits R) (count : ℕ) :
    Keeps R (debitDecoded w limits count) :=
  debit_keeps h.read fun s hallowed =>
    h.trans _ _ _ (h.read s) (h.decode _ _ (by simpa using hallowed))

theorem materializeLinks_costs
    {visit : Hash → ManifestType → Materialized → Program Materialized}
    (hvisit : ∀ hash expected m, Keeps (Costs 1) (visit hash expected m)) (links : List ManifestLink)
    (m : Materialized) : Keeps (Costs links.length) (materializeLinks w limits visit links m) := by
  induction links generalizing m with
  | nil => exact .pure (Costs.refl _) _
  | cons link links ih =>
    have hlink : Keeps (Costs 1) (materializeLink w limits visit link m) := by
      refine .ite ?_ (hvisit _ _ _)
      exact (fetchOne_keeps costs_loadClosed _ _ _ _).mono fun _ _ h => h.mono (Nat.zero_le 1)
    rw [List.length_cons]
    exact (costs_bind hlink ih).mono fun s t h => h.mono (by omega)

theorem visitManifest_costs (fuel depth : ℕ) (hash : Hash) (expected : ManifestType)
    (m : Materialized) : Keeps (Costs 1) (visitManifest w limits fuel depth hash expected m) := by
  induction fuel generalizing depth hash expected m with
  | zero => exact .throw (Costs.refl 1) _
  | succ fuel ih =>
    refine costs_bind (a := 0) (b := 1) (throwIfAborted_keeps (Costs.refl _)) fun _ =>
      .ite (.pure (Costs.refl 1) _) ?_
    refine costs_bind (a := 0) (b := 1) (fetchOne_keeps costs_loadClosed _ _ _ _) fun m => ?_
    refine costs_bind (a := 0) (b := 1)
      (readManifest_keeps (Costs.refl 0) (fun _ _ _ => Costs.trans) hash) fun decoded => ?_
    refine costs_bind (a := 1) (b := 0) (takeUp_costs hash depth) fun _ => ?_
    refine costs_bind (a := 0) (b := 0) (costs_loadClosed.debitDecoded _) fun _ => debitLinks_costs ?_
    exact (costs_bind (refuse_costs _ _) fun _ => materializeLinks_costs (ih (depth + 1)) _ m).mono
      fun s t h => h.mono (by omega)

theorem materialize_costs (root : Hash) : Keeps (Costs 1) (materialize w limits root) :=
  .bind_still (visitManifest_costs _ _ _ _ _) fun _ _ => rfl

end Links

section Bounds

variable {w limits} {s t : Session} {allowed : ℕ → Prop}

/-- A session within its budget, whose manifests are among its nodes and at allowed depths. -/
structure Bounded (limits : TraversalLimits) (allowed : ℕ → Prop) (s : Session) : Prop where
  links : s.links ≤ limits.maxLinks
  nodup : s.nodes.Nodup
  nodes : s.nodes.length ≤ limits.maxUniqueNodes
  manifests : ∀ hash ∈ s.manifests, hash ∈ s.nodes
  visits : ∀ visit ∈ s.visits, visit.1 ∈ s.nodes ∧ allowed visit.2

def StaysBounded (limits : TraversalLimits) (allowed : ℕ → Prop) (s t : Session) : Prop :=
  Bounded limits allowed s → Bounded limits allowed t

theorem StaysBounded.trans (s t u : Session) (h : StaysBounded limits allowed s t)
    (h' : StaysBounded limits allowed t u) : StaysBounded limits allowed s u :=
  fun hs => h' (h hs)

theorem initial_bounded : Bounded limits allowed .initial :=
  ⟨Nat.zero_le _, List.nodup_nil, Nat.zero_le _, nofun, nofun⟩

theorem bounded_loadClosed : LoadClosed limits (StaysBounded limits allowed) where
  refl := fun _ h => h
  trans := StaysBounded.trans
  read := fun _ h => ⟨h.links, h.nodup, h.nodes, h.manifests, h.visits⟩
  attempt := fun _ _ h => ⟨h.links, h.nodup, h.nodes, h.manifests, h.visits⟩
  transfer := fun _ _ _ h => ⟨h.links, h.nodup, h.nodes, h.manifests, h.visits⟩
  admits := fun _ _ h => ⟨h.links, h.nodup, h.nodes, h.manifests, h.visits⟩
  decode := fun _ _ _ h => ⟨h.links, h.nodup, h.nodes, h.manifests, h.visits⟩
  node := by
    intro s hash hnew hroom h
    refine ⟨h.links, List.nodup_cons.mpr ⟨hnew, h.nodup⟩, hroom, ?_, ?_⟩
    · exact fun other hother => List.mem_cons_of_mem _ (h.manifests other hother)
    · exact fun visit hvisit => ⟨List.mem_cons_of_mem _ (h.visits visit hvisit).1,
        (h.visits visit hvisit).2⟩
  manifest := by
    intro s hash hnode h
    refine ⟨h.links, h.nodup, h.nodes, fun other hother => ?_, h.visits⟩
    rcases List.mem_cons.mp hother with rfl | hother
    · exact hnode
    · exact h.manifests other hother

theorem debitLinks_bounded (count : ℕ) :
    Keeps (StaysBounded limits allowed) (debitLinks w limits count) :=
  debit_keeps bounded_loadClosed.read fun _ hallowed h =>
    ⟨by simpa using hallowed, h.nodup, h.nodes, h.manifests, h.visits⟩

theorem takeUp_bounded {hash : Hash} {depth : ℕ} (hnode : Bounded limits allowed s → hash ∈ s.nodes)
    (hdepth : allowed depth) : StaysBounded limits allowed s (final (takeUp hash depth) s) := by
  intro h
  refine ⟨h.links, h.nodup, h.nodes, h.manifests, fun visit hvisit => ?_⟩
  rcases List.mem_cons.mp hvisit with rfl | hvisit
  · exact ⟨hnode h, hdepth⟩
  · exact h.visits visit hvisit

theorem checkDepth_keeps {R : Session → Session → Prop} (h : FetchClosed limits R) (depth : ℕ) :
    Keeps R (checkDepth w limits depth) :=
  debit_keeps h.read fun s _ => h.read s

theorem checkDepth_ok {depth : ℕ} {a : Unit} (h : checkDepth w limits depth s = .ok a t) :
    depth ≤ limits.maxDepth := by
  simpa using (debit_ok h).1

theorem FetchClosed.planLinks {R : Session → Session → Prop} (h : FetchClosed limits R)
    {visit : Hash → Program FilePlan} (hvisit : ∀ hash, Keeps R (visit hash))
    (links : List ManifestLink) (plan : FilePlan) : Keeps R (planLinks w limits visit links plan) := by
  induction links generalizing plan with
  | nil => exact .pure h.refl _
  | cons link links ih =>
    have hlink : Keeps R (planLink visit link) := by
      rw [planLink]
      split
      · exact .pure h.refl _
      · exact .bind h.trans (hvisit _) fun child => .bind h.trans (refuse_keeps h.refl _ _) fun _ =>
          .pure h.refl _
      · exact .throw h.refl _
    have houtput (count : ℕ) : Keeps R (ensureOutputAvailable w limits count) :=
      debit_keeps h.read fun s _ => h.read s
    exact .bind h.trans hlink fun child => .bind h.trans (refuse_keeps h.refl _ _) fun _ =>
      .bind h.trans (houtput _) fun _ => ih _

theorem manifest_bounded {α : Type} {hash : Hash} {depth : ℕ} {rest : Manifest → Program α}
    (hrest : ∀ manifest, Keeps (StaysBounded limits (· ≤ limits.maxDepth)) (rest manifest)) :
    Keeps (StaysBounded limits (· ≤ limits.maxDepth)) (do
      checkDepth w limits depth
      let manifest ← manifestOf w limits hash
      takeUp hash depth
      rest manifest) := by
  intro s
  refine Keeps.bind_at StaysBounded.trans (checkDepth_keeps bounded_loadClosed.toFetchClosed depth s) fun _ u hdepth => ?_
  refine Keeps.bind_at StaysBounded.trans (bounded_loadClosed.manifestOf hash u) fun manifest v hmanifest => ?_
  refine Keeps.bind_at StaysBounded.trans ?_ fun _ v' _ => hrest manifest v'
  exact takeUp_bounded (fun h => h.manifests hash (manifestOf_mem hmanifest)) (checkDepth_ok hdepth)

theorem planFile_bounded (fuel depth : ℕ) (hash : Hash) :
    Keeps (StaysBounded limits (· ≤ limits.maxDepth)) (planFile w limits fuel depth hash) := by
  induction fuel generalizing depth hash with
  | zero => exact .throw (fun _ h => h) _
  | succ fuel ih =>
    refine .bind StaysBounded.trans (throwIfAborted_keeps fun _ h => h) fun _ => manifest_bounded fun manifest => ?_
    refine .bind StaysBounded.trans (refuse_keeps (fun _ h => h) _ _) fun _ =>
      .bind StaysBounded.trans (debitLinks_bounded _) fun _ => ?_
    exact bounded_loadClosed.planLinks (ih (depth + 1)) _ _

theorem descend_bounded (path : String) (fuel depth : ℕ) (hash : Hash) (expected : LinkType)
    (segments : List String) : Keeps (StaysBounded limits (· ≤ limits.maxDepth))
      (descend w limits path fuel depth hash expected segments) := by
  induction fuel generalizing depth hash expected segments with
  | zero => exact .throw (fun _ h => h) _
  | succ fuel ih =>
    refine manifest_bounded fun manifest => .bind StaysBounded.trans (refuse_keeps (fun _ h => h) _ _) fun _ =>
      .bind StaysBounded.trans (debitLinks_bounded _) fun _ => ?_
    rcases nextLink manifest segments with _ | ⟨link, _ | ⟨segment, rest⟩⟩
    · exact .throw (fun _ h => h) _
    · exact .pure (fun _ h => h) _
    · exact ih _ _ _ _

theorem filePlan_bounded (hash : Hash) (expectedSize : ℕ) :
    Keeps (StaysBounded limits (· ≤ limits.maxDepth)) (filePlan w limits hash expectedSize) := by
  exact .bind StaysBounded.trans (planFile_bounded _ _ _) fun plan =>
    .bind StaysBounded.trans (refuse_keeps (fun _ h => h) _ _) fun _ => .pure (fun _ h => h) _

theorem resolve_bounded (root : Hash) (path : String) (method : Method) :
    Keeps (StaysBounded limits (· ≤ limits.maxDepth)) (resolve w limits root path method) := by
  refine .bind StaysBounded.trans (refuse_keeps (fun _ h => h) _ _) fun _ =>
    .bind StaysBounded.trans (descend_bounded _ _ _ _ _ _) fun link => namingPath_keeps ?_
  exact serveLink_keeps (fun _ h => h) method link (bounded_loadClosed.rawStream _ _)
    (filePlan_bounded _ _)

end Bounds

section Endings

variable {w limits}

theorem throwIfAborted_avoids : Avoids .spinning (throwIfAborted w) := by
  intro s t h
  rw [throwIfAborted] at h
  split_ifs at h
  exact nomatch h

theorem takeUp_avoids (hash : Hash) (depth : ℕ) : Avoids .spinning (takeUp hash depth) :=
  fun _ _ h => nomatch h

theorem planLinks_avoids {visit : Hash → Program FilePlan} (hvisit : ∀ hash, Avoids .spinning (visit hash))
    (links : List ManifestLink) (plan : FilePlan) :
    Avoids .spinning (planLinks w limits visit links plan) := by
  induction links generalizing plan with
  | nil => exact .pure _
  | cons link links ih =>
    have hlink : Avoids .spinning (planLink visit link) := by
      rw [planLink]
      split
      · exact .pure _
      · exact .bind (hvisit _) fun child => .bind (refuse_avoids _ (by simp)) fun _ => .pure _
      · exact .throw (by simp)
    exact .bind hlink fun child => .bind (refuse_avoids _ (by simp)) fun _ =>
      .bind (debit_avoids _ _ _) fun _ => ih _

theorem planFile_ends {fuel depth : ℕ} (hash : Hash) (hfuel : limits.maxDepth + 2 ≤ fuel + depth)
    (hdepth : depth ≤ limits.maxDepth + 1) :
    Avoids .spinning (planFile w limits fuel depth hash) := by
  induction fuel generalizing depth hash with
  | zero => omega
  | succ fuel ih =>
    refine .bind throwIfAborted_avoids fun _ => .bind_ok (debit_avoids _ _ _) fun s a u hchecked => ?_
    have hnext : depth ≤ limits.maxDepth := checkDepth_ok hchecked
    refine .bind (manifestOf_avoids hash) fun manifest => .bind (takeUp_avoids _ _) fun _ =>
      .bind (refuse_avoids _ nofun) fun _ => .bind (debit_avoids _ _ _) fun _ => ?_
    exact planLinks_avoids (fun hash => ih hash (by omega) (by omega)) _ _

theorem filePlan_ends (hash : Hash) (expectedSize : ℕ) :
    Avoids .spinning (filePlan w limits hash expectedSize) :=
  .bind (planFile_ends hash (by omega) (by omega)) fun plan => .bind (refuse_avoids _ nofun) fun _ =>
    .pure _

theorem descend_ends {path : String} {fuel depth : ℕ} {hash : Hash} {expected : LinkType}
    {segments : List String} (hfuel : limits.maxDepth + 2 ≤ fuel + depth)
    (hdepth : depth ≤ limits.maxDepth + 1) :
    Avoids .spinning (descend w limits path fuel depth hash expected segments) := by
  induction fuel generalizing depth hash expected segments with
  | zero => omega
  | succ fuel ih =>
    refine .bind_ok (debit_avoids _ _ _) fun s a u hchecked => ?_
    have hnext : depth ≤ limits.maxDepth := checkDepth_ok hchecked
    refine .bind (manifestOf_avoids hash) fun manifest => .bind (takeUp_avoids _ _) fun _ =>
      .bind (refuse_avoids _ nofun) fun _ => .bind (debit_avoids _ _ _) fun _ => ?_
    rcases nextLink manifest segments with _ | ⟨link, _ | ⟨segment, rest⟩⟩
    · exact .throw nofun
    · exact .pure _
    · exact ih (by omega) (by omega)

theorem namingPath_avoids {α : Type} {path : String} {p : Program α} (hp : Avoids .spinning p) :
    Avoids .spinning (namingPath path p) := by
  intro s t h
  rw [namingPath] at h
  rcases hps : p s with ⟨a, u⟩ | ⟨e, u⟩
  · simp [hps] at h
  · rw [hps] at h
    cases e with
    | unavailable origins =>
      dsimp only at h
      split_ifs at h
      · cases h
      · cases h
    | spinning => exact hp s u hps
    | _ => cases h

theorem serveLink_avoids (method : Method) (link : ManifestLink) :
    Avoids .spinning (serveLink w limits method link) := by
  unfold serveLink
  cases link.type with
  | blob =>
    cases method with
    | head => exact .pure _
    | get => exact .bind (.bind (fetch_avoids _ _ _) fun _ => .pure _) fun _ => .pure _
  | file =>
    refine .bind (filePlan_ends _ _) fun plan => ?_
    cases method with
    | head => exact .pure _
    | get => exact .pure _
  | directory => exact .throw nofun
  | fanout => exact .throw nofun

theorem resolve_ends (root : Hash) (path : String) (method : Method) :
    Avoids .spinning (resolve w limits root path method) :=
  .bind (refuse_avoids _ nofun) fun _ => .bind (descend_ends (by omega) (by omega)) fun link =>
    namingPath_avoids (serveLink_avoids method link)

theorem fetchOne_avoids (hash : Hash) (declaredSize : Option ℕ) (manifest : Bool) (m : Materialized) :
    Avoids .spinning (fetchOne w limits hash declaredSize manifest m) := by
  refine .ite (.pure _) (.bind .get fun s => .bind (debit_avoids _ _ _) fun _ => .ite ?_ ?_)
  · exact .bind (refuse_avoids _ nofun) fun _ => .pure _
  · exact .bind (fetch_avoids _ _ _) fun _ => .pure _

theorem readManifest_avoids (hash : Hash) : Avoids .spinning (readManifest w hash) :=
  .bind .get fun _ => .bind (refuse_avoids _ nofun) fun _ => decodeManifest_avoids hash

end Endings

section Materialization

variable {w limits} {s t : Session} {allowed : ℕ → Prop} {root : Hash} {m : Materialized}

/-- A chain of different manifests, each linked by the one before it, from the root; the last one is
first. -/
inductive Chain (w : World) (root : Hash) : List Hash → Prop
  | root : Chain w root [root]
  | link (hash : Hash) (above : List Hash) (decoded : ValidatedManifest) (link : ManifestLink)
      (hchain : Chain w root (hash :: above)) (hmanifest : w.manifest hash = some decoded)
      (hlink : link ∈ decoded.manifest.links) (htype : link.type ≠ .blob)
      (hnew : link.hash ∉ hash :: above) : Chain w root (link.hash :: hash :: above)

/-- The manifests that have been traversed are different nodes of the budget. -/
structure Tidy (limits : TraversalLimits) (allowed : ℕ → Prop) (m : Materialized) (s : Session) :
    Prop where
  bounded : Bounded limits allowed s
  distinct : m.traversed.Nodup
  traversed : ∀ hash ∈ m.traversed, hash ∈ s.nodes
  held : ∀ blob ∈ m.inventory, blob.1 ∈ s.nodes

theorem Tidy.length_le (h : Tidy limits allowed m s) : m.traversed.length ≤ limits.maxUniqueNodes :=
  le_trans (h.distinct.length_le_of_subset h.traversed) h.bounded.nodes

def Extends (s t : Session) : Prop :=
  ∀ hash ∈ s.nodes, hash ∈ t.nodes

theorem extends_loadClosed : LoadClosed limits Extends where
  refl := fun _ _ h => h
  trans := fun _ _ _ h h' hash hhash => h' hash (h hash hhash)
  read := fun _ _ h => h
  attempt := fun _ _ _ h => h
  transfer := fun _ _ _ _ h => h
  admits := fun _ _ _ h => h
  node := fun _ _ _ _ _ h => List.mem_cons_of_mem _ h
  decode := fun _ _ _ _ h => h
  manifest := fun _ _ _ _ h => h

theorem fetchOne_ok {hash : Hash} {declaredSize : Option ℕ} {manifest : Bool} {m' : Materialized}
    (hheld : ∀ blob ∈ m.inventory, blob.1 ∈ s.nodes)
    (h : fetchOne w limits hash declaredSize manifest m s = .ok m' t) :
    m'.traversed = m.traversed ∧ hash ∈ t.nodes ∧ ∀ blob ∈ m'.inventory, blob.1 ∈ t.nodes := by
  by_cases hholds : m.holds hash = true
  · rw [fetchOne, if_pos hholds] at h
    obtain ⟨rfl, rfl⟩ := EStateM.Result.ok.inj h
    obtain ⟨blob, hblob, heq⟩ := List.any_eq_true.mp hholds
    refine ⟨rfl, ?_, hheld⟩
    rw [← of_decide_eq_true heq]
    exact hheld blob hblob
  · rw [fetchOne, if_neg hholds, get_bind] at h
    obtain ⟨_, u, hvisit, h⟩ := bind_ok.mp h
    have hgrown : Extends s u := by
      have hkept : Extends s (final (visitNode w limits hash) s) :=
        extends_loadClosed.visitNode hash s
      rwa [final_ok hvisit] at hkept
    by_cases hknown : hash ∈ s.nodes
    · rw [if_pos hknown] at h
      obtain ⟨_, u', hrefuse, h⟩ := bind_ok.mp h
      obtain ⟨rfl, rfl⟩ := EStateM.Result.ok.inj h
      obtain ⟨-, rfl⟩ := refuse_ok hrefuse
      exact ⟨rfl, visitNode_ok hvisit, fun blob hblob => hgrown _ (hheld blob hblob)⟩
    · rw [if_neg hknown] at h
      obtain ⟨_, u', hfetch, h⟩ := bind_ok.mp h
      obtain ⟨rfl, rfl⟩ := EStateM.Result.ok.inj h
      have hnodes : u'.nodes = u.nodes := fetch_nodes hfetch
      rw [hnodes]
      refine ⟨rfl, visitNode_ok hvisit, fun blob hblob => ?_⟩
      rcases List.mem_append.mp hblob with hblob | hblob
      · exact hgrown _ (hheld blob hblob)
      · rw [List.mem_singleton.mp hblob]
        exact visitNode_ok hvisit

theorem fetchOne_meets {hash : Hash} {declaredSize : Option ℕ} {manifest : Bool}
    (hbounded : Bounded limits allowed s) (hheld : ∀ blob ∈ m.inventory, blob.1 ∈ s.nodes) :
    Meets (fetchOne w limits hash declaredSize manifest m) s
      (fun m' t => Bounded limits allowed t ∧ Extends s t ∧ m'.traversed = m.traversed ∧
        hash ∈ t.nodes ∧ ∀ blob ∈ m'.inventory, blob.1 ∈ t.nodes)
      fun e t => e ≠ .spinning ∧ Bounded limits allowed t := by
  have hkept : StaysBounded limits allowed s (final (fetchOne w limits hash declaredSize manifest m) s) :=
    fetchOne_keeps bounded_loadClosed hash declaredSize manifest m s
  have hgrown : Extends s (final (fetchOne w limits hash declaredSize manifest m) s) :=
    fetchOne_keeps extends_loadClosed hash declaredSize manifest m s
  refine meets_iff.mpr ⟨fun m' t h => ?_, fun e t h => ?_⟩
  · rw [final_ok h] at hkept hgrown
    exact ⟨hkept hbounded, hgrown, fetchOne_ok hheld h⟩
  · rw [final_error h] at hkept
    exact ⟨fun heq => fetchOne_avoids _ _ _ _ s t (heq ▸ h), hkept hbounded⟩

def Fails (limits : TraversalLimits) (allowed : ℕ → Prop) (e : ReadError) (t : Session) : Prop :=
  e ≠ .spinning ∧ Bounded limits allowed t

def Reaches (limits : TraversalLimits) (allowed : ℕ → Prop) (m m' : Materialized) (t : Session) : Prop :=
  Tidy limits allowed m' t ∧ m.traversed <:+ m'.traversed

theorem Tidy.step (h : Tidy limits allowed m s) (hbounded : StaysBounded limits allowed s t)
    (hextends : Extends s t) : Tidy limits allowed m t where
  bounded := hbounded h.bounded
  distinct := h.distinct
  traversed := fun hash hhash => hextends hash (h.traversed hash hhash)
  held := fun blob hblob => hextends blob.1 (h.held blob hblob)

theorem Tidy.meets {α : Type} {p : Program α} (h : Tidy limits allowed m s)
    (hbounded : StaysBounded limits allowed s (final p s)) (hextends : Extends s (final p s))
    (hends : Avoids .spinning p) :
    Meets p s (fun _ t => Tidy limits allowed m t) (Fails limits allowed) := by
  refine meets_iff.mpr ⟨fun a t hok => ?_, fun e t herror => ?_⟩
  · rw [final_ok hok] at hbounded hextends
    exact h.step hbounded hextends
  · rw [final_error herror] at hbounded
    exact ⟨fun heq => hends s t (heq ▸ herror), hbounded h.bounded⟩

theorem Tidy.refuse (h : Tidy limits allowed m s) (c : Bool) {error : ReadError}
    (hends : error ≠ .spinning) :
    Meets (refuse c error) s (fun _ t => Tidy limits allowed m t) (Fails limits allowed) :=
  h.meets (refuse_keeps (fun _ h => h) c error s) (refuse_keeps (fun _ _ h => h) c error s)
    (refuse_avoids c hends)

theorem fetchOne_tidy {hash : Hash} {declaredSize : Option ℕ} {manifest : Bool}
    (h : Tidy limits allowed m s) :
    Meets (fetchOne w limits hash declaredSize manifest m) s (Reaches limits allowed m)
      (Fails limits allowed) := by
  refine (fetchOne_meets h.bounded h.held).mono ?_ fun e t he => he
  rintro m' t ⟨hbounded, hextends, hsame, -, hheld⟩
  rw [Reaches, hsame]
  refine ⟨⟨hbounded, hsame ▸ h.distinct, fun hash hhash => ?_, hheld⟩, List.suffix_refl _⟩
  exact hextends hash (h.traversed hash (hsame ▸ hhash))

theorem materializeLinks_meets {visit : Hash → ManifestType → Materialized → Program Materialized}
    {base : List Hash} {links : List ManifestLink}
    (hvisit : ∀ link ∈ links, link.type ≠ .blob → ∀ m s, Tidy limits allowed m s →
      base <:+ m.traversed → Meets (visit link.hash (manifestType link.type) m) s
        (Reaches limits allowed m) (Fails limits allowed))
    (h : Tidy limits allowed m s) (hbase : base <:+ m.traversed) :
    Meets (materializeLinks w limits visit links m) s (Reaches limits allowed m)
      (Fails limits allowed) := by
  induction links generalizing m s with
  | nil => exact ⟨h, List.suffix_refl _⟩
  | cons link links ih =>
    have hlink : Meets (materializeLink w limits visit link m) s (Reaches limits allowed m)
        (Fails limits allowed) := by
      rw [materializeLink]
      split_ifs with htype
      · exact fetchOne_tidy h
      · exact hvisit link (List.mem_cons_self ..) htype m s h hbase
    refine hlink.andThen fun m' t hnext => ?_
    have hrest := ih (fun other hother => hvisit other (List.mem_cons_of_mem _ hother)) hnext.1
      (hbase.trans hnext.2)
    exact hrest.mono (fun m'' u hlast => ⟨hlast.1, hnext.2.trans hlast.2⟩) fun e t he => he

theorem readManifest_ok {hash : Hash} {decoded : ValidatedManifest}
    (h : readManifest w hash s = .ok decoded t) : w.manifest hash = some decoded ∧ t = s := by
  rw [readManifest, get_bind] at h
  obtain ⟨_, u, hrefuse, h⟩ := bind_ok.mp h
  obtain ⟨hmanifest, rfl⟩ := decodeManifest_ok h
  exact ⟨hmanifest, (refuse_ok hrefuse).2⟩

/-- A manifest is visited at the end of a chain above which everything has been traversed, and a
further level is paid for by one more manifest that has been traversed. -/
theorem visitManifest_meets (hallowed : ∀ chain, Chain w root chain → allowed chain.length)
    {fuel depth : ℕ} {hash : Hash} {expected : ManifestType} {above : List Hash}
    (h : Tidy limits allowed m s) (hchain : hash ∉ m.traversed → Chain w root (hash :: above))
    (habove : above ⊆ m.traversed) (hdepth : depth = above.length + 1)
    (hfuel : limits.maxUniqueNodes < fuel + m.traversed.length) :
    Meets (visitManifest w limits fuel depth hash expected m) s (Reaches limits allowed m)
      (Fails limits allowed) := by
  induction fuel generalizing depth hash expected above m s with
  | zero =>
    have hle := h.length_le
    omega
  | succ fuel ih =>
    rw [visitManifest]
    refine (h.meets (throwIfAborted_keeps (fun _ h => h) s)
      (throwIfAborted_keeps (fun _ _ h => h) s) throwIfAborted_avoids).andThen fun _ u hu => ?_
    by_cases hmem : hash ∈ m.traversed
    · rw [if_pos hmem]
      exact ⟨hu, List.suffix_refl _⟩
    rw [if_neg hmem]
    have hpath := hchain hmem
    refine (fetchOne_meets (m := { m with traversed := hash :: m.traversed }) hu.bounded
      hu.held).andThen ?_
    rintro m₁ u₁ ⟨hbounded, hextends, htraversed, hnode, hheld⟩
    have h₁ : Tidy limits allowed m₁ u₁ := by
      refine ⟨hbounded, htraversed ▸ List.nodup_cons.mpr ⟨hmem, hu.distinct⟩, ?_, hheld⟩
      rw [htraversed]
      exact List.forall_mem_cons.mpr ⟨hnode, fun other hother =>
        hextends other (hu.traversed other hother)⟩
    refine (h₁.meets (readManifest_keeps (fun _ h => h) StaysBounded.trans hash u₁)
      (readManifest_keeps (fun _ _ h => h) (fun _ _ _ h h' other ho => h' other (h other ho)) hash u₁)
      (readManifest_avoids hash)).running.andThen ?_
    rintro decoded u₂ ⟨hread, h₂⟩
    obtain ⟨hmanifest, rfl⟩ := readManifest_ok hread
    refine (h₂.meets (takeUp_bounded (fun _ => hnode) (hdepth ▸ hallowed _ hpath))
      (fun _ h => h) (takeUp_avoids hash depth)).andThen fun _ u₃ h₃ => ?_
    refine (h₃.meets (bounded_loadClosed.debitDecoded _ u₃)
      (extends_loadClosed.debitDecoded _ u₃) (debit_avoids _ _ _)).andThen fun _ u₄ h₄ => ?_
    have hlinks : Keeps Extends (debitLinks w limits decoded.manifest.links.length) :=
      debit_keeps (fun _ _ h => h) fun _ _ _ h => h
    refine (h₄.meets (debitLinks_bounded _ u₄) (hlinks u₄) (debit_avoids _ _ _)).andThen
      fun _ u₅ h₅ => ?_
    refine (h₅.refuse _ (by nofun)).andThen fun _ u₆ h₆ => ?_
    have hbelow : ∀ link ∈ decoded.manifest.links, link.type ≠ .blob → ∀ m' s',
        Tidy limits allowed m' s' → m₁.traversed <:+ m'.traversed →
          Meets (visitManifest w limits fuel (depth + 1) link.hash (manifestType link.type) m') s'
            (Reaches limits allowed m') (Fails limits allowed) := by
      intro link hlink htype m' s' h' hsuffix
      have habove' : hash :: above ⊆ m'.traversed := by
        intro other hother
        apply hsuffix.subset
        rw [htraversed]
        exact (List.mem_cons.mp hother).elim (fun heq => heq ▸ List.mem_cons_self ..)
          fun hother => List.mem_cons_of_mem _ (habove hother)
      have hlength := hsuffix.length_le
      rw [htraversed, List.length_cons] at hlength
      refine ih h' (fun hnew => ?_) habove' (by rw [hdepth, List.length_cons]) (by omega)
      exact .link hash above decoded link hpath hmanifest hlink htype fun hin => hnew (habove' hin)
    refine (materializeLinks_meets hbelow h₆ (List.suffix_refl _)).mono (fun m' t hm' => ?_)
      fun e t he => he
    refine ⟨hm'.1, List.IsSuffix.trans ?_ hm'.2⟩
    rw [htraversed]
    exact List.suffix_cons _ _

end Materialization

section Traversals

variable {w limits} {allowed : ℕ → Prop}

/-- A traversal with a budget of its own: it ends within the budget, however it ends. -/
structure Traversed {α : Type} (limits : TraversalLimits) (p : Program α) : Prop where
  ends : ∀ t, p .initial ≠ .error .spinning t
  visits : (final p .initial).visits.length ≤ 1 + (final p .initial).links
  links : (final p .initial).links ≤ limits.maxLinks
  nodes : (final p .initial).nodes.length ≤ limits.maxUniqueNodes
  visited : ∀ visit ∈ (final p .initial).visits, visit.1 ∈ (final p .initial).nodes

def WithinDepth {α : Type} (limits : TraversalLimits) (p : Program α) : Prop :=
  ∀ visit ∈ (final p .initial).visits, visit.2 ≤ limits.maxDepth

theorem traversed_of {α : Type} {p : Program α} (hends : ∀ t, p .initial ≠ .error .spinning t)
    (hcosts : Keeps (Costs 1) p) (hbounded : Bounded limits allowed (final p .initial)) :
    Traversed limits p where
  ends := hends
  visits := by
    have hpaid := hcosts .initial
    simp only [Costs, Session.initial, List.length_nil] at hpaid ⊢
    omega
  links := hbounded.links
  nodes := hbounded.nodes
  visited := fun visit hvisit => (hbounded.visits visit hvisit).1

theorem materialize_meets {root : Hash}
    (hallowed : ∀ chain, Chain w root chain → allowed chain.length) :
    Meets (materialize w limits root) .initial (fun _ t => Bounded limits allowed t)
      (Fails limits allowed) := by
  have hinitial : Tidy limits allowed ⟨[], []⟩ .initial :=
    ⟨initial_bounded, List.nodup_nil, nofun, nofun⟩
  have hvisit : Meets (visitManifest w limits (limits.maxUniqueNodes + 1) 1 root .directory ⟨[], []⟩)
      .initial (Reaches limits allowed ⟨[], []⟩) (Fails limits allowed) :=
    visitManifest_meets hallowed hinitial (fun _ => .root) (List.nil_subset _) rfl (by simp)
  exact hvisit.andThen fun m u hm => hm.1.bounded

theorem materialize_bounded {root : Hash}
    (hallowed : ∀ chain, Chain w root chain → allowed chain.length) :
    Bounded limits allowed (final (materialize w limits root) .initial) := by
  have hmeets : Meets (materialize w limits root) .initial (fun _ t => Bounded limits allowed t)
      (Fails limits allowed) := materialize_meets hallowed
  rw [final]
  cases h : materialize w limits root .initial with
  | ok build t => exact hmeets.ok h
  | error e t => exact (hmeets.error h).2

/-- Every traversal ends within its budget, and no deeper than allowed, except that a materialization
goes as deep as the chains of manifests. -/
theorem traversals_bounded (w : World) (limits : TraversalLimits) (root hash : Hash) (path : String)
    (method : Method) (size : ℕ) :
    (Traversed limits (resolve w limits root path method) ∧
      WithinDepth limits (resolve w limits root path method)) ∧
    (Traversed limits (filePlan w limits hash size) ∧ WithinDepth limits (filePlan w limits hash size)) ∧
    Traversed limits (materialize w limits root) ∧
    ((∀ chain, Chain w root chain → chain.length ≤ limits.maxDepth) →
      WithinDepth limits (materialize w limits root)) := by
  have hresolve : Bounded limits (· ≤ limits.maxDepth)
      (final (resolve w limits root path method) .initial) :=
    resolve_bounded root path method .initial initial_bounded
  have hplan : Bounded limits (· ≤ limits.maxDepth) (final (filePlan w limits hash size) .initial) :=
    filePlan_bounded hash size .initial initial_bounded
  have hmaterialize : Bounded limits (fun _ => True) (final (materialize w limits root) .initial) :=
    materialize_bounded fun _ _ => trivial
  have hends : ∀ t, materialize w limits root .initial ≠ .error .spinning t := by
    intro t h
    have hmeets : Meets (materialize w limits root) .initial
        (fun _ t => Bounded limits (fun _ => True) t) (Fails limits fun _ => True) :=
      materialize_meets fun _ _ => trivial
    exact (hmeets.error h).1 rfl
  have hdeep (hchains : ∀ chain, Chain w root chain → chain.length ≤ limits.maxDepth) :
      WithinDepth limits (materialize w limits root) := by
    have hbounded : Bounded limits (· ≤ limits.maxDepth) (final (materialize w limits root) .initial) :=
      materialize_bounded hchains
    exact fun visit hvisit => (hbounded.visits visit hvisit).2
  refine ⟨⟨?_, fun visit hvisit => (hresolve.visits visit hvisit).2⟩,
    ⟨?_, fun visit hvisit => (hplan.visits visit hvisit).2⟩, ?_, hdeep⟩
  · exact traversed_of (resolve_ends root path method .initial) (resolve_costs root path method) hresolve
  · exact traversed_of (filePlan_ends hash size .initial) (filePlan_costs hash size) hplan
  · exact traversed_of hends (materialize_costs root) hmaterialize

theorem sample_chains {chain : List Hash} (h : Chain (sampleWorld []) [0] chain) :
    chain = [[0]] ∨ chain = [[1], [0]] := by
  induction h with
  | root => exact Or.inl rfl
  | link hash above decoded link hchain hmanifest hlink htype hnew ih =>
    rcases ih with ih | ih
    · obtain ⟨rfl, rfl⟩ := List.cons.inj ih
      obtain rfl : _ = decoded := Option.some.inj hmanifest
      obtain rfl := List.mem_singleton.mp hlink
      exact Or.inr rfl
    · obtain ⟨rfl, rfl⟩ := List.cons.inj ih
      obtain rfl : _ = decoded := Option.some.inj hmanifest
      rcases List.mem_pair.mp hlink with rfl | rfl
      · exact absurd rfl htype
      · exact absurd rfl htype

theorem traversals_bounded_sample :
    WithinDepth sampleLimits (materialize (sampleWorld []) sampleLimits [0]) := by
  refine (traversals_bounded (sampleWorld []) sampleLimits [0] [0] "" .head 0).2.2.2 fun chain h => ?_
  rcases sample_chains h with rfl | rfl
  · decide
  · decide

def nestedDecode (bytes : Bytes) : Option ValidatedManifest :=
  if bytes = [0] then some ⟨⟨.directory, [sampleLink (some "a") [1] 0 .directory]⟩, 1⟩
  else if bytes = [1] then some ⟨⟨.directory, []⟩, 1⟩
  else none

/-- The inner directory is taken up below the greatest depth. -/
theorem materialized_too_deep : ¬ WithinDepth { sampleLimits with maxDepth := 1 }
    (materialize { sampleWorld [] with decode := nestedDecode } { sampleLimits with maxDepth := 1 }
      [0]) := by
  intro h
  have hvisits : (final (materialize { sampleWorld [] with decode := nestedDecode }
      { sampleLimits with maxDepth := 1 } [0]) .initial).visits = [([1], 2), ([0], 1)] := by
    decide +kernel
  have hdepth := h ([1], 2) (by rw [hvisits]; exact List.mem_cons_self ..)
  exact absurd hdepth (by decide)

end Traversals

end NixstrCache.Hashtree.Reader
