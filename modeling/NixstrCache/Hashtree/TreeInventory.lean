import NixstrCache.Hashtree.CarriedTree
import NixstrCache.Hashtree.Traversal

/-!
The inventory of a tree that has been fetched.

A traversal from the root fetches every manifest once.  While it is in a manifest, the links of the manifests
that have been left lead to what has been fetched; when it comes to its end, the links of all of them do.
-/

namespace NixstrCache.Hashtree.Reader

open Protocol Programs

variable {w : World} {limits : TraversalLimits} {s t u : Session} {m m' m'' : Materialized}
variable {hash : Hash} {opened : List Hash} {links : List ManifestLink} {link : ManifestLink}

/-- The blob that a link names has been fetched, or the manifest has been taken up. -/
def Covered (m : Materialized) (link : ManifestLink) : Prop :=
  if link.type = .blob then m.holds link.hash = true else link.hash ∈ m.traversed

/-- Every node of the budget has been fetched, and the manifests that are not open have their links covered. -/
structure Closed (w : World) (opened : List Hash) (m : Materialized) (s : Session) : Prop where
  nodes : ∀ hash ∈ s.nodes, m.holds hash = true
  links : ∀ hash ∈ m.traversed, hash ∉ opened → m.holds hash = true ∧
    ∃ decoded, w.manifest hash = some decoded ∧ ∀ link ∈ decoded.manifest.links, Covered m link

structure Later (m m' : Materialized) : Prop where
  holds : ∀ hash, m.holds hash = true → m'.holds hash = true
  traversed : m.traversed ⊆ m'.traversed

theorem Later.refl (m : Materialized) : Later m m :=
  ⟨fun _ h => h, List.Subset.refl _⟩

theorem Later.trans (h : Later m m') (h' : Later m' m'') : Later m m'' :=
  ⟨fun hash hholds => h'.holds hash (h.holds hash hholds), List.Subset.trans h.traversed h'.traversed⟩

theorem Covered.later (h : Covered m link) (hlater : Later m m') : Covered m' link := by
  rw [Covered] at h ⊢
  split_ifs at h ⊢ with htype
  · exact hlater.holds _ h
  · exact hlater.traversed h

theorem Closed.session (h : Closed w opened m s) (hnodes : t.nodes = s.nodes) : Closed w opened m t :=
  ⟨fun hash hhash => h.nodes hash (hnodes ▸ hhash), h.links⟩

theorem visitNode_nodes {a : Unit} (h : visitNode w limits hash s = .ok a t) :
    ∀ other ∈ t.nodes, other = hash ∨ other ∈ s.nodes := by
  intro other hother
  rw [(debit_ok h).2] at hother
  split_ifs at hother with hmem
  · exact Or.inr hother
  · exact List.mem_cons.mp hother

theorem fetchOne_closed {declaredSize : Option ℕ} {manifest : Bool}
    (hnodes : ∀ other ∈ s.nodes, m.holds other = true)
    (h : fetchOne w limits hash declaredSize manifest m s = .ok m' t) :
    m'.traversed = m.traversed ∧ (∀ other, m.holds other = true → m'.holds other = true) ∧
      m'.holds hash = true ∧ ∀ other ∈ t.nodes, m'.holds other = true := by
  by_cases hholds : m.holds hash = true
  · rw [fetchOne, if_pos hholds] at h
    obtain ⟨rfl, rfl⟩ := EStateM.Result.ok.inj h
    exact ⟨rfl, fun _ hother => hother, hholds, hnodes⟩
  · rw [fetchOne, if_neg hholds, get_bind] at h
    obtain ⟨_, v, hvisit, h⟩ := bind_ok.mp h
    rw [if_neg fun hknown => hholds (hnodes hash hknown)] at h
    obtain ⟨_, v', hfetch, h⟩ := bind_ok.mp h
    obtain ⟨rfl, rfl⟩ := EStateM.Result.ok.inj h
    have hkept : ∀ other, m.holds other = true →
        Materialized.holds ⟨m.inventory ++ [(hash, (w.content hash).length)], m.traversed⟩ other = true := by
      intro other hother
      rw [Materialized.holds, List.any_append, Bool.or_eq_true]
      exact Or.inl hother
    have hnew : Materialized.holds ⟨m.inventory ++ [(hash, (w.content hash).length)], m.traversed⟩ hash =
        true := by
      simp [Materialized.holds]
    refine ⟨rfl, hkept, hnew, fun other hother => ?_⟩
    rw [fetch_nodes hfetch] at hother
    rcases visitNode_nodes hvisit other hother with rfl | hold
    · exact hnew
    · exact hkept other (hnodes other hold)

theorem fetchOne_later {declaredSize : Option ℕ} {manifest : Bool} (hclosed : Closed w opened m s)
    (h : fetchOne w limits hash declaredSize manifest m s = .ok m' t) :
    Closed w opened m' t ∧ Later m m' ∧ m'.holds hash = true := by
  obtain ⟨hsame, hkept, hholds, hnodes⟩ := fetchOne_closed hclosed.nodes h
  have hlater : Later m m' := ⟨hkept, by rw [hsame]; exact List.Subset.refl _⟩
  refine ⟨⟨hnodes, fun other hother hopen => ?_⟩, hlater, hholds⟩
  obtain ⟨hheld, decoded, hmanifest, hlinks⟩ := hclosed.links other (hsame ▸ hother) hopen
  exact ⟨hkept other hheld, decoded, hmanifest, fun link hlink => (hlinks link hlink).later hlater⟩

theorem materializeLinks_closed {visit : Hash → ManifestType → Materialized → Program Materialized}
    (hvisit : ∀ hash expected m m' s t, Closed w opened m s → visit hash expected m s = .ok m' t →
      Closed w opened m' t ∧ Later m m' ∧ hash ∈ m'.traversed)
    (hclosed : Closed w opened m s) (h : materializeLinks w limits visit links m s = .ok m' t) :
    Closed w opened m' t ∧ Later m m' ∧ ∀ link ∈ links, Covered m' link := by
  induction links generalizing m s with
  | nil =>
    obtain ⟨rfl, rfl⟩ := EStateM.Result.ok.inj h
    exact ⟨hclosed, .refl _, by simp⟩
  | cons link links ih =>
    obtain ⟨mid, v, hlink, hrest⟩ := bind_ok.mp h
    have hfirst : Closed w opened mid v ∧ Later m mid ∧ Covered mid link := by
      rw [materializeLink] at hlink
      rw [Covered]
      split_ifs at hlink ⊢ with htype
      · exact fetchOne_later hclosed hlink
      · exact hvisit _ _ _ _ _ _ hclosed hlink
    obtain ⟨hclosedMid, hlater, hcovered⟩ := hfirst
    obtain ⟨hend, hlast, hall⟩ := ih hclosedMid hrest
    exact ⟨hend, hlater.trans hlast, List.forall_mem_cons.mpr ⟨hcovered.later hlast, hall⟩⟩

theorem visitManifest_closed {fuel depth : ℕ} {expected : ManifestType} (hclosed : Closed w opened m s)
    (h : visitManifest w limits fuel depth hash expected m s = .ok m' t) :
    Closed w opened m' t ∧ Later m m' ∧ hash ∈ m'.traversed := by
  induction fuel generalizing depth hash expected opened m m' s t with
  | zero => cases h
  | succ fuel ih =>
    rw [visitManifest] at h
    obtain ⟨_, u₁, haborted, hrun⟩ := bind_ok.mp h
    have hsame : u₁ = s := by
      rw [throwIfAborted] at haborted
      split_ifs at haborted
      exact (EStateM.Result.ok.inj haborted).2.symm
    rw [hsame] at hrun
    by_cases hmem : hash ∈ m.traversed
    · rw [if_pos hmem] at hrun
      obtain ⟨rfl, rfl⟩ := EStateM.Result.ok.inj hrun
      exact ⟨hclosed, .refl _, hmem⟩
    rw [if_neg hmem] at hrun
    obtain ⟨m₁, u₂, hfetch, hread⟩ := bind_ok.mp hrun
    obtain ⟨decoded, u₃, hread, htake⟩ := bind_ok.mp hread
    obtain ⟨_, u₄, htake, hdebits⟩ := bind_ok.mp htake
    obtain ⟨_, u₅, hdecoded, hdebits⟩ := bind_ok.mp hdebits
    obtain ⟨_, u₆, hdebit, hrefuse⟩ := bind_ok.mp hdebits
    obtain ⟨_, u₇, hrefuse, hfollow⟩ := bind_ok.mp hrefuse
    have hopened : Later m { m with traversed := hash :: m.traversed } :=
      ⟨fun _ h => h, List.subset_cons_self _ _⟩
    have hstart : Closed w (hash :: opened) { m with traversed := hash :: m.traversed } s := by
      refine ⟨hclosed.nodes, fun other hother hopen => ?_⟩
      rw [List.mem_cons, not_or] at hopen
      obtain ⟨hheld, decoded, hmanifest, hlinks⟩ :=
        hclosed.links other ((List.mem_cons.mp hother).resolve_left hopen.1) hopen.2
      exact ⟨hheld, decoded, hmanifest, fun link hlink => (hlinks link hlink).later hopened⟩
    obtain ⟨hfetched, hlater, hholds⟩ := fetchOne_later hstart hfetch
    obtain ⟨hmanifest, rfl⟩ := readManifest_ok hread
    have hnodes : u₇.nodes = u₃.nodes := by
      obtain ⟨-, rfl⟩ := refuse_ok hrefuse
      rw [(debit_ok hdebit).2, (debit_ok hdecoded).2, ← (EStateM.Result.ok.inj htake).2]
    obtain ⟨hend, hlast, hcovered⟩ :=
      materializeLinks_closed (fun _ _ _ _ _ _ => ih) (hfetched.session hnodes) hfollow
    refine ⟨⟨hend.nodes, fun other hother hopen => ?_⟩, ?_, ?_⟩
    · by_cases hhere : other = hash
      · exact hhere ▸ ⟨hlast.holds hash hholds, decoded, hmanifest, hcovered⟩
      · exact hend.links other hother (by simp [hhere, hopen])
    · exact hopened.trans (hlater.trans hlast)
    · exact hlast.traversed (hlater.traversed (List.mem_cons_self ..))

/-- The inventory has the blob with a hash. -/
def HashtreeBuild.Has (build : HashtreeBuild) (hash : Hash) : Prop :=
  ∃ blob ∈ build.inventory, blob.1 = hash

theorem materialize_closed {root : Hash} {build : HashtreeBuild}
    (h : materialize w limits root .initial = .ok build t) :
    ∃ traversed : List Hash, root ∈ traversed ∧ ∀ hash ∈ traversed, build.Has hash ∧
      ∃ decoded, w.manifest hash = some decoded ∧ ∀ link ∈ decoded.manifest.links,
        if link.type = .blob then build.Has link.hash else link.hash ∈ traversed := by
  obtain ⟨m, v, hvisit, h⟩ := bind_ok.mp h
  obtain ⟨rfl, rfl⟩ := EStateM.Result.ok.inj h
  have hinitial : Closed w [] ⟨[], []⟩ .initial := ⟨by simp [Session.initial], by simp⟩
  obtain ⟨hclosed, -, hroot⟩ := visitManifest_closed hinitial hvisit
  have hhas : ∀ hash, m.holds hash = true → HashtreeBuild.Has ⟨root, m.inventory, (m.inventory.map Prod.snd).sum⟩ hash := by
    intro hash hholds
    obtain ⟨blob, hblob, heq⟩ := List.any_eq_true.mp hholds
    exact ⟨blob, hblob, of_decide_eq_true heq⟩
  refine ⟨m.traversed, hroot, fun hash hhash => ?_⟩
  obtain ⟨hheld, decoded, hmanifest, hlinks⟩ := hclosed.links hash hhash (by simp)
  refine ⟨hhas hash hheld, decoded, hmanifest, fun link hlink => ?_⟩
  have hcovered := hlinks link hlink
  rw [Covered] at hcovered
  split_ifs at hcovered ⊢ with htype
  · exact hhas _ hcovered
  · exact hcovered

end NixstrCache.Hashtree.Reader
