import RsTenant.Scope

/-! # Scopes of platform roles

A platform grant covers the platform's own resources, all tenants, a set of
tenants, or root paths inside named tenants. The last two are kept in normal
form: tenants ascending, one entry for each tenant, its roots compacted.

`TenantDataAccessScope.merge` is what a tenant-data query makes of the scopes
that match it. It leaves platform grants out and refuses to mix tenant sets
with tenant paths (`merge_eq`).
-/

namespace RsTenant

open Ordered

/-! ## Tenant sets -/

/-- A non-empty set of tenants, listed in ascending order. -/
structure TenantSet where
  tenants : List TenantId
  nonempty : tenants ≠ []
  ascending : Ascending tenants
deriving DecidableEq

namespace TenantSet

theorem tenants_injective : Function.Injective TenantSet.tenants := by
  rintro ⟨a, _, _⟩ ⟨b, _, _⟩ h
  cases h
  rfl

def new (tenants : List TenantId) : Except Error TenantSet :=
  if h : tenants = [] then
    .error (.invalidScope "tenant set must not be empty")
  else
    .ok { tenants := collect tenants
          nonempty := fun hnil => h (collect_eq_nil.mp hnil)
          ascending := collect_ascending tenants }

def contains (set : TenantSet) (tenant : TenantId) : Bool :=
  set.tenants.any fun entry => entry = tenant

theorem new_eq_ok {tenants : List TenantId} {set : TenantSet} :
    new tenants = .ok set ↔ tenants ≠ [] ∧ collect tenants = set.tenants := by
  unfold new
  by_cases h : tenants = []
  · simp [h]
  · rw [dif_neg h]
    constructor
    · intro he
      cases he
      exact ⟨h, rfl⟩
    · intro he
      exact congrArg Except.ok (tenants_injective he.2)

theorem new_of_ne_nil {tenants : List TenantId} (h : tenants ≠ []) :
    ∃ set, new tenants = .ok set := by
  unfold new
  rw [dif_neg h]
  exact ⟨_, rfl⟩

/-- A set is rebuilt from its own list unchanged. -/
@[simp] theorem new_tenants (set : TenantSet) : new set.tenants = .ok set :=
  new_eq_ok.mpr ⟨set.nonempty, collect_eq_self set.ascending⟩

end TenantSet

/-! ## Roots inside tenants -/

/-- The roots covered inside one tenant. -/
@[ext] structure TenantScopedRoots where
  tenant : TenantId
  roots : ScopeRoots
deriving DecidableEq

/-- Some entry for the tenant has a root that gives access to `target`. -/
def CoversIn (entries : List TenantScopedRoots) (tenant : TenantId) (target : ScopePath) : Prop :=
  ∃ entry ∈ entries, entry.tenant = tenant ∧ entry.roots.Covers target

/-- The first entry for the tenant has a root that gives access to `target`. -/
def allowsIn (entries : List TenantScopedRoots) (tenant : TenantId) (target : ScopePath) : Bool :=
  match entries.find? fun entry => entry.tenant = tenant with
  | some entry => entry.roots.roots.any fun root => root.allows target
  | none => false

/-- With one entry for each tenant, looking at the first is enough. -/
theorem allowsIn_iff {entries : List TenantScopedRoots}
    (h : Ascending (entries.map TenantScopedRoots.tenant)) (tenant : TenantId)
    (target : ScopePath) :
    allowsIn entries tenant target = true ↔ CoversIn entries tenant target := by
  -- ascending tenants are distinct
  have hunique : ∀ e ∈ entries, ∀ e' ∈ entries, e.tenant = e'.tenant → e = e' := by
    intro e he e' he' heq
    exact List.inj_on_of_nodup_map (h.imp fun hlt => hlt.ne) he he' heq
  unfold allowsIn
  cases hfind : entries.find? fun entry => entry.tenant = tenant with
  | none =>
    have hno := List.find?_eq_none.mp hfind
    constructor
    · intro hfalse
      cases hfalse
    · rintro ⟨e, he, rfl, -⟩
      exact absurd (by simp) (hno e he)
  | some entry =>
    have hentry : entry.tenant = tenant := by simpa using List.find?_some hfind
    have hmem : entry ∈ entries := List.mem_of_find?_eq_some hfind
    simp only [List.any_eq_true]
    constructor
    · intro hcov
      exact ⟨entry, hmem, hentry, hcov⟩
    · rintro ⟨e, he, htenant, hcov⟩
      rw [hunique entry hmem e he (hentry.trans htenant.symm)]
      exact hcov

/-- A non-empty list of entries, one for each tenant, in ascending order. -/
structure TenantScopeRoots where
  entries : List TenantScopedRoots
  nonempty : entries ≠ []
  ascending : Ascending (entries.map TenantScopedRoots.tenant)
deriving DecidableEq

namespace TenantScopeRoots

theorem entries_injective : Function.Injective TenantScopeRoots.entries := by
  rintro ⟨a, _, _⟩ ⟨b, _, _⟩ h
  cases h
  rfl

/-- The tenant and the roots of an entry. -/
def pair (entry : TenantScopedRoots) : TenantId × List ScopePath :=
  (entry.tenant, entry.roots.roots)

/-- The loop that compacts the roots of each tenant. -/
def compactEntries : List (TenantId × List ScopePath) → Except Error (List TenantScopedRoots)
  | [] => .ok []
  | (tenant, roots) :: byTenant => do
    let roots ← ScopeRoots.new roots
    let compacted ← compactEntries byTenant
    return ⟨tenant, roots⟩ :: compacted

/-- What compacting the roots of each tenant yields. -/
theorem compactEntries_ok {byTenant : List (TenantId × List ScopePath)}
    {compacted : List TenantScopedRoots} (h : compactEntries byTenant = .ok compacted) :
    compacted.map pair = byTenant.map fun e => (e.1, compactPaths e.2) := by
  induction byTenant generalizing compacted with
  | nil =>
    cases h
    rfl
  | cons e byTenant ih =>
    rcases e with ⟨tenant, roots⟩
    rw [compactEntries] at h
    rcases Results.bind_eq_ok.mp h with ⟨r, hr, h⟩
    rcases Results.bind_eq_ok.mp h with ⟨rest, hrest, h⟩
    cases h
    have hroots := (ScopeRoots.new_eq_ok.mp hr).2
    rw [List.map_cons, List.map_cons, ih hrest, pair, hroots]

theorem compactEntries_of_ne_nil {byTenant : List (TenantId × List ScopePath)}
    (h : ∀ e ∈ byTenant, e.2 ≠ []) : ∃ compacted, compactEntries byTenant = .ok compacted := by
  induction byTenant with
  | nil => exact ⟨[], rfl⟩
  | cons e byTenant ih =>
    rw [List.forall_mem_cons] at h
    obtain ⟨r, hr⟩ := ScopeRoots.new_of_ne_nil h.1
    obtain ⟨compacted, hc⟩ := ih h.2
    refine ⟨⟨e.1, r⟩ :: compacted, ?_⟩
    rw [compactEntries, hr, hc]
    rfl

/-- The roots of each tenant, all entries of a tenant joined. -/
def byTenant (entries : List TenantScopedRoots) : List (TenantId × List ScopePath) :=
  group (entries.map pair)

theorem byTenant_ne_nil (entries : List TenantScopedRoots) : ∀ e ∈ byTenant entries, e.2 ≠ [] := by
  intro e he
  have hvalues := valuesAt_of_mem (group_ascending _) he
  have hkey : e.1 ∈ (group (entries.map pair)).map Prod.fst := List.mem_map.mpr ⟨e, he, rfl⟩
  rw [keys_group, List.map_map, List.mem_map] at hkey
  rcases hkey with ⟨entry, hentry, htenant⟩
  rw [← hvalues]
  unfold valuesAt
  intro hnil
  rw [← valuesAt, valuesAt_group, valuesAt, List.flatMap_eq_nil_iff] at hnil
  have hempty := hnil (pair entry)
    (List.mem_filter.mpr ⟨List.mem_map.mpr ⟨entry, hentry, rfl⟩, by simpa using htenant⟩)
  exact entry.roots.nonempty hempty

theorem compacted_spec {entries compacted : List TenantScopedRoots}
    (h : compactEntries (byTenant entries) = .ok compacted) :
    compacted.map TenantScopedRoots.tenant = collect (entries.map TenantScopedRoots.tenant) ∧
      ∀ e ∈ compacted, e.roots.roots = compactPaths (valuesAt (entries.map pair) e.tenant) := by
  have hmap := compactEntries_ok h
  rw [byTenant, group_eq, List.map_map] at hmap
  constructor
  · have hfst := congrArg (List.map Prod.fst) hmap
    simpa [pair, Function.comp_def] using hfst
  · intro e he
    have hpair : pair e ∈ compacted.map pair := List.mem_map.mpr ⟨e, he, rfl⟩
    rw [hmap, List.mem_map] at hpair
    rcases hpair with ⟨k, -, hk⟩
    have h1 : k = e.tenant := congrArg Prod.fst hk
    have h2 := congrArg Prod.snd hk
    rw [← h1]
    exact h2.symm

def new (entries : List TenantScopedRoots) : Except Error TenantScopeRoots :=
  if hne : entries = [] then
    .error (.invalidScope "tenant scope roots must not be empty")
  else
    match h : compactEntries (byTenant entries) with
    | .error e => .error e
    | .ok compacted =>
      .ok { entries := compacted
            nonempty := by
              rintro rfl
              have htenants := (compacted_spec h).1
              rw [List.map_nil, eq_comm, collect_eq_nil, List.map_eq_nil_iff] at htenants
              exact hne htenants
            ascending := by
              rw [(compacted_spec h).1]
              exact collect_ascending _ }

/-- Building fails on the empty list only. -/
theorem new_of_ne_nil {entries : List TenantScopedRoots} (h : entries ≠ []) :
    ∃ r, new entries = .ok r := by
  unfold new
  rw [dif_neg h]
  split
  · rename_i e he
    obtain ⟨c, hc⟩ := compactEntries_of_ne_nil (byTenant_ne_nil entries)
    rw [hc] at he
    cases he
  · exact ⟨_, rfl⟩

/-- What building yields: each tenant once, with the compacted union of its
roots. -/
theorem new_spec {entries : List TenantScopedRoots} {r : TenantScopeRoots}
    (h : new entries = .ok r) :
    entries ≠ [] ∧
      r.entries.map TenantScopedRoots.tenant = collect (entries.map TenantScopedRoots.tenant) ∧
      ∀ e ∈ r.entries, e.roots.roots = compactPaths (valuesAt (entries.map pair) e.tenant) := by
  unfold new at h
  split at h
  · cases h
  · rename_i hne
    split at h
    · cases h
    · rename_i compacted hcompact
      cases h
      exact ⟨hne, compacted_spec hcompact⟩

theorem mem_valuesAt_pair {entries : List TenantScopedRoots} {tenant : TenantId} {p : ScopePath} :
    p ∈ valuesAt (entries.map pair) tenant ↔
      ∃ e ∈ entries, e.tenant = tenant ∧ p ∈ e.roots.roots := by
  simp only [valuesAt, List.mem_flatMap, List.mem_filter, List.mem_map, decide_eq_true_eq]
  constructor
  · rintro ⟨_, ⟨⟨e, he, rfl⟩, htenant⟩, hp⟩
    exact ⟨e, he, htenant, hp⟩
  · rintro ⟨e, he, htenant, hp⟩
    exact ⟨pair e, ⟨⟨e, he, rfl⟩, htenant⟩, hp⟩

/-- The roots listed for a tenant cover what its entries cover. -/
theorem covered_valuesAt {entries : List TenantScopedRoots} {tenant : TenantId}
    {target : ScopePath} :
    (∃ p ∈ valuesAt (entries.map pair) tenant, p.allows target) ↔
      CoversIn entries tenant target := by
  simp only [mem_valuesAt_pair]
  constructor
  · rintro ⟨p, ⟨e, he, htenant, hp⟩, hallow⟩
    exact ⟨e, he, htenant, p, hp, hallow⟩
  · rintro ⟨e, he, htenant, p, hp, hallow⟩
    exact ⟨p, ⟨e, he, htenant, hp⟩, hallow⟩

/-- A tenant has an entry exactly when something is covered inside it. -/
theorem mem_tenants {entries : List TenantScopedRoots} {tenant : TenantId} :
    tenant ∈ entries.map TenantScopedRoots.tenant ↔ ∃ target, CoversIn entries tenant target := by
  rw [List.mem_map]
  constructor
  · rintro ⟨e, he, htenant⟩
    rcases List.exists_mem_of_ne_nil e.roots.roots e.roots.nonempty with ⟨p, hp⟩
    exact ⟨p, e, he, htenant, p, hp, ScopePath.allows_covering.refl p⟩
  · rintro ⟨target, e, he, htenant, -⟩
    exact ⟨e, he, htenant⟩

/-- Building keeps the coverage. -/
theorem covers_new {entries : List TenantScopedRoots} {r : TenantScopeRoots}
    (h : new entries = .ok r) (tenant : TenantId) (target : ScopePath) :
    CoversIn r.entries tenant target ↔ CoversIn entries tenant target := by
  obtain ⟨_, htenants, hroots⟩ := new_spec h
  have hcover : (∃ p ∈ valuesAt (entries.map pair) tenant, p.allows target) ↔
      CoversIn entries tenant target := covered_valuesAt
  rw [← hcover, ← ScopePath.allows_covering.roots_cover, ← compactPaths_eq_roots]
  constructor
  · rintro ⟨e, he, rfl, p, hp, hallow⟩
    rw [hroots e he] at hp
    exact ⟨p, hp, hallow⟩
  · rintro ⟨p, hp, hallow⟩
    -- a covered tenant has an entry
    have hmem : tenant ∈ r.entries.map TenantScopedRoots.tenant := by
      rw [htenants, mem_collect, mem_tenants]
      exact ⟨target, covered_valuesAt.mp (ScopePath.allows_covering.roots_cover.mp
        ⟨p, hp, hallow⟩)⟩
    rcases List.mem_map.mp hmem with ⟨e, he, rfl⟩
    exact ⟨e, he, rfl, p, by rwa [hroots e he], hallow⟩

/-- Roots in normal form are determined by their tenants and by the roots of
each. -/
theorem eq_of_spec {r r' : TenantScopeRoots}
    (htenants : r.entries.map TenantScopedRoots.tenant = r'.entries.map TenantScopedRoots.tenant)
    (hroots : ∀ e ∈ r.entries, ∀ e' ∈ r'.entries, e.tenant = e'.tenant →
      e.roots.roots = e'.roots.roots) : r = r' := by
  apply entries_injective
  -- entry by entry
  have hlen : r.entries.length = r'.entries.length := by
    have h := congrArg List.length htenants
    simpa using h
  refine List.ext_getElem hlen fun i h₁ h₂ => ?_
  have htenant : r.entries[i].tenant = r'.entries[i].tenant := by
    have h := congrArg (fun l => l[i]?) htenants
    simpa [h₁, h₂] using h
  have hroot : r.entries[i].roots = r'.entries[i].roots :=
    ScopeRoots.roots_injective
      (hroots _ (List.getElem_mem h₁) _ (List.getElem_mem h₂) htenant)
  exact TenantScopedRoots.ext htenant hroot

/-- Roots in normal form are rebuilt from their own entries unchanged. -/
@[simp] theorem new_entries (r : TenantScopeRoots) : new r.entries = .ok r := by
  obtain ⟨r', hr'⟩ := new_of_ne_nil r.nonempty
  obtain ⟨_, htenants, hroots⟩ := new_spec hr'
  have hpairs : Ascending ((r.entries.map pair).map Prod.fst) := by
    rw [List.map_map]
    exact r.ascending
  rw [hr']
  refine congrArg Except.ok (eq_of_spec ?_ ?_)
  · rw [htenants, collect_eq_self r.ascending]
  · intro e he e' he' htenant
    have hvalues : valuesAt (r.entries.map pair) e'.tenant = e'.roots.roots :=
      valuesAt_of_mem hpairs (List.mem_map.mpr ⟨e', he', rfl⟩)
    rw [hroots e he, htenant, hvalues, compactPaths_eq_roots,
      ScopePath.allows_covering.roots_eq_self e'.roots.compacted]

/-- What is built is determined by the coverage. -/
theorem new_eq_of_covers {entries entries' : List TenantScopedRoots}
    (h : ∀ tenant target, CoversIn entries tenant target ↔ CoversIn entries' tenant target) :
    new entries = new entries' := by
  have htenant : ∀ t, t ∈ entries.map TenantScopedRoots.tenant ↔
      t ∈ entries'.map TenantScopedRoots.tenant := by
    intro t
    rw [mem_tenants, mem_tenants]
    exact exists_congr fun target => h t target
  -- a tenant is listed where something is covered in it, so both have the same tenants
  have hcollect := collect_congr htenant
  by_cases hnil : entries = []
  · have hnil' : entries' = [] := by
      rw [hnil, List.map_nil, collect_eq_nil.mpr rfl, eq_comm, collect_eq_nil] at hcollect
      exact List.map_eq_nil_iff.mp hcollect
    rw [hnil, hnil']
  · have hnil' : entries' ≠ [] := by
      rintro rfl
      rw [List.map_nil, collect_eq_nil.mpr rfl, collect_eq_nil] at hcollect
      exact hnil (List.map_eq_nil_iff.mp hcollect)
    obtain ⟨r, hr⟩ := new_of_ne_nil hnil
    obtain ⟨r', hr'⟩ := new_of_ne_nil hnil'
    obtain ⟨_, htenants, hroots⟩ := new_spec hr
    obtain ⟨_, htenants', hroots'⟩ := new_spec hr'
    rw [hr, hr']
    refine congrArg Except.ok (eq_of_spec ?_ ?_)
    · rw [htenants, htenants', hcollect]
    · intro e he e' he' heq
      rw [hroots e he, hroots' e' he', heq]
      -- the roots of one tenant, compacted, are determined by what they cover
      apply ScopePath.allows_covering.roots_eq_iff.mpr
      intro target
      rw [covered_valuesAt, covered_valuesAt, h]

/-- Building depends only on which entries were listed. -/
theorem new_congr {entries entries' : List TenantScopedRoots}
    (h : ∀ e, e ∈ entries ↔ e ∈ entries') : new entries = new entries' := by
  apply new_eq_of_covers
  intro tenant target
  simp only [CoversIn, h]

def allowsPath (r : TenantScopeRoots) (tenant : TenantId) (target : ScopePath) : Bool :=
  allowsIn r.entries tenant target

end TenantScopeRoots

/-! ## Platform grants -/

/-- The scope one platform role assignment grants. -/
inductive PlatformGrantScope where
  | platform
  | allTenants
  | tenants (set : TenantSet)
  | tenantPaths (entries : TenantScopeRoots)
deriving DecidableEq

namespace PlatformGrantScope

def ofTenants (tenants : List TenantId) : Except Error PlatformGrantScope :=
  PlatformGrantScope.tenants <$> TenantSet.new tenants

def ofTenantPaths (entries : List TenantScopedRoots) : Except Error PlatformGrantScope :=
  PlatformGrantScope.tenantPaths <$> TenantScopeRoots.new entries

/-- The grant covers the whole of a tenant. -/
def CoversTenant : PlatformGrantScope → TenantId → Prop
  | .allTenants, _ => True
  | .tenants set, tenant => tenant ∈ set.tenants
  | _, _ => False

/-- The grant covers a path inside a tenant. -/
def CoversPath : PlatformGrantScope → TenantId → ScopePath → Prop
  | .allTenants, _, _ => True
  | .tenants set, tenant, _ => tenant ∈ set.tenants
  | .tenantPaths r, tenant, target => CoversIn r.entries tenant target
  | .platform, _, _ => False

/-- The grant is a set of tenants. -/
def IsTenants : PlatformGrantScope → Prop
  | .tenants _ => True
  | _ => False

/-- The grant is a set of paths inside tenants. -/
def IsTenantPaths : PlatformGrantScope → Prop
  | .tenantPaths _ => True
  | _ => False

/-- The tenants of a tenant-set grant. -/
def tenantList : PlatformGrantScope → List TenantId
  | .tenants set => set.tenants
  | _ => []

/-- The entries of a tenant-path grant. -/
def entryList : PlatformGrantScope → List TenantScopedRoots
  | .tenantPaths r => r.entries
  | _ => []

end PlatformGrantScope

/-! ## The merged scope of a tenant-data query -/

inductive TenantDataAccessScope where
  | none
  | allTenants
  | tenants (tenants : List TenantId)
  | tenantPaths (entries : List TenantScopedRoots)
deriving DecidableEq

namespace TenantDataAccessScope

/-- What `merge` makes of the tenants and entries it has collected. -/
def finish (tenants : List TenantId) (pathEntries : List TenantScopedRoots) :
    Except Error TenantDataAccessScope :=
  if tenants ≠ [] ∧ pathEntries ≠ [] then
    .error (.invalidScope "tenant data scope must not mix tenant-level and path-level grants")
  else if tenants ≠ [] then
    (TenantSet.new tenants).map fun set => .tenants set.tenants
  else if pathEntries = [] then
    .ok .none
  else
    (TenantScopeRoots.new pathEntries).map fun r => .tenantPaths r.entries

/-- The loop of `merge`. -/
def mergeLoop : List TenantId → List TenantScopedRoots → List PlatformGrantScope →
    Except Error TenantDataAccessScope
  | ts, pathEntries, [] => finish ts pathEntries
  | ts, pathEntries, .platform :: scopes => mergeLoop ts pathEntries scopes
  | _, _, .allTenants :: _ => .ok .allTenants
  | ts, pathEntries, .tenants set :: scopes => mergeLoop (ts ++ set.tenants) pathEntries scopes
  | ts, pathEntries, .tenantPaths r :: scopes => mergeLoop ts (pathEntries ++ r.entries) scopes

def merge (scopes : List PlatformGrantScope) : Except Error TenantDataAccessScope :=
  mergeLoop [] [] scopes

def allowsTenant : TenantDataAccessScope → TenantId → Bool
  | .allTenants, _ => true
  | .tenants ts, tenant => ts.any fun entry => entry = tenant
  | .none, _ => false
  | .tenantPaths _, _ => false

def allowsPath : TenantDataAccessScope → TenantId → ScopePath → Bool
  | .allTenants, _, _ => true
  | .tenants ts, tenant, _ => ts.any fun entry => entry = tenant
  | .tenantPaths entries, tenant, target => allowsIn entries tenant target
  | .none, _, _ => false

theorem mergeLoop_eq (tenants : List TenantId) (pathEntries : List TenantScopedRoots)
    (scopes : List PlatformGrantScope) :
    mergeLoop tenants pathEntries scopes =
      if .allTenants ∈ scopes then .ok .allTenants
      else finish (tenants ++ scopes.flatMap PlatformGrantScope.tenantList)
        (pathEntries ++ scopes.flatMap PlatformGrantScope.entryList) := by
  induction scopes generalizing tenants pathEntries with
  | nil => simp [mergeLoop]
  | cons g scopes ih =>
    cases g with
    | platform => simp [mergeLoop, ih, PlatformGrantScope.tenantList, PlatformGrantScope.entryList]
    | allTenants => simp [mergeLoop]
    | tenants set =>
      simp [mergeLoop, ih, PlatformGrantScope.tenantList, PlatformGrantScope.entryList]
    | tenantPaths r =>
      simp [mergeLoop, ih, PlatformGrantScope.tenantList, PlatformGrantScope.entryList]

/-- Merging stops at a grant for all tenants, and otherwise joins all tenant
sets and all entries. -/
theorem merge_eq (scopes : List PlatformGrantScope) :
    merge scopes =
      if .allTenants ∈ scopes then .ok .allTenants
      else finish (scopes.flatMap PlatformGrantScope.tenantList)
        (scopes.flatMap PlatformGrantScope.entryList) :=
  mergeLoop_eq [] [] scopes

theorem flatMap_tenantList {scopes : List PlatformGrantScope} :
    scopes.flatMap PlatformGrantScope.tenantList ≠ [] ↔ ∃ g ∈ scopes, g.IsTenants := by
  rw [ne_eq, List.flatMap_eq_nil_iff]
  constructor
  · intro h
    by_contra hno
    apply h
    intro g hg
    cases g with
    | tenants set => exact absurd ⟨_, hg, trivial⟩ hno
    | _ => rfl
  · rintro ⟨g, hg, htenants⟩ h
    cases g with
    | tenants set => exact set.nonempty (h _ hg)
    | _ => exact htenants

theorem flatMap_entryList {scopes : List PlatformGrantScope} :
    scopes.flatMap PlatformGrantScope.entryList ≠ [] ↔ ∃ g ∈ scopes, g.IsTenantPaths := by
  rw [ne_eq, List.flatMap_eq_nil_iff]
  constructor
  · intro h
    by_contra hno
    apply h
    intro g hg
    cases g with
    | tenantPaths r => exact absurd ⟨_, hg, trivial⟩ hno
    | _ => rfl
  · rintro ⟨g, hg, hpaths⟩ h
    cases g with
    | tenantPaths r => exact r.nonempty (h _ hg)
    | _ => exact hpaths

/-- Tenant-level and path-level grants of one query conflict. -/
def Mixed (Granted : PlatformGrantScope → Prop) : Prop :=
  ¬ Granted .allTenants ∧ (∃ g, Granted g ∧ g.IsTenants) ∧ ∃ g, Granted g ∧ g.IsTenantPaths

/-- What finishing makes of the joined lists. -/
inductive Finished (tenants : List TenantId) (pathEntries : List TenantScopedRoots) :
    Except Error TenantDataAccessScope → Prop
  | mixed (ht : tenants ≠ []) (hp : pathEntries ≠ []) :
      Finished tenants pathEntries (.error
        (.invalidScope "tenant data scope must not mix tenant-level and path-level grants"))
  | tenants (set : TenantSet) (hp : pathEntries = []) (hnew : TenantSet.new tenants = .ok set) :
      Finished tenants pathEntries (.ok (.tenants set.tenants))
  | tenantPaths (r : TenantScopeRoots) (ht : tenants = [])
      (hnew : TenantScopeRoots.new pathEntries = .ok r) :
      Finished tenants pathEntries (.ok (.tenantPaths r.entries))
  | none (ht : tenants = []) (hp : pathEntries = []) : Finished tenants pathEntries (.ok .none)

theorem finished (tenants : List TenantId) (pathEntries : List TenantScopedRoots) :
    Finished tenants pathEntries (finish tenants pathEntries) := by
  unfold finish
  by_cases hboth : tenants ≠ [] ∧ pathEntries ≠ []
  · rw [if_pos hboth]
    exact .mixed hboth.1 hboth.2
  · rw [if_neg hboth]
    by_cases ht : tenants = []
    · rw [if_neg (not_not.mpr ht)]
      by_cases hp : pathEntries = []
      · rw [if_pos hp]
        exact .none ht hp
      · -- building the roots does not fail here
        obtain ⟨r, hr⟩ := TenantScopeRoots.new_of_ne_nil hp
        rw [if_neg hp, hr]
        exact .tenantPaths r ht hr
    · have hp : pathEntries = [] := by
        by_contra hp
        exact hboth ⟨ht, hp⟩
      obtain ⟨set, hset⟩ := TenantSet.new_of_ne_nil ht
      rw [if_pos ht, hset]
      exact .tenants set hp hset

/-- A merged scope lists a set of tenants or roots in normal form. -/
theorem merge_normal {scopes : List PlatformGrantScope} {s : TenantDataAccessScope}
    (h : merge scopes = .ok s) :
    s = .none ∨ s = .allTenants ∨ (∃ set : TenantSet, s = .tenants set.tenants) ∨
      ∃ r : TenantScopeRoots, s = .tenantPaths r.entries := by
  rw [merge_eq] at h
  split at h
  · exact .inr (.inl (Except.ok.inj h).symm)
  · have hfinished := finished (scopes.flatMap PlatformGrantScope.tenantList)
      (scopes.flatMap PlatformGrantScope.entryList)
    rw [h] at hfinished
    cases hfinished with
    | tenants set _ _ => exact .inr (.inr (.inl ⟨set, rfl⟩))
    | tenantPaths r _ _ => exact .inr (.inr (.inr ⟨r, rfl⟩))
    | none _ _ => exact .inl rfl

/-- Merging depends only on which scopes other than the platform's own were
granted. -/
theorem merge_congr {scopes scopes' : List PlatformGrantScope}
    (h : ∀ g, g ≠ .platform → (g ∈ scopes ↔ g ∈ scopes')) : merge scopes = merge scopes' := by
  have htenants : ∀ t, t ∈ scopes.flatMap PlatformGrantScope.tenantList ↔
      t ∈ scopes'.flatMap PlatformGrantScope.tenantList := by
    intro t
    simp only [List.mem_flatMap]
    refine exists_congr fun g => ?_
    cases g with
    | platform => simp [PlatformGrantScope.tenantList]
    | _ => rw [h _ (by simp)]
  have hentries : ∀ e, e ∈ scopes.flatMap PlatformGrantScope.entryList ↔
      e ∈ scopes'.flatMap PlatformGrantScope.entryList := by
    intro e
    simp only [List.mem_flatMap]
    refine exists_congr fun g => ?_
    cases g with
    | platform => simp [PlatformGrantScope.entryList]
    | _ => rw [h _ (by simp)]
  have hset : TenantSet.new (scopes.flatMap PlatformGrantScope.tenantList) =
      TenantSet.new (scopes'.flatMap PlatformGrantScope.tenantList) := by
    unfold TenantSet.new
    simp only [List.eq_nil_iff_forall_not_mem, htenants, collect_congr htenants]
  have hroots := TenantScopeRoots.new_congr hentries
  rw [merge_eq, merge_eq]
  unfold finish
  rw [hset, hroots]
  simp only [ne_eq, List.eq_nil_iff_forall_not_mem, htenants, hentries, h .allTenants (by simp)]

section Merge

variable {scopes : List PlatformGrantScope} {Granted : PlatformGrantScope → Prop}
  (h : ∀ g, g ∈ scopes ↔ Granted g)
include h

theorem mixed_iff (hall : .allTenants ∉ scopes) :
    (scopes.flatMap PlatformGrantScope.tenantList ≠ [] ∧
      scopes.flatMap PlatformGrantScope.entryList ≠ []) ↔ Mixed Granted := by
  rw [flatMap_tenantList, flatMap_entryList]
  simp only [Mixed, ← h, hall, not_false_eq_true, true_and]

/-- The error of a conflict. -/
theorem merge_of_mixed (hmixed : Mixed Granted) :
    merge scopes = .error
      (.invalidScope "tenant data scope must not mix tenant-level and path-level grants") := by
  have hall : .allTenants ∉ scopes := fun hmem => hmixed.1 ((h _).mp hmem)
  rw [merge_eq, if_neg hall, finish, if_pos ((mixed_iff h hall).mpr hmixed)]

/-- Merging fails on a conflict and on nothing else. -/
theorem merge_error_iff : (∃ e, merge scopes = .error e) ↔ Mixed Granted := by
  constructor
  · rintro ⟨e, he⟩
    rw [merge_eq] at he
    split at he
    · cases he
    · rename_i hall
      have hfinished := finished (scopes.flatMap PlatformGrantScope.tenantList)
        (scopes.flatMap PlatformGrantScope.entryList)
      rw [he] at hfinished
      cases hfinished with
      | mixed ht hp => exact (mixed_iff h hall).mp ⟨ht, hp⟩
  · intro hmixed
    exact ⟨_, merge_of_mixed h hmixed⟩

section Joined

variable (hall : ¬ Granted .allTenants)
include hall

/-- The joined tenants are those that some grant covers. -/
theorem mem_tenantList (t : TenantId) :
    t ∈ scopes.flatMap PlatformGrantScope.tenantList ↔ ∃ g, Granted g ∧ g.CoversTenant t := by
  simp only [List.mem_flatMap, h]
  refine exists_congr fun g => and_congr_right fun hg => ?_
  cases g with
  | allTenants => exact absurd hg hall
  | platform => simp [PlatformGrantScope.tenantList, PlatformGrantScope.CoversTenant]
  | tenants set => exact Iff.rfl
  | tenantPaths r => simp [PlatformGrantScope.tenantList, PlatformGrantScope.CoversTenant]

/-- A path is covered by a tenant set or by an entry of the joined lists. -/
theorem coversPath_iff (t : TenantId) (p : ScopePath) :
    (∃ g, Granted g ∧ g.CoversPath t p) ↔
      t ∈ scopes.flatMap PlatformGrantScope.tenantList ∨
        CoversIn (scopes.flatMap PlatformGrantScope.entryList) t p := by
  have hentry : CoversIn (scopes.flatMap PlatformGrantScope.entryList) t p ↔
      ∃ g, Granted g ∧ CoversIn g.entryList t p := by
    simp only [CoversIn, List.mem_flatMap, h]
    constructor
    · rintro ⟨e, ⟨g, hg, he⟩, htenant, hcov⟩
      exact ⟨g, hg, e, he, htenant, hcov⟩
    · rintro ⟨g, hg, e, he, htenant, hcov⟩
      exact ⟨e, ⟨g, hg, he⟩, htenant, hcov⟩
  rw [mem_tenantList h hall, hentry, ← exists_or]
  refine exists_congr fun g => ?_
  rw [← and_or_left]
  refine and_congr_right fun hg => ?_
  cases g with
  | allTenants => exact absurd hg hall
  | platform =>
    simp [PlatformGrantScope.CoversPath, PlatformGrantScope.CoversTenant,
      PlatformGrantScope.entryList, CoversIn]
  | tenants set =>
    simp [PlatformGrantScope.CoversPath, PlatformGrantScope.CoversTenant,
      PlatformGrantScope.entryList, CoversIn]
  | tenantPaths r =>
    simp [PlatformGrantScope.CoversPath, PlatformGrantScope.CoversTenant,
      PlatformGrantScope.entryList]

end Joined

/-- A merged scope is the union of the grants, tenant by tenant and path by
path. -/
theorem allows_merge {s : TenantDataAccessScope} (hs : merge scopes = .ok s) :
    (∀ t, s.allowsTenant t = true ↔ ∃ g, Granted g ∧ g.CoversTenant t) ∧
      ∀ t p, s.allowsPath t p = true ↔ ∃ g, Granted g ∧ g.CoversPath t p := by
  rw [merge_eq] at hs
  by_cases hall : .allTenants ∈ scopes
  · rw [if_pos hall] at hs
    cases hs
    have hgranted := (h _).mp hall
    exact ⟨fun t => ⟨fun _ => ⟨_, hgranted, trivial⟩, fun _ => rfl⟩,
      fun t p => ⟨fun _ => ⟨_, hgranted, trivial⟩, fun _ => rfl⟩⟩
  · rw [if_neg hall] at hs
    have hnotall : ¬ Granted .allTenants := fun hg => hall ((h _).mpr hg)
    -- one of the joined lists is empty, and the other one gives the scope
    simp only [← mem_tenantList h hnotall, coversPath_iff h hnotall]
    have hfinished := finished (scopes.flatMap PlatformGrantScope.tenantList)
      (scopes.flatMap PlatformGrantScope.entryList)
    rw [hs] at hfinished
    cases hfinished with
    | tenants set hnil hnew =>
      have hset := (TenantSet.new_eq_ok.mp hnew).2
      rw [hnil, ← hset]
      refine ⟨fun t => ?_, fun t p => ?_⟩
      · simp only [allowsTenant, List.any_eq_true, decide_eq_true_eq, exists_eq_right, mem_collect]
      · simp only [allowsPath, List.any_eq_true, decide_eq_true_eq, exists_eq_right, mem_collect,
          CoversIn, List.not_mem_nil, false_and, exists_false, or_false]
    | tenantPaths r hnil hnew =>
      rw [hnil]
      refine ⟨fun t => by simp [allowsTenant], fun t p => ?_⟩
      rw [allowsPath, allowsIn_iff r.ascending, TenantScopeRoots.covers_new hnew]
      simp
    | none hnil hnil' =>
      rw [hnil, hnil']
      exact ⟨fun t => by simp [allowsTenant], fun t p => by simp [allowsPath, CoversIn]⟩

end Merge

end TenantDataAccessScope

end RsTenant
