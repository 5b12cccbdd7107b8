import RsTenant.PlatformScope

/-! # Scopes in normal form

Compaction, the tenant-wise grouping of roots and the two merges all put a
collection of grants into a normal form: what comes out depends on what the
grants cover, and not on how they are listed, repeated or grouped.

* `compact_paths_canonical`: root paths;
* `access_scope_merge_union`: the scope of a tenant query;
* `tenant_scope_roots_normal`: roots inside tenants, looked up by first match;
* `tenant_data_merge_union`: the scope of a tenant-data query, and when its
  grants conflict.
-/

namespace RsTenant

open Ordered

/-! ## Root paths -/

/-- Some root of the list gives access to `target`. -/
def Covered (roots : List ScopePath) (target : ScopePath) : Prop :=
  ∃ root ∈ roots, root.allows target = true

/-- Compacting covers the same. -/
theorem covered_compactPaths {paths : List ScopePath} (target : ScopePath) :
    Covered (compactPaths paths) target ↔ Covered paths target :=
  ScopePath.allows_covering.roots_cover

/-- Lists that cover the same are compacted to the same list. -/
theorem compactPaths_eq_iff {paths paths' : List ScopePath} :
    compactPaths paths = compactPaths paths' ↔
      ∀ target, Covered paths target ↔ Covered paths' target :=
  ScopePath.allows_covering.roots_eq_iff

theorem covered_of_mem {paths : List ScopePath} {p : ScopePath} (hp : p ∈ paths) :
    Covered paths p :=
  ⟨p, hp, ScopePath.allows_covering.refl p⟩

/-- A path that is covered already adds nothing. -/
theorem covered_cons {paths : List ScopePath} {p : ScopePath} (hp : Covered paths p)
    (target : ScopePath) : Covered (p :: paths) target ↔ Covered paths target := by
  constructor
  · rintro ⟨root, hroot, hallow⟩
    rcases List.mem_cons.mp hroot with rfl | hroot
    · rcases hp with ⟨q, hq, hqp⟩
      exact ⟨q, hq, ScopePath.allows_covering.trans hqp hallow⟩
    · exact ⟨root, hroot, hallow⟩
  · rintro ⟨root, hroot, hallow⟩
    exact ⟨root, List.mem_cons_of_mem p hroot, hallow⟩

/-- Compaction picks some of the paths, ascending and none below another, that
cover what all of them cover; two lists compact to the same roots exactly when
they cover the same targets. So compacting twice, reordering, repeating and
adding covered paths change nothing. -/
theorem compact_paths_canonical (xs ys : List ScopePath) :
    Ascending (compactPaths xs) ∧ (∀ p ∈ compactPaths xs, p ∈ xs) ∧
      (∀ p ∈ compactPaths xs, ∀ q ∈ compactPaths xs, p.allows q = true → p = q) ∧
      (∀ target, Covered (compactPaths xs) target ↔ Covered xs target) ∧
      (compactPaths xs = compactPaths ys ↔ ∀ target, Covered xs target ↔ Covered ys target) ∧
      compactPaths (compactPaths xs) = compactPaths xs ∧
      ((∀ p, p ∈ xs ↔ p ∈ ys) → compactPaths xs = compactPaths ys) ∧
      ∀ p, Covered xs p → compactPaths (p :: xs) = compactPaths xs := by
  have hanti : Antichain ScopePath.allows (compactPaths xs) :=
    ScopePath.allows_covering.roots_antichain xs
  refine ⟨ScopePath.allows_covering.roots_ascending xs, ?_, ?_, covered_compactPaths,
    compactPaths_eq_iff, ScopePath.allows_covering.roots_eq_self hanti, ?_, ?_⟩
  · intro p hp
    exact ScopePath.allows_covering.roots_subset hp
  · intro p hp q hq hallow
    exact ScopePath.allows_covering.eq_of_antichain hanti hp hq hallow
  · intro h
    exact ScopePath.allows_covering.roots_congr h
  · intro p hp
    exact compactPaths_eq_iff.mpr (covered_cons hp)

namespace Sample

def region : ScopePath := ⟨['a'], by decide⟩
def store : ScopePath := ⟨['a', '/', 'c'], by decide⟩
def annex : ScopePath := ⟨['a', '-', 'b'], by decide⟩
def regionRoots : ScopeRoots := ⟨[region], by simp, List.pairwise_singleton _ _⟩
def storeRoots : ScopeRoots := ⟨[store], by simp, List.pairwise_singleton _ _⟩
def shop : TenantId := ⟨['h'], by decide⟩

end Sample

/-- `a-b` sorts between `a` and `a/c`, and `a` still takes `a/c` in. -/
example : compactPaths [Sample.store, Sample.annex, Sample.region] =
    [Sample.region, Sample.annex] := by
  decide

theorem compact_paths_canonical_sample :
    compactPaths [Sample.store, Sample.region] = compactPaths [Sample.region] :=
  (compact_paths_canonical [Sample.region] []).2.2.2.2.2.2.2 Sample.store
    ⟨Sample.region, List.mem_singleton_self _, by decide⟩

/-! ## The scope of a tenant query -/

namespace AccessScope

/-- Without a grant for the tenant, the paths of all grants are what covers. -/
theorem covers_iff_covered {grants : List GrantScope} (htenant : GrantScope.tenant ∉ grants)
    (target : ScopePath) :
    (∃ g ∈ grants, g.Covers target) ↔ Covered (grants.flatMap GrantScope.roots) target :=
  covers_iff_roots htenant

/-- A path grant covers its own roots, so only the empty list covers nothing. -/
theorem eq_nil_iff_not_covered {grants : List GrantScope} (htenant : GrantScope.tenant ∉ grants) :
    grants = [] ↔ ∀ target, ¬ ∃ g ∈ grants, g.Covers target := by
  constructor
  · rintro rfl target ⟨g, hg, -⟩
    exact List.not_mem_nil hg
  · intro h
    rw [List.eq_nil_iff_forall_not_mem]
    intro g hg
    cases g with
    | tenant => exact htenant hg
    | paths r =>
      rcases List.exists_mem_of_ne_nil r.roots r.nonempty with ⟨p, hp⟩
      exact h p ⟨_, hg, covered_of_mem hp⟩

/-- A merge is determined by whether the whole tenant was granted and by the
targets covered. -/
theorem merge_eq_of_covers (t : TenantId) {grants grants' : List GrantScope}
    (htenant : GrantScope.tenant ∈ grants ↔ GrantScope.tenant ∈ grants')
    (hcovers : ∀ target, (∃ g ∈ grants, g.Covers target) ↔ ∃ g ∈ grants', g.Covers target) :
    merge t grants = merge t grants' := by
  rw [merge_eq, merge_eq]
  by_cases ht : GrantScope.tenant ∈ grants
  · rw [if_pos ht, if_pos (htenant.mp ht)]
  · have ht' : GrantScope.tenant ∉ grants' := fun h => ht (htenant.mpr h)
    -- a list of path grants is empty exactly when it covers nothing
    have hnil : grants = [] ↔ grants' = [] := by
      rw [eq_nil_iff_not_covered ht, eq_nil_iff_not_covered ht']
      simp only [hcovers]
    have hroots : compactPaths (grants.flatMap GrantScope.roots) =
        compactPaths (grants'.flatMap GrantScope.roots) := by
      apply compactPaths_eq_iff.mpr
      intro target
      rw [← covers_iff_covered ht, ← covers_iff_covered ht', hcovers]
    rw [if_neg ht, if_neg ht', hroots]
    simp only [hnil]

/-- One path grant with the joined roots of some covers what they cover. -/
theorem covers_ofPaths {pathGrants : List ScopeRoots} {g : GrantScope}
    (hg : GrantScope.ofPaths (pathGrants.flatMap ScopeRoots.roots) = .ok g) :
    g ≠ .tenant ∧ ∀ target, g.Covers target ↔ ∃ r ∈ pathGrants, r.Covers target := by
  rcases Results.bind_eq_ok.mp hg with ⟨r, hnew, hreturn⟩
  cases hreturn
  have hroots := (ScopeRoots.new_eq_ok.mp hnew).2
  refine ⟨nofun, fun target => ?_⟩
  have hjoined : Covered (pathGrants.flatMap ScopeRoots.roots) target ↔
      ∃ r ∈ pathGrants, r.Covers target := by
    constructor
    · rintro ⟨p, hp, hallow⟩
      rcases List.mem_flatMap.mp hp with ⟨r, hr, hpr⟩
      exact ⟨r, hr, p, hpr, hallow⟩
    · rintro ⟨r, hr, p, hpr, hallow⟩
      exact ⟨p, List.mem_flatMap.mpr ⟨r, hr, hpr⟩, hallow⟩
  rw [← hjoined, ← covered_compactPaths, hroots]
  rfl

/-- Joining some of the path grants into one does not change the merge. -/
theorem merge_grouped (t : TenantId) {grants : List GrantScope} {pathGrants : List ScopeRoots}
    {rest : List GrantScope} (hperm : grants.Perm (pathGrants.map GrantScope.paths ++ rest))
    {g : GrantScope} (hg : GrantScope.ofPaths (pathGrants.flatMap ScopeRoots.roots) = .ok g)
    {grants' : List GrantScope} (hperm' : grants'.Perm (g :: rest)) :
    merge t grants' = merge t grants := by
  obtain ⟨hne, hcov⟩ := covers_ofPaths hg
  have hmem : ∀ x, x ∈ grants ↔ (∃ r ∈ pathGrants, GrantScope.paths r = x) ∨ x ∈ rest := by
    intro x
    rw [hperm.mem_iff, List.mem_append, List.mem_map]
  have hmem' : ∀ x, x ∈ grants' ↔ x = g ∨ x ∈ rest := by
    intro x
    rw [hperm'.mem_iff, List.mem_cons]
  apply merge_eq_of_covers
  · rw [hmem, hmem']
    constructor
    · intro h
      exact .inr (h.resolve_left fun heq => hne heq.symm)
    · rintro (⟨r, -, heq⟩ | h)
      · cases heq
      · exact .inr h
  · intro target
    simp only [hmem, hmem']
    constructor
    · rintro ⟨x, rfl | hx, hcovers⟩
      · rcases (hcov target).mp hcovers with ⟨r, hr, hcovers⟩
        exact ⟨.paths r, .inl ⟨r, hr, rfl⟩, hcovers⟩
      · exact ⟨x, .inr hx, hcovers⟩
    · rintro ⟨x, ⟨r, hr, rfl⟩ | hx, hcovers⟩
      · exact ⟨g, .inl rfl, (hcov target).mpr ⟨r, hr, hcovers⟩⟩
      · exact ⟨x, .inr hx, hcovers⟩

/-- Merging is the union of the grants: nothing for no grants, the whole tenant
as soon as one grant is for it, and otherwise the targets that some grant has
a root for. The order of the grants does not matter, nor does joining path
grants beforehand, and lists of path grants with the same targets merge to the
same scope. -/
theorem access_scope_merge_union (t : TenantId) (gs : List GrantScope) :
    (merge t gs = .none ↔ gs = []) ∧
      (merge t gs = .tenant t ↔ GrantScope.tenant ∈ gs) ∧
      (∀ t', merge t gs = .tenant t' → t' = t) ∧
      (∀ target, (merge t gs).allowsPath target = true ↔
        GrantScope.tenant ∈ gs ∨
          ∃ r, GrantScope.paths r ∈ gs ∧ ∃ root ∈ r.roots, root.allows target = true) ∧
      (∀ gs', gs'.Perm gs → merge t gs' = merge t gs) ∧
      (∀ (pathGrants : List ScopeRoots) (rest : List GrantScope),
        gs.Perm (pathGrants.map GrantScope.paths ++ rest) → pathGrants ≠ [] →
        ∃ g, GrantScope.ofPaths (pathGrants.flatMap ScopeRoots.roots) = .ok g ∧
          ∀ gs', gs'.Perm (g :: rest) → merge t gs' = merge t gs) ∧
      ∀ gs', GrantScope.tenant ∉ gs → GrantScope.tenant ∉ gs' →
        (∀ target, (∃ g ∈ gs, g.Covers target) ↔ ∃ g ∈ gs', g.Covers target) →
        merge t gs = merge t gs' := by
  refine ⟨merge_eq_none t gs, merge_eq_tenant t gs, fun t' => eq_of_merge_eq_tenant, ?_, ?_, ?_,
    ?_⟩
  · intro target
    rw [allowsPath_merge]
    constructor
    · rintro ⟨g, hg, hcov⟩
      cases g with
      | tenant => exact .inl hg
      | paths r => exact .inr ⟨r, hg, hcov⟩
    · rintro (hg | ⟨r, hg, hcov⟩)
      · exact ⟨.tenant, hg, trivial⟩
      · exact ⟨.paths r, hg, hcov⟩
  · intro gs' hperm
    exact merge_congr t fun g => hperm.mem_iff
  -- no root list is empty, so the joined one is not
  · intro pathGrants rest hperm hne
    have hroots : pathGrants.flatMap ScopeRoots.roots ≠ [] := by
      rcases List.exists_mem_of_ne_nil pathGrants hne with ⟨r, hr⟩
      intro hnil
      exact r.nonempty (List.flatMap_eq_nil_iff.mp hnil r hr)
    obtain ⟨r, hr⟩ := ScopeRoots.new_of_ne_nil hroots
    have hg : GrantScope.ofPaths (pathGrants.flatMap ScopeRoots.roots) = .ok (.paths r) := by
      unfold GrantScope.ofPaths
      rw [hr]
      rfl
    exact ⟨.paths r, hg, fun gs' hperm' => merge_grouped t hperm hg hperm'⟩
  · intro gs' ht ht' hcovers
    have htenant : GrantScope.tenant ∈ gs ↔ GrantScope.tenant ∈ gs' := by
      constructor
      · intro h
        exact absurd h ht
      · intro h
        exact absurd h ht'
    exact merge_eq_of_covers t htenant hcovers

/-- Two path grants, and one with the roots of both. -/
theorem access_scope_merge_union_sample :
    ∃ g, GrantScope.ofPaths [Sample.store, Sample.region] = .ok g ∧
      merge Sample.shop [g] =
        merge Sample.shop [.paths Sample.storeRoots, .paths Sample.regionRoots] := by
  rcases (access_scope_merge_union Sample.shop
    [.paths Sample.storeRoots, .paths Sample.regionRoots]).2.2.2.2.2.1
    [Sample.storeRoots, Sample.regionRoots] [] (.refl _) (by simp) with ⟨g, hg, hmerge⟩
  exact ⟨g, hg, hmerge [g] (.refl _)⟩

end AccessScope

/-! ## Roots inside tenants -/

namespace TenantScopeRoots

/-- All roots that the entries list for a tenant. -/
def rootsOf (entries : List TenantScopedRoots) (tenant : TenantId) : List ScopePath :=
  (entries.filter fun entry => entry.tenant = tenant).flatMap fun entry => entry.roots.roots

/-- The roots of a tenant, in the order of its entries. -/
theorem valuesAt_pair (entries : List TenantScopedRoots) (tenant : TenantId) :
    valuesAt (entries.map pair) tenant = rootsOf entries tenant := by
  unfold valuesAt rootsOf
  rw [List.filter_map, List.flatMap_map]
  -- the two tests differ in how equality is decided
  apply congrArg (List.flatMap _)
  apply List.filter_congr
  intro e _
  exact decide_eq_decide.mpr Iff.rfl

/-- Building fails on the empty list only, and the inner compaction never does.
What is built lists each tenant once, in order, with its roots compacted; so the
first entry of a tenant is all there is of it. Building what was built changes
nothing, and entries with the same coverage build the same roots. -/
theorem tenant_scope_roots_normal (entries : List TenantScopedRoots) :
    ((∃ e, new entries = .error e) ↔ entries = []) ∧
      (∃ compacted, compactEntries (byTenant entries) = .ok compacted) ∧
      (∀ r, new entries = .ok r →
        Ascending (r.entries.map TenantScopedRoots.tenant) ∧
        (∀ t, t ∈ r.entries.map TenantScopedRoots.tenant ↔
          t ∈ entries.map TenantScopedRoots.tenant) ∧
        (∀ e ∈ r.entries, e.roots.roots ≠ [] ∧
          e.roots.roots = compactPaths (rootsOf entries e.tenant)) ∧
        (∀ t p, r.allowsPath t p = true ↔
          ∃ e ∈ entries, e.tenant = t ∧ ∃ root ∈ e.roots.roots, root.allows p = true) ∧
        new r.entries = .ok r) ∧
      ∀ entries', (∀ t p, CoversIn entries t p ↔ CoversIn entries' t p) →
        new entries = new entries' := by
  refine ⟨?_, compactEntries_of_ne_nil (byTenant_ne_nil entries), ?_, ?_⟩
  · constructor
    · rintro ⟨e, he⟩
      by_contra hne
      rcases new_of_ne_nil hne with ⟨r, hr⟩
      rw [hr] at he
      cases he
    · rintro rfl
      exact ⟨_, rfl⟩
  · intro r hr
    obtain ⟨_, htenants, hroots⟩ := new_spec hr
    refine ⟨r.ascending, ?_, ?_, ?_, new_entries r⟩
    · intro t
      rw [htenants, mem_collect]
    · intro e he
      refine ⟨e.roots.nonempty, ?_⟩
      rw [hroots e he, valuesAt_pair]
    · intro t p
      have hlookup : r.allowsPath t p = true ↔ CoversIn r.entries t p :=
        allowsIn_iff r.ascending t p
      rw [hlookup, covers_new hr]
      rfl
  · intro entries' h
    exact new_eq_of_covers h

/-- Two entries of one tenant, of which one has the roots of both. -/
theorem tenant_scope_roots_normal_sample :
    new [⟨Sample.shop, Sample.storeRoots⟩, ⟨Sample.shop, Sample.regionRoots⟩] =
      new [⟨Sample.shop, Sample.regionRoots⟩] := by
  apply (tenant_scope_roots_normal _).2.2.2
  intro t p
  have hstore : Sample.storeRoots.Covers p → Sample.regionRoots.Covers p := by
    rintro ⟨root, hroot, hallow⟩
    rw [List.mem_singleton.mp hroot] at hallow
    exact ⟨Sample.region, List.mem_singleton_self _,
      ScopePath.allows_covering.trans (by decide) hallow⟩
  simp only [CoversIn, List.exists_mem_cons_iff, List.not_mem_nil, false_and, exists_false,
    or_false]
  tauto

end TenantScopeRoots

/-! ## The scope of a tenant-data query -/

namespace TenantDataAccessScope

section Cases

variable {scopes : List PlatformGrantScope}

/-- Tenants are listed if some scope is a tenant set. -/
theorem tenantList_ne_nil :
    scopes.flatMap PlatformGrantScope.tenantList ≠ [] ↔
      ∃ set, PlatformGrantScope.tenants set ∈ scopes := by
  rw [flatMap_tenantList]
  constructor
  · rintro ⟨g, hg, htenants⟩
    cases g with
    | tenants set => exact ⟨set, hg⟩
    | _ => exact absurd htenants id
  · rintro ⟨set, hset⟩
    exact ⟨_, hset, trivial⟩

/-- Entries are listed if some scope has roots of tenants. -/
theorem entryList_ne_nil :
    scopes.flatMap PlatformGrantScope.entryList ≠ [] ↔
      ∃ r, PlatformGrantScope.tenantPaths r ∈ scopes := by
  rw [flatMap_entryList]
  constructor
  · rintro ⟨g, hg, hpaths⟩
    cases g with
    | tenantPaths r => exact ⟨r, hg⟩
    | _ => exact absurd hpaths id
  · rintro ⟨r, hr⟩
    exact ⟨_, hr, trivial⟩

theorem mem_joined_tenants (t : TenantId) :
    t ∈ scopes.flatMap PlatformGrantScope.tenantList ↔
      ∃ set, PlatformGrantScope.tenants set ∈ scopes ∧ t ∈ set.tenants := by
  rw [List.mem_flatMap]
  constructor
  · rintro ⟨g, hg, ht⟩
    cases g with
    | tenants set => exact ⟨set, hg, ht⟩
    | _ => exact absurd ht List.not_mem_nil
  · rintro ⟨set, hset, ht⟩
    exact ⟨_, hset, ht⟩

theorem mem_joined_entries (e : TenantScopedRoots) :
    e ∈ scopes.flatMap PlatformGrantScope.entryList ↔
      ∃ r, PlatformGrantScope.tenantPaths r ∈ scopes ∧ e ∈ r.entries := by
  rw [List.mem_flatMap]
  constructor
  · rintro ⟨g, hg, he⟩
    cases g with
    | tenantPaths r => exact ⟨r, hg, he⟩
    | _ => exact absurd he List.not_mem_nil
  · rintro ⟨r, hr, he⟩
    exact ⟨_, hr, he⟩

/-- What merging makes of grants of which none is for all tenants. -/
inductive Merged (scopes : List PlatformGrantScope) : Except Error TenantDataAccessScope → Prop
  | mixed (e : Error) (htenants : ∃ set, PlatformGrantScope.tenants set ∈ scopes)
      (hpaths : ∃ r, PlatformGrantScope.tenantPaths r ∈ scopes) : Merged scopes (.error e)
  | tenants (htenants : ∃ set, PlatformGrantScope.tenants set ∈ scopes)
      (hpaths : ¬ ∃ r, PlatformGrantScope.tenantPaths r ∈ scopes) :
      Merged scopes (.ok (.tenants (collect (scopes.flatMap PlatformGrantScope.tenantList))))
  | tenantPaths (r : TenantScopeRoots)
      (htenants : ¬ ∃ set, PlatformGrantScope.tenants set ∈ scopes)
      (hpaths : ∃ r, PlatformGrantScope.tenantPaths r ∈ scopes)
      (hnew : TenantScopeRoots.new (scopes.flatMap PlatformGrantScope.entryList) = .ok r) :
      Merged scopes (.ok (.tenantPaths r.entries))
  | none (htenants : ¬ ∃ set, PlatformGrantScope.tenants set ∈ scopes)
      (hpaths : ¬ ∃ r, PlatformGrantScope.tenantPaths r ∈ scopes) : Merged scopes (.ok .none)

theorem merged (hall : PlatformGrantScope.allTenants ∉ scopes) : Merged scopes (merge scopes) := by
  have htenants : scopes.flatMap PlatformGrantScope.tenantList = [] →
      ¬ ∃ set, PlatformGrantScope.tenants set ∈ scopes := by
    intro hnil
    rw [← tenantList_ne_nil, not_not]
    exact hnil
  have hpaths : scopes.flatMap PlatformGrantScope.entryList = [] →
      ¬ ∃ r, PlatformGrantScope.tenantPaths r ∈ scopes := by
    intro hnil
    rw [← entryList_ne_nil, not_not]
    exact hnil
  have hfinished := finished (scopes.flatMap PlatformGrantScope.tenantList)
    (scopes.flatMap PlatformGrantScope.entryList)
  rw [merge_eq, if_neg hall]
  generalize finish (scopes.flatMap PlatformGrantScope.tenantList)
    (scopes.flatMap PlatformGrantScope.entryList) = res at hfinished
  cases hfinished with
  | mixed ht hp => exact .mixed _ (tenantList_ne_nil.mp ht) (entryList_ne_nil.mp hp)
  | tenants set hnil hnew =>
    obtain ⟨hne, hset⟩ := TenantSet.new_eq_ok.mp hnew
    rw [← hset]
    exact .tenants (tenantList_ne_nil.mp hne) (hpaths hnil)
  | tenantPaths r hnil hnew =>
    exact .tenantPaths r (htenants hnil)
      (entryList_ne_nil.mp (TenantScopeRoots.new_spec hnew).1) hnew
  | none hnil hnil' => exact .none (htenants hnil) (hpaths hnil')

/-- Without tenants, paths and a grant for all tenants, only the platform's own
scope is left. -/
theorem forall_platform_iff (hall : PlatformGrantScope.allTenants ∉ scopes) :
    (∀ g ∈ scopes, g = .platform) ↔ (¬ ∃ set, PlatformGrantScope.tenants set ∈ scopes) ∧
      ¬ ∃ r, PlatformGrantScope.tenantPaths r ∈ scopes := by
  constructor
  · intro h
    refine ⟨fun ⟨set, hset⟩ => ?_, fun ⟨r, hr⟩ => ?_⟩
    · cases h _ hset
    · cases h _ hr
  · rintro ⟨htenants, hpaths⟩ g hg
    cases g with
    | platform => rfl
    | allTenants => exact absurd hg hall
    | tenants set => exact absurd ⟨set, hg⟩ htenants
    | tenantPaths r => exact absurd ⟨r, hg⟩ hpaths

/-- The joined tenants come out exactly when there are some, and no paths. -/
theorem merge_eq_tenants (hall : PlatformGrantScope.allTenants ∉ scopes) (ts : List TenantId) :
    merge scopes = .ok (.tenants ts) ↔
      (∃ set, PlatformGrantScope.tenants set ∈ scopes) ∧
      (¬ ∃ r, PlatformGrantScope.tenantPaths r ∈ scopes) ∧ Ascending ts ∧
      ∀ t, t ∈ ts ↔ ∃ set, PlatformGrantScope.tenants set ∈ scopes ∧ t ∈ set.tenants := by
  have hmerged := merged hall
  constructor
  · intro h
    rw [h] at hmerged
    cases hmerged with
    | tenants htenants hpaths =>
      refine ⟨htenants, hpaths, collect_ascending _, fun t => ?_⟩
      rw [mem_collect, mem_joined_tenants]
  · rintro ⟨htenants, hpaths, hascending, hmem⟩
    generalize merge scopes = res at hmerged
    cases hmerged with
    | mixed e _ hpaths' => exact absurd hpaths' hpaths
    | tenants _ _ =>
      have hts : collect (scopes.flatMap PlatformGrantScope.tenantList) = ts := by
        apply (collect_ascending _).eq_of_mem_iff hascending
        intro t
        rw [mem_collect, mem_joined_tenants, hmem]
      rw [hts]
    | tenantPaths r hno _ _ => exact absurd htenants hno
    | none hno _ => exact absurd htenants hno

/-- The joined roots come out exactly when there are some, and no tenants. -/
theorem merge_eq_tenantPaths (hall : PlatformGrantScope.allTenants ∉ scopes)
    (entries : List TenantScopedRoots) :
    merge scopes = .ok (.tenantPaths entries) ↔
      (¬ ∃ set, PlatformGrantScope.tenants set ∈ scopes) ∧
      (∃ r, PlatformGrantScope.tenantPaths r ∈ scopes) ∧
      Ascending (entries.map TenantScopedRoots.tenant) ∧
      (∀ t, t ∈ entries.map TenantScopedRoots.tenant ↔
        ∃ r, PlatformGrantScope.tenantPaths r ∈ scopes ∧ ∃ e ∈ r.entries, e.tenant = t) ∧
      ∀ e ∈ entries, e.roots.roots = compactPaths
        (TenantScopeRoots.rootsOf (scopes.flatMap PlatformGrantScope.entryList) e.tenant) := by
  have hlisted : ∀ t, t ∈ (scopes.flatMap PlatformGrantScope.entryList).map
      TenantScopedRoots.tenant ↔
        ∃ r, PlatformGrantScope.tenantPaths r ∈ scopes ∧ ∃ e ∈ r.entries, e.tenant = t := by
    intro t
    simp only [List.mem_map, mem_joined_entries]
    constructor
    · rintro ⟨e, ⟨r, hr, he⟩, htenant⟩
      exact ⟨r, hr, e, he, htenant⟩
    · rintro ⟨r, hr, e, he, htenant⟩
      exact ⟨e, ⟨r, hr, he⟩, htenant⟩
  have hmerged := merged hall
  constructor
  · intro h
    rw [h] at hmerged
    cases hmerged with
    | tenantPaths r htenants hpaths hnew =>
      obtain ⟨_, htenantsEq, hroots⟩ := TenantScopeRoots.new_spec hnew
      refine ⟨htenants, hpaths, r.ascending, fun t => ?_, fun e he => ?_⟩
      · rw [htenantsEq, mem_collect, hlisted]
      · rw [hroots e he, TenantScopeRoots.valuesAt_pair]
  · rintro ⟨htenants, hpaths, hascending, hmem, hroots⟩
    generalize merge scopes = res at hmerged
    cases hmerged with
    | mixed e hsome _ => exact absurd hsome htenants
    | tenants hsome _ => exact absurd hsome htenants
    | tenantPaths r _ _ hnew =>
      -- both lists are in normal form, with the same tenants and the same roots
      obtain ⟨_, htenantsEq, hroots'⟩ := TenantScopeRoots.new_spec hnew
      have hne : entries ≠ [] := by
        rintro rfl
        rcases hpaths with ⟨r', hr'⟩
        rcases List.exists_mem_of_ne_nil r'.entries r'.nonempty with ⟨e, he⟩
        exact absurd ((hmem e.tenant).mpr ⟨r', hr', e, he, rfl⟩) List.not_mem_nil
      have hsame : r = ⟨entries, hne, hascending⟩ := by
        apply TenantScopeRoots.eq_of_spec
        · apply r.ascending.eq_of_mem_iff hascending
          intro t
          rw [htenantsEq, mem_collect, hlisted, hmem]
        · intro e he e' he' htenant
          rw [hroots' e he, hroots e' he', htenant, TenantScopeRoots.valuesAt_pair]
      rw [hsame]
    | none _ hno => exact absurd hpaths hno

/-- Without a grant for all tenants, the merge fails exactly on tenants next to
paths. -/
theorem merge_eq_error (hall : PlatformGrantScope.allTenants ∉ scopes) :
    (∃ e, merge scopes = .error e) ↔ (∃ set, PlatformGrantScope.tenants set ∈ scopes) ∧
      ∃ r, PlatformGrantScope.tenantPaths r ∈ scopes := by
  have hmerged := merged hall
  constructor
  · rintro ⟨e, he⟩
    rw [he] at hmerged
    cases hmerged with
    | mixed _ htenants hpaths => exact ⟨htenants, hpaths⟩
  · rintro ⟨htenants, hpaths⟩
    generalize merge scopes = res at hmerged
    cases hmerged with
    | mixed e _ _ => exact ⟨e, rfl⟩
    | tenants _ hno => exact absurd hpaths hno
    | tenantPaths r hno _ _ => exact absurd htenants hno
    | none hno _ => exact absurd htenants hno

/-- Only platform grants merge to nothing. -/
theorem merge_eq_none (hall : PlatformGrantScope.allTenants ∉ scopes) :
    merge scopes = .ok .none ↔ ∀ g ∈ scopes, g = .platform := by
  have hmerged := merged hall
  rw [forall_platform_iff hall]
  constructor
  · intro h
    rw [h] at hmerged
    cases hmerged with
    | none htenants hpaths => exact ⟨htenants, hpaths⟩
  · rintro ⟨htenants, hpaths⟩
    generalize merge scopes = res at hmerged
    cases hmerged with
    | mixed e hsome _ => exact absurd hsome htenants
    | tenants hsome _ => exact absurd hsome htenants
    | tenantPaths r _ hsome _ => exact absurd hsome hpaths
    | none _ _ => rfl

end Cases

/-- Merging is a union that says when it cannot be taken. One grant for all
tenants is enough for all tenants; otherwise tenant sets and tenant paths
conflict, and without a conflict the union comes out in normal form. It depends
only on which scopes other than the platform's own occur, and allows what some
grant covers. -/
theorem tenant_data_merge_union (scopes : List PlatformGrantScope) :
    (merge scopes = .ok .allTenants ↔ PlatformGrantScope.allTenants ∈ scopes) ∧
      (PlatformGrantScope.allTenants ∉ scopes →
        ((∃ e, merge scopes = .error e) ↔
          (∃ set, PlatformGrantScope.tenants set ∈ scopes) ∧
          ∃ r, PlatformGrantScope.tenantPaths r ∈ scopes) ∧
        (merge scopes = .ok .none ↔ ∀ g ∈ scopes, g = .platform) ∧
        (∀ ts, merge scopes = .ok (.tenants ts) ↔
          (∃ set, PlatformGrantScope.tenants set ∈ scopes) ∧
          (¬ ∃ r, PlatformGrantScope.tenantPaths r ∈ scopes) ∧ Ascending ts ∧
          ∀ t, t ∈ ts ↔ ∃ set, PlatformGrantScope.tenants set ∈ scopes ∧ t ∈ set.tenants) ∧
        ∀ entries, merge scopes = .ok (.tenantPaths entries) ↔
          (¬ ∃ set, PlatformGrantScope.tenants set ∈ scopes) ∧
          (∃ r, PlatformGrantScope.tenantPaths r ∈ scopes) ∧
          Ascending (entries.map TenantScopedRoots.tenant) ∧
          (∀ t, t ∈ entries.map TenantScopedRoots.tenant ↔
            ∃ r, PlatformGrantScope.tenantPaths r ∈ scopes ∧ ∃ e ∈ r.entries, e.tenant = t) ∧
          ∀ e ∈ entries, e.roots.roots = compactPaths (TenantScopeRoots.rootsOf
            (scopes.flatMap PlatformGrantScope.entryList) e.tenant)) ∧
      (∀ scopes', (∀ g, g ≠ .platform → (g ∈ scopes' ↔ g ∈ scopes)) →
        merge scopes' = merge scopes) ∧
      ∀ s, merge scopes = .ok s →
        (∀ t, s.allowsTenant t = true ↔ ∃ g ∈ scopes, g.CoversTenant t) ∧
        (∀ t p, s.allowsPath t p = true ↔ ∃ g ∈ scopes, g.CoversPath t p) ∧
        (∀ t p, s.allowsTenant t = true → s.allowsPath t p = true) ∧
        ∀ entries t, s = .tenantPaths entries → s.allowsTenant t = false := by
  refine ⟨?_, fun hall => ⟨merge_eq_error hall, merge_eq_none hall, merge_eq_tenants hall,
    merge_eq_tenantPaths hall⟩, ?_, ?_⟩
  · constructor
    · intro h
      -- without such a grant the merge is one of the four forms, and none is for all tenants
      by_contra hall
      have hmerged := merged hall
      rw [h] at hmerged
      cases hmerged
    · intro h
      rw [merge_eq, if_pos h]
  · intro scopes' h
    exact merge_congr h
  · intro s hs
    obtain ⟨htenant, hpath⟩ := allows_merge (fun _ => Iff.rfl) hs
    refine ⟨htenant, hpath, ?_, ?_⟩
    · intro t p h
      cases s with
      | none => cases h
      | allTenants => rfl
      | tenants ts => exact h
      | tenantPaths entries => cases h
    · rintro entries t rfl
      rfl

/-- A set of tenants and the platform's own scope. -/
theorem tenant_data_merge_union_sample :
    merge [.platform, .tenants ⟨[Sample.shop], by simp, List.pairwise_singleton _ _⟩] =
      .ok (.tenants [Sample.shop]) := by
  apply (((tenant_data_merge_union _).2.1 (by simp)).2.2.1 _).mpr
  refine ⟨⟨_, List.mem_cons_of_mem _ (List.mem_singleton_self _)⟩, by simp,
    List.pairwise_singleton _ _, fun t => ?_⟩
  simp

end TenantDataAccessScope

end RsTenant
