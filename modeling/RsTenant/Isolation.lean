import RsTenant.MemorySource
import RsTenant.Reference

/-! # Tenants are isolated

A query sees nothing of other tenants, and of its own tenant no membership and
no assignment but the subject's own (`tenant_isolation`). The statement
compares two runs: whatever else differs between two sources and two caches,
the query cannot tell.
-/

namespace RsTenant

open Interact

variable {engine : Engine}

/-- A merged scope names the tenant it was merged for, if any. -/
theorem tenant?_merge (tenant : TenantId) (grants : List GrantScope) :
    AccessScope.merge tenant grants = .none ∨
      (AccessScope.merge tenant grants).tenant? = some tenant := by
  rw [AccessScope.merge_eq]
  split
  · exact .inr rfl
  · split
    · exact .inl rfl
    · exact .inr rfl

/-- Whatever the source and the cache answer, a scope that a query returns
names the tenant of its subject. -/
theorem triple_names_tenant (request : Request) :
    (engine.serve request).run.Triple (fun _ _ => True) (fun _ => True) fun res =>
      ∀ reply, res = .ok reply →
        reply.dataScope = .none ∨ reply.dataScope.tenant? = some request.subject.tenant := by
  have hall : ∀ {α : Type} (x : Fallible EngineSig Error α),
      x.run.Triple (fun _ _ => True) (fun _ => True) fun _ => True := by
    intro α x
    induction x.run with
    | ret a => trivial
    | call op k ih => exact ⟨trivial, fun r _ => ih r⟩
  have hresolve : (engine.resolveScope request.query).run.Triple (fun _ _ => True)
      (fun _ => True) fun res => ∀ scope, res = .ok scope →
        scope.1 = .none ∨ scope.1.tenant? = some request.subject.tenant := by
    unfold Engine.resolveScope
    -- either status ends the query with no scope; else the scope is merged for the tenant
    refine Fallible.triple_bind (hall _) (fun tenantStatus _ => ?_) ?_
    · split
      · rintro scope ⟨rfl⟩
        exact .inl rfl
      · refine Fallible.triple_bind (hall _) (fun membershipStatus _ => ?_) ?_
        · split
          · rintro scope ⟨rfl⟩
            exact .inl rfl
          · refine Fallible.triple_bind (hall _) (fun grants _ => ?_) ?_
            · rintro scope ⟨rfl⟩
              exact tenant?_merge _ _
            · rintro e _ scope ⟨⟩
        · rintro e _ scope ⟨⟩
    · rintro e _ scope ⟨⟩
  rw [engine.serve_eq, map_eq_pure_bind]
  refine Fallible.triple_bind hresolve (fun scope hscope => ?_) ?_
  · have hnames := hscope scope rfl
    rintro reply ⟨rfl⟩
    -- the two checks return no scope at all
    cases request with
    | accessibleScope query => exact hnames
    | canAccessScope r => exact .inl rfl
    | canTenant r => exact .inl rfl
    | explainAccessScope r =>
      show (Engine.explainPath _ _ _).scope = .none ∨ _
      rw [show Reply.dataScope _ = (Engine.explainPath _ _ _).scope from rfl, explainPath_scope]
      exact hnames
    | explainTenant r =>
      rw [show Reply.dataScope _ = (Engine.explainWholeTenant _ _).scope from rfl,
        explainWholeTenant_scope]
      exact hnames
  · rintro e _ reply ⟨⟩

/-- A query depends on what concerns its subject only: two runs whose sources
agree on that and whose caches agree on the subject's entry return the same.
All it ever does is read what concerns the subject and get or set that entry,
and the scope it returns names the subject's tenant. For `MemorySource`: calls
about other tenants, and about the membership and the assignments of other
principals, change no result. -/
theorem tenant_isolation (engine : Engine) (request : Request)
    (src src' : AuthorizationSource) (lookup lookup' : Lookup)
    (hsource : src.Agree request.subject src')
    (hlookup : lookup request.subject.tenant request.subject.principal engine.configSignature =
      lookup' request.subject.tenant request.subject.principal engine.configSignature) :
    ((engine.serve request).run.eval (answers src lookup) =
      (engine.serve request).run.eval (answers src' lookup')) ∧
    (∀ tr rest, Prog.Path (engine.serve request).run tr rest →
      ∀ ev ∈ tr, EngineOp.Concerns request.subject engine.configSignature ev.op ∧
        ∀ r, ev.op = .read r → r.tenant = request.subject.tenant) ∧
    (∀ tr reply, Prog.Path (engine.serve request).run tr (.ret (.ok reply)) →
      reply.dataScope = .none ∨ reply.dataScope.tenant? = some request.subject.tenant) ∧
    ∀ (mem mem' : MemorySource) (calls : List SourceCall), mem.Steps calls mem' →
      (∀ call ∈ calls, call.Foreign request.subject) →
      (engine.serve request).run.eval (answers mem'.source lookup') =
        (engine.serve request).run.eval (answers mem.source lookup) := by
  -- the two runs see the same answers, call by call
  have htwo : ∀ {src src' : AuthorizationSource}, src.Agree request.subject src' →
      (engine.serve request).run.eval (answers src lookup) =
        (engine.serve request).run.eval (answers src' lookup') := by
    intro src src' hagree
    refine Prog.Only.eval_congr (only_serve request) fun op hop => ?_
    cases op with
    | read r => exact hagree r hop
    | getEffectiveGrants t p sig =>
      rcases hop with ⟨rfl, rfl, rfl⟩
      exact hlookup
    | setEffectiveGrants t p sig grants => rfl
    | _ => exact absurd hop id
  refine ⟨htwo hsource, ?_, ?_, ?_⟩
  · intro tr rest hpath ev hev
    have hop := (hpath.only (only_serve request)).1 ev hev
    refine ⟨hop, fun r hr => ?_⟩
    rw [hr] at hop
    exact SourceRead.Concerns.tenant_eq hop
  · intro tr reply hpath
    exact ((triple_names_tenant request).path hpath fun _ _ => trivial).1 reply rfl
  · intro mem mem' calls hsteps hforeign
    exact (htwo (hsteps.agree hforeign)).symm

namespace Sample

/-- Another tenant, with a role of the same name as the clerk's. -/
def neighbour : TenantId := ⟨['n'], by decide⟩

/-- The neighbour's clerks inherit from themselves. -/
def otherFacts : Facts :=
  { facts with parentRoles := fun t r => if t = neighbour then [r] else [] }

/-- The cache has an entry for the neighbour. -/
def otherLookup : Lookup := fun t _ _ => if t = neighbour then some [] else none

end Sample

theorem tenant_isolation_sample :
    (((Engine.build default).serve (.accessibleScope Sample.query)).run.eval
        (answers Sample.facts.source NoCache) =
      ((Engine.build default).serve (.accessibleScope Sample.query)).run.eval
        (answers Sample.otherFacts.source Sample.otherLookup)) ∧
    (((Engine.build default).serve (.accessibleScope Sample.query)).run.eval
        (answers (MemorySource.new.setTenantStatus Sample.neighbour .active).source
          Sample.otherLookup) =
      ((Engine.build default).serve (.accessibleScope Sample.query)).run.eval
        (answers MemorySource.new.source NoCache)) := by
  have hagree : Sample.facts.source.Agree Sample.subject Sample.otherFacts.source := by
    intro r hr
    cases r with
    | parentRoles tenant role =>
      obtain rfl : tenant = Sample.tenant := hr
      rfl
    | _ => rfl
  have h := tenant_isolation (Engine.build default) (.accessibleScope Sample.query)
    Sample.facts.source Sample.otherFacts.source NoCache Sample.otherLookup hagree rfl
  refine ⟨h.1, h.2.2.2 MemorySource.new _ [.setTenantStatus Sample.neighbour .active]
    (.cons (.setTenantStatus _ _) (.nil _)) ?_⟩
  intro call hcall
  rw [List.mem_singleton] at hcall
  subst hcall
  show Sample.neighbour ≠ Sample.tenant
  decide

end RsTenant
