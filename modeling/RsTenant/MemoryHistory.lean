import RsTenant.Lib.History
import RsTenant.MemorySource
import RsTenant.Reference
import RsTenant.RoleData

/-! # Access by what was recorded

What the in-memory source answers is what was recorded with it (`Recorded`): the
status that was set last, the assignments in the order in which they were
added, and the permissions and parents that were added, each once and in any
order. So what an engine over it allows can be said without its maps and sets,
in terms of the calls alone (`memory_source_decides`).
-/

namespace RsTenant

open Interact Walk

open History (Runs written)

/-! ## What a call records -/

namespace SourceCall

/-- The status that the call gives the tenant. -/
def tenantStatus (tenant : TenantId) : SourceCall → Option TenantStatus
  | .setTenantStatus t status => if t = tenant then some status else none
  | _ => none

/-- The status that the call gives the subject. -/
def membershipStatus (subject : AuthSubject) : SourceCall → Option MembershipStatus
  | .setMembershipStatus t p status =>
    if t = subject.tenant ∧ p = subject.principal then some status else none
  | _ => none

/-- The assignment that the call adds to those of the subject. -/
def roleAssignment (subject : AuthSubject) : SourceCall → Option RoleAssignment
  | .addRoleAssignment t p role scope =>
    if t = subject.tenant ∧ p = subject.principal then some ⟨role, scope⟩ else none
  | _ => none

end SourceCall

/-- The elements of a set under two keys after one element was inserted there. -/
theorem mem_insert₂_iter {α β γ : Type} [DecidableEq α] [DecidableEq β]
    {m : HashMap α (HashMap β (HashSet γ))} {a a' : α} {b b' : β} {x y : γ} {s' : HashSet γ}
    (h : ((m.get₂ a b).getD .empty).Inserts x s') :
    y ∈ (((m.insert₂ a b s').get₂ a' b').map HashSet.iter).getD [] ↔
      y ∈ ((m.get₂ a' b').map HashSet.iter).getD [] ∨ (a' = a ∧ b' = b) ∧ y = x := by
  by_cases hkeys : a' = a ∧ b' = b
  · obtain ⟨rfl, rfl⟩ := hkeys
    rw [HashMap.get₂_insert₂_self]
    show y ∈ s'.iter ↔ _
    rw [h.mem_getD]
    simp
  · rw [HashMap.get₂_insert₂_ne _ _ hkeys]
    simp [hkeys]

namespace MemorySource

section Step

variable {src src' : MemorySource} {call : SourceCall}

/-- A step changes the status of the tenant it names, and no other. -/
theorem Step.tenantStatus (h : Step src call src') (tenant : TenantId) :
    src'.facts.tenantStatus tenant =
      (call.tenantStatus tenant).getD (src.facts.tenantStatus tenant) := by
  cases h with
  | setTenantStatus t status =>
    show ((src.tenants.insert t status).get tenant).getD .inactive =
      (if t = tenant then some status else none).getD _
    by_cases ht : t = tenant
    · subst ht
      rw [HashMap.get_insert_self, if_pos rfl]
      rfl
    · rw [HashMap.get_insert_ne _ _ (Ne.symm ht), if_neg ht]
      rfl
  | _ => rfl

/-- A step changes the membership it names, and no other. -/
theorem Step.membershipStatus (h : Step src call src') (subject : AuthSubject) :
    src'.facts.membershipStatus subject =
      (call.membershipStatus subject).getD (src.facts.membershipStatus subject) := by
  cases h with
  | setMembershipStatus t p status =>
    -- memberships are kept by tenant, and then by principal
    show ((src.memberships.insert₂ t p status).get₂ subject.tenant subject.principal).getD
        .inactive = (if t = subject.tenant ∧ p = subject.principal then some status else none).getD _
    by_cases hkeys : t = subject.tenant ∧ p = subject.principal
    · obtain ⟨rfl, rfl⟩ := hkeys
      rw [HashMap.get₂_insert₂_self, if_pos ⟨rfl, rfl⟩]
      rfl
    · rw [HashMap.get₂_insert₂_ne _ _ fun h => hkeys ⟨h.1.symm, h.2.symm⟩, if_neg hkeys]
      rfl
  | _ => rfl

/-- A step adds the assignment it names, for its subject. -/
theorem Step.roleAssignments (h : Step src call src') (subject : AuthSubject) :
    src'.facts.roleAssignments subject =
      src.facts.roleAssignments subject ++ (call.roleAssignment subject).toList := by
  cases h with
  | addRoleAssignment t p role scope =>
    show ((src.assignments.insert₂ t p _).get₂ subject.tenant subject.principal).getD [] =
      src.facts.roleAssignments subject ++
        (if t = subject.tenant ∧ p = subject.principal then some _ else none).toList
    by_cases hkeys : t = subject.tenant ∧ p = subject.principal
    · obtain ⟨rfl, rfl⟩ := hkeys
      rw [HashMap.get₂_insert₂_self, if_pos ⟨rfl, rfl⟩]
      rfl
    · rw [HashMap.get₂_insert₂_ne _ _ fun h => hkeys ⟨h.1.symm, h.2.symm⟩, if_neg hkeys,
        Option.toList_none, List.append_nil]
      rfl
  | _ => exact (List.append_nil _).symm

/-- A step adds the permission it names, in whatever order. -/
theorem Step.mem_rolePermissions (h : Step src call src') (tenant : TenantId) (role : RoleId)
    (permission : Permission) :
    permission ∈ src'.facts.rolePermissions tenant role ↔
      permission ∈ src.facts.rolePermissions tenant role ∨
        call = .addRolePermission tenant role permission := by
  cases h with
  | addRolePermission hinserts =>
    refine (mem_insert₂_iter hinserts).trans (or_congr Iff.rfl ?_)
    rw [SourceCall.addRolePermission.injEq, and_assoc]
    exact and_congr eq_comm (and_congr eq_comm eq_comm)
  | _ => exact ⟨.inl, fun h => h.resolve_right nofun⟩

/-- A step adds the parent it names, in whatever order. -/
theorem Step.mem_parentRoles (h : Step src call src') (tenant : TenantId) (role parent : RoleId) :
    parent ∈ src'.facts.parentRoles tenant role ↔
      parent ∈ src.facts.parentRoles tenant role ∨ call = .addParentRole tenant role parent := by
  cases h with
  | addParentRole hinserts =>
    refine (mem_insert₂_iter hinserts).trans (or_congr Iff.rfl ?_)
    rw [SourceCall.addParentRole.injEq, and_assoc]
    exact and_congr eq_comm (and_congr eq_comm eq_comm)
  | _ => exact ⟨.inl, fun h => h.resolve_right nofun⟩

end Step

theorem Steps.runs {src src' : MemorySource} {calls : List SourceCall}
    (h : Steps src calls src') : Runs Step src calls src' := by
  induction h with
  | nil src => exact .nil src
  | cons hstep _ ih => exact .cons hstep ih

end MemorySource

/-- The facts are what the calls record: statuses as they were set last, and
inactive if they never were; assignments in their order; sets in some order. -/
structure Recorded (calls : List SourceCall) (facts : Facts) : Prop where
  tenantStatus : ∀ t, facts.tenantStatus t = written (SourceCall.tenantStatus t) calls .inactive
  membershipStatus : ∀ s,
    facts.membershipStatus s = written (SourceCall.membershipStatus s) calls .inactive
  roleAssignments : ∀ s, facts.roleAssignments s = calls.filterMap (SourceCall.roleAssignment s)
  rolePermissions : ∀ t r, (facts.rolePermissions t r).Nodup ∧
    ∀ p, p ∈ facts.rolePermissions t r ↔ .addRolePermission t r p ∈ calls
  parentRoles : ∀ t r, (facts.parentRoles t r).Nodup ∧
    ∀ parent, parent ∈ facts.parentRoles t r ↔ .addParentRole t r parent ∈ calls

/-- Any sequence of calls on a new source, with its sets iterated in any order. -/
theorem MemorySource.Steps.recorded {calls : List SourceCall} {src : MemorySource}
    (h : MemorySource.Steps .new calls src) : Recorded calls src.facts := by
  have hruns := h.runs
  constructor
  · exact fun t => hruns.register fun _ _ _ hstep => hstep.tenantStatus t
  · exact fun s => hruns.register fun _ _ _ hstep => hstep.membershipStatus s
  · exact fun s => hruns.log fun _ _ _ hstep => hstep.roleAssignments s
  · intro t r
    refine ⟨HashSet.nodup_getD _, fun p => ?_⟩
    have hgrown := hruns.grown (fun _ _ _ hstep p => hstep.mem_rolePermissions t r p) p
    rw [hgrown]
    simp [MemorySource.facts, MemorySource.new, HashMap.get₂]
  · intro t r
    refine ⟨HashSet.nodup_getD _, fun parent => ?_⟩
    have hgrown := hruns.grown (fun _ _ _ hstep parent => hstep.mem_parentRoles t r parent) parent
    rw [hgrown]
    simp [MemorySource.facts, MemorySource.new, HashMap.get₂]

/-! ## What the calls grant -/

section Granted

variable {calls : List SourceCall} {facts : Facts}

/-- The calls have added the datum to those of the subject. -/
def Adds (calls : List SourceCall) (subject : AuthSubject) : Datum RoleId GrantScope → Prop
  | .assigned a => .addRoleAssignment subject.tenant subject.principal a.role a.scope ∈ calls
  | .parent role parent => .addParentRole subject.tenant role parent ∈ calls
  | .permission role p => .addRolePermission subject.tenant role p ∈ calls

/-- The data that the calls have added. -/
def addedData (calls : List SourceCall) (subject : AuthSubject) : Set (Datum RoleId GrantScope) :=
  {d | Adds calls subject d}

/-- By the calls, the subject has a role with this scope that, itself or by a role
it inherits from, has a permission that covers the required one. -/
def GrantedBy (calls : List SourceCall) (config : EngineConfig) (query : ScopeQuery)
    (scope : GrantScope) : Prop :=
  ∃ a, Datum.Matched config.enableRoleHierarchy (addedData calls query.subject)
    config.enableWildcard query.permission a ∧ a.scope = scope

/-- What is assigned has been added by a call. -/
theorem Recorded.mem_roleAssignments (h : Recorded calls facts) (subject : AuthSubject)
    (a : RoleAssignment) : a ∈ facts.roleAssignments subject ↔
      .addRoleAssignment subject.tenant subject.principal a.role a.scope ∈ calls := by
  rw [h.roleAssignments, List.mem_filterMap]
  constructor
  · rintro ⟨call, hcall, hadded⟩
    cases call with
    | addRoleAssignment t p role scope =>
      have hadded' : (if t = subject.tenant ∧ p = subject.principal then
          some (⟨role, scope⟩ : RoleAssignment) else none) = some a := hadded
      by_cases hkeys : t = subject.tenant ∧ p = subject.principal
      · rw [if_pos hkeys] at hadded'
        cases hadded'
        obtain ⟨rfl, rfl⟩ := hkeys
        exact hcall
      · rw [if_neg hkeys] at hadded'
        cases hadded'
    | _ => cases hadded
  · intro hcall
    exact ⟨_, hcall, if_pos ⟨rfl, rfl⟩⟩

theorem Recorded.facts_matched_iff (h : Recorded calls facts) (config : EngineConfig)
    (query : ScopeQuery) (a : RoleAssignment) :
    facts.Matched config query a ↔ Datum.Matched config.enableRoleHierarchy
      (addedData calls query.subject) config.enableWildcard query.permission a := by
  have hparents : ∀ r p, p ∈ (facts.roleFacts query.subject.tenant).parentRoles r ↔
      .parent r p ∈ addedData calls query.subject := fun r => (h.parentRoles _ r).2
  have hpermissions : ∀ r p, p ∈ (facts.roleFacts query.subject.tenant).rolePermissions r ↔
      .permission r p ∈ addedData calls query.subject := fun r => (h.rolePermissions _ r).2
  rw [← Datum.matched_iff hparents hpermissions]
  exact and_congr (h.mem_roleAssignments _ a) Iff.rfl

/-- The scopes of the matched assignments are those that the calls grant. -/
theorem Recorded.matched_iff (h : Recorded calls facts) (config : EngineConfig)
    (query : ScopeQuery) (scope : GrantScope) :
    (∃ a, facts.Matched config query a ∧ a.scope = scope) ↔ GrantedBy calls config query scope :=
  exists_congr fun a => and_congr (h.facts_matched_iff config query a) Iff.rfl

end Granted

/-! ## What the engine allows -/

section Allowed

variable {engine : Engine} {facts : Facts} {calls : List SourceCall}

/-- Without both statuses active a query replies as for no grants. -/
theorem uncached_eq_of_inactive (engine : Engine) {request : Request}
    (h : ¬ (facts.tenantStatus request.subject.tenant = .active ∧
      facts.membershipStatus request.subject = .active)) :
    ∃ reason, engine.uncached facts.source request = .ok (request.reply (.none, some reason)) := by
  unfold Engine.uncached
  rw [eval_serve, eval_resolveScope]
  show ∃ reason, Except.map _ (if facts.tenantStatus request.subject.tenant ≠ .active then _
    else if facts.membershipStatus request.subject ≠ .active then _ else _) = _
  by_cases htenant : facts.tenantStatus request.subject.tenant = .active
  · have hmember : facts.membershipStatus request.subject ≠ .active := fun hm => h ⟨htenant, hm⟩
    rw [if_neg (not_not.mpr htenant), if_pos hmember]
    exact ⟨.principalInactive, rfl⟩
  · rw [if_pos htenant]
    exact ⟨.tenantInactive, rfl⟩

/-- A check allows access if both statuses are active, every assigned role can be
expanded and a matched assignment has one of the scopes that are asked for. -/
theorem uncached_allows_iff (engine : Engine) (facts : Facts) (request : Request)
    (Asked : GrantScope → Prop)
    (hnone : ∀ reason, request.reply (.none, some reason) ≠ .decision .allow)
    (hfresh : ∀ grants, engine.fresh facts.source request.subject = .ok grants →
      (request.reply (engine.decide request.query grants) = .decision .allow ↔
        ∃ a, facts.Matched engine.config request.query a ∧ Asked a.scope)) :
    engine.uncached facts.source request = .ok (.decision .allow) ↔
      facts.tenantStatus request.subject.tenant = .active ∧
      facts.membershipStatus request.subject = .active ∧
      (∀ a ∈ facts.roleAssignments request.subject, Expandable engine.config.enableRoleHierarchy
        engine.config.maxRoleDepth (facts.parentRoles request.subject.tenant) a.role) ∧
      ∃ a, facts.Matched engine.config request.query a ∧ Asked a.scope := by
  by_cases hactive : facts.tenantStatus request.subject.tenant = .active ∧
      facts.membershipStatus request.subject = .active
  · rw [uncached_active (congrArg Except.ok hactive.1) (congrArg Except.ok hactive.2),
      ← fresh_ok_iff]
    cases hgrants : engine.fresh facts.source request.subject with
    | error e =>
      -- no grants, no access: some assigned role could not be expanded
      constructor
      · nofun
      · rintro ⟨-, -, ⟨grants, hok⟩, -⟩
        cases hok
    | ok grants =>
      show Except.ok _ = Except.ok _ ↔ _
      rw [Except.ok.injEq, hfresh grants hgrants]
      exact ⟨fun h => ⟨hactive.1, hactive.2, ⟨grants, rfl⟩, h⟩, fun h => h.2.2.2⟩
  · obtain ⟨reason, hreply⟩ := uncached_eq_of_inactive engine hactive
    rw [hreply, Except.ok.injEq]
    exact ⟨fun h => absurd h (hnone reason), fun h => absurd ⟨h.1, h.2.1⟩ hactive⟩

/-- The statuses that the calls set last are active, and every role that they
assign to the subject can be expanded. That depends on the order in which the
parents are listed as well: the depth of a role is that of the first walk to it. -/
def Admitted (calls : List SourceCall) (config : EngineConfig)
    (parents : RoleId → List RoleId) (subject : AuthSubject) : Prop :=
  written (SourceCall.tenantStatus subject.tenant) calls .inactive = .active ∧
    written (SourceCall.membershipStatus subject) calls .inactive = .active ∧
    ∀ role scope, .addRoleAssignment subject.tenant subject.principal role scope ∈ calls →
      Expandable config.enableRoleHierarchy config.maxRoleDepth parents role

/-- What decides a check, in terms of the calls. -/
theorem Recorded.allows_iff (h : Recorded calls facts) (query : ScopeQuery)
    (Asked : GrantScope → Prop) :
    (facts.tenantStatus query.subject.tenant = .active ∧
      facts.membershipStatus query.subject = .active ∧
      (∀ a ∈ facts.roleAssignments query.subject, Expandable engine.config.enableRoleHierarchy
        engine.config.maxRoleDepth (facts.parentRoles query.subject.tenant) a.role) ∧
      ∃ a, facts.Matched engine.config query a ∧ Asked a.scope) ↔
    Admitted calls engine.config (facts.parentRoles query.subject.tenant) query.subject ∧
      ∃ scope, GrantedBy calls engine.config query scope ∧ Asked scope := by
  have hroles : (∀ a ∈ facts.roleAssignments query.subject,
      Expandable engine.config.enableRoleHierarchy engine.config.maxRoleDepth
        (facts.parentRoles query.subject.tenant) a.role) ↔
      ∀ role scope,
        .addRoleAssignment query.subject.tenant query.subject.principal role scope ∈ calls →
        Expandable engine.config.enableRoleHierarchy engine.config.maxRoleDepth
          (facts.parentRoles query.subject.tenant) role := by
    constructor
    · intro hall role scope hcall
      exact hall ⟨role, scope⟩ ((h.mem_roleAssignments _ _).mpr hcall)
    · intro hall a ha
      exact hall a.role a.scope ((h.mem_roleAssignments _ a).mp ha)
  -- the matched assignments count by their scopes only
  have hgranted : (∃ a, facts.Matched engine.config query a ∧ Asked a.scope) ↔
      ∃ scope, GrantedBy calls engine.config query scope ∧ Asked scope := by
    constructor
    · rintro ⟨a, ha, hasked⟩
      exact ⟨a.scope, (h.matched_iff _ _ _).mp ⟨a, ha, rfl⟩, hasked⟩
    · rintro ⟨scope, hscope, hasked⟩
      obtain ⟨a, ha, rfl⟩ := (h.matched_iff _ _ _).mpr hscope
      exact ⟨a, ha, hasked⟩
  rw [hroles, hgranted, h.tenantStatus, h.membershipStatus]
  unfold Admitted
  rw [and_assoc, and_assoc]

end Allowed

/-- After any sequence of calls on a new source, whatever the order in which its
sets are iterated: the source answers what was recorded, and an engine over it
allows access to a target, or to the tenant, exactly when the subject is
admitted and the calls grant it a scope that covers the target, or the whole
tenant. -/
theorem memory_source_decides (calls : List SourceCall) (src : MemorySource)
    (h : MemorySource.Steps .new calls src) (engine : Engine) (query : ScopeQuery)
    (target : ScopePath) :
    let admitted := Admitted calls engine.config
      (src.facts.parentRoles query.subject.tenant) query.subject
    Recorded calls src.facts ∧
    (engine.uncached src.source (.canAccessScope ⟨query.subject, query.permission, target⟩) =
        .ok (.decision .allow) ↔
      admitted ∧ ∃ scope, GrantedBy calls engine.config query scope ∧ scope.Covers target) ∧
    (engine.uncached src.source (.canTenant ⟨query.subject, query.permission⟩) =
        .ok (.decision .allow) ↔
      admitted ∧ GrantedBy calls engine.config query .tenant) := by
  intro admitted
  have hrecorded := h.recorded
  refine ⟨hrecorded, ?_, ?_⟩
  · rw [← hrecorded.allows_iff query fun scope => scope.Covers target]
    refine uncached_allows_iff engine src.facts
      (.canAccessScope ⟨query.subject, query.permission, target⟩) (fun scope => scope.Covers target)
      (fun _ => nofun) fun grants hfresh => ?_
    show Reply.decision _ = _ ↔ _
    rw [Reply.decision.injEq]
    exact (explainPath_decide hfresh target).2.1
  · have htenant : GrantedBy calls engine.config query .tenant ↔
        ∃ scope, GrantedBy calls engine.config query scope ∧ scope = .tenant := by
      simp
    rw [htenant, ← hrecorded.allows_iff query fun scope => scope = .tenant]
    refine uncached_allows_iff engine src.facts (.canTenant ⟨query.subject, query.permission⟩)
      (fun scope => scope = .tenant) (fun _ => nofun) fun grants hfresh => ?_
    show Reply.decision _ = _ ↔ _
    rw [Reply.decision.injEq]
    exact (explainWholeTenant_decide hfresh).2.1

namespace Sample

/-- What the sample data takes to record. -/
def recording : List SourceCall :=
  [.setTenantStatus tenant .active, .setMembershipStatus tenant principal .active,
    .addRoleAssignment tenant principal clerk .tenant, .addRolePermission tenant clerk read]

/-- A set with one element. -/
def readable : HashSet Permission := ⟨[read], List.nodup_singleton read⟩

def recorded : MemorySource :=
  { (((MemorySource.new.setTenantStatus tenant .active).setMembershipStatus tenant principal
      .active).addRoleAssignment tenant principal clerk .tenant) with
    rolePermissions := HashMap.empty.insert₂ tenant clerk readable }

theorem recording_steps : MemorySource.Steps .new recording recorded :=
  .cons (.setTenantStatus _ _) (.cons (.setMembershipStatus _ _ _)
    (.cons (.addRoleAssignment _ _ _ _)
      (.cons (.addRolePermission (.inr ⟨List.not_mem_nil, .refl _⟩)) (.nil _))))

end Sample

theorem memory_source_decides_sample :
    (Engine.build default).uncached Sample.recorded.source
      (.canTenant ⟨Sample.subject, Sample.read⟩) = .ok (.decision .allow) := by
  refine (memory_source_decides Sample.recording Sample.recorded Sample.recording_steps
    (Engine.build default) Sample.query ⟨['x'], by decide⟩).2.2.mpr ⟨⟨rfl, rfl, ?_⟩, ?_⟩
  · intro role scope _ hon
    cases hon
  · exact ⟨⟨Sample.clerk, .tenant⟩, ⟨.tail _ (.tail _ (.head _)), Sample.clerk, rfl, Sample.read,
      .tail _ (.tail _ (.tail _ (.head _))), by decide⟩, rfl⟩

end RsTenant
