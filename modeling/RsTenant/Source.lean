import RsTenant.Lib.Prog
import RsTenant.Scope

/-! # Authorization data and the operations of the tenant engine

What the engine asks its surroundings for: five reads of the authorization
source, and the calls of the `Cache` trait. The engine is a program over these
operations; a source and a cache are what answers them.
-/

namespace RsTenant

open Interact

/-! ## Requests and decisions -/

/-- A principal acts within one tenant. -/
@[ext] structure AuthSubject where
  tenant : TenantId
  principal : PrincipalId
deriving DecidableEq

/-- In which scope may the subject use the permission? -/
structure ScopeQuery where
  subject : AuthSubject
  permission : Permission

/-- May the subject use it in the whole tenant? -/
structure TenantAccessRequest where
  subject : AuthSubject
  permission : Permission

/-- May it be used below the target? -/
structure ScopedAccessRequest where
  subject : AuthSubject
  permission : Permission
  target : ScopePath

/-- What a check comes to. -/
inductive AccessDecision where
  | allow | deny
deriving DecidableEq, Repr

/-- The first gate that an access has not passed. -/
inductive DenyReason where
  | tenantInactive
  | principalInactive
  | permissionMissing
  | targetScopeRequired
  | scopeDenied
deriving DecidableEq, Repr

/-- A decision with its reason and the scope it was made in. -/
structure AccessExplanation where
  decision : AccessDecision
  reason : Option DenyReason
  scope : AccessScope
deriving DecidableEq

/-! ## Authorization data -/

/-- Whether anything is allowed in the tenant. -/
inductive TenantStatus where
  | active | inactive
deriving DecidableEq, Repr

/-- Whether the principal is an active member of the tenant. -/
inductive MembershipStatus where
  | active | inactive
deriving DecidableEq, Repr

/-- A role assigned with an explicit scope; tenant and platform assignments
differ in the types only. -/
structure Assignment (R S : Type) where
  role : R
  scope : S
deriving DecidableEq

/-- A role in a tenant, with the scope it is assigned for. -/
abbrev RoleAssignment : Type := Assignment RoleId GrantScope

/-- A permission read from a role, with the scope of the assignment that led to
the role. -/
structure ScopedGrant (R S : Type) where
  role : R
  permission : Permission
  scope : S
deriving DecidableEq

/-- The permission of the grant covers the required one. -/
def ScopedGrant.matchesPermission {R S : Type} (grant : ScopedGrant R S) (required : Permission)
    (wildcard : Bool) : Bool :=
  grant.permission.matches required wildcard

/-- A grant inside a tenant; lists of these are what is cached. -/
abbrev EffectiveGrant : Type := ScopedGrant RoleId GrantScope

/-! ## The source -/

/-- The reads of the `AuthorizationSource` trait. -/
inductive SourceRead where
  | tenantStatus (tenant : TenantId)
  | membershipStatus (subject : AuthSubject)
  | roleAssignments (subject : AuthSubject)
  | rolePermissions (tenant : TenantId) (role : RoleId)
  | parentRoles (tenant : TenantId) (role : RoleId)
deriving DecidableEq

/-- What a successful read returns. -/
abbrev SourceRead.Answer : SourceRead → Type
  | .tenantStatus _ => TenantStatus
  | .membershipStatus _ => MembershipStatus
  | .roleAssignments _ => List RoleAssignment
  | .rolePermissions _ _ => List Permission
  | .parentRoles _ _ => List RoleId

/-- The tenant a read is about. -/
def SourceRead.tenant : SourceRead → TenantId
  | .tenantStatus t => t
  | .membershipStatus s => s.tenant
  | .roleAssignments s => s.tenant
  | .rolePermissions t _ => t
  | .parentRoles t _ => t

/-- A source whose answers do not change while it is looked at; every read may
fail. -/
structure AuthorizationSource where
  tenantStatus : TenantId → Except SourceError TenantStatus
  membershipStatus : AuthSubject → Except SourceError MembershipStatus
  roleAssignments : AuthSubject → Except SourceError (List RoleAssignment)
  rolePermissions : TenantId → RoleId → Except SourceError (List Permission)
  parentRoles : TenantId → RoleId → Except SourceError (List RoleId)

/-- Such a source as an answer to every read. -/
def AuthorizationSource.answer (src : AuthorizationSource) :
    (r : SourceRead) → Except SourceError r.Answer
  | .tenantStatus t => src.tenantStatus t
  | .membershipStatus s => src.membershipStatus s
  | .roleAssignments s => src.roleAssignments s
  | .rolePermissions t r => src.rolePermissions t r
  | .parentRoles t r => src.parentRoles t r

/-- The stored authorization data of a source whose reads succeed. -/
structure Facts where
  tenantStatus : TenantId → TenantStatus
  membershipStatus : AuthSubject → MembershipStatus
  roleAssignments : AuthSubject → List RoleAssignment
  rolePermissions : TenantId → RoleId → List Permission
  parentRoles : TenantId → RoleId → List RoleId

/-- The source that answers every read from stored data. -/
def Facts.source (facts : Facts) : AuthorizationSource where
  tenantStatus t := .ok (facts.tenantStatus t)
  membershipStatus s := .ok (facts.membershipStatus s)
  roleAssignments s := .ok (facts.roleAssignments s)
  rolePermissions t r := .ok (facts.rolePermissions t r)
  parentRoles t r := .ok (facts.parentRoles t r)

/-! ## The engine's operations -/

/-- A source read, or a call of the `Cache` trait. -/
inductive EngineOp where
  | read (r : SourceRead)
  | getEffectiveGrants (tenant : TenantId) (principal : PrincipalId) (configSignature : Str)
  | setEffectiveGrants (tenant : TenantId) (principal : PrincipalId) (configSignature : Str)
      (grants : List EffectiveGrant)
  | invalidatePrincipal (tenant : TenantId) (principal : PrincipalId)
  | invalidateRole (tenant : TenantId) (role : RoleId)
  | invalidateTenant (tenant : TenantId)
  | invalidateAll

abbrev EngineOp.Resp : EngineOp → Type
  | .read r => Except SourceError r.Answer
  | .getEffectiveGrants _ _ _ => Option (List EffectiveGrant)
  | .setEffectiveGrants _ _ _ _ => Unit
  | .invalidatePrincipal _ _ => Unit
  | .invalidateRole _ _ => Unit
  | .invalidateTenant _ => Unit
  | .invalidateAll => Unit

/-- The operation writes grants into the cache. -/
def EngineOp.IsSet : EngineOp → Prop
  | .setEffectiveGrants _ _ _ _ => True
  | _ => False

/-- The tenant engine reads, and talks to its cache. -/
abbrev EngineSig : Sig where
  Op := EngineOp
  Resp := EngineOp.Resp

/-- Read the source; a source error ends the call. -/
def readSource (r : SourceRead) : Fallible EngineSig Error r.Answer :=
  ExceptT.mk (Prog.call (S := EngineSig) (.read r) fun a => .ret (a.mapError Error.source))

/-- A cache that answers lookups from `lookup`. -/
abbrev Lookup : Type := TenantId → PrincipalId → Str → Option (List EffectiveGrant)

/-- The answers of a source next to a cache that answers lookups from
`lookup`. -/
def answers (src : AuthorizationSource) (lookup : Lookup) : (op : EngineSig.Op) → EngineSig.Resp op
  | .read r => src.answer r
  | .getEffectiveGrants t p sig => lookup t p sig
  | .setEffectiveGrants _ _ _ _ => ()
  | .invalidatePrincipal _ _ => ()
  | .invalidateRole _ _ => ()
  | .invalidateTenant _ => ()
  | .invalidateAll => ()

/-- `NoCache` never has an entry. -/
def NoCache : Lookup := fun _ _ _ => none

end RsTenant
