import RsTenant.Moments
import RsTenant.PlatformMoments

/-! # What a query looks at

Of all the roles there are, a query looks only at those that the roles assigned
to its subject stand for. So changes to all others make no difference
(`platform_others_invisible`, and `others_invisible` in `OneWayRuns.lean`).
-/

namespace RsTenant

open Interact

/-! ## Roles within a set -/

section Within

variable {S : Sig} {Role Sc : Type}

/-- Reading the parents of a role in the set finds only roles in it. -/
structure ReadsWithin (reads : RoleReads S Role) (A : (op : S.Op) → S.Resp op → Prop)
    (G : S.Op → Prop) (Within : Role → Prop) : Prop where
  parentRoles : ∀ r, reads.enableRoleHierarchy = true → Within r →
    (reads.hierarchy.parentRoles r).run.Triple A G
      (Fallible.OnOk fun parents => ∀ p ∈ parents, Within p)
  rolePermissions : ∀ r, Within r →
    (reads.rolePermissions r).run.Triple A G (Fallible.OnOk fun _ => True)

/-- The roles that are listed, and those still to come, are in the set. -/
structure StaysWithin (Within : Role → Prop) (st : Expansion Role) : Prop where
  output : ∀ r ∈ st.output, Within r
  stack : ∀ f ∈ st.stack, ∀ p ∈ f.iter, Within p

variable [DecidableEq Role] {reads : RoleReads S Role}
  {A : (op : S.Op) → S.Resp op → Prop} {G : S.Op → Prop} {Within : Role → Prop}
  (hreads : ReadsWithin reads A G Within)
include hreads

/-- The loop reads parents of listed roles only, so it stays in the set. -/
theorem triple_expandLoop_within (hon : reads.enableRoleHierarchy = true) (st : Expansion Role)
    (hst : StaysWithin Within st) :
    (expandLoop reads.hierarchy st).run.Triple A G
      (Fallible.OnOk fun st' => StaysWithin Within st') := by
  -- the cases are the branches of the loop; the two refusals end it in an error
  induction st using expandLoop.induct reads.hierarchy with
  | case1 st hnil =>
    rw [expandLoop_done hnil]
    exact hst
  | case2 st current depth parent iter stack hcons hdeep =>
    rw [expandLoop_parent hcons, if_pos hdeep]
    trivial
  | case3 st current depth parent iter stack hcons hdeep hvisiting =>
    rw [expandLoop_parent hcons, if_neg hdeep, if_pos hvisiting]
    trivial
  | case4 st current depth parent iter stack hcons hdeep hvisiting hvisited ih =>
    rw [expandLoop_parent hcons, if_neg hdeep, if_neg hvisiting, if_pos hvisited]
    refine ih ⟨hst.output, fun f hf p hp => ?_⟩
    rcases List.mem_cons.mp hf with rfl | hf
    · exact hst.stack _ (hcons ▸ List.mem_cons_self) p (List.mem_cons_of_mem _ hp)
    · exact hst.stack f (hcons ▸ List.mem_cons_of_mem _ hf) p hp
  | case5 st current depth parent iter stack hcons hdeep hvisiting hvisited ih =>
    rw [expandLoop_parent hcons, if_neg hdeep, if_neg hvisiting, if_neg hvisited]
    have hparent : Within parent :=
      hst.stack _ (hcons ▸ List.mem_cons_self) parent List.mem_cons_self
    apply Fallible.triple_ok_bind (hreads.parentRoles parent hon hparent)
    intro parents hparents
    refine ih parents ⟨fun r hr => ?_, fun f hf p hp => ?_⟩
    · rcases List.mem_append.mp hr with hr | hr
      · exact hst.output r hr
      · exact List.mem_singleton.mp hr ▸ hparent
    · rcases List.mem_cons.mp hf with rfl | hf
      · exact hparents p hp
      · rcases List.mem_cons.mp hf with rfl | hf
        · exact hst.stack _ (hcons ▸ List.mem_cons_self) p (List.mem_cons_of_mem _ hp)
        · exact hst.stack f (hcons ▸ List.mem_cons_of_mem _ hf) p hp
  | case6 st current depth stack hcons ih =>
    rw [expandLoop_pop hcons]
    exact ih ⟨hst.output, fun f hf => hst.stack f (hcons ▸ List.mem_cons_of_mem _ hf)⟩

/-- What a role of the set stands for is in the set. -/
theorem triple_rolesOf_within {role : Role} (hrole : Within role) :
    (reads.rolesOf role).run.Triple A G (Fallible.OnOk fun roles => ∀ r ∈ roles, Within r) := by
  have hsingle : ∀ r ∈ [role], Within r := fun r hr => List.mem_singleton.mp hr ▸ hrole
  unfold RoleReads.rolesOf
  split
  · rename_i hon
    unfold expandRoles expandFrom
    rw [bind_assoc]
    apply Fallible.triple_ok_bind (hreads.parentRoles role hon hrole)
    intro parents hparents
    have hstart : StaysWithin Within
        ⟨[⟨role, 0, parents⟩], ∅, insert role ∅, [] ++ [role]⟩ :=
      ⟨hsingle, fun f hf => List.mem_singleton.mp hf ▸ hparents⟩
    apply Fallible.triple_ok_bind (triple_expandLoop_within hreads hon _ hstart)
    intro st hst
    exact hst.output
  · exact hsingle

omit [DecidableEq Role] in
/-- The permissions are read of the listed roles only. -/
theorem triple_roleGrants_within (scope : Sc) {roles : List Role} (hroles : ∀ r ∈ roles, Within r)
    (grants : List (ScopedGrant Role Sc)) :
    (reads.roleGrants scope roles grants).run.Triple A G (Fallible.OnOk fun _ => True) := by
  induction roles generalizing grants with
  | nil => trivial
  | cons role roles ih =>
    rw [List.forall_mem_cons] at hroles
    apply Fallible.triple_ok_bind (hreads.rolePermissions role hroles.1)
    intro permissions _
    exact ih hroles.2 _

/-- Only roles in the set are looked at, if the assigned ones are in it. -/
theorem triple_assignmentGrants_within {assignments : List (Assignment Role Sc)}
    (hassignments : ∀ a ∈ assignments, Within a.role) (grants : List (ScopedGrant Role Sc)) :
    (reads.assignmentGrants assignments grants).run.Triple A G (Fallible.OnOk fun _ => True) := by
  induction assignments generalizing grants with
  | nil => trivial
  | cons a assignments ih =>
    rw [List.forall_mem_cons] at hassignments
    apply Fallible.triple_ok_bind (triple_rolesOf_within hreads hassignments.1)
    intro roles hroles
    apply Fallible.triple_ok_bind (triple_roleGrants_within hreads a.scope hroles grants)
    intro grants' _
    exact ih hassignments.2 grants'

end Within

/-! ## The roles of a subject -/

/-- Some assigned role stands for `r`. -/
def Datum.Held {Role Sc : Type} (enableRoleHierarchy : Bool) (data : Set (Datum Role Sc))
    (r : Role) : Prop :=
  ∃ a, .assigned a ∈ data ∧ Datum.Reaches enableRoleHierarchy data a.role r

namespace Datum

variable {Role Sc : Type} {on : Bool} {data data' : Set (Datum Role Sc)}

/-- Every assigned role is held. -/
theorem Held.of_assigned {a : Assignment Role Sc} (h : .assigned a ∈ data) : Held on data a.role := by
  refine ⟨a, h, ?_⟩
  unfold Reaches
  split
  · exact .refl
  · rfl

/-- With the hierarchy on, the parents of a role that is held are held. -/
theorem Held.parent (hon : on = true) {r p : Role} (hr : Held on data r)
    (hp : .parent r p ∈ data) : Held on data p := by
  obtain ⟨a, ha, hreach⟩ := hr
  subst hon
  exact ⟨a, ha, Relation.ReflTransGen.tail hreach hp⟩

/-- The same roles are held when the assignments are the same, and so are the
parents of the roles that are held. -/
theorem Held.of_agree {r : Role} (hr : Held on data r)
    (hassigned : ∀ a, .assigned a ∈ data → .assigned a ∈ data')
    (hparents : on = true → ∀ v, Held on data v → Held on data' v → ∀ w,
      .parent v w ∈ data → .parent v w ∈ data') :
    Held on data' r := by
  obtain ⟨a, ha, hreach⟩ := hr
  have ha' := hassigned a ha
  unfold Reaches at hreach
  split at hreach
  · rename_i hon
    -- along the walk every role is held in both
    have hwalk : Held on data r ∧ Held on data' r := by
      induction hreach with
      | refl => exact ⟨.of_assigned ha, .of_assigned ha'⟩
      | tail _ hedge ih =>
        have hedge' := hparents hon _ ih.1 ih.2 _ hedge
        exact ⟨ih.1.parent hon hedge, ih.2.parent hon hedge'⟩
    exact hwalk.2
  · rw [hreach]
    exact .of_assigned ha'

end Datum

/-! ## The tenant engine -/

/-- What a query of the subject may read, for all it can see in the source. -/
def AuthorizationSource.Footprint (src : AuthorizationSource) (engine : Engine)
    (subject : AuthSubject) : SourceRead → Prop
  | .tenantStatus t => t = subject.tenant
  | .membershipStatus s => s = subject
  | .roleAssignments s => s = subject
  | .parentRoles t r => t = subject.tenant ∧ engine.config.enableRoleHierarchy = true ∧
    Datum.Held engine.config.enableRoleHierarchy (src.data subject) r
  | .rolePermissions t r => t = subject.tenant ∧
    Datum.Held engine.config.enableRoleHierarchy (src.data subject) r

/-- The other source answers the same to all of that. -/
def AuthorizationSource.Alike (engine : Engine) (subject : AuthSubject)
    (src src' : AuthorizationSource) : Prop :=
  ∀ r, src.Footprint engine subject r → src.answer r = src'.answer r

section Alike

variable {engine : Engine} {subject : AuthSubject} {src src' src'' : AuthorizationSource}

/-- All of it concerns the subject. -/
theorem AuthorizationSource.Footprint.concerns {r : SourceRead}
    (h : src.Footprint engine subject r) : r.Concerns subject := by
  cases r with
  | parentRoles t role => exact h.1
  | rolePermissions t role => exact h.1
  | _ => exact h

/-- The assignments of the subject in the data are those that are read. -/
theorem mem_data_assigned_congr (h : src.roleAssignments subject = src'.roleAssignments subject)
    (a : RoleAssignment) : .assigned a ∈ src.data subject ↔ .assigned a ∈ src'.data subject := by
  show (∃ as, src.roleAssignments subject = .ok as ∧ a ∈ as) ↔ _
  rw [h]
  exact Iff.rfl

/-- The parents in the data are those that are read. -/
theorem mem_data_parent_congr {v : RoleId}
    (h : src.parentRoles subject.tenant v = src'.parentRoles subject.tenant v) (w : RoleId) :
    .parent v w ∈ src.data subject ↔ .parent v w ∈ src'.data subject := by
  show (∃ ps, src.parentRoles subject.tenant v = .ok ps ∧ w ∈ ps) ↔ _
  rw [h]
  exact Iff.rfl

namespace AuthorizationSource.Alike

/-- The subject holds the same roles in both. -/
theorem held_iff (h : src.Alike engine subject src') (r : RoleId) :
    Datum.Held engine.config.enableRoleHierarchy (src.data subject) r ↔
      Datum.Held engine.config.enableRoleHierarchy (src'.data subject) r := by
  have hassigned := mem_data_assigned_congr (h (.roleAssignments subject) rfl)
  constructor
  · intro hr
    refine hr.of_agree (fun a => (hassigned a).mp) fun hon v hv _ w => ?_
    exact (mem_data_parent_congr (h (.parentRoles subject.tenant v) ⟨rfl, hon, hv⟩) w).mp
  · intro hr
    refine hr.of_agree (fun a => (hassigned a).mpr) fun hon v _ hv w => ?_
    exact (mem_data_parent_congr (h (.parentRoles subject.tenant v) ⟨rfl, hon, hv⟩) w).mpr

/-- So both have the same footprint. -/
theorem footprint (h : src.Alike engine subject src') {r : SourceRead}
    (hr : src.Footprint engine subject r) : src'.Footprint engine subject r := by
  cases r with
  | parentRoles t role => exact ⟨hr.1, hr.2.1, (h.held_iff role).mp hr.2.2⟩
  | rolePermissions t role => exact ⟨hr.1, (h.held_iff role).mp hr.2⟩
  | _ => exact hr

/-- Changes that make no difference one by one make none together. -/
theorem trans (h : src.Alike engine subject src') (h' : src'.Alike engine subject src'') :
    src.Alike engine subject src'' :=
  fun r hr => (h r hr).trans (h' r (h.footprint hr))

end AuthorizationSource.Alike

end Alike

/-! ### One query -/

/-- Whatever is read satisfies `P`. -/
def EngineOp.Looks (P : SourceRead → Prop) : EngineOp → Prop
  | .read r => P r
  | _ => True

/-- The same for a step of the cache and the source. -/
def WorldOp.Looks (P : SourceRead → Prop) : WorldOp → Prop
  | .read r => P r
  | _ => True

/-- A read among the steps satisfies it. -/
theorem WorldOp.Looks.of_read {P : SourceRead → Prop} {ev : Event WorldSig}
    (h : WorldOp.Looks P ev.op) {r : SourceRead} {a : Except SourceError r.Answer}
    (hevent : ev = ⟨.read r, a⟩) : P r := by
  subst hevent
  exact h

section Query

variable {engine : Engine} {subject : AuthSubject} {src : AuthorizationSource}

/-- A read that was answered from the source. -/
theorem triple_readFrom {r : SourceRead} (hgrant : r.IsGrantRead)
    (hr : src.Footprint engine subject r) {P : r.Answer → Prop}
    (hP : ∀ a, src.answer r = .ok a → P a) :
    (readSource r).run.Triple (ReadFrom src subject)
      (EngineOp.Looks (src.Footprint engine subject)) (Fallible.OnOk P) := by
  refine ⟨hr, fun a ha => ?_⟩
  show Fallible.OnOk P (a.mapError Error.source)
  cases hres : a with
  | ok v => exact hP v ((ha hgrant hr.concerns).symm.trans hres)
  | error e => trivial

/-- The roles that the subject holds lead to no others. -/
theorem readsWithin_held :
    ReadsWithin (engine.roleReads subject.tenant) (ReadFrom src subject)
      (EngineOp.Looks (src.Footprint engine subject))
      (Datum.Held engine.config.enableRoleHierarchy (src.data subject)) where
  parentRoles r hon hr := triple_readFrom (r := .parentRoles subject.tenant r) trivial
    ⟨rfl, hon, hr⟩ fun _ hparents p hp =>
      hr.parent hon ((mem_data_parent hparents p).mp hp)
  rolePermissions r hr := triple_readFrom (r := .rolePermissions subject.tenant r) trivial
    ⟨rfl, hr⟩ fun _ _ => trivial

/-- Computing the grants reads the assignments, and then the roles that are held. -/
theorem footprint_computeGrants :
    (engine.computeGrants subject).run.Triple (ReadFrom src subject)
      (EngineOp.Looks (src.Footprint engine subject)) (Fallible.OnOk fun _ => True) := by
  have hassignments : (readSource (.roleAssignments subject)).run.Triple (ReadFrom src subject)
      (EngineOp.Looks (src.Footprint engine subject))
      (Fallible.OnOk fun as => ∀ a ∈ as, .assigned a ∈ src.data subject) :=
    triple_readFrom (r := .roleAssignments subject) trivial rfl fun as has a ha =>
      (mem_data_assigned has a).mp ha
  apply Fallible.triple_ok_bind hassignments
  intro as has
  exact triple_assignmentGrants_within readsWithin_held (fun a ha => .of_assigned (has a ha)) []

/-- A whole query reads within the footprint of its subject. -/
theorem footprint_serve (request : Request) :
    (engine.serve request).run.Triple (ReadFrom src request.subject)
      (EngineOp.Looks (src.Footprint engine request.subject)) fun _ => True := by
  rw [engine.serve_eq, map_eq_pure_bind]
  refine Fallible.triple_bind (P := fun _ => True) ?_ (fun _ _ => trivial) fun _ h => h
  apply resolveScope_cases fun {α} x => x.run.Triple (ReadFrom src request.subject)
    (EngineOp.Looks (src.Footprint engine request.subject)) fun _ => True
  · intro α a
    trivial
  · intro α r k hr hstatus hk
    have hfootprint : src.Footprint engine request.subject r := by
      cases r with
      | tenantStatus t => exact hr
      | membershipStatus s => exact hr
      | _ => exact absurd trivial hstatus
    have hread : (readSource r).run.Triple (ReadFrom src request.subject)
        (EngineOp.Looks (src.Footprint engine request.subject)) fun _ => True :=
      ⟨hfootprint, fun _ _ => trivial⟩
    exact Fallible.triple_bind hread (fun a _ => hk a) fun _ h => h
  · refine Fallible.triple_bind (P := fun _ => True) ?_ (fun _ _ => trivial) fun _ h => h
    refine Fallible.triple_bind (P := fun _ => True) ⟨trivial, fun _ _ => trivial⟩ ?_ fun _ h => h
    intro cached _
    cases cached with
    | some grants => trivial
    | none =>
      refine Fallible.triple_bind (P := fun _ => True)
        (footprint_computeGrants.weaken fun _ _ => trivial) ?_ fun _ h => h
      intro grants _
      exact ⟨trivial, fun _ _ => trivial⟩

variable [DefaultHasher] {cache : MemoryCache} {ttl : Option Duration}

/-- The cache reads nothing from the source. -/
theorem looks_lower {P : SourceRead → Prop} {op : EngineSig.Op} (hop : EngineOp.Looks P op) :
    ((cache.cloneWith ttl).lower op).Triple (GrantsReadFrom src subject) (WorldOp.Looks P)
      (ReadFrom src subject op) := by
  have heach : ∀ (act : Section) (shards : List ℕ),
      (MemoryCache.eachShard act shards).Triple (GrantsReadFrom src subject) (WorldOp.Looks P)
        fun _ => True := by
    intro act shards
    have hsteps : (MemoryCache.eachShard act shards).Only (WorldOp.Looks P) :=
      MemoryCache.eachShard_only fun _ _ => trivial
    exact hsteps.triple
  cases op with
  | read r => exact ⟨hop, fun a ha => ha r a rfl⟩
  | getEffectiveGrants t p sig =>
    exact ((cache.cloneWith ttl).getEffectiveGrants_only ⟨t, p, sig⟩ trivial
      (fun _ => trivial) fun _ => trivial).triple
  | setEffectiveGrants t p sig grants =>
    exact ((cache.cloneWith ttl).setEffectiveGrants_only ⟨t, p, sig⟩ grants trivial
      fun _ _ => trivial).triple
  | _ => exact heach _ _

/-- So a query that runs over the cache reads within the footprint, too. -/
theorem footprint_query (request : Request) :
    (Party.prog cache (.query ttl engine request)).Triple (GrantsReadFrom src request.subject)
      (WorldOp.Looks (src.Footprint engine request.subject)) fun _ => True :=
  Prog.Triple.bind (Prog.Triple.subst (fun _ hop => looks_lower hop) (footprint_serve request))
    fun _ _ => trivial

/-! So only the reads that a query may make have to be answered from the source. -/

/-- A query returns the uncached result if the reads in its footprint are reliable. -/
theorem triple_query_within (request : Request) :
    (Party.prog cache (.query ttl engine request)).Triple
      (fun op r => WorldOp.Looks (src.Footprint engine request.subject) op →
        Reliable cache engine src request.subject op r) (fun _ => True)
      (fun out => out = .result (engine.uncached src request)) := by
  have hlooks : (Party.prog cache (.query ttl engine request)).Triple
      (Reliable cache engine src request.subject) _ _ :=
    (footprint_query request).mono
      (fun _ _ h read a hevent _ hconcerns => h.1 read a hevent hconcerns)
      (fun _ h => h) fun _ h => h
  exact ((triple_query request).and hlooks).confined.mono (fun _ _ h hop => h hop.2)
    (fun _ _ => trivial) fun _ h => h.1

/-- What it fills in is fresh if they are answered from the source. -/
theorem triple_query_fills_within (request : Request) :
    (Party.prog cache (.query ttl engine request)).Triple
      (fun op r => WorldOp.Looks (src.Footprint engine request.subject) op →
        GrantsReadFrom src request.subject op r)
      (fun step : WorldOp => ∀ key e, step.Writes cache key e →
        engine.fresh src request.subject = .ok e.grants) fun _ => True :=
  ((triple_query_fills request).and (footprint_query request)).confined.mono
    (fun _ _ h hop => h hop.2) (fun _ h => h.1) fun _ _ => trivial

end Query

/-! ## The platform engine -/

/-- What a query of the principal may read, for all it can see in the source. -/
def PlatformAuthorizationSource.Footprint (src : PlatformAuthorizationSource)
    (engine : PlatformEngine) (subject : PlatformSubject) : PlatformRead → Prop
  | .platformPrincipalStatus s => s = subject
  | .platformRoleAssignments s => s = subject
  | .platformParentRoles r => engine.config.enableRoleHierarchy = true ∧
    Datum.Held engine.config.enableRoleHierarchy (src.data subject) r
  | .platformRolePermissions r =>
    Datum.Held engine.config.enableRoleHierarchy (src.data subject) r

/-- The other source answers the same to all of that. -/
def PlatformAuthorizationSource.Alike (engine : PlatformEngine) (subject : PlatformSubject)
    (src src' : PlatformAuthorizationSource) : Prop :=
  ∀ r, src.Footprint engine subject r → src.answer r = src'.answer r

section PlatformAlike

variable {engine : PlatformEngine} {subject : PlatformSubject}
  {src src' src'' : PlatformAuthorizationSource}

/-- Sources that list the same assignments have the same data of that kind. -/
theorem mem_platformData_assigned_congr
    (h : src.platformRoleAssignments subject = src'.platformRoleAssignments subject)
    (a : PlatformRoleAssignment) :
    .assigned a ∈ src.data subject ↔ .assigned a ∈ src'.data subject := by
  show (∃ as, src.platformRoleAssignments subject = .ok as ∧ a ∈ as) ↔ _
  rw [h]
  exact Iff.rfl

/-- Sources that list the same parents have the same data of that kind. -/
theorem mem_platformData_parent_congr {v : PlatformRoleId}
    (h : src.platformParentRoles v = src'.platformParentRoles v) (w : PlatformRoleId) :
    .parent v w ∈ src.data subject ↔ .parent v w ∈ src'.data subject := by
  show (∃ ps, src.platformParentRoles v = .ok ps ∧ w ∈ ps) ↔ _
  rw [h]
  exact Iff.rfl

namespace PlatformAuthorizationSource.Alike

/-- The principal holds the same roles in both. -/
theorem held_iff (h : src.Alike engine subject src') (r : PlatformRoleId) :
    Datum.Held engine.config.enableRoleHierarchy (src.data subject) r ↔
      Datum.Held engine.config.enableRoleHierarchy (src'.data subject) r := by
  have hassigned := mem_platformData_assigned_congr (h (.platformRoleAssignments subject) rfl)
  constructor
  · intro hr
    refine hr.of_agree (fun a => (hassigned a).mp) fun hon v hv _ w => ?_
    exact (mem_platformData_parent_congr (h (.platformParentRoles v) ⟨hon, hv⟩) w).mp
  · intro hr
    refine hr.of_agree (fun a => (hassigned a).mpr) fun hon v _ hv w => ?_
    exact (mem_platformData_parent_congr (h (.platformParentRoles v) ⟨hon, hv⟩) w).mpr

/-- The same for changes of the platform source. -/
theorem trans (h : src.Alike engine subject src') (h' : src'.Alike engine subject src'') :
    src.Alike engine subject src'' := by
  intro r hr
  refine (h r hr).trans (h' r ?_)
  cases r with
  | platformParentRoles role => exact ⟨hr.1, (h.held_iff role).mp hr.2⟩
  | platformRolePermissions role => exact (h.held_iff role).mp hr
  | _ => exact hr

end PlatformAuthorizationSource.Alike

/-- A read of the footprint is answered from the source. -/
theorem triple_readPlatform_within {r : PlatformRead} (hr : src.Footprint engine subject r)
    {P : r.Answer → Prop} (hP : ∀ a, src.answer r = .ok a → P a) :
    (readPlatform r).run.Triple (fun op r => r = src.answer op) (src.Footprint engine subject)
      (Fallible.OnOk P) := by
  refine ⟨hr, ?_⟩
  rintro a rfl
  show Fallible.OnOk P ((src.answer r).mapError Error.source)
  cases hres : src.answer r with
  | ok v => exact hP v hres
  | error e => trivial

/-- The roles that the principal holds lead to no others. -/
theorem platformReadsWithin_held :
    ReadsWithin engine.roleReads (fun op r => r = src.answer op) (src.Footprint engine subject)
      (Datum.Held engine.config.enableRoleHierarchy (src.data subject)) where
  parentRoles r hon hr := triple_readPlatform_within (r := .platformParentRoles r) ⟨hon, hr⟩
    fun _ hparents p hp => hr.parent hon ((mem_platformData_parent hparents p).mp hp)
  rolePermissions r hr := triple_readPlatform_within (r := .platformRolePermissions r) hr
    fun _ _ => trivial

/-- A platform query reads within the footprint of its principal. -/
theorem footprint_platformServe (request : PlatformRequest) :
    (engine.serve request).run.Triple (fun op r => r = src.answer op)
      (src.Footprint engine request.subject) fun _ => True := by
  rw [engine.serve_eq]
  refine Fallible.triple_bind (P := fun _ => True) ?_ (fun _ _ => trivial) fun _ h => h
  have hassignments : (readPlatform (.platformRoleAssignments request.subject)).run.Triple
      (fun op r => r = src.answer op) (src.Footprint engine request.subject)
      (Fallible.OnOk fun as => ∀ a ∈ as, .assigned a ∈ src.data request.subject) :=
    triple_readPlatform_within (r := .platformRoleAssignments request.subject) rfl
      fun as has a ha => (mem_platformData_assigned has a).mp ha
  have hstatus : (readPlatform (.platformPrincipalStatus request.subject)).run.Triple
      (fun op r => r = src.answer op) (src.Footprint engine request.subject)
      (Fallible.OnOk fun _ => True) :=
    triple_readPlatform_within (r := .platformPrincipalStatus request.subject) rfl
      fun _ _ => trivial
  refine Prog.Triple.weaken (Fallible.triple_ok_bind (Q := fun _ => True) hstatus ?_)
    fun _ _ => trivial
  intro status _
  cases status with
  | inactive => trivial
  | active =>
    refine Fallible.triple_ok_bind (P := fun _ => True) ?_ fun _ _ => trivial
    refine Fallible.triple_ok_bind hassignments fun as has => ?_
    exact triple_assignmentGrants_within platformReadsWithin_held
      (fun a ha => .of_assigned (has a ha)) []

end PlatformAlike

/-- Only a party that changes the data does so. -/
theorem party_of_platformChange {src : PlatformAuthorizationSource} {parties : ℕ → PlatformParty}
    {sched : List ℕ} {o : Occ PlatformWorldSig PlatformAuthorizationSource}
    (ho : o ∈ (platformAfter src parties sched).hist)
    {change : PlatformAuthorizationSource → PlatformAuthorizationSource}
    (hop : o.event.op = .inr change) : parties o.thread = .mutate change := by
  have hpath := (platformAfter_history src parties sched).2 o.thread
  have hmem : o.event ∈ trail o.thread (platformAfter src parties sched).hist :=
    mem_trail.mpr ⟨o, ho, rfl, rfl⟩
  cases hparty : parties o.thread with
  | ask engine request =>
    rw [hparty] at hpath
    obtain ⟨tr, q, -, htrail, -⟩ := Prog.Path.of_left hpath
    rw [htrail] at hmem
    obtain ⟨ev, -, hev⟩ := List.mem_map.mp hmem
    rw [← hev] at hop
    cases hop
  | mutate change' =>
    rw [hparty] at hpath
    have honly : (PlatformParty.mutate change').prog.Only
        fun op : PlatformWorldSig.Op => op = .inr change' :=
      ⟨rfl, fun _ => trivial⟩
    have hchange := (hpath.only honly).1 _ hmem
    rw [Sum.inr.inj (hop.symm.trans hchange)]

/-- As for the tenant's source (`source_rel`). -/
theorem platformSource_rel
    {T : PlatformAuthorizationSource → PlatformAuthorizationSource → Prop}
    (hrefl : ∀ src, T src src) (htrans : ∀ src src₁ src', T src src₁ → T src₁ src' → T src src')
    {src : PlatformAuthorizationSource} {parties : ℕ → PlatformParty} {sched : List ℕ}
    (hchange : ∀ o ∈ (platformAfter src parties sched).hist, ∀ change,
      o.event.op = .inr change → T o.pre (change o.pre)) :
    ∀ o ∈ (platformAfter src parties sched).hist, T src o.pre := by
  intro o ho
  refine ((platformAfter_history src parties sched).1.rel hrefl htrans ?_ o ho).1
  rintro ⟨k, pre, ⟨op, resp⟩⟩ ho'
  cases op with
  | inl r => exact hrefl pre
  | inr change => exact hchange _ ho' change rfl

/-- Over every interleaving of platform queries and changes of the platform
source: when no change is one that a query of the principal could see, it
returns what it would against the source at the start, errors included. The
roles that the principal does not hold and other principals' data make no
difference. -/
theorem platform_others_invisible (src : PlatformAuthorizationSource) (parties : ℕ → PlatformParty)
    (sched : List ℕ) (i : ℕ) (engine : PlatformEngine) (request : PlatformRequest)
    (hi : parties i = .ask engine request)
    (hquiet : ∀ o ∈ (platformAfter src parties sched).hist, ∀ change,
      o.event.op = .inr change → o.pre.Alike engine request.subject (change o.pre))
    (res : Except Error PlatformReply)
    (hret : (platformAfter src parties sched).threads i = .ret (some res)) :
    res = (engine.serve request).run.eval src.answer := by
  obtain ⟨tr, htrail, hserve⟩ := path_of_asked hi hret
  have heval : (engine.serve request).run.Triple (fun op r => r = src.answer op) _
      (fun out => out = (engine.serve request).run.eval src.answer) :=
    (only_platformServe request).triple_eval fun _ _ _ h => h
  have htriple := (heval.and (footprint_platformServe request)).confined
  refine (htriple.path hserve fun ev hev hop => ?_).1.1
  -- the source at the read still looks the same
  obtain ⟨o, ho, -, -, hresp⟩ := answered_of_trail htrail hev
  have halike := platformSource_rel
    (T := fun src src' => src.Alike engine request.subject src')
    (fun _ _ _ => rfl) (fun _ _ _ h h' => h.trans h') hquiet o ho
  exact hresp.trans (halike ev.op hop.2).symm

namespace Sample

/-- Nobody but the support may do anything any more. -/
def purgePlatform (src : PlatformAuthorizationSource) : PlatformAuthorizationSource :=
  { src with
    platformRolePermissions := fun r =>
      if r = support then src.platformRolePermissions r else .ok [] }

def purging (k : ℕ) : PlatformParty :=
  if k = 1 then .mutate purgePlatform else .ask ⟨default⟩ (.canPlatform ⟨operator, read⟩)

theorem eq_support_of_held {src : PlatformAuthorizationSource}
    (h : src.platformRoleAssignments = platformFacts.source.platformRoleAssignments)
    {r : PlatformRoleId} (hr : Datum.Held false (src.data operator) r) : r = support := by
  obtain ⟨a, ⟨as, has, ha⟩, hreach⟩ := hr
  rw [h] at has
  rw [← Except.ok.inj has] at ha
  -- both assignments are of the one role
  have hrole : a.role = support := by
    rcases List.mem_cons.mp ha with rfl | ha
    · rfl
    · rw [List.mem_singleton.mp ha]
  exact hreach.trans hrole

theorem alike_purgePlatform {src : PlatformAuthorizationSource}
    (h : src.platformRoleAssignments = platformFacts.source.platformRoleAssignments) :
    src.Alike ⟨default⟩ operator (purgePlatform src) := by
  intro r hr
  cases r with
  | platformRolePermissions role => exact (if_pos (eq_support_of_held h hr)).symm
  | _ => rfl

theorem purging_change {sched : List ℕ} : ∀ o ∈ (platformAfter platformFacts.source purging
    sched).hist, ∀ change, o.event.op = .inr change → change = purgePlatform := by
  intro o ho change hop
  have hparty := party_of_platformChange ho hop
  unfold purging at hparty
  split at hparty
  · injection hparty with heq
    exact heq.symm
  · cases hparty

end Sample

theorem platform_others_invisible_sample :
    (.ok (.decision .allow) : Except Error PlatformReply) =
      ((⟨default⟩ : PlatformEngine).serve (.canPlatform ⟨Sample.operator, Sample.read⟩)).run.eval
        Sample.platformFacts.source.answer := by
  refine platform_others_invisible Sample.platformFacts.source Sample.purging [0, 0, 1, 0, 0] 0
    ⟨default⟩ (.canPlatform ⟨Sample.operator, Sample.read⟩) rfl ?_ _ rfl
  intro o ho change hop
  rw [Sample.purging_change o ho change hop]
  refine Sample.alike_purgePlatform (platformSource_rel
    (T := fun src src' => src'.platformRoleAssignments = src.platformRoleAssignments)
    (fun _ => rfl) (fun _ _ _ h h' => h'.trans h) ?_ o ho)
  intro o' ho' change' hop'
  rw [Sample.purging_change o' ho' change' hop']
  rfl

end RsTenant
