import RsTenant.PlatformQueries
import RsTenant.RoleData

/-! # What a platform query saw

The platform engine has no cache, but its source too may change between two
reads of a query. Parties that ask and parties that change the data take turns
(`platformAfter`); `platform_bracket` says how every query ends: with the error
of a read or of an expansion, with nothing for a principal that it saw to be
inactive, or with an answer between what all the states that it saw grant and
what any of them does.
-/

namespace RsTenant

open Interact

/-! ## A source that changes -/

/-- Reads of the platform source, next to changes of its data. -/
abbrev PlatformWorldSig : Sig :=
  PlatformSig.sum ⟨PlatformAuthorizationSource → PlatformAuthorizationSource, fun _ => Unit⟩

def PlatformAuthorizationSource.handle : Handler PlatformWorldSig PlatformAuthorizationSource
  | .inl r, src => (src.answer r, src)
  | .inr change, src => ((), change src)

/-- Somebody asks, or changes the data. -/
inductive PlatformParty where
  | ask (engine : PlatformEngine) (request : PlatformRequest)
  | mutate (change : PlatformAuthorizationSource → PlatformAuthorizationSource)

def PlatformParty.prog : PlatformParty → Prog PlatformWorldSig (Option (Except Error PlatformReply))
  | .ask engine request => ((engine.serve request).run >>= fun res => .ret (some res)).left
  | .mutate change => .call (S := PlatformWorldSig) (.inr change) fun _ => .ret none

/-- The state after the parties have taken turns in the order of the schedule. -/
def platformAfter (src : PlatformAuthorizationSource) (parties : ℕ → PlatformParty)
    (sched : List ℕ) :
    Pool PlatformWorldSig PlatformAuthorizationSource (Option (Except Error PlatformReply)) :=
  Pool.run PlatformAuthorizationSource.handle
    { shared := src, threads := fun i => (parties i).prog, hist := [] } sched

/-! ## The data of a principal -/

/-- The source answers with the datum when it is asked about the subject. -/
def PlatformAuthorizationSource.Has (src : PlatformAuthorizationSource)
    (subject : PlatformSubject) : Datum PlatformRoleId PlatformGrantScope → Prop
  | .assigned a => ∃ as, src.platformRoleAssignments subject = .ok as ∧ a ∈ as
  | .parent r p => ∃ ps, src.platformParentRoles r = .ok ps ∧ p ∈ ps
  | .permission r p => ∃ ps, src.platformRolePermissions r = .ok ps ∧ p ∈ ps

def PlatformAuthorizationSource.data (src : PlatformAuthorizationSource)
    (subject : PlatformSubject) : Set (Datum PlatformRoleId PlatformGrantScope) :=
  {d | src.Has subject d}

/-- Some assignment that is matched in the data has the scope. -/
def PlatformGranted (config : PlatformEngineConfig) (required : Permission)
    (data : Set (Datum PlatformRoleId PlatformGrantScope)) (g : PlatformGrantScope) : Prop :=
  ∃ a, Datum.Matched config.enableRoleHierarchy data config.enableWildcard required a ∧ a.scope = g

/-! ## Answers in between -/

/-- What a check says, when what makes it succeed lies between `lo` and `hi`. -/
structure Checked (lo hi : Prop) (allowed : Prop) : Prop where
  complete : lo → allowed
  sound : allowed → hi

/-- Tenant-level and path-level grants conflict, however the grants lie between
`lo` and `hi`. -/
def Clashes (lo hi : PlatformGrantScope → Prop) : Prop :=
  ¬ hi .allTenants ∧ (∃ g, lo g ∧ g.IsTenants) ∧ ∃ g, lo g ∧ g.IsTenantPaths

/-- The answers to a query when the scopes that are granted lie between `lo` and
`hi`. -/
inductive PlatformBracketed (lo hi : PlatformGrantScope → Prop) :
    PlatformRequest → Except Error PlatformReply → Prop
  | canPlatform {request : PlatformAccessRequest} {d : AccessDecision}
      (checked : Checked (lo .platform) (hi .platform) (d = .allow)) :
      PlatformBracketed lo hi (.canPlatform request) (.ok (.decision d))
  | accessibleTenants {query : TenantDataScopeQuery} {s : TenantDataAccessScope}
      (agree : ¬ Clashes lo hi)
      (tenants : ∀ t, Checked (∃ g, lo g ∧ g.CoversTenant t) (∃ g, hi g ∧ g.CoversTenant t)
        (s.allowsTenant t = true))
      (paths : ∀ t p, Checked (∃ g, lo g ∧ g.CoversPath t p) (∃ g, hi g ∧ g.CoversPath t p)
        (s.allowsPath t p = true)) :
      PlatformBracketed lo hi (.accessibleTenants query) (.ok (.scope s))
  | canAccessTenant {request : TenantDataAccessRequest} {d : AccessDecision}
      (agree : ¬ Clashes lo hi)
      (checked : Checked (∃ g, lo g ∧ g.CoversTenant request.tenant)
        (∃ g, hi g ∧ g.CoversTenant request.tenant) (d = .allow)) :
      PlatformBracketed lo hi (.canAccessTenant request) (.ok (.decision d))
  | canAccessTenantScope {request : TenantScopedDataAccessRequest} {d : AccessDecision}
      (agree : ¬ Clashes lo hi)
      (checked : Checked (∃ g, lo g ∧ g.CoversPath request.tenant request.target)
        (∃ g, hi g ∧ g.CoversPath request.tenant request.target) (d = .allow)) :
      PlatformBracketed lo hi (.canAccessTenantScope request) (.ok (.decision d))
  | conflict {request : PlatformRequest} (notPlatform : ∀ r, request ≠ .canPlatform r)
      (possible : ¬ lo .allTenants ∧ (∃ g, hi g ∧ g.IsTenants) ∧ ∃ g, hi g ∧ g.IsTenantPaths) :
      PlatformBracketed lo hi request (.error
        (.invalidScope "tenant data scope must not mix tenant-level and path-level grants"))

section Reply

variable {lo hi : PlatformGrantScope → Prop} {scopes : List PlatformGrantScope}
  (hlo : ∀ g, lo g → g ∈ scopes) (hhi : ∀ g ∈ scopes, hi g)
include hlo hhi

/-- What a check finds among the scopes lies between what it finds in `lo` and
what it finds in `hi`. -/
theorem checked_of_scopes {P : PlatformGrantScope → Prop} {allowed : Prop}
    (h : allowed ↔ ∃ g, g ∈ scopes ∧ P g) :
    Checked (∃ g, lo g ∧ P g) (∃ g, hi g ∧ P g) allowed where
  complete := by
    rintro ⟨g, hg, hP⟩
    exact h.mpr ⟨g, hlo g hg, hP⟩
  sound hallowed := by
    obtain ⟨g, hg, hP⟩ := h.mp hallowed
    exact ⟨g, hhi g hg, hP⟩

/-- Scopes that can be merged do not clash. -/
theorem not_clashes_of_merge {s : TenantDataAccessScope}
    (hmerge : TenantDataAccessScope.merge scopes = .ok s) : ¬ Clashes lo hi := by
  rintro ⟨hall, ⟨g, hg, htenants⟩, ⟨g', hg', hpaths⟩⟩
  have hmixed : TenantDataAccessScope.Mixed (· ∈ scopes) :=
    ⟨fun hmem => hall (hhi _ hmem), ⟨g, hlo g hg, htenants⟩, ⟨g', hlo g' hg', hpaths⟩⟩
  rw [TenantDataAccessScope.merge_of_mixed (fun _ => Iff.rfl) hmixed] at hmerge
  cases hmerge

/-- `can_platform` looks for one scope, and merges none. -/
theorem platformBracketed_canPlatform (request : PlatformAccessRequest) :
    PlatformBracketed lo hi (.canPlatform request)
      ((PlatformRequest.canPlatform request).reply scopes) := by
  refine .canPlatform ?_
  rw [decision_eq_allow, decide_eq_true_eq]
  exact ⟨hlo _, hhi _⟩

/-- The reply to scopes in between lies in between. -/
theorem platformBracketed_reply (request : PlatformRequest) :
    PlatformBracketed lo hi request (request.reply scopes) := by
  cases hmerge : TenantDataAccessScope.merge scopes with
  | ok s =>
    obtain ⟨htenant, hpath⟩ := TenantDataAccessScope.allows_merge (fun _ => Iff.rfl) hmerge
    have hagree := not_clashes_of_merge hlo hhi hmerge
    cases request with
    | canPlatform request => exact platformBracketed_canPlatform hlo hhi request
    | accessibleTenants query =>
      simp only [PlatformRequest.reply, hmerge]
      exact .accessibleTenants hagree (fun t => checked_of_scopes hlo hhi (htenant t))
        fun t p => checked_of_scopes hlo hhi (hpath t p)
    | canAccessTenant request =>
      simp only [PlatformRequest.reply, hmerge]
      refine .canAccessTenant hagree ?_
      rw [decision_eq_allow]
      exact checked_of_scopes hlo hhi (htenant request.tenant)
    | canAccessTenantScope request =>
      simp only [PlatformRequest.reply, hmerge]
      refine .canAccessTenantScope hagree ?_
      rw [decision_eq_allow]
      exact checked_of_scopes hlo hhi (hpath request.tenant request.target)
  | error e =>
    cases hreply : request.reply scopes with
    | error e' =>
      -- the scopes are mixed, so both kinds may have been granted
      obtain ⟨hrequest, rfl, hall, ⟨g, hg, htenants⟩, ⟨g', hg', hpaths⟩⟩ :=
        PlatformRequest.reply_error hreply
      exact .conflict hrequest
        ⟨fun h => hall (hlo _ h), ⟨g, hhi g hg, htenants⟩, ⟨g', hhi g' hg', hpaths⟩⟩
    | ok reply =>
      cases request with
      | canPlatform request =>
        rw [← hreply]
        exact platformBracketed_canPlatform hlo hhi request
      | _ =>
        simp only [PlatformRequest.reply, hmerge] at hreply
        cases hreply

end Reply

/-! ## One query against answers from many states -/

theorem mem_platformData_assigned {src : PlatformAuthorizationSource} {subject : PlatformSubject}
    {as : List PlatformRoleAssignment} (h : src.platformRoleAssignments subject = .ok as)
    (a : PlatformRoleAssignment) : a ∈ as ↔ .assigned a ∈ src.data subject :=
  Results.mem_iff_of_ok h a

theorem mem_platformData_parent {src : PlatformAuthorizationSource} {subject : PlatformSubject}
    {r : PlatformRoleId} {ps : List PlatformRoleId} (h : src.platformParentRoles r = .ok ps)
    (p : PlatformRoleId) : p ∈ ps ↔ .parent r p ∈ src.data subject :=
  Results.mem_iff_of_ok h p

theorem mem_platformData_permission {src : PlatformAuthorizationSource}
    {subject : PlatformSubject} {r : PlatformRoleId} {ps : List Permission}
    (h : src.platformRolePermissions r = .ok ps) (p : Permission) :
    p ∈ ps ↔ .permission r p ∈ src.data subject :=
  Results.mem_iff_of_ok h p

section Engine

variable {engine : PlatformEngine} {subject : PlatformSubject} {required : Permission}
  {srcs : List PlatformAuthorizationSource}

/-- Every read is answered by one of the sources. -/
def ReadFromAny (srcs : List PlatformAuthorizationSource) (op : PlatformSig.Op)
    (r : PlatformSig.Resp op) : Prop :=
  ∃ src ∈ srcs, r = src.answer op

theorem triple_readPlatform {r : PlatformRead} {P : r.Answer → Prop}
    (hP : ∀ src ∈ srcs, ∀ a, src.answer r = .ok a → P a) :
    (readPlatform r).run.Triple (ReadFromAny srcs) (fun _ => True) (Fallible.OnOk P) := by
  refine ⟨trivial, ?_⟩
  rintro a ⟨src, hsrc, rfl⟩
  show Fallible.OnOk P ((src.answer r).mapError Error.source)
  cases ha : src.answer r with
  | ok v => exact hP src hsrc v ha
  | error e => trivial

theorem platformReadsBetween (subject : PlatformSubject) :
    ReadsBetween engine.roleReads (ReadFromAny srcs) (fun _ => True)
      (always srcs fun src => src.data subject) (ever srcs fun src => src.data subject) where
  parentRoles _ := triple_readPlatform fun _ hsrc _ hparents =>
    between_of_read hsrc (mem_platformData_parent hparents)
  rolePermissions _ := triple_readPlatform fun _ hsrc _ hpermissions =>
    between_of_read hsrc (mem_platformData_permission hpermissions)

/-- The grants that match: none for a principal that was seen inactive, else
between what all and what any of the sources grant. -/
inductive PlatformSeen (engine : PlatformEngine) (subject : PlatformSubject)
    (required : Permission) (srcs : List PlatformAuthorizationSource) :
    List PlatformGrantScope → Prop
  | inactive {src : PlatformAuthorizationSource} (hsrc : src ∈ srcs)
      (hstatus : src.platformPrincipalStatus subject = .ok .inactive) :
      PlatformSeen engine subject required srcs []
  | active {src : PlatformAuthorizationSource} (hsrc : src ∈ srcs)
      (hstatus : src.platformPrincipalStatus subject = .ok .active)
      {scopes : List PlatformGrantScope}
      (complete : ∀ g, PlatformGranted engine.config required
        (always srcs fun src => src.data subject) g → g ∈ scopes)
      (sound : ∀ g ∈ scopes, PlatformGranted engine.config required
        (ever srcs fun src => src.data subject) g) :
      PlatformSeen engine subject required srcs scopes

theorem triple_matchingGrants :
    (engine.matchingGrants subject required).run.Triple (ReadFromAny srcs) (fun _ => True)
      (Fallible.OnOk fun grants =>
        PlatformSeen engine subject required srcs (grants.map ScopedGrant.scope)) := by
  have hstatus : (readPlatform (.platformPrincipalStatus subject)).run.Triple (ReadFromAny srcs)
      (fun _ => True) (Fallible.OnOk fun status => ∃ src ∈ srcs,
        src.platformPrincipalStatus subject = .ok status) :=
    triple_readPlatform fun src hsrc status h => ⟨src, hsrc, h⟩
  have hassignments : (readPlatform (.platformRoleAssignments subject)).run.Triple
      (ReadFromAny srcs) (fun _ => True) (Fallible.OnOk fun as => ∀ a,
        (.assigned a ∈ always srcs (fun src => src.data subject) → a ∈ as) ∧
        (a ∈ as → .assigned a ∈ ever srcs fun src => src.data subject)) :=
    triple_readPlatform fun src hsrc as has => between_of_read hsrc (mem_platformData_assigned has)
  apply Fallible.triple_ok_bind hstatus
  rintro status ⟨src, hsrc, hseen⟩
  cases status with
  | inactive => exact .inactive hsrc hseen
  | active =>
    have heffective : (engine.effectiveGrants subject).run.Triple (ReadFromAny srcs)
        (fun _ => True) (Fallible.OnOk (Between engine.config.enableRoleHierarchy
          (always srcs fun src => src.data subject) (ever srcs fun src => src.data subject))) := by
      apply Fallible.triple_ok_bind hassignments
      intro as has
      exact triple_between (platformReadsBetween subject) has
    apply Fallible.triple_ok_bind heffective
    intro grants hgrants
    obtain ⟨hcomplete, hsound⟩ := hgrants.scopes required engine.config.enableWildcard
    refine .active hsrc hseen ?_ ?_
    · rintro g ⟨a, ha, rfl⟩
      exact hcomplete a ha
    · intro g hg
      exact hsound g hg

end Engine

/-! ## Runs -/

/-- How a query ends that was answered from `srcs` along the trace `tr`. -/
inductive PlatformOutcome (engine : PlatformEngine) (request : PlatformRequest)
    (srcs : List PlatformAuthorizationSource) (tr : List (Event PlatformSig)) :
    Except Error PlatformReply → Prop
  | failed {e : Error} (hfailed : FailedMatching engine request.subject tr e) :
      PlatformOutcome engine request srcs tr (.error e)
  | inactive {src : PlatformAuthorizationSource} (hsrc : src ∈ srcs)
      (hstatus : src.platformPrincipalStatus request.subject = .ok .inactive) :
      PlatformOutcome engine request srcs tr (request.reply [])
  | active {src : PlatformAuthorizationSource} (hsrc : src ∈ srcs)
      (hstatus : src.platformPrincipalStatus request.subject = .ok .active)
      {res : Except Error PlatformReply}
      (hres : PlatformBracketed
        (PlatformGranted engine.config request.permission
          (always srcs fun src => src.data request.subject))
        (PlatformGranted engine.config request.permission
          (ever srcs fun src => src.data request.subject)) request res) :
      PlatformOutcome engine request srcs tr res

theorem platformOutcome_of_path {engine : PlatformEngine} {request : PlatformRequest}
    {srcs : List PlatformAuthorizationSource} {tr : List (Event PlatformSig)}
    {res : Except Error PlatformReply}
    (hpath : Prog.Path (engine.serve request).run tr (.ret res))
    (hanswers : ∀ ev ∈ tr, ReadFromAny srcs ev.op ev.resp) :
    PlatformOutcome engine request srcs tr res := by
  rw [engine.serve_eq, Fallible.run_bind] at hpath
  obtain ⟨tr₁, tr₂, matching, rfl, hmatching, hreply⟩ := Prog.Path.of_bind hpath
  cases matching with
  | error e =>
    obtain ⟨rfl, hret⟩ := hreply.of_ret
    cases hret
    rw [List.append_nil]
    exact .failed (failsBy_matchingGrants _ _ hmatching)
  | ok grants =>
    obtain ⟨rfl, hret⟩ := hreply.of_ret
    injection hret with hret
    rw [List.append_nil] at hanswers ⊢
    have hseen : PlatformSeen engine request.subject request.permission srcs
        (grants.map ScopedGrant.scope) := (triple_matchingGrants.path hmatching hanswers).1
    rw [hret]
    generalize grants.map ScopedGrant.scope = scopes at hseen
    cases hseen with
    | inactive hsrc hstatus => exact .inactive hsrc hstatus
    | active hsrc hstatus hcomplete hsound =>
      exact .active hsrc hstatus (platformBracketed_reply hcomplete hsound request)

/-- Every step is taken in the state that those before it have left. -/
theorem platformAfter_history (src : PlatformAuthorizationSource) (parties : ℕ → PlatformParty)
    (sched : List ℕ) :
    Records PlatformAuthorizationSource.handle src (platformAfter src parties sched).hist
        (platformAfter src parties sched).shared ∧
      ∀ i, Prog.Path (parties i).prog (trail i (platformAfter src parties sched).hist)
        ((platformAfter src parties sched).threads i) :=
  Pool.run_from_start _ _ _ _

/-- What a thread that asks has done when it has its result. -/
theorem path_of_asked {src : PlatformAuthorizationSource} {parties : ℕ → PlatformParty}
    {sched : List ℕ} {i : ℕ} {engine : PlatformEngine} {request : PlatformRequest}
    (hi : parties i = .ask engine request) {res : Except Error PlatformReply}
    (hret : (platformAfter src parties sched).threads i = .ret (some res)) :
    ∃ tr, trail i (platformAfter src parties sched).hist = tr.map Event.left ∧
      Prog.Path (engine.serve request).run tr (.ret res) := by
  have hpath := (platformAfter_history src parties sched).2 i
  rw [hret, hi] at hpath
  obtain ⟨tr, q, hask, htrail, hq⟩ := Prog.Path.of_left hpath
  cases q with
  | call op k => cases hq
  | ret out =>
    have hout : some res = out := Prog.ret.inj hq
    subst hout
    obtain ⟨tr₁, tr₂, res', rfl, hserve, hsome⟩ := Prog.Path.of_bind hask
    obtain ⟨rfl, hret'⟩ := hsome.of_ret
    have hres : res = res' := Option.some.inj (Prog.ret.inj hret')
    subst hres
    rw [List.append_nil] at htrail
    exact ⟨tr₁, htrail, hserve⟩

/-- Each of its reads was answered by the source as it was then. -/
theorem answered_of_trail {src : PlatformAuthorizationSource} {parties : ℕ → PlatformParty}
    {sched : List ℕ} {i : ℕ} {tr : List (Event PlatformSig)}
    (htrail : trail i (platformAfter src parties sched).hist = tr.map Event.left)
    {ev : Event PlatformSig} (hev : ev ∈ tr) :
    ∃ o ∈ (platformAfter src parties sched).hist, o.thread = i ∧ o.event = ev.left ∧
      ev.resp = o.pre.answer ev.op := by
  have hmem : (Event.left ev : Event PlatformWorldSig) ∈
      trail i (platformAfter src parties sched).hist := by
    rw [htrail]
    exact List.mem_map.mpr ⟨ev, hev, rfl⟩
  obtain ⟨o, ho, hthread, hevent⟩ := mem_trail.mp hmem
  have hresp := (platformAfter_history src parties sched).1.resp o ho
  rw [hevent] at hresp
  exact ⟨o, ho, hthread, hevent, hresp⟩

namespace Sample

/-- The support role loses its permissions. -/
def revoke (src : PlatformAuthorizationSource) : PlatformAuthorizationSource :=
  { src with platformRolePermissions := fun _ => .ok [] }

end Sample

end RsTenant
